import Stencil.Proofs.Instance.Layout
import Stencil.Instance.Update

/-! Removal. An instance whose block stands in a foreign parent is removed by letting go
the nodes of its block and nothing else; so are the surplus instances of a group. -/
namespace Stencil
open Document

/-- The second document is the first with the nodes `ns` let go by their parent `p`. -/
structure LetGo (p : Nat) (ns : List NodeId) (d e : Document) : Prop where
  size_eq : e.size = d.size
  kind?_eq : ∀ x, e.kind? x = d.kind? x
  parent?_eq : ∀ x, e.parent? x = if x ∈ ns then none else d.parent? x
  children_eq : ∀ x : Nat, e.children x =
    if x = p then (d.children x).filter (· ∉ ns) else d.children x
  linked : d.Linked → e.Linked

namespace LetGo

variable {p : Nat} {ns ms : List NodeId} {d e f : Document}

theorem refl (p : Nat) (d : Document) : LetGo p [] d d :=
  ⟨rfl, fun _ => rfl, fun _ => by simp, fun _ => by simp, id⟩

theorem trans (h : LetGo p ns d e) (h' : LetGo p ms e f) : LetGo p (ns ++ ms) d f where
  size_eq := h'.size_eq.trans h.size_eq
  kind?_eq x := (h'.kind?_eq x).trans (h.kind?_eq x)
  parent?_eq x := by
    rw [h'.parent?_eq, h.parent?_eq]
    by_cases hn : x ∈ ns <;> by_cases hm : x ∈ ms <;> simp [hn, hm]
  children_eq x := by
    rw [h'.children_eq, h.children_eq]
    split
    · rw [List.filter_filter]
      refine List.filter_congr fun y _ => ?_
      by_cases hn : y ∈ ns <;> by_cases hm : y ∈ ms <;> simp [hn, hm]
    · rfl
  linked hl := h'.linked (h.linked hl)

theorem of_mem_iff (h : LetGo p ns d e) (hm : ∀ x, x ∈ ns ↔ x ∈ ms) : LetGo p ms d e where
  size_eq := h.size_eq
  kind?_eq := h.kind?_eq
  parent?_eq x := by rw [h.parent?_eq, if_congr (hm x) rfl rfl]
  children_eq x := by
    rw [h.children_eq]
    split
    · exact List.filter_congr fun y _ => by simp [hm y]
    · rfl
  linked := h.linked

theorem unlink {n : Nat} (h : d.parent? n = some p) : LetGo p [n] d (d.unlink n) where
  size_eq := size_unlink d n
  kind?_eq := kind?_unlink d n
  parent?_eq x := by
    rw [parent?_unlink]
    by_cases hx : x = n <;> simp [hx]
  children_eq x := by
    rw [children_unlink, h]
    by_cases hx : x = p
    · rw [if_pos (by rw [hx]), if_pos hx]
      exact List.filter_congr fun y _ => by by_cases hy : y = n <;> simp [hy]
    · rw [if_neg (by simpa using Ne.symm hx), if_neg hx]
  linked hl := hl.unlink n

/-- Nodes that were not let go keep their parent. -/
theorem keep (h : LetGo p ns d e) (hdis : ∀ x ∈ ms, x ∉ ns)
    (hp : ∀ x ∈ ms, d.parent? x = some p) : ∀ x ∈ ms, e.parent? x = some p := by
  intro x hx
  rw [h.parent?_eq, if_neg (hdis x hx)]
  exact hp x hx

/-- The other nodes stay when the first is taken out. -/
theorem keep_unlink {n : Nat} (hnd : (n :: ns).Nodup) (hp : ∀ x ∈ n :: ns, d.parent? x = some p) :
    ∀ x ∈ ns, (d.unlink n).parent? x = some p := by
  refine (LetGo.unlink (hp n (by simp))).keep ?_ fun x hx => hp x (by simp [hx])
  intro x hx hxn
  rw [List.mem_singleton.mp hxn] at hx
  exact (List.nodup_cons.mp hnd).1 hx

theorem changesOnly (h : LetGo p ns d e) : ChangesOnly (fun n => n = p ∨ n ∈ ns) d e where
  size_le := Nat.le_of_eq h.size_eq.symm
  get?_eq n _ hR := by
    refine get?_congr (h.kind?_eq n) ?_ ?_
    · rw [h.parent?_eq, if_neg fun hm => hR (.inr hm)]
    · rw [h.children_eq, if_neg fun he => hR (.inl he)]

/-- What is let go determines the document. -/
theorem unique (h : LetGo p ns d e) (h' : LetGo p ns d f) : e = f := by
  have hget : ∀ n, e.get? n = f.get? n := by
    intro n
    apply get?_congr
    · rw [h.kind?_eq, h'.kind?_eq]
    · rw [h.parent?_eq, h'.parent?_eq]
    · rw [h.children_eq, h'.children_eq]
  cases e
  cases f
  congr
  exact Array.ext_getElem? hget

/-- Children are let go by taking them out one after the other, and none is refused. -/
theorem foldlM_removeChild (ns : List NodeId) : ∀ d : Document, ns.Nodup →
    (∀ n ∈ ns, d.parent? n = some p) →
      ∃ e, ns.foldlM (fun d n => d.removeChild p n) d = .ok e ∧ LetGo p ns d e := by
  induction ns with
  | nil => exact fun d _ _ => ⟨d, rfl, .refl p d⟩
  | cons n ns ih =>
    intro d hnd hp
    have hn : d.parent? n = some p := hp n (by simp)
    have hsome : (d.get? n).isNone = false := by
      cases hget : d.get? n with
      | none => simp [parent?, hget] at hn
      | some => rfl
    obtain ⟨e, he, hg⟩ := ih (d.unlink n) (List.nodup_cons.mp hnd).2 (keep_unlink hnd hp)
    refine ⟨e, ?_, (LetGo.unlink hn).trans hg⟩
    rw [List.foldlM_cons, removeChild, hsome, if_neg (by simp), if_pos hn]
    exact he

end LetGo

namespace Instance

theorem takeOut_letGo {p : Nat} {root : Option NodeId} (hr : root ≠ some p) (nodes : List NodeId)
    (ss : List Slot) : ∀ (phase : Phase) (d : Document), (ss.filterMap (nodes[·]?)).Nodup →
      (∀ n ∈ ss.filterMap (nodes[·]?), d.parent? n = some p) →
      LetGo p (ss.filterMap (nodes[·]?)) d (takeOut root nodes ss phase d).2 := by
  induction ss with
  | nil => exact fun _ d _ _ => .refl p d
  | cons s ss ih =>
    intro phase d hnd hp
    rw [takeOut]
    cases hs : nodes[s]? with
    | none =>
      rw [List.filterMap_cons_none hs] at hnd hp ⊢
      exact ih phase d hnd hp
    | some n =>
      rw [List.filterMap_cons_some hs] at hnd hp ⊢
      have hn : d.parent? n = some p := hp n (by simp)
      simp only [hn, if_neg (Ne.symm hr)]
      exact (LetGo.unlink hn).trans
        (ih _ _ (List.nodup_cons.mp hnd).2 (LetGo.keep_unlink hnd hp))

/-- An instance whose nodes are taken out of a foreign parent is detached. -/
theorem takeOut_phase {p : Nat} {root : Option NodeId} (hr : root ≠ some p) (nodes : List NodeId)
    (ss : List Slot) : ∀ (phase : Phase) (d : Document), (ss.filterMap (nodes[·]?)).Nodup →
      (∀ n ∈ ss.filterMap (nodes[·]?), d.parent? n = some p) →
      (takeOut root nodes ss phase d).1 =
        if ss.filterMap (nodes[·]?) = [] then phase else .detached := by
  induction ss with
  | nil => exact fun _ _ _ _ => rfl
  | cons s ss ih =>
    intro phase d hnd hp
    rw [takeOut]
    cases hs : nodes[s]? with
    | none =>
      rw [List.filterMap_cons_none hs] at hnd hp ⊢
      exact ih phase d hnd hp
    | some n =>
      rw [List.filterMap_cons_some hs] at hnd hp ⊢
      have hn : d.parent? n = some p := hp n (by simp)
      simp only [hn, if_neg (Ne.symm hr)]
      rw [ih _ _ (List.nodup_cons.mp hnd).2 (LetGo.keep_unlink hnd hp), ite_self,
        if_neg (List.cons_ne_nil _ _)]

/-- The blocks of the marked groups, the first of which has the number `g`. -/
private def markedBlocks (marked : List Group) (g : Nat) : List (List Instance) → List NodeId
  | [] => []
  | is :: gs => (if marked.contains g then blockAll is else []) ++ markedBlocks marked (g + 1) gs

private theorem mem_markedBlocks {marked : List Group} {x : NodeId} (gs : List (List Instance)) :
    ∀ g : Nat, x ∈ markedBlocks marked g gs ↔
      ∃ k is, g + k ∈ marked ∧ gs[k]? = some is ∧ x ∈ blockAll is := by
  induction gs with
  | nil => simp [markedBlocks]
  | cons is gs ih =>
    intro g
    rw [markedBlocks, List.mem_append, ih]
    constructor
    · rintro (h | ⟨k, js, hk, hj, hx⟩)
      · split at h
        · rename_i hm
          exact ⟨0, is, by simpa using hm, rfl, h⟩
        · cases h
      · exact ⟨k + 1, js, by rwa [show g + (k + 1) = g + 1 + k by omega], hj, hx⟩
    · rintro ⟨k, js, hk, hj, hx⟩
      cases k with
      | zero =>
        left
        cases hj
        rw [if_pos (by simpa using hk)]
        exact hx
      | succ k => exact .inr ⟨k, js, by rwa [show g + 1 + k = g + (k + 1) by omega], hj, hx⟩

/-- That removal lets go the block of an instance. -/
private def Goes (p : Nat) (i : Instance) : Prop :=
  ∀ d : Document, i.owned.Nodup → p ∉ i.owned → (∀ n ∈ i.block, d.parent? n = some p) →
    LetGo p i.block d (i.remove d).2

private theorem removeAll_letGo {p : Nat} {is : List Instance} (h : ∀ j ∈ is, Goes p j) :
    ∀ d : Document, (ownedAll is).Nodup → p ∉ ownedAll is →
      (∀ n ∈ blockAll is, d.parent? n = some p) → LetGo p (blockAll is) d (removeAll is d).2 := by
  induction is with
  | nil => exact fun d _ _ _ => .refl p d
  | cons i is ih =>
    intro d hnd hp hpar
    rw [ownedAll] at hnd hp
    rw [blockAll] at hpar ⊢
    obtain ⟨hni, hns, hdis⟩ := List.nodup_append.mp hnd
    have hi := h i (by simp) d hni (fun hm => hp (by simp [hm])) (fun n hn => hpar n (by simp [hn]))
    rw [removeAll]
    refine hi.trans (ih (fun j hj => h j (by simp [hj])) _ hns (fun hm => hp (by simp [hm]))
      (hi.keep ?_ fun x hx => hpar x (by simp [hx])))
    intro x hx hxi
    exact hdis x (body_subset_owned i (block_subset_body i x hxi)) x
      (blockAll_subset_ownedAll hx) rfl

private theorem markedBlocks_subset {marked : List Group} {x : NodeId} {g : Nat}
    {gs : List (List Instance)} (h : x ∈ markedBlocks marked g gs) : x ∈ ownedGroups gs := by
  obtain ⟨k, is, _, hi, hx⟩ := (mem_markedBlocks gs g).mp h
  rw [ownedGroups_eq]
  exact List.mem_flatMap.mpr ⟨is, List.mem_of_getElem? hi, blockAll_subset_ownedAll hx⟩

private theorem removeGroups_letGo {p : Nat} {marked : List Group} {gs : List (List Instance)}
    (h : ∀ is ∈ gs, ∀ j ∈ is, Goes p j) :
    ∀ (g : Nat) (d : Document), (ownedGroups gs).Nodup → p ∉ ownedGroups gs →
      (∀ n ∈ markedBlocks marked g gs, d.parent? n = some p) →
      LetGo p (markedBlocks marked g gs) d (removeGroups marked g gs d).2 := by
  induction gs with
  | nil => exact fun _ d _ _ _ => .refl p d
  | cons is gs ih =>
    intro g d hnd hp hpar
    rw [ownedGroups] at hnd hp
    rw [markedBlocks] at hpar ⊢
    obtain ⟨hni, hns, hdis⟩ := List.nodup_append.mp hnd
    have hi : LetGo p (if marked.contains g then blockAll is else []) d
        (if marked.contains g then removeAll is d else (is, d)).2 := by
      by_cases hm : marked.contains g
      · rw [if_pos hm, if_pos hm]
        rw [if_pos hm] at hpar
        exact removeAll_letGo (h is (by simp)) d hni (fun hm => hp (by simp [hm]))
          (fun n hn => hpar n (by simp [hn]))
      · rw [if_neg hm, if_neg hm]
        exact .refl p d
    rw [removeGroups]
    refine hi.trans (ih (fun js hjs => h js (by simp [hjs])) (g + 1) _ hns
      (fun hm => hp (by simp [hm])) (hi.keep ?_ fun x hx => hpar x (by simp [hx])))
    intro x hx hxi
    split at hxi
    · exact hdis x (blockAll_subset_ownedAll hxi) x (markedBlocks_subset hx) rfl
    · cases hxi

/-- The block of an instance is what removal goes through: the blocks of the groups whose
anchors are root slots, and the nodes of these slots. -/
private theorem mem_block_iff {i : Instance} (ht : i.template.Sound) {x : NodeId} :
    x ∈ markedBlocks i.template.rootGroups 0 i.groups ++
        i.template.rootSlots.filterMap (i.nodes[·]?) ↔ x ∈ i.block := by
  have hroot : ∀ g, g ∈ i.template.rootGroups ↔
      ∃ s ∈ i.template.rootSlots, i.template.groupAt? s = some g := by
    intro g
    unfold Template.rootGroups
    rw [List.mem_filterMap]
    constructor
    · rintro ⟨x, hx, hg⟩
      cases x <;> simp only [Option.ite_none_right_eq_some, Option.some.injEq, reduceCtorEq] at hg
      rename_i dir name s v g'
      obtain ⟨hs, rfl⟩ := hg
      exact ⟨s, by simpa using hs, ht.groupAt?_eq.mpr (Template.mem_anchored.mpr ⟨_, _, _, hx⟩)⟩
    · rintro ⟨s, hs, hg⟩
      obtain ⟨dir, name, v, hx⟩ := Template.mem_anchored.mp (ht.groupAt?_eq.mp hg)
      exact ⟨_, hx, by simp [hs]⟩
  rw [List.mem_append, mem_markedBlocks, block_eq, layout, ← Template.rootSlots_eq]
  simp only [List.mem_filterMap, List.mem_flatMap, mem_slotBlock, Nat.zero_add, hroot]
  constructor
  · rintro (⟨g, is, ⟨s, hs, hg⟩, hi, hx⟩ | ⟨s, hs, hn⟩)
    · rw [blockAll_eq, List.mem_flatMap] at hx
      exact ⟨s, hs, .inr ⟨g, is, hg, hi, hx⟩⟩
    · exact ⟨s, hs, .inl hn⟩
  · rintro ⟨s, hs, hn | ⟨g, is, hg, hi, hx⟩⟩
    · exact .inr ⟨s, hs, hn⟩
    · exact .inl ⟨g, is, ⟨s, hs, hg⟩, hi, by rwa [blockAll_eq, List.mem_flatMap]⟩

private theorem nodup_filterMap_nodes {nodes : List NodeId} (hn : nodes.Nodup) {ss : List Slot}
    (hs : ss.Nodup) : (ss.filterMap (nodes[·]?)).Nodup := by
  refine hs.filterMap ?_
  intro a b x ha hb
  obtain ⟨hla, ha⟩ := List.getElem?_eq_some_iff.mp ha
  obtain ⟨hlb, hb⟩ := List.getElem?_eq_some_iff.mp hb
  exact (hn.getElem_inj_iff).mp (ha.trans hb.symm)

/-- The nested instances beside the root slots go first, and leave the nodes of the slots. -/
private theorem removeGroups_root {i : Instance} (ht : i.template.Sound) {p : Nat}
    (hgoes : ∀ is ∈ i.groups, ∀ j ∈ is, Goes p j) {d : Document} (hnd : i.owned.Nodup)
    (hp : p ∉ ownedGroups i.groups) (hpar : ∀ n ∈ i.block, d.parent? n = some p) :
    LetGo p (markedBlocks i.template.rootGroups 0 i.groups) d
        (removeGroups i.template.rootGroups 0 i.groups d).2 ∧
      (i.template.rootSlots.filterMap (i.nodes[·]?)).Nodup ∧
      ∀ n ∈ i.template.rootSlots.filterMap (i.nodes[·]?),
        (removeGroups i.template.rootGroups 0 i.groups d).2.parent? n = some p := by
  rw [owned_eq] at hnd
  obtain ⟨_, hbody, _⟩ := List.nodup_append.mp hnd
  obtain ⟨hnodes, hgroups, hdis⟩ :=
    List.nodup_append.mp (show (i.nodes ++ ownedGroups i.groups).Nodup from hbody)
  have hiff := fun x => (mem_block_iff (x := x) ht)
  have hg := removeGroups_letGo hgoes 0 d hgroups hp
    fun n hn => hpar n ((hiff n).mp (List.mem_append_left _ hn))
  refine ⟨hg, ?_, hg.keep (fun x hx hm => ?_) fun n hn =>
    hpar n ((hiff n).mp (List.mem_append_right _ hn))⟩
  · exact nodup_filterMap_nodes hnodes (by rw [Template.rootSlots_eq]; exact ht.nodup_slotsAt _)
  · obtain ⟨s, _, hs⟩ := List.mem_filterMap.mp hx
    exact hdis x (List.mem_of_getElem? hs) x (markedBlocks_subset hm) rfl

private theorem root_ne {i : Instance} {p : NodeId} (hp : p ∉ i.owned) : i.root ≠ some p := by
  intro he
  rw [owned_eq, he] at hp
  exact hp (by simp)

private theorem not_mem_ownedGroups {i : Instance} {p : NodeId} (hp : p ∉ i.owned) :
    p ∉ ownedGroups i.groups := fun hm =>
  hp (by rw [owned_eq]; exact List.mem_append_right _ (List.mem_append_right _ hm))

private theorem goes_of_live {c : Catalog} (hc : c.Sound) {d₀ : Document} {i : Instance} (p : Nat)
    (hl : i.Live c d₀) : Goes p i := by
  induction hl with
  | @intro i hs _ ih =>
    intro d hnd hp hpar
    have ht := hc.template _ hs.template_mem
    obtain ⟨hg, hnodup, hkept⟩ := removeGroups_root ht ih hnd (not_mem_ownedGroups hp) hpar
    have hslots := takeOut_letGo (root_ne hp) i.nodes i.template.rootSlots i.phase _ hnodup hkept
    have := (hg.trans hslots).of_mem_iff fun x => mem_block_iff ht
    cases i
    rw [remove]
    exact this

theorem remove_letGo {c : Catalog} (hc : c.Sound) {d₀ d : Document} {i : Instance} {p : Nat}
    (hl : i.Live c d₀) (hnd : i.owned.Nodup) (hp : p ∉ i.owned)
    (hpar : ∀ n ∈ i.block, d.parent? n = some p) : LetGo p i.block d (i.remove d).2 :=
  goes_of_live hc p hl d hnd hp hpar

/-- An instance that is removed from a foreign parent knows it. -/
theorem remove_phase {c : Catalog} (hc : c.Sound) {d₀ d : Document} {i : Instance} {p : Nat}
    (hl : i.Live c d₀) (hnd : i.owned.Nodup) (hp : p ∉ i.owned)
    (hpar : ∀ n ∈ i.block, d.parent? n = some p) {s : Slot} (hs : s ∈ i.template.rootSlots) :
    (i.remove d).1.phase = .detached := by
  have ht := hc.template _ hl.stands.template_mem
  obtain ⟨_, hnodup, hkept⟩ := removeGroups_root ht
    (fun is his j hj => goes_of_live hc p (hl.nested is his j hj)) hnd (not_mem_ownedGroups hp) hpar
  have hphase := takeOut_phase (root_ne hp) i.nodes i.template.rootSlots i.phase _ hnodup hkept
  have hne : i.template.rootSlots.filterMap (i.nodes[·]?) ≠ [] := by
    intro he
    have hlt : s < i.nodes.length := by
      rw [hl.stands.nodes_length]
      exact ht.slot_lt (Template.rootSlots_eq i.template ▸ hs)
    have hm : i.nodes[s] ∈ i.template.rootSlots.filterMap (i.nodes[·]?) :=
      List.mem_filterMap.mpr ⟨s, hs, List.getElem?_eq_getElem hlt⟩
    rw [he] at hm
    cases hm
  rw [if_neg hne] at hphase
  cases i
  rw [remove]
  exact hphase

/-! ## Removal from the fragment

The nodes of an instance stay in its own fragment. The instances nested beside its root
slots do not: this fragment is a foreign parent for them. -/

/-- The blocks of the nested instances whose anchors are root slots. -/
def rootRows (i : Instance) : List NodeId :=
  i.template.rootGroups.flatMap fun g => blockAll (i.groups.getD g [])

private theorem mem_rootRows {i : Instance} {x : NodeId} :
    x ∈ markedBlocks i.template.rootGroups 0 i.groups ↔ x ∈ i.rootRows := by
  rw [mem_markedBlocks, rootRows, List.mem_flatMap]
  constructor
  · rintro ⟨k, is, hk, his, hx⟩
    refine ⟨k, by rwa [Nat.zero_add] at hk, ?_⟩
    rwa [List.getD_eq_getElem?_getD, his]
  · rintro ⟨k, hk, hx⟩
    rw [List.getD_eq_getElem?_getD] at hx
    cases his : i.groups[k]? with
    | none =>
      rw [his] at hx
      cases hx
    | some is =>
      rw [his] at hx
      exact ⟨k, is, by rwa [Nat.zero_add], his, hx⟩

theorem rootRows_subset_block {i : Instance} (ht : i.template.Sound) {x : NodeId}
    (h : x ∈ i.rootRows) : x ∈ i.block :=
  (mem_block_iff ht).mp (List.mem_append_left _ (mem_rootRows.mpr h))

theorem takeOut_own {r : NodeId} {nodes : List NodeId} {ss : List Slot} {d : Document}
    (h : ∀ n ∈ ss.filterMap (nodes[·]?), d.parent? n = some r) (phase : Phase) :
    takeOut (some r) nodes ss phase d = (phase, d) := by
  induction ss with
  | nil => rfl
  | cons s ss ih =>
    rw [takeOut]
    cases hs : nodes[s]? with
    | none =>
      rw [List.filterMap_cons_none hs] at h
      exact ih h
    | some n =>
      rw [List.filterMap_cons_some hs] at h
      simp only [h n (by simp), if_true]
      exact ih fun m hm => h m (by simp [hm])

/-- An instance that fills its fragment is removed by letting go the instances nested beside
its root slots. -/
theorem remove_own {c : Catalog} (hc : c.Sound) {d₀ d : Document} {i : Instance} {r : NodeId}
    (hl : i.Live c d₀) (hnd : i.owned.Nodup) (hr : i.root = some r)
    (hpar : ∀ n ∈ i.block, d.parent? n = some r) :
    let (gs, e) := removeGroups i.template.rootGroups 0 i.groups d
    i.remove d = ({ i with groups := gs }, e) ∧ LetGo r i.rootRows d e := by
  have ht := hc.template _ hl.stands.template_mem
  have hr' : r ∉ ownedGroups i.groups := by
    intro hm
    rw [owned_eq, hr] at hnd
    exact (List.nodup_append.mp hnd).2.2 r (by simp) r (List.mem_append_right _ hm) rfl
  obtain ⟨hg, _, hkept⟩ := removeGroups_root ht
    (fun is his j hj => goes_of_live hc r (hl.nested is his j hj)) hnd hr' hpar
  refine ⟨?_, hg.of_mem_iff fun x => mem_rootRows⟩
  have hown := takeOut_own hkept i.phase
  rw [← hr] at hown
  cases i
  rw [remove]
  simp only [hown]

private theorem removeGroups_of_empty {marked : List Group} (gs : List (List Instance))
    (d : Document) :
    ∀ g : Nat, (∀ k is, g + k ∈ marked → gs[k]? = some is → is = []) →
      removeGroups marked g gs d = (gs, d) := by
  induction gs with
  | nil => exact fun _ _ => rfl
  | cons is gs ih =>
    intro g h
    have htail := ih (g + 1) fun k js hk hj =>
      h (k + 1) js (by rwa [show g + (k + 1) = g + 1 + k by omega]) hj
    rw [removeGroups]
    by_cases hm : marked.contains g
    · obtain rfl := h 0 is (by simpa using hm) rfl
      simp only [if_pos hm, removeAll, htail]
    · simp only [if_neg hm, htail]

/-- Nothing happens where no instance is nested beside a root slot. -/
theorem remove_own_of_empty {c : Catalog} (hc : c.Sound) {d₀ d : Document} {i : Instance}
    {r : NodeId} (hl : i.Live c d₀) (hnd : i.owned.Nodup) (hr : i.root = some r)
    (hpar : ∀ n ∈ i.block, d.parent? n = some r)
    (hempty : ∀ g ∈ i.template.rootGroups, i.groups.getD g [] = []) : i.remove d = (i, d) := by
  have hgroups : removeGroups i.template.rootGroups 0 i.groups d = (i.groups, d) := by
    refine removeGroups_of_empty _ _ 0 fun k is hk hi => ?_
    have := hempty k (by rwa [Nat.zero_add] at hk)
    rwa [List.getD_eq_getElem?_getD, hi] at this
  rw [(remove_own hc hl hnd hr hpar).1, hgroups]
  cases i
  rfl

end Instance

/-! ## Surplus instances -/

namespace Children
open Instance

private theorem foldl_release_letGo {c : Catalog} (hc : c.Sound) (name : String) {d₀ : Document}
    {p : Nat} {is : List Instance} (hl : ∀ j ∈ is, j.Live c d₀) :
    ∀ sc : Scene, (ownedAll is).Nodup → p ∉ ownedAll is →
      (∀ n ∈ blockAll is, sc.document.parent? n = some p) →
      LetGo p (blockAll is) sc.document
        (is.foldl (fun sc i => (i.release name sc).2) sc).document := by
  induction is with
  | nil => exact fun sc _ _ _ => .refl p sc.document
  | cons i is ih =>
    intro sc hnd hp hpar
    rw [ownedAll] at hnd hp
    rw [blockAll] at hpar ⊢
    obtain ⟨hni, hns, hdis⟩ := List.nodup_append.mp hnd
    have hi : LetGo p i.block sc.document (i.release name sc).2.document :=
      remove_letGo hc (hl i (by simp)) hni (fun hm => hp (by simp [hm]))
        (fun n hn => hpar n (by simp [hn]))
    rw [List.foldl_cons]
    refine hi.trans (ih (fun j hj => hl j (by simp [hj])) _ hns (fun hm => hp (by simp [hm]))
      (hi.keep ?_ fun x hx => hpar x (by simp [hx])))
    intro x hx hxi
    exact hdis x (body_subset_owned i (block_subset_body i x hxi)) x
      (blockAll_subset_ownedAll hx) rfl

/-- Instances are given back from the end, and only their blocks are let go. -/
theorem shrink_letGo {c : Catalog} (hc : c.Sound) (name : String) {d₀ : Document} {p : Nat}
    (n : Nat) {is : List Instance} (hl : ∀ j ∈ is, j.Live c d₀) {sc : Scene}
    (hnd : (ownedAll is).Nodup) (hp : p ∉ ownedAll is)
    (hpar : ∀ n ∈ blockAll is, sc.document.parent? n = some p) :
    LetGo p (blockAll (is.drop n)) sc.document (shrink name n is sc).2.document := by
  have hperm : (ownedAll (is.drop n).reverse).Perm (ownedAll (is.drop n)) := by
    rw [ownedAll_eq, ownedAll_eq]
    exact (List.reverse_perm _).flatMap_right owned
  have hmem : ∀ x, x ∈ blockAll (is.drop n).reverse ↔ x ∈ blockAll (is.drop n) := by
    intro x
    simp [blockAll_eq]
  have hsub : ∀ j, j ∈ is.drop n → j ∈ is := fun j hj => List.mem_of_mem_drop hj
  have hsplit : ownedAll is = ownedAll (is.take n) ++ ownedAll (is.drop n) := by
    simp only [ownedAll_eq, ← List.flatMap_append, List.take_append_drop]
  refine (foldl_release_letGo hc name (fun j hj => hl j (hsub j (List.mem_reverse.mp hj))) sc ?_ ?_
    ?_).of_mem_iff hmem
  · rw [hperm.nodup_iff]
    exact (List.nodup_append.mp (hsplit ▸ hnd)).2.1
  · rw [hperm.mem_iff]
    exact fun hm => hp (by rw [hsplit]; exact List.mem_append_right _ hm)
  · intro x hx
    rw [hmem, blockAll_eq, List.mem_flatMap] at hx
    obtain ⟨j, hj, hx⟩ := hx
    exact hpar x (by rw [blockAll_eq]; exact List.mem_flatMap.mpr ⟨j, hsub j hj, hx⟩)

end Children
end Stencil

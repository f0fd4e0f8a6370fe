import Stencil.Proofs.Instance.Row

/-! The two ways in which an instance in place changes: one of its nodes takes a new kind,
or one of its groups becomes another row. In both the instance is in place again, and its
view changes at one slot or at one group. -/
namespace Stencil
open Binding Document

namespace Instance

variable {c : Catalog} {d : Document} {i : Instance} {p : Nat} {pre post : List NodeId}

theorem Placed.nodup_nodes (h : i.Placed c d p pre post) : i.nodes.Nodup := by
  have hn := h.nodup
  rw [owned_eq, body] at hn
  exact (List.nodup_append.mp (List.nodup_append.mp hn).2.1).1

theorem not_nested_of_mem_nodes (h : i.owned.Nodup) {n : NodeId} (hn : n ∈ i.nodes) :
    n ∉ ownedGroups i.groups := by
  intro hm
  rw [owned_eq, body] at h
  exact (List.nodup_append.mp (List.nodup_append.mp h).2.1).2.2 n hn n hm rfl

theorem Placed.not_mem_nested (h : i.Placed c d p pre post) {n : NodeId} (hn : n ∈ i.nodes)
    {is : List Instance} (his : is ∈ i.groups) {j : Instance} (hj : j ∈ is) : n ∉ j.owned := by
  intro hm
  refine not_nested_of_mem_nodes h.nodup hn ?_
  rw [ownedGroups_eq]
  exact List.mem_flatMap.mpr ⟨is, his, mem_ownedAll.mpr ⟨j, hj, hm⟩⟩

theorem Placed.root_not_mem (h : i.Placed c d p pre post) {r : NodeId} (hr : i.root = some r) :
    r ∉ i.body := by
  have hnd := h.nodup
  rw [owned_eq, hr] at hnd
  exact (List.nodup_cons.mp hnd).1

/-! ## A new kind for one node -/

private theorem Seed.Holds.text {seed : Seed} {k : Kind} {s : String} (h : seed.Holds k)
    (ht : seed.Holds (.text s)) : ∃ s', k = .text s' := by
  cases k with
  | text s' => exact ⟨s', rfl⟩
  | element e => cases seed <;> first | exact False.elim h | exact False.elim ht
  | fragment => cases seed <;> exact False.elim h

/-- Different slots have different nodes. -/
theorem Placed.slot_inj (h : i.Placed c d p pre post) {s s' : Slot} {n : NodeId}
    (hn : i.nodes[s]? = some n) (hn' : i.nodes[s']? = some n) : s' = s := by
  obtain ⟨hl, he⟩ := List.getElem?_eq_some_iff.mp hn
  obtain ⟨hl', he'⟩ := List.getElem?_eq_some_iff.mp hn'
  exact (h.nodup_nodes.getElem_inj_iff).mp (he'.trans he.symm)

section

variable {s : Slot} {n : Nat} {seed : Seed} {k : Kind}

theorem Placed.kind?_setKind (h : i.Placed c d p pre post) (hn : i.nodes[s]? = some n) (k : Kind)
    (x : Nat) : (d.setKind n k).kind? x = if x = n then some k else d.kind? x :=
  Document.kind?_setKind k (h.live.nodes_lt (List.mem_of_getElem? hn)) x

theorem Placed.kind?_setKind_nested (h : i.Placed c d p pre post) (hn : i.nodes[s]? = some n)
    (k : Kind) {is : List Instance} (his : is ∈ i.groups) {j : Instance} (hj : j ∈ is) :
    ∀ x ∈ j.owned, (d.setKind n k).kind? x = d.kind? x := by
  intro x hx
  rw [h.kind?_setKind hn, if_neg]
  exact fun he => h.not_mem_nested (List.mem_of_getElem? hn) his hj (he ▸ hx)

theorem Placed.linked_setKind (h : i.Placed c d p pre post)
    (hseed : i.template.seeds[s]? = some seed) (hn : i.nodes[s]? = some n) (hk : seed.Holds k) :
    (d.setKind n k).Linked := by
  refine h.linked.setKind (h.live.nodes_lt (List.mem_of_getElem? hn)) fun content hcontent => ?_
  obtain ⟨k', hk', hholds⟩ := h.live.stands.holds s seed n hseed hn
  obtain ⟨content', rfl⟩ := Seed.Holds.text hholds (hcontent ▸ hk)
  exact h.linked.children_text n content' hk'

theorem Placed.live_setKind (h : i.Placed c d p pre post)
    (hseed : i.template.seeds[s]? = some seed) (hn : i.nodes[s]? = some n) (hk : seed.Holds k) :
    i.Live c (d.setKind n k) := by
  have hs := h.live.stands
  refine .intro ⟨hs.template_mem, ?_, hs.nodes_length, hs.values_length, hs.groups_length, ?_, ?_,
    hs.present_le, ?_⟩ fun is his j hj => ?_
  · obtain ⟨r, hr, hf⟩ := hs.root_fragment
    refine ⟨r, hr, ?_⟩
    rw [h.kind?_setKind hn, if_neg, hf]
    exact fun he => h.root_not_mem hr (he ▸ mem_body.mpr (.inl (List.mem_of_getElem? hn)))
  · intro s' seed' n' hseed' hn'
    rw [h.kind?_setKind hn]
    split
    · rename_i he
      subst he
      rw [h.slot_inj hn hn', hseed] at hseed'
      cases hseed'
      exact ⟨k, rfl, hk⟩
    · exact hs.holds s' seed' n' hseed' hn'
  · intro s' n' he hn'
    rw [children_setKind]
    exact hs.children_eq s' n' he hn'
  · intro dir name s' v g is hx hg j hj
    obtain ⟨ht, hr⟩ := hs.nested dir name s' v g is hx hg j hj
    refine ⟨ht, fun r hjr => ?_⟩
    rw [children_setKind]
    exact hr r hjr
  · exact (h.live.nested is his j hj).congr (h.kind?_setKind_nested hn k his hj) fun x _ =>
      children_setKind ..

theorem Placed.view_setKind (h : i.Placed c d p pre post) (hn : i.nodes[s]? = some n) (k : Kind) :
    i.view (d.setKind n k) = { i.view d with kinds := (i.view d).kinds.set s k } := by
  have hkinds : i.nodes.map (d.setKind n k).kindOf = (i.nodes.map d.kindOf).set s k := by
    refine List.ext_getElem? fun s' => ?_
    rw [List.getElem?_set, List.getElem?_map, List.getElem?_map, List.length_map]
    have hlt : s < i.nodes.length := (List.getElem?_eq_some_iff.mp hn).1
    by_cases hs : s = s'
    · subst hs
      rw [hn, Option.map_some, if_pos rfl, if_pos hlt, kindOf, h.kind?_setKind hn, if_pos rfl,
        Option.getD_some]
    · rw [if_neg hs]
      cases hn' : i.nodes[s']? with
      | none => rfl
      | some n' =>
        have hne : n' ≠ n := by
          rintro rfl
          exact hs (h.slot_inj hn hn').symm
        simp [kindOf, h.kind?_setKind hn, hne]
  have hgroups : viewGroups (d.setKind n k) i.groups = viewGroups d i.groups := by
    rw [viewGroups_eq, viewGroups_eq]
    refine List.map_congr_left fun is his => ?_
    rw [viewAll_eq, viewAll_eq]
    exact List.map_congr_left fun j hj => view_congr j (h.kind?_setKind_nested hn k his hj)
  rw [view_eq, view_eq, hkinds, hgroups]

theorem Placed.setKind (h : i.Placed c d p pre post) (hseed : i.template.seeds[s]? = some seed)
    (hn : i.nodes[s]? = some n) (hk : seed.Holds k) :
    Renewed c d (d.setKind n k) i i p pre post ∧
      i.view (d.setKind n k) = { i.view d with kinds := (i.view d).kinds.set s k } := by
  have hbody : n ∈ i.body := mem_body.mpr (.inl (List.mem_of_getElem? hn))
  have hplaced : i.Placed c (d.setKind n k) p pre post :=
    ⟨h.linked_setKind hseed hn hk, h.live_setKind hseed hn hk, h.nodup, h.not_mem,
      (children_setKind ..).trans h.children_eq⟩
  refine ⟨⟨hplaced, rfl, rfl, fun _ hx => .inl hx, ?_, ?_, parent?_setKind ..⟩, h.view_setKind hn k⟩
  · exact (ChangesOnly.setKind d n k).mono fun x _ hx => .inl (hx ▸ hbody)
  · rw [h.kind?_setKind hn, if_neg]
    exact fun he => h.not_mem (he ▸ hbody)

end

/-! ## A group worked on by itself -/

def withGroup (g : Group) (js : List Instance) (i : Instance) : Instance :=
  { i with groups := i.groups.set g js }

/-- What an instance owns beside its fragment and a group. -/
def others (i : Instance) (g : Group) : List NodeId := i.nodes ++ ownedGroups (i.groups.eraseIdx g)

theorem body_perm {g : Nat} {is : List Instance} (hg : i.groups[g]? = some is) :
    i.body.Perm (ownedAll is ++ i.others g) := by
  obtain ⟨hlt, rfl⟩ := List.getElem?_eq_some_iff.mp hg
  have hp : (ownedGroups i.groups).Perm
      (ownedAll i.groups[g] ++ ownedGroups (i.groups.eraseIdx g)) := by
    rw [ownedGroups_eq, ownedGroups_eq, ← List.flatMap_cons, List.eraseIdx_eq_take_drop_succ]
    refine List.Perm.flatMap_right _ ?_
    conv_lhs => rw [← List.take_append_drop g i.groups, ← List.getElem_cons_drop hlt]
    exact List.perm_middle
  unfold body others
  refine (hp.append_left _).trans ?_
  rw [← List.append_assoc, ← List.append_assoc]
  exact List.perm_append_comm.append_right _

theorem body_withGroup_perm {g : Nat} {is : List Instance} (hg : i.groups[g]? = some is)
    (js : List Instance) : (i.withGroup g js).body.Perm (ownedAll js ++ i.others g) := by
  have hlt := (List.getElem?_eq_some_iff.mp hg).1
  have hjs : (i.withGroup g js).groups[g]? = some js := by simp [withGroup, hlt]
  have hp := body_perm hjs
  rwa [others, withGroup, List.eraseIdx_set_eq] at hp

theorem mem_others {g : Nat} {x : NodeId} : x ∈ i.others g ↔
    x ∈ i.nodes ∨ ∃ g' is, g' ≠ g ∧ i.groups[g']? = some is ∧ x ∈ ownedAll is := by
  unfold others
  rw [List.mem_append, ownedGroups_eq, List.mem_flatMap]
  refine or_congr Iff.rfl ?_
  simp only [List.mem_eraseIdx_iff_getElem?]
  grind

theorem slotBlock_withGroup (ht : i.template.Sound) {s s' : Slot} {g : Nat}
    (ha : (s, g) ∈ i.template.anchored) (hs : s' ≠ s) (js : List Instance) :
    (i.withGroup g js).slotBlock s' = i.slotBlock s' := by
  unfold slotBlock Template.spread withGroup
  cases hg : i.template.groupAt? s' with
  | none => simp
  | some g' =>
    have hne : g ≠ g' := fun he => hs (ht.group_unique (ht.groupAt?_eq.mp hg) (he ▸ ha))
    simp [blockGroups_eq, List.getElem?_set, hne]

theorem slotBlock_anchor (ht : i.template.Sound) {s : Slot} {g : Nat} {n : NodeId}
    (ha : (s, g) ∈ i.template.anchored) {is : List Instance} (hg : i.groups[g]? = some is)
    (hn : i.nodes[s]? = some n) : i.slotBlock s = blockAll is ++ [n] := by
  simp [slotBlock, Template.spread, ht.groupAt?_eq.mpr ha, blockGroups_eq, hg, hn]

theorem slotBlock_plain (ht : i.template.Sound) {s : Slot} {n : NodeId}
    (hs : i.template.HasElement s ∨ i.template.HasText s) (hn : i.nodes[s]? = some n) :
    i.slotBlock s = [n] := by
  have hnone : i.template.groupAt? s = none := by
    cases hg : i.template.groupAt? s with
    | none => rfl
    | some g =>
      obtain ⟨dir, name, v, hx⟩ := Template.mem_anchored.mp (ht.groupAt?_eq.mp hg)
      obtain ⟨q, ha⟩ := (ht.fits _ hx).1
      rcases hs with ⟨_, _, _, he⟩ | ⟨_, _, he⟩ <;> rw [ha] at he <;> cases he
  simp [slotBlock, Template.spread, hnone, hn]

/-- The node under which a parent's slots stand, and what stands around them. -/
inductive Holder (i : Instance) (p : Nat) (pre post : List NodeId) :
    Parent → Nat → List NodeId → List NodeId → Prop
  | root : Holder i p pre post .root p pre post
  | slot {s : Slot} {q : Nat} (element : i.template.HasElement s) (node : i.nodes[s]? = some q) :
      Holder i p pre post (.slot s) q [] []

variable {π : Parent} {q : Nat} {a b : List NodeId}

theorem Placed.holder_children (h : i.Placed c d p pre post) (hq : i.Holder p pre post π q a b) :
    d.children q = a ++ i.layout π ++ b := by
  cases hq with
  | root => rw [h.children_eq, block_eq]
  | slot he hn => rw [h.live.stands.children_eq _ _ he hn]; simp

theorem Placed.parent?_layout (h : i.Placed c d p pre post) (hq : i.Holder p pre post π q a b)
    {x : NodeId} (hx : x ∈ i.layout π) : d.parent? x = some q := by
  rw [← h.linked.mem_children_iff, h.holder_children hq]
  exact List.mem_append_left _ (List.mem_append_right _ hx)

theorem Placed.exists_holder (h : i.Placed c d p pre post) (ht : i.template.Sound) {s : Slot}
    (hs : s ∈ i.template.slotsAt π) : ∃ q a b, i.Holder p pre post π q a b := by
  cases π with
  | root => exact ⟨p, pre, post, .root⟩
  | slot s₀ =>
    have he := (ht.parent_lt s₀ s (Template.mem_slotsAt.mp hs)).2
    have hlt := Template.lt_of_hasElement he
    rw [← h.live.stands.nodes_length] at hlt
    exact ⟨_, [], [], .slot he (List.getElem?_eq_getElem hlt)⟩

theorem Placed.nodup_split (h : i.Placed c d p pre post) {g : Nat} {is : List Instance}
    (hg : i.groups[g]? = some is) :
    (ownedAll is).Nodup ∧ (i.others g).Nodup ∧ ∀ x ∈ i.others g, x ∉ ownedAll is := by
  have hnd := h.nodup
  rw [owned_eq] at hnd
  have := (body_perm hg).nodup_iff.mp (List.nodup_append.mp hnd).2.1
  obtain ⟨h₁, h₂, h₃⟩ := List.nodup_append.mp this
  exact ⟨h₁, h₂, fun x hx hy => h₃ x hy x hx rfl⟩

theorem Placed.holder_not_mem (h : i.Placed c d p pre post) (hq : i.Holder p pre post π q a b)
    {g : Nat} {is : List Instance} (hg : i.groups[g]? = some is) : q ∉ ownedAll is := by
  intro hm
  cases hq with
  | root => exact h.not_mem ((body_perm hg).mem_iff.mpr (List.mem_append_left _ hm))
  | slot _ hn => exact (h.nodup_split hg).2.2 q (mem_others.mpr (.inl (List.mem_of_getElem? hn))) hm

/-- The first slot goes to the fragment, so an instance with nodes stands somewhere. -/
theorem Placed.lt_size (h : i.Placed c d p pre post) (ht : i.template.Sound)
    (hs : 0 < i.template.seeds.length) : p < d.size := by
  obtain ⟨π, hπ⟩ := ht.exists_parent hs
  cases π with
  | slot s₀ => exact absurd (ht.parent_lt s₀ 0 (Template.mem_slotsAt.mp hπ)).1 (Nat.not_lt_zero _)
  | root =>
    have hlt : 0 < i.nodes.length := h.live.stands.nodes_length ▸ hs
    refine lt_size_of_mem_children (n := i.nodes[0]) ?_
    rw [h.children_eq, block_eq, layout]
    refine List.mem_append_left _ (List.mem_append_right _ (List.mem_flatMap.mpr ⟨0, hπ, ?_⟩))
    exact mem_slotBlock.mpr (.inl (List.getElem?_eq_getElem hlt))

theorem Placed.holder_inj (h : i.Placed c d p pre post) {π' : Parent} {a' b' : List NodeId}
    (hq : i.Holder p pre post π q a b) (hq' : i.Holder p pre post π' q a' b') : π = π' := by
  have hnode : ∀ {s : Slot}, i.nodes[s]? = some p → False := fun hn =>
    h.not_mem (mem_body.mpr (.inl (List.mem_of_getElem? hn)))
  cases hq with
  | root =>
    cases hq' with
    | root => rfl
    | slot _ hn => exact (hnode hn).elim
  | slot _ hn =>
    cases hq' with
    | root => exact (hnode hn).elim
    | slot _ hn' =>
      obtain ⟨_, he⟩ := List.getElem?_eq_some_iff.mp hn
      obtain ⟨_, he'⟩ := List.getElem?_eq_some_iff.mp hn'
      rw [h.nodup_nodes.getElem_inj_iff.mp (he.trans he'.symm)]

theorem Holder.unique {q' : Nat} {a' b' : List NodeId} (hq : i.Holder p pre post π q a b)
    (hq' : i.Holder p pre post π q' a' b') : q' = q ∧ a' = a ∧ b' = b := by
  cases hq with
  | root => cases hq'; exact ⟨rfl, rfl, rfl⟩
  | slot _ hn =>
    cases hq' with
    | slot _ hn' =>
      rw [hn] at hn'
      exact ⟨(Option.some.inj hn').symm, rfl, rfl⟩

/-- The place of an anchor: the node `n` of the slot `s` stands under `q`, behind the
instances `is` that are rendered for it. -/
structure Site (i : Instance) (p : Nat) (pre post : List NodeId) (dir : Directive) (name : String)
    (s : Slot) (g : Group) (is : List Instance) (n : NodeId) (q : Nat) (a b : List NodeId) :
    Prop where
  sound : i.template.Sound
  computation : ∃ v, .reconcile dir name s v g ∈ i.template.computations
  group : i.groups[g]? = some is
  node : i.nodes[s]? = some n
  holder : ∃ π l₁ l₂ a₀ b₀, i.template.slotsAt π = l₁ ++ s :: l₂ ∧ i.Holder p pre post π q a₀ b₀ ∧
    a = a₀ ++ l₁.flatMap i.slotBlock ∧ b = l₂.flatMap i.slotBlock ++ b₀

section Group

variable {c : Catalog} {d e : Document} {i : Instance} {p : Nat} {pre post : List NodeId}
  {dir : Directive} {name : String} {s : Slot} {g : Nat} {is js : List Instance} {n : NodeId}
  {q : Nat} {a b : List NodeId}

theorem Placed.exists_site (h : i.Placed c d p pre post) (ht : i.template.Sound) {v : Var}
    (hx : .reconcile dir name s v g ∈ i.template.computations) :
    ∃ is n q a b, i.Site p pre post dir name s g is n q a b := by
  obtain ⟨ha, _, hg⟩ := ht.fits _ hx
  have hs := Template.lt_of_hasAnchor ha
  obtain ⟨π, hπ⟩ := ht.exists_parent hs
  obtain ⟨l₁, l₂, hl⟩ := List.append_of_mem hπ
  obtain ⟨q, a₀, b₀, hq⟩ := h.exists_holder ht hπ
  rw [← h.live.stands.nodes_length] at hs
  rw [← h.live.stands.groups_length] at hg
  exact ⟨_, _, q, _, _, ht, ⟨v, hx⟩, List.getElem?_eq_getElem hg, List.getElem?_eq_getElem hs,
    π, l₁, l₂, a₀, b₀, hl, hq, rfl, rfl⟩

theorem Site.anchored (hs : i.Site p pre post dir name s g is n q a b) :
    (s, g) ∈ i.template.anchored := by
  obtain ⟨v, hx⟩ := hs.computation
  exact Template.mem_anchored.mpr ⟨dir, name, v, hx⟩

/-- The instances of a group are a row before their anchor. -/
theorem Placed.row (h : i.Placed c d p pre post) (hs : i.Site p pre post dir name s g is n q a b) :
    Row c name d q a (n :: b) is := by
  obtain ⟨v, hx⟩ := hs.computation
  obtain ⟨π, l₁, l₂, a₀, b₀, hl, hq, rfl, rfl⟩ := hs.holder
  refine ⟨h.linked, fun j hj => h.live.nested is (List.mem_of_getElem? hs.group) j hj,
    fun j hj => (h.live.stands.nested dir name s v g is hx hs.group j hj).1,
    fun j hj => (h.live.stands.nested dir name s v g is hx hs.group j hj).2,
    (h.nodup_split hs.group).1, h.holder_not_mem hq hs.group, ?_⟩
  rw [h.holder_children hq, layout, hl, List.flatMap_append, List.flatMap_cons,
    slotBlock_anchor hs.sound hs.anchored hs.group hs.node]
  simp

/-- Under every parent stands what its slots account for after the change of a group. -/
theorem Placed.holder_withGroup (h : i.Placed c d p pre post)
    (hs : i.Site p pre post dir name s g is n q a b)
    (hb : Row.Becomes c name d e q a (n :: b) is js)
    {π' : Parent} {q' : Nat} {a' b' : List NodeId} (hq' : i.Holder p pre post π' q' a' b') :
    e.children q' = a' ++ (i.withGroup g js).layout π' ++ b' := by
  obtain ⟨π, l₁, l₂, a₀, b₀, hπ, hq, rfl, rfl⟩ := hs.holder
  have ht := hs.sound
  have hg := hs.group
  have hlt := (List.getElem?_eq_some_iff.mp hg).1
  have hsame : ∀ l : List Slot, s ∉ l →
      l.flatMap (i.withGroup g js).slotBlock = l.flatMap i.slotBlock := fun l hl =>
    List.flatMap_congr fun s' hs' =>
      slotBlock_withGroup ht hs.anchored (fun he => hl (he ▸ hs')) js
  by_cases hmem : s ∈ i.template.slotsAt π'
  · have hππ : π' = π := ht.parent_unique hmem (by rw [hπ]; simp)
    subst hππ
    obtain ⟨rfl, rfl, rfl⟩ := hq.unique hq'
    have hnd := ht.nodup_slotsAt π'
    rw [hπ] at hnd
    obtain ⟨_, hnd₂, hdis⟩ := List.nodup_append.mp hnd
    have hblock : (i.withGroup g js).slotBlock s = blockAll js ++ [n] :=
      slotBlock_anchor (i := i.withGroup g js) ht hs.anchored (by simp [withGroup, hlt]) hs.node
    rw [hb.row.children_eq, layout, show (i.withGroup g js).template = i.template from rfl, hπ,
      List.flatMap_append, List.flatMap_cons, hblock,
      hsame l₁ fun hm => hdis s hm s (by simp) rfl, hsame l₂ (List.nodup_cons.mp hnd₂).1]
    simp
  · have hne : q' ≠ q := by
      rintro rfl
      exact hmem (h.holder_inj hq hq' ▸ by rw [hπ]; simp)
    have hqlt : q' < d.size := by
      cases hq' with
      | root =>
        have hs := ht.slot_lt (p := π) (s := s) (by rw [hπ]; simp)
        exact h.lt_size ht (Nat.zero_lt_of_lt hs)
      | slot _ hn' => exact h.live.nodes_lt (List.mem_of_getElem? hn')
    rw [hb.changes.children_eq hqlt (by simp [hne, h.holder_not_mem hq' hg]), h.holder_children hq',
      layout, layout, show (i.withGroup g js).template = i.template from rfl, hsame _ hmem]

theorem Site.getElem?_withGroup (hs : i.Site p pre post dir name s g is n q a b) (g' : Nat) :
    (i.withGroup g js).groups[g']? = if g = g' then some js else i.groups[g']? := by
  have hlt := (List.getElem?_eq_some_iff.mp hs.group).1
  rw [withGroup, List.getElem?_set]
  simp [hlt]

/-- Instances of the other groups own nothing that may change. -/
theorem Placed.not_changed (h : i.Placed c d p pre post)
    (hs : i.Site p pre post dir name s g is n q a b) {g' : Nat} {is' : List Instance}
    (hne : g' ≠ g) (hg' : i.groups[g']? = some is') {j : Instance} (hj : j ∈ is') :
    ∀ x ∈ j.owned, ¬ (x ∈ ownedAll is ∨ x = q) := by
  obtain ⟨π, _, _, _, _, _, hq, _⟩ := hs.holder
  intro x hx hR
  have hm : x ∈ ownedAll is' := mem_ownedAll.mpr ⟨j, hj, hx⟩
  rcases hR with hR | rfl
  · exact (h.nodup_split hs.group).2.2 x (mem_others.mpr (.inr ⟨g', is', hne, hg', hm⟩)) hR
  · exact h.holder_not_mem hq hg' hm

theorem Placed.live_withGroup (h : i.Placed c d p pre post)
    (hs : i.Site p pre post dir name s g is n q a b)
    (hb : Row.Becomes c name d e q a (n :: b) is js)
    (hone : dir = .onPresent → js.length ≤ 1) : (i.withGroup g js).Live c e := by
  have hst := h.live.stands
  obtain ⟨v, hx⟩ := hs.computation
  have hkind : ∀ x ∈ i.owned, x ∉ ownedAll is → e.kind? x = d.kind? x := fun x hx =>
    hb.kind?_eq_of_not_mem (h.live.lt_size x hx)
  have hnode : ∀ {s' : Slot} {n' : NodeId}, i.nodes[s']? = some n' → e.kind? n' = d.kind? n' := by
    intro s' n' hn'
    have hm := List.mem_of_getElem? hn'
    exact hkind n' (body_subset_owned i (mem_body.mpr (.inl hm)))
      ((h.nodup_split hs.group).2.2 n' (mem_others.mpr (.inl hm)))
  refine .intro ⟨hst.template_mem, ?_, hst.nodes_length, hst.values_length, ?_, ?_, ?_, ?_, ?_⟩ ?_
  · obtain ⟨r, hr, hf⟩ := hst.root_fragment
    refine ⟨r, hr, (hkind r (by rw [owned_eq, hr]; simp) fun hm => ?_).trans hf⟩
    exact h.root_not_mem hr ((body_perm hs.group).mem_iff.mpr (List.mem_append_left _ hm))
  · simpa [Instance.withGroup] using hst.groups_length
  · intro s' seed n' hseed hn'
    obtain ⟨k, hk, hh⟩ := hst.holds s' seed n' hseed hn'
    exact ⟨k, (hnode hn').trans hk, hh⟩
  · intro s' n' he hn'
    rw [h.holder_withGroup hs hb (.slot he hn')]
    simp
  · intro name' s' v' g' is' hx' hg'
    rw [hs.getElem?_withGroup] at hg'
    split at hg'
    · rename_i hgg
      subst hgg
      cases hg'
      cases hs.sound.eq_of_group hx hx'
      exact hone rfl
    · exact hst.present_le name' s' v' g' is' hx' hg'
  · intro dir' name' s' v' g' is' hx' hg' j hj
    rw [hs.getElem?_withGroup] at hg'
    split at hg'
    · rename_i hgg
      subst hgg
      cases hg'
      cases hs.sound.eq_of_group hx hx'
      exact ⟨hb.row.template_eq j hj, hb.row.root_empty j hj⟩
    · rename_i hgg
      obtain ⟨ht, hr⟩ := hst.nested dir' name' s' v' g' is' hx' hg' j hj
      refine ⟨ht, fun r hjr => ?_⟩
      have hm : r ∈ j.owned := by rw [owned_eq, hjr]; simp
      have hlive := h.live.nested is' (List.mem_of_getElem? hg') j hj
      rw [hb.changes.children_eq (hlive.lt_size r hm)
        (h.not_changed hs (Ne.symm hgg) hg' hj r hm)]
      exact hr r hjr
  · intro is' his' j hj
    obtain ⟨g', hg'⟩ := List.getElem?_of_mem his'
    rw [hs.getElem?_withGroup] at hg'
    split at hg'
    · cases hg'
      exact hb.row.live j hj
    · rename_i hgg
      exact (h.live.nested is' (List.mem_of_getElem? hg') j hj).changesOnly hb.changes
        (h.not_changed hs (Ne.symm hgg) hg' hj)

/-- What becomes of a group before its anchor becomes of the instance. -/
theorem Placed.withGroup (h : i.Placed c d p pre post)
    (hs : i.Site p pre post dir name s g is n q a b)
    (hb : Row.Becomes c name d e q a (n :: b) is js)
    (hone : dir = .onPresent → js.length ≤ 1) :
    Renewed c d e i (i.withGroup g js) p pre post := by
  have hg := hs.group
  obtain ⟨π, l₁, l₂, a₀, b₀, hπ, hq, _⟩ := hs.holder
  have hplt : p < d.size :=
    h.lt_size hs.sound (Nat.zero_lt_of_lt (hs.sound.slot_lt (p := π) (s := s) (by rw [hπ]; simp)))
  obtain ⟨_, hno, hdis⟩ := h.nodup_split hg
  have hmem : ∀ x, x ∈ i.body ↔ x ∈ ownedAll is ∨ x ∈ i.others g := fun x => by
    rw [(body_perm hg).mem_iff, List.mem_append]
  have hfresh : ∀ x : Nat, x ∈ (i.withGroup g js).body → x ∈ i.body ∨ d.size ≤ x := by
    intro x hx
    rw [(body_withGroup_perm hg js).mem_iff, List.mem_append] at hx
    rcases hx with hx | hx
    · exact (hb.fresh x hx).imp (fun hx => (hmem x).mpr (.inl hx)) id
    · exact .inl ((hmem x).mpr (.inr hx))
  have hpbody : p ∉ (i.withGroup g js).body := fun hm =>
    (hfresh p hm).elim h.not_mem (Nat.not_le_of_lt hplt)
  have hpis : p ∉ ownedAll is := fun hm => h.not_mem ((hmem p).mpr (.inl hm))
  refine ⟨⟨hb.row.linked, h.live_withGroup hs hb hone, ?_, hpbody, ?_⟩, rfl, rfl, hfresh, ?_,
    hb.kind?_eq_of_not_mem hplt hpis, ?_⟩
  · rw [owned_eq, List.nodup_append]
    have hnd := h.nodup
    rw [owned_eq, List.nodup_append] at hnd
    refine ⟨hnd.1, (body_withGroup_perm hg js).nodup_iff.mpr ?_, ?_⟩
    · refine List.nodup_append.mpr ⟨hb.row.nodup, hno, ?_⟩
      rintro x hx y hy rfl
      rcases hb.fresh x hx with hx | hx
      · exact hdis x hy hx
      · have := h.live.lt_size x (body_subset_owned i ((hmem x).mpr (.inr hy)))
        omega
    · rintro x hx y hy rfl
      rcases hfresh x hy with hy | hy
      · exact hnd.2.2 x hx x hy rfl
      · have := h.live.lt_size x (by rw [owned_eq]; exact List.mem_append_left _ hx)
        omega
  · rw [h.holder_withGroup hs hb .root, block_eq]
  · refine hb.changes.mono fun x _ hx => ?_
    rcases hx with hx | rfl
    · exact .inl ((hmem x).mpr (.inl hx))
    · cases hq with
      | root => exact .inr rfl
      | slot _ hn => exact .inl (mem_body.mpr (.inl (List.mem_of_getElem? hn)))
  · by_cases hpq : p = q
    · exact hpq ▸ hb.parent?_eq
    · exact hb.changes.parent?_eq hplt (by simp [hpis, hpq])

/-- The views of the other groups are as they were. -/
theorem Placed.view_withGroup (h : i.Placed c d p pre post)
    (hs : i.Site p pre post dir name s g is n q a b)
    (hb : Row.Becomes c name d e q a (n :: b) is js) (f : List View → List View)
    (hv : viewAll e js = f (viewAll d is)) :
    (i.withGroup g js).view e = { i.view d with groups := (i.view d).groups.modify g f } := by
  have hnodes : i.nodes.map e.kindOf = i.nodes.map d.kindOf := by
    refine List.map_congr_left fun n hn => ?_
    have hm := mem_body.mpr (.inl hn)
    rw [kindOf, kindOf, hb.kind?_eq_of_not_mem (h.live.lt_size n (body_subset_owned i hm))
      ((h.nodup_split hs.group).2.2 n (mem_others.mpr (.inl hn)))]
  have hgroups : viewGroups e (i.withGroup g js).groups = (viewGroups d i.groups).modify g f := by
    refine List.ext_getElem? fun g' => ?_
    rw [viewGroups_eq, viewGroups_eq, List.getElem?_map, List.getElem?_modify, List.getElem?_map,
      hs.getElem?_withGroup]
    by_cases hgg : g = g'
    · subst hgg
      simp [hs.group, hv]
    · rw [if_neg hgg]
      cases hg' : i.groups[g']? with
      | none => rfl
      | some is' =>
        have : viewAll e is' = viewAll d is' := by
          rw [viewAll_eq, viewAll_eq]
          exact List.map_congr_left fun j hj =>
            (h.live.nested is' (List.mem_of_getElem? hg') j hj).view_eq hb.changes
              (h.not_changed hs (Ne.symm hgg) hg' hj)
        simp [hgg, this]
  rw [view_eq, view_eq, hgroups]
  exact congrArg (View.mk i.template · i.values _) hnodes

end Group

end Instance
end Stencil

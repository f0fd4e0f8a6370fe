import Mathlib.Data.List.Pairwise
import Stencil.Proofs.Run.Positions

/-! Refusals. To render more items than there are instances takes an anchor that stands
somewhere, and a template. Where one of them is missing the rendering is refused, and at
that time all instances there were have been updated, and nothing else has been done: they
and the anchor stand where they stood. Whether it is refused can be told before, for anchors
that are nodes of the document. A number that no node has yet may be given to one by the
updates, so that it counts as an anchor in the middle of the rendering. -/
namespace Stencil
open Document Instance Markup

/-! ## Nodes that keep their places -/

namespace Document

/-- The nodes `ns` have the parents they had, and the order among each other. -/
structure KeepsPlaces (ns : List NodeId) (d e : Document) : Prop where
  parent?_eq : ∀ x ∈ ns, e.parent? x = d.parent? x
  order_eq : ∀ p, (e.children p).filter (· ∈ ns) = (d.children p).filter (· ∈ ns)

namespace KeepsPlaces

variable {ns : List NodeId} {d e f : Document}

theorem refl (ns : List NodeId) (d : Document) : KeepsPlaces ns d d :=
  ⟨fun _ _ => rfl, fun _ => rfl⟩

theorem trans (h : KeepsPlaces ns d e) (h' : KeepsPlaces ns e f) : KeepsPlaces ns d f where
  parent?_eq x hx := (h'.parent?_eq x hx).trans (h.parent?_eq x hx)
  order_eq p := (h'.order_eq p).trans (h.order_eq p)

theorem create (ns : List NodeId) (d : Document) (k : Kind) : KeepsPlaces ns d (d.create k) where
  parent?_eq x _ := parent?_create d k x
  order_eq p := by rw [children_create]

end KeepsPlaces
end Document

namespace Instance

variable {c : Catalog} {d e : Document} {i j : Instance} {p : Nat} {pre post ns : List NodeId}

/-- Of the nodes that are not nested, a slot accounts for its own at most. -/
theorem filter_slotBlock (h : ∀ x ∈ ns, x ∉ ownedGroups i.groups) (s : Slot) :
    (i.slotBlock s).filter (· ∈ ns) = (i.nodes[s]?.toList).filter (· ∈ ns) := by
  have hrow : (((i.template.groupAt? s).bind ((blockGroups i.groups)[·]?)).getD []).filter
      (· ∈ ns) = [] := by
    refine List.filter_eq_nil_iff.mpr fun x hx hm => ?_
    cases hg : i.template.groupAt? s with
    | none =>
      rw [hg] at hx
      cases hx
    | some g =>
      rw [hg, Option.bind_some, blockGroups_eq, List.getElem?_map] at hx
      cases his : i.groups[g]? with
      | none =>
        rw [his] at hx
        cases hx
      | some is =>
        rw [his] at hx
        refine h x (by simpa using hm) ?_
        rw [ownedGroups_eq]
        exact List.mem_flatMap.mpr ⟨is, List.mem_of_getElem? his, blockAll_subset_ownedAll hx⟩
  rw [slotBlock, Template.spread, List.filter_append, hrow, List.nil_append]

/-- The node of a slot stands in the node that holds the slot. -/
theorem Placed.exists_holder_of_mem (hc : c.Sound) (h : i.Placed c d p pre post) {x : NodeId}
    (hx : x ∈ i.nodes) : ∃ π q a b, i.Holder p pre post π q a b ∧ x ∈ i.layout π := by
  have ht := hc.template _ h.live.stands.template_mem
  obtain ⟨s, hs⟩ := List.getElem?_of_mem hx
  have hlt : s < i.template.seeds.length :=
    h.live.stands.nodes_length ▸ (List.getElem?_eq_some_iff.mp hs).1
  obtain ⟨π, hπ⟩ := ht.exists_parent hlt
  obtain ⟨q, a, b, hq⟩ := h.exists_holder ht hπ
  exact ⟨π, q, a, b, hq, List.mem_flatMap.mpr ⟨s, hπ, mem_slotBlock.mpr (.inl hs)⟩⟩

/-- A node of an instance that has a child beside what is nested is the node of a slot. -/
theorem Placed.exists_holder_of_parent? (hc : c.Sound) (h : i.Placed c d p pre post)
    {q x : NodeId} (hq : q ∈ i.body) (hxq : d.parent? x = some q)
    (hx : x ∉ ownedGroups i.groups) : ∃ π a b, i.Holder p pre post π q a b := by
  have hmem := h.live.children_mem hc h.linked q hq x ((h.linked.mem_children_iff q x).mpr hxq)
  have hnode : x ∈ i.nodes := (List.mem_append.mp hmem).resolve_right hx
  obtain ⟨π, q', a, b, hq', hm⟩ := h.exists_holder_of_mem hc hnode
  cases hxq.symm.trans (h.parent?_layout hq' hm)
  exact ⟨π, a, b, hq'⟩

namespace Renewed

variable (hr : Renewed c d e i j p pre post) (hn : j.nodes = i.nodes)

include hr hn

theorem not_nested {x : Nat} (hlt : x < d.size) (hx : x ∉ ownedGroups i.groups) :
    x ∉ ownedGroups j.groups := by
  intro hm
  rcases hr.fresh x (List.mem_append_right _ hm) with hi | hnew
  · rcases List.mem_append.mp hi with hi | hi
    · exact Instance.not_nested_of_mem_nodes hr.placed.nodup (hn ▸ hi) hm
    · exact hx hi
  · exact Nat.not_lt_of_le hnew hlt

theorem filter_layout (hns : ∀ x : Nat, x ∈ ns → x < d.size ∧ x ∉ ownedGroups i.groups)
    (π : Parent) : (j.layout π).filter (· ∈ ns) = (i.layout π).filter (· ∈ ns) := by
  have hns' : ∀ x ∈ ns, x ∉ ownedGroups j.groups := fun x hx =>
    hr.not_nested hn (hns x hx).1 (hns x hx).2
  rw [layout, layout, List.filter_flatMap, List.filter_flatMap, hr.template_eq]
  refine List.flatMap_congr fun s _ => ?_
  rw [filter_slotBlock hns', filter_slotBlock fun x hx => (hns x hx).2, hn]

theorem holder {π : Parent} {q : Nat} {a b : List NodeId} (hq : i.Holder p pre post π q a b) :
    j.Holder p pre post π q a b := by
  cases hq with
  | root => exact .root
  | slot he hs => exact .slot (hr.template_eq ▸ he) (hn ▸ hs)

theorem parent?_of_not_nested (hc : c.Sound) (hpl : i.Placed c d p pre post) {x : Nat}
    (hlt : x < d.size) (hx : x ∉ ownedGroups i.groups) : e.parent? x = d.parent? x := by
  by_cases hnode : x ∈ i.nodes
  · obtain ⟨π, q, a, b, hq, hm⟩ := hpl.exists_holder_of_mem hc hnode
    have hm' : x ∈ j.layout π := by
      have hone : ∀ y : Nat, y ∈ [x] → y < d.size ∧ y ∉ ownedGroups i.groups := by simp [hlt, hx]
      have hmem : x ∈ (i.layout π).filter (· ∈ [x]) := List.mem_filter.mpr ⟨hm, by simp⟩
      rw [← hr.filter_layout hn hone π] at hmem
      exact (List.mem_filter.mp hmem).1
    rw [hpl.parent?_layout hq hm, hr.placed.parent?_layout (hr.holder hn hq) hm']
  · by_cases hxp : x = p
    · rw [hxp]
      exact hr.parent?_eq
    · refine hr.changes.parent?_eq hlt ?_
      rintro (hm | hm)
      · exact (List.mem_append.mp hm).elim hnode hx
      · exact hxp hm

/-- An instance that is renewed and has kept its nodes leaves them, and all nodes that do not
belong to it, in their places. -/
theorem keepsPlaces (hc : c.Sound) (hpl : i.Placed c d p pre post)
    (hns : ∀ x : Nat, x ∈ ns → x < d.size ∧ x ∉ ownedGroups i.groups) : KeepsPlaces ns d e := by
  have hparent : ∀ x ∈ ns, e.parent? x = d.parent? x := fun x hx =>
    hr.parent?_of_not_nested hn hc hpl (hns x hx).1 (hns x hx).2
  refine ⟨hparent, fun q => ?_⟩
  by_cases hq : ∃ π a b, i.Holder p pre post π q a b
  · obtain ⟨π, a, b, hq⟩ := hq
    rw [hpl.holder_children hq, hr.placed.holder_children (hr.holder hn hq)]
    simp only [List.filter_append, hr.filter_layout hn hns]
  · by_cases hold : q < d.size ∧ q ∉ i.body
    · refine congrArg _ (hr.changes.children_eq hold.1 ?_)
      rintro (hm | rfl)
      · exact hold.2 hm
      · exact hq ⟨.root, pre, post, .root⟩
    · -- none of the nodes stands in `q`, before or after
      have hnone : ∀ x ∈ ns, d.parent? x ≠ some q := by
        intro x hx hxq
        refine hold ⟨hpl.linked.parent_lt_size hxq, fun hm => hq ?_⟩
        exact hpl.exists_holder_of_parent? hc hm hxq (hns x hx).2
      have hd : (d.children q).filter (· ∈ ns) = [] := by
        refine List.filter_eq_nil_iff.mpr fun x hx hm => ?_
        exact hnone x (by simpa using hm) ((hpl.linked.mem_children_iff q x).mp hx)
      have he : (e.children q).filter (· ∈ ns) = [] := by
        refine List.filter_eq_nil_iff.mpr fun x hx hm => ?_
        have hm : x ∈ ns := by simpa using hm
        exact hnone x hm (hparent x hm ▸ (hr.placed.linked.mem_children_iff q x).mp hx)
      rw [hd, he]

end Renewed
end Instance

/-! ## Instances that are updated or given back -/

namespace Company

variable {c : Catalog} {is others : List Instance} {ns : List NodeId}

/-- To remove an instance is to let go some of its own nodes, in a parent that belongs to no
other. -/
theorem exists_letGo (hc : c.Sound) {d : Document} {i : Instance} (h : Company c d (i :: is)) :
    ∃ p ms, LetGo p ms d (i.remove d).2 ∧ p ∉ ownedAll is ∧ ∀ x ∈ ms, x ∈ i.owned := by
  have hblock : ∀ x ∈ i.block, x ∈ i.owned := fun x hx =>
    body_subset_owned i (block_subset_body i x hx)
  obtain ⟨host, hs, hhost⟩ := h.seated i List.mem_cons_self
  cases hs with
  | @alone r root placed =>
    have hsound := hc.template _ placed.live.stands.template_mem
    obtain ⟨hremove, hletGo⟩ := remove_own hc placed.live placed.nodup root placed.parent?_block
    refine ⟨r, i.rootRows, by rw [hremove]; exact hletGo, fun hm => ?_, fun x hx =>
      hblock x (rootRows_subset_block hsound hx)⟩
    exact (List.nodup_append.mp h.nodup).2.2 r (root_mem_owned root) r hm rfl
  | @hosted p _ _ placed _ not_mem _ =>
    refine ⟨p, i.block, remove_letGo hc placed.live placed.nodup not_mem placed.parent?_block,
      fun hm => hhost p rfl (List.mem_append_right _ hm), hblock⟩

/-- The others keep their seats when an instance is given back. -/
theorem release (hc : c.Sound) {sc : Scene} {i : Instance} (h : Company c sc.document (i :: is))
    (name : String) : Company c (i.release name sc).2.document is := by
  obtain ⟨p, ms, hg, hp, hms⟩ := h.exists_letGo hc
  have hdis := (List.nodup_append.mp h.nodup).2.2
  have hlinked := hg.linked h.linked
  refine (h.subperm (List.sublist_cons_self i is).subperm).of_seated hlinked
    fun b hb host hs => ⟨host, ?_, .inl rfl⟩
  refine hs.frame hlinked (Nat.le_of_eq hg.size_eq.symm) (fun x _ => .of_eq (hg.kind?_eq x))
    (fun x hx => ?_) fun q _ pre post hq => ?_
  · refine (hg.children_eq x).trans (if_neg ?_)
    rintro rfl
    exact hp (mem_ownedAll.mpr ⟨b, hb, hx⟩)
  · have hkept : b.block.filter (· ∉ ms) = b.block := List.filter_eq_self.mpr fun y hy => by
      have hyb := body_subset_owned b (block_subset_body b y hy)
      simpa using fun hm => hdis y (hms y hm) y (mem_ownedAll.mpr ⟨b, hb, hyb⟩) rfl
    have hch := hg.children_eq q
    by_cases hqp : q = p
    · rw [if_pos hqp, hq, List.filter_append, List.filter_append, hkept] at hch
      exact ⟨_, _, hch⟩
    · rw [if_neg hqp, hq] at hch
      exact ⟨pre, post, hch⟩

theorem foldl_release (hc : c.Sound) (name : String) (ks : List Instance) :
    ∀ sc : Scene, Company c sc.document (ks ++ is) →
      Company c (ks.foldl (fun sc i => (i.release name sc).2) sc).document is := by
  induction ks with
  | nil => exact fun sc h => h
  | cons k ks ih =>
    intro sc h
    exact ih _ (h.release hc name)

theorem shrink (hc : c.Sound) {sc : Scene} (h : Company c sc.document is) (name : String)
    (n : Nat) : Company c (Children.shrink name n is sc).2.document (is.take n) := by
  have hperm : ((is.drop n).reverse ++ is.take n).Perm is := by
    have hback : ((is.drop n).reverse ++ is.take n).Perm (is.drop n ++ is.take n) :=
      (List.reverse_perm _).append_right _
    have hswap := hback.trans List.perm_append_comm
    rwa [List.take_append_drop] at hswap
  exact foldl_release hc name _ sc (h.subperm hperm.subperm)

/-- The number is that of a node, which is nested in none of the instances. -/
def Beside (d : Document) (is : List Instance) (x : NodeId) : Prop :=
  ∀ i ∈ is, x < d.size ∧ x ∉ ownedGroups i.groups

/-- Instances are updated one after the other, and nodes beside them stay in their places. -/
theorem updateEach (hc : c.Sound) (is : List Instance) :
    ∀ (others : List Instance) (vs : List Json) (sc : Scene), is.length ≤ vs.length →
      Company c sc.document (is ++ others) →
      ∃ js sc', Children.updateEach (Instance.update c) is vs sc = .ok js sc' ∧
        Company c sc'.document (js ++ others) ∧
        ∀ ns, (∀ x ∈ ns, Beside sc.document is x) → KeepsPlaces ns sc.document sc'.document := by
  induction is with
  | nil =>
    intro others vs sc _ h
    exact ⟨[], sc, by cases vs <;> rfl, h, fun ns _ => .refl ns _⟩
  | cons i is ih =>
    intro others vs sc hlen h
    cases vs with
    | nil => simp at hlen
    | cons v vs =>
      obtain ⟨host, hs, _⟩ := h.seated i (by simp)
      obtain ⟨j, sc₁, p, pre, post, hj, _, hpl, hr, _⟩ := hs.exists_renewed hc v
      obtain ⟨j', sc₁', hj', hcomp⟩ := h.update hc v
      cases hj.symm.trans hj'
      have hkeeps := (update_keeps c i v sc hpl.live.stands.isSome_root).continues
      rw [hj] at hkeeps
      obtain ⟨js, sc₂, hjs, hall, hrest⟩ := ih (j :: others) vs sc₁ (by simpa using hlen)
        (hcomp.subperm List.perm_middle.subperm)
      refine ⟨j :: js, sc₂, ?_, hall.subperm List.perm_middle.symm.subperm, fun ns hns => ?_⟩
      · rw [Children.updateEach, hj]
        simp only [Outcome.ok, hjs]
      · have hplaces := hr.keepsPlaces hkeeps.nodes_eq hc hpl fun x hx =>
          hns x hx i List.mem_cons_self
        refine hplaces.trans (hrest ns fun x hx k hk => ?_)
        obtain ⟨hlt, hout⟩ := hns x hx k (List.mem_cons_of_mem i hk)
        exact ⟨Nat.lt_of_lt_of_le hlt hr.changes.size_le, hout⟩

theorem eq_of_mem_owned {d : Document} (h : Company c d is) {i j : Instance} (hi : i ∈ is)
    (hj : j ∈ is) {x : NodeId} (hxi : x ∈ i.owned) (hxj : x ∈ j.owned) : i = j := by
  by_contra hne
  have hnd := h.nodup
  rw [ownedAll_eq, List.nodup_flatMap] at hnd
  have : Std.Symm (Function.onFun List.Disjoint owned) := ⟨fun _ _ hd _ hx hy => hd hy hx⟩
  exact hnd.2.forall hi hj hne hxi hxj

/-- The nodes of an instance are nested in none. -/
theorem beside_of_mem_nodes {d : Document} (h : Company c d is) {x : NodeId}
    (hx : x ∈ is.flatMap (·.nodes)) : Beside d is x := by
  obtain ⟨i, hi, hx⟩ := List.mem_flatMap.mp hx
  intro j hj
  refine ⟨(h.live hi).lt_size x (body_subset_owned i (List.mem_append_left _ hx)), fun hm => ?_⟩
  have hxj : x ∈ j.owned := body_subset_owned j (List.mem_append_right _ hm)
  obtain rfl := h.eq_of_mem_owned hi hj (body_subset_owned i (List.mem_append_left _ hx)) hxj
  obtain ⟨_, hs, _⟩ := h.seated i hi
  exact not_nested_of_mem_nodes hs.nodup hx hm

end Company

/-! ## What is refused -/

namespace Children

/-- What stands in the way of new instances before an anchor. -/
def refusal? (c : Catalog) (name : String) (d : Document) (anchor : NodeId) : Option RenderError :=
  match d.parent? anchor, c.get? name with
  | none, _ => some (.detachedAnchor name)
  | some _, none => some (.unknownTemplate name)
  | some _, some _ => none

/-- The instances that stay, each updated with its item, once the surplus ones are given
back. -/
def stay (c : Catalog) (name : String) (items : List Json) (is : List Instance) (sc : Scene) :
    Outcome (List Instance) :=
  let sc := sc.tell (.reconciling name is.length items.length)
  updateEach (update c) (shrink name items.length is sc).1 items
    (shrink name items.length is sc).2

/-- The instances are the ones they were, updated in place, and the nodes `ns` stand where
they stood. -/
structure Unmoved (c : Catalog) (ns : List NodeId) (items : List Json) (is js : List Instance)
    (sc sc' : Scene) : Prop where
  length_eq : js.length = is.length
  same : ∀ (k : Nat) i, is[k]? = some i → ∃ v j sc₁ sc₂, items[k]? = some v ∧ js[k]? = some j ∧
    i.update c v sc₁ = .ok j sc₂ ∧ i.Continues j
  places : KeepsPlaces ns sc.document sc'.document

variable {c : Catalog} {name : String} {is : List Instance} {sc : Scene}

/-- What is there already makes no difference to the instances that are new. -/
theorem grow_append (c : Catalog) (upd : Updater) (name : String) (batch : NodeId)
    (kept : List Instance) (vs : List Json) :
    ∀ (is : List Instance) (sc : Scene), grow c upd name batch vs (kept ++ is) sc =
      ⟨kept ++ (grow c upd name batch vs is sc).state, (grow c upd name batch vs is sc).scene,
        (grow c upd name batch vs is sc).error⟩ := by
  induction vs with
  | nil => exact fun _ _ => rfl
  | cons v vs ih =>
    intro is sc
    rw [grow, grow]
    cases introduce c upd name (fun r d => d.append batch r) v sc with
    | mk result sc₁ =>
      cases result with
      | error e => rfl
      | ok i =>
        have := ih (is ++ [i]) sc₁
        rwa [← List.append_assoc] at this

/-- Before an anchor that stands somewhere there is room for a row. -/
theorem exists_row_nil (name : String) (hl : sc.document.Linked) {anchor q : NodeId}
    (hq : sc.document.parent? anchor = some q) :
    ∃ pre post, Row c name sc.document q pre (anchor :: post) [] := by
  obtain ⟨pre, post, hch⟩ := List.append_of_mem ((hl.mem_children_iff q anchor).mpr hq)
  refine ⟨pre, post, hl, by simp, by simp, by simp, List.nodup_nil, List.not_mem_nil, ?_⟩
  rw [hch]
  simp [blockAll]

/-- Before an anchor that stands somewhere, no instance of a known template is refused. -/
theorem grow_attached (hc : c.Sound) {t : Template} (ht : c.get? name = some t)
    (hl : sc.document.Linked) {anchor q : NodeId} (hq : sc.document.parent? anchor = some q)
    (kept : List Instance) (vs : List Json) :
    ((grow c (update c) name sc.document.size vs kept (sc.create .fragment)).andThen
      (.edit (·.insertBefore q sc.document.size (some anchor)))).error = none := by
  obtain ⟨pre, post, hrow⟩ := exists_row_nil (c := c) name hl hq
  obtain ⟨js, sc', hgrow, _⟩ := grow_insert_follows hc (updateTo_follows hc (c.size + 1)) ht
    (Catalog.mem_take (List.mem_of_find?_eq_some ht)) hrow vs
  obtain ⟨news, sc₁, hnews, hedit⟩ := Outcome.andThen_eq_ok hgrow
  obtain ⟨_, hinsert⟩ := Outcome.edit_eq_ok hedit
  have hkept : grow c (update c) name sc.document.size vs kept (sc.create .fragment) =
      .ok (kept ++ news) sc₁ := by
    have := grow_append c (update c) name sc.document.size kept vs [] (sc.create .fragment)
    rw [List.append_nil] at this
    rw [this, update, hnews]
    rfl
  rw [hkept]
  simp only [Outcome.ok, Outcome.andThen, Outcome.edit, hinsert]

/-- Instances of a company stay as they should, and the nodes beside them stay in place. -/
theorem exists_stay (name : String) (hc : c.Sound) (h : Company c sc.document is)
    (items : List Json) :
    ∃ js sc₁, stay c name items is sc = .ok js sc₁ ∧ sc₁.document.Linked ∧
      (is.length < items.length → ∀ ns, (∀ x ∈ ns, Company.Beside sc.document is x) →
        Unmoved c ns items is js sc sc₁) := by
  let sc₀ := sc.tell (.reconciling name is.length items.length)
  have h₀ : Company c sc₀.document is := h
  have hshrunk := h₀.shrink hc name items.length
  obtain ⟨js, sc₁, hjs, hcomp, hplaces⟩ := Company.updateEach hc (is.take items.length) [] items
    (shrink name items.length is sc₀).2 (List.length_take_le _ _) (by rwa [List.append_nil])
  refine ⟨js, sc₁, hjs, hcomp.linked, fun hlen ns hns => ?_⟩
  have hnone : shrink name items.length is sc₀ = (is, sc₀) := by
    rw [shrink, List.take_of_length_le (Nat.le_of_lt hlen),
      List.drop_of_length_le (Nat.le_of_lt hlen)]
    rfl
  rw [hnone, List.take_of_length_le (Nat.le_of_lt hlen)] at hplaces hjs
  obtain ⟨hlength, hsame⟩ := updateEach_eq_ok hjs (Nat.le_of_lt hlen)
  refine ⟨hlength, fun k i hi => ?_, hplaces ns hns⟩
  have hk := (List.getElem?_eq_some_iff.mp hi).1
  have hv := List.getElem?_eq_getElem (Nat.lt_trans hk hlen)
  obtain ⟨j, sc₂, sc₃, hj, hupdate⟩ := hsame k i _ hi hv
  have hkeeps := (update_keeps c i items[k] sc₂
    (h.live (List.mem_of_getElem? hi)).stands.isSome_root).continues
  rw [hupdate] at hkeeps
  exact ⟨_, j, sc₂, sc₃, hv, hj, hupdate, hkeeps⟩

/-- For any number as the anchor: the rendering is refused by what stands in the way once the
instances that stay are updated. -/
theorem renderEach_refusal (hc : c.Sound) (h : Company c sc.document is) (anchor : NodeId)
    (items : List Json) {js : List Instance} {sc₁ : Scene}
    (hstay : stay c name items is sc = .ok js sc₁) :
    let o := renderEach c (update c) name anchor items is sc
    o.error = (if items.length ≤ is.length then none
      else refusal? c name sc₁.document anchor) ∧
    (o.error.isSome → o.state = js ∧ o.scene.counts = sc₁.counts ∧
      ∀ ns, (∀ x ∈ ns, Company.Beside sc.document is x) →
        Unmoved c ns items is js sc o.scene) := by
  obtain ⟨js', sc', hstay', hlinked, hunmoved⟩ := exists_stay name hc h items
  cases hstay.symm.trans hstay'
  rcases hshrink : shrink name items.length is
    (sc.tell (.reconciling name is.length items.length)) with ⟨kept, sc'⟩
  simp only [stay, hshrink] at hstay
  simp only [renderEach, hshrink, hstay, Outcome.ok, Outcome.andThen]
  by_cases hle : items.length ≤ is.length
  · simp [hle]
  · rw [if_neg hle, if_neg hle]
    have hlen : is.length < items.length := Nat.lt_of_not_le hle
    cases hpar : sc₁.document.parent? anchor with
    | none => exact ⟨by simp [Outcome.fail, refusal?, hpar], fun _ => ⟨rfl, rfl, hunmoved hlen⟩⟩
    | some q =>
      cases ht : c.get? name with
      | some t =>
        have hok := grow_attached hc ht hlinked hpar js (items.drop is.length)
        simp only [Outcome.andThen] at hok
        simp [refusal?, hpar, ht, hok]
      | none =>
        -- the first new instance is refused, in a document with one more fragment
        obtain ⟨v, vs, hvs⟩ := List.exists_cons_of_ne_nil
          (show items.drop is.length ≠ [] by simpa using hlen)
        have hgrow : grow c (update c) name sc₁.document.size (items.drop is.length) js
            (sc₁.create .fragment) = .fail js (sc₁.create .fragment) (.unknownTemplate name) := by
          rw [hvs, grow, introduce, Catalog.instantiate, ht]
        simp only [hgrow, Outcome.fail]
        refine ⟨by simp [refusal?, hpar, ht], fun _ => ⟨trivial, rfl, fun ns hns => ?_⟩⟩
        have hu := hunmoved hlen ns hns
        exact ⟨hu.length_eq, hu.same, hu.places.trans (.create _ _ _)⟩

/-- A node beside the instances that is the anchor refuses as it stood before. -/
theorem refusal?_of_beside (hc : c.Sound) (h : Company c sc.document is) {anchor : NodeId}
    (hanchor : Company.Beside sc.document is anchor) {items : List Json}
    (hlen : is.length < items.length) {js : List Instance} {sc₁ : Scene}
    (hstay : stay c name items is sc = .ok js sc₁) :
    refusal? c name sc₁.document anchor = refusal? c name sc.document anchor := by
  obtain ⟨js', sc', hstay', _, hunmoved⟩ := exists_stay name hc h items
  cases hstay.symm.trans hstay'
  have hplaces := (hunmoved hlen [anchor] (by simpa using hanchor)).places
  rw [refusal?, refusal?, hplaces.parent?_eq anchor List.mem_cons_self]

theorem renderPresent_refusal (hc : c.Sound) (h : Company c sc.document is) (hone : is.length ≤ 1)
    (anchor : NodeId) (v : Json) :
    let o := renderPresent c (update c) name anchor v is sc
    o.error = (if v.isPresent ∧ is = [] then refusal? c name sc.document anchor else none) ∧
    (o.error.isSome → o.state = is ∧ o.scene = sc) := by
  by_cases hv : v.isPresent
  · match is, hone with
    | [i], _ =>
      obtain ⟨j, sc', hj, _⟩ := h.update hc v
      have hrender : renderPresent c (update c) name anchor v [i] sc = .ok [j] sc' := by
        rw [renderPresent, if_pos hv]
        simp only [hj, Outcome.ok]
      simp [hrender, Outcome.ok]
    | [], _ =>
      cases hpar : sc.document.parent? anchor with
      | none =>
        have hrender : renderPresent c (update c) name anchor v [] sc =
            .fail [] sc (.detachedAnchor name) := by
          rw [renderPresent, if_pos hv]
          simp only [hpar]
        simp [hrender, Outcome.fail, hv, refusal?, hpar]
      | some q =>
        cases ht : c.get? name with
        | none =>
          have hrender : renderPresent c (update c) name anchor v [] sc =
              .fail [] sc (.unknownTemplate name) := by
            rw [renderPresent, if_pos hv]
            simp only [hpar, introduce, Catalog.instantiate, ht]
          simp [hrender, Outcome.fail, hv, refusal?, hpar, ht]
        | some t =>
          obtain ⟨pre, post, hrow⟩ := exists_row_nil name h.linked hpar
          obtain ⟨js, sc', hok, _⟩ := renderPresent_follows hc (updateTo_follows hc (c.size + 1)) ht
            (Catalog.mem_take (List.mem_of_find?_eq_some ht)) hrow (Nat.zero_le _) v
          have hrender : renderPresent c (update c) name anchor v [] sc = .ok js sc' := hok
          simp [hrender, Outcome.ok, refusal?, hpar, ht]
  · have hrender : (renderPresent c (update c) name anchor v is sc).error = none := by
      unfold renderPresent
      rw [if_neg hv]
      cases is.getLast? <;> rfl
    simp [hrender, hv]

/-- Over any catalog compiled from sources: to render a list into instances that were got,
updated and moved about, before an anchor that is a node and belongs to none of them, is
refused exactly if there are more items than instances, and the anchor stands nowhere or else
the template is unknown. After a refusal the instances are the ones there were, each updated
with its item, and they and the anchor stand where they stood. If there are no instances the
anchor may be any number. In every case it is what the anchor is after the updates that counts,
nothing has been made or given back besides them, and the instances stand where they stood.
To render a value that may be absent into at most one instance is refused exactly if it is
present, there is no instance, and the same condition holds; then nothing has happened. -/
theorem refusals_leave_instances (calls : List (Node × String)) {sc : Scene}
    {is : List Instance} (h : Troupe (Workshop.compileAll calls {}).catalog sc is)
    (name : String) {anchor : NodeId} (hanchor : ∀ i ∈ is, anchor ∉ i.owned)
    (items : List Json) (v : Json) :
    let c := (Workshop.compileAll calls {}).catalog
    let o := renderEach c (update c) name anchor items is sc
    let slots := is.flatMap (·.nodes)
    (anchor < sc.document.size ∨ is = [] →
      o.error = (if items.length ≤ is.length then none
        else refusal? c name sc.document anchor) ∧
      (o.error.isSome → Unmoved c (anchor :: slots) items is o.state sc o.scene)) ∧
    (∃ js sc₁, stay c name items is sc = .ok js sc₁ ∧
      o.error = (if items.length ≤ is.length then none
        else refusal? c name sc₁.document anchor) ∧
      (o.error.isSome → o.state = js ∧ o.scene.counts = sc₁.counts ∧
        Unmoved c slots items is js sc o.scene)) ∧
    (is.length ≤ 1 →
      let o := renderPresent c (update c) name anchor v is sc
      o.error = (if v.isPresent ∧ is = [] then refusal? c name sc.document anchor else none) ∧
      (o.error.isSome → o.state = is ∧ o.scene = sc)) := by
  intro c o slots
  have hc : c.Sound := (Workshop.built_compileAll calls).sound
  have hcompany := h.company hc
  have hslots : ∀ x ∈ slots, Company.Beside sc.document is x :=
    fun x hx => hcompany.beside_of_mem_nodes hx
  obtain ⟨js, sc₁, hstay, _⟩ := exists_stay name hc hcompany items
  obtain ⟨herror, hrefused⟩ := renderEach_refusal hc hcompany anchor items hstay
  refine ⟨fun hnode => ?_, ⟨js, sc₁, hstay, herror, fun hsome => ?_⟩,
    fun hone => renderPresent_refusal hc hcompany hone anchor v⟩
  · have hbeside : Company.Beside sc.document is anchor := by
      intro i hi
      refine ⟨hnode.resolve_right (List.ne_nil_of_mem hi), fun hm => hanchor i hi ?_⟩
      exact body_subset_owned i (List.mem_append_right _ hm)
    refine ⟨herror.trans ?_, fun hsome => ?_⟩
    · split
      · rfl
      · rename_i hle
        exact refusal?_of_beside hc hcompany hbeside (Nat.lt_of_not_le hle) hstay
    · obtain ⟨hstate, _, hunmoved⟩ := hrefused hsome
      have hmoved := hunmoved (anchor :: slots) (List.forall_mem_cons.mpr ⟨hbeside, hslots⟩)
      rwa [← hstate] at hmoved
  · obtain ⟨hstate, hcounts, hunmoved⟩ := hrefused hsome
    exact ⟨hstate, hcounts, hunmoved slots hslots⟩

/-- A list stands before an anchor. Instances of an unknown template are refused beside it,
after the list has taken the first item. -/
theorem refusals_leave_instances_list :
    let source := "<li for=\"items\">\x7b\x7bname\x7d\x7d</li>"
    ∃ tree, read source = .ok tree ∧
      let c := (Workshop.compileAll [(tree, "list")] {}).catalog
      let list (ss : List String) : Json :=
        .obj [("items", .arr (ss.map fun s => .obj [("name", .str s)]))]
      let host : Scene :=
        { document := Document.after [.createElement none "ul", .createText "", .append 0 1] }
      ∃ i sc, c.get "list" (some (list ["a", "b"])) host = (.ok i, sc) ∧
        let placed := { sc with document := sc.document.perform (.insertBefore 0 2 (some 1)) }
        let o := renderEach c (update c) "other" 1 [list ["c"], list []] [i] placed
        o.error = some (.unknownTemplate "other") ∧
          Unmoved c (1 :: i.nodes) [list ["c"], list []] [i] o.state placed o.scene := by
  intro source
  refine ⟨treeOf source, read_eq_treeOf (by decide +kernel), ?_⟩
  intro c list host
  have hc : c.Sound := (Workshop.built_compileAll _).sound
  have hhost : host.document.Linked := (forest_after _).linked
  obtain ⟨_, i, sc, _, hget, _, hgot⟩ :=
    (Troupe.start host hhost).exists_got hc "list" (by decide +kernel) (some (list ["a", "b"]))
  let op : Operation := .insertBefore 0 2 (some 1)
  have heval : let got := c.get "list" (some (list ["a", "b"])) host
      got.1.toOption.map (fun i => (decide (op.Spares got.2.document i), decide (1 ∉ i.owned),
        (got.2.document.perform op).parent? 1, decide (1 < (got.2.document.perform op).size))) =
          some (true, true, some 0, true) := by decide +kernel
  simp only [hget, Except.toOption, Option.map_some, Option.some.injEq, Prod.mk.injEq,
    decide_eq_true_eq] at heval
  obtain ⟨hspares, hanchor, hparent, hlt⟩ := heval
  have htroupe : Troupe c { sc with document := sc.document.perform op } [i] :=
    hgot.performed op (by simpa using hspares) rfl
  obtain ⟨hown, _⟩ :=
    refusals_leave_instances [(treeOf source, "list")] htroupe "other" (by simpa using hanchor)
      [list ["c"], list []] .null
  obtain ⟨herror, hunmoved⟩ := hown (.inl hlt)
  have hunknown : c.get? "other" = none := Option.isNone_iff_eq_none.mp (by decide +kernel)
  have hrefusal : refusal? c "other" (sc.document.perform op) 1 =
      some (.unknownTemplate "other") := by
    rw [refusal?, hparent, hunknown]
  rw [if_neg (by simp), hrefusal] at herror
  have hmoved := hunmoved (by rw [herror]; rfl)
  rw [List.flatMap_singleton] at hmoved
  exact ⟨i, sc, hget, herror, hmoved⟩

/-- A list is got without data, in a document of three nodes. The number 5 is that of no node
yet and has no parent; the update of the list with an item gives it to an element inside the
list. So two items can be rendered before 5. Where the template is unknown they are refused for
that reason alone, and 5 has a parent where it had none. -/
theorem anchor_made_by_updates :
    let source := "<ul><li for=\"items\">\x7b\x7bname\x7d\x7d</li></ul>"
    ∃ tree, read source = .ok tree ∧
      let c := (Workshop.compileAll [(tree, "list")] {}).catalog
      let list (ss : List String) : Json :=
        .obj [("items", .arr (ss.map fun s => .obj [("name", .str s)]))]
      ∃ i sc, c.get "list" none {} = (.ok i, sc) ∧ Troupe c sc [i] ∧ 5 ∉ i.owned ∧
        sc.document.size = 3 ∧ sc.document.parent? 5 = none ∧
        (let o := renderEach c (update c) "list" 5 [list ["a"], list []] [i] sc
        o.error = none ∧ o.state.length = 2) ∧
        (let o := renderEach c (update c) "other" 5 [list ["a"], list []] [i] sc
        o.error = some (.unknownTemplate "other") ∧ o.scene.document.parent? 5 = some 1) := by
  intro source
  refine ⟨treeOf source, read_eq_treeOf (by decide +kernel), ?_⟩
  intro c list
  have hc : c.Sound := (Workshop.built_compileAll _).sound
  obtain ⟨_, i, sc, _, hget, _, htroupe⟩ :=
    (Troupe.start {} Linked.empty).exists_got hc "list" (by decide +kernel) none
  have heval : let got := c.get "list" none {}
      got.1.toOption.map (fun i =>
        (decide (5 ∉ i.owned), got.2.document.size, got.2.document.parent? 5)) =
      some (true, 3, none) := by
    decide +kernel
  have hlist : let got := c.get "list" none {}
      got.1.toOption.map (fun i =>
        let o := renderEach c (update c) "list" 5 [list ["a"], list []] [i] got.2
        (o.error, o.state.length)) = some (none, 2) := by
    decide +kernel
  have hother : let got := c.get "list" none {}
      got.1.toOption.map (fun i =>
        let o := renderEach c (update c) "other" 5 [list ["a"], list []] [i] got.2
        (o.error, o.scene.document.parent? 5)) =
      some (some (.unknownTemplate "other"), some 1) := by
    decide +kernel
  simp only [hget, Except.toOption, Option.map_some, Option.some.injEq, Prod.mk.injEq,
    decide_eq_true_eq] at heval hlist hother
  obtain ⟨howned, hsize, hparent⟩ := heval
  exact ⟨i, sc, hget, htroupe, howned, hsize, hparent, hlist, hother⟩

end Children
end Stencil

import Stencil.Instance.Mount
import Stencil.Proofs.Document.Links
import Stencil.Proofs.Template.Shape

/-! Where the nodes of an instance stand. A slot accounts for its own node and, when it is
an anchor, for the nodes of the instances rendered before it; the block of an instance is
what its root slots account for. A live instance has all its nodes in place, and so have
the instances nested in it. -/
namespace Stencil

/-- The nodes that a slot accounts for, from the nodes by slot and the blocks by group. -/
def Template.spread (t : Template) (nodes : List NodeId) (rows : List (List NodeId)) (s : Slot) :
    List NodeId :=
  ((t.groupAt? s).bind (rows[·]?)).getD [] ++ nodes[s]?.toList

namespace Instance

mutual

/-- The nodes that stand for an instance in the parent it is put into, in order. -/
def block : Instance → List NodeId
  | ⟨t, _, _, nodes, _, groups⟩ => t.rootSlots.flatMap (t.spread nodes (blockGroups groups))

def blockGroups : List (List Instance) → List (List NodeId)
  | [] => []
  | is :: gs => blockAll is :: blockGroups gs

def blockAll : List Instance → List NodeId
  | [] => []
  | i :: is => block i ++ blockAll is

end

mutual

/-- The fragment and the nodes of an instance and of all that is nested in it. -/
def owned : Instance → List NodeId
  | ⟨_, _, root, nodes, _, groups⟩ => root.toList ++ (nodes ++ ownedGroups groups)

def ownedGroups : List (List Instance) → List NodeId
  | [] => []
  | is :: gs => ownedAll is ++ ownedGroups gs

def ownedAll : List Instance → List NodeId
  | [] => []
  | i :: is => owned i ++ ownedAll is

end

/-- What an instance owns beside its fragment. -/
def body (i : Instance) : List NodeId := i.nodes ++ ownedGroups i.groups

/-- The nodes that a slot accounts for. -/
def slotBlock (i : Instance) (s : Slot) : List NodeId :=
  i.template.spread i.nodes (blockGroups i.groups) s

/-- The nodes that stand under a parent, in order. -/
def layout (i : Instance) (p : Parent) : List NodeId := (i.template.slotsAt p).flatMap i.slotBlock

theorem blockAll_eq (is : List Instance) : blockAll is = is.flatMap block := by
  induction is with
  | nil => rfl
  | cons i is ih => rw [blockAll, ih, List.flatMap_cons]

theorem blockGroups_eq (gs : List (List Instance)) : blockGroups gs = gs.map blockAll := by
  induction gs with
  | nil => rfl
  | cons is gs ih => rw [blockGroups, ih, List.map_cons]

theorem ownedAll_eq (is : List Instance) : ownedAll is = is.flatMap owned := by
  induction is with
  | nil => rfl
  | cons i is ih => rw [ownedAll, ih, List.flatMap_cons]

theorem ownedGroups_eq (gs : List (List Instance)) : ownedGroups gs = gs.flatMap ownedAll := by
  induction gs with
  | nil => rfl
  | cons is gs ih => rw [ownedGroups, ih, List.flatMap_cons]

theorem block_eq (i : Instance) : i.block = i.layout .root := by
  cases i
  rw [block, Template.rootSlots_eq]
  rfl

theorem owned_eq (i : Instance) : i.owned = i.root.toList ++ i.body := by
  cases i
  rw [owned]
  rfl

mutual

theorem inductTo {P : Instance → Prop}
    (h : ∀ i, (∀ is ∈ i.groups, ∀ j ∈ is, P j) → P i) : ∀ i, P i
  | ⟨_, _, _, _, _, groups⟩ => h _ (inductGroups h groups)

theorem inductGroups {P : Instance → Prop}
    (h : ∀ i, (∀ is ∈ i.groups, ∀ j ∈ is, P j) → P i) :
    ∀ (gs : List (List Instance)), ∀ is ∈ gs, ∀ j ∈ is, P j
  | [], _, hm, _, _ => nomatch hm
  | is :: gs, js, hm, j, hj =>
    (List.mem_cons.mp hm).elim (fun e => inductAll h is j (e ▸ hj))
      (fun hm => inductGroups h gs js hm j hj)

theorem inductAll {P : Instance → Prop}
    (h : ∀ i, (∀ is ∈ i.groups, ∀ j ∈ is, P j) → P i) : ∀ (is : List Instance), ∀ j ∈ is, P j
  | [], _, hm => nomatch hm
  | i :: is, j, hm =>
    (List.mem_cons.mp hm).elim (fun e => e ▸ inductTo h i) (fun hm => inductAll h is j hm)

end

theorem mem_body {i : Instance} {x : NodeId} :
    x ∈ i.body ↔ x ∈ i.nodes ∨ ∃ is ∈ i.groups, ∃ j ∈ is, x ∈ j.owned := by
  unfold body
  rw [List.mem_append, ownedGroups_eq, List.mem_flatMap]
  refine or_congr Iff.rfl (exists_congr fun is => and_congr Iff.rfl ?_)
  rw [ownedAll_eq, List.mem_flatMap]

theorem body_subset_owned (i : Instance) {x : NodeId} (h : x ∈ i.body) : x ∈ i.owned := by
  rw [owned_eq]
  exact List.mem_append_right _ h

theorem mem_slotBlock {i : Instance} {s : Slot} {x : NodeId} :
    x ∈ i.slotBlock s ↔ i.nodes[s]? = some x ∨
      ∃ g is, i.template.groupAt? s = some g ∧ i.groups[g]? = some is ∧ ∃ j ∈ is, x ∈ j.block := by
  unfold slotBlock Template.spread
  rw [List.mem_append, blockGroups_eq, or_comm]
  refine or_congr (by simp) ?_
  cases hg : i.template.groupAt? s with
  | none => simp
  | some g =>
    cases hi : i.groups[g]? with
    | none => simp [hi]
    | some is => simp [hi, blockAll_eq]

private theorem slotBlock_subset {i : Instance} {s : Slot} {x : NodeId}
    (h : ∀ is ∈ i.groups, ∀ j ∈ is, ∀ y ∈ j.block, y ∈ j.body) (hx : x ∈ i.slotBlock s) :
    x ∈ i.body := by
  rw [mem_body]
  rcases mem_slotBlock.mp hx with hn | ⟨g, is, _, hi, j, hj, hx⟩
  · exact .inl (List.mem_of_getElem? hn)
  · have hm := List.mem_of_getElem? hi
    exact .inr ⟨is, hm, j, hj, body_subset_owned j (h is hm j hj x hx)⟩

/-- The nodes that stand for an instance are its own. -/
theorem block_subset_body (i : Instance) : ∀ x ∈ i.block, x ∈ i.body := by
  induction i using inductTo with
  | h i ih =>
    intro x hx
    rw [block_eq, layout, List.mem_flatMap] at hx
    obtain ⟨s, _, hx⟩ := hx
    exact slotBlock_subset ih hx

theorem slotBlock_subset_body {i : Instance} {s : Slot} {x : NodeId} (hx : x ∈ i.slotBlock s) :
    x ∈ i.body :=
  slotBlock_subset (fun _ _ j _ => block_subset_body j) hx

theorem blockAll_subset_ownedAll {is : List Instance} {x : NodeId} (h : x ∈ blockAll is) :
    x ∈ ownedAll is := by
  rw [blockAll_eq, List.mem_flatMap] at h
  obtain ⟨j, hj, hx⟩ := h
  rw [ownedAll_eq]
  exact List.mem_flatMap.mpr ⟨j, hj, body_subset_owned j (block_subset_body j x hx)⟩

end Instance

/-! ## Instances in place -/

/-- Kinds that differ in attributes, properties and the content of texts at most. -/
inductive Document.Kind.Alike : Document.Kind → Document.Kind → Prop
  | element {e e' : Document.Element} (tag : e'.tag = e.tag) (space : e'.space = e.space) :
      Alike (.element e) (.element e')
  | text (s s' : String) : Alike (.text s) (.text s')
  | fragment : Alike .fragment .fragment

theorem Document.Kind.Alike.refl (k : Document.Kind) : k.Alike k := by
  cases k with
  | element e => exact .element rfl rfl
  | text s => exact .text s s
  | fragment => exact .fragment

theorem Document.Kind.Alike.eq_fragment {k : Document.Kind} (h : Document.Kind.fragment.Alike k) :
    k = .fragment := by
  cases h
  rfl

/-- In the second document the node is of a kind like the one it had in the first. -/
def Document.KindAlike (d e : Document) (x : NodeId) : Prop :=
  ∀ k, d.kind? x = some k → ∃ k', e.kind? x = some k' ∧ k.Alike k'

theorem Document.KindAlike.of_eq {d e : Document} {x : NodeId} (h : e.kind? x = d.kind? x) :
    d.KindAlike e x := fun k hk => ⟨k, h.trans hk, .refl k⟩

/-- The kind that the node of a seed keeps: only attributes, properties and the content of
texts may change. -/
def Seed.Holds : Seed → Document.Kind → Prop
  | .element _ tag svg, .element e =>
    e.tag = tag ∧ e.space = if svg then some Vocabulary.svgNamespace else none
  | .text .., .text _ => True
  | .anchor _, .text _ => True
  | _, _ => False

theorem Seed.Holds.alike {seed : Seed} {k k' : Document.Kind} (h : seed.Holds k) (ha : k.Alike k') :
    seed.Holds k' := by
  cases ha with
  | element tag space =>
    cases seed with
    | element => exact ⟨tag.trans h.1, space.trans h.2⟩
    | text | anchor => exact h
  | text => cases seed <;> exact h
  | fragment => exact h

namespace Instance

/-- One level of an instance in place: all lists have the lengths the template asks for,
nodes have the kinds of their seeds, elements hold what goes to them, and the nested
instances are of the right template and have left their fragments. -/
structure Stands (c : Catalog) (d : Document) (i : Instance) : Prop where
  template_mem : i.template ∈ c.templates
  root_fragment : ∃ r, i.root = some r ∧ d.kind? r = some .fragment
  nodes_length : i.nodes.length = i.template.seeds.length
  values_length : i.values.length = i.template.varCount
  groups_length : i.groups.length = i.template.groupCount
  holds : ∀ (s : Slot) (seed : Seed) n, i.template.seeds[s]? = some seed → i.nodes[s]? = some n →
    ∃ k, d.kind? n = some k ∧ seed.Holds k
  children_eq : ∀ (s : Slot) n, i.template.HasElement s → i.nodes[s]? = some n →
    d.children n = i.layout (.slot s)
  present_le : ∀ name s v g is, .reconcile .onPresent name s v g ∈ i.template.computations →
    i.groups[g]? = some is → is.length ≤ 1
  nested : ∀ dir name s v g is, .reconcile dir name s v g ∈ i.template.computations →
    i.groups[g]? = some is → ∀ j ∈ is, c.get? name = some j.template ∧
      ∀ r, j.root = some r → d.children r = []

/-- An instance in place, with all that is nested in it. -/
inductive Live (c : Catalog) (d : Document) : Instance → Prop
  | intro {i : Instance} (stands : i.Stands c d)
      (nested : ∀ is ∈ i.groups, ∀ j ∈ is, Live c d j) : Live c d i

variable {c : Catalog} {d e : Document} {i : Instance}

theorem Live.stands (h : Live c d i) : i.Stands c d := by
  cases h with
  | intro h _ => exact h

theorem Live.nested (h : Live c d i) : ∀ is ∈ i.groups, ∀ j ∈ is, Live c d j := by
  cases h with
  | intro _ h => exact h

theorem Stands.isSome_root (h : i.Stands c d) : i.root.isSome := by
  obtain ⟨r, hr, _⟩ := h.root_fragment
  rw [hr]
  rfl

/-- Every seed has its node. -/
theorem Stands.exists_node (h : i.Stands c d) {s : Slot} {seed : Seed}
    (hs : i.template.seeds[s]? = some seed) :
    ∃ n k, i.nodes[s]? = some n ∧ d.kind? n = some k ∧ seed.Holds k := by
  have hlt : s < i.nodes.length := by
    rw [h.nodes_length]
    exact (List.getElem?_eq_some_iff.mp hs).1
  obtain ⟨k, hk, hholds⟩ := h.holds s seed _ hs (List.getElem?_eq_getElem hlt)
  exact ⟨_, k, List.getElem?_eq_getElem hlt, hk, hholds⟩

theorem Live.nodes_lt (h : Live c d i) {n : Nat} (hn : n ∈ i.nodes) : n < d.size := by
  obtain ⟨s, hs⟩ := List.getElem?_of_mem hn
  have hlt : s < i.template.seeds.length := by
    rw [← h.stands.nodes_length]
    exact (List.getElem?_eq_some_iff.mp hs).1
  obtain ⟨k, hk, _⟩ := h.stands.holds s _ n (List.getElem?_eq_getElem hlt) hs
  exact Document.lt_size_of_kind? hk

theorem Live.lt_size (h : Live c d i) : ∀ x : Nat, x ∈ i.owned → x < d.size := by
  induction h with
  | @intro i hs hn ih =>
    intro x hx
    rw [owned_eq, List.mem_append] at hx
    rcases hx with hx | hx
    · obtain ⟨r, hr, hk⟩ := hs.root_fragment
      rw [hr, Option.mem_toList] at hx
      exact Option.some.inj hx ▸ Document.lt_size_of_kind? hk
    · rcases mem_body.mp hx with hx | ⟨is, his, j, hj, hx⟩
      · exact (Live.intro hs hn).nodes_lt hx
      · exact ih is his j hj x hx

/-- Being in place is a matter of the kinds of the nodes owned, up to what they contain, and
of the children of all of them but the fragment. -/
theorem Stands.alike (hs : i.Stands c d) (hk : ∀ x ∈ i.owned, d.KindAlike e x)
    (hc : ∀ x ∈ i.body, e.children x = d.children x) : i.Stands c e where
  template_mem := hs.template_mem
  nodes_length := hs.nodes_length
  values_length := hs.values_length
  groups_length := hs.groups_length
  present_le := hs.present_le
  root_fragment := by
    obtain ⟨r, hr, hf⟩ := hs.root_fragment
    obtain ⟨k, hk, ha⟩ := hk r (by rw [owned_eq, hr]; simp) _ hf
    exact ⟨r, hr, hk.trans (congrArg some ha.eq_fragment)⟩
  holds s seed n hseed hn := by
    obtain ⟨k, hkind, hh⟩ := hs.holds s seed n hseed hn
    obtain ⟨k', hk', ha⟩ :=
      hk n (body_subset_owned i (mem_body.mpr (.inl (List.mem_of_getElem? hn)))) k hkind
    exact ⟨k', hk', hh.alike ha⟩
  children_eq s n he hn := by
    rw [hc n (mem_body.mpr (.inl (List.mem_of_getElem? hn)))]
    exact hs.children_eq s n he hn
  nested dir name s v g is hx hg j hj := by
    obtain ⟨ht, hr⟩ := hs.nested dir name s v g is hx hg j hj
    refine ⟨ht, fun r hjr => ?_⟩
    have hm : r ∈ j.owned := by rw [owned_eq, hjr]; simp
    rw [hc r (mem_body.mpr (.inr ⟨is, List.mem_of_getElem? hg, j, hj, hm⟩))]
    exact hr r hjr

theorem Live.alike (hl : Live c d i) (hk : ∀ x ∈ i.owned, d.KindAlike e x)
    (hc : ∀ x ∈ i.body, e.children x = d.children x) : Live c e i := by
  induction hl with
  | @intro i hs _ ih =>
    have hm : ∀ is ∈ i.groups, ∀ j ∈ is, ∀ x ∈ j.owned, x ∈ i.body :=
      fun is his j hj x hx => mem_body.mpr (.inr ⟨is, his, j, hj, hx⟩)
    refine .intro (hs.alike hk hc) fun is his j hj => ih is his j hj ?_ ?_
    · exact fun x hx => hk x (body_subset_owned _ (hm is his j hj x hx))
    · exact fun x hx => hc x (hm is his j hj x (body_subset_owned j hx))

theorem Live.congr (hl : Live c d i) (hk : ∀ x ∈ i.owned, e.kind? x = d.kind? x)
    (hc : ∀ x ∈ i.body, e.children x = d.children x) : Live c e i :=
  hl.alike (fun x hx => .of_eq (hk x hx)) hc

theorem Live.changesOnly {R : Nat → Prop} (hl : Live c d i) (h : Document.ChangesOnly R d e)
    (hR : ∀ x ∈ i.owned, ¬ R x) : Live c e i :=
  hl.congr (fun x hx => h.kind?_eq (hl.lt_size x hx) (hR x hx)) fun x hx =>
    have hx := body_subset_owned i hx
    h.children_eq (hl.lt_size x hx) (hR x hx)

end Instance
end Stencil

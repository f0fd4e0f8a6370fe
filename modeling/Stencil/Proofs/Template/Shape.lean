import Mathlib.Data.List.Nodup
import Stencil.Template.Catalog

/-! The shape of a template that can be mounted and updated without a fault: its wires
put every node under one parent, its computations speak of nodes, variables and groups
that are there, and the templates it nests stand before it in the catalog. -/
namespace Stencil
open Binding

theorem Binding.Interpolation.mem_vars_of_single? {value : Interpolation} {v : Var}
    (h : value.single? = some v) : v ∈ value.vars := by
  unfold single? at h
  split at h
  · cases h
    simp [vars]
  · cases h

/-- The node that a wire puts somewhere. -/
def Wire.child? : Wire → Option Slot
  | .append _ c => some c
  | .attr .. => none

/-- The node that a wire puts under a parent. -/
def Wire.under (p : Parent) : Wire → Option Slot
  | .append q c => if q = p then some c else none
  | .attr .. => none

/-- The wire sets an attribute of the slot. -/
def Wire.isAttrOf (s : Slot) : Wire → Bool
  | .attr t .. => t == s
  | .append .. => false

/-- The slots that wires put under a parent, in order. -/
def Wire.slotsAt (ws : List Wire) (p : Parent) : List Slot := ws.filterMap (Wire.under p)

/-- The wires that set attributes of a slot, in order. -/
def Wire.attrsAt (ws : List Wire) (s : Slot) : List Wire := ws.filter (Wire.isAttrOf s)

/-- The slot of an anchor, and the group that is rendered before it. -/
def Computation.anchored? : Computation → Option (Slot × Group)
  | .reconcile _ _ s _ g => some (s, g)
  | _ => none

theorem Wire.slotsAt_append (ws ws' : List Wire) (p : Parent) :
    Wire.slotsAt (ws ++ ws') p = Wire.slotsAt ws p ++ Wire.slotsAt ws' p :=
  List.filterMap_append

theorem Wire.mem_slotsAt {ws : List Wire} {p : Parent} {c : Slot} :
    c ∈ Wire.slotsAt ws p ↔ .append p c ∈ ws := by
  rw [Wire.slotsAt, List.mem_filterMap]
  constructor
  · rintro ⟨w, hw, h⟩
    cases w with
    | append q c' =>
      simp only [Wire.under, Option.ite_none_right_eq_some, Option.some.injEq] at h
      obtain ⟨rfl, rfl⟩ := h
      exact hw
    | attr => cases h
  · intro h
    exact ⟨_, h, by simp [Wire.under]⟩

namespace Template

def slotsAt (t : Template) (p : Parent) : List Slot := Wire.slotsAt t.wires p

def attrsAt (t : Template) (s : Slot) : List Wire := Wire.attrsAt t.wires s

/-- The anchors of a template with their groups, in order. -/
def anchored (t : Template) : List (Slot × Group) := t.computations.filterMap Computation.anchored?

/-- The group that is rendered before the node of a slot. -/
def groupAt? (t : Template) (s : Slot) : Option Group :=
  (t.anchored.find? (·.1 == s)).map (·.2)

def HasElement (t : Template) (s : Slot) : Prop :=
  ∃ q tag svg, t.seeds[s]? = some (.element q tag svg)

def HasText (t : Template) (s : Slot) : Prop := ∃ q content, t.seeds[s]? = some (.text q content)

def HasAnchor (t : Template) (s : Slot) : Prop := ∃ q, t.seeds[s]? = some (.anchor q)

/-- The computation speaks of what the template has. -/
def Fits (t : Template) : Computation → Prop
  | .setText s value => t.HasText s ∧ ∀ v ∈ value.vars, v < t.varCount
  | .setProperty s _ value => t.HasElement s ∧ ∀ v ∈ value.vars, v < t.varCount
  | .setAttribute s _ _ value => t.HasElement s ∧ ∀ v ∈ value.vars, v < t.varCount
  | .unlessFalse s _ v setter =>
    t.HasElement s ∧ v < t.varCount ∧ setter.anchored? = none ∧ t.Fits setter
  | .reconcile _ _ s v g => t.HasAnchor s ∧ v < t.varCount ∧ g < t.groupCount

structure Sound (t : Template) : Prop where
  /-- Every node is put somewhere, in the order of creation. -/
  children_eq : t.wires.filterMap Wire.child? = List.range t.seeds.length
  parent_lt : ∀ p c : Nat, .append (.slot p) c ∈ t.wires → p < c ∧ t.HasElement p
  attr_element : ∀ s space name value, .attr s space name value ∈ t.wires → t.HasElement s
  fits : ∀ x ∈ t.computations, t.Fits x
  groups_eq : t.anchored.map (·.2) = List.range t.groupCount
  nodup_anchors : (t.anchored.map (·.1)).Nodup
  binding_lt : ∀ r ∈ t.routes, ∀ b ∈ r.bindings, b.1 < t.varCount
  computation_lt : ∀ r ∈ t.routes, ∀ k ∈ r.computations, k < t.computations.length

theorem rootSlots_eq (t : Template) : t.rootSlots = t.slotsAt .root := by
  unfold rootSlots slotsAt Wire.slotsAt
  congr 1
  funext w
  cases w with
  | append p c => cases p <;> simp [Wire.under]
  | attr => rfl

theorem mem_slotsAt {t : Template} {p : Parent} {c : Slot} :
    c ∈ t.slotsAt p ↔ .append p c ∈ t.wires :=
  Wire.mem_slotsAt

theorem lt_of_hasElement {t : Template} {s : Nat} (h : t.HasElement s) : s < t.seeds.length := by
  obtain ⟨_, _, _, h⟩ := h
  exact (List.getElem?_eq_some_iff.mp h).1

theorem lt_of_hasText {t : Template} {s : Nat} (h : t.HasText s) : s < t.seeds.length := by
  obtain ⟨_, _, h⟩ := h
  exact (List.getElem?_eq_some_iff.mp h).1

theorem lt_of_hasAnchor {t : Template} {s : Nat} (h : t.HasAnchor s) : s < t.seeds.length := by
  obtain ⟨_, h⟩ := h
  exact (List.getElem?_eq_some_iff.mp h).1

theorem mem_anchored {t : Template} {s : Slot} {g : Group} :
    (s, g) ∈ t.anchored ↔ ∃ d name v, .reconcile d name s v g ∈ t.computations := by
  unfold anchored
  rw [List.mem_filterMap]
  constructor
  · rintro ⟨x, hx, h⟩
    cases x <;> simp only [Computation.anchored?, Option.some.injEq, Prod.mk.injEq,
      reduceCtorEq] at h
    obtain ⟨rfl, rfl⟩ := h
    exact ⟨_, _, _, hx⟩
  · rintro ⟨d, name, v, hx⟩
    exact ⟨_, hx, rfl⟩

end Template

/-- What passes a filter that drops no repetition is passed once. -/
theorem eq_of_nodup_filterMap {α β : Type} {f : α → Option β} {l : List α}
    (h : (l.filterMap f).Nodup) {a b : α} {c : β} (ha : a ∈ l) (hb : b ∈ l)
    (hfa : f a = some c) (hfb : f b = some c) : a = b := by
  induction l with
  | nil => cases ha
  | cons x l ih =>
    rw [List.filterMap_cons] at h
    rcases List.mem_cons.mp ha with rfl | ha' <;> rcases List.mem_cons.mp hb with rfl | hb'
    · rfl
    · simp only [hfa] at h
      exact absurd (List.mem_filterMap.mpr ⟨b, hb', hfb⟩) (List.nodup_cons.mp h).1
    · simp only [hfb] at h
      exact absurd (List.mem_filterMap.mpr ⟨a, ha', hfa⟩) (List.nodup_cons.mp h).1
    · refine ih ?_ ha' hb'
      split at h
      · exact h
      · exact (List.nodup_cons.mp h).2

theorem index_eq_of_nodup_filterMap {α β : Type} {f : α → Option β} {l : List α}
    (h : (l.filterMap f).Nodup) {i j : Nat} {a : α} {c : β} (hi : l[i]? = some a)
    (hj : l[j]? = some a) (hf : f a = some c) : i = j := by
  induction l generalizing i j with
  | nil => simp at hi
  | cons x l ih =>
    have hfirst : ∀ {k : Nat}, x = a → l[k]? = some a → False := by
      rintro k rfl hk
      rw [List.filterMap_cons_some hf] at h
      exact (List.nodup_cons.mp h).1 (List.mem_filterMap.mpr ⟨x, List.mem_of_getElem? hk, hf⟩)
    cases i with
    | zero =>
      cases j with
      | zero => rfl
      | succ j => exact (hfirst (by simpa using hi) (by simpa using hj)).elim
    | succ i =>
      cases j with
      | zero => exact (hfirst (by simpa using hj) (by simpa using hi)).elim
      | succ j =>
        have hrest : (l.filterMap f).Nodup := h.sublist ((List.sublist_cons_self x l).filterMap f)
        have hij : i = j := ih hrest (by simpa using hi) (by simpa using hj)
        rw [hij]

namespace Template.Sound

variable {t : Template}

theorem nodup_children (h : t.Sound) : (t.wires.filterMap Wire.child?).Nodup :=
  h.children_eq ▸ List.nodup_range

theorem nodup_slotsAt (h : t.Sound) (p : Parent) : (t.slotsAt p).Nodup := by
  refine h.nodup_children.sublist ?_
  -- the slots at one parent are chosen among the children of all wires
  have hf : t.slotsAt p =
      (t.wires.filter (fun w => match w with | .append q _ => q = p | .attr .. => false)).filterMap
        Wire.child? := by
    unfold slotsAt Wire.slotsAt
    rw [List.filterMap_filter]
    congr 1
    funext w
    cases w with
    | append q c => by_cases hq : q = p <;> simp [hq, Wire.child?, Wire.under]
    | attr => simp [Wire.under]
  rw [hf]
  exact List.filter_sublist.filterMap _

theorem parent_unique (h : t.Sound) {p q : Parent} {c : Slot} (hp : c ∈ t.slotsAt p)
    (hq : c ∈ t.slotsAt q) : p = q := by
  have := eq_of_nodup_filterMap h.nodup_children (mem_slotsAt.mp hp) (mem_slotsAt.mp hq) rfl rfl
  cases this
  rfl

theorem exists_parent (h : t.Sound) {s : Nat} (hs : s < t.seeds.length) :
    ∃ p, s ∈ t.slotsAt p := by
  have hm : s ∈ t.wires.filterMap Wire.child? := by
    rw [h.children_eq]
    exact List.mem_range.mpr hs
  obtain ⟨w, hw, hc⟩ := List.mem_filterMap.mp hm
  cases w with
  | append p c =>
    cases hc
    exact ⟨p, mem_slotsAt.mpr hw⟩
  | attr => cases hc

theorem slot_lt (h : t.Sound) {p : Parent} {s : Nat} (hs : s ∈ t.slotsAt p) :
    s < t.seeds.length := by
  have : s ∈ t.wires.filterMap Wire.child? :=
    List.mem_filterMap.mpr ⟨_, mem_slotsAt.mp hs, rfl⟩
  rw [h.children_eq] at this
  exact List.mem_range.mp this

theorem groupAt?_eq (h : t.Sound) {s : Slot} {g : Group} :
    t.groupAt? s = some g ↔ (s, g) ∈ t.anchored := by
  unfold groupAt?
  constructor
  · intro hg
    obtain ⟨⟨s', g'⟩, hf, rfl⟩ := Option.map_eq_some_iff.mp hg
    have hs : s' = s := by simpa using List.find?_some hf
    exact hs ▸ List.mem_of_find?_eq_some hf
  · intro hm
    cases hf : t.anchored.find? (·.1 == s) with
    | none => simpa using List.find?_eq_none.mp hf _ hm
    | some x =>
      have hs : x.1 = s := by simpa using List.find?_some hf
      have hx := List.inj_on_of_nodup_map h.nodup_anchors (List.mem_of_find?_eq_some hf) hm hs
      rw [hx]
      rfl

theorem group_unique (h : t.Sound) {s s' : Slot} {g : Group} (hs : (s, g) ∈ t.anchored)
    (hs' : (s', g) ∈ t.anchored) : s = s' := by
  have hn : (t.anchored.map (·.2)).Nodup := h.groups_eq ▸ List.nodup_range
  exact congrArg Prod.fst (List.inj_on_of_nodup_map hn hs hs' rfl)

/-- One computation renders a group. -/
theorem eq_of_group (h : t.Sound) {dir dir' : Directive} {name name' : String} {s s' : Slot}
    {v v' : Var} {g : Group} (hx : .reconcile dir name s v g ∈ t.computations)
    (hx' : .reconcile dir' name' s' v' g ∈ t.computations) :
    Computation.reconcile dir' name' s' v' g = .reconcile dir name s v g := by
  have hs := h.group_unique (mem_anchored.mpr ⟨_, _, _, hx⟩) (mem_anchored.mpr ⟨_, _, _, hx'⟩)
  subst hs
  have hnd : t.anchored.Nodup := h.nodup_anchors.of_map _
  exact eq_of_nodup_filterMap hnd hx' hx rfl rfl

/-- It stands at one place among the computations. -/
theorem index_unique (h : t.Sound) {i j : Nat} {dir : Directive} {name : String}
    {s : Slot} {v : Var} {g : Group} (hi : t.computations[i]? = some (.reconcile dir name s v g))
    (hj : t.computations[j]? = some (.reconcile dir name s v g)) : i = j := by
  have hnd : t.anchored.Nodup := h.nodup_anchors.of_map _
  exact index_eq_of_nodup_filterMap hnd hi hj rfl

theorem exists_anchor (h : t.Sound) {g : Nat} (hg : g < t.groupCount) :
    ∃ s, (s, g) ∈ t.anchored := by
  have hm : g ∈ t.anchored.map (·.2) := by
    rw [h.groups_eq]
    exact List.mem_range.mpr hg
  obtain ⟨⟨s, g'⟩, hx, rfl⟩ := List.mem_map.mp hm
  exact ⟨s, hx⟩

end Template.Sound

/-- Every template is sound, and nests templates that stand before it. -/
structure Catalog.Sound (c : Catalog) : Prop where
  template : ∀ t ∈ c.templates, t.Sound
  nested : ∀ k t, c.templates[k]? = some t → ∀ d name s v g,
    .reconcile d name s v g ∈ t.computations → ∃ u ∈ c.templates.take k, c.get? name = some u

/-- What is nested in one of the first templates stands before it. -/
theorem Catalog.mem_take {c : Catalog} {t : Template} (ht : t ∈ c.templates) :
    t ∈ c.templates.take (c.size + 1) := by
  rw [Catalog.size, List.take_of_length_le (by omega)]
  exact ht

theorem Catalog.Sound.exists_nested {c : Catalog} (h : c.Sound) {n : Nat} {t : Template}
    (ht : t ∈ c.templates.take (n + 1)) {dir : Directive} {name : String} {s : Slot} {v : Var}
    {g : Group} (hx : .reconcile dir name s v g ∈ t.computations) :
    ∃ u ∈ c.templates.take n, c.get? name = some u := by
  obtain ⟨k, hk⟩ := List.getElem?_of_mem ht
  have hlt : k < n + 1 := by
    have := (List.getElem?_eq_some_iff.mp hk).1
    rw [List.length_take] at this
    omega
  rw [List.getElem?_take_of_lt hlt] at hk
  obtain ⟨u, hu, hname⟩ := h.nested k t hk dir name s v g hx
  exact ⟨u, List.take_subset_take_left _ (by omega) hu, hname⟩

end Stencil

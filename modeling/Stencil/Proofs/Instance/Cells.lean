import Stencil.Proofs.Instance.Mounting
import Stencil.Proofs.Template.Drafting

/-! Cells. A computation writes to a few cells of a view: the text of a slot, attributes
and properties of an element, or a group. Every other cell stays as it was, and what is
written agrees with the values of the variables. It goes on agreeing with them while
neither its cells nor its variables change. -/
namespace Stencil
open Binding Document

/-! ## Cells of a view -/

inductive Cell where
  | text (s : Slot)
  | attr (s : Slot) (key : Option String × String)
  | property (s : Slot) (name : String)
  | group (g : Group)
  deriving DecidableEq

namespace Computation

/-- The property that a computation sets. -/
def property? : Computation → Option String
  | .setProperty _ name _ => some name
  | _ => none

/-- The cells to which a computation may write. -/
def cells : Computation → List Cell
  | .setText s _ => [.text s]
  | .setProperty s name _ => [.property s name]
  | .setAttribute s space name _ => [.attr s (space, name)]
  | .unlessFalse s name _ setter =>
    .attr s (Draft.attributeName name) ::
      (setter.property?.toList.map (.property s) ++ setter.cells)
  | .reconcile _ _ _ _ g => [.group g]

end Computation

namespace View

def element? (V : View) (s : Slot) : Option Element := V.kinds[s]?.bind Kind.element?

def text? (V : View) (s : Slot) : Option String := V.kinds[s]?.bind Kind.text?

def attribute? (V : View) (s : Slot) (key : Option String × String) : Option String :=
  (V.element? s).bind (·.attribute? key)

def property? (V : View) (s : Slot) (name : String) : Option Json :=
  (V.element? s).bind (·.property? name)

/-- Two views have the same in a cell. -/
def Agree (V W : View) : Cell → Prop
  | .text s => V.text? s = W.text? s
  | .attr s key => V.attribute? s key = W.attribute? s key
  | .property s name => V.property? s name = W.property? s name
  | .group g => V.groups[g]? = W.groups[g]?

/-- The lists of a view are those its template asks for. -/
structure Shaped (V : View) : Prop where
  held : V.template.Held V.kinds
  values_length : V.values.length = V.template.varCount
  groups_length : V.groups.length = V.template.groupCount

variable {V W U : View} {c : Catalog} {upd : View → Json → View} {x : Computation} {cell : Cell}

theorem Agree.refl (V : View) (cell : Cell) : V.Agree V cell := by
  cases cell <;> rfl

theorem Agree.symm (h : V.Agree W cell) : W.Agree V cell := by
  cases cell <;> exact Eq.symm h

theorem Agree.trans (h : V.Agree W cell) (h' : W.Agree U cell) : V.Agree U cell := by
  cases cell <;> exact Eq.trans h h'

theorem Shaped.exists_element (h : V.Shaped) {s : Slot} (hs : V.template.HasElement s) :
    ∃ e, V.element? s = some e := by
  obtain ⟨q, tag, svg, hs⟩ := hs
  obtain ⟨k, hk, hh⟩ := h.held s _ hs
  obtain ⟨e, rfl⟩ := hh.element
  exact ⟨e, by rw [element?, hk]; rfl⟩

theorem Shaped.element?_of_hasText (h : V.Shaped) {s : Slot} (hs : V.template.HasText s) :
    V.element? s = none ∧ s < V.kinds.length := by
  obtain ⟨q, content, hs⟩ := hs
  obtain ⟨k, hk, hh⟩ := h.held s _ hs
  refine ⟨?_, (List.getElem?_eq_some_iff.mp hk).1⟩
  rw [element?, hk]
  cases k with
  | element => cases hh
  | text => rfl
  | fragment => rfl

@[simp] theorem element?_onElement (s s' : Slot) (f : Element → Element) (V : View) :
    (V.onElement s f).element? s' = if s = s' then (V.element? s').map f else V.element? s' := by
  simp only [element?, onElement, List.getElem?_modify]
  by_cases h : s = s'
  · cases V.kinds[s']? with
    | none => simp [h]
    | some k => cases k <;> simp [h, Kind.onElement, Kind.element?]
  · simp [h]

@[simp] theorem text?_onElement (s s' : Slot) (f : Element → Element) (V : View) :
    (V.onElement s f).text? s' = V.text? s' := by
  simp only [text?, onElement, List.getElem?_modify]
  by_cases h : s = s'
  · cases V.kinds[s']? with
    | none => simp
    | some k => cases k <;> simp [h, Kind.onElement, Kind.text?]
  · simp [h]

/-- A change of an element leaves the cells that it does not speak of. -/
theorem agree_onElement {s : Slot} {f : Element → Element}
    (hattr : ∀ key, cell = .attr s key → ∀ e, (f e).attribute? key = e.attribute? key)
    (hprop : ∀ p, cell = .property s p → ∀ e, (f e).property? p = e.property? p) :
    (V.onElement s f).Agree V cell := by
  cases cell with
  | text s' => exact text?_onElement s s' f V
  | group g => rfl
  | attr s' key =>
    rw [Agree, attribute?, attribute?, element?_onElement]
    split
    · subst s'
      cases V.element? s with
      | none => rfl
      | some e => exact hattr key rfl e
    · rfl
  | property s' p =>
    rw [Agree, property?, property?, element?_onElement]
    split
    · subst s'
      cases V.element? s with
      | none => rfl
      | some e => exact hprop p rfl e
    · rfl

/-! ## What a computation does -/

@[simp] theorem template_compute (x : Computation) (V : View) :
    (V.compute c upd x).template = V.template := by
  induction x with
  | unlessFalse s name v setter ih =>
    rw [compute]
    split
    · cases setter <;> rfl
    · exact ih
  | _ => rfl

@[simp] theorem values_compute (x : Computation) (V : View) :
    (V.compute c upd x).values = V.values := by
  induction x with
  | unlessFalse s name v setter ih =>
    rw [compute]
    split
    · cases setter <;> rfl
    · exact ih
  | _ => rfl

theorem Shaped.onElement (h : V.Shaped) (s : Slot) {f : Element → Element}
    (hf : ∀ e, (f e).tag = e.tag ∧ (f e).space = e.space) : (V.onElement s f).Shaped where
  held := h.held.modify (fun _ _ => Seed.Holds.onElement hf) s
  values_length := h.values_length
  groups_length := h.groups_length

theorem Shaped.compute (h : V.Shaped) (hx : V.template.Fits x) : (V.compute c upd x).Shaped := by
  induction x with
  | setText s value =>
    refine ⟨fun q seed hq => ?_, h.values_length, h.groups_length⟩
    obtain ⟨k, hk, hh⟩ := h.held q seed hq
    by_cases hs : s = q
    · obtain ⟨_, _, hseed⟩ := hx.1
      cases (hs ▸ hseed).symm.trans hq
      refine ⟨.text (value.shown V.values), ?_, trivial⟩
      rw [View.compute, hs, List.getElem?_set_self (List.getElem?_eq_some_iff.mp hk).1]
    · exact ⟨k, by rw [View.compute, List.getElem?_set_ne hs]; exact hk, hh⟩
  | setProperty s name value => exact h.onElement s fun _ => ⟨rfl, rfl⟩
  | setAttribute s space name value => exact h.onElement s fun _ => ⟨rfl, rfl⟩
  | unlessFalse s name v setter ih =>
    rw [View.compute]
    split
    · have hd := h.onElement s (f := .dropAttribute (Draft.attributeName name)) fun _ => ⟨rfl, rfl⟩
      cases setter with
      | setProperty _ p _ => exact hd.onElement s (f := .dropProperty p) fun _ => ⟨rfl, rfl⟩
      | _ => exact hd
    · exact ih hx.2.2.2
  | reconcile dir name s v g =>
    exact ⟨h.held, h.values_length, by rw [View.compute, List.length_modify]; exact h.groups_length⟩

/-- A computation changes no cell but its own. -/
theorem agree_compute (h : V.Shaped) (hx : V.template.Fits x) (hcell : cell ∉ x.cells) :
    (V.compute c upd x).Agree V cell := by
  induction x with
  | setText s value =>
    obtain ⟨hnone, hlt⟩ := h.element?_of_hasText hx.1
    have hset : ∀ s',
        View.element? { V with kinds := V.kinds.set s (.text (value.shown V.values)) } s' =
          V.element? s' := by
      intro s'
      by_cases hs : s = s'
      · rw [← hs, hnone, View.element?, List.getElem?_set_self hlt]
        rfl
      · rw [View.element?, List.getElem?_set_ne hs]
        rfl
    cases cell with
    | text s' =>
      have hs : s ≠ s' := by simpa [Computation.cells, eq_comm] using hcell
      rw [Agree, View.compute, text?, List.getElem?_set_ne hs]
      rfl
    | attr s' key => rw [Agree, View.compute, attribute?, hset, attribute?]
    | property s' p => rw [Agree, View.compute, property?, hset, property?]
    | group g => rfl
  | setProperty s name value =>
    refine agree_onElement (fun _ _ _ => rfl) fun p hp e => ?_
    have hne : p ≠ name := by simpa [hp, Computation.cells] using hcell
    rw [Element.property?_putProperty, if_neg hne]
  | setAttribute s space name value =>
    refine agree_onElement (fun key hk e => ?_) fun _ _ _ => rfl
    have hne : key ≠ (space, name) := by simpa [hk, Computation.cells] using hcell
    rw [Element.attribute?_putAttribute, if_neg hne]
  | unlessFalse s name v setter ih =>
    have hnot : cell ≠ .attr s (Draft.attributeName name) ∧
        (∀ p, setter.property? = some p → cell ≠ .property s p) ∧ cell ∉ setter.cells := by
      simp only [Computation.cells, List.mem_cons, List.mem_append, List.mem_map,
        Option.mem_toList, not_or, not_exists, not_and] at hcell
      exact ⟨hcell.1, fun p hp he => hcell.2.1 p hp he.symm, hcell.2.2⟩
    rw [View.compute]
    split
    · have hd : (V.onElement s (.dropAttribute (Draft.attributeName name))).Agree V cell := by
        refine agree_onElement (fun key hk e => ?_) fun _ _ _ => rfl
        have hne : key ≠ Draft.attributeName name := fun he => hnot.1 (he ▸ hk)
        rw [Element.attribute?_dropAttribute, if_neg hne]
      cases setter with
      | setProperty q p value =>
        refine Agree.trans (agree_onElement (fun _ _ _ => rfl) fun p' hp e => ?_) hd
        have hne : p' ≠ p := fun he => hnot.2.1 p rfl (he ▸ hp)
        rw [Element.property?_dropProperty, if_neg hne]
      | _ => exact hd
    · exact ih hx.2.2.2 hnot.2.2
  | reconcile dir name s v g =>
    cases cell with
    | group g' =>
      have hg : g ≠ g' := by simpa [Computation.cells, eq_comm] using hcell
      simp [Agree, View.compute, hg]
    | _ => rfl

/-- Only texts that are no anchors are written to. -/
theorem hasText_of_mem_cells {t : Template} {s : Slot} (hx : t.Fits x) (hs : .text s ∈ x.cells) :
    t.HasText s := by
  induction x with
  | setText s' value =>
    cases List.mem_singleton.mp hs
    exact hx.1
  | unlessFalse s' name v setter ih =>
    refine ih hx.2.2.2 ?_
    simpa [Computation.cells] using hs
  | setProperty | setAttribute | reconcile => simp [Computation.cells] at hs

/-- Only what renders a group writes to it. -/
theorem group_of_mem_cells {t : Template} {g : Group} (hx : t.Fits x) (hg : .group g ∈ x.cells) :
    ∃ dir name s v, x = .reconcile dir name s v g := by
  induction x with
  | reconcile dir name s v g' =>
    cases List.mem_singleton.mp hg
    exact ⟨dir, name, s, v, rfl⟩
  | unlessFalse s name v setter ih =>
    obtain ⟨_, _, _, _, rfl⟩ := ih hx.2.2.2 (by simpa [Computation.cells] using hg)
    cases hx.2.2.1
  | setText | setProperty | setAttribute => simp [Computation.cells] at hg

/-! ## Agreement with the values -/

/-- What the computation writes is there, as the values of the variables have it. -/
def Done (V : View) : Computation → Prop
  | .setText s value => V.text? s = some (value.shown V.values)
  | .setProperty s name value => V.property? s name = some (V.propertyValue value)
  | .setAttribute s space name value => V.attribute? s (space, name) = some (value.shown V.values)
  | .unlessFalse s name v setter =>
    if (V.value v).isFalse then
      V.attribute? s (Draft.attributeName name) = none ∧
        ∀ p, setter.property? = some p → V.property? s p = none
    else V.Done setter
  | .reconcile dir _ _ v g =>
    ∃ vs, V.groups[g]? = some vs ∧ vs.length = (dir.items (V.value v)).length

/-- The text of an interpolation depends on its variables only. -/
theorem shown_congr {value : Interpolation} {xs ys : List Json}
    (h : ∀ v ∈ value.vars, xs[v]? = ys[v]?) : value.shown xs = value.shown ys := by
  induction value with
  | nil => rfl
  | cons p ps ih =>
    cases p with
    | literal s => rw [Interpolation.shown, Interpolation.shown, ih h]
    | var v =>
      rw [Interpolation.shown, Interpolation.shown, h v List.mem_cons_self,
        ih fun w hw => h w (List.mem_cons_of_mem _ hw)]

theorem propertyValue_congr {value : Interpolation}
    (h : ∀ v ∈ value.vars, V.values[v]? = W.values[v]?) :
    V.propertyValue value = W.propertyValue value := by
  unfold propertyValue
  cases hs : value.single? with
  | some v =>
    dsimp only
    rw [View.value, View.value, h v (Interpolation.mem_vars_of_single? hs)]
  | none =>
    dsimp only
    rw [shown_congr h]

/-- What is done stays done while its cells and its variables stay. -/
theorem Done.congr (h : V.Done x) (hcells : ∀ cell ∈ x.cells, W.Agree V cell)
    (hvars : ∀ v ∈ x.vars, W.values[v]? = V.values[v]?) : W.Done x := by
  induction x with
  | setText s value =>
    have ht : W.text? s = V.text? s := hcells _ List.mem_cons_self
    rw [Done, ht, shown_congr hvars]
    exact h
  | setProperty s name value =>
    have ht : W.property? s name = V.property? s name := hcells _ List.mem_cons_self
    rw [Done, ht, propertyValue_congr hvars]
    exact h
  | setAttribute s space name value =>
    have ht : W.attribute? s (space, name) = V.attribute? s (space, name) :=
      hcells _ List.mem_cons_self
    rw [Done, ht, shown_congr hvars]
    exact h
  | unlessFalse s name v setter ih =>
    have hv : W.value v = V.value v := by rw [View.value, View.value, hvars v List.mem_cons_self]
    have ht : W.attribute? s (Draft.attributeName name) =
        V.attribute? s (Draft.attributeName name) :=
      hcells _ List.mem_cons_self
    have hp : ∀ p, setter.property? = some p → W.property? s p = V.property? s p := fun p hp =>
      hcells (.property s p) (List.mem_cons_of_mem _ (List.mem_append_left _ (by simp [hp])))
    rw [Done] at h ⊢
    rw [hv, ht]
    split
    · rename_i hfalse
      rw [if_pos hfalse] at h
      exact ⟨h.1, fun p hs => (hp p hs).trans (h.2 p hs)⟩
    · rename_i hfalse
      rw [if_neg hfalse] at h
      exact ih h (fun cell hc => hcells _ (List.mem_cons_of_mem _ (List.mem_append_right _ hc)))
        fun w hw => hvars w (List.mem_cons_of_mem _ hw)
  | reconcile dir name s v g =>
    obtain ⟨vs, hg, hlen⟩ := h
    have hv : W.value v = V.value v := by rw [View.value, View.value, hvars v List.mem_cons_self]
    have ht : W.groups[g]? = V.groups[g]? := hcells _ List.mem_cons_self
    exact ⟨vs, ht.trans hg, by rw [hv, hlen]⟩

theorem length_render {name : String} {t : Template} (ht : c.get? name = some t) (items : List Json)
    (vs : List View) : (render c upd name items vs).length = items.length := by
  rw [render, ht]
  simp only [List.length_append, List.length_zipWith, List.length_map, List.length_drop]
  omega

/-- A computation does what it is for. -/
theorem done_compute (h : V.Shaped) (hx : V.template.Fits x)
    (hget : ∀ dir name s v g, x = .reconcile dir name s v g → ∃ t, c.get? name = some t) :
    (V.compute c upd x).Done x := by
  induction x with
  | setText s value =>
    have hlt := (h.element?_of_hasText hx.1).2
    rw [Done, values_compute, View.compute, text?, List.getElem?_set_self hlt]
    rfl
  | setProperty s name value =>
    obtain ⟨e, he⟩ := h.exists_element hx.1
    have hv : (V.compute c upd (.setProperty s name value)).propertyValue value =
        V.propertyValue value := propertyValue_congr fun _ _ => rfl
    rw [Done, hv, View.compute, property?, element?_onElement, if_pos rfl, he]
    simp
  | setAttribute s space name value =>
    obtain ⟨e, he⟩ := h.exists_element hx.1
    rw [Done, values_compute, View.compute, attribute?, element?_onElement, if_pos rfl, he]
    simp
  | unlessFalse s name v setter ih =>
    obtain ⟨e, he⟩ := h.exists_element hx.1
    have hv : (V.compute c upd (.unlessFalse s name v setter)).value v = V.value v := by
      rw [View.value, values_compute]
      rfl
    rw [Done, hv]
    by_cases hfalse : (V.value v).isFalse = true
    · rw [if_pos hfalse, View.compute, if_pos hfalse]
      cases setter with
      | setProperty q p value => simp [attribute?, property?, he, Computation.property?]
      | _ => simp [attribute?, he, Computation.property?]
    · rw [if_neg hfalse, View.compute, if_neg hfalse]
      refine ih hx.2.2.2 fun dir name s v g hs => ?_
      have hnone := hx.2.2.1
      rw [hs] at hnone
      cases hnone
  | reconcile dir name s v g =>
    obtain ⟨t, ht⟩ := hget dir name s v g rfl
    have hlt : g < V.groups.length := h.groups_length ▸ hx.2.2
    refine ⟨render c upd name (dir.items (V.value v)) V.groups[g], ?_, length_render ht _ _⟩
    simp [View.compute, List.getElem?_eq_getElem hlt]

end View

/-! ## Nodes of cells -/

namespace Instance

variable {d : Document} {i : Instance}

theorem kinds_view {s : Slot} {n : NodeId} {k : Kind} (hn : i.nodes[s]? = some n)
    (hk : d.kind? n = some k) : (i.view d).kinds[s]? = some k := by
  rw [view_eq, List.getElem?_map, hn, Option.map_some, kindOf, hk]
  rfl

theorem exists_of_kinds {s : Slot} {k : Kind} (h : (i.view d).kinds[s]? = some k)
    (hk : k ≠ .fragment) : ∃ n, i.nodes[s]? = some n ∧ d.kind? n = some k := by
  rw [view_eq, List.getElem?_map] at h
  obtain ⟨n, hn, rfl⟩ := Option.map_eq_some_iff.mp h
  refine ⟨n, hn, ?_⟩
  unfold kindOf at hk ⊢
  cases hd : d.kind? n with
  | none => simp [hd] at hk
  | some k => rfl

theorem exists_of_text? {s : Slot} {content : String} (h : (i.view d).text? s = some content) :
    ∃ n, i.nodes[s]? = some n ∧ d.kind? n = some (.text content) := by
  obtain ⟨k, hk, hc⟩ := Option.bind_eq_some_iff.mp h
  cases k with
  | text => cases hc; exact exists_of_kinds hk nofun
  | element => cases hc
  | fragment => cases hc

theorem exists_of_element? {s : Slot} {e : Element} (h : (i.view d).element? s = some e) :
    ∃ n, i.nodes[s]? = some n ∧ d.element? n = some e := by
  obtain ⟨k, hk, hc⟩ := Option.bind_eq_some_iff.mp h
  cases k with
  | element =>
    cases hc
    obtain ⟨n, hn, hkind⟩ := exists_of_kinds hk nofun
    exact ⟨n, hn, by rw [Document.element?, hkind]⟩
  | text => cases hc
  | fragment => cases hc

theorem groups_view {g : Group} {is : List Instance} (hg : i.groups[g]? = some is) :
    (i.view d).groups[g]? = some (is.map (view d)) := by
  rw [view_eq, viewGroups_eq, List.getElem?_map, hg, Option.map_some, viewAll_eq]

theorem exists_of_groups {g : Group} {vs : List View} (h : (i.view d).groups[g]? = some vs) :
    ∃ is, i.groups[g]? = some is ∧ vs = is.map (view d) := by
  rw [view_eq, viewGroups_eq, List.getElem?_map] at h
  obtain ⟨is, his, rfl⟩ := Option.map_eq_some_iff.mp h
  exact ⟨is, his, viewAll_eq d is⟩

end Instance
end Stencil

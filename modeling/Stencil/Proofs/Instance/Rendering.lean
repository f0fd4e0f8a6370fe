import Stencil.Proofs.Instance.First
import Stencil.Proofs.Markup.Rendering

/-! Slot by slot the first update shows what rendering the markup directly gives: texts,
attributes and properties. -/
namespace Stencil
open Binding Document Markup

/-- The computation gives the attribute a value. -/
def Computation.Puts (s : Slot) (key : Option String × String) : Computation → Prop
  | .setAttribute s' space name _ => s' = s ∧ (space, name) = key
  | .unlessFalse _ _ _ setter => setter.Puts s key
  | _ => False

theorem Computation.Puts.mem_cells {s : Slot} {key : Option String × String} {x : Computation}
    (h : x.Puts s key) : .attr s key ∈ x.cells := by
  induction x with
  | setAttribute s' space name value =>
    obtain ⟨rfl, rfl⟩ := h
    exact List.mem_singleton_self _
  | unlessFalse s' name v setter ih =>
    exact List.mem_cons_of_mem _ (List.mem_append_right _ (ih h))
  | setText | setProperty | reconcile => cases h

namespace View

variable {c : Catalog} {upd : View → Json → View} {V : View} {x : Computation} {s : Slot}
  {key : Option String × String}

theorem attribute?_onElement_dropAttribute (q : Slot) (key' : Option String × String)
    (h : V.attribute? s key = none) :
    (V.onElement q (.dropAttribute key')).attribute? s key = none := by
  rw [attribute?, element?_onElement]
  split
  · unfold attribute? at h
    cases he : V.element? s with
    | none => rfl
    | some e =>
      rw [he, Option.bind_some] at h
      rw [Option.map_some, Option.bind_some, Element.attribute?_dropAttribute, h, ite_self]
  · exact h

/-- An attribute that nothing gives a value does not appear. -/
theorem attribute?_compute_of_none (hV : V.Shaped) (hx : V.template.Fits x) (hp : ¬ x.Puts s key)
    (h : V.attribute? s key = none) : (V.compute c upd x).attribute? s key = none := by
  have hframe : ∀ {y}, V.template.Fits y → .attr s key ∉ y.cells →
      (V.compute c upd y).attribute? s key = none := by
    intro y hy hcell
    have hagree : (V.compute c upd y).Agree V (.attr s key) := agree_compute hV hy hcell
    exact Eq.trans hagree h
  induction x with
  | setText => exact hframe hx (by simp [Computation.cells])
  | setProperty => exact hframe hx (by simp [Computation.cells])
  | setAttribute s' space name value =>
    refine hframe hx fun hm => hp ?_
    cases List.mem_singleton.mp hm
    exact ⟨rfl, rfl⟩
  | unlessFalse s' name v setter ih =>
    rw [compute]
    split
    · have hdrop := attribute?_onElement_dropAttribute (V := V) s' (Draft.attributeName name) h
      cases setter with
      | setProperty q p value =>
        have hagree : ((V.onElement s' (.dropAttribute (Draft.attributeName name))).onElement s'
            (.dropProperty p)).Agree (V.onElement s' (.dropAttribute (Draft.attributeName name)))
            (.attr s key) := agree_onElement (fun _ _ _ => rfl) (by intro p hp; cases hp)
        exact Eq.trans hagree hdrop
      | _ => exact hdrop
    · exact ih hx.2.2.2 hp
  | reconcile => exact hframe hx (by simp [Computation.cells])

/-- Cells to which no computation of the template writes are as in a new view, and attributes
that none of them puts are absent if they are so there. -/
structure Pristine (t : Template) (V : View) : Prop where
  agree : ∀ cell, (∀ y ∈ t.computations, cell ∉ y.cells) → V.Agree (new t) cell
  absent : ∀ s key, (∀ y ∈ t.computations, ¬ y.Puts s key) → (new t).attribute? s key = none →
    V.attribute? s key = none

theorem pristine_new (t : Template) : (new t).Pristine t :=
  ⟨fun cell _ => .refl _ cell, fun _ _ _ h => h⟩

/-- Updates write nothing else. -/
theorem Pristine.updateWith (h : V.Pristine V.template) (ht : V.template.Sound) (hs : V.Shaped)
    (data : Json) : (V.updateWith c upd data).Pristine V.template := by
  cases data with
  | obj fields =>
    refine ⟨fun cell hcell => ?_, fun s key hp hnew => ?_⟩
    · refine takeFields_keeps (P := fun W => W.Agree (new V.template) cell) ?_ ?_ ht hs
        (h.agree cell hcell) fields
      · intro W bs data h
        cases cell <;> exact h
      · intro W y hW hs hy h
        exact (agree_compute hs (hW ▸ ht.fits y hy) (hcell y hy)).trans h
    · refine takeFields_keeps (P := fun W => W.attribute? s key = none) (fun _ _ _ h => h) ?_ ht hs
        (h.absent s key hp hnew) fields
      intro W y hW hs hy h
      exact attribute?_compute_of_none hs (hW ▸ ht.fits y hy) (hp y hy) h
  | _ => exact h

theorem pristine_updateWith_new {t : Template} (ht : t.Sound) (data : Json) :
    (updateWith c upd (new t) data).Pristine t :=
  (pristine_new t).updateWith ht (shaped_new t) data

/-- The text of an anchor stays empty. -/
theorem text?_updateWith_anchor {t : Template} (ht : t.Sound) {q : Slot}
    (hs : t.seeds[s]? = some (.anchor q)) (data : Json) :
    (updateWith c upd (new t) data).text? s = some "" := by
  have hagree : (updateWith c upd (new t) data).Agree (new t) (.text s) := by
    refine (pristine_updateWith_new ht data).agree _ fun y hy hcell => ?_
    obtain ⟨_, _, htext⟩ := hasText_of_mem_cells (ht.fits y hy) hcell
    cases hs.symm.trans htext
  exact Eq.trans hagree (text?_new_anchor hs)

end View

/-! ## Computations of attributes -/

namespace Draft

variable {tag : String} {svg : Bool} {s : Slot} {a : Attribute} {ps : Interpolation} {bare : Bool}

theorem setter_of_direct (h : a.isDirect tag svg = true) :
    setter tag svg s a.name ps = .setProperty s a.name ps := by
  unfold Attribute.isDirect at h
  rw [setter, if_pos h]

theorem setter_of_not_direct (h : a.isDirect tag svg = false) : setter tag svg s a.name ps =
    .setAttribute s (attributeName a.name).1 (attributeName a.name).2 ps := by
  unfold Attribute.isDirect at h
  rw [setter, h]
  rfl

theorem puts_attributeSetter {key : Option String × String} {q : Slot} {name : String}
    (h : (attributeSetter tag svg s name bare ps).Puts q key) :
    (!svg && Vocabulary.isProperty tag name) = false ∧ attributeName name = key := by
  have hsetter : (setter tag svg s name ps).Puts q key →
      (!svg && Vocabulary.isProperty tag name) = false ∧ attributeName name = key := by
    intro h
    unfold setter at h
    split at h
    · cases h
    · rename_i hdirect
      exact ⟨Bool.eq_false_iff.mpr hdirect, h.2⟩
  rw [attributeSetter_eq] at h
  split at h
  · split at h <;> exact hsetter h
  · exact hsetter h

/-- Over literal text an attribute is set whatever the data. -/
theorem attributeSetter_of_literal {name : String} :
    attributeSetter tag svg s name false ps = setter tag svg s name ps := by
  rw [attributeSetter_eq]
  cases ps.single? <;> rfl

theorem cells_setter_subset {name : String} :
    (setter tag svg s name ps).cells ⊆ (attributeSetter tag svg s name bare ps).cells := by
  rw [attributeSetter_eq]
  split
  · split
    · exact fun cell hcell => List.mem_cons_of_mem _ (List.mem_append_right _ hcell)
    · exact List.Subset.refl _
  · exact List.Subset.refl _

end Draft

/-! ## What the first update shows -/

namespace View

variable {c : Catalog} {o : Origin} {upd : View → Json → View} {d : Draft} {name : String}
  {s : Slot} {data : Json} (hc : c.Built o) (hm : d.finish name ∈ c.templates) (hd : d.Sound)
  (hdata : data.isPlain = true)
include hc hm hd hdata

theorem text?_updateWith_new {raw : String}
    (hseed : d.seeds[s]? = some (.text s (literalText (tidy raw))))
    (hx : Draft.TextComputes d.index.Binds s raw (d.computationsAt s)) :
    (updateWith c upd (new (d.finish name)) data).text? s =
      some (Segment.filled data (segmentsOf raw)) := by
  obtain ⟨ss, hread, ⟨hfixed, hnone⟩ | ⟨_, ps, hi, hx⟩⟩ := hx
  · have hcell : ∀ y ∈ (d.finish name).computations, .text s ∉ y.cells := by
      intro y hy hcell
      have hslot : y.slot = s := hc.cell_of hm hy hcell
      have hmem : y ∈ d.computationsAt s := List.mem_filter.mpr ⟨hy, by simp [hslot]⟩
      rw [hnone] at hmem
      cases hmem
    have hagree : (updateWith c upd (new (d.finish name)) data).Agree
        (new (d.finish name)) (.text s) :=
      (pristine_updateWith_new (hd.template name) data).agree _ hcell
    have hnew : (new (d.finish name)).text? s = some (literalText (tidy raw)) := text?_new hseed
    rw [segmentsOf_eq hread, Eq.trans hagree hnew, literalText_eq hread, Segment.filled,
      Segment.fill_eq_of_fixed hfixed]
  · have hmem : .setText s ps ∈ d.index.computations := by
      have : .setText s ps ∈ d.computationsAt s := by simp [hx]
      exact (List.mem_filter.mp this).1
    have hsteady := hc.steady_text hm hmem
    have hdone : (updateWith c upd (new (d.finish name)) data).Done (.setText s ps) := by
      cases data with
      | obj fields =>
        exact done_takeFields hc.sound (V := new (d.finish name)) hm (hd.routed name) (shaped_new _)
          hmem hsteady.alone (.inl hsteady.new)
      | _ => exact hsteady.new
    rw [Done, shown_updateWith_new hd hdata hi] at hdone
    rw [hdone, segmentsOf_eq hread]

end View

/-! ## Attributes and properties -/

theorem Builder.nodup_plain {as : List Attribute} (h : (as.map (·.name)).Nodup) :
    ((plain as).map (·.name)).Nodup :=
  h.sublist (List.filter_sublist.map _)

/-- An element of a draft: its seed, what its attributes ask for, and no name twice. -/
structure Draft.Furnished (d : Draft) (s : Slot) (tag : String) (svg : Bool) (as : List Attribute) :
    Prop where
  seed : d.seeds[s]? = some (.element s tag svg)
  furnishes : Draft.Furnishes d.index.Binds tag svg s as (d.attrsAt s) (d.computationsAt s)
  names : (as.map (·.name)).Nodup

namespace Draft.Furnished

variable {d : Draft} {name : String} {s : Slot} {tag : String} {svg : Bool} {as : List Attribute}
  {a : Attribute} {key : Option String × String}

theorem eq_of_name (h : d.Furnished s tag svg as) {a' : Attribute} (ha : a ∈ as) (ha' : a' ∈ as)
    (hname : a'.name = a.name) : a' = a :=
  List.inj_on_of_nodup_map h.names ha' ha hname

theorem readAll (h : d.Furnished s tag svg as) (ha : a ∈ as) :
    Segment.readAll (tidy a.value) = .ok (segmentsOf a.value) := by
  obtain ⟨ss, hss⟩ := h.furnishes.exists_read ha
  rw [segmentsOf_eq hss]
  exact hss

theorem literalText (h : d.Furnished s tag svg as) (ha : a ∈ as) :
    Binding.literalText (tidy a.value) = Segment.fill (fun _ => "") (segmentsOf a.value) :=
  literalText_eq (h.readAll ha)

theorem blank_not_mem (h : d.Furnished s tag svg as) (ha : a ∈ as) :
    .literal "" ∉ segmentsOf a.value :=
  Segment.blank_not_mem_ofPieces (h.readAll ha) (Piece.literal_nil_not_mem_cut _)

theorem isWired_iff (h : d.Furnished s tag svg as) (ha : a ∈ as) : a.IsWired ↔
    Binding.literalText (tidy a.value) ≠ "" ∨
      (segmentsOf a.value).any Segment.isReference = false := by
  refine or_congr_right ⟨?_, fun hf => ⟨_, h.readAll ha, hf⟩⟩
  rintro ⟨ss, hss, hf⟩
  rwa [segmentsOf_eq hss]

theorem attribute?_new (h : d.Furnished s tag svg as) (ha : a ∈ as) (hw : a.IsWired) :
    (View.new (d.finish name)).attribute? s (attributeName a.name) =
      some (Binding.literalText (tidy a.value)) := by
  rw [View.attribute?, View.element?_new (t := d.finish name) h.seed, Option.bind_some]
  exact h.furnishes.attribute?_of_wired h.names ha hw _

theorem attribute?_new_of_none (h : d.Furnished s tag svg as)
    (hkey : ∀ a ∈ as, a.IsWired → attributeName a.name ≠ key) :
    (View.new (d.finish name)).attribute? s key = none := by
  rw [View.attribute?, View.element?_new (t := d.finish name) h.seed, Option.bind_some]
  exact h.furnishes.attribute?_of_not_wired hkey _

/-- An attribute that refers to data begins with its literal text. -/
theorem attribute?_new_of_bound (h : d.Furnished s tag svg as) (ha : a ∈ as)
    (hb : (segmentsOf a.value).any Segment.isReference = true) :
    (View.new (d.finish name)).attribute? s (attributeName a.name) =
      if Segment.fill (fun _ => "") (segmentsOf a.value) = "" then none
      else some (Segment.fill (fun _ => "") (segmentsOf a.value)) := by
  rw [← h.literalText ha]
  split
  · rename_i hblank
    refine h.attribute?_new_of_none fun a' ha' hw hname => ?_
    cases h.eq_of_name ha ha' (attributeName_inj hname)
    rcases (h.isWired_iff ha).mp hw with hl | hfixed
    · exact hl hblank
    · cases hb.symm.trans hfixed
  · exact h.attribute?_new ha (.inl ‹_›)

theorem property?_new (h : d.Furnished s tag svg as) (p : String) :
    (View.new (d.finish name)).property? s p = none := by
  rw [View.property?, View.element?_new (t := d.finish name) h.seed, Option.bind_some,
    Element.property?_wired]
  rfl

/-- What computes the attribute. -/
theorem exists_setter (h : d.Furnished s tag svg as) (ha : a ∈ as)
    (hb : (segmentsOf a.value).any Segment.isReference = true) :
    ∃ ps, Interprets d.index.Binds (segmentsOf a.value) ps ∧ attributeSetter tag svg s a.name
      (Binding.literalText (tidy a.value) == "") ps ∈ d.computationsAt s :=
  h.furnishes.exists_computation ha (h.readAll ha) hb

/-- What writes to the element comes from one of its attributes. -/
theorem exists_attribute (h : d.Furnished s tag svg as) {y : Computation}
    (hy : y ∈ d.index.computations) (hs : y.slot = s) :
    ∃ a ∈ as, (segmentsOf a.value).any Segment.isReference = true ∧
      ∃ ps, y = attributeSetter tag svg s a.name (Binding.literalText (tidy a.value) == "") ps := by
  obtain ⟨a, ha, ss, ps, hread, hb, _, rfl⟩ :=
    h.furnishes.computation y (List.mem_filter.mpr ⟨hy, by simp [hs]⟩)
  exact ⟨a, ha, by rw [segmentsOf_eq hread]; exact hb, ps, rfl⟩

end Draft.Furnished

namespace View

variable {c : Catalog} {o : Origin} {upd : View → Json → View} {d : Draft} {name : String}
  {s : Slot} {tag : String} {svg : Bool} {as : List Attribute} {a : Attribute} {data : Json}
  (hc : c.Built o) (hm : d.finish name ∈ c.templates) (hd : d.Sound)
  (hf : d.Furnished s tag svg as)

section

variable {V : View} (hV : V.Pristine (d.finish name))
include hc hm hf hV

/-- An attribute is as at first if none of that name refers to data, or one that is a
property does so next to literal text. -/
theorem attribute?_of_fixed {key : Option String × String}
    (hkey : ∀ a ∈ as, (segmentsOf a.value).any Segment.isReference = true →
      Draft.attributeName a.name = key →
        a.isDirect tag svg = true ∧ literalText (tidy a.value) ≠ "") :
    V.attribute? s key = (new (d.finish name)).attribute? s key := by
  suffices hcell : ∀ y ∈ (d.finish name).computations, .attr s key ∉ y.cells from
    hV.agree _ hcell
  intro y hy hcell
  obtain ⟨a, ha, hb, ps, rfl⟩ := hf.exists_attribute hy (hc.cell_of hm hy hcell)
  rcases Draft.mem_cells_attributeSetter hcell with he | ⟨_, he⟩
  · obtain ⟨hdirect, hliteral⟩ := hkey a ha hb (Cell.attr.inj he).2.symm
    rw [beq_eq_false_iff_ne.mpr hliteral, Draft.attributeSetter_of_literal,
      Draft.setter_of_direct hdirect] at hcell
    cases List.mem_singleton.mp hcell
  · cases he

/-- There is no property unless an attribute of that name refers to data and is one. -/
theorem property?_of_fixed {p : String}
    (hp : ∀ a ∈ as, (segmentsOf a.value).any Segment.isReference = true →
      a.isDirect tag svg = true → a.name ≠ p) : V.property? s p = none := by
  suffices hcell : ∀ y ∈ (d.finish name).computations, .property s p ∉ y.cells from
    Eq.trans (hV.agree _ hcell) (hf.property?_new p)
  intro y hy hcell
  obtain ⟨a, ha, hb, ps, rfl⟩ := hf.exists_attribute hy (hc.cell_of hm hy hcell)
  rcases Draft.mem_cells_attributeSetter hcell with he | ⟨hdirect, he⟩
  · cases he
  · exact hp a ha hb hdirect (Cell.property.inj he).2.symm

/-- An attribute that is a property is as at first. -/
theorem attribute?_of_direct (ha : a ∈ as)
    (hb : (segmentsOf a.value).any Segment.isReference = true)
    (hdirect : a.isDirect tag svg = true) : V.attribute? s (Draft.attributeName a.name) =
      (new (d.finish name)).attribute? s (Draft.attributeName a.name) := by
  have heq : ∀ a' ∈ as, Draft.attributeName a'.name = Draft.attributeName a.name → a' = a :=
    fun a' ha' hname => hf.eq_of_name ha ha' (Draft.attributeName_inj hname)
  by_cases hblank : literalText (tidy a.value) = ""
  · have hnew : (new (d.finish name)).attribute? s (Draft.attributeName a.name) = none := by
      rw [hf.attribute?_new_of_bound ha hb, ← hf.literalText ha, if_pos hblank]
    rw [hnew]
    refine hV.absent s _ (fun y hy hput => ?_) hnew
    obtain ⟨a', ha', _, ps, rfl⟩ := hf.exists_attribute hy (hc.cell_of hm hy hput.mem_cells)
    obtain ⟨hnot, hname⟩ := Draft.puts_attributeSetter hput
    cases heq a' ha' hname
    cases hdirect.symm.trans hnot
  · refine attribute?_of_fixed hc hm hf hV fun a' ha' _ hname => ?_
    cases heq a' ha' hname
    exact ⟨hdirect, hblank⟩

end

include hc hm hd hf

variable (ha : a ∈ as)
include ha

variable (hdata : data.isPlain = true)
include hdata

variable (upd) in
/-- What the data reaches is computed. -/
theorem exists_done (hr : Segment.isReached data (segmentsOf a.value) = true) :
    ∃ ps, Interprets d.index.Binds (segmentsOf a.value) ps ∧
      (updateWith c upd (new (d.finish name)) data).Done
        (Draft.attributeSetter tag svg s a.name (literalText (tidy a.value) == "") ps) := by
  obtain ⟨ps, hi, hx⟩ := hf.exists_setter ha (Segment.any_of_isReached hr)
  have hal := hc.alone_attribute hm hf.furnishes hf.names hx
  exact ⟨ps, hi, done_updateWith_new hd hi (Draft.mem_vars_attributeSetter _ _ _ _ _ _) hal hdata
    hc.sound hm (List.mem_filter.mp hx).1 hr⟩

/-- What the data does not reach is as at first. -/
theorem agree_of_not_reached (hb : (segmentsOf a.value).any Segment.isReference = true)
    (hr : Segment.isReached data (segmentsOf a.value) = false) {cell : Cell}
    (hcell : ∀ ps, cell ∈ (Draft.setter tag svg s a.name ps).cells) :
    (updateWith c upd (new (d.finish name)) data).Agree (new (d.finish name)) cell := by
  obtain ⟨ps, hi, hx⟩ := hf.exists_setter ha hb
  have hal := hc.alone_attribute hm hf.furnishes hf.names hx
  exact agree_updateWith_new hd hi (Draft.mem_vars_attributeSetter _ _ _ _ _ _) hal hdata hr
    (Draft.cells_setter_subset (hcell ps))

variable (upd) in
/-- Text with a reference in it is set. -/
theorem exists_done_of_mixed (hr : Segment.isReached data (segmentsOf a.value) = true)
    (hlone : Segment.lone? (segmentsOf a.value) = none) :
    ∃ ps, (updateWith c upd (new (d.finish name)) data).Done (Draft.setter tag svg s a.name ps) ∧
      ps.single? = none ∧ ps.shown (updateWith c upd (new (d.finish name)) data).values =
        Segment.filled data (segmentsOf a.value) := by
  obtain ⟨ps, hi, hdone⟩ := exists_done upd hc hm hd hf ha hdata hr
  rcases hi.single?_eq (hf.blank_not_mem ha) with ⟨hs, _⟩ | ⟨p, v, _, hp, _⟩
  · rw [Draft.attributeSetter_eq, hs] at hdone
    exact ⟨ps, hdone, hs, shown_updateWith_new hd hdata hi⟩
  · cases hp.symm.trans hlone

variable (upd) in
/-- A reference alone is set unless the data is false. -/
theorem exists_done_of_lone (hr : Segment.isReached data (segmentsOf a.value) = true) {p : Path}
    (hlone : Segment.lone? (segmentsOf a.value) = some p) :
    ∃ ps v, (updateWith c upd (new (d.finish name)) data).Done
        (.unlessFalse s a.name v (Draft.setter tag svg s a.name ps)) ∧
      ps.single? = some v ∧
      (updateWith c upd (new (d.finish name)) data).value v = data.follow p.segments ∧
      ps.shown (updateWith c upd (new (d.finish name)) data).values =
        Segment.filled data (segmentsOf a.value) := by
  obtain ⟨ps, hi, hdone⟩ := exists_done upd hc hm hd hf ha hdata hr
  rcases hi.single?_eq (hf.blank_not_mem ha) with ⟨_, hnone⟩ | ⟨p', v, hs, hp', hv⟩
  · cases hnone.symm.trans hlone
  · cases hp'.symm.trans hlone
    have hss := Segment.eq_of_lone? hlone
    have hliteral : literalText (tidy a.value) = "" := by
      rw [hf.literalText ha, hss]
      rfl
    rw [hliteral, Draft.attributeSetter_eq, hs] at hdone
    refine ⟨ps, v, hdone, hs, ?_, shown_updateWith_new hd hdata hi⟩
    rw [hss] at hr
    rw [value_updateWith_new hd hv hdata, if_pos]
    simpa [Segment.isReached, Index.paths] using hr

/-- An attribute that is set comes to what is rendered for it. -/
theorem attribute?_of_reached (hr : Segment.isReached data (segmentsOf a.value) = true)
    (hdirect : a.isDirect tag svg = false) :
    (updateWith c upd (new (d.finish name)) data).attribute? s (Draft.attributeName a.name) =
      a.rendered tag svg data := by
  rw [Attribute.rendered_of_set hdirect hr]
  cases hlone : Segment.lone? (segmentsOf a.value) with
  | none =>
    obtain ⟨ps, hdone, _, hshown⟩ := exists_done_of_mixed upd hc hm hd hf ha hdata hr hlone
    rw [Draft.setter_of_not_direct hdirect, Done, hshown] at hdone
    exact hdone
  | some p =>
    obtain ⟨ps, v, hdone, _, hv, hshown⟩ :=
      exists_done_of_lone upd hc hm hd hf ha hdata hr hlone
    rw [Done, hv] at hdone
    change _ = if (data.follow p.segments).isFalse = true then none else _
    split
    · rw [if_pos ‹_›] at hdone
      exact hdone.1
    · rw [if_neg ‹_›, Draft.setter_of_not_direct hdirect, Done, hshown] at hdone
      exact hdone

theorem property?_of_reached (hr : Segment.isReached data (segmentsOf a.value) = true)
    (hdirect : a.isDirect tag svg = true) :
    (updateWith c upd (new (d.finish name)) data).property? s a.name =
      a.property tag svg data := by
  rw [Attribute.property_of_set hdirect hr]
  cases hlone : Segment.lone? (segmentsOf a.value) with
  | none =>
    obtain ⟨ps, hdone, hs, hshown⟩ := exists_done_of_mixed upd hc hm hd hf ha hdata hr hlone
    rw [Draft.setter_of_direct hdirect, Done, propertyValue, hs] at hdone
    exact hshown ▸ hdone
  | some p =>
    obtain ⟨ps, v, hdone, hs, hv, _⟩ :=
      exists_done_of_lone upd hc hm hd hf ha hdata hr hlone
    rw [Done, hv, Draft.setter_of_direct hdirect] at hdone
    change _ = if (data.follow p.segments).isFalse = true then none else _
    split
    · rw [if_pos ‹_›] at hdone
      exact hdone.2 a.name rfl
    · rw [if_neg ‹_›, Done, propertyValue, hs] at hdone
      exact hv ▸ hdone

/-! ## Comparison with direct rendering -/

theorem attribute?_eq_rendered :
    (updateWith c upd (new (d.finish name)) data).attribute? s (Draft.attributeName a.name) =
      a.rendered tag svg data := by
  have hpristine : (updateWith c upd (new (d.finish name)) data).Pristine (d.finish name) :=
    pristine_updateWith_new (hd.template name) data
  cases hb : (segmentsOf a.value).any Segment.isReference with
  | false =>
    have hfixed : (updateWith c upd (new (d.finish name)) data).attribute? s
        (Draft.attributeName a.name) =
          (new (d.finish name)).attribute? s (Draft.attributeName a.name) := by
      refine attribute?_of_fixed hc hm hf hpristine fun a' ha' hb' hname => ?_
      cases hf.eq_of_name ha ha' (Draft.attributeName_inj hname)
      cases hb.symm.trans hb'
    rw [hfixed, hf.attribute?_new ha ((hf.isWired_iff ha).mpr (.inr hb)), hf.literalText ha,
      Segment.fill_eq_of_readAll (hf.readAll ha) hb, Attribute.rendered_of_fixed hb]
  | true =>
    cases hdirect : a.isDirect tag svg with
    | true =>
      rw [Attribute.rendered_of_unset hb (.inl hdirect)]
      exact (attribute?_of_direct hc hm hf hpristine ha hb hdirect).trans
        (hf.attribute?_new_of_bound ha hb)
    | false =>
      cases hr : Segment.isReached data (segmentsOf a.value) with
      | true => exact attribute?_of_reached hc hm hd hf ha hdata hr hdirect
      | false =>
        have hagree : (updateWith c upd (new (d.finish name)) data).Agree (new (d.finish name))
            (.attr s (Draft.attributeName a.name)) := by
          refine agree_of_not_reached hc hm hd hf ha hdata hb hr fun ps => ?_
          rw [Draft.setter_of_not_direct hdirect]
          exact List.mem_singleton_self _
        rw [Attribute.rendered_of_unset hb (.inr hr)]
        exact Eq.trans hagree (hf.attribute?_new_of_bound ha hb)

theorem property?_eq_property :
    (updateWith c upd (new (d.finish name)) data).property? s a.name = a.property tag svg data := by
  have hpristine : (updateWith c upd (new (d.finish name)) data).Pristine (d.finish name) :=
    pristine_updateWith_new (hd.template name) data
  cases hdirect : a.isDirect tag svg with
  | false =>
    rw [Attribute.property_of_unset (.inl hdirect)]
    refine property?_of_fixed hc hm hf hpristine fun a' ha' _ hdirect' hname => ?_
    cases hf.eq_of_name ha ha' hname
    cases hdirect.symm.trans hdirect'
  | true =>
    cases hr : Segment.isReached data (segmentsOf a.value) with
    | true => exact property?_of_reached hc hm hd hf ha hdata hr hdirect
    | false =>
      rw [Attribute.property_of_unset (.inr hr)]
      cases hb : (segmentsOf a.value).any Segment.isReference with
      | false =>
        refine property?_of_fixed hc hm hf hpristine fun a' ha' hb' _ hname => ?_
        cases hf.eq_of_name ha ha' hname
        cases hb.symm.trans hb'
      | true =>
        have hagree : (updateWith c upd (new (d.finish name)) data).Agree (new (d.finish name))
            (.property s a.name) := by
          refine agree_of_not_reached hc hm hd hf ha hdata hb hr fun ps => ?_
          rw [Draft.setter_of_direct hdirect]
          exact List.mem_singleton_self _
        exact Eq.trans hagree (hf.property?_new a.name)

omit ha

variable (upd) in
theorem attribute?_updateWith_new (key : Option String × String) :
    (updateWith c upd (new (d.finish name)) data).attribute? s key =
      attributesFor tag svg as data key := by
  unfold attributesFor
  cases hfind : as.find? fun a => Draft.attributeName a.name == key with
  | none =>
    have hkey : ∀ a ∈ as, Draft.attributeName a.name ≠ key := by
      simpa using List.find?_eq_none.mp hfind
    have hfixed : (updateWith c upd (new (d.finish name)) data).attribute? s key =
        (new (d.finish name)).attribute? s key :=
      attribute?_of_fixed hc hm hf (pristine_updateWith_new (hd.template name) data)
        fun a ha _ hname => absurd hname (hkey a ha)
    rw [hfixed]
    exact hf.attribute?_new_of_none fun a ha _ => hkey a ha
  | some a =>
    have hname : Draft.attributeName a.name = key := by simpa using List.find?_some hfind
    rw [← hname]
    exact attribute?_eq_rendered hc hm hd hf (List.mem_of_find?_eq_some hfind) hdata

variable (upd) in
theorem property?_updateWith_new (p : String) :
    (updateWith c upd (new (d.finish name)) data).property? s p =
      propertiesFor tag svg as data p := by
  unfold propertiesFor
  cases hfind : as.find? fun a => a.name == p with
  | none =>
    have hname : ∀ a ∈ as, a.name ≠ p := by simpa using List.find?_eq_none.mp hfind
    exact property?_of_fixed hc hm hf (pristine_updateWith_new (hd.template name) data)
      fun a ha _ _ => hname a ha
  | some a =>
    have hname : a.name = p := by simpa using List.find?_some hfind
    rw [← hname]
    exact property?_eq_property hc hm hd hf (List.mem_of_find?_eq_some hfind) hdata

end View
end Stencil

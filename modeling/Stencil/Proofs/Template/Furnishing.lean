import Stencil.Proofs.Binding.Filling
import Stencil.Proofs.Instance.Freshness
import Stencil.Proofs.Template.Building

/-! What the slots of a compiled template hold. Texts and groups are written by one
computation each, and so are the attributes of an element, unless two of them have the
same name. A new view shows the literal texts, which is what the computations would write
while all variables are empty. -/
namespace Stencil
open Binding Document Markup

/-- The cell belongs to the slot or the group of which the computation speaks. -/
def Cell.Of (y : Computation) : Cell → Prop
  | .text s => y.slot = s
  | .attr s _ => y.slot = s
  | .property s _ => y.slot = s
  | .group g => ∃ dir name s v, y = .reconcile dir name s v g

namespace Draft

theorem attributeName_inj {name name' : String} (h : attributeName name = attributeName name') :
    name = name' := by
  unfold attributeName at h
  split at h <;> split at h
  · rename_i hn hn'
    exact hn.trans hn'.symm
  · cases h
  · cases h
  · exact (Prod.ext_iff.mp h).2

/-- What gives an attribute its value, if nothing forbids it. -/
def setter (tag : String) (svg : Bool) (s : Slot) (name : String) (value : Interpolation) :
    Computation :=
  if !svg && Vocabulary.isProperty tag name then .setProperty s name value
  else .setAttribute s (attributeName name).1 (attributeName name).2 value

theorem attributeSetter_eq (tag : String) (svg : Bool) (s : Slot) (name : String) (bare : Bool)
    (value : Interpolation) : attributeSetter tag svg s name bare value =
      match value.single? with
      | some v =>
        if bare then .unlessFalse s name v (setter tag svg s name value)
        else setter tag svg s name value
      | none => setter tag svg s name value := rfl

/-- The computation of an attribute writes to the attribute, or to the property. -/
theorem mem_cells_attributeSetter {tag : String} {svg : Bool} {s : Slot} {name : String}
    {bare : Bool} {value : Interpolation} {cell : Cell}
    (h : cell ∈ (attributeSetter tag svg s name bare value).cells) :
    cell = .attr s (attributeName name) ∨
      (!svg && Vocabulary.isProperty tag name) = true ∧ cell = .property s name := by
  have hsetter : ∀ {cell}, cell ∈ (setter tag svg s name value).cells →
      cell = .attr s (attributeName name) ∨
        (!svg && Vocabulary.isProperty tag name) = true ∧ cell = .property s name := by
    intro cell h
    unfold setter at h
    split at h
    · exact .inr ⟨‹_›, List.mem_singleton.mp h⟩
    · exact .inl (List.mem_singleton.mp h)
  rw [attributeSetter_eq] at h
  split at h
  · split at h
    · rw [Computation.cells, List.mem_cons, List.mem_append] at h
      rcases h with rfl | h | h
      · exact .inl rfl
      · unfold setter at h
        split at h
        · simp only [Computation.property?, Option.toList_some, List.map_cons, List.map_nil,
            List.mem_singleton] at h
          exact .inr ⟨‹_›, h⟩
        · cases h
      · exact hsetter h
    · exact hsetter h
  · exact hsetter h

variable {B : Path → Var → Prop} {tag : String} {svg : Bool} {s : Slot} {as : List Attribute}
  {ws : List Wire} {xs : List Computation}

/-- Attributes of different names are written by different computations. -/
theorem Furnishes.alone (h : Furnishes B tag svg s as ws xs) (hn : (as.map (·.name)).Nodup) :
    ∀ x ∈ xs, ∀ y ∈ xs, y = x ∨ ∀ cell ∈ x.cells, cell ∉ y.cells := by
  induction h with
  | nil => exact fun x hx => nomatch hx
  | fixed _ _ _ ih => exact ih (List.nodup_cons.mp hn).2
  | @bound a as ws xs ss ps _ _ _ rest ih =>
    have hn := List.nodup_cons.mp hn
    have hapart : ∀ y ∈ xs, ∀ cell,
        cell ∈ (attributeSetter tag svg s a.name (literalText (tidy a.value) == "") ps).cells →
        cell ∉ y.cells := by
      intro y hy cell hcell hcy
      obtain ⟨a', ha', _, _, _, _, _, rfl⟩ := rest.computation y hy
      have hne : a.name ≠ a'.name := fun he => hn.1 (List.mem_map.mpr ⟨a', ha', he.symm⟩)
      rcases mem_cells_attributeSetter hcell with rfl | ⟨_, rfl⟩ <;>
        rcases mem_cells_attributeSetter hcy with h | ⟨_, h⟩
      · exact hne (attributeName_inj (Cell.attr.inj h).2)
      · cases h
      · cases h
      · exact hne (Cell.property.inj h).2
    intro x hx y hy
    rcases List.mem_cons.mp hx with rfl | hx <;> rcases List.mem_cons.mp hy with rfl | hy
    · exact .inl rfl
    · exact .inr (hapart y hy)
    · exact .inr fun cell hcx hcy => hapart x hx cell hcy hcx
    · exact ih hn.2 x hx y hy

theorem Furnishes.exists_read (h : Furnishes B tag svg s as ws xs) {a : Attribute} (ha : a ∈ as) :
    ∃ ss, Segment.readAll (tidy a.value) = .ok ss := by
  induction h with
  | nil => cases ha
  | fixed hr _ _ ih | bound hr _ _ _ ih =>
    rcases List.mem_cons.mp ha with rfl | ha
    · exact ⟨_, hr⟩
    · exact ih ha

/-- Every attribute that refers to data has its computation. -/
theorem Furnishes.exists_computation (h : Furnishes B tag svg s as ws xs) {a : Attribute}
    (ha : a ∈ as) {ss : List Segment} (hr : Segment.readAll (tidy a.value) = .ok ss)
    (hb : ss.any Segment.isReference = true) :
    ∃ ps, Interprets B ss ps ∧
      attributeSetter tag svg s a.name (literalText (tidy a.value) == "") ps ∈ xs := by
  induction h with
  | nil => cases ha
  | fixed hr' hf _ ih =>
    rcases List.mem_cons.mp ha with rfl | ha
    · cases hr.symm.trans hr'
      rw [hf] at hb
      cases hb
    · exact ih ha
  | bound hr' _ hv _ ih =>
    rcases List.mem_cons.mp ha with rfl | ha
    · cases hr.symm.trans hr'
      exact ⟨_, hv, List.mem_cons_self⟩
    · obtain ⟨ps, hi, hm⟩ := ih ha
      exact ⟨ps, hi, List.mem_cons_of_mem _ hm⟩

/-! ## Computations and their slots -/

variable {o : Origin} {ts : List Template} {d : Draft} {x y : Computation}

theorem Ready.explained_slot (h : d.Ready o ts) (hy : y ∈ d.index.computations) :
    d.Explained o.element y.slot ∧ y ∈ d.computationsAt y.slot :=
  ⟨h.explained _ (slot_lt_of_fits ((h.sound.template "").fits y hy)),
    List.mem_filter.mpr ⟨hy, by simp⟩⟩

theorem Ready.cell_of (h : d.Ready o ts) (hy : y ∈ d.index.computations) {cell : Cell}
    (hcell : cell ∈ y.cells) : cell.Of y := by
  obtain ⟨hex, hm⟩ := h.explained_slot hy
  cases hex with
  | text _ _ computes =>
    obtain ⟨_, _, ⟨_, hx⟩ | ⟨_, ps, _, hx⟩⟩ := computes <;> rw [hx] at hm
    · cases hm
    · rw [List.mem_singleton.mp hm] at hcell ⊢
      rw [List.mem_singleton.mp hcell]
      exact rfl
  | element _ _ furnishes =>
    obtain ⟨_, _, _, _, _, _, _, he⟩ := furnishes.computation y hm
    rw [he] at hcell
    rcases mem_cells_attributeSetter hcell with rfl | ⟨_, rfl⟩ <;> exact rfl
  | anchor _ _ computes =>
    rw [computes] at hm
    rw [List.mem_singleton.mp hm] at hcell ⊢
    rw [List.mem_singleton.mp hcell]
    exact ⟨_, _, _, _, rfl⟩

theorem Ready.alone_text (h : d.Ready o ts) {s : Slot} {value : Interpolation}
    (hx : .setText s value ∈ d.index.computations) (name : String) :
    (d.finish name).Alone (.setText s value) := by
  intro y hy
  by_cases hys : y.slot = s
  · left
    obtain ⟨hex, hmy⟩ := h.explained_slot hy
    have hmx := (h.explained_slot hx).2
    obtain ⟨_, _, hseed⟩ := ((h.sound.template name).fits _ hx).1
    rw [hys] at hex hmy
    rw [Computation.slot] at hmx
    cases hex with
    | text _ _ computes =>
      obtain ⟨_, _, ⟨_, hc⟩ | ⟨_, ps, _, hc⟩⟩ := computes <;> rw [hc] at hmx hmy
      · cases hmx
      · rw [List.mem_singleton.mp hmx, List.mem_singleton.mp hmy]
    | element _ seed => cases seed.symm.trans hseed
    | anchor seed => cases seed.symm.trans hseed
  · right
    intro cell hcell hcy
    rw [List.mem_singleton.mp hcell] at hcy
    exact hys (h.cell_of hy hcy)

theorem Ready.alone_group (h : d.Ready o ts) {dir : Directive} {nested : String} {s : Slot}
    {v : Var} {g : Group} (hx : .reconcile dir nested s v g ∈ d.index.computations)
    (name : String) :
    (d.finish name).Alone (.reconcile dir nested s v g) := by
  intro y hy
  by_cases hg : .group g ∈ y.cells
  · have ht := h.sound.template name
    obtain ⟨dir', nested', s', v', rfl⟩ := View.group_of_mem_cells (ht.fits y hy) hg
    exact .inl (ht.eq_of_group hx hy)
  · right
    intro cell hcell
    rwa [List.mem_singleton.mp hcell]

theorem Ready.alone_attribute (h : d.Ready o ts)
    (hf : Furnishes B tag svg s as ws (d.computationsAt s)) (hn : (as.map (·.name)).Nodup)
    (hx : x ∈ d.computationsAt s) (name : String) : (d.finish name).Alone x := by
  intro y hy
  by_cases hys : y.slot = s
  · exact hf.alone hn x hx y (hys ▸ (h.explained_slot hy).2)
  · right
    intro cell hcell hcy
    obtain ⟨_, _, _, _, _, _, _, rfl⟩ := hf.computation x hx
    have hof := h.cell_of hy hcy
    rcases mem_cells_attributeSetter hcell with rfl | ⟨_, rfl⟩ <;> exact hys hof

theorem Sound.routed (h : d.Sound) (name : String) : (d.finish name).Routed where
  mem_computations r hr k x hx := by
    obtain ⟨p, hat⟩ := h.coherent.exists_path hr
    rw [hat.mem_computations]
    constructor
    · rintro ⟨a, ha, v, hv, us, hus⟩
      cases ha.symm.trans hx
      exact ⟨(v, us), (hat.mem_bindings v us).mpr hus, hv⟩
    · rintro ⟨b, hb, hv⟩
      exact ⟨x, hx, b.1, hv, b.2, (hat.mem_bindings b.1 b.2).mp hb⟩

end Draft

/-! ## New views -/

/-- An element with the attributes that wires give it. -/
def Document.Element.wired (ws : List Wire) (e : Element) : Element :=
  ws.foldl (fun e w => match w with
    | .attr _ space name value => e.putAttribute (space, name) value
    | .append .. => e) e

namespace Document.Element

theorem wired_cons (q : Slot) (space : Option String) (name value : String) (ws : List Wire)
    (e : Element) : e.wired (.attr q space name value :: ws) =
      (e.putAttribute (space, name) value).wired ws := rfl

theorem property?_wired (name : String) (ws : List Wire) (e : Element) :
    (e.wired ws).property? name = e.property? name := by
  induction ws generalizing e with
  | nil => rfl
  | cons w ws ih =>
    cases w with
    | append => exact ih e
    | attr q space nm value => rw [wired_cons, ih, property?_putAttribute]

theorem attribute?_wired {key : Option String × String} {ws : List Wire}
    (h : ∀ q space name value, .attr q space name value ∈ ws → (space, name) ≠ key) (e : Element) :
    (e.wired ws).attribute? key = e.attribute? key := by
  induction ws generalizing e with
  | nil => rfl
  | cons w ws ih =>
    have ih := ih fun q space name value hm => h q space name value (List.mem_cons_of_mem _ hm)
    cases w with
    | append => exact ih e
    | attr q space name value =>
      have hne := h q space name value List.mem_cons_self
      rw [wired_cons, ih, attribute?_putAttribute, if_neg fun he => hne he.symm]

end Document.Element

namespace Draft.Furnishes

variable {B : Path → Var → Prop} {tag : String} {svg : Bool} {s : Slot} {as : List Attribute}
  {ws : List Wire} {xs : List Computation}

theorem attribute?_of_not_wired (h : Furnishes B tag svg s as ws xs) {key : Option String × String}
    (hkey : ∀ a ∈ as, a.IsWired → attributeName a.name ≠ key) (e : Element) :
    (e.wired ws).attribute? key = e.attribute? key := by
  refine Element.attribute?_wired (fun q space name value hm => ?_) e
  obtain ⟨a, ha, he, hw⟩ := h.wire _ hm
  cases he
  exact hkey a ha hw

theorem attribute?_of_wired (h : Furnishes B tag svg s as ws xs) (hn : (as.map (·.name)).Nodup)
    {a : Attribute} (ha : a ∈ as) (hw : a.IsWired) (e : Element) :
    (e.wired ws).attribute? (attributeName a.name) = some (literalText (tidy a.value)) := by
  have hlast : ∀ {a' : Attribute} {as' ws' xs'}, Furnishes B tag svg s as' ws' xs' →
      a'.name ∉ as'.map (·.name) → ∀ e, (Element.wired (attributeWire s a' :: ws') e).attribute?
        (attributeName a'.name) = some (literalText (tidy a'.value)) := by
    intro a' as' ws' xs' hf hna e
    rw [attributeWire, Element.wired_cons, hf.attribute?_of_not_wired,
      Element.attribute?_putAttribute, if_pos rfl]
    intro b hb _ he
    exact hna (List.mem_map.mpr ⟨b, hb, attributeName_inj he⟩)
  induction h generalizing e with
  | nil => cases ha
  | @fixed a' as ws xs ss _ _ rest ih =>
    have hn := List.nodup_cons.mp hn
    rcases List.mem_cons.mp ha with rfl | ha
    · exact hlast rest hn.1 e
    · exact ih hn.2 ha _
  | @bound a' as ws xs ss ps hr hb _ rest ih =>
    have hn := List.nodup_cons.mp hn
    rcases List.mem_cons.mp ha with rfl | ha
    · have hl : literalText (tidy a.value) ≠ "" := by
        refine hw.resolve_right fun ⟨ss', hr', hf⟩ => ?_
        cases hr.symm.trans hr'
        rw [hb] at hf
        cases hf
      rw [if_neg hl]
      exact hlast rest hn.1 e
    · split
      · exact ih hn.2 ha e
      · exact ih hn.2 ha _

end Draft.Furnishes

namespace View

theorem getElem?_wires (ws : List Wire) (ks : List Kind) (s : Slot) : (ws.foldl wire ks)[s]? =
    ks[s]?.map (Kind.onElement (Element.wired (Wire.attrsAt ws s))) := by
  induction ws generalizing ks with
  | nil =>
    cases hk : ks[s]? with
    | none => simp [hk]
    | some k => cases k <;> simp [hk, Kind.onElement, Element.wired, Wire.attrsAt]
  | cons w ws ih =>
    rw [List.foldl_cons, ih]
    cases w with
    | append p q => rfl
    | attr q space name value =>
      rw [wire, List.getElem?_modify]
      by_cases hq : q = s
      · have hfilter : Wire.attrsAt (.attr q space name value :: ws) s =
            .attr q space name value :: Wire.attrsAt ws s := by
          rw [Wire.attrsAt, List.filter_cons_of_pos, Wire.attrsAt]
          simp [Wire.isAttrOf, hq]
        rw [hfilter]
        cases ks[s]? with
        | none => rfl
        | some k => cases k <;> simp [hq, Kind.onElement, Element.wired]
      · have hfilter : Wire.attrsAt (.attr q space name value :: ws) s = Wire.attrsAt ws s := by
          rw [Wire.attrsAt, List.filter_cons_of_neg, Wire.attrsAt]
          simp [Wire.isAttrOf, hq]
        rw [hfilter]
        simp [hq]

theorem text?_new {t : Template} {s q : Slot} {content : String}
    (hs : t.seeds[s]? = some (.text q content)) : (new t).text? s = some content := by
  rw [text?, new, getElem?_wires, List.getElem?_map, hs]
  rfl

theorem text?_new_anchor {t : Template} {s q : Slot} (hs : t.seeds[s]? = some (.anchor q)) :
    (new t).text? s = some "" := by
  rw [text?, new, getElem?_wires, List.getElem?_map, hs]
  rfl

theorem element?_new {t : Template} {s q : Slot} {tag : String} {svg : Bool}
    (hs : t.seeds[s]? = some (.element q tag svg)) :
    (new t).element? s = some (Element.wired (t.attrsAt s)
      { tag := tag, space := if svg then some Vocabulary.svgNamespace else none }) := by
  rw [element?, new, getElem?_wires, List.getElem?_map, hs]
  cases svg <;> rfl

/-- All variables of a new view are empty. -/
theorem shown_value_new (t : Template) (v : Var) :
    ((new t).values[v]?.getD .null).shown = "" := by
  rw [new, List.getElem?_replicate]
  split <;> rfl

theorem shown_new {t : Template} {B : Path → Var → Prop} {text : String} {ss : List Segment}
    {value : Interpolation} (hr : Segment.readAll text = .ok ss) (hi : Interprets B ss value) :
    value.shown (new t).values = literalText text := by
  rw [literalText_eq hr]
  exact hi.shown_eq fun p v _ _ => shown_value_new t v

end View

/-! ## Compiled templates -/

namespace Template

/-- Data at the path goes to the variable. -/
def Binds (t : Template) (p : Path) (v : Var) : Prop :=
  ∃ r ∈ t.routes, r.key = dotted p.segments ∧ (v, []) ∈ r.bindings

def computationsAt (t : Template) (s : Slot) : List Computation :=
  Computation.allAt t.computations s

/-- The slot is one of an element, and is wired and computed as its attributes ask for. -/
structure Carries (t : Template) (s : Slot) (tag : String) (svg : Bool) (as : List Attribute) :
    Prop where
  seed : t.seeds[s]? = some (.element s tag svg)
  furnishes : Draft.Furnishes t.Binds tag svg s as (t.attrsAt s) (t.computationsAt s)

end Template

theorem Draft.Sound.binds {d : Draft} (h : d.Sound) {p : Path} {v : Var} (hv : d.index.Binds p v)
    (name : String) : (d.finish name).Binds p v := by
  have hv' : d.index.trie.var? (p.segments ++ []) = some v := by rwa [List.append_nil]
  obtain ⟨r, hr, hat⟩ := h.coherent.exists_route p.segments_ne_nil hv'
  exact ⟨r, hr, hat.key_eq, (hat.mem_bindings v []).mpr hv'⟩

namespace Catalog.Built

variable {c : Catalog} {o : Origin} {t : Template}

theorem exists_draft (hc : c.Built o) (ht : t ∈ c.templates) :
    ∃ (d : Draft) (ts : List Template), t = d.finish t.name ∧ d.Ready o ts := by
  obtain ⟨k, hk⟩ := List.getElem?_of_mem ht
  obtain ⟨d, hd, hr, _⟩ := hc k t hk
  exact ⟨d, _, hd, hr⟩

theorem routed (hc : c.Built o) (ht : t ∈ c.templates) : t.Routed := by
  obtain ⟨d, _, hd, hr⟩ := hc.exists_draft ht
  rw [hd]
  exact hr.sound.routed _

theorem cell_of (hc : c.Built o) (ht : t ∈ c.templates) {y : Computation}
    (hy : y ∈ t.computations) {cell : Cell} (hcell : cell ∈ y.cells) : cell.Of y := by
  obtain ⟨d, _, hd, hr⟩ := hc.exists_draft ht
  rw [hd] at hy
  exact hr.cell_of hy hcell

theorem alone_text (hc : c.Built o) (ht : t ∈ c.templates) {s : Slot} {value : Interpolation}
    (hx : .setText s value ∈ t.computations) : t.Alone (.setText s value) := by
  obtain ⟨d, _, hd, hr⟩ := hc.exists_draft ht
  rw [hd] at hx ⊢
  exact hr.alone_text hx _

theorem alone_group (hc : c.Built o) (ht : t ∈ c.templates) {dir : Directive} {name : String}
    {s : Slot} {v : Var} {g : Group} (hx : .reconcile dir name s v g ∈ t.computations) :
    t.Alone (.reconcile dir name s v g) := by
  obtain ⟨d, _, hd, hr⟩ := hc.exists_draft ht
  rw [hd] at hx ⊢
  exact hr.alone_group hx _

theorem alone_attribute (hc : c.Built o) (ht : t ∈ c.templates) {B : Path → Var → Prop}
    {tag : String} {svg : Bool} {s : Slot} {as : List Attribute} {ws : List Wire}
    (hf : Draft.Furnishes B tag svg s as ws (t.computationsAt s)) (hn : (as.map (·.name)).Nodup)
    {x : Computation} (hx : x ∈ t.computationsAt s) : t.Alone x := by
  obtain ⟨d, _, hd, hr⟩ := hc.exists_draft ht
  rw [hd] at hf hx ⊢
  exact hr.alone_attribute hf hn hx _

/-- Texts are right from the beginning. -/
theorem steady_text (hc : c.Built o) (ht : t ∈ c.templates) {s : Slot} {value : Interpolation}
    (hx : .setText s value ∈ t.computations) : t.Steady (.setText s value) := by
  refine ⟨hx, hc.alone_text ht hx, ?_⟩
  obtain ⟨d, _, hd, hr⟩ := hc.exists_draft ht
  rw [hd] at hx ⊢
  obtain ⟨hex, hm⟩ := hr.explained_slot hx
  obtain ⟨_, _, hseed⟩ := ((hr.sound.template t.name).fits _ hx).1
  cases hex with
  | text seed _ computes =>
    obtain ⟨ss, hread, ⟨_, hc⟩ | ⟨_, ps, hi, hc⟩⟩ := computes <;> rw [hc] at hm
    · cases hm
    · cases List.mem_singleton.mp hm
      exact (View.text?_new (t := d.finish t.name) seed).trans
        (congrArg some (View.shown_new hread hi).symm)
  | element _ seed => cases seed.symm.trans hseed
  | anchor seed => cases seed.symm.trans hseed

/-- Nothing is rendered for a variable that is empty. -/
theorem items_empty (dir : Directive) : dir.items (.str "") = [] := by
  cases dir <;> rfl

theorem steady_group (hc : c.Built o) (ht : t ∈ c.templates) {dir : Directive} {name : String}
    {s : Slot} {v : Var} {g : Group} (hx : .reconcile dir name s v g ∈ t.computations) :
    t.Steady (.reconcile dir name s v g) := by
  have hfits := (hc.sound.template t ht).fits _ hx
  refine ⟨hx, hc.alone_group ht hx, [], ?_, ?_⟩
  · exact List.getElem?_replicate_of_lt hfits.2.2
  · have hv : (View.new t).value v = .str "" := by
      rw [View.value, View.new, List.getElem?_replicate_of_lt hfits.2.1]
      rfl
    rw [hv, items_empty]
    rfl

/-- The slot of an element carries the attributes of an element of the markup. -/
theorem exists_carries (hc : c.Built o) (ht : t ∈ c.templates) {s q : Slot} {tag : String}
    {svg : Bool} (hs : t.seeds[s]? = some (.element q tag svg)) :
    ∃ as, o.element tag as ∧ t.Carries s tag svg (Builder.plain as) := by
  obtain ⟨d, _, hd, hr⟩ := hc.exists_draft ht
  rw [hd] at hs ⊢
  cases hr.explained s (List.getElem?_eq_some_iff.mp hs).1 with
  | text seed => cases seed.symm.trans hs
  | anchor seed => cases seed.symm.trans hs
  | @element tag' svg' as source seed furnishes =>
    cases seed.symm.trans hs
    exact ⟨as, source, seed, furnishes.mono fun p v hv => hr.sound.binds hv _⟩

/-- So are attributes that are not properties and have some literal text. -/
theorem steady_attribute (hc : c.Built o) (ht : t ∈ c.templates) {s : Slot} {tag : String}
    {svg : Bool} {as : List Attribute} (hcar : t.Carries s tag svg as)
    (hn : (as.map (·.name)).Nodup) {a : Attribute} (ha : a ∈ as) {ss : List Segment}
    (hread : Segment.readAll (tidy a.value) = .ok ss) (hb : ss.any Segment.isReference = true)
    (hdirect : (!svg && Vocabulary.isProperty tag a.name) = false)
    (hl : literalText (tidy a.value) ≠ "") :
    ∃ ps, Interprets t.Binds ss ps ∧ t.Steady (.setAttribute s (Draft.attributeName a.name).1
      (Draft.attributeName a.name).2 ps) := by
  obtain ⟨ps, hi, hm⟩ := hcar.furnishes.exists_computation ha hread hb
  have hsetter : Draft.attributeSetter tag svg s a.name (literalText (tidy a.value) == "") ps =
      .setAttribute s (Draft.attributeName a.name).1 (Draft.attributeName a.name).2 ps := by
    have hbare : (literalText (tidy a.value) == "") = false := beq_eq_false_iff_ne.mpr hl
    rw [Draft.attributeSetter_eq, Draft.setter, hdirect, hbare]
    cases ps.single? <;> rfl
  rw [hsetter] at hm
  refine ⟨ps, hi, (List.mem_filter.mp hm).1, hc.alone_attribute ht hcar.furnishes hn hm, ?_⟩
  rw [View.Done, View.attribute?, View.element?_new hcar.seed, Option.bind_some,
    hcar.furnishes.attribute?_of_wired hn ha (.inl hl), View.shown_new hread hi]

end Catalog.Built
end Stencil

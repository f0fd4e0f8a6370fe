import Stencil.Proofs.Binding.Calls
import Stencil.Proofs.Instance.Rendering
import Stencil.Proofs.Template.WellFormed

/-! Updates forget. Data is complete for a template when it has a field for every key that the
template listens to, and when so is what it has for nested templates. An update with complete
data binds every variable and runs every computation. What a view shows after it is therefore
the same whatever the view showed before. -/
namespace Stencil
open Binding Document Markup

/-! ## Complete data -/

/-- The fields have different keys without dots, and one of them has each key without a dot
that the template listens to. -/
structure Template.Answered (t : Template) (fields : List (String × Json)) : Prop where
  nodup : (fields.map (·.1)).Nodup
  plain : ∀ f ∈ fields, '.' ∉ f.1.toList
  present : ∀ r ∈ t.routes, '.' ∉ r.key.toList → r.key ∈ fields.map (·.1)

/-- A template that listens to nothing takes any data. Another one is to be answered by an
object, in which each item that a directive finds at its path is complete for the nested
template. -/
inductive Template.Complete (c : Catalog) : Template → Json → Prop
  | idle {t : Template} {data : Json} (routes_eq : t.routes = []) : Complete c t data
  | object {t : Template} {fields : List (String × Json)} (answered : t.Answered fields)
      (items : ∀ dir name s v g p u, .reconcile dir name s v g ∈ t.computations → t.Binds p v →
        c.get? name = some u → ∀ x ∈ dir.items ((Json.obj fields).follow p.segments),
          Complete c u x) : Complete c t (.obj fields)

theorem Template.answered_iff {t : Template} {fields : List (String × Json)} :
    t.Answered fields ↔ (fields.map (·.1)).Nodup ∧ (∀ f ∈ fields, '.' ∉ f.1.toList) ∧
      ∀ r ∈ t.routes, '.' ∉ r.key.toList → r.key ∈ fields.map (·.1) := by
  constructor
  · intro h
    exact ⟨h.nodup, h.plain, h.present⟩
  · rintro ⟨nodup, plain, present⟩
    exact ⟨nodup, plain, present⟩

instance (t : Template) (fields : List (String × Json)) : Decidable (t.Answered fields) :=
  decidable_of_iff _ Template.answered_iff.symm

/-- Whether nested templates can do with the items that a directive finds in the data. -/
def Template.suits (t : Template) (nested : String → Json → Bool) (data : Json) :
    Computation → Bool
  | .reconcile dir name _ v _ => t.routes.all fun r => !r.bindings.contains (v, []) ||
    (dir.items (data.follow (undotted r.key))).all (nested name)
  | _ => true

/-- Whether data is complete, as far as templates are nested no deeper than the number. -/
def Template.isComplete (c : Catalog) : Nat → Template → Json → Bool
  | 0, _, _ => false
  | n + 1, t, .obj fields => t.routes.isEmpty || (decide (t.Answered fields) && t.computations.all
    (t.suits (fun name x => (c.get? name).all (isComplete c n · x)) (.obj fields)))
  | _ + 1, t, _ => t.routes.isEmpty

theorem Template.complete_of_isComplete {c : Catalog} {n : Nat} {t : Template} {data : Json}
    (h : t.isComplete c n data = true) : t.Complete c data := by
  induction n generalizing t data with
  | zero => cases h
  | succ n ih =>
    cases data with
    | obj fields =>
      simp only [Template.isComplete, Bool.or_eq_true, Bool.and_eq_true, List.isEmpty_iff,
        decide_eq_true_eq, List.all_eq_true] at h
      rcases h with hidle | ⟨hanswered, hsuits⟩
      · exact .idle hidle
      · refine .object hanswered fun dir name s v g p u hx hp hu x hitem => ?_
        obtain ⟨r, hr, hkey, hv⟩ := hp
        have hitems := hsuits _ hx
        simp only [Template.suits, List.all_eq_true] at hitems
        have hnested := hitems r hr
        rw [hkey, p.undotted_dotted] at hnested
        simp only [List.contains_iff_mem.mpr hv, Bool.not_true, Bool.false_or, List.all_eq_true,
          Option.all_eq_true] at hnested
        exact ih (hnested x hitem u hu)
    | _ => exact .idle (List.isEmpty_iff.mp h)

theorem Binding.Path.dot_not_mem_key (p : Path) : '.' ∉ p.key.toList := by
  have hid : isIdentifier p.key = true := p.isIdentifier_of_mem _ (List.head_mem _)
  unfold isIdentifier at hid
  intro hm
  cases hk : p.key.toList with
  | nil =>
    rw [hk] at hm
    cases hm
  | cons a as =>
    rw [hk] at hid hm
    rw [Bool.and_eq_true, List.all_eq_true] at hid
    rcases List.mem_cons.mp hm with rfl | hm
    · exact absurd hid.1 (by decide)
    · exact absurd (hid.2 '.' hm) (by decide)

namespace Draft.Sound

variable {d : Draft} {name : String} (h : d.Sound)
include h

/-- A template listens to the keys of the paths of its variables. -/
theorem exists_route_of_binds {p : Path} {v : Var} (hp : d.index.Binds p v) :
    ∃ r ∈ (d.finish name).routes, r.key = p.key := by
  obtain ⟨ts, hts⟩ := p.segments_eq
  have hv : d.index.trie.var? (p.key :: ts) = some v := hts ▸ hp
  obtain ⟨r, hr⟩ : ∃ r, (d.finish name).route? p.key = some r := h.exists_route? hv
  exact ⟨r, List.mem_of_find?_eq_some hr, by simpa using List.find?_some hr⟩

theorem exists_field {fields : List (String × Json)} (ha : (d.finish name).Answered fields)
    {p : Path} {v : Var} (hp : d.index.Binds p v) :
    ∃ f ∈ fields, f.1 = p.key ∧ fields.find? (·.1 == p.key) = some f := by
  obtain ⟨r, hr, hkey⟩ : ∃ r ∈ (d.finish name).routes, r.key = p.key := h.exists_route_of_binds hp
  have hm := ha.present r hr (hkey ▸ p.dot_not_mem_key)
  obtain ⟨f, hf, hfr⟩ := List.mem_map.mp hm
  have hsome : (fields.find? (·.1 == p.key)).isSome := by
    rw [List.find?_isSome]
    exact ⟨f, hf, by simp [hfr, hkey]⟩
  obtain ⟨f, hf⟩ := Option.isSome_iff_exists.mp hsome
  exact ⟨f, List.mem_of_find?_eq_some hf, by simpa using List.find?_some hf, hf⟩

end Draft.Sound

/-! ## What an update with complete data does -/

/-- No element has two attributes of one name. -/
def Origin.Distinct (o : Origin) : Prop := ∀ tag as, o.element tag as → (as.map (·.name)).Nodup

/-- Then no two computations write to one cell. -/
theorem Catalog.Built.alone {c : Catalog} {o : Origin} (hc : c.Built o) (ho : o.Distinct)
    {t : Template} (ht : t ∈ c.templates) {x : Computation} (hx : x ∈ t.computations) :
    t.Alone x := by
  obtain ⟨d, ts, hd, hr⟩ := hc.exists_draft ht
  rw [hd] at hx ⊢
  obtain ⟨hex, hm⟩ := hr.explained_slot hx
  cases hex with
  | text _ _ computes =>
    obtain ⟨_, _, ⟨_, hc⟩ | ⟨_, ps, _, hc⟩⟩ := computes <;> rw [hc] at hm
    · cases hm
    · rw [List.mem_singleton.mp hm] at hx ⊢
      exact hr.alone_text hx _
  | element source _ furnishes =>
    exact hr.alone_attribute furnishes (Builder.nodup_plain (ho _ _ source)) hm _
  | anchor _ _ computes =>
    rw [computes] at hm
    rw [List.mem_singleton.mp hm] at hx ⊢
    exact hr.alone_group hx _

theorem Workshop.distinct_origin {calls : List (Markup.Node × String)}
    (h : ∀ call ∈ calls, ∀ x ∈ call.1.elements, (x.2.map (·.name)).Nodup) :
    (Workshop.origin calls).Distinct := fun tag as ⟨call, hcall, hx⟩ => h call hcall (tag, as) hx

/-- The cell of an element in which an attribute that refers to data is shown. -/
def Markup.Attribute.cell (tag : String) (svg : Bool) (s : Slot) (a : Attribute) : Cell :=
  if a.isDirect tag svg then .property s a.name else .attr s (Draft.attributeName a.name)

namespace View

variable {c : Catalog} {o : Origin} {upd : View → Json → View} {V W : View} {d : Draft}
  {name : String} {x : Computation}

section

variable {fields : List (String × Json)} (hV : V.template = d.finish name) (hs : V.Shaped)
  (ha : (d.finish name).Answered fields)
include hV hs ha

/-- Every variable takes what is found at its path. -/
theorem values_updateWith (hd : d.Sound) {p : Path} {v : Var} (hp : d.index.Binds p v) :
    (V.updateWith c upd (.obj fields)).values[v]? = some ((Json.obj fields).follow p.segments) := by
  obtain ⟨f, _, _, hf⟩ := hd.exists_field ha hp
  obtain ⟨ts, hts⟩ := p.segments_eq
  have hv : d.index.trie.var? (p.key :: ts) = some v := hts ▸ hp
  rw [updateWith, values_takeFields hd hV hs ha.plain ha.nodup hv, hts, Json.follow_cons,
    Json.field?, hf]
  rfl

/-- Every computation is done. -/
theorem done_updateWith {ts : List Template} (hr : d.Ready o ts) (hc : c.Sound)
    (hm : V.template ∈ c.templates) (hx : x ∈ d.index.computations) (hal : V.template.Alone x) :
    (V.updateWith c upd (.obj fields)).Done x := by
  obtain ⟨v, hv⟩ := hr.exists_var hx
  obtain ⟨p, hp⟩ := hr.sound.coherent.reads_bound x hx v hv
  obtain ⟨f, hf, hkey, _⟩ := hr.sound.exists_field ha hp
  have hreach : Reaches (d.finish name) x f :=
    reaches_of_key hr.sound (ha.plain f hf) hv hp hkey.symm
  refine done_takeFields hc hm (hV ▸ hr.sound.routed name) hs (hV ▸ hx) hal (.inr ⟨f, hf, ?_⟩)
  rwa [hV]

variable (c upd) in
/-- Every group is rendered for what is found at its path. -/
theorem exists_group_updateWith (hd : d.Sound) {dir : Directive} {nested : String} {s : Slot}
    {v : Var} {g : Group} (hx : .reconcile dir nested s v g ∈ d.index.computations)
    (hal : (d.finish name).Alone (.reconcile dir nested s v g)) {p : Path}
    (hp : d.index.Binds p v) : ∃ vs, V.groups[g]? = some vs ∧
      (V.updateWith c upd (.obj fields)).groups[g]? =
        some (render c upd nested (dir.items ((Json.obj fields).follow p.segments)) vs) := by
  have hlt : g < V.groups.length := by
    rw [hs.groups_length, hV]
    exact ((hd.template name).fits _ hx).2.2
  obtain ⟨f, _, _, hf⟩ := hd.exists_field ha hp
  refine ⟨V.groups[g], List.getElem?_eq_getElem hlt, ?_⟩
  refine groups_updateWith hd hV hs hx hal (List.getElem?_eq_getElem hlt) hp ha.nodup ha.plain ?_
  rw [Json.field?, hf]
  rfl

end

/-! ## Two views of one template -/

section

variable {fields : List (String × Json)} (hc : c.Built o) (ho : o.Distinct)
  (hm : V.template ∈ c.templates) (hVW : W.template = V.template) (hV : V.Shaped) (hW : W.Shaped)
  (ha : V.template.Answered fields)
include hc ho hm hVW hV hW ha

/-- After the update all is done in both, for the same values. -/
theorem done_both (hx : x ∈ V.template.computations) :
    (V.updateWith c upd (.obj fields)).Done x ∧ (W.updateWith c upd (.obj fields)).Done x ∧
      ∀ v ∈ x.vars, (V.updateWith c upd (.obj fields)).values[v]? =
        (W.updateWith c upd (.obj fields)).values[v]? := by
  have hal := hc.alone ho hm hx
  obtain ⟨d, ts, hd, hr⟩ := hc.exists_draft hm
  have hxd : x ∈ d.index.computations := by
    rw [hd] at hx
    exact hx
  rw [hd] at ha
  refine ⟨?_, ?_, fun v hv => ?_⟩
  · exact done_updateWith hd hV ha hr hc.sound hm hxd hal
  · exact done_updateWith (hVW.trans hd) hW ha hr hc.sound (hVW ▸ hm) hxd (hVW ▸ hal)
  · obtain ⟨p, hp⟩ := hr.sound.coherent.reads_bound x hxd v hv
    rw [values_updateWith hd hV ha hr.sound hp,
      values_updateWith (hVW.trans hd) hW ha hr.sound hp]

variable (upd) in
/-- A group is rendered in both for the same items. -/
theorem exists_groups_both {dir : Directive} {nested : String} {s : Slot} {v : Var} {g : Group}
    (hx : .reconcile dir nested s v g ∈ V.template.computations) :
    ∃ p vs ws, V.template.Binds p v ∧ V.groups[g]? = some vs ∧ W.groups[g]? = some ws ∧
      (V.updateWith c upd (.obj fields)).groups[g]? =
        some (render c upd nested (dir.items ((Json.obj fields).follow p.segments)) vs) ∧
      (W.updateWith c upd (.obj fields)).groups[g]? =
        some (render c upd nested (dir.items ((Json.obj fields).follow p.segments)) ws) := by
  have hal := hc.alone ho hm hx
  obtain ⟨d, ts, hd, hr⟩ := hc.exists_draft hm
  have hxd : .reconcile dir nested s v g ∈ d.index.computations := by
    rw [hd] at hx
    exact hx
  rw [hd] at ha hal
  obtain ⟨p, hp⟩ := hr.sound.coherent.reads_bound _ hxd v (List.mem_singleton_self v)
  obtain ⟨vs, hvs, hgV⟩ := exists_group_updateWith c upd hd hV ha hr.sound hxd hal hp
  obtain ⟨ws, hws, hgW⟩ := exists_group_updateWith c upd (hVW.trans hd) hW ha hr.sound hxd hal hp
  exact ⟨p, vs, ws, hd ▸ hr.sound.binds hp _, hvs, hws, hgV, hgW⟩

end

/-! ## Cells after the update -/

section

variable {tag : String} {svg : Bool} {s : Slot} {a : Attribute} {ps : Interpolation}
  (hvars : ∀ v ∈ ps.vars, V.values[v]? = W.values[v]?)
include hvars

theorem agree_setter (hV : V.Done (Draft.setter tag svg s a.name ps))
    (hW : W.Done (Draft.setter tag svg s a.name ps)) : V.Agree W (a.cell tag svg s) := by
  cases hdirect : a.isDirect tag svg with
  | true =>
    rw [Draft.setter_of_direct hdirect, Done] at hV hW
    rw [propertyValue_congr hvars] at hV
    rw [Attribute.cell, hdirect]
    exact hV.trans hW.symm
  | false =>
    rw [Draft.setter_of_not_direct hdirect, Done] at hV hW
    rw [shown_congr hvars] at hV
    rw [Attribute.cell, hdirect]
    exact hV.trans hW.symm

/-- What is shown for an attribute depends on its variables only. -/
theorem agree_attributeSetter {bare : Bool}
    (hV : V.Done (Draft.attributeSetter tag svg s a.name bare ps))
    (hW : W.Done (Draft.attributeSetter tag svg s a.name bare ps)) :
    V.Agree W (a.cell tag svg s) := by
  rw [Draft.attributeSetter_eq] at hV hW
  cases hsingle : ps.single? with
  | none =>
    rw [hsingle] at hV hW
    exact agree_setter hvars hV hW
  | some v =>
    rw [hsingle] at hV hW
    cases bare with
    | false => exact agree_setter hvars hV hW
    | true =>
      simp only [if_true, Done] at hV hW
      have hvalue : V.value v = W.value v := by
        rw [value, value, hvars v (Interpolation.mem_vars_of_single? hsingle)]
      by_cases hfalse : (W.value v).isFalse = true
      · rw [if_pos (hvalue ▸ hfalse)] at hV
        rw [if_pos hfalse] at hW
        unfold Attribute.cell
        split
        · have hproperty : (Draft.setter tag svg s a.name ps).property? = some a.name := by
            rw [Draft.setter_of_direct ‹_›]
            rfl
          exact (hV.2 _ hproperty).trans (hW.2 _ hproperty).symm
        · exact hV.1.trans hW.1.symm
      · rw [if_neg (hvalue ▸ hfalse)] at hV
        rw [if_neg hfalse] at hW
        exact agree_setter hvars hV hW

end

/-- Views in which all is done for the same values agree, but for what their groups hold. -/
theorem agree_of_done (hc : c.Built o) (ho : o.Distinct) {t : Template} (ht : t ∈ c.templates)
    (hV : V.Pristine t) (hW : W.Pristine t)
    (hdone : ∀ x ∈ t.computations, V.Done x ∧ W.Done x ∧ ∀ v ∈ x.vars, V.values[v]? = W.values[v]?)
    {cell : Cell} (hcell : ∀ g, cell ≠ .group g) : V.Agree W cell := by
  by_cases hwritten : ∃ y ∈ t.computations, cell ∈ y.cells
  · obtain ⟨y, hy, hyc⟩ := hwritten
    obtain ⟨hdV, hdW, hvars⟩ := hdone y hy
    obtain ⟨d, ts, hd, hr⟩ := hc.exists_draft ht
    rw [hd] at ht hy hV hW
    obtain ⟨hex, hm⟩ := hr.explained_slot hy
    cases hex with
    | text _ _ computes =>
      obtain ⟨_, _, ⟨_, hx⟩ | ⟨_, ps, _, hx⟩⟩ := computes <;> rw [hx] at hm
      · cases hm
      · rw [List.mem_singleton.mp hm] at hyc hdV hdW hvars
        rw [List.mem_singleton.mp hyc]
        exact hdV.trans ((congrArg some (shown_congr hvars)).trans hdW.symm)
    | element source seed furnishes =>
      have hf : d.Furnished y.slot _ _ _ := ⟨seed, furnishes, Builder.nodup_plain (ho _ _ source)⟩
      obtain ⟨a, ha, hb, ps, he⟩ := hf.exists_attribute hy rfl
      rw [he] at hyc hdV hdW hvars
      have hagree := agree_attributeSetter (fun v hv =>
        hvars v ((Draft.mem_vars_attributeSetter ..).mpr hv)) hdV hdW
      unfold Attribute.cell at hagree
      rcases Draft.mem_cells_attributeSetter hyc with rfl | ⟨hdirect, rfl⟩
      · split at hagree
        · rename_i hdirect
          -- the attribute beside a property is never set
          have hnew := attribute?_of_direct hc ht hf hV ha hb hdirect
          exact hnew.trans (attribute?_of_direct hc ht hf hW ha hb hdirect).symm
        · exact hagree
      · rwa [if_pos (show a.isDirect _ _ = true from hdirect)] at hagree
    | anchor _ _ computes =>
      rw [computes] at hm
      rw [List.mem_singleton.mp hm] at hyc
      exact absurd (List.mem_singleton.mp hyc) (hcell _)
  · have hunwritten : ∀ y ∈ t.computations, cell ∉ y.cells := fun y hy hyc => hwritten ⟨y, hy, hyc⟩
    exact (hV.agree cell hunwritten).trans (hW.agree cell hunwritten).symm

/-! ## Nested views -/

/-- Here and in all nested views what no computation writes is as at first. -/
inductive Clean : View → Prop
  | intro {V : View} (pristine : V.Pristine V.template)
      (nested : ∀ vs ∈ V.groups, ∀ W ∈ vs, Clean W) : Clean V

theorem Clean.pristine (h : Clean V) : V.Pristine V.template := by
  cases h with
  | intro h _ => exact h

theorem clean_new (t : Template) : Clean (new t) := by
  refine .intro (pristine_new t) fun vs hvs W hW => ?_
  rw [List.eq_of_mem_replicate hvs] at hW
  cases hW

theorem Clean.groups (h : Clean V) (hV : Current c V) :
    Groups c (fun W => Current c W ∧ Clean W) V := by
  intro dir name s v g vs hx hg W hW
  obtain ⟨hget, hcur⟩ := hV.groups dir name s v g vs hx hg W hW
  cases h with
  | intro _ nested => exact ⟨hget, hcur, nested vs (List.mem_of_getElem? hg) W hW⟩

theorem Clean.updateWith (hc : c.Sound)
    (hupd : ∀ W data, Current c W ∧ Clean W → Current c (upd W data) ∧ Clean (upd W data))
    (htemplate : ∀ W data, (upd W data).template = W.template) (hV : Current c V) (h : Clean V)
    (data : Json) : Clean (V.updateWith c upd data) := by
  have ht := hc.template _ hV.template_mem
  have hs := hV.shaped
  cases data with
  | obj fields =>
    have htmpl : (fields.foldl (takeField c upd) V).template = V.template :=
      template_takeFields fields V
    have hgroups := (h.groups hV).takeFields hc (fun t ht => ⟨current_new ht, clean_new t⟩) hupd
      htemplate hV.template_mem hs fields
    apply Clean.intro
    · rw [template_updateWith]
      exact h.pristine.updateWith ht hs _
    · intro vs hvs W hW
      exact (hgroups.forall_mem (htmpl ▸ ht) (hs.takeFields ht fields) vs hvs W hW).2
  | _ => exact h

theorem updateTo_keeps (hc : c.Built o) (n : Nat) (h : Current c V ∧ Clean V) (data : Json) :
    Current c (updateTo c n V data) ∧ Clean (updateTo c n V data) := by
  refine ⟨h.1.updateTo hc.sound (fun t ht => hc.routed ht) n data, ?_⟩
  induction n generalizing V data with
  | zero => exact h.2
  | succ n ih =>
    refine h.2.updateWith hc.sound (fun W d hW => ⟨?_, ih hW d⟩) (template_updateTo n) h.1 data
    exact hW.1.updateTo hc.sound (fun t ht => hc.routed ht) n d

/-! ## Views that look alike -/

/-- The views show the same, slot by slot and in all nested views. -/
inductive Alike : View → View → Prop
  | intro {V W : View} (template_eq : V.template = W.template)
      (text_eq : ∀ s, V.text? s = W.text? s)
      (attribute_eq : ∀ s key, V.attribute? s key = W.attribute? s key)
      (property_eq : ∀ s name, V.property? s name = W.property? s name)
      (length_eq : ∀ (g : Group) (vs ws : List View), V.groups[g]? = some vs →
        W.groups[g]? = some ws → vs.length = ws.length)
      (nested : ∀ (g : Group) (vs ws : List View), V.groups[g]? = some vs → W.groups[g]? = some ws →
        ∀ (k : Nat) (A B : View), vs[k]? = some A → ws[k]? = some B → Alike A B) : Alike V W

theorem getElem?_render {nested : String} {u : Template} (hu : c.get? nested = some u)
    (items : List Json) (vs : List View) (k : Nat) : (render c upd nested items vs)[k]? =
      items[k]?.map (upd (vs[k]?.getD (new u))) := by
  rw [render, hu, List.getElem?_append]
  simp only [List.length_zipWith, List.getElem?_zipWith, List.getElem?_map, List.getElem?_drop]
  split
  · rename_i hk
    have hvs : k < vs.length := by omega
    have hitems : k < items.length := by omega
    simp [hvs, hitems]
  · rename_i hk
    rcases Nat.lt_or_ge k items.length with hitems | hitems
    · have hvs : vs.length ≤ k := by omega
      have hsum : vs.length + (k - min vs.length items.length) = k := by omega
      rw [hsum, List.getElem?_eq_none hvs]
      rfl
    · have hsum : items.length ≤ vs.length + (k - min vs.length items.length) := by omega
      rw [List.getElem?_eq_none hsum, List.getElem?_eq_none hitems]
      rfl

/-- What an item is rendered with is a view of the nested template: the one at its place, or a
new one. -/
theorem Groups.getD {P : View → Prop} (h : Groups c P V) {dir : Directive} {nested : String}
    {s : Slot} {v : Var} {g : Group} (hx : .reconcile dir nested s v g ∈ V.template.computations)
    {vs : List View} (hg : V.groups[g]? = some vs) {u : Template} (hu : c.get? nested = some u)
    (hnew : P (new u)) (k : Nat) :
    (vs[k]?.getD (new u)).template = u ∧ P (vs[k]?.getD (new u)) := by
  cases hk : vs[k]? with
  | none => exact ⟨rfl, hnew⟩
  | some A =>
    obtain ⟨hget, hP⟩ := h dir nested s v g vs hx hg A (List.mem_of_getElem? hk)
    exact ⟨Option.some.inj (hget.symm.trans hu), hP⟩

theorem alike_render {nested : String} {u : Template} (hu : c.get? nested = some u)
    {items : List Json} {vs ws : List View} (h : ∀ (k : Nat), ∀ x ∈ items,
      Alike (upd (vs[k]?.getD (new u)) x) (upd (ws[k]?.getD (new u)) x)) :
    (render c upd nested items vs).length = (render c upd nested items ws).length ∧
      ∀ (k : Nat) A B, (render c upd nested items vs)[k]? = some A →
        (render c upd nested items ws)[k]? = some B → Alike A B := by
  refine ⟨(length_render hu items vs).trans (length_render hu items ws).symm, ?_⟩
  intro k A B hA hB
  rw [getElem?_render hu] at hA hB
  obtain ⟨x, hx, rfl⟩ := Option.map_eq_some_iff.mp hA
  rw [hx] at hB
  cases hB
  exact h k x (List.mem_of_getElem? hx)

section

variable {t : Template} (hc : c.Built o) (ho : o.Distinct) (hm : t ∈ c.templates)
  (htV : V.template = t) (htW : W.template = t) (hV : V.Pristine t) (hW : W.Pristine t)
include hc ho hm htV htW hV hW

theorem alike_of_done (hdone : ∀ x ∈ t.computations,
      V.Done x ∧ W.Done x ∧ ∀ v ∈ x.vars, V.values[v]? = W.values[v]?)
    (hgroups : ∀ (g : Group) (vs ws : List View), V.groups[g]? = some vs → W.groups[g]? = some ws →
      vs.length = ws.length ∧ ∀ (k : Nat) A B, vs[k]? = some A → ws[k]? = some B → Alike A B) :
    Alike V W := by
  have hagree : ∀ cell, (∀ g, cell ≠ .group g) → V.Agree W cell := fun cell =>
    agree_of_done hc ho hm hV hW hdone
  exact .intro (htV.trans htW.symm) (fun s => hagree (.text s) nofun)
    (fun s key => hagree (.attr s key) nofun) (fun s name => hagree (.property s name) nofun)
    (fun g vs ws hg hg' => (hgroups g vs ws hg hg').1)
    fun g vs ws hg hg' => (hgroups g vs ws hg hg').2

/-- Views of a template that listens to nothing show what they showed at first. -/
theorem alike_of_idle (hroutes : t.routes = []) : Alike V W := by
  obtain ⟨d, ts, hd, hr⟩ := hc.exists_draft hm
  have hnone : ∀ x, x ∉ t.computations := by
    intro x hx
    rw [hd] at hx hroutes
    obtain ⟨v, hv⟩ := hr.exists_var hx
    obtain ⟨p, hp⟩ := hr.sound.coherent.reads_bound x hx v hv
    obtain ⟨r, hr, _⟩ := hr.sound.exists_route_of_binds hp
    rw [hroutes] at hr
    cases hr
  have hempty : ∀ {U : View}, U.Pristine t → ∀ {g : Group} {vs : List View},
      U.groups[g]? = some vs → vs = [] := by
    intro U hU g vs hg
    have hnew : U.groups[g]? = (new t).groups[g]? :=
      hU.agree (.group g) fun x hx => absurd hx (hnone x)
    exact List.eq_of_mem_replicate (List.mem_of_getElem? (hnew ▸ hg))
  refine alike_of_done hc ho hm htV htW hV hW (fun x hx => absurd hx (hnone x)) ?_
  intro g vs ws hg hg'
  rw [hempty hV hg, hempty hW hg']
  exact ⟨rfl, fun k A B hA => by cases hA⟩

end

/-- What one update with complete data shows, given that nested updates with complete data show
the same whatever they start from. -/
theorem alike_updateWith (hc : c.Built o) (ho : o.Distinct) {n : Nat}
    (hupd : ∀ A B x, A.template ∈ c.templates.take n → B.template = A.template →
      Current c A ∧ Clean A → Current c B ∧ Clean B → A.template.Complete c x →
        Alike (upd A x) (upd B x))
    (hm : V.template ∈ c.templates.take (n + 1)) (hVW : W.template = V.template)
    (hV : Current c V ∧ Clean V) (hW : Current c W ∧ Clean W) {data : Json}
    (hdata : V.template.Complete c data) :
    Alike (V.updateWith c upd data) (W.updateWith c upd data) := by
  have hmt := List.mem_of_mem_take hm
  have ht := hc.sound.template _ hmt
  have hpV : (V.updateWith c upd data).Pristine V.template :=
    hV.2.pristine.updateWith ht hV.1.shaped data
  have hpW : (W.updateWith c upd data).Pristine V.template :=
    hVW ▸ hW.2.pristine.updateWith (hVW ▸ ht) hW.1.shaped data
  have htV : (V.updateWith c upd data).template = V.template := template_updateWith V data
  have htW : (W.updateWith c upd data).template = V.template :=
    (template_updateWith W data).trans hVW
  cases hdata with
  | idle routes_eq => exact alike_of_idle hc ho hmt htV htW hpV hpW routes_eq
  | @object _ fields answered items =>
    refine alike_of_done hc ho hmt htV htW hpV hpW
      (fun x => done_both hc ho hmt hVW hV.1.shaped hW.1.shaped answered) fun g vs' ws' hg hg' => ?_
    have hshaped : (V.updateWith c upd (.obj fields)).Shaped := hV.1.shaped.takeFields ht fields
    obtain ⟨dir, nested, s, v, hx⟩ := hshaped.exists_reconcile (htV ▸ ht) hg
    rw [htV] at hx
    obtain ⟨u, hu, hget⟩ := hc.sound.exists_nested hm hx
    obtain ⟨p, vs, ws, hp, hvs, hws, hgV, hgW⟩ :=
      exists_groups_both upd hc ho hmt hVW hV.1.shaped hW.1.shaped answered hx
    cases hg.symm.trans hgV
    cases hg'.symm.trans hgW
    have hnew : Current c (new u) ∧ Clean (new u) :=
      ⟨current_new (List.mem_of_mem_take hu), clean_new u⟩
    refine alike_render hget fun k x hxi => ?_
    obtain ⟨hA, hA'⟩ := (hV.2.groups hV.1).getD hx hvs hget hnew k
    obtain ⟨hB, hB'⟩ := (hW.2.groups hW.1).getD (hVW ▸ hx) hws hget hnew k
    refine hupd _ _ x ?_ (hB.trans hA.symm) hA' hB' ?_ <;> rw [hA]
    · exact hu
    · exact items dir nested s v g p u hx hp hget x hxi

/-- An update with complete data shows the same whatever was there before. -/
theorem alike_updateTo (hc : c.Built o) (ho : o.Distinct) {n : Nat}
    (hm : V.template ∈ c.templates.take n) (hVW : W.template = V.template)
    (hV : Current c V ∧ Clean V) (hW : Current c W ∧ Clean W) {data : Json}
    (hdata : V.template.Complete c data) : Alike (updateTo c n V data) (updateTo c n W data) := by
  induction n generalizing V W data with
  | zero => cases hm
  | succ n ih =>
    have hnested : ∀ A B x, A.template ∈ c.templates.take n → B.template = A.template →
        Current c A ∧ Clean A → Current c B ∧ Clean B → A.template.Complete c x →
          Alike (updateTo c n A x) (updateTo c n B x) :=
      fun _ _ _ hA hAB hA' hB' => ih hA hAB hA' hB'
    exact alike_updateWith hc ho hnested hm hVW hV hW hdata

end View
end Stencil

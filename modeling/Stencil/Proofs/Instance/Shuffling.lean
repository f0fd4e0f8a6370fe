import Stencil.Proofs.Instance.Dividing
import Stencil.Proofs.Instance.Forgetting
import Stencil.Proofs.Json.Shuffled

/-! Fields in another order. Two updates of one view, with clear data that differs in the order
of fields, bind the same variables and reach the same computations. What is reached is done in
both for the same values, and a guard, which may leave what it finds, is reached by one field and
finds the same in both. Nested views are updated with items that differ in order only. -/
namespace Stencil
open Binding Document

/-- No variable that a text, an attribute or a property reads is given an array or an object, here
and in the nested templates that items go to. -/
inductive Template.Legible (c : Catalog) : Template → Json → Prop
  | other {t : Template} {data : Json} (no_object : ∀ fields, data ≠ .obj fields) : Legible c t data
  | object {t : Template} {fields : List (String × Json)}
      (scalars : ∀ f ∈ fields, ∀ r, t.route? f.1 = some r → ∀ v ts, (v, ts) ∈ r.bindings →
        ∀ x ∈ t.computations, x.anchored? = none → v ∈ x.vars → (f.2.follow ts).isScalar = true)
      (items : ∀ f ∈ fields, ∀ r, t.route? f.1 = some r → ∀ v ts, (v, ts) ∈ r.bindings →
        ∀ dir name s g u, .reconcile dir name s v g ∈ t.computations → c.get? name = some u →
          ∀ x ∈ dir.items (f.2.follow ts), Legible c u x) : Legible c t (.obj fields)

/-- Whether a computation can do with a value for a variable, given what nested templates can do
with. -/
def Computation.isLegible (nested : String → Json → Bool) (v : Var) (value : Json) :
    Computation → Bool
  | .reconcile dir name _ w _ => w != v || (dir.items value).all (nested name)
  | x => !x.vars.contains v || value.isScalar

/-- Whether data is legible, as far as templates are nested no deeper than the number. -/
def Template.isLegible (c : Catalog) : Nat → Template → Json → Bool
  | 0, _, _ => false
  | n + 1, t, .obj fields => fields.all fun f => (t.route? f.1).all fun r => r.bindings.all fun b =>
    t.computations.all (Computation.isLegible
      (fun name x => (c.get? name).all (isLegible c n · x)) b.1 (f.2.follow b.2))
  | _ + 1, _, _ => true

theorem Computation.isScalar_of_isLegible {nested : String → Json → Bool} {v : Var} {value : Json}
    {x : Computation} (h : x.isLegible nested v value = true) (ha : x.anchored? = none)
    (hv : v ∈ x.vars) : value.isScalar = true := by
  cases x with
  | reconcile => cases ha
  | _ => simpa [Computation.isLegible, hv] using h

theorem Template.legible_of_isLegible {c : Catalog} {n : Nat} {t : Template} {data : Json}
    (h : t.isLegible c n data = true) : t.Legible c data := by
  induction n generalizing t data with
  | zero => cases h
  | succ n ih =>
    cases data with
    | obj fields =>
      simp only [Template.isLegible, List.all_eq_true, Option.all_eq_true] at h
      refine .object (fun f hf r hr v ts hb x hx => ?_)
        fun f hf r hr v ts hb dir name s g u hx hu y hy => ?_
      · exact Computation.isScalar_of_isLegible (h f hf r hr (v, ts) hb x hx)
      · have hitems := h f hf r hr (v, ts) hb _ hx
        simp only [Computation.isLegible, bne_self_eq_false, Bool.false_or, List.all_eq_true,
          Option.all_eq_true] at hitems
        exact ih (hitems y hy u hu)
    | _ => exact .other fun _ hobj => by cases hobj

namespace View

variable {c : Catalog} {upd : View → Json → View} {V W : View} {x : Computation} {cell : Cell}

/-! ## One route in two views -/

/-- An element of both views takes the same change. -/
theorem Agree.onElement {s : Slot} {f : Element → Element} {a b : Element}
    (ha : V.element? s = some a) (hb : W.element? s = some b)
    (hattr : ∀ key, a.attribute? key = b.attribute? key →
      (f a).attribute? key = (f b).attribute? key)
    (hprop : ∀ p, a.property? p = b.property? p → (f a).property? p = (f b).property? p)
    (h : V.Agree W cell) : (V.onElement s f).Agree (W.onElement s f) cell := by
  cases cell with
  | text s' => exact (text?_onElement s s' f V).trans (Eq.trans h (text?_onElement s s' f W).symm)
  | group g => exact h
  | attr s' key =>
    rw [Agree, attribute?, attribute?] at h ⊢
    rw [element?_onElement, element?_onElement]
    split
    · subst s'
      rw [ha, hb] at h ⊢
      exact hattr key h
    · exact h
  | property s' p =>
    rw [Agree, property?, property?] at h ⊢
    rw [element?_onElement, element?_onElement]
    split
    · subst s'
      rw [ha, hb] at h ⊢
      exact hprop p h
    · exact h

/-- A computation for the same values leaves views as alike as they were. -/
theorem Agree.compute (hV : V.Shaped) (hW : W.Shaped) (ht : W.template = V.template)
    (hx : V.template.Fits x) (hvars : ∀ v ∈ x.vars, V.values[v]? = W.values[v]?)
    (h : V.Agree W cell) : (V.compute c upd x).Agree (W.compute c upd x) cell := by
  induction x with
  | setText s value =>
    by_cases hcell : cell = .text s
    · subst hcell
      have hdone : ∀ {U : View}, U.Shaped → U.template = V.template →
          (U.compute c upd (.setText s value)).text? s = some (value.shown U.values) := by
        intro U hU htU
        have hd : (U.compute c upd (.setText s value)).Done _ :=
          done_compute hU (htU ▸ hx) fun _ _ _ _ _ he => by cases he
        rwa [Done, values_compute] at hd
      rw [Agree, hdone hV rfl, hdone hW ht, shown_congr hvars]
    · have hno : cell ∉ (Computation.setText s value).cells := by
        simpa [Computation.cells] using hcell
      exact (agree_compute hV hx hno).trans (h.trans (agree_compute hW (ht ▸ hx) hno).symm)
  | setProperty s name value =>
    obtain ⟨a, ha⟩ := hV.exists_element hx.1
    obtain ⟨b, hb⟩ := hW.exists_element (ht ▸ hx.1)
    rw [View.compute, View.compute, propertyValue_congr hvars]
    exact h.onElement ha hb (fun _ h => h) fun p hp => by simp [hp]
  | setAttribute s space name value =>
    obtain ⟨a, ha⟩ := hV.exists_element hx.1
    obtain ⟨b, hb⟩ := hW.exists_element (ht ▸ hx.1)
    rw [View.compute, View.compute, shown_congr hvars]
    exact h.onElement ha hb (fun key hkey => by simp [hkey]) fun _ h => h
  | unlessFalse s name v setter ih =>
    obtain ⟨a, ha⟩ := hV.exists_element hx.1
    obtain ⟨b, hb⟩ := hW.exists_element (ht ▸ hx.1)
    have hvalue : V.value v = W.value v := by rw [value, value, hvars v List.mem_cons_self]
    rw [View.compute, View.compute, hvalue]
    split
    · have hdrop : (V.onElement s (.dropAttribute (Draft.attributeName name))).Agree
          (W.onElement s (.dropAttribute (Draft.attributeName name))) cell :=
        h.onElement ha hb (fun key hkey => by simp [hkey]) fun _ h => h
      cases setter with
      | setProperty q p value =>
        refine Agree.onElement (by rw [element?_onElement, if_pos rfl, ha]; rfl)
          (by rw [element?_onElement, if_pos rfl, hb]; rfl) (fun _ h => h) (fun p' hp' => ?_) hdrop
        rw [Element.property?_dropProperty, Element.property?_dropProperty, hp']
      | setText | setAttribute | unlessFalse | reconcile => exact hdrop
    · exact ih hx.2.2.2 fun w hw => hvars w (List.mem_cons_of_mem _ hw)
  | reconcile dir name s v g =>
    have hvalue : V.value v = W.value v := by rw [value, value, hvars v List.mem_cons_self]
    cases cell with
    | group g' =>
      have hgroup : V.groups[g']? = W.groups[g']? := h
      simp [Agree, View.compute, List.getElem?_modify, hgroup, hvalue]
    | text | attr | property => exact h

section

variable (ht : V.template.Sound) (hV : V.Shaped) (hW : W.Shaped) (htW : W.template = V.template)
  (hal : V.template.Alone x) (hcell : cell ∈ x.cells)
include ht hV hW htW hal hcell

theorem Agree.runAll (hvars : ∀ v ∈ x.vars, V.values[v]? = W.values[v]?) (h : V.Agree W cell)
    (ks : List Nat) :
    (ks.foldl (runComputation c upd) V).Agree (ks.foldl (runComputation c upd) W) cell := by
  induction ks generalizing V W with
  | nil => exact h
  | cons k ks ih =>
    have hstep : (V.runComputation c upd k).Agree (W.runComputation c upd k) cell := by
      unfold runComputation
      rw [htW]
      cases hk : V.template.computations[k]? with
      | none => exact h
      | some y =>
        have hy := List.mem_of_getElem? hk
        have hfit := ht.fits y hy
        rcases hal y hy with rfl | hother
        · exact h.compute hV hW htW hfit hvars
        · have hno := hother cell hcell
          exact (agree_compute hV hfit hno).trans (h.trans (agree_compute hW (htW ▸ hfit) hno).symm)
    have hvalues : ∀ U : View, (U.runComputation c upd k).values = U.values := values_runAll [k]
    refine ih ?_ (hV.runComputation ht k) (hW.runComputation (htW ▸ ht) k) ?_ ?_ ?_ hstep
    · rwa [template_runComputation]
    · rw [template_runComputation, template_runComputation, htW]
    · rwa [template_runComputation]
    · rwa [hvalues, hvalues]

/-- Fields of one key, after which the computation has the same values in both views. -/
theorem Agree.takeField {f g : String × Json} (hkey : g.1 = f.1)
    (hvars : ∀ v ∈ x.vars, (V.takeField c upd f).values[v]? = (W.takeField c upd g).values[v]?)
    (h : V.Agree W cell) : (V.takeField c upd f).Agree (W.takeField c upd g) cell := by
  unfold View.takeField at hvars ⊢
  rw [htW, hkey] at hvars ⊢
  cases hr : V.template.route? f.1 with
  | none => exact h
  | some r =>
    simp only [hr, follow, values_runAll] at hvars
    have hbind : (V.bind r.bindings f.2).Agree (W.bind r.bindings g.2) cell := by
      cases cell <;> exact h
    exact Agree.runAll (V := V.bind r.bindings f.2) (W := W.bind r.bindings g.2) ht (hV.bind _ _)
      (hW.bind _ _) htW hal hcell hvars hbind r.computations

end

/-! ## One view and matching fields -/

theorem Reaches.of_key {t : Template} {f g : String × Json} (h : Reaches t x f) (hkey : g.1 = f.1) :
    Reaches t x g := by
  rwa [Reaches, hkey]

/-- Where one field alone reaches a computation, what it finds is as at first, and what it leaves
stays. -/
theorem takeFields_settled (ht : V.template.Sound) (hrt : V.template.Routed) (hV : V.Shaped)
    (hal : V.template.Alone x) (hcell : cell ∈ x.cells) {pre post : List (String × Json)}
    (hpre : ∀ g ∈ pre, ¬ Reaches V.template x g) (hpost : ∀ g ∈ post, ¬ Reaches V.template x g)
    (f : String × Json) :
    (pre.foldl (takeField c upd) V).Agree V cell ∧
      ((pre ++ f :: post).foldl (takeField c upd) V).Agree
        ((pre.foldl (takeField c upd) V).takeField c upd f) cell ∧
      ∀ v ∈ x.vars, ((pre ++ f :: post).foldl (takeField c upd) V).values[v]? =
        ((pre.foldl (takeField c upd) V).takeField c upd f).values[v]? := by
  have htemplate : ((pre.foldl (takeField c upd) V).takeField c upd f).template = V.template := by
    rw [template_takeField, template_takeFields]
  have hshaped : (pre.foldl (takeField c upd) V).Shaped := hV.takeFields ht pre
  refine ⟨agree_takeFields_of_alone ht hrt hV hal hpre hcell, ?_, fun v hv => ?_⟩
  · rw [List.foldl_append, List.foldl_cons]
    refine agree_takeFields_of_alone (htemplate ▸ ht) (htemplate ▸ hrt)
      (hshaped.takeField (by rwa [template_takeFields]) f) (htemplate ▸ hal) ?_ hcell
    rwa [htemplate]
  · rw [List.foldl_append, List.foldl_cons]
    refine values_takeFields_of_not_bound fun g hg r hr b hb hbv => hpost g hg ?_
    rw [htemplate] at hr
    exact ⟨r, hr, b, hb, hbv ▸ hv⟩

section

variable {d : Draft} {name : String} {fs gs : List (String × Json)} (hd : d.Sound)
  (hV : V.template = d.finish name) (hs : V.Shaped) (hfs : Json.Apart fs) (hgs : Json.Apart gs)
  (hm : Json.Matched fs gs)
include hd hV hs hfs hgs hm

variable (c upd) in
/-- A variable takes what is found on the same way in matching fields, or no field binds it. -/
theorem values_matched (v : Var) :
    (∃ f ∈ fs, ∃ g ∈ gs, Json.Shuffled f.2 g.2 ∧ ∃ r ts, V.template.route? f.1 = some r ∧
        (v, ts) ∈ r.bindings ∧ (fs.foldl (takeField c upd) V).values[v]? = some (f.2.follow ts) ∧
        (gs.foldl (takeField c upd) V).values[v]? = some (g.2.follow ts)) ∨
      (fs.foldl (takeField c upd) V).values[v]? = V.values[v]? ∧
        (gs.foldl (takeField c upd) V).values[v]? = V.values[v]? := by
  by_cases hbound : ∃ f ∈ fs, ∃ r, V.template.route? f.1 = some r ∧ ∃ ts, (v, ts) ∈ r.bindings
  · obtain ⟨f, hf, r, hr, ts, hb⟩ := hbound
    obtain ⟨g, hg, hkey, hfg⟩ := hm.exists_right f hf
    have hr' := hV ▸ hr
    exact .inl ⟨f, hf, g, hg, hfg, r, ts, hr, hb,
      values_takeFields_of_mem hd hfs hV hs hf hr' hb,
      values_takeFields_of_mem hd hgs hV hs hg (hkey ▸ hr') hb⟩
  · refine .inr ⟨values_takeFields_of_not_bound ?_, values_takeFields_of_not_bound ?_⟩
    · rintro f hf r hr ⟨w, ts⟩ hb rfl
      exact hbound ⟨f, hf, r, hr, ts, hb⟩
    · rintro g hg r hr ⟨w, ts⟩ hb rfl
      obtain ⟨f, hf, hkey, _⟩ := hm.exists_left g hg
      exact hbound ⟨f, hf, r, hkey ▸ hr, ts, hb⟩

variable (hrt : V.template.Routed) (hal : V.template.Alone x) (hcell : cell ∈ x.cells)
  (hvars : ∀ v ∈ x.vars, (fs.foldl (takeField c upd) V).values[v]? =
    (gs.foldl (takeField c upd) V).values[v]?)
include hrt hal hcell hvars

/-- What reads one variable only is run by matching fields, from the same cells. -/
theorem agree_matched_of_one (hone : ∀ v ∈ x.vars, ∀ w ∈ x.vars, v = w) {f : String × Json}
    (hf : f ∈ fs) (hreach : Reaches V.template x f) :
    (fs.foldl (takeField c upd) V).Agree (gs.foldl (takeField c upd) V) cell := by
  have ht : V.template.Sound := hV ▸ hd.template name
  obtain ⟨g, hg, hkey, _⟩ := hm.exists_right f hf
  have hreach' := hreach.of_key hkey
  obtain ⟨pre, post, hsplit⟩ := List.append_of_mem hf
  obtain ⟨pre', post', hsplit'⟩ := List.append_of_mem hg
  rw [hV] at hreach hreach'
  obtain ⟨hpre, hpost⟩ := hreach.alone hd hfs hone hsplit
  obtain ⟨hpre', hpost'⟩ := hreach'.alone hd hgs hone hsplit'
  rw [← hV] at hpre hpost hpre' hpost'
  subst hsplit hsplit'
  obtain ⟨hA, hfinal, hvalues⟩ := takeFields_settled ht hrt hs hal hcell hpre hpost f
  obtain ⟨hB, hfinal', hvalues'⟩ := takeFields_settled ht hrt hs hal hcell hpre' hpost' g
  refine hfinal.trans (Agree.trans ?_ hfinal'.symm)
  have htemplate : ∀ es : List (String × Json),
      (es.foldl (takeField c upd) V).template = V.template := fun es => template_takeFields es V
  refine Agree.takeField (x := x) ?_ (hs.takeFields ht pre) (hs.takeFields ht pre') ?_ ?_ hcell
    hkey (fun v hv => ?_) (hA.trans hB.symm)
  · rwa [htemplate]
  · rw [htemplate, htemplate]
  · rwa [htemplate]
  · rw [← hvalues v hv, ← hvalues' v hv, hvars v hv]

/-- What is written for the same values is the same in both. -/
theorem agree_matched (hc : c.Sound) (hmt : V.template ∈ c.templates)
    (hxm : x ∈ V.template.computations) (hguard : x.IsGuarded) (ha : x.anchored? = none) :
    (fs.foldl (takeField c upd) V).Agree (gs.foldl (takeField c upd) V) cell := by
  have ht : V.template.Sound := hV ▸ hd.template name
  by_cases hreach : ∃ f ∈ fs, Reaches V.template x f
  · have hreach' : ∃ g ∈ gs, Reaches V.template x g := by
      obtain ⟨f, hf, hxf⟩ := hreach
      obtain ⟨g, hg, hkey, _⟩ := hm.exists_right f hf
      exact ⟨g, hg, hxf.of_key hkey⟩
    have hdone : (fs.foldl (takeField c upd) V).Done x :=
      done_takeFields hc hmt hrt hs hxm hal (.inr hreach)
    have hdone' : (gs.foldl (takeField c upd) V).Done x :=
      done_takeFields hc hmt hrt hs hxm hal (.inr hreach')
    cases x with
    | setText s value =>
      cases List.mem_singleton.mp hcell
      rw [Done, shown_congr hvars] at hdone
      exact hdone.trans hdone'.symm
    | setProperty s p value =>
      cases List.mem_singleton.mp hcell
      rw [Done, propertyValue_congr hvars] at hdone
      exact hdone.trans hdone'.symm
    | setAttribute s space key value =>
      cases List.mem_singleton.mp hcell
      rw [Done, shown_congr hvars] at hdone
      exact hdone.trans hdone'.symm
    | unlessFalse s key v setter =>
      obtain ⟨f, hf, hxf⟩ := hreach
      refine agree_matched_of_one hd hV hs hfs hgs hm hrt hal hcell hvars (fun w hw w' hw' => ?_) hf
        hxf
      have hvar : ∀ u ∈ (Computation.unlessFalse s key v setter).vars, u = v := by
        simp [Computation.vars, hguard.2]
      exact (hvar w hw).trans (hvar w' hw').symm
    | reconcile => cases ha
  · refine (agree_takeFields_of_alone ht hrt hs hal
      (fun f hf hxf => hreach ⟨f, hf, hxf⟩) hcell).trans
      (agree_takeFields_of_alone ht hrt hs hal (fun g hg hxg => ?_) hcell).symm
    obtain ⟨f, hf, hkey, _⟩ := hm.exists_left g hg
    exact hreach ⟨f, hf, hxg.of_key hkey.symm⟩

end

/-! ## Views that tally -/

/-- The views show the same and have the same values but for the order of fields, here and in all
nested views, of which there are as many. -/
inductive Tallies : View → View → Prop
  | intro {V W : View} (template_eq : V.template = W.template)
      (agree : ∀ cell, (∀ g, cell ≠ .group g) → V.Agree W cell)
      (values_length : V.values.length = W.values.length)
      (values : ∀ (v : Var) x y, V.values[v]? = some x → W.values[v]? = some y → x.Shuffled y)
      (lengths : V.groups.map List.length = W.groups.map List.length)
      (nested : ∀ (g : Group) (vs ws : List View), V.groups[g]? = some vs → W.groups[g]? = some ws →
        ∀ (k : Nat) (A B : View), vs[k]? = some A → ws[k]? = some B → Tallies A B) : Tallies V W

theorem Proper.tallies (h : Proper c V) : Tallies V V := by
  induction h with
  | intro _ _ _ _ ih =>
    refine .intro rfl (fun cell _ => .refl _ cell) rfl (fun v x y hx hy => ?_) rfl ?_
    · cases hx.symm.trans hy
      exact .refl x
    · intro g vs ws hvs hws k A B hA hB
      cases hvs.symm.trans hws
      cases hA.symm.trans hB
      exact ih vs (List.mem_of_getElem? hvs) A (List.mem_of_getElem? hA)

theorem Tallies.alike (h : Tallies V W) : Alike V W := by
  induction h with
  | intro template_eq agree _ _ lengths _ ih =>
    refine .intro template_eq (fun s => agree (.text s) (by intro g h; cases h))
      (fun s key => agree (.attr s key) (by intro g h; cases h))
      (fun s name => agree (.property s name) (by intro g h; cases h))
      (fun g vs ws hvs hws => ?_) ih
    have hlength := congrArg (·[g]?) lengths
    simpa [List.getElem?_map, hvs, hws] using hlength

/-- Items that differ in order only are rendered to views that tally. -/
theorem tallies_render {nested : String} {u : Template} (hu : c.get? nested = some u)
    {xs ys : List Json} (hlength : xs.length = ys.length) {vs : List View}
    (h : ∀ (k : Nat) x y, xs[k]? = some x → ys[k]? = some y →
      Tallies (upd (vs[k]?.getD (new u)) x) (upd (vs[k]?.getD (new u)) y)) :
    (render c upd nested xs vs).length = (render c upd nested ys vs).length ∧
      ∀ (k : Nat) A B, (render c upd nested xs vs)[k]? = some A →
        (render c upd nested ys vs)[k]? = some B → Tallies A B := by
  refine ⟨by rw [length_render hu, length_render hu, hlength], fun k A B hA hB => ?_⟩
  rw [getElem?_render hu] at hA hB
  obtain ⟨x, hx, rfl⟩ := Option.map_eq_some_iff.mp hA
  obtain ⟨y, hy, rfl⟩ := Option.map_eq_some_iff.mp hB
  exact h k x y hx hy

section

variable {o : Origin} {n : Nat} {fs gs : List (String × Json)} (hc : c.Built o) (ho : o.Distinct)
  (hm : V.template ∈ c.templates.take (n + 1)) (hV : Proper c V) (hfs : Json.Apart fs)
  (hgs : Json.Apart gs) (hmatched : Json.Matched fs gs) (hclear : ∀ f ∈ fs, f.2.isClear = true)
include hc hV hfs hgs hmatched hclear

variable (upd) in
theorem values_shuffled (v : Var) {x y : Json}
    (hx : (fs.foldl (takeField c upd) V).values[v]? = some x)
    (hy : (gs.foldl (takeField c upd) V).values[v]? = some y) : x.Shuffled y := by
  obtain ⟨d, _, hd, hready⟩ := hc.exists_draft hV.template_mem
  rcases values_matched c upd hready.sound hd hV.shaped hfs hgs hmatched v with
    ⟨f, hf, g, _, hfg, _, ts, _, _, hx', hy'⟩ | ⟨hx', hy'⟩
  · cases hx.symm.trans hx'
    cases hy.symm.trans hy'
    exact hfg.follow (hclear f hf) ts
  · cases (hx'.symm.trans hx).symm.trans (hy'.symm.trans hy)
    exact .refl x

variable (hleg : V.template.Legible c (.obj fs))
include hleg

variable (upd) in
/-- What is read for a text, an attribute or a property is the same. -/
theorem values_eq_of_legible (hx : x ∈ V.template.computations) (ha : x.anchored? = none) :
    ∀ v ∈ x.vars, (fs.foldl (takeField c upd) V).values[v]? =
      (gs.foldl (takeField c upd) V).values[v]? := by
  intro v hv
  obtain ⟨d, _, hd, hready⟩ := hc.exists_draft hV.template_mem
  rcases values_matched c upd hready.sound hd hV.shaped hfs hgs hmatched v with
    ⟨f, hf, g, _, hfg, r, ts, hr, hb, hx', hy'⟩ | ⟨hx', hy'⟩
  · cases hleg with
    | other no_object => exact absurd rfl (no_object fs)
    | object scalars _ =>
      have hscalar := scalars f hf r hr v ts hb x hx ha hv
      rw [hx', hy', (hfg.follow (hclear f hf) ts).eq_of_isScalar hscalar]
  · rw [hx', hy']

include ho in
theorem agree_of_legible (hcell : ∀ g, cell ≠ .group g) :
    (fs.foldl (takeField c upd) V).Agree (gs.foldl (takeField c upd) V) cell := by
  have hmt := hV.template_mem
  have ht := hc.sound.template _ hmt
  by_cases hwritten : ∃ x ∈ V.template.computations, cell ∈ x.cells
  · obtain ⟨x, hx, hxcell⟩ := hwritten
    obtain ⟨d, _, hd, hready⟩ := hc.exists_draft hmt
    have ha : x.anchored? = none := by
      cases x with
      | reconcile dir name s v g => exact absurd (List.mem_singleton.mp hxcell) (hcell g)
      | setText | setProperty | setAttribute | unlessFalse => rfl
    have hguard : x.IsGuarded := hready.isGuarded (by rw [hd] at hx; exact hx)
    exact agree_matched hready.sound hd hV.shaped hfs hgs hmatched (hc.routed hmt)
      (hc.alone ho hmt hx) hxcell
      (values_eq_of_legible upd hc hV hfs hgs hmatched hclear hleg hx ha) hc.sound hmt hx hguard ha
  · have hno : ∀ es : List (String × Json), (es.foldl (takeField c upd) V).Agree V cell :=
      fun es => agree_takeFields ht (hc.routed hmt) hV.shaped fun _ _ x hx hxcell =>
        absurd ⟨x, hx, hxcell⟩ hwritten
    exact (hno fs).trans (hno gs).symm

include ho hm in
theorem tallies_groups
    (hupd : ∀ A x y, A.template ∈ c.templates.take n → Proper c A → x.Shuffled y →
      x.isClear = true → A.template.Legible c x → Tallies (upd A x) (upd A y))
    {g : Group} {vs' ws' : List View} (hvs' : (fs.foldl (takeField c upd) V).groups[g]? = some vs')
    (hws' : (gs.foldl (takeField c upd) V).groups[g]? = some ws') :
    vs'.length = ws'.length ∧
      ∀ (k : Nat) A B, vs'[k]? = some A → ws'[k]? = some B → Tallies A B := by
  have hmt := hV.template_mem
  have hs := hV.shaped
  have ht := hc.sound.template _ hmt
  have hlt := (List.getElem?_eq_some_iff.mp hvs').1
  rw [(hs.takeFields ht fs).groups_length, template_takeFields, ← hs.groups_length] at hlt
  have hg : V.groups[g]? = some _ := List.getElem?_eq_getElem hlt
  obtain ⟨dir, nested, s, v, hx⟩ := hs.exists_reconcile ht hg
  by_cases hreach : ∃ f ∈ fs, Reaches V.template (.reconcile dir nested s v g) f
  · obtain ⟨f, hf, r, hr, ⟨w, ts⟩, hb, hw⟩ := hreach
    obtain rfl : w = v := List.mem_singleton.mp hw
    obtain ⟨f', hf', hkey, hff'⟩ := hmatched.exists_right f hf
    obtain ⟨d, _, hd, hready⟩ := hc.exists_draft hmt
    obtain ⟨u, hu, hget⟩ := hc.sound.exists_nested hm hx
    have hxd := hx
    have hal := hc.alone ho hmt hx
    have hr' := hr
    rw [hd] at hxd hal hr'
    cases hvs'.symm.trans
      (groups_takeFields_of_mem hready.sound hfs hd hs hf hr' hxd hal hg hb)
    cases hws'.symm.trans
      (groups_takeFields_of_mem hready.sound hgs hd hs hf' (hkey ▸ hr') hxd hal hg hb)
    have hshuffled := hff'.follow (hclear f hf) ts
    refine tallies_render hget (hshuffled.items dir).1 fun k x y hxk hyk => ?_
    have hxi := List.mem_of_getElem? hxk
    obtain ⟨htmpl, hproper⟩ := hV.groups.getD hx hg hget (proper_new (List.mem_of_mem_take hu)) k
    refine hupd _ x y (by rwa [htmpl]) hproper ((hshuffled.items dir).2 k x y hxk hyk) ?_ ?_
    · exact Json.isClear_items dir (Json.isClear_follow ts (hclear f hf)) x hxi
    · rw [htmpl]
      cases hleg with
      | other no_object => exact absurd rfl (no_object fs)
      | object _ items => exact items f hf r hr w ts hb dir nested s g u hx hget x hxi
  · have hkept : ∀ es : List (String × Json), (∀ e ∈ es, ∃ f ∈ fs, f.1 = e.1) →
        (es.foldl (takeField c upd) V).groups[g]? = V.groups[g]? := by
      intro es hes
      refine agree_takeFields_of_alone ht (hc.routed hmt) hs (hc.alone ho hmt hx)
        (fun e he hxe => ?_) (List.mem_singleton_self (Cell.group g))
      obtain ⟨f, hf, hkey⟩ := hes e he
      exact hreach ⟨f, hf, hxe.of_key hkey⟩
    have hgs' : ∀ e ∈ gs, ∃ f ∈ fs, f.1 = e.1 := by
      intro e he
      obtain ⟨f, hf, hkey, _⟩ := hmatched.exists_left e he
      exact ⟨f, hf, hkey.symm⟩
    cases hvs'.symm.trans ((hkept fs fun f hf => ⟨f, hf, rfl⟩).trans hg)
    cases hws'.symm.trans ((hkept gs hgs').trans hg)
    refine ⟨rfl, fun k A B hA hB => ?_⟩
    cases hA.symm.trans hB
    exact (hV.groups dir nested s v g _ hx hg A (List.mem_of_getElem? hA)).2.tallies

end

/-- What updates with data in two orders come to, given what nested ones come to. -/
theorem tallies_updateWith {o : Origin} (hc : c.Built o) (ho : o.Distinct) {n : Nat}
    (hupd : ∀ A x y, A.template ∈ c.templates.take n → Proper c A → x.Shuffled y →
      x.isClear = true → A.template.Legible c x → Tallies (upd A x) (upd A y))
    (hm : V.template ∈ c.templates.take (n + 1)) (hV : Proper c V) {data data' : Json}
    (h : data.Shuffled data') (hdata : data.isClear = true) (hleg : V.template.Legible c data) :
    Tallies (V.updateWith c upd data) (V.updateWith c upd data') := by
  have hdata' := h.isClear hdata
  cases data with
  | obj fs =>
    cases data' with
    | obj gs =>
      obtain ⟨hfs, hclear⟩ := Json.isClear_obj_iff.mp hdata
      obtain ⟨hgs, _⟩ := Json.isClear_obj_iff.mp hdata'
      have hmatched := h.matched
      have ht := hc.sound.template _ hV.template_mem
      have htemplate : ∀ es : List (String × Json),
          (es.foldl (takeField c upd) V).template = V.template := fun es => template_takeFields es V
      have hshaped : ∀ es : List (String × Json), (es.foldl (takeField c upd) V).Shaped :=
        fun es => hV.shaped.takeFields ht es
      have hgroups : ∀ (g : Group) (vs ws : List View),
          (fs.foldl (takeField c upd) V).groups[g]? = some vs →
          (gs.foldl (takeField c upd) V).groups[g]? = some ws → vs.length = ws.length ∧
            ∀ (k : Nat) A B, vs[k]? = some A → ws[k]? = some B → Tallies A B :=
        fun g vs ws => tallies_groups hc ho hm hV hfs hgs hmatched hclear hleg hupd
      refine .intro ((htemplate fs).trans (htemplate gs).symm) (fun cell hcell => ?_) ?_
        (fun v x y hx hy => ?_) (List.ext_getElem ?_ fun g hg hg' => ?_) fun g vs ws hvs hws =>
          (hgroups g vs ws hvs hws).2
      · exact agree_of_legible hc ho hV hfs hgs hmatched hclear hleg hcell
      · exact ((hshaped fs).values_length.trans (by rw [htemplate, htemplate])).trans
          (hshaped gs).values_length.symm
      · exact values_shuffled upd hc hV hfs hgs hmatched hclear v hx hy
      · rw [List.length_map, List.length_map]
        exact ((hshaped fs).groups_length.trans (by rw [htemplate, htemplate])).trans
          (hshaped gs).groups_length.symm
      · rw [List.getElem_map, List.getElem_map]
        exact (hgroups g _ _ (List.getElem?_eq_getElem _) (List.getElem?_eq_getElem _)).1
    | null | bool | num | str | arr => cases h
  | null | bool | num | str | arr =>
    cases h
    exact hV.tallies

/-- Data in another order of fields leaves a view that tallies. -/
theorem tallies_updateTo {o : Origin} (hc : c.Built o) (ho : o.Distinct) {n : Nat}
    (hm : V.template ∈ c.templates.take n) (hV : Proper c V) {data data' : Json}
    (h : data.Shuffled data') (hdata : data.isClear = true) (hleg : V.template.Legible c data) :
    Tallies (updateTo c n V data) (updateTo c n V data') := by
  induction n generalizing V data data' with
  | zero => cases hm
  | succ n ih =>
    exact tallies_updateWith hc ho (fun _ _ _ hA hproper hxy hx hA' => ih hA hproper hxy hx hA') hm
      hV h hdata hleg

end View
end Stencil

import Stencil.Proofs.Instance.Cells

/-! Updates leave nothing stale. When a route binds a variable it runs whatever reads the
variable, so a computation that was done before an update is done after it, provided that
no other computation writes to its cells. What is done in new views is therefore done in
all views, nested ones included. -/
namespace Stencil
open Binding

namespace Template

/-- A route runs what reads one of the variables that it binds, and nothing else. -/
structure Routed (t : Template) : Prop where
  mem_computations : ∀ r ∈ t.routes, ∀ (k : Nat) x, t.computations[k]? = some x →
    (k ∈ r.computations ↔ ∃ b ∈ r.bindings, b.1 ∈ x.vars)

/-- No other computation writes to the cells of this one. -/
def Alone (t : Template) (x : Computation) : Prop :=
  ∀ y ∈ t.computations, y = x ∨ ∀ cell ∈ x.cells, cell ∉ y.cells

end Template

theorem Catalog.Sound.exists_get? {c : Catalog} (hc : c.Sound) {t : Template} (ht : t ∈ c.templates)
    {dir : Directive} {name : String} {s : Slot} {v : Var} {g : Group}
    (hx : .reconcile dir name s v g ∈ t.computations) :
    ∃ u ∈ c.templates, c.get? name = some u := by
  obtain ⟨k, hk⟩ := List.getElem?_of_mem ht
  obtain ⟨u, hu, hget⟩ := hc.nested k t hk dir name s v g hx
  exact ⟨u, List.mem_of_mem_take hu, hget⟩

namespace View

variable {c : Catalog} {upd : View → Json → View} {V : View} {x : Computation} {cell : Cell}

/-! ## Templates and shapes stay -/

@[simp] theorem template_runComputation (V : View) (k : Nat) :
    (V.runComputation c upd k).template = V.template := by
  unfold runComputation
  split
  · exact template_compute _ V
  · rfl

@[simp] theorem template_runAll (ks : List Nat) (V : View) :
    (ks.foldl (runComputation c upd) V).template = V.template := by
  induction ks generalizing V with
  | nil => rfl
  | cons k ks ih => rw [List.foldl_cons, ih, template_runComputation]

@[simp] theorem template_takeField (V : View) (f : String × Json) :
    (V.takeField c upd f).template = V.template := by
  unfold takeField
  split
  · exact template_runAll _ _
  · rfl

@[simp] theorem template_takeFields (fs : List (String × Json)) (V : View) :
    (fs.foldl (takeField c upd) V).template = V.template := by
  induction fs generalizing V with
  | nil => rfl
  | cons f fs ih => rw [List.foldl_cons, ih, template_takeField]

@[simp] theorem template_updateWith (V : View) (data : Json) :
    (V.updateWith c upd data).template = V.template := by
  cases data with
  | obj fields => exact template_takeFields fields V
  | _ => rfl

@[simp] theorem template_updateTo (n : Nat) (V : View) (data : Json) :
    (updateTo c n V data).template = V.template := by
  cases n with
  | zero => rfl
  | succ n => exact template_updateWith V data

theorem values_runAll (ks : List Nat) (V : View) :
    (ks.foldl (runComputation c upd) V).values = V.values := by
  induction ks generalizing V with
  | nil => rfl
  | cons k ks ih =>
    rw [List.foldl_cons, ih, runComputation]
    split
    · exact values_compute _ V
    · rfl

theorem shaped_new (t : Template) : (new t).Shaped where
  held := t.held_seeds.wires t.wires
  values_length := List.length_replicate
  groups_length := List.length_replicate

theorem Shaped.bind (h : V.Shaped) (bs : List (Var × List String)) (data : Json) :
    (V.bind bs data).Shaped where
  held := h.held
  values_length := by
    have hlen : ∀ xs : List Json,
        (bs.foldl (fun xs b => xs.set b.1 (data.follow b.2)) xs).length = xs.length := by
      induction bs with
      | nil => exact fun _ => rfl
      | cons b bs ih => exact fun xs => (ih _).trans List.length_set
    exact (hlen V.values).trans h.values_length
  groups_length := h.groups_length

theorem Shaped.runComputation (h : V.Shaped) (ht : V.template.Sound) (k : Nat) :
    (V.runComputation c upd k).Shaped := by
  unfold View.runComputation
  split
  · rename_i x hx
    exact h.compute (ht.fits x (List.mem_of_getElem? hx))
  · exact h

theorem Shaped.runAll (h : V.Shaped) (ht : V.template.Sound) (ks : List Nat) :
    (ks.foldl (View.runComputation c upd) V).Shaped := by
  induction ks generalizing V with
  | nil => exact h
  | cons k ks ih => exact ih (h.runComputation ht k) (by rwa [template_runComputation])

theorem Shaped.takeField (h : V.Shaped) (ht : V.template.Sound) (f : String × Json) :
    (V.takeField c upd f).Shaped := by
  unfold View.takeField
  split
  · exact (h.bind _ _).runAll ht _
  · exact h

theorem Shaped.takeFields (h : V.Shaped) (ht : V.template.Sound) (fs : List (String × Json)) :
    (fs.foldl (View.takeField c upd) V).Shaped := by
  induction fs generalizing V with
  | nil => exact h
  | cons f fs ih => exact ih (h.takeField ht f) (by rwa [template_takeField])

/-- What binding and computing keep is kept by all fields of the data. -/
theorem takeFields_keeps {P : View → Prop} (hbind : ∀ W bs data, P W → P (W.bind bs data))
    (hcompute : ∀ W y, W.template = V.template → W.Shaped → y ∈ V.template.computations → P W →
      P (W.compute c upd y))
    (ht : V.template.Sound) (hV : V.Shaped) (h : P V) (fs : List (String × Json)) :
    P (fs.foldl (takeField c upd) V) := by
  have hrun : ∀ (ks : List Nat) (W : View), W.template = V.template → W.Shaped → P W →
      P (ks.foldl (runComputation c upd) W) := by
    intro ks
    induction ks with
    | nil => exact fun W _ _ h => h
    | cons k ks ih =>
      intro W hW hs h
      refine ih _ (by rw [template_runComputation, hW]) (hs.runComputation (hW ▸ ht) k) ?_
      unfold runComputation
      split
      · rename_i y hy
        exact hcompute W y hW hs (hW ▸ List.mem_of_getElem? hy) h
      · exact h
  have hfields : ∀ (fs : List (String × Json)) (W : View), W.template = V.template →
      W.Shaped → P W → P (fs.foldl (takeField c upd) W) := by
    intro fs
    induction fs with
    | nil => exact fun W _ _ h => h
    | cons f fs ih =>
      intro W hW hs h
      refine ih _ (by rw [template_takeField, hW]) (hs.takeField (hW ▸ ht) f) ?_
      unfold takeField
      split
      · exact hrun _ _ hW (hs.bind _ _) (hbind W _ _ h)
      · exact h
  exact hfields fs V rfl hV h

/-! ## What is done stays done -/

theorem bind_getElem?_of_not_mem {bs : List (Var × List String)} {v : Var}
    (hv : ∀ b ∈ bs, b.1 ≠ v) (data : Json) (V : View) :
    (V.bind bs data).values[v]? = V.values[v]? := by
  unfold bind
  dsimp only
  induction bs generalizing V with
  | nil => rfl
  | cons b bs ih =>
    have := ih (fun b' hb => hv b' (List.mem_cons_of_mem _ hb))
      { V with values := V.values.set b.1 (data.follow b.2) }
    rw [List.foldl_cons, this, List.getElem?_set_ne (hv b List.mem_cons_self)]

theorem done_runComputation (hc : c.Sound) (hm : V.template ∈ c.templates) (h : V.Shaped)
    (hal : V.template.Alone x) {k : Nat} (hx : V.Done x ∨ V.template.computations[k]? = some x) :
    (V.runComputation c upd k).Done x := by
  have ht := hc.template _ hm
  unfold runComputation
  cases hk : V.template.computations[k]? with
  | none =>
    rw [hk] at hx
    exact hx.resolve_right nofun
  | some y =>
    have hy := List.mem_of_getElem? hk
    by_cases hyx : y = x
    · subst hyx
      refine done_compute h (ht.fits y hy) fun dir name s v g he => ?_
      obtain ⟨u, _, hu⟩ := hc.exists_get? hm (he ▸ hy)
      exact ⟨u, hu⟩
    · have hx : V.Done x := hx.resolve_right fun he => hyx (Option.some.inj (hk.symm.trans he))
      have hcells := (hal y hy).resolve_left hyx
      exact hx.congr (fun cell hcell => agree_compute h (ht.fits y hy) (hcells cell hcell))
        fun v _ => by rw [values_compute]

/-- After a run of computations all that was done, or was among them, is done. -/
theorem done_runAll (hc : c.Sound) (hm : V.template ∈ c.templates) (h : V.Shaped)
    (hal : V.template.Alone x) {ks : List Nat}
    (hx : V.Done x ∨ ∃ k ∈ ks, V.template.computations[k]? = some x) :
    (ks.foldl (runComputation c upd) V).Done x := by
  induction ks generalizing V with
  | nil => exact hx.resolve_right fun ⟨k, hk, _⟩ => nomatch hk
  | cons k ks ih =>
    have ht := hc.template _ hm
    refine ih (by rwa [template_runComputation]) (h.runComputation ht k)
      (by rwa [template_runComputation]) ?_
    rw [template_runComputation]
    rcases hx with hx | ⟨k', hk', hx⟩
    · exact .inl (done_runComputation hc hm h hal (.inl hx))
    · rcases List.mem_cons.mp hk' with rfl | hk'
      · exact .inl (done_runComputation hc hm h hal (.inr hx))
      · exact .inr ⟨k', hk', hx⟩

/-- A route does whatever reads one of the variables that it binds. -/
theorem done_follow (hc : c.Sound) (hm : V.template ∈ c.templates) (hrt : V.template.Routed)
    (h : V.Shaped) (hxm : x ∈ V.template.computations) (hal : V.template.Alone x) {r : Route}
    (hr : r ∈ V.template.routes) (data : Json)
    (hx : V.Done x ∨ ∃ b ∈ r.bindings, b.1 ∈ x.vars) : (V.follow c upd r data).Done x := by
  obtain ⟨k, hk⟩ := List.getElem?_of_mem hxm
  refine done_runAll hc (V := V.bind r.bindings data) hm (h.bind _ _) hal ?_
  by_cases hb : ∃ b ∈ r.bindings, b.1 ∈ x.vars
  · obtain ⟨b, hb, hv⟩ := hb
    exact .inr ⟨k, (hrt.mem_computations r hr k x hk).mpr ⟨b, hb, hv⟩, hk⟩
  · refine .inl ((hx.resolve_right hb).congr (fun cell _ => ?_) fun v hv => ?_)
    · cases cell <;> rfl
    · refine bind_getElem?_of_not_mem (fun b hbm he => ?_) data V
      exact hb ⟨b, hbm, he ▸ hv⟩

/-- A field reaches a computation when its route binds one of its variables. -/
def Reaches (t : Template) (x : Computation) (f : String × Json) : Prop :=
  ∃ r, t.route? f.1 = some r ∧ ∃ b ∈ r.bindings, b.1 ∈ x.vars

/-- After all fields whatever was done, or was reached by one of them, is done. -/
theorem done_takeFields (hc : c.Sound) (hm : V.template ∈ c.templates) (hrt : V.template.Routed)
    (h : V.Shaped) (hxm : x ∈ V.template.computations) (hal : V.template.Alone x)
    {fs : List (String × Json)} (hx : V.Done x ∨ ∃ f ∈ fs, Reaches V.template x f) :
    (fs.foldl (takeField c upd) V).Done x := by
  induction fs generalizing V with
  | nil => exact hx.resolve_right fun ⟨f, hf, _⟩ => nomatch hf
  | cons f fs ih =>
    have hstep : V.Done x ∨ Reaches V.template x f → (V.takeField c upd f).Done x := by
      intro hx
      unfold takeField
      cases hr : V.template.route? f.1 with
      | none => exact hx.resolve_right fun ⟨r, hr', _⟩ => nomatch hr.symm.trans hr'
      | some r =>
        refine done_follow hc hm hrt h hxm hal (List.mem_of_find?_eq_some hr) f.2 (hx.imp_right ?_)
        rintro ⟨r', hr', hb⟩
        cases hr.symm.trans hr'
        exact hb
    refine ih (by rwa [template_takeField]) (by rwa [template_takeField])
      (h.takeField (hc.template _ hm) f) (by rwa [template_takeField])
      (by rwa [template_takeField]) ?_
    rw [template_takeField]
    rcases hx with hx | ⟨f', hf', hx⟩
    · exact .inl (hstep (.inl hx))
    · rcases List.mem_cons.mp hf' with rfl | hf'
      · exact .inl (hstep (.inr hx))
      · exact .inr ⟨f', hf', hx⟩

/-! ## What is not reached stays -/

theorem agree_runAll (ht : V.template.Sound) (h : V.Shaped) {ks : List Nat}
    (hks : ∀ k ∈ ks, ∀ y, V.template.computations[k]? = some y → cell ∉ y.cells) :
    (ks.foldl (runComputation c upd) V).Agree V cell := by
  induction ks generalizing V with
  | nil => exact .refl V cell
  | cons k ks ih =>
    have hstep : (V.runComputation c upd k).Agree V cell := by
      unfold runComputation
      split
      · rename_i y hy
        exact agree_compute h (ht.fits y (List.mem_of_getElem? hy)) (hks k List.mem_cons_self y hy)
      · exact .refl V cell
    refine Agree.trans (ih (by rwa [template_runComputation]) (h.runComputation ht k) ?_) hstep
    rw [template_runComputation]
    exact fun k' hk' => hks k' (List.mem_cons_of_mem _ hk')

/-- A field leaves a cell alone when it reaches nothing that writes to it. -/
theorem agree_takeField (ht : V.template.Sound) (hrt : V.template.Routed) (h : V.Shaped)
    {f : String × Json}
    (hno : ∀ y ∈ V.template.computations, cell ∈ y.cells → ¬ Reaches V.template y f) :
    (V.takeField c upd f).Agree V cell := by
  unfold takeField
  cases hr : V.template.route? f.1 with
  | none => exact .refl V cell
  | some r =>
    have hbind : (V.bind r.bindings f.2).Agree V cell := by cases cell <;> rfl
    refine Agree.trans (agree_runAll (V := V.bind r.bindings f.2) ht (h.bind _ _) ?_) hbind
    intro k hk y hy hcell
    refine hno y (List.mem_of_getElem? hy) hcell ⟨r, hr, ?_⟩
    exact (hrt.mem_computations r (List.mem_of_find?_eq_some hr) k y hy).mp hk

theorem agree_takeFields (ht : V.template.Sound) (hrt : V.template.Routed) (h : V.Shaped)
    {fs : List (String × Json)}
    (hno : ∀ f ∈ fs, ∀ y ∈ V.template.computations, cell ∈ y.cells → ¬ Reaches V.template y f) :
    (fs.foldl (takeField c upd) V).Agree V cell := by
  induction fs generalizing V with
  | nil => exact .refl V cell
  | cons f fs ih =>
    have hstep : (V.takeField c upd f).Agree V cell :=
      agree_takeField ht hrt h (hno f List.mem_cons_self)
    refine Agree.trans (ih ?_ ?_ (h.takeField ht f) ?_) hstep <;> rw [template_takeField]
    · exact ht
    · exact hrt
    · exact fun g hg => hno g (List.mem_cons_of_mem _ hg)

/-- The cells of a computation that no field reaches, and no other computation writes to. -/
theorem agree_takeFields_of_alone (ht : V.template.Sound) (hrt : V.template.Routed) (h : V.Shaped)
    (hal : V.template.Alone x) {fs : List (String × Json)}
    (hno : ∀ f ∈ fs, ¬ Reaches V.template x f) (hcell : cell ∈ x.cells) :
    (fs.foldl (takeField c upd) V).Agree V cell := by
  refine agree_takeFields ht hrt h fun f hf y hy hycell => ?_
  obtain rfl : y = x := (hal y hy).resolve_right fun hne => hne cell hcell hycell
  exact hno f hf

/-- Fields leave a variable alone when none of their routes binds it. -/
theorem values_takeFields_of_not_bound {v : Var} {fs : List (String × Json)}
    (hno : ∀ f ∈ fs, ∀ r, V.template.route? f.1 = some r → ∀ b ∈ r.bindings, b.1 ≠ v) :
    (fs.foldl (takeField c upd) V).values[v]? = V.values[v]? := by
  induction fs generalizing V with
  | nil => rfl
  | cons f fs ih =>
    have hstep : (V.takeField c upd f).values[v]? = V.values[v]? := by
      unfold takeField
      split
      · rename_i r hr
        rw [follow, values_runAll]
        exact bind_getElem?_of_not_mem (hno f List.mem_cons_self r hr) f.2 V
      · rfl
    rw [List.foldl_cons, ih ?_, hstep]
    rw [template_takeField]
    exact fun g hg => hno g (List.mem_cons_of_mem _ hg)

/-! ## Nested views -/

/-- The views in the groups are of the templates that the anchors name, and all are `P`. -/
def Groups (c : Catalog) (P : View → Prop) (V : View) : Prop :=
  ∀ dir name s v g vs, .reconcile dir name s v g ∈ V.template.computations →
    V.groups[g]? = some vs →
    ∀ W ∈ vs, c.get? name = some W.template ∧ P W

theorem groups_compute (hx : V.template.Fits x) (ha : x.anchored? = none) :
    (V.compute c upd x).groups = V.groups := by
  induction x with
  | unlessFalse s name v setter ih =>
    rw [compute]
    split
    · cases setter <;> rfl
    · exact ih hx.2.2.2 hx.2.2.1
  | reconcile => cases ha
  | _ => rfl

variable {P : View → Prop}

theorem mem_render {name : String} {t : Template} (ht : c.get? name = some t) {items : List Json}
    {vs : List View} {W : View} (hW : W ∈ render c upd name items vs) :
    ∃ U data, W = upd U data ∧ (U ∈ vs ∨ U = new t) := by
  rw [render, ht, List.mem_append] at hW
  rcases hW with hW | hW
  · rw [← List.map_uncurry_zip_eq_zipWith] at hW
    obtain ⟨⟨U, data⟩, hU, rfl⟩ := List.mem_map.mp hW
    exact ⟨U, data, rfl, .inl (List.of_mem_zip hU).1⟩
  · obtain ⟨data, _, rfl⟩ := List.mem_map.mp hW
    exact ⟨new t, data, rfl, .inr rfl⟩

section

variable (hc : c.Sound) (hnew : ∀ t ∈ c.templates, P (new t))
  (hupd : ∀ W data, P W → P (upd W data)) (htemplate : ∀ W data, (upd W data).template = W.template)
include hc hnew hupd htemplate

/-- Nested views stay what they are while a computation runs. -/
theorem Groups.compute (hm : V.template ∈ c.templates) (h : Groups c P V)
    (hx : x ∈ V.template.computations) : Groups c P (V.compute c upd x) := by
  have ht := hc.template _ hm
  have hfits := ht.fits x hx
  intro dir name s v g vs hy hg W hW
  rw [template_compute] at hy
  cases ha : x.anchored? with
  | none =>
    rw [groups_compute hfits ha] at hg
    exact h dir name s v g vs hy hg W hW
  | some sg =>
    obtain ⟨dir', name', s', v', g', rfl⟩ : ∃ dir' name' s' v' g',
        x = .reconcile dir' name' s' v' g' := by
      cases x with
      | reconcile dir' name' s' v' g' => exact ⟨_, _, _, _, _, rfl⟩
      | _ => cases ha
    by_cases hgg : g' = g
    · subst hgg
      cases ht.eq_of_group hx hy
      obtain ⟨u, hu, hget⟩ := hc.exists_get? hm hx
      have hlt : g' < V.groups.length := by
        have := (List.getElem?_eq_some_iff.mp hg).1
        rwa [View.compute, List.length_modify] at this
      have hvs : render c upd name (dir.items (V.value v)) V.groups[g'] = vs := by
        simpa [View.compute, List.getElem?_eq_getElem hlt] using hg
      obtain ⟨U, data, rfl, hU⟩ := mem_render hget (hvs ▸ hW)
      rw [htemplate]
      rcases hU with hU | rfl
      · obtain ⟨hUt, hUP⟩ := h _ _ _ _ _ _ hx (List.getElem?_eq_getElem hlt) U hU
        exact ⟨hUt, hupd U data hUP⟩
      · exact ⟨hget, hupd _ data (hnew u hu)⟩
    · refine h dir name s v g vs hy ?_ W hW
      simpa [View.compute, List.getElem?_modify, hgg] using hg

theorem Groups.takeFields (hm : V.template ∈ c.templates) (hs : V.Shaped) (h : Groups c P V)
    (fields : List (String × Json)) : Groups c P (fields.foldl (takeField c upd) V) := by
  refine takeFields_keeps (fun W bs d h => h) (fun W y hW _ hy h => ?_)
    (hc.template _ hm) hs h fields
  exact h.compute hc hnew hupd htemplate (hW ▸ hm) (hW ▸ hy)

end

/-- Every group has its anchor. -/
theorem Shaped.exists_reconcile (hs : V.Shaped) (ht : V.template.Sound) {g : Group} {vs : List View}
    (hg : V.groups[g]? = some vs) :
    ∃ dir name s v, .reconcile dir name s v g ∈ V.template.computations := by
  have hlt : g < V.template.groupCount := hs.groups_length ▸ (List.getElem?_eq_some_iff.mp hg).1
  obtain ⟨s, ha⟩ := ht.exists_anchor hlt
  obtain ⟨dir, name, v, hx⟩ := Template.mem_anchored.mp ha
  exact ⟨dir, name, s, v, hx⟩

theorem Groups.forall_mem (h : Groups c P V) (ht : V.template.Sound) (hs : V.Shaped) :
    ∀ vs ∈ V.groups, ∀ W ∈ vs, P W := by
  intro vs hvs W hW
  obtain ⟨g, hg⟩ := List.getElem?_of_mem hvs
  obtain ⟨dir, name, s, v, hx⟩ := hs.exists_reconcile ht hg
  exact (h dir name s v g vs hx hg W hW).2

end View

/-! ## Views without stale parts -/

/-- The computation is done in new views, and no other one interferes with it. -/
structure Template.Steady (t : Template) (x : Computation) : Prop where
  mem : x ∈ t.computations
  alone : t.Alone x
  new : (View.new t).Done x

namespace View

/-- Every steady computation is done, here and in all nested views. -/
inductive Current (c : Catalog) : View → Prop
  | intro {V : View} (template_mem : V.template ∈ c.templates) (shaped : V.Shaped)
      (done : ∀ x, V.template.Steady x → V.Done x)
      (templates : Groups c (fun _ => True) V)
      (nested : ∀ vs ∈ V.groups, ∀ W ∈ vs, Current c W) : Current c V

variable {c : Catalog} {V : View}

theorem Current.template_mem (h : Current c V) : V.template ∈ c.templates := by
  cases h with
  | intro h => exact h

theorem Current.shaped (h : Current c V) : V.Shaped := by
  cases h with
  | intro _ h => exact h

theorem current_new {t : Template} (ht : t ∈ c.templates) : Current c (new t) := by
  have hnil : ∀ vs ∈ (new t).groups, vs = [] := fun vs hvs => List.eq_of_mem_replicate hvs
  refine .intro ht (shaped_new t) (fun x hx => hx.new) ?_ ?_
  · intro dir name s v g vs _ hg W hW
    rw [hnil vs (List.mem_of_getElem? hg)] at hW
    cases hW
  · intro vs hvs W hW
    rw [hnil vs hvs] at hW
    cases hW

theorem Current.groups (h : Current c V) : Groups c (Current c) V := by
  cases h with
  | intro _ _ _ templates nested =>
    intro dir name s v g vs hx hg W hW
    exact ⟨(templates dir name s v g vs hx hg W hW).1, nested vs (List.mem_of_getElem? hg) W hW⟩

/-- What one update leaves up to date, given that nested updates do. -/
theorem Current.updateWith (hc : c.Sound) (hrt : ∀ t ∈ c.templates, t.Routed)
    {upd : View → Json → View} (hupd : ∀ W data, Current c W → Current c (upd W data))
    (htemplate : ∀ W data, (upd W data).template = W.template) (h : Current c V) (data : Json) :
    Current c (V.updateWith c upd data) := by
  cases data with
  | obj fields =>
    have hgroups := h.groups
    cases h with
    | intro template_mem shaped done =>
      have ht := hc.template _ template_mem
      have htmpl : (fields.foldl (takeField c upd) V).template = V.template :=
        template_takeFields fields V
      have hshaped : (fields.foldl (takeField c upd) V).Shaped := shaped.takeFields ht fields
      replace hgroups : Groups c (Current c) (fields.foldl (takeField c upd) V) :=
        hgroups.takeFields hc (fun t ht => current_new ht) hupd htemplate template_mem shaped fields
      refine .intro (by rwa [View.updateWith, htmpl]) hshaped ?_ ?_ ?_
      · intro x hx
        rw [View.updateWith, htmpl] at hx
        exact done_takeFields hc template_mem (hrt _ template_mem) shaped hx.mem hx.alone
          (.inl (done x hx))
      · exact fun dir name s v g vs hx hg W hW =>
          ⟨(hgroups dir name s v g vs hx hg W hW).1, trivial⟩
      · exact hgroups.forall_mem (htmpl ▸ ht) hshaped
  | _ => exact h

theorem Current.updateTo (hc : c.Sound) (hrt : ∀ t ∈ c.templates, t.Routed) (n : Nat)
    (h : Current c V) (data : Json) : Current c (updateTo c n V data) := by
  induction n generalizing V data with
  | zero => exact h
  | succ n ih => exact h.updateWith hc hrt (fun W d hW => ih hW d) (template_updateTo n) data

end View
end Stencil

import Stencil.Proofs.Instance.Freshness
import Stencil.Proofs.Json.Plain
import Stencil.Proofs.Template.Furnishing

/-! The first update with plain data. A field goes to the route of its key alone, so a
variable takes what is found at its path, or stays empty if the data has no field for
it. Computations that no field reaches leave their cells as they are in a new view, and
every nested template is rendered once. -/
namespace Stencil
open Binding

namespace Draft.Sound

variable {d : Draft} {name : String}

theorem exists_routesAt (h : d.Sound) {key : String} {r : Route}
    (hr : (d.finish name).route? key = some r) :
    ∃ p : Path, dotted p.segments = key ∧ d.index.RoutesAt Computation.vars p.segments r := by
  obtain ⟨p, hat⟩ := h.coherent.exists_path (List.mem_of_find?_eq_some hr)
  have hkey : r.key = key := by simpa using List.find?_some hr
  exact ⟨p, hat.key_eq.symm.trans hkey, hat⟩

/-- The route of a key without dots is that of a path of one segment. -/
theorem routesAt_of_route? (h : d.Sound) {k : String} (hk : '.' ∉ k.toList) {r : Route}
    (hr : (d.finish name).route? k = some r) : d.index.RoutesAt Computation.vars [k] r := by
  obtain ⟨p, hkey, hat⟩ := h.exists_routesAt hr
  rwa [eq_singleton_of_dotted p.segments_ne_nil hkey hk] at hat

theorem exists_route? (h : d.Sound) {k : String} {ts : List String} {v : Var}
    (hv : d.index.trie.var? (k :: ts) = some v) : ∃ r, (d.finish name).route? k = some r := by
  have hv' : d.index.trie.var? ([k] ++ ts) = some v := hv
  obtain ⟨r, hr, hat⟩ := h.coherent.exists_route (List.cons_ne_nil k []) hv'
  have hkey : r.key = k := by rw [hat.key_eq]; simp [dotted, Text.join]
  exact Option.isSome_iff_exists.mp (List.find?_isSome.mpr ⟨r, hr, by simp [hkey]⟩)

end Draft.Sound

theorem Binding.Path.segments_eq (p : Path) : ∃ ts, p.segments = p.key :: ts :=
  ⟨p.segments.tail, (List.cons_head_tail p.segments_ne_nil).symm⟩

theorem Json.follow_cons (k : String) (ts : List String) (x : Json) :
    x.follow (k :: ts) = ((x.field? k).map (·.follow ts)).getD .null := by
  rw [follow]
  cases x.field? k <;> rfl

namespace View

variable {c : Catalog} {upd : View → Json → View} {V : View} {d : Draft} {name : String}

/-! ## Values -/

theorem bind_getElem?_of_mem {bs : List (Var × List String)} {v : Var} {ts : List String}
    (hm : ∃ b ∈ bs, b.1 = v) (hts : ∀ b ∈ bs, b.1 = v → b.2 = ts) (data : Json) {V : View}
    (hv : v < V.values.length) : (V.bind bs data).values[v]? = some (data.follow ts) := by
  induction bs generalizing V with
  | nil =>
    obtain ⟨b, hb, _⟩ := hm
    cases hb
  | cons b bs ih =>
    let W : View := { V with values := V.values.set b.1 (data.follow b.2) }
    change (W.bind bs data).values[v]? = _
    by_cases hrest : ∃ b ∈ bs, b.1 = v
    · refine ih hrest (fun b' hb => hts b' (List.mem_cons_of_mem _ hb)) ?_
      simpa [W] using hv
    · obtain ⟨b', hb', rfl⟩ := hm
      have hb : b' = b := by
        rcases List.mem_cons.mp hb' with rfl | hb'
        · rfl
        · exact absurd ⟨b', hb', rfl⟩ hrest
      subst hb
      rw [bind_getElem?_of_not_mem fun b hb he => hrest ⟨b, hb, he⟩]
      simp only [W]
      rw [List.getElem?_set_self hv, hts b' List.mem_cons_self rfl]

/-- A field of another key does not change the variable. -/
theorem values_takeField_of_ne (hd : d.Sound) (hV : V.template = d.finish name) {f : String × Json}
    (hf : '.' ∉ f.1.toList) {k : String} {ts : List String} {v : Var}
    (hv : d.index.trie.var? (k :: ts) = some v) (hk : f.1 ≠ k) :
    (V.takeField c upd f).values[v]? = V.values[v]? := by
  unfold takeField
  rw [hV]
  cases hr : (d.finish name).route? f.1 with
  | none => rfl
  | some r =>
    have hat := hd.routesAt_of_route? hf hr
    dsimp only
    rw [follow, values_runAll]
    refine bind_getElem?_of_not_mem (fun b hb he => hk ?_) f.2 V
    have hb' := (hat.mem_bindings b.1 b.2).mp hb
    rw [he] at hb'
    exact (List.cons.inj (hd.coherent.var_inj _ _ v hb' hv)).1

/-- A field whose route is at or above its path gives the variable its value. -/
theorem values_takeField_self (hd : d.Sound) (hV : V.template = d.finish name) (hs : V.Shaped)
    {f : String × Json} {r : Route} (hr : (d.finish name).route? f.1 = some r) {ss ts : List String}
    (hat : d.index.RoutesAt Computation.vars ss r) {v : Var}
    (hv : d.index.trie.var? (ss ++ ts) = some v) :
    (V.takeField c upd f).values[v]? = some (f.2.follow ts) := by
  unfold takeField
  rw [hV, hr]
  dsimp only
  rw [follow, values_runAll]
  refine bind_getElem?_of_mem ⟨(v, ts), (hat.mem_bindings v ts).mpr hv, rfl⟩ ?_ f.2 ?_
  · intro b hb he
    have hb' := (hat.mem_bindings b.1 b.2).mp hb
    rw [he] at hb'
    exact List.append_cancel_left (hd.coherent.var_inj _ _ v hb' hv)
  · have hlt := hd.coherent.var_lt _ v hv
    rw [hs.values_length, hV]
    exact hlt

theorem values_takeFields (hd : d.Sound) (hV : V.template = d.finish name) (hs : V.Shaped)
    {fs : List (String × Json)} (hplain : ∀ f ∈ fs, '.' ∉ f.1.toList)
    (hn : (fs.map (·.1)).Nodup) {k : String} {ts : List String} {v : Var}
    (hv : d.index.trie.var? (k :: ts) = some v) :
    (fs.foldl (takeField c upd) V).values[v]? =
      match fs.find? (·.1 == k) with
      | some f => some (f.2.follow ts)
      | none => V.values[v]? := by
  induction fs generalizing V with
  | nil => rfl
  | cons f fs ih =>
    have hf := hplain f List.mem_cons_self
    have hn := List.nodup_cons.mp hn
    have ht : V.template.Sound := hV ▸ hd.template name
    rw [List.foldl_cons, ih (by rw [template_takeField, hV]) (hs.takeField ht f)
      (fun g hg => hplain g (List.mem_cons_of_mem _ hg)) hn.2, List.find?_cons]
    by_cases hk : f.1 = k
    · have hnone : fs.find? (·.1 == k) = none := by
        rw [List.find?_eq_none]
        intro g hg he
        have he : g.1 = k := by simpa using he
        exact hn.1 (List.mem_map.mpr ⟨g, hg, he.trans hk.symm⟩)
      subst hk
      simp only [hnone, BEq.rfl]
      obtain ⟨r, hr⟩ : ∃ r, (d.finish name).route? f.1 = some r := hd.exists_route? hv
      exact values_takeField_self hd hV hs hr (hd.routesAt_of_route? hf hr) hv
    · simp only [beq_eq_false_iff_ne.mpr hk]
      rw [values_takeField_of_ne hd hV hf hv hk]

/-- After its first update a variable has what is found at its path, if the data has a field
for it. -/
theorem value_updateWith_new (hd : d.Sound) {p : Path} {v : Var} (hp : d.index.Binds p v)
    {data : Json} (hdata : data.isPlain = true) :
    (updateWith c upd (new (d.finish name)) data).value v =
      if (data.field? p.key).isSome then data.follow p.segments else .str "" := by
  obtain ⟨ts, hts⟩ := p.segments_eq
  have hv : d.index.trie.var? (p.key :: ts) = some v := hts ▸ hp
  have hlt : v < (d.finish name).varCount := hd.coherent.var_lt _ v hv
  have hnew : (new (d.finish name)).values[v]? = some (.str "") :=
    List.getElem?_replicate_of_lt hlt
  have hV : (new (d.finish name)).template = d.finish name := rfl
  rw [hts, Json.follow_cons]
  cases data with
  | obj fields =>
    rw [Json.isPlain, Bool.and_eq_true] at hdata
    rw [value, updateWith, values_takeFields hd hV (shaped_new _)
      (fun f hf => (Json.isPlain_of_mem_fields hdata.2 hf).1) (of_decide_eq_true hdata.1) hv,
      Json.field?]
    cases fields.find? (·.1 == p.key) with
    | none => simp [hnew]
    | some f => simp
  | _ => simp [value, updateWith, hnew, Json.field?]

theorem field?_eq_none {p : Path} {data : Json} (h : ¬ (data.field? p.key).isSome) :
    data.follow p.segments = .null := by
  obtain ⟨ts, hts⟩ := p.segments_eq
  rw [hts, Json.follow_cons, Option.not_isSome_iff_eq_none.mp h]
  rfl

theorem shown_value_updateWith_new (hd : d.Sound) {p : Path} {v : Var} (hp : d.index.Binds p v)
    {data : Json} (hdata : data.isPlain = true) :
    ((updateWith c upd (new (d.finish name)) data).value v).shown =
      (data.follow p.segments).shown := by
  rw [value_updateWith_new hd hp hdata]
  split
  · rfl
  · rw [field?_eq_none ‹_›]
    rfl

theorem shown_updateWith_new (hd : d.Sound) {data : Json} (hdata : data.isPlain = true)
    {ss : List Segment} {ps : Interpolation} (hi : Interprets d.index.Binds ss ps) :
    ps.shown (updateWith c upd (new (d.finish name)) data).values = Segment.filled data ss :=
  hi.shown_eq fun _ _ _ hp => shown_value_updateWith_new hd hp hdata

/-! ## Cells -/

/-- A field that reaches a computation has the key of a path that the computation reads. -/
theorem Reaches.exists_path (hd : d.Sound) {x : Computation} {f : String × Json}
    (h : Reaches (d.finish name) x f) (hf : '.' ∉ f.1.toList) :
    ∃ v ∈ x.vars, ∀ p : Path, d.index.Binds p v → p.key = f.1 := by
  obtain ⟨r, hr, b, hb, hv⟩ := h
  have hat := hd.routesAt_of_route? hf hr
  refine ⟨b.1, hv, fun p hp => ?_⟩
  have hsegs := hd.coherent.var_inj _ _ b.1 hp ((hat.mem_bindings b.1 b.2).mp hb)
  obtain ⟨ts, hts⟩ := p.segments_eq
  exact (List.cons.inj (hts.symm.trans hsegs)).1

theorem reaches_of_key (hd : d.Sound) {x : Computation} {f : String × Json}
    (hf : '.' ∉ f.1.toList) {v : Var} (hx : v ∈ x.vars) {p : Path} (hp : d.index.Binds p v)
    (hkey : p.key = f.1) : Reaches (d.finish name) x f := by
  obtain ⟨ts, hts⟩ := p.segments_eq
  have hv : d.index.trie.var? (f.1 :: ts) = some v := by rw [← hkey, ← hts]; exact hp
  obtain ⟨r, hr⟩ : ∃ r, (d.finish name).route? f.1 = some r := hd.exists_route? hv
  have hat := hd.routesAt_of_route? hf hr
  exact ⟨r, hr, (v, ts), (hat.mem_bindings v ts).mpr hv, hx⟩

/-- A field of plain data reaches what reads a variable at or below its key. -/
theorem exists_reaches_iff (hd : d.Sound) {ss : List Segment} {ps : Interpolation}
    (hi : Interprets d.index.Binds ss ps) {x : Computation} (hx : ∀ v, v ∈ x.vars ↔ v ∈ ps.vars)
    {fields : List (String × Json)} (hdata : (Json.obj fields).isPlain = true) :
    (∃ f ∈ fields, Reaches (d.finish name) x f) ↔
      Segment.isReached (.obj fields) ss = true := by
  rw [Json.isPlain, Bool.and_eq_true] at hdata
  rw [Segment.isReached, List.any_eq_true]
  have hplain : ∀ f ∈ fields, '.' ∉ f.1.toList := fun f hf =>
    (Json.isPlain_of_mem_fields hdata.2 hf).1
  constructor
  · rintro ⟨f, hf, hreach⟩
    obtain ⟨v, hv, hkey⟩ := hreach.exists_path hd (hplain f hf)
    obtain ⟨p, hp, hpv⟩ := hi.exists_path ((hx v).mp hv)
    refine ⟨p, hp, ?_⟩
    rw [Json.field?, Option.isSome_map, List.find?_isSome]
    exact ⟨f, hf, by simp [hkey p hpv]⟩
  · rintro ⟨p, hp, hsome⟩
    obtain ⟨v, hvm, hpv⟩ := hi.exists_var hp
    rw [Json.field?, Option.isSome_map, List.find?_isSome] at hsome
    obtain ⟨f, hf, hkey⟩ := hsome
    have hkey : f.1 = p.key := by simpa using hkey
    exact ⟨f, hf, reaches_of_key hd (hplain f hf) ((hx v).mpr hvm) hpv hkey.symm⟩

variable {x : Computation} {cell : Cell}

section

variable {ss : List Segment} {ps : Interpolation} {data : Json} (hd : d.Sound)
  (hi : Interprets d.index.Binds ss ps) (hx : ∀ v, v ∈ x.vars ↔ v ∈ ps.vars)
  (hal : (d.finish name).Alone x) (hdata : data.isPlain = true)
include hd hi hx hal hdata

/-- What the data reaches is done. -/
theorem done_updateWith_new (hc : c.Sound) (hm : d.finish name ∈ c.templates)
    (hxm : x ∈ d.index.computations) (hr : Segment.isReached data ss = true) :
    (updateWith c upd (new (d.finish name)) data).Done x := by
  cases data with
  | obj fields =>
    exact done_takeFields hc (V := new (d.finish name)) hm (hd.routed name) (shaped_new _) hxm hal
      (.inr ((exists_reaches_iff hd hi hx hdata).mpr hr))
  | _ =>
    obtain ⟨p, _, hp⟩ := List.any_eq_true.mp hr
    cases hp

/-- What the data does not reach is as in a new view. -/
theorem agree_updateWith_new (hr : Segment.isReached data ss = false)
    (hcell : cell ∈ x.cells) :
    (updateWith c upd (new (d.finish name)) data).Agree (new (d.finish name)) cell := by
  cases data with
  | obj fields =>
    refine agree_takeFields_of_alone (V := new (d.finish name)) (hd.template name) (hd.routed name)
      (shaped_new _) hal (fun f hf hreach => ?_) hcell
    have := (exists_reaches_iff hd hi hx hdata).mp ⟨f, hf, hreach⟩
    rw [hr] at this
    cases this
  | _ => exact .refl _ cell

end

/-! ## Groups -/

/-- A directive is reached by the field of its path only. -/
theorem Reaches.key_eq (hd : d.Sound) {dir : Directive} {nested : String} {s : Slot} {v : Var}
    {g : Group} {p : Path} (hp : d.index.Binds p v) {f : String × Json}
    (h : Reaches (d.finish name) (.reconcile dir nested s v g) f) (hf : '.' ∉ f.1.toList) :
    p.key = f.1 := by
  obtain ⟨w, hw, hkey⟩ := h.exists_path hd hf
  rw [List.mem_singleton.mp hw] at hkey
  exact hkey p hp

/-- A computation that runs once renders its group once. -/
theorem groups_runAll (ht : V.template.Sound) (h : V.Shaped) {dir : Directive} {nested : String}
    {s : Slot} {v : Var} {g : Group} {k : Nat}
    (hx : V.template.computations[k]? = some (.reconcile dir nested s v g))
    (hal : V.template.Alone (.reconcile dir nested s v g)) {vs : List View}
    (hg : V.groups[g]? = some vs) {ks : List Nat} (hn : ks.Nodup) (hk : k ∈ ks) :
    (ks.foldl (runComputation c upd) V).groups[g]? =
      some (render c upd nested (dir.items (V.value v)) vs) := by
  -- no other computation writes to the group
  have hother : ∀ k', k' ≠ k → ∀ y, V.template.computations[k']? = some y → .group g ∉ y.cells := by
    intro k' hk' y hy
    refine ((hal y (List.mem_of_getElem? hy)).resolve_left ?_) _ List.mem_cons_self
    rintro rfl
    exact hk' (ht.index_unique hy hx)
  obtain ⟨ks₁, ks₂, rfl⟩ := List.append_of_mem hk
  have hn' := List.nodup_append.mp hn
  have hk₂ := (List.nodup_cons.mp hn'.2.1).1
  have hbefore : (ks₁.foldl (runComputation c upd) V).groups[g]? = some vs := by
    have hagree : (ks₁.foldl (runComputation c upd) V).Agree V (.group g) :=
      agree_runAll ht h fun k' hk' => hother k' (hn'.2.2 k' hk' k List.mem_cons_self)
    exact Eq.trans hagree hg
  have hvalue : (ks₁.foldl (runComputation c upd) V).value v = V.value v := by
    rw [value, values_runAll]
    rfl
  have htemplate : (ks₁.foldl (runComputation c upd) V).template = V.template :=
    template_runAll ks₁ V
  have hshaped : (ks₁.foldl (runComputation c upd) V).Shaped := h.runAll ht ks₁
  rw [List.foldl_append, List.foldl_cons]
  generalize ks₁.foldl (runComputation c upd) V = W at hbefore hvalue htemplate hshaped ⊢
  have hrun : (W.runComputation c upd k).groups[g]? =
      some (render c upd nested (dir.items (V.value v)) vs) := by
    rw [runComputation, htemplate, hx]
    simp [compute, hbefore, hvalue]
  have hafter : (ks₂.foldl (runComputation c upd) (W.runComputation c upd k)).Agree
      (W.runComputation c upd k) (.group g) := by
    refine agree_runAll ?_ (hshaped.runComputation (htemplate ▸ ht) k) fun k' hk' => ?_
    · rwa [template_runComputation, htemplate]
    · rw [template_runComputation, htemplate]
      exact hother k' fun he => hk₂ (he ▸ hk')
  exact Eq.trans hafter hrun

section

variable {dir : Directive} {nested : String} {s : Slot} {v : Var} {g : Group} {vs : List View}
  (hd : d.Sound) (hV : V.template = d.finish name) (hs : V.Shaped)
  (hx : .reconcile dir nested s v g ∈ d.index.computations)
  (hal : (d.finish name).Alone (.reconcile dir nested s v g)) (hg : V.groups[g]? = some vs)
include hd hV hs hx hal hg

section

variable {f : String × Json} {r : Route} (hr : (d.finish name).route? f.1 = some r)
  {ss ts : List String} (hat : d.index.RoutesAt Computation.vars ss r)
  (hv : d.index.trie.var? (ss ++ ts) = some v)
include hr hat hv

/-- A field whose route is at or above its path renders the group. -/
theorem groups_takeField : (V.takeField c upd f).groups[g]? =
    some (render c upd nested (dir.items (f.2.follow ts)) vs) := by
  have hrm := List.mem_of_find?_eq_some hr
  obtain ⟨k, hk⟩ := List.getElem?_of_mem hx
  have hrun : k ∈ r.computations := ((hd.routed name).mem_computations r hrm k _ hk).mpr
    ⟨(v, ts), (hat.mem_bindings v ts).mpr hv, List.mem_singleton_self v⟩
  have hvalue : (V.takeField c upd f).values[v]? = some (f.2.follow ts) :=
    values_takeField_self hd hV hs hr hat hv
  unfold takeField at hvalue ⊢
  rw [hV, hr] at hvalue ⊢
  dsimp only at hvalue ⊢
  rw [follow, values_runAll] at hvalue
  rw [follow, groups_runAll (V := V.bind r.bindings f.2) (hV ▸ hd.template name) (hs.bind _ _)
    (hV ▸ hk) (hV ▸ hal) hg hat.nodup hrun, value, hvalue]
  rfl

/-- So does a list of fields with one such, whatever else it has. -/
theorem groups_takeFields {pre post : List (String × Json)}
    (hpre : ∀ f ∈ pre, ¬ Reaches (d.finish name) (.reconcile dir nested s v g) f)
    (hpost : ∀ f ∈ post, ¬ Reaches (d.finish name) (.reconcile dir nested s v g) f) :
    ((pre ++ f :: post).foldl (takeField c upd) V).groups[g]? =
      some (render c upd nested (dir.items (f.2.follow ts)) vs) := by
  have ht := hd.template name
  have hrt := hd.routed name
  have hagree : (pre.foldl (takeField c upd) V).Agree V (.group g) := by
    refine agree_takeFields_of_alone (hV ▸ ht) (hV ▸ hrt) hs (hV ▸ hal) ?_ List.mem_cons_self
    rwa [hV]
  have hbefore : (pre.foldl (takeField c upd) V).groups[g]? = some vs := Eq.trans hagree hg
  have htemplate : (pre.foldl (takeField c upd) V).template = d.finish name :=
    (template_takeFields pre V).trans hV
  have hshaped : (pre.foldl (takeField c upd) V).Shaped := hs.takeFields (hV ▸ ht) pre
  rw [List.foldl_append, List.foldl_cons]
  generalize pre.foldl (takeField c upd) V = W at hbefore htemplate hshaped ⊢
  have htemplate' : (W.takeField c upd f).template = d.finish name := by
    rw [template_takeField, htemplate]
  have hafter : (post.foldl (takeField c upd) (W.takeField c upd f)).Agree
      (W.takeField c upd f) (.group g) := by
    refine agree_takeFields_of_alone (htemplate' ▸ ht) (htemplate' ▸ hrt)
      (hshaped.takeField (htemplate ▸ ht) _) (htemplate' ▸ hal) ?_ List.mem_cons_self
    rwa [htemplate']
  exact Eq.trans hafter (groups_takeField hd htemplate hshaped hx hal hbefore hr hat hv)

end

/-- An update with an object that has a field for the path renders what is found there. -/
theorem groups_updateWith {p : Path} (hp : d.index.Binds p v) {fields : List (String × Json)}
    (hn : (fields.map (·.1)).Nodup) (hplain : ∀ f ∈ fields, '.' ∉ f.1.toList)
    (hsome : ((Json.obj fields).field? p.key).isSome) :
    (updateWith c upd V (.obj fields)).groups[g]? =
      some (render c upd nested (dir.items ((Json.obj fields).follow p.segments)) vs) := by
  obtain ⟨ts, hts⟩ := p.segments_eq
  have hv : d.index.trie.var? (p.key :: ts) = some v := hts ▸ hp
  obtain ⟨pre, y, post, rfl, hpre, hpost, hfield⟩ := Json.exists_split hn hsome
  have hnot : ∀ f ∈ pre ++ (p.key, y) :: post, f.1 ≠ p.key →
      ¬ Reaches (d.finish name) (.reconcile dir nested s v g) f := fun f hf hne hreach =>
    hne (hreach.key_eq hd hp (hplain f hf)).symm
  obtain ⟨r, hr⟩ : ∃ r, (d.finish name).route? p.key = some r := hd.exists_route? hv
  have hat := hd.routesAt_of_route? (hplain (p.key, y) (by simp)) hr
  rw [hts, Json.follow_cons, hfield, Option.map_some, Option.getD_some, updateWith]
  refine groups_takeFields hd hV hs hx hal hg hr hat hv (fun f hf => ?_) fun f hf => ?_
  · exact hnot f (List.mem_append_left _ hf) (hpre f hf)
  · exact hnot f (List.mem_append_right _ (List.mem_cons_of_mem _ hf)) (hpost f hf)

end

theorem items_null (dir : Directive) : dir.items .null = [] := by
  cases dir <;> rfl

variable (upd) in
/-- The first update renders what is found at the path of the directive. -/
theorem groups_updateWith_new (hd : d.Sound) {dir : Directive} {nested : String}
    {s : Slot} {v : Var} {g : Group} (hx : .reconcile dir nested s v g ∈ d.index.computations)
    (hal : (d.finish name).Alone (.reconcile dir nested s v g)) {u : Template}
    (hu : c.get? nested = some u) {p : Path} (hp : d.index.Binds p v) {data : Json}
    (hdata : data.isPlain = true) :
    (updateWith c upd (new (d.finish name)) data).groups[g]? =
      some ((dir.items (data.follow p.segments)).map (upd (new u))) := by
  have ht := hd.template name
  have hnew : (new (d.finish name)).groups[g]? = some [] :=
    List.getElem?_replicate_of_lt (ht.fits _ hx).2.2
  cases data with
  | obj fields =>
    rw [Json.isPlain, Bool.and_eq_true] at hdata
    have hplain : ∀ f ∈ fields, '.' ∉ f.1.toList := fun f hf =>
      (Json.isPlain_of_mem_fields hdata.2 hf).1
    by_cases hsome : ((Json.obj fields).field? p.key).isSome = true
    · rw [groups_updateWith hd rfl (shaped_new _) hx hal hnew hp (of_decide_eq_true hdata.1) hplain
        hsome, render, hu]
      rfl
    · rw [field?_eq_none hsome, items_null]
      refine Eq.trans (agree_takeFields_of_alone (V := new (d.finish name)) ht (hd.routed name)
        (shaped_new _) hal (fun f hf hreach => hsome ?_) List.mem_cons_self) hnew
      rw [Json.field?, Option.isSome_map, List.find?_isSome]
      exact ⟨f, hf, by simp [hreach.key_eq hd hp (hplain f hf)]⟩
  | _ =>
    rw [field?_eq_none (by simp [Json.field?]), items_null]
    exact hnew

end View
end Stencil

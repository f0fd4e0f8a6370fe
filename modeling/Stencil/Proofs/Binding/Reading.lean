import Stencil.Proofs.Binding.Outline

/-! Indices in which all is accounted for: every path has a variable of its own, and a
computation is listed at exactly the paths whose variables it reads. A route of such an
index binds the variables at and below its path, and runs what reads one of them. -/
namespace Stencil.Binding

/-- The interpolation has a part for each segment: its text, unless it is empty, or a
variable to which its path is bound. -/
inductive Interprets (B : Path → Var → Prop) : List Segment → Interpolation → Prop
  | nil : Interprets B [] []
  | blank {ss ps} (h : Interprets B ss ps) : Interprets B (.literal "" :: ss) ps
  | literal {s ss ps} (hs : s ≠ "") (h : Interprets B ss ps) :
      Interprets B (.literal s :: ss) (.literal s :: ps)
  | reference {p v ss ps} (hv : B p v) (h : Interprets B ss ps) :
      Interprets B (.reference p :: ss) (.var v :: ps)

variable {B B' : Path → Var → Prop} {ss : List Segment} {ps : Interpolation}

theorem Interprets.mono (hB : ∀ p v, B p v → B' p v) (h : Interprets B ss ps) :
    Interprets B' ss ps := by
  induction h with
  | nil => exact .nil
  | blank _ ih => exact .blank ih
  | literal hs _ ih => exact .literal hs ih
  | reference hv _ ih => exact .reference (hB _ _ hv) ih

/-- The variables of an interpolation are those of the paths referred to. -/
theorem Interprets.exists_path (h : Interprets B ss ps) {v : Var} (hv : v ∈ ps.vars) :
    ∃ p ∈ Index.paths ss, B p v := by
  induction h with
  | nil => cases hv
  | blank _ ih => exact ih hv
  | literal _ _ ih => exact ih hv
  | @reference p w ss ps hw _ ih =>
    rcases List.mem_cons.mp hv with rfl | hv
    · exact ⟨p, List.mem_cons_self, hw⟩
    · obtain ⟨q, hq, hqv⟩ := ih hv
      exact ⟨q, List.mem_cons_of_mem _ hq, hqv⟩

theorem Interprets.exists_var (h : Interprets B ss ps) {p : Path} (hp : p ∈ Index.paths ss) :
    ∃ v ∈ ps.vars, B p v := by
  induction h with
  | nil => cases hp
  | blank _ ih => exact ih hp
  | literal _ _ ih => exact ih hp
  | @reference q w ss ps hw _ ih =>
    rcases List.mem_cons.mp hp with rfl | hp
    · exact ⟨w, List.mem_cons_self, hw⟩
    · obtain ⟨v, hv, hpv⟩ := ih hp
      exact ⟨v, List.mem_cons_of_mem _ hv, hpv⟩

theorem Interprets.vars_ne_nil (h : Interprets B ss ps) (hb : ss.any Segment.isReference = true) :
    ps.vars ≠ [] := by
  induction h with
  | nil => cases hb
  | blank _ ih => exact ih hb
  | literal _ _ ih => exact ih hb
  | reference => exact List.cons_ne_nil _ _

namespace Index

variable {α : Type} {reads : α → List Var} {ix : Index α}

/-- The path has the variable. -/
def Binds (ix : Index α) (p : Path) (v : Var) : Prop := ix.trie.var? p.segments = some v

/-- Nodes were made for paths, every path has its own variable, what is read has a path, and
readers are listed where they read. -/
structure Coherent (reads : α → List Var) (ix : Index α) : Prop where
  traces : ∃ ps : List Path, ix.trie.Traces (ps.map (·.segments))
  var_path : ∀ ss v, ix.trie.var? ss = some v → ∃ p : Path, p.segments = ss
  var_lt : ∀ ss v, ix.trie.var? ss = some v → v < ix.varCount
  var_inj : ∀ ss ts v, ix.trie.var? ss = some v → ix.trie.var? ts = some v → ss = ts
  reads_bound : ∀ a ∈ ix.computations, ∀ v ∈ reads a, ∃ p, ix.Binds p v
  mem_readersAt : ∀ k ss, k ∈ ix.trie.readersAt ss ↔
    ∃ a, ix.computations[k]? = some a ∧ ∃ v ∈ reads a, ix.trie.var? ss = some v

theorem Coherent.distinct (h : Coherent reads ix) : ix.trie.Distinct := by
  obtain ⟨_, ht⟩ := h.traces
  exact ht.distinct

/-- Nothing is forgotten: variables keep their paths. -/
structure Grows (ix ix' : Index α) : Prop where
  var? : ∀ ss v, ix.trie.var? ss = some v → ix'.trie.var? ss = some v
  varCount_le : ix.varCount ≤ ix'.varCount

theorem Grows.binds {ix ix' : Index α} (h : Grows ix ix') (p : Path) (v : Var)
    (hv : ix.Binds p v) : ix'.Binds p v := h.var? _ v hv

theorem Grows.refl (ix : Index α) : Grows ix ix := ⟨fun _ _ h => h, Nat.le_refl _⟩

theorem Grows.trans {ix ix' ix'' : Index α} (h : Grows ix ix') (h' : Grows ix' ix'') :
    Grows ix ix'' :=
  ⟨fun ss v hv => h'.var? ss v (h.var? ss v hv), Nat.le_trans h.varCount_le h'.varCount_le⟩

theorem coherent_empty : Coherent reads ({} : Index α) where
  traces := ⟨[], Trie.traces_empty⟩
  var_path ss v h := by
    rw [Trie.var?_eq, Trie.down_empty] at h
    cases h
  var_lt ss v h := by
    rw [Trie.var?_eq, Trie.down_empty] at h
    cases h
  var_inj ss ts v h := by
    rw [Trie.var?_eq, Trie.down_empty] at h
    cases h
  reads_bound a ha := by cases ha
  mem_readersAt k ss := by
    rw [Trie.readersAt, Trie.down_empty]
    simp [Trie.empty, Trie.here]

/-! ## Growing -/

theorem computations_assign (p : Path) (ix : Index α) :
    (ix.assign p).2.computations = ix.computations := by
  unfold assign
  split <;> rfl

theorem computations_interpolate (ss : List Segment) (ix : Index α) :
    (interpolate ss ix).2.computations = ix.computations := by
  induction ss generalizing ix with
  | nil => rfl
  | cons s ss ih =>
    cases s with
    | literal s => exact ih ix
    | reference p => exact (ih _).trans (computations_assign p ix)

theorem computations_gather (ss : List Segment) (build : Interpolation → α) (ix : Index α) :
    (ix.gather ss build).computations = ix.computations ++ [build (interpolate ss ix).1] := by
  rw [← computations_interpolate ss ix]
  rfl

theorem assign_spec (h : Coherent reads ix) (p : Path) :
    Coherent reads (ix.assign p).2 ∧ Grows ix (ix.assign p).2 ∧
      (ix.assign p).2.computations = ix.computations ∧
      (ix.assign p).2.Binds p (ix.assign p).1 := by
  unfold assign
  cases hv : ix.trie.var? p.segments with
  | some v => exact ⟨h, .refl ix, rfl, hv⟩
  | none =>
    have hvar : ∀ ss v, (ix.trie.modify (Trie.setVar ix.varCount) p.segments).var? ss = some v →
        ss = p.segments ∧ v = ix.varCount ∨ ix.trie.var? ss = some v := by
      intro ss v hm
      rw [Trie.var?_modify_setVar] at hm
      split at hm
      · exact .inl ⟨‹_›, (Option.some.inj hm).symm⟩
      · exact .inr hm
    have hkeep : ∀ ss v, ix.trie.var? ss = some v →
        (ix.trie.modify (Trie.setVar ix.varCount) p.segments).var? ss = some v := by
      intro ss v hs
      rw [Trie.var?_modify_setVar, if_neg ?_]
      · exact hs
      · rintro rfl
        rw [hv] at hs
        cases hs
    obtain ⟨ps, ht⟩ := h.traces
    have ht' := ht.modify (Trie.branches_setVar ix.varCount) p.segments
    refine ⟨⟨⟨ps ++ [p], by simpa using ht'⟩, ?_, ?_, ?_, ?_, ?_⟩, ⟨hkeep, ?_⟩, rfl, ?_⟩
    · intro ss v hm
      rcases hvar ss v hm with ⟨rfl, _⟩ | hm
      · exact ⟨p, rfl⟩
      · exact h.var_path ss v hm
    · intro ss v hm
      rcases hvar ss v hm with ⟨_, rfl⟩ | hm
      · exact Nat.lt_succ_self _
      · exact Nat.lt_succ_of_lt (h.var_lt ss v hm)
    · intro ss ts v hs ht
      rcases hvar ss v hs with ⟨hsp, hsv⟩ | hs <;> rcases hvar ts v ht with ⟨htp, htv⟩ | ht
      · exact hsp.trans htp.symm
      · exact absurd (h.var_lt ts v ht) (Nat.not_lt_of_le (Nat.le_of_eq hsv.symm))
      · exact absurd (h.var_lt ss v hs) (Nat.not_lt_of_le (Nat.le_of_eq htv.symm))
      · exact h.var_inj ss ts v hs ht
    · intro a ha v hm
      obtain ⟨q, hq⟩ := h.reads_bound a ha v hm
      exact ⟨q, hkeep _ v hq⟩
    · intro k ss
      rw [Trie.readersAt_modify_setVar, h.mem_readersAt]
      refine exists_congr fun a => and_congr_right fun ha => exists_congr fun v =>
        and_congr_right fun hm => ?_
      -- no computation reads the new variable yet
      obtain ⟨q, hq⟩ := h.reads_bound a (List.mem_of_getElem? ha) v hm
      have hlt := h.var_lt _ v hq
      rw [Trie.var?_modify_setVar]
      split
      · rename_i hss
        rw [hss, hv]
        simpa using Nat.ne_of_gt hlt
      · rfl
    · exact Nat.le_succ _
    · exact (Trie.var?_modify_setVar ..).trans (if_pos rfl)

theorem var?_foldl_addReader (i : Nat) (ps : List Path) (ss : List String) (t : Trie) :
    (ps.foldl (fun t p => t.modify (Trie.addReader i) p.segments) t).var? ss = t.var? ss := by
  induction ps generalizing t with
  | nil => rfl
  | cons p ps ih => rw [List.foldl_cons, ih, Trie.var?_modify_addReader]

theorem mem_readersAt_foldl {k i : Nat} (ps : List Path) {ss : List String} {t : Trie} :
    k ∈ (ps.foldl (fun t p => t.modify (Trie.addReader i) p.segments) t).readersAt ss ↔
      k ∈ t.readersAt ss ∨ k = i ∧ ∃ p ∈ ps, p.segments = ss := by
  induction ps generalizing t with
  | nil => simp
  | cons p ps ih =>
    rw [List.foldl_cons, ih, Trie.mem_readersAt_modify_addReader]
    simp only [List.mem_cons, exists_eq_or_imp, @eq_comm _ ss]
    tauto

theorem grows_record (a : α) (ps : List Path) (ix : Index α) : Grows ix (ix.record a ps) :=
  ⟨fun ss v h => by rw [record, var?_foldl_addReader]; exact h, Nat.le_refl _⟩

theorem Coherent.record (h : Coherent reads ix) {a : α} {ps : List Path}
    (hps : ∀ p ∈ ps, ∃ v ∈ reads a, ix.Binds p v)
    (hreads : ∀ v ∈ reads a, ∃ p ∈ ps, ix.Binds p v) :
    Coherent reads (ix.record a ps) := by
  have hvar := var?_foldl_addReader ix.computations.length ps
  obtain ⟨qs, ht⟩ := h.traces
  have ht' := Trie.traces_foldl_addReader ix.computations.length ps ht
  refine ⟨⟨qs ++ ps, by rw [List.map_append]; exact ht'⟩, ?_, ?_, ?_, ?_, ?_⟩
  · intro ss v hs
    rw [Index.record, hvar] at hs
    exact h.var_path ss v hs
  · intro ss v hs
    rw [Index.record, hvar] at hs
    exact h.var_lt ss v hs
  · intro ss ts v hs ht
    rw [Index.record, hvar] at hs ht
    exact h.var_inj ss ts v hs ht
  · intro b hb v hv
    simp only [Binds, Index.record, hvar]
    rcases List.mem_append.mp hb with hb | hb
    · exact h.reads_bound b hb v hv
    · rw [List.mem_singleton.mp hb] at hv
      obtain ⟨p, _, hp⟩ := hreads v hv
      exact ⟨p, hp⟩
  · intro k ss
    simp only [Index.record, mem_readersAt_foldl, hvar, h.mem_readersAt]
    constructor
    · rintro (⟨b, hb, hv⟩ | ⟨rfl, p, hp, rfl⟩)
      · have hlt := (List.getElem?_eq_some_iff.mp hb).1
        exact ⟨b, by rw [List.getElem?_append_left hlt]; exact hb, hv⟩
      · exact ⟨a, by simp, hps p hp⟩
    · rintro ⟨b, hb, v, hv, hs⟩
      by_cases hk : k < ix.computations.length
      · rw [List.getElem?_append_left hk] at hb
        exact .inl ⟨b, hb, v, hv, hs⟩
      · have hlt := (List.getElem?_eq_some_iff.mp hb).1
        simp only [List.length_append, List.length_singleton] at hlt
        obtain rfl : k = ix.computations.length := by omega
        obtain rfl : a = b := by simpa using hb
        obtain ⟨p, hp, hpv⟩ := hreads v hv
        exact .inr ⟨rfl, p, hp, h.var_inj _ _ v hpv hs⟩

theorem interpolate_spec (ss : List Segment) : ∀ {ix : Index α}, Coherent reads ix →
    Coherent reads (interpolate ss ix).2 ∧ Grows ix (interpolate ss ix).2 ∧
      (interpolate ss ix).2.computations = ix.computations ∧
      Interprets (interpolate ss ix).2.Binds ss (interpolate ss ix).1 := by
  induction ss with
  | nil => exact fun h => ⟨h, .refl _, rfl, .nil⟩
  | cons s ss ih =>
    intro ix h
    cases s with
    | literal s =>
      obtain ⟨hc, hg, hx, hi⟩ := ih h
      refine ⟨hc, hg, hx, ?_⟩
      simp only [interpolate]
      split
      · rename_i hs
        exact hs ▸ .blank hi
      · exact .literal ‹_› hi
    | reference p =>
      obtain ⟨hc, hg, hx, hv⟩ := assign_spec h p
      obtain ⟨hc', hg', hx', hi⟩ := ih hc
      exact ⟨hc', hg.trans hg', hx'.trans hx, .reference (hg'.binds _ _ hv) hi⟩

/-- A computation made of interpolated segments reads the variables of their paths. -/
theorem gather_spec (h : Coherent reads ix) (ss : List Segment) (build : Interpolation → α)
    (hb : ∀ ps v, v ∈ reads (build ps) ↔ v ∈ ps.vars) :
    Coherent reads (ix.gather ss build) ∧ Grows ix (ix.gather ss build) ∧
      ∃ ps, Interprets (ix.gather ss build).Binds ss ps ∧
        (ix.gather ss build).computations = ix.computations ++ [build ps] := by
  obtain ⟨hc, hg, hx, hi⟩ := interpolate_spec ss h
  have hrec := grows_record (build (interpolate ss ix).1) (paths ss) (interpolate ss ix).2
  refine ⟨hc.record ?_ ?_, hg.trans hrec, _, hi.mono hrec.binds, ?_⟩
  · intro p hp
    obtain ⟨v, hm, hv⟩ := hi.exists_var hp
    exact ⟨v, (hb _ v).mpr hm, hv⟩
  · exact fun v hv => hi.exists_path ((hb _ v).mp hv)
  · rw [← hx]
    rfl

/-! ## Routes -/

/-- The route of a path: it binds what is at and below the path, and runs what reads it. -/
structure RoutesAt (reads : α → List Var) (ix : Index α) (ss : List String) (r : Route) :
    Prop where
  key_eq : r.key = dotted ss
  mem_bindings : ∀ v ts, (v, ts) ∈ r.bindings ↔ ix.trie.var? (ss ++ ts) = some v
  mem_computations : ∀ k, k ∈ r.computations ↔ ∃ a, ix.computations[k]? = some a ∧
    ∃ v ∈ reads a, ∃ ts, ix.trie.var? (ss ++ ts) = some v
  nodup : r.computations.Nodup

theorem Coherent.routesAt (h : Coherent reads ix) (ss : List String) :
    RoutesAt reads ix ss (Trie.route ix.computations.length ss (ix.trie.down ss)) where
  key_eq := rfl
  mem_bindings v ts := by rw [Trie.route, Trie.mem_vars (h.distinct.down ss), Trie.var?_append]
  mem_computations k := by
    simp only [Trie.route, List.mem_filter, List.mem_range, List.contains_iff_mem,
      Trie.mem_readers (h.distinct.down ss), ← Trie.readersAt_append, h.mem_readersAt]
    constructor
    · rintro ⟨_, ts, a, ha, v, hv, hs⟩
      exact ⟨a, ha, v, hv, ts, hs⟩
    · rintro ⟨a, ha, v, hv, ts, hs⟩
      exact ⟨(List.getElem?_eq_some_iff.mp ha).1, ts, a, ha, v, hv, hs⟩
  nodup := List.nodup_range.filter _

/-- Every route is that of a path. -/
theorem Coherent.exists_path (h : Coherent reads ix) {r : Route} (hr : r ∈ ix.routes) :
    ∃ p : Path, RoutesAt reads ix p.segments r := by
  obtain ⟨ps, ht⟩ := h.traces
  unfold routes at hr
  have hat := h.routesAt
  cases htrie : ix.trie with
  | node v rs bs =>
    rw [htrie] at ht hat hr
    rw [Trie.branches, Trie.branchRoutes_eq _ ht.distinct.1 ht.distinct.2] at hr
    obtain ⟨ss, hss, rfl⟩ := List.mem_map.mp hr
    have hout : ss ∈ Trie.outline (.node v rs bs) := List.mem_cons_of_mem _ hss
    obtain ⟨s, us, rfl, _⟩ := Trie.exists_cons_of_mem_branchOutline hss
    obtain ⟨q, hq, hpre⟩ := ((Trie.mem_outline ht).mp hout).resolve_left (by simp)
    obtain ⟨p, _, rfl⟩ := List.mem_map.mp hq
    exact ⟨⟨s :: us, by simp, fun x hx => p.isIdentifier_of_mem x (hpre.subset hx)⟩, hat (s :: us)⟩

/-- A path at or below which something is bound has its route. -/
theorem Coherent.exists_route (h : Coherent reads ix) {ss us : List String} {v : Var}
    (hs : ss ≠ []) (hv : ix.trie.var? (ss ++ us) = some v) :
    ∃ r ∈ ix.routes, RoutesAt reads ix ss r := by
  refine ⟨_, ?_, h.routesAt ss⟩
  unfold routes
  cases ht : ix.trie with
  | node x rs bs =>
    obtain ⟨s, ts, rfl⟩ := List.exists_cons_of_ne_nil hs
    rw [ht, List.cons_append, Trie.var?] at hv
    exact Trie.route_mem_branchRoutes hv

end Index
end Stencil.Binding

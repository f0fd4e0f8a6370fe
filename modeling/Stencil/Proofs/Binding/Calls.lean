import Stencil.Proofs.Binding.Outline
import Stencil.Proofs.Binding.Reading

/-! An index after any calls. What it holds is told by three lists: the paths bound, the
paths that each computation is recorded with, and all of these in the order in which they
were met. Variables number the paths bound, and there is one route for each beginning of a
path that was met. -/
namespace Stencil

namespace Text

theorem split_of_not_mem {sep : Char} {w : List Char} (h : sep ∉ w) : split sep w = [w] := by
  induction w with
  | nil => rfl
  | cons c w ih =>
    rw [List.mem_cons, not_or] at h
    rw [split, if_neg fun hc => h.1 hc.symm, ih h.2]

theorem split_append (sep : Char) (cs ds : List Char) :
    split sep (cs ++ sep :: ds) = split sep cs ++ split sep ds := by
  induction cs with
  | nil => simp [split]
  | cons c cs ih =>
    rw [List.cons_append, split, split, ih]
    split
    · rfl
    · cases hs : split sep cs with
      | nil => exact absurd hs (split_ne_nil sep cs)
      | cons w ws => rfl

/-- Parts without the separator are found again, after those of the first part. -/
theorem split_join_cons {sep : Char} (w : List Char) {ws : List (List Char)}
    (h : ∀ v ∈ ws, sep ∉ v) : split sep (join sep (w :: ws)) = split sep w ++ ws := by
  induction ws generalizing w with
  | nil => rw [List.append_nil, join]
  | cons v vs ih =>
    rw [join_cons sep w (List.cons_ne_nil v vs), split_append,
      ih v fun u hu => h u (List.mem_cons_of_mem _ hu), split_of_not_mem (h v List.mem_cons_self),
      List.singleton_append]

theorem split_join {sep : Char} {ws : List (List Char)} (hne : ws ≠ []) (h : ∀ w ∈ ws, sep ∉ w) :
    split sep (join sep ws) = ws := by
  obtain ⟨w, vs, rfl⟩ := List.exists_cons_of_ne_nil hne
  rw [split_join_cons w fun v hv => h v (List.mem_cons_of_mem _ hv),
    split_of_not_mem (h w List.mem_cons_self), List.singleton_append]

end Text

namespace Binding

theorem continuesIdentifier_of_mem {s : String} (h : isIdentifier s = true) {c : Char}
    (hc : c ∈ s.toList) : continuesIdentifier c = true := by
  unfold isIdentifier at h
  split at h
  · cases h
  · rename_i c₁ cs hcs
    rw [Bool.and_eq_true, List.all_eq_true] at h
    rw [hcs, List.mem_cons] at hc
    rcases hc with rfl | hc
    · rw [continuesIdentifier, h.1, Bool.true_or]
    · exact h.2 c hc

theorem split_dotted {ss : List String} (hne : ss ≠ []) (h : ∀ s ∈ ss, isIdentifier s = true) :
    Text.split '.' (dotted ss).toList = ss.map String.toList := by
  rw [dotted, String.toList_ofList]
  refine Text.split_join (by simpa using hne) fun w hw => ?_
  obtain ⟨s, hs, rfl⟩ := List.mem_map.mp hw
  exact fun hm => absurd (continuesIdentifier_of_mem (h s hs) hm) (by decide)

/-- The segments of a dotted name. -/
def undotted (name : String) : List String := (Text.split '.' name.toList).map String.ofList

theorem undotted_dotted {ss : List String} (hne : ss ≠ []) (h : ∀ s ∈ ss, isIdentifier s = true) :
    undotted (dotted ss) = ss := by
  rw [undotted, split_dotted hne h, List.map_map]
  simp

theorem Path.undotted_dotted (p : Path) : undotted (dotted p.segments) = p.segments :=
  Binding.undotted_dotted p.segments_ne_nil p.isIdentifier_of_mem

theorem dotted_inj {ss ts : List String} (hss : ss ≠ []) (hts : ts ≠ [])
    (hs : ∀ s ∈ ss, isIdentifier s = true) (ht : ∀ t ∈ ts, isIdentifier t = true)
    (h : dotted ss = dotted ts) : ss = ts := by
  rw [← undotted_dotted hss hs, h, undotted_dotted hts ht]

theorem Path.eq_of_segments {p q : Path} (h : p.segments = q.segments) : p = q := by
  cases p
  cases q
  cases h
  rfl

/-! ## Numbering in order -/

section Numbering

variable {α : Type} [DecidableEq α] {l : List α} {a : α} {i : Nat}

theorem getElem?_eraseDups_append (l' : List α) (h : l.eraseDups[i]? = some a) :
    (l ++ l').eraseDups[i]? = some a := by
  have hlt := (List.getElem?_eq_some_iff.mp h).1
  rw [List.eraseDups_append, List.getElem?_append_left hlt, h]

theorem idxOf_eq (h : l.eraseDups[i]? = some a) : l.eraseDups.idxOf a = i := by
  obtain ⟨hlt, rfl⟩ := List.getElem?_eq_some_iff.mp h
  exact (nodup_eraseDups l).idxOf_getElem i hlt

/-- The places among the distinct members, without repetition, are all places in order. -/
theorem eraseDups_map_idxOf (l : List α) :
    (l.map l.eraseDups.idxOf).eraseDups = List.range l.eraseDups.length := by
  induction l using List.reverseRecOn with
  | nil => rfl
  | append_singleton l a ih =>
    have hkeep : l.map (l ++ [a]).eraseDups.idxOf = l.map l.eraseDups.idxOf := by
      refine List.map_congr_left fun b hb => ?_
      have hb := List.mem_eraseDups.mpr hb
      exact idxOf_eq (getElem?_eraseDups_append [a] (List.getElem?_idxOf hb))
    rw [List.map_append, hkeep, List.map_singleton, eraseDups_concat, ih]
    by_cases ha : a ∈ l
    · have heq : (l ++ [a]).eraseDups = l.eraseDups := by rw [eraseDups_concat, if_pos ha]
      rw [heq, if_pos (List.mem_map_of_mem ha)]
    · have heq : (l ++ [a]).eraseDups = l.eraseDups ++ [a] := by rw [eraseDups_concat, if_neg ha]
      have hidx : (l.eraseDups ++ [a]).idxOf a = l.eraseDups.length := by
        rw [List.idxOf_append_of_notMem (mt List.mem_eraseDups.mp ha)]
        simp
      rw [heq, hidx, if_neg, List.length_append, List.length_singleton, List.range_succ]
      rw [List.mem_map]
      rintro ⟨b, hb, hlen⟩
      exact absurd (List.idxOf_lt_length_of_mem (List.mem_eraseDups.mpr hb))
        (hlen ▸ Nat.lt_irrefl _)

end Numbering

/-! ## Calls -/

namespace Index

variable {α : Type} {ix : Index α}

/-- A request to an index in the making. -/
inductive Call (α : Type) where
  | assign (p : Path)
  | record (a : α) (ps : List Path)
  | gather (ss : List Segment) (build : Interpolation → α)

namespace Call

/-- Makes the call; the variables that are given out come first. -/
def run : Call α → Index α → List Var × Index α
  | .assign p, ix => ([(ix.assign p).1], (ix.assign p).2)
  | .record a ps, ix => ([], ix.record a ps)
  | .gather ss build, ix => ((interpolate ss ix).1.vars, ix.gather ss build)

/-- The paths to which variables are given, in order. -/
def bound : Call α → List Path
  | .assign p => [p]
  | .record _ _ => []
  | .gather ss _ => paths ss

/-- The paths of each computation that is recorded. -/
def readings : Call α → List (List Path)
  | .assign _ => []
  | .record _ ps => [ps]
  | .gather ss _ => [paths ss]

/-- All paths, in the order in which they are met. -/
def met (c : Call α) : List Path := c.bound ++ c.readings.flatten

end Call

def runAll : List (Call α) → Index α → List Var × Index α
  | [], ix => ([], ix)
  | c :: cs, ix =>
    let (given, ix) := c.run ix
    let (more, ix) := runAll cs ix
    (given ++ more, ix)

/-- The index holds the paths bound, each under its number, the paths of every computation,
and nodes for all that was met. -/
structure Accounts (bound : List Path) (readings : List (List Path)) (met : List Path)
    (ix : Index α) : Prop where
  traces : ix.trie.Traces (met.map (·.segments))
  varCount_eq : ix.varCount = bound.eraseDups.length
  var?_iff : ∀ ss v, ix.trie.var? ss = some v ↔
    ∃ p, bound.eraseDups[v]? = some p ∧ p.segments = ss
  length_eq : ix.computations.length = readings.length
  mem_readersAt : ∀ k ss, k ∈ ix.trie.readersAt ss ↔
    ∃ ps, readings[k]? = some ps ∧ ∃ p ∈ ps, p.segments = ss

variable {bound met : List Path} {readings : List (List Path)}

theorem accounts_empty : Accounts [] [] [] ({} : Index α) where
  traces := Trie.traces_empty
  varCount_eq := rfl
  var?_iff ss v := by
    rw [Trie.var?_eq, Trie.down_empty]
    simp [Trie.empty, Trie.own]
  length_eq := rfl
  mem_readersAt k ss := by
    rw [Trie.readersAt, Trie.down_empty]
    simp [Trie.empty, Trie.here]

theorem Accounts.assign (h : Accounts bound readings met ix) (p : Path) :
    Accounts (bound ++ [p]) readings (met ++ [p]) (ix.assign p).2 ∧
      (bound ++ [p]).eraseDups[(ix.assign p).1]? = some p := by
  have htraces : ∀ v, (ix.trie.modify (Trie.setVar v) p.segments).Traces
      ((met ++ [p]).map (·.segments)) := by
    intro v
    rw [List.map_append]
    exact h.traces.modify (Trie.branches_setVar v) p.segments
  unfold Index.assign
  cases hv : ix.trie.var? p.segments with
  | some v =>
    obtain ⟨q, hq, hseg⟩ := (h.var?_iff _ v).mp hv
    obtain rfl := Path.eq_of_segments hseg
    have hmem : q ∈ bound := List.mem_eraseDups.mp (List.mem_of_getElem? hq)
    have hsame : (bound ++ [q]).eraseDups = bound.eraseDups := by
      rw [eraseDups_concat, if_pos hmem]
    refine ⟨⟨?_, ?_, ?_, h.length_eq, h.mem_readersAt⟩, hsame ▸ hq⟩
    · exact Trie.modify_setVar_self hv ▸ htraces v
    · rw [hsame, h.varCount_eq]
    · rw [hsame]
      exact h.var?_iff
  | none =>
    have hmem : p ∉ bound := by
      intro hp
      obtain ⟨v, hv'⟩ := List.getElem?_of_mem (List.mem_eraseDups.mpr hp)
      have hs := (h.var?_iff p.segments v).mpr ⟨p, hv', rfl⟩
      rw [hv] at hs
      cases hs
    have hsnoc : (bound ++ [p]).eraseDups = bound.eraseDups ++ [p] := by
      rw [eraseDups_concat, if_neg hmem]
    have hlast : (bound ++ [p]).eraseDups[ix.varCount]? = some p := by
      rw [hsnoc, h.varCount_eq, List.getElem?_concat_length]
    refine ⟨⟨htraces _, ?_, ?_, h.length_eq, ?_⟩, hlast⟩
    · rw [hsnoc, List.length_append, ← h.varCount_eq]
      rfl
    · intro ss v
      rw [Trie.var?_modify_setVar]
      split
      · rename_i hss
        constructor
        · intro hvv
          obtain rfl := Option.some.inj hvv
          exact ⟨p, hlast, hss.symm⟩
        · rintro ⟨q, hq, rfl⟩
          obtain rfl := Path.eq_of_segments hss
          rw [← idxOf_eq hq, idxOf_eq hlast]
      · rename_i hss
        rw [h.var?_iff]
        refine exists_congr fun q => and_congr_left fun hq => ?_
        have hne : q ≠ p := fun he => hss (hq ▸ he ▸ rfl)
        rw [hsnoc, List.getElem?_append]
        split
        · rfl
        · rename_i hlt
          rw [List.getElem?_eq_none (Nat.le_of_not_lt hlt)]
          constructor
          · intro hn
            cases hn
          · intro hs
            exact absurd (List.mem_singleton.mp (List.mem_of_getElem? hs)) hne
    · intro k ss
      rw [Trie.readersAt_modify_setVar]
      exact h.mem_readersAt k ss

theorem Accounts.record (h : Accounts bound readings met ix) (a : α) (ps : List Path) :
    Accounts bound (readings ++ [ps]) (met ++ ps) (ix.record a ps) where
  traces := by
    rw [List.map_append]
    exact Trie.traces_foldl_addReader _ ps h.traces
  varCount_eq := h.varCount_eq
  var?_iff ss v := by
    rw [Index.record, var?_foldl_addReader]
    exact h.var?_iff ss v
  length_eq := by simp [Index.record, h.length_eq]
  mem_readersAt k ss := by
    rw [Index.record, mem_readersAt_foldl, h.mem_readersAt, h.length_eq]
    rw [List.getElem?_append]
    split
    · rename_i hlt
      simp [Nat.ne_of_lt hlt]
    · rename_i hle
      rw [List.getElem?_eq_none (Nat.le_of_not_lt hle), List.getElem?_singleton]
      have hk : k - readings.length = 0 ↔ k = readings.length := by omega
      simp only [hk]
      split <;> simp_all

theorem Accounts.interpolate (ss : List Segment) : ∀ {ix : Index α} {bound met : List Path},
    Accounts bound readings met ix →
      Accounts (bound ++ paths ss) readings (met ++ paths ss) (Index.interpolate ss ix).2 ∧
      List.Forall₂ (fun v p => (bound ++ paths ss).eraseDups[v]? = some p)
        (Index.interpolate ss ix).1.vars (paths ss) := by
  induction ss with
  | nil =>
    intro ix bound met h
    refine ⟨?_, .nil⟩
    rw [paths, List.filterMap_nil, List.append_nil, List.append_nil]
    exact h
  | cons s ss ih =>
    intro ix bound met h
    cases s with
    | literal s =>
      obtain ⟨hacc, hvars⟩ := ih h
      refine ⟨hacc, ?_⟩
      simp only [Index.interpolate]
      split
      · exact hvars
      · exact hvars
    | reference p =>
      obtain ⟨hacc, hv⟩ := h.assign p
      obtain ⟨hacc', hvars⟩ := ih hacc
      have hcons : ∀ ps : List Path, ps ++ paths (.reference p :: ss) = ps ++ [p] ++ paths ss := by
        intro ps
        rw [List.append_assoc]
        rfl
      rw [hcons, hcons]
      exact ⟨hacc', .cons (getElem?_eraseDups_append _ hv) hvars⟩

theorem Accounts.run (h : Accounts bound readings met ix) (c : Call α) :
    Accounts (bound ++ c.bound) (readings ++ c.readings) (met ++ c.met) (c.run ix).2 ∧
      List.Forall₂ (fun v p => (bound ++ c.bound).eraseDups[v]? = some p) (c.run ix).1 c.bound := by
  cases c with
  | assign p =>
    obtain ⟨hacc, hv⟩ := h.assign p
    refine ⟨?_, .cons hv .nil⟩
    simpa [Call.bound, Call.readings, Call.met, Call.run] using hacc
  | record a ps =>
    refine ⟨?_, .nil⟩
    simpa [Call.bound, Call.readings, Call.met, Call.run] using h.record a ps
  | gather ss build =>
    obtain ⟨hacc, hvars⟩ := h.interpolate ss
    refine ⟨?_, hvars⟩
    have hrec := hacc.record (build (Index.interpolate ss ix).1) (paths ss)
    simpa [Call.bound, Call.readings, Call.met, Call.run, Index.gather] using hrec

theorem Accounts.runAll (calls : List (Call α)) : ∀ {ix : Index α} {bound met : List Path}
    {readings : List (List Path)}, Accounts bound readings met ix →
      Accounts (bound ++ calls.flatMap Call.bound) (readings ++ calls.flatMap Call.readings)
        (met ++ calls.flatMap Call.met) (Index.runAll calls ix).2 ∧
      List.Forall₂ (fun v p => (bound ++ calls.flatMap Call.bound).eraseDups[v]? = some p)
        (Index.runAll calls ix).1 (calls.flatMap Call.bound) := by
  induction calls with
  | nil =>
    intro ix bound met readings h
    exact ⟨by simpa [Index.runAll] using h, .nil⟩
  | cons c cs ih =>
    intro ix bound met readings h
    obtain ⟨hacc, hgiven⟩ := h.run c
    obtain ⟨hacc', hmore⟩ := ih hacc
    simp only [List.flatMap_cons, ← List.append_assoc]
    refine ⟨hacc', List.rel_append (hgiven.imp fun v p hv => ?_) hmore⟩
    exact getElem?_eraseDups_append _ hv

/-! ## Routes -/

/-- The route of a path: under its dotted name, each path bound at or below it once, with
its variable and the way to it from here; and the computations recorded with one at or
below it. -/
structure Dispatches (var : Path → Var) (bound : List Path) (readings : List (List Path))
    (ss : List String) (r : Route) : Prop where
  key_eq : r.key = dotted ss
  bindings_perm : r.bindings.Perm ((bound.eraseDups.filter fun q => ss.isPrefixOf q.segments).map
    fun q => (var q, q.segments.drop ss.length))
  ascending : r.computations.Pairwise (· < ·)
  mem_computations : ∀ k, k ∈ r.computations ↔
    ∃ ps, readings[k]? = some ps ∧ ∃ p ∈ ps, ss <+: p.segments

theorem Accounts.dispatches (h : Accounts bound readings met ix) (ss : List String) :
    Dispatches bound.eraseDups.idxOf bound readings ss
      (Trie.route ix.computations.length ss (ix.trie.down ss)) where
  key_eq := rfl
  bindings_perm := by
    have hdistinct := h.traces.distinct.down ss
    obtain ⟨seen, hseen⟩ := h.traces.down ss
    have hnodup := (nodup_eraseDups bound).filter fun q => ss.isPrefixOf q.segments
    refine (List.perm_ext_iff_of_nodup (Trie.nodup_vars hseen) (hnodup.map_on ?_)).mpr ?_
    · intro p hp q _ heq
      exact (List.idxOf_inj (List.mem_filter.mp hp).1).mp (Prod.mk.inj heq).1
    · rintro ⟨v, ts⟩
      rw [Trie.mem_vars hdistinct, ← Trie.var?_append, h.var?_iff, List.mem_map]
      constructor
      · rintro ⟨p, hp, hseg⟩
        refine ⟨p, List.mem_filter.mpr ⟨List.mem_of_getElem? hp, ?_⟩, ?_⟩
        · rw [hseg, List.isPrefixOf_iff_prefix]
          exact List.prefix_append ss ts
        · rw [idxOf_eq hp, hseg, List.drop_left]
      · rintro ⟨p, hp, heq⟩
        obtain ⟨hp, hpre⟩ := List.mem_filter.mp hp
        obtain ⟨us, hus⟩ := List.isPrefixOf_iff_prefix.mp hpre
        rw [← hus, List.drop_left] at heq
        obtain ⟨rfl, rfl⟩ := Prod.mk.inj heq
        exact ⟨p, List.getElem?_idxOf hp, hus.symm⟩
  ascending := List.pairwise_lt_range.filter _
  mem_computations k := by
    simp only [Trie.route, List.mem_filter, List.mem_range, List.contains_iff_mem,
      Trie.mem_readers (h.traces.distinct.down ss), ← Trie.readersAt_append, h.mem_readersAt]
    constructor
    · rintro ⟨_, ts, ps, hps, p, hp, hseg⟩
      exact ⟨ps, hps, p, hp, hseg ▸ List.prefix_append ss ts⟩
    · rintro ⟨ps, hps, p, hp, us, hus⟩
      refine ⟨?_, us, ps, hps, p, hp, hus.symm⟩
      rw [h.length_eq]
      exact (List.getElem?_eq_some_iff.mp hps).1

theorem Accounts.exists_keys (h : Accounts bound readings met ix) :
    ∃ keys : List (List String),
      (∀ ss, ss ∈ keys ↔ ss ≠ [] ∧ ∃ p ∈ met, ss <+: p.segments) ∧
      (keys.map dotted).Nodup ∧ keys.Pairwise (Precedes (met.map (·.segments))) ∧
      List.Forall₂ (Dispatches bound.eraseDups.idxOf bound readings) keys ix.routes := by
  cases ht : ix.trie with
  | node v rs bs =>
    have htraces := h.traces
    rw [ht] at htraces
    have hmem : ∀ ss, ss ∈ Trie.branchOutline bs ↔ ss ≠ [] ∧ ∃ p ∈ met, ss <+: p.segments := by
      intro ss
      have hout : ss ∈ Trie.outline (.node v rs bs) ↔ _ := Trie.mem_outline htraces
      simp only [Trie.outline, List.mem_cons, List.mem_map, exists_exists_and_eq_and] at hout
      constructor
      · intro hss
        obtain ⟨s, us, rfl, _⟩ := Trie.exists_cons_of_mem_branchOutline hss
        exact ⟨by simp, (hout.mp (.inr hss)).resolve_left (by simp)⟩
      · exact fun ⟨hne, hp⟩ => (hout.mpr (.inr hp)).resolve_left hne
    refine ⟨Trie.branchOutline bs, hmem, ?_,
      (List.pairwise_cons.mp (Trie.pairwise_outline htraces)).2, ?_⟩
    · refine (List.nodup_cons.mp (Trie.nodup_outline htraces)).2.map_on fun ss hss ts hts heq => ?_
      obtain ⟨hss, p, _, hp⟩ := (hmem ss).mp hss
      obtain ⟨hts, q, _, hq⟩ := (hmem ts).mp hts
      exact dotted_inj hss hts (fun s hs => p.isIdentifier_of_mem s (hp.subset hs))
        (fun t ht => q.isIdentifier_of_mem t (hq.subset ht)) heq
    · rw [routes, ht, Trie.branches, Trie.branchRoutes_eq _ htraces.distinct.1 htraces.distinct.2,
        List.forall₂_map_right_iff, List.forall₂_same]
      intro ss hss
      obtain ⟨s, us, rfl, _⟩ := Trie.exists_cons_of_mem_branchOutline hss
      have hat := h.dispatches (s :: us)
      rw [ht] at hat
      exact hat

/-! ## Names -/

/-- The dotted names of the paths bound, each with the variable of its path. -/
def namesOf (bound : List Path) : List (String × Var) :=
  bound.eraseDups.map fun p => (dotted p.segments, bound.eraseDups.idxOf p)

theorem nodup_namesOf (bound : List Path) : ((namesOf bound).map (·.1)).Nodup := by
  rw [namesOf, List.map_map]
  refine (nodup_eraseDups bound).map_on fun p _ q _ heq => Path.eq_of_segments ?_
  exact dotted_inj p.segments_ne_nil q.segments_ne_nil p.isIdentifier_of_mem
    q.isIdentifier_of_mem heq

theorem vars_namesOf (bound : List Path) :
    (namesOf bound).map (·.2) = List.range bound.eraseDups.length := by
  rw [namesOf, List.map_map]
  refine List.ext_getElem (by simp) fun i hi hi' => ?_
  rw [List.getElem_map, List.getElem_range]
  exact (nodup_eraseDups bound).idxOf_getElem i (by simpa using hi)

theorem Accounts.var?_iff_names (h : Accounts bound readings met ix) (p : Path) (v : Var) :
    ix.trie.var? p.segments = some v ↔ (dotted p.segments, v) ∈ namesOf bound := by
  rw [h.var?_iff, namesOf, List.mem_map]
  constructor
  · rintro ⟨q, hq, hseg⟩
    obtain rfl := Path.eq_of_segments hseg
    exact ⟨q, List.mem_of_getElem? hq, by rw [idxOf_eq hq]⟩
  · rintro ⟨q, hq, heq⟩
    obtain ⟨hname, rfl⟩ := Prod.mk.inj heq
    refine ⟨q, List.getElem?_idxOf hq, ?_⟩
    rw [← q.undotted_dotted, hname, p.undotted_dotted]

/-- The bindings of a route are the names at or below its key, each with what follows the
segments of the key in it. -/
theorem Dispatches.bindings_names {ss : List String} {r : Route}
    (h : Dispatches bound.eraseDups.idxOf bound readings ss r) (hss : undotted r.key = ss) :
    r.bindings.Perm (((namesOf bound).filter fun n =>
      (undotted r.key).isPrefixOf (undotted n.1)).map fun n =>
        (n.2, (undotted n.1).drop (undotted r.key).length)) := by
  refine h.bindings_perm.trans (.of_eq ?_)
  rw [hss, namesOf, List.filter_map, List.map_map]
  have hfilter : bound.eraseDups.filter (fun q => ss.isPrefixOf q.segments) =
      bound.eraseDups.filter ((fun n : String × Var => ss.isPrefixOf (undotted n.1)) ∘
        fun p => (dotted p.segments, bound.eraseDups.idxOf p)) :=
    List.filter_congr fun q _ => by rw [Function.comp_apply, q.undotted_dotted]
  rw [← hfilter]
  exact List.map_congr_left fun q _ => by rw [Function.comp_apply, q.undotted_dotted]

/-- Paths bound can as well be kept by their dotted names: after any calls no two share a
name, a path has the variable of its name, and a route leads to the names at or below its
key, each by what its segments have in addition. -/
theorem names_runAll (calls : List (Call α)) :
    let r := Index.runAll calls {}
    let names := namesOf (calls.flatMap Call.bound)
    (names.map (·.1)).Nodup ∧ names.map (·.2) = List.range r.2.varCount ∧
      (∀ (p : Path) v, r.2.trie.var? p.segments = some v ↔ (dotted p.segments, v) ∈ names) ∧
      ∀ route ∈ r.2.routes, route.bindings.Perm
        ((names.filter fun n => (undotted route.key).isPrefixOf (undotted n.1)).map fun n =>
          (n.2, (undotted n.1).drop (undotted route.key).length)) := by
  obtain ⟨hacc, _⟩ := accounts_empty.runAll calls
  simp only [List.nil_append] at hacc
  refine ⟨nodup_namesOf _, ?_, hacc.var?_iff_names, fun route hroute => ?_⟩
  · rw [vars_namesOf, hacc.varCount_eq]
  · obtain ⟨keys, hmem, _, _, hroutes⟩ := hacc.exists_keys
    obtain ⟨i, rfl⟩ := List.mem_iff_get.mp hroute
    have hi : i < keys.length := hroutes.length_eq.symm ▸ i.isLt
    have hdispatches := hroutes.get hi i.isLt
    obtain ⟨hne, p, _, hp⟩ := (hmem _).mp (List.get_mem keys ⟨i, hi⟩)
    refine hdispatches.bindings_names ?_
    rw [hdispatches.key_eq]
    exact undotted_dotted hne fun s hs => p.isIdentifier_of_mem s (hp.subset hs)

/-- After any calls a path has one variable and no other path has it; the variables that
were given out are the first numbers, in the order of the paths bound. There is one route
for each beginning of a path that was met, shorter paths before what continues them and
otherwise in the order in which they were met, and it leads to what is at or below it. -/
theorem routes_runAll (calls : List (Call α)) :
    let r := Index.runAll calls {}
    let bound := calls.flatMap Call.bound
    let readings := calls.flatMap Call.readings
    let met := calls.flatMap Call.met
    ∃ var : Path → Var, r.1 = bound.map var ∧
      (∀ p ∈ bound, ∀ q ∈ bound, var p = var q ↔ p = q) ∧
      r.1.eraseDups = List.range r.2.varCount ∧
      ∃ keys : List (List String),
        (∀ ss, ss ∈ keys ↔ ss ≠ [] ∧ ∃ p ∈ met, ss <+: p.segments) ∧
        (keys.map dotted).Nodup ∧ keys.Pairwise (Precedes (met.map (·.segments))) ∧
        List.Forall₂ (Dispatches var bound readings) keys r.2.routes := by
  intro r bound readings met
  obtain ⟨hacc, hgiven⟩ := accounts_empty.runAll calls
  simp only [List.nil_append] at hacc hgiven
  have hmap : r.1 = bound.map bound.eraseDups.idxOf := by
    rw [← List.forall₂_eq_eq_eq, List.forall₂_map_right_iff]
    exact hgiven.imp fun v p hv => (idxOf_eq hv).symm
  refine ⟨bound.eraseDups.idxOf, hmap, ?_, ?_, hacc.exists_keys⟩
  · intro p hp q _
    exact List.idxOf_inj (List.mem_eraseDups.mpr hp)
  · rw [hmap, eraseDups_map_idxOf, hacc.varCount_eq]

/-- One path that begins with the letters of another, and one that is read without being bound. -/
example :
    let ab : Path := ⟨["ab"], by decide, by decide⟩
    let abc : Path := ⟨["a", "b", "c"], by decide, by decide⟩
    let ad : Path := ⟨["a", "d"], by decide, by decide⟩
    let r := Index.runAll [.assign ab, .record 'x' [ad],
      .gather [.reference abc, .reference ab] fun _ => 'y'] {}
    r.1 = [0, 1, 0] ∧ r.2.routes =
      [⟨"ab", [(0, [])], [1]⟩, ⟨"a", [(1, ["b", "c"])], [0, 1]⟩, ⟨"a.d", [], [0]⟩,
        ⟨"a.b", [(1, ["c"])], [1]⟩, ⟨"a.b.c", [(1, [])], [1]⟩] := by
  decide +kernel

end Index
end Binding
end Stencil

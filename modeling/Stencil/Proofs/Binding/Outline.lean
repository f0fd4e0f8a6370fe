import Mathlib.Data.List.Induction
import Mathlib.Data.List.Nodup
import Stencil.Proofs.Binding.Trie

/-! The paths that a trie has nodes for, in the order of its routes. When the nodes were made
for a list of paths, one after the other, these are the beginnings of the paths listed: each
before what continues it, and what goes on differently in the order in which it was first
seen. -/
namespace Stencil.Binding

theorem eraseDups_concat {α : Type} [DecidableEq α] (l : List α) (a : α) :
    (l ++ [a]).eraseDups = if a ∈ l then l.eraseDups else l.eraseDups ++ [a] := by
  rw [List.eraseDups_append]
  by_cases h : a ∈ l <;> simp [List.removeAll, List.eraseDups_cons, h]

theorem nodup_eraseDups {α : Type} [DecidableEq α] (l : List α) : l.eraseDups.Nodup := by
  induction l using List.reverseRecOn with
  | nil => exact List.nodup_nil
  | append_singleton l a ih =>
    rw [eraseDups_concat]
    split
    · exact ih
    · rename_i h
      refine List.nodup_append.mpr ⟨ih, List.nodup_singleton a, ?_⟩
      rintro b hb c hc rfl
      exact h (List.mem_singleton.mp hc ▸ List.mem_eraseDups.mp hb)

/-! ## The order in which paths are seen -/

/-- Where the first path stands that begins with `ss`. -/
def firstSeen (seen : List (List String)) (ss : List String) : Nat :=
  seen.findIdx fun q => ss.isPrefixOf q

/-- A path comes before what continues it; of two that part, the one whose way was seen
first comes first. -/
def Precedes (seen : List (List String)) (ss ts : List String) : Prop :=
  ss <+: ts ∧ ss ≠ ts ∨ ∃ us a b, us ++ [a] <+: ss ∧ us ++ [b] <+: ts ∧
    firstSeen seen (us ++ [a]) < firstSeen seen (us ++ [b])

/-- The first segments of the paths. -/
def firsts (seen : List (List String)) : List String := seen.filterMap List.head?

/-- What follows `s` in the paths that begin with it. -/
def rests (s : String) (seen : List (List String)) : List (List String) :=
  seen.filterMap fun
    | [] => none
    | k :: ss => if k = s then some ss else none

variable {seen : List (List String)} {s a b : String} {ss ts us : List String}

theorem Precedes.irrefl : ¬ Precedes seen ss ss := by
  rintro (⟨_, h⟩ | ⟨us, a, b, ha, hb, h⟩)
  · exact h rfl
  · have heq : us ++ [a] = us ++ [b] :=
      (List.prefix_of_prefix_length_le ha hb (by simp)).eq_of_length (by simp)
    rw [heq] at h
    exact Nat.lt_irrefl _ h

theorem mem_rests : ts ∈ rests s seen ↔ s :: ts ∈ seen := by
  unfold rests
  rw [List.mem_filterMap]
  constructor
  · rintro ⟨_ | ⟨k, q⟩, hq, h⟩
    · cases h
    · dsimp only at h
      split at h
      · rename_i hk
        rw [← hk, ← Option.some.inj h]
        exact hq
      · cases h
  · exact fun h => ⟨s :: ts, h, if_pos rfl⟩

theorem mem_firsts : s ∈ firsts seen ↔ ∃ ts, s :: ts ∈ seen := by
  unfold firsts
  rw [List.mem_filterMap]
  constructor
  · rintro ⟨_ | ⟨k, q⟩, hq, h⟩
    · cases h
    · exact ⟨q, Option.some.inj h ▸ hq⟩
  · exact fun ⟨ts, h⟩ => ⟨s :: ts, h, rfl⟩

theorem firsts_append (seen seen' : List (List String)) :
    firsts (seen ++ seen') = firsts seen ++ firsts seen' := List.filterMap_append

theorem rests_append (s : String) (seen seen' : List (List String)) :
    rests s (seen ++ seen') = rests s seen ++ rests s seen' := List.filterMap_append

theorem rests_eq_nil (h : s ∉ firsts seen) : rests s seen = [] :=
  List.eq_nil_iff_forall_not_mem.mpr fun ts hts => h (mem_firsts.mpr ⟨ts, mem_rests.mp hts⟩)

theorem firstSeen_lt_length : firstSeen seen [s] < seen.length ↔ s ∈ firsts seen := by
  unfold firstSeen
  rw [List.findIdx_lt_length, mem_firsts]
  constructor
  · rintro ⟨_ | ⟨k, q⟩, hq, h⟩
    · cases h
    · obtain rfl : s = k := by simpa using h
      exact ⟨q, hq⟩
  · exact fun ⟨ts, h⟩ => ⟨s :: ts, h, by simp⟩

theorem firstSeen_append (seen' : List (List String)) (h : s ∈ firsts seen) :
    firstSeen (seen ++ seen') [s] = firstSeen seen [s] := by
  have hlt := firstSeen_lt_length.mpr h
  unfold firstSeen at hlt ⊢
  rw [List.findIdx_append, if_pos hlt]

theorem length_le_firstSeen_append (seen' : List (List String)) (h : s ∉ firsts seen) :
    seen.length ≤ firstSeen (seen ++ seen') [s] := by
  have hlt := mt firstSeen_lt_length.mp h
  unfold firstSeen at hlt ⊢
  rw [List.findIdx_append, if_neg hlt]
  exact Nat.le_add_left _ _

/-- First segments without repetition stand in the order in which they were seen. -/
theorem pairwise_firsts (seen : List (List String)) :
    (firsts seen).eraseDups.Pairwise fun a b => firstSeen seen [a] < firstSeen seen [b] := by
  induction seen using List.reverseRecOn with
  | nil => exact .nil
  | append_singleton seen q ih =>
    have hkeep : (firsts seen).eraseDups.Pairwise fun a b =>
        firstSeen (seen ++ [q]) [a] < firstSeen (seen ++ [q]) [b] := by
      refine ih.imp_of_mem fun ha hb h => ?_
      rwa [firstSeen_append _ (List.mem_eraseDups.mp ha),
        firstSeen_append _ (List.mem_eraseDups.mp hb)]
    rw [firsts_append]
    cases q with
    | nil => exact (List.append_nil (firsts seen)).symm ▸ hkeep
    | cons s ss =>
      change (firsts seen ++ [s]).eraseDups.Pairwise _
      rw [eraseDups_concat]
      split
      · exact hkeep
      · rename_i hs
        refine List.pairwise_append.mpr ⟨hkeep, List.pairwise_singleton _ _, fun a ha b hb => ?_⟩
        have ha := List.mem_eraseDups.mp ha
        rw [List.mem_singleton.mp hb, firstSeen_append _ ha]
        exact Nat.lt_of_lt_of_le (firstSeen_lt_length.mpr ha) (length_le_firstSeen_append _ hs)

theorem firstSeen_cons (q : List String) (seen : List (List String)) (ss : List String) :
    firstSeen (q :: seen) ss = if ss.isPrefixOf q then 0 else firstSeen seen ss + 1 := by
  unfold firstSeen
  rw [List.findIdx_cons, Bool.cond_eq_ite]

theorem firstSeen_cons_lt (h : firstSeen (rests s seen) ss < firstSeen (rests s seen) ts) :
    firstSeen seen (s :: ss) < firstSeen seen (s :: ts) := by
  induction seen with
  | nil => exact absurd h (Nat.lt_irrefl _)
  | cons q seen ih =>
    cases q with
    | nil =>
      rw [firstSeen_cons, firstSeen_cons, if_neg (by simp), if_neg (by simp)]
      exact Nat.succ_lt_succ (ih h)
    | cons k q =>
      by_cases hk : k = s
      · subst hk
        have hrests : rests k ((k :: q) :: seen) = q :: rests k seen := by simp [rests]
        rw [hrests, firstSeen_cons, firstSeen_cons] at h
        rw [firstSeen_cons, firstSeen_cons, List.isPrefixOf_cons_cons_self,
          List.isPrefixOf_cons_cons_self]
        by_cases hts : ts.isPrefixOf q = true
        · rw [if_pos hts] at h
          exact absurd h (Nat.not_lt_zero _)
        · rw [if_neg hts] at h ⊢
          by_cases hss : ss.isPrefixOf q = true
          · rw [if_pos hss]
            exact Nat.succ_pos _
          · rw [if_neg hss] at h ⊢
            exact Nat.succ_lt_succ (ih (Nat.lt_of_succ_lt_succ h))
      · have hrests : rests s ((k :: q) :: seen) = rests s seen := by simp [rests, hk]
        have hp : ∀ us, ¬ (s :: us).isPrefixOf (k :: q) = true := by
          intro us hp
          exact hk (List.cons_prefix_cons.mp (List.isPrefixOf_iff_prefix.mp hp)).1.symm
        rw [hrests] at h
        rw [firstSeen_cons, firstSeen_cons, if_neg (hp ss), if_neg (hp ts)]
        exact Nat.succ_lt_succ (ih h)

theorem Precedes.cons (h : Precedes (rests s seen) ss ts) : Precedes seen (s :: ss) (s :: ts) := by
  rcases h with ⟨h, hne⟩ | ⟨us, a, b, ha, hb, h⟩
  · exact .inl ⟨List.cons_prefix_cons.mpr ⟨rfl, h⟩, fun he => hne (List.cons.inj he).2⟩
  · exact .inr ⟨s :: us, a, b, List.cons_prefix_cons.mpr ⟨rfl, ha⟩,
      List.cons_prefix_cons.mpr ⟨rfl, hb⟩, firstSeen_cons_lt h⟩

namespace Trie

/-! ## Nodes made for a list of paths -/

mutual

/-- The node's branches, and theirs in turn, are those of the paths seen, in order. -/
def Traces : Trie → List (List String) → Prop
  | .node _ _ bs, seen => bs.map (·.1) = (firsts seen).eraseDups ∧ AllTrace bs seen

def AllTrace : List (String × Trie) → List (List String) → Prop
  | [], _ => True
  | (s, t) :: bs, seen => Traces t (rests s seen) ∧ AllTrace bs seen

end

theorem traces_empty : Traces empty [] := ⟨rfl, trivial⟩

theorem AllTrace.congr {bs : List (String × Trie)} {seen' : List (List String)}
    (h : AllTrace bs seen) (heq : ∀ s ∈ bs.map (·.1), rests s seen' = rests s seen) :
    AllTrace bs seen' := by
  induction bs with
  | nil => trivial
  | cons b bs ih =>
    refine ⟨?_, ih h.2 fun s hs => heq s (List.mem_cons_of_mem _ hs)⟩
    rw [heq b.1 List.mem_cons_self]
    exact h.1

theorem AllTrace.branch? {bs : List (String × Trie)} (h : AllTrace bs seen) {t : Trie}
    (ht : branch? s bs = some t) : Traces t (rests s seen) := by
  induction bs with
  | nil => cases ht
  | cons b bs ih =>
    obtain ⟨k, u⟩ := b
    rw [Trie.branch?] at ht
    split at ht
    · rename_i hk
      cases ht
      exact hk ▸ h.1
    · exact ih h.2 ht

/-- A path leads into one branch. -/
theorem AllTrace.alter {bs : List (String × Trie)} (h : AllTrace bs seen)
    (hn : (bs.map (·.1)).Nodup) (hnew : s ∉ bs.map (·.1) → rests s seen = []) {f : Trie → Trie}
    (hf : ∀ t seen, Traces t seen → Traces (f t) (seen ++ [ss])) :
    AllTrace (alter s f bs) (seen ++ [s :: ss]) := by
  have hsame : rests s (seen ++ [s :: ss]) = rests s seen ++ [ss] := by
    rw [rests_append]
    simp [rests]
  have hother : ∀ k, k ≠ s → rests k (seen ++ [s :: ss]) = rests k seen := by
    intro k hk
    rw [rests_append]
    simp [rests, hk.symm]
  induction bs with
  | nil =>
    refine ⟨?_, trivial⟩
    rw [hsame, hnew List.not_mem_nil]
    exact hf _ _ traces_empty
  | cons b bs ih =>
    obtain ⟨k, t⟩ := b
    rw [List.map_cons, List.nodup_cons] at hn
    rw [Trie.alter]
    split
    · rename_i hk
      subst hk
      refine ⟨?_, h.2.congr fun k' hk' => hother k' fun he => hn.1 (he ▸ hk')⟩
      rw [hsame]
      exact hf t _ h.1
    · rename_i hk
      refine ⟨?_, ih h.2 hn.2 fun hs => hnew fun hm => ?_⟩
      · rw [hother k hk]
        exact h.1
      · rcases List.mem_cons.mp hm with rfl | hm
        · exact hk rfl
        · exact hs hm

theorem Traces.modify {f : Trie → Trie} (hf : ∀ t, (f t).branches = t.branches)
    (ss : List String) : ∀ {t : Trie} {seen : List (List String)}, Traces t seen →
      Traces (modify f ss t) (seen ++ [ss]) := by
  induction ss with
  | nil =>
    rintro ⟨v, rs, bs⟩ seen ⟨hnames, hall⟩
    have hb := hf (.node v rs bs)
    rw [Trie.modify]
    cases hx : f (.node v rs bs) with
    | node v' rs' bs' =>
      rw [hx, branches, branches] at hb
      subst hb
      refine ⟨?_, hall.congr fun s _ => ?_⟩
      · rw [hnames, firsts_append]
        exact congrArg _ (List.append_nil _).symm
      · rw [rests_append]
        exact List.append_nil _
  | cons s ss ih =>
    rintro ⟨v, rs, bs⟩ seen ⟨hnames, hall⟩
    refine ⟨?_, hall.alter (hnames ▸ nodup_eraseDups _) (fun hs => rests_eq_nil fun hm => ?_)
      fun _ _ => ih⟩
    · rw [map_fst_alter, firsts_append, hnames]
      change _ = (firsts seen ++ [s]).eraseDups
      rw [eraseDups_concat]
      simp only [List.mem_eraseDups]
    · exact hs (hnames ▸ List.mem_eraseDups.mpr hm)

theorem alter_eq_self {f : Trie → Trie} {bs : List (String × Trie)} {t : Trie}
    (hb : branch? s bs = some t) (hf : f t = t) : alter s f bs = bs := by
  induction bs with
  | nil => cases hb
  | cons b bs ih =>
    obtain ⟨k, u⟩ := b
    rw [branch?] at hb
    rw [alter]
    split at hb
    · cases hb
      rw [if_pos ‹_›, hf]
    · rw [if_neg ‹_›, ih hb]

theorem traces_foldl_addReader (i : Nat) (ps : List Path) {t : Trie} (h : Traces t seen) :
    Traces (ps.foldl (fun t p => t.modify (addReader i) p.segments) t)
      (seen ++ ps.map (·.segments)) := by
  induction ps generalizing t seen with
  | nil => exact (List.append_nil seen).symm ▸ h
  | cons p ps ih =>
    have hstep := ih (h.modify (branches_addReader i) p.segments)
    rwa [List.append_assoc] at hstep

/-- To give a path the variable that it has changes nothing. -/
theorem modify_setVar_self {v : Var} : ∀ {ss : List String} {t : Trie}, var? ss t = some v →
    modify (setVar v) ss t = t
  | [], .node x rs bs, h => by
    rw [modify, setVar]
    exact congrArg (node · rs bs) h.symm
  | s :: ss, .node x rs bs, h => by
    rw [var?] at h
    obtain ⟨t, hb, ht⟩ := Option.bind_eq_some_iff.mp h
    rw [modify, alter_eq_self hb (modify_setVar_self ht)]

theorem Traces.down {t : Trie} (h : Traces t seen) (ss : List String) :
    ∃ seen', Traces (down ss t) seen' := by
  induction ss generalizing t seen with
  | nil => exact ⟨seen, h⟩
  | cons s ss ih =>
    obtain ⟨v, rs, bs⟩ := t
    rw [Trie.down, branches]
    cases hb : branch? s bs with
    | none => exact ih traces_empty
    | some u => exact ih (h.2.branch? hb)

mutual

theorem Traces.distinct : ∀ {t : Trie} {seen : List (List String)}, Traces t seen → Distinct t
  | .node _ _ _, _, h => ⟨h.1 ▸ nodup_eraseDups _, h.2.allDistinct⟩

theorem AllTrace.allDistinct : ∀ {bs : List (String × Trie)} {seen : List (List String)},
    AllTrace bs seen → AllDistinct bs
  | [], _, _ => trivial
  | (_, _) :: _, _, h => ⟨h.1.distinct, h.2.allDistinct⟩

end

/-! ## The outline of a trie -/

mutual

/-- The paths from a node to those below it, itself included, in the order of the routes. -/
def outline : Trie → List (List String)
  | .node _ _ bs => [] :: branchOutline bs

def branchOutline : List (String × Trie) → List (List String)
  | [] => []
  | (s, t) :: bs => (outline t).map (s :: ·) ++ branchOutline bs

end

theorem exists_cons_of_mem_branchOutline {bs : List (String × Trie)} (h : ts ∈ branchOutline bs) :
    ∃ s us, ts = s :: us ∧ s ∈ bs.map (·.1) := by
  induction bs with
  | nil => cases h
  | cons b bs ih =>
    rcases List.mem_append.mp h with h | h
    · obtain ⟨us, _, rfl⟩ := List.mem_map.mp h
      exact ⟨b.1, us, rfl, List.mem_cons_self⟩
    · obtain ⟨s, us, rfl, hs⟩ := ih h
      exact ⟨s, us, rfl, List.mem_cons_of_mem _ hs⟩

mutual

/-- There is a route for each path of the outline. -/
theorem routes_eq (n : Nat) : ∀ {t : Trie}, Distinct t → ∀ ss,
    routes n ss t = (outline t).map fun ts => route n (ss ++ ts) (down ts t)
  | .node v rs bs, h, ss => by
    rw [routes, outline, List.map_cons, List.append_nil, branchRoutes_eq n h.1 h.2 ss]
    refine congrArg _ (List.map_congr_left fun ts hts => ?_)
    obtain ⟨s, us, rfl, _⟩ := exists_cons_of_mem_branchOutline hts
    rfl

theorem branchRoutes_eq (n : Nat) : ∀ {bs : List (String × Trie)}, (bs.map (·.1)).Nodup →
    AllDistinct bs → ∀ ss, branchRoutes n ss bs =
      (branchOutline bs).map fun ts => route n (ss ++ ts) (down ts (.node none [] bs))
  | [], _, _, _ => rfl
  | (k, t) :: bs, hn, hd, ss => by
    rw [List.map_cons, List.nodup_cons] at hn
    rw [branchRoutes, branchOutline, List.map_append, routes_eq n hd.1, branchRoutes_eq n hn.2 hd.2,
      List.map_map]
    refine congr (congrArg _ (List.map_congr_left fun ts _ => ?_))
      (List.map_congr_left fun ts hts => ?_)
    · simp [down, branches, branch?]
    · obtain ⟨s, us, rfl, hs⟩ := exists_cons_of_mem_branchOutline hts
      have hk : k ≠ s := fun h => hn.1 (h ▸ hs)
      simp [down, branches, branch?, hk]

end

mutual

/-- The outline has the beginnings of the paths seen. -/
theorem mem_outline : ∀ {t : Trie} {seen : List (List String)}, Traces t seen →
    ∀ {ts : List String}, ts ∈ outline t ↔ ts = [] ∨ ∃ q ∈ seen, ts <+: q
  | .node _ _ bs, seen, h, ts => by
    rw [outline, List.mem_cons, mem_branchOutline h.2, h.1]
    refine or_congr_right' fun hne => ?_
    constructor
    · rintro ⟨s, us, rfl, hs, rfl | ⟨q, hq, hp⟩⟩
      · obtain ⟨q, hq⟩ := mem_firsts.mp (List.mem_eraseDups.mp hs)
        exact ⟨s :: q, hq, List.cons_prefix_cons.mpr ⟨rfl, List.nil_prefix⟩⟩
      · exact ⟨s :: q, mem_rests.mp hq, List.cons_prefix_cons.mpr ⟨rfl, hp⟩⟩
    · rintro ⟨q, hq, hp⟩
      obtain ⟨s, us, rfl⟩ := List.exists_cons_of_ne_nil hne
      obtain ⟨r, rfl, hr⟩ := List.cons_prefix_iff.mp hp
      exact ⟨s, us, rfl, List.mem_eraseDups.mpr (mem_firsts.mpr ⟨r, hq⟩),
        .inr ⟨r, mem_rests.mpr hq, hr⟩⟩

theorem mem_branchOutline : ∀ {bs : List (String × Trie)} {seen : List (List String)},
    AllTrace bs seen → ∀ {ts : List String}, ts ∈ branchOutline bs ↔
      ∃ s us, ts = s :: us ∧ s ∈ bs.map (·.1) ∧ (us = [] ∨ ∃ q ∈ rests s seen, us <+: q)
  | [], _, _, ts => by simp [branchOutline]
  | (k, t) :: bs, seen, h, ts => by
    rw [branchOutline, List.mem_append, mem_branchOutline h.2, List.mem_map]
    constructor
    · rintro (⟨us, hus, rfl⟩ | ⟨s, us, rfl, hs, h⟩)
      · exact ⟨k, us, rfl, List.mem_cons_self, (mem_outline h.1).mp hus⟩
      · exact ⟨s, us, rfl, List.mem_cons_of_mem _ hs, h⟩
    · rintro ⟨s, us, rfl, hs, hus⟩
      rcases List.mem_cons.mp hs with rfl | hs
      · exact .inl ⟨us, (mem_outline h.1).mpr hus, rfl⟩
      · exact .inr ⟨s, us, rfl, hs, hus⟩

end

mutual

theorem pairwise_outline : ∀ {t : Trie} {seen : List (List String)}, Traces t seen →
    (outline t).Pairwise (Precedes seen)
  | .node _ _ bs, seen, h => by
    refine List.pairwise_cons.mpr ⟨fun ts hts => ?_, pairwise_branchOutline h.2 ?_⟩
    · obtain ⟨s, us, rfl, _⟩ := exists_cons_of_mem_branchOutline hts
      exact .inl ⟨List.nil_prefix, by simp⟩
    · rw [h.1]
      exact pairwise_firsts seen

theorem pairwise_branchOutline : ∀ {bs : List (String × Trie)} {seen : List (List String)},
    AllTrace bs seen →
    (bs.map (·.1)).Pairwise (fun a b => firstSeen seen [a] < firstSeen seen [b]) →
      (branchOutline bs).Pairwise (Precedes seen)
  | [], _, _, _ => .nil
  | (k, t) :: bs, seen, h, hord => by
    rw [List.map_cons, List.pairwise_cons] at hord
    refine List.pairwise_append.mpr ⟨List.pairwise_map.mpr
      ((pairwise_outline h.1).imp Precedes.cons),
      pairwise_branchOutline h.2 hord.2, fun ss hss ts hts => ?_⟩
    obtain ⟨us, _, rfl⟩ := List.mem_map.mp hss
    obtain ⟨s, us', rfl, hs⟩ := exists_cons_of_mem_branchOutline hts
    -- the two part at once, at branches of this node
    exact .inr ⟨[], k, s, by simp, by simp, hord.1 s hs⟩

end

theorem nodup_outline {t : Trie} (h : Traces t seen) : (outline t).Nodup := by
  refine (pairwise_outline h).imp fun {ss ts} hp he => ?_
  subst he
  exact hp.irrefl

mutual

theorem map_snd_vars : ∀ t : Trie, ((vars t).map (·.2)).Sublist (outline t)
  | .node v rs bs => by
    rw [vars, outline, List.map_append]
    cases v with
    | none => exact (map_snd_branchVars bs).cons _
    | some v => exact (map_snd_branchVars bs).cons_cons _

theorem map_snd_branchVars : ∀ bs : List (String × Trie),
    ((branchVars bs).map (·.2)).Sublist (branchOutline bs)
  | [] => .slnil
  | (s, t) :: bs => by
    have hmap : ((vars t).map fun b => (b.1, s :: b.2)).map (·.2) =
        ((vars t).map (·.2)).map (s :: ·) := by simp
    rw [branchVars, branchOutline, List.map_append, hmap]
    exact ((map_snd_vars t).map _).append (map_snd_branchVars bs)

end

/-- A node binds each path below it once. -/
theorem nodup_vars {t : Trie} (h : Traces t seen) : (vars t).Nodup :=
  ((nodup_outline h).sublist (map_snd_vars t)).of_map _

end Trie
end Stencil.Binding

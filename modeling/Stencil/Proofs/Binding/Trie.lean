import Mathlib.Data.List.Nodup
import Stencil.Binding.Index

/-! What a trie says at a path. Changes at one path are seen there alone; the variables and
computations that a route gathers are those found at the paths below its own. -/
namespace Stencil.Binding.Trie

def own : Trie → Option Var
  | .node v _ _ => v

def here : Trie → List Nat
  | .node _ rs _ => rs

/-- The node at a path, an empty one if there is none. -/
def down : List String → Trie → Trie
  | [], t => t
  | s :: ss, t => down ss ((branch? s t.branches).getD empty)

/-- The computations that read a path. -/
def readersAt (ss : List String) (t : Trie) : List Nat := (down ss t).here

theorem down_empty (ss : List String) : down ss empty = empty := by
  induction ss with
  | nil => rfl
  | cons s ss ih => exact ih

theorem down_append (ss ts : List String) (t : Trie) :
    down (ss ++ ts) t = down ts (down ss t) := by
  induction ss generalizing t with
  | nil => rfl
  | cons s ss ih => exact ih _

theorem var?_eq (ss : List String) (t : Trie) : var? ss t = (down ss t).own := by
  induction ss generalizing t with
  | nil => cases t; rfl
  | cons s ss ih =>
    obtain ⟨v, rs, bs⟩ := t
    rw [var?, down, branches]
    cases h : branch? s bs with
    | none => rw [Option.getD_none, down_empty]; rfl
    | some u => simp [ih]

theorem var?_append (ss ts : List String) (t : Trie) : var? (ss ++ ts) t = var? ts (down ss t) := by
  rw [var?_eq, var?_eq, down_append]

theorem readersAt_append (ss ts : List String) (t : Trie) :
    readersAt (ss ++ ts) t = readersAt ts (down ss t) := by
  rw [readersAt, readersAt, down_append]

/-! ## Changes at a path -/

theorem branch?_alter (k s : String) (f : Trie → Trie) (bs : List (String × Trie)) :
    branch? k (alter s f bs) =
      if k = s then some (f ((branch? s bs).getD empty)) else branch? k bs := by
  induction bs with
  | nil => by_cases h : k = s <;> simp [alter, branch?, h, eq_comm]
  | cons b bs ih =>
    obtain ⟨x, t⟩ := b
    by_cases hx : x = s
    · subst hx
      by_cases hk : k = x <;> simp [alter, branch?, hk, eq_comm]
    · simp only [alter, if_neg hx, branch?, ih]
      by_cases hk : k = s
      · subst hk
        simp [hx]
      · simp [hk]

/-- A change that keeps the branches is seen at its path alone. -/
theorem down_modify {β : Type} {f : Trie → Trie} {o : Trie → β}
    (hf : ∀ t, (f t).branches = t.branches)
    (ho : ∀ v rs bs bs', o (.node v rs bs) = o (.node v rs bs'))
    (ss ts : List String) (t : Trie) :
    o (down ts (modify f ss t)) =
      if ts = ss then o (f (down ss t)) else o (down ts t) := by
  induction ss generalizing ts t with
  | nil =>
    cases ts with
    | nil => simp [modify, down]
    | cons k ts => simp [modify, down, hf]
  | cons s ss ih =>
    obtain ⟨v, rs, bs⟩ := t
    cases ts with
    | nil => simpa [modify, down] using ho _ _ _ _
    | cons k ts =>
      simp only [modify, down, branches, branch?_alter]
      by_cases hk : k = s
      · subst hk
        simp [ih]
      · simp [hk]

theorem branches_setVar (v : Var) (t : Trie) : (setVar v t).branches = t.branches := by
  cases t
  rfl

theorem branches_addReader (i : Nat) (t : Trie) : (addReader i t).branches = t.branches := by
  cases t
  rfl

theorem var?_modify_setVar (v : Var) (ss ts : List String) (t : Trie) :
    var? ts (modify (setVar v) ss t) = if ts = ss then some v else var? ts t := by
  rw [var?_eq, var?_eq, down_modify (o := own) (branches_setVar v) fun _ _ _ _ => rfl]
  cases down ss t
  rfl

theorem readersAt_modify_setVar (v : Var) (ss ts : List String) (t : Trie) :
    readersAt ts (modify (setVar v) ss t) = readersAt ts t := by
  rw [readersAt, readersAt, down_modify (o := here) (branches_setVar v) fun _ _ _ _ => rfl]
  split
  · rename_i h
    rw [h]
    cases down ss t
    rfl
  · rfl

theorem var?_modify_addReader (i : Nat) (ss ts : List String) (t : Trie) :
    var? ts (modify (addReader i) ss t) = var? ts t := by
  rw [var?_eq, var?_eq, down_modify (o := own) (branches_addReader i) fun _ _ _ _ => rfl]
  split
  · rename_i h
    rw [h]
    cases down ss t
    rfl
  · rfl

theorem mem_readersAt_modify_addReader {k i : Nat} {ss ts : List String} {t : Trie} :
    k ∈ readersAt ts (modify (addReader i) ss t) ↔ k ∈ readersAt ts t ∨ ts = ss ∧ k = i := by
  rw [readersAt, readersAt, down_modify (o := here) (branches_addReader i) fun _ _ _ _ => rfl]
  split
  · rename_i h
    rw [h]
    cases down ss t with
    | node v rs bs =>
      simp only [addReader, here]
      split <;> simp_all
  · rename_i h
    simp [h]

/-! ## Branches of one name -/

mutual

/-- No two branches of a node have one name. -/
def Distinct : Trie → Prop
  | .node _ _ bs => (bs.map (·.1)).Nodup ∧ AllDistinct bs

def AllDistinct : List (String × Trie) → Prop
  | [] => True
  | (_, t) :: bs => Distinct t ∧ AllDistinct bs

end

theorem distinct_empty : Distinct empty := by simp [empty, Distinct, AllDistinct]

theorem AllDistinct.branch? {bs : List (String × Trie)} (h : AllDistinct bs) {s : String}
    {t : Trie} (ht : branch? s bs = some t) : Distinct t := by
  induction bs with
  | nil => cases ht
  | cons b bs ih =>
    obtain ⟨k, u⟩ := b
    rw [Trie.branch?] at ht
    split at ht
    · cases ht
      exact h.1
    · exact ih h.2 ht

theorem Distinct.down {t : Trie} (h : Distinct t) (ss : List String) : Distinct (down ss t) := by
  induction ss generalizing t with
  | nil => exact h
  | cons s ss ih =>
    obtain ⟨v, rs, bs⟩ := t
    rw [Trie.down, branches]
    refine ih ?_
    cases hb : Trie.branch? s bs with
    | none => exact distinct_empty
    | some u => exact h.2.branch? hb

theorem map_fst_alter (s : String) (f : Trie → Trie) (bs : List (String × Trie)) :
    (alter s f bs).map (·.1) = if s ∈ bs.map (·.1) then bs.map (·.1) else bs.map (·.1) ++ [s] := by
  induction bs with
  | nil => simp [alter]
  | cons b bs ih =>
    obtain ⟨k, u⟩ := b
    by_cases hk : k = s
    · simp [alter, hk]
    · have hk' : s ≠ k := fun h => hk h.symm
      simp only [alter, if_neg hk, List.map_cons, ih, List.mem_cons, hk', false_or]
      split <;> simp

private theorem allDistinct_alter {s : String} {f : Trie → Trie} {bs : List (String × Trie)}
    (h : AllDistinct bs) (hf : ∀ t, Distinct t → Distinct (f t)) : AllDistinct (alter s f bs) := by
  induction bs with
  | nil => exact ⟨hf _ distinct_empty, trivial⟩
  | cons b bs ih =>
    obtain ⟨k, u⟩ := b
    rw [alter]
    split
    · exact ⟨hf _ h.1, h.2⟩
    · exact ⟨h.1, ih h.2⟩

theorem Distinct.modify {f : Trie → Trie} (hf : ∀ t, (f t).branches = t.branches)
    (ss : List String) {t : Trie} (h : Distinct t) : Distinct (modify f ss t) := by
  induction ss generalizing t with
  | nil =>
    obtain ⟨v, rs, bs⟩ := t
    rw [Trie.modify]
    have hb := hf (.node v rs bs)
    cases hx : f (.node v rs bs) with
    | node v' rs' bs' =>
      rw [hx, branches, branches] at hb
      subst hb
      exact h
  | cons s ss ih =>
    obtain ⟨v, rs, bs⟩ := t
    refine ⟨?_, allDistinct_alter h.2 fun _ => ih⟩
    rw [map_fst_alter]
    split
    · exact h.1
    · rename_i hs
      exact List.nodup_append.mpr ⟨h.1, List.nodup_singleton _, by grind⟩

/-! ## What stands below a node -/

private theorem branch?_eq_none {s : String} {bs : List (String × Trie)}
    (h : s ∉ bs.map (·.1)) : branch? s bs = none := by
  induction bs with
  | nil => rfl
  | cons b bs ih =>
    obtain ⟨k, u⟩ := b
    simp only [List.map_cons, List.mem_cons, not_or] at h
    rw [branch?, if_neg fun hk => h.1 hk.symm, ih h.2]

mutual

theorem mem_vars : ∀ {t : Trie}, Distinct t → ∀ {v : Var} {ss : List String},
    (v, ss) ∈ vars t ↔ var? ss t = some v
  | .node x rs bs, h, v, [] => by
    rw [vars, List.mem_append, mem_branchVars h.1 h.2, var?]
    cases x <;> simp [eq_comm]
  | .node x rs bs, h, v, s :: ss => by
    rw [vars, List.mem_append, mem_branchVars h.1 h.2, var?]
    cases x <;> simp

theorem mem_branchVars : ∀ {bs : List (String × Trie)}, (bs.map (·.1)).Nodup → AllDistinct bs →
    ∀ {v : Var} {ss : List String}, (v, ss) ∈ branchVars bs ↔
      ∃ s ts, ss = s :: ts ∧ (branch? s bs).bind (var? ts) = some v
  | [], _, _, v, ss => by simp [branchVars, branch?]
  | (k, t) :: bs, hn, hd, v, ss => by
    rw [List.map_cons, List.nodup_cons] at hn
    rw [branchVars, List.mem_append, mem_branchVars hn.2 hd.2]
    constructor
    · rintro (hm | ⟨s, ts, rfl, hb⟩)
      · obtain ⟨⟨w, ts⟩, hw, he⟩ := List.mem_map.mp hm
        cases he
        exact ⟨k, ts, rfl, by simpa [branch?] using (mem_vars hd.1).mp hw⟩
      · have hk : k ≠ s := by
          rintro rfl
          rw [branch?_eq_none hn.1] at hb
          cases hb
        exact ⟨s, ts, rfl, by simpa [branch?, hk] using hb⟩
    · rintro ⟨s, ts, rfl, hb⟩
      by_cases hk : k = s
      · subst hk
        refine .inl (List.mem_map.mpr ⟨(v, ts), (mem_vars hd.1).mpr ?_, rfl⟩)
        simpa [branch?] using hb
      · exact .inr ⟨s, ts, rfl, by simpa [branch?, hk] using hb⟩

end

mutual

theorem mem_readers : ∀ {t : Trie}, Distinct t → ∀ {k : Nat},
    k ∈ readers t ↔ ∃ ss, k ∈ readersAt ss t
  | .node x rs bs, h, k => by
    rw [readers, List.mem_append, mem_branchReaders h.1 h.2]
    constructor
    · rintro (hk | ⟨s, ss, hk⟩)
      · exact ⟨[], hk⟩
      · exact ⟨s :: ss, hk⟩
    · rintro ⟨ss, hk⟩
      cases ss with
      | nil => exact .inl hk
      | cons s ss => exact .inr ⟨s, ss, hk⟩

theorem mem_branchReaders : ∀ {bs : List (String × Trie)}, (bs.map (·.1)).Nodup → AllDistinct bs →
    ∀ {k : Nat}, k ∈ branchReaders bs ↔
      ∃ s ss, k ∈ readersAt ss ((branch? s bs).getD empty)
  | [], _, _, k => by
    simp only [branchReaders, branch?, Option.getD_none, readersAt, down_empty]
    simp [empty, here]
  | (x, t) :: bs, hn, hd, k => by
    rw [List.map_cons, List.nodup_cons] at hn
    rw [branchReaders, List.mem_append, mem_readers hd.1, mem_branchReaders hn.2 hd.2]
    constructor
    · rintro (⟨ss, hk⟩ | ⟨s, ss, hk⟩)
      · exact ⟨x, ss, by simpa [branch?] using hk⟩
      · have hx : x ≠ s := by
          rintro rfl
          rw [branch?_eq_none hn.1, Option.getD_none, readersAt, down_empty] at hk
          cases hk
        exact ⟨s, ss, by simpa [branch?, hx] using hk⟩
    · rintro ⟨s, ss, hk⟩
      by_cases hx : x = s
      · exact .inl ⟨ss, by simpa [branch?, hx] using hk⟩
      · exact .inr ⟨s, ss, by simpa [branch?, hx] using hk⟩

end

/-! ## Routes -/

mutual

theorem exists_of_mem_routes : ∀ {t : Trie}, Distinct t →
    ∀ {n : Nat} {ss : List String} {r : Route},
    r ∈ routes n ss t → ∃ ts, r = route n (ss ++ ts) (down ts t)
  | .node x rs bs, h, n, ss, r, hr => by
    rw [routes, List.mem_cons] at hr
    rcases hr with rfl | hr
    · exact ⟨[], by rw [List.append_nil]; rfl⟩
    · obtain ⟨s, u, ts, hb, he⟩ := exists_of_mem_branchRoutes h.1 h.2 hr
      exact ⟨s :: ts, by rw [he, down, branches, hb, Option.getD_some]⟩

theorem exists_of_mem_branchRoutes : ∀ {bs : List (String × Trie)}, (bs.map (·.1)).Nodup →
    AllDistinct bs → ∀ {n : Nat} {ss : List String} {r : Route}, r ∈ branchRoutes n ss bs →
      ∃ s u ts, branch? s bs = some u ∧ r = route n (ss ++ s :: ts) (down ts u)
  | [], _, _, _, _, _, hr => by cases hr
  | (k, t) :: bs, hn, hd, n, ss, r, hr => by
    rw [List.map_cons, List.nodup_cons] at hn
    rw [branchRoutes, List.mem_append] at hr
    rcases hr with hr | hr
    · obtain ⟨ts, rfl⟩ := exists_of_mem_routes hd.1 hr
      exact ⟨k, t, ts, by simp [branch?], by simp⟩
    · obtain ⟨s, u, ts, hb, rfl⟩ := exists_of_mem_branchRoutes hn.2 hd.2 hr
      have hk : k ≠ s := by
        rintro rfl
        rw [branch?_eq_none hn.1] at hb
        cases hb
      exact ⟨s, u, ts, by simpa [branch?, hk] using hb, rfl⟩

end

mutual

/-- A path at or below which something is bound has its route. -/
theorem route_mem_routes : ∀ {t : Trie} {n : Nat} {ss ts us : List String} {v : Var},
    var? (ts ++ us) t = some v → route n (ss ++ ts) (down ts t) ∈ routes n ss t
  | .node x rs bs, n, ss, [], us, v, _ => by
    rw [routes, List.append_nil]
    exact List.mem_cons_self
  | .node x rs bs, n, ss, s :: ts, us, v, h => by
    rw [routes]
    rw [List.cons_append, var?] at h
    exact List.mem_cons_of_mem _ (route_mem_branchRoutes h)

theorem route_mem_branchRoutes : ∀ {bs : List (String × Trie)} {n : Nat} {ss : List String}
    {s : String} {ts us : List String} {v : Var},
    (branch? s bs).bind (var? (ts ++ us)) = some v →
      route n (ss ++ s :: ts) (down ts ((branch? s bs).getD empty)) ∈ branchRoutes n ss bs
  | [], _, _, _, _, _, _, h => by cases h
  | (k, t) :: bs, n, ss, s, ts, us, v, h => by
    rw [branchRoutes, List.mem_append]
    by_cases hk : k = s
    · subst hk
      simp only [branch?, if_true, Option.bind_some, Option.getD_some] at h ⊢
      have hm : route n (ss ++ [k] ++ ts) (down ts t) ∈ routes n (ss ++ [k]) t :=
        route_mem_routes h
      rw [List.append_assoc] at hm
      exact .inl hm
    · simp only [branch?, if_neg hk] at h ⊢
      exact .inr (route_mem_branchRoutes h)

end

end Stencil.Binding.Trie

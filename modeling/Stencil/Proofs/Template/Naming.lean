import Mathlib.Data.List.Nodup
import Mathlib.Data.List.Perm.Subperm
import Stencil.Proofs.Binding.Reading
import Stencil.Template.Compile

/-! The names of templates. A name is spent once it is registered, reserved or numbered
below the count. Spent names stay spent, and a nested template gets a name that is not. So
the templates that a builder adds stand under new names, each after those that it nests,
and no name is nested twice. -/
namespace Stencil
open Binding Markup

/-! ## Fresh names -/

theorem Directive.number_inj {d d' : Directive} {m n : Nat}
    (h : d.word ++ toString m = d'.word ++ toString n) : m = n := by
  have hsame : ∀ word : String, word ++ toString m = word ++ toString n → m = n := by
    intro word h
    rw [String.append_right_inj, Nat.toString_eq_ofList_toDigits, Nat.toString_eq_ofList_toDigits,
      String.ofList_inj] at h
    rw [← Nat.ofDigitChars_ten_toDigits (n := m), h, Nat.ofDigitChars_ten_toDigits]
  -- the first letters of the words differ
  have hlist := congrArg String.toList h
  cases d <;> cases d' <;> first | exact hsame _ h | simp [word] at hlist

namespace Catalog

theorem le_freeNumber (word : String) (taken : List String) (k n : Nat) :
    n ≤ freeNumber word taken k n := by
  induction k generalizing n with
  | zero => exact Nat.le_refl n
  | succ k ih =>
    rw [freeNumber]
    split
    · exact Nat.le_of_succ_le (ih (n + 1))
    · exact Nat.le_refl n

/-- The number found is free, or all that were tried are taken. -/
theorem freeNumber_cases (word : String) (taken : List String) (k n : Nat) :
    word ++ toString (freeNumber word taken k n) ∉ taken ∨
      freeNumber word taken k n = n + k ∧ ∀ i < k, word ++ toString (n + i) ∈ taken := by
  induction k generalizing n with
  | zero => exact .inr ⟨rfl, fun i hi => absurd hi (Nat.not_lt_zero i)⟩
  | succ k ih =>
    rw [freeNumber]
    split
    · rename_i hn
      rcases ih (n + 1) with h | ⟨he, hall⟩
      · exact .inl h
      · refine .inr ⟨by omega, fun i hi => ?_⟩
        cases i with
        | zero => exact List.contains_iff_mem.mp hn
        | succ i =>
          have := hall i (by omega)
          rwa [Nat.add_right_comm] at this
    · rename_i hn
      exact .inl fun hm => hn (List.contains_iff_mem.mpr hm)

/-- Among more numbers than there are names taken, one is free. -/
theorem freeNumber_not_taken (d : Directive) (taken : List String) (n : Nat) :
    d.word ++ toString (freeNumber d.word taken taken.length n) ∉ taken := by
  rcases freeNumber_cases d.word taken taken.length n with h | ⟨he, hall⟩
  · exact h
  · intro hm
    rw [he] at hm
    let tried := (List.range (taken.length + 1)).map fun i => d.word ++ toString (n + i)
    have hnodup : tried.Nodup := List.nodup_range.map fun i j h => by
      have := Directive.number_inj h
      omega
    have hsub : tried ⊆ taken := by
      intro name hname
      obtain ⟨i, hi, rfl⟩ := List.mem_map.mp hname
      rcases Nat.lt_succ_iff_lt_or_eq.mp (List.mem_range.mp hi) with hi | rfl
      · exact hall i hi
      · exact hm
    have hlen := (List.subperm_of_subset hnodup hsub).length_le
    simp only [tried, List.length_map, List.length_range] at hlen
    omega

/-- The name is not given out any more: it is taken, or its number has passed. -/
def Spent (c : Catalog) (name : String) : Prop :=
  name ∈ c.taken ∨ ∃ (d : Directive) (n : Nat), n < c.counter ∧ name = d.word ++ toString n

variable {c c' c'' : Catalog} {name : String}

theorem spent_of_mem_names (h : name ∈ c.names) : c.Spent name :=
  .inl (List.mem_append_left _ h)

theorem not_spent_freshName (c : Catalog) (d : Directive) : ¬ c.Spent (c.freshName d).1 := by
  rintro (h | ⟨d', n, hn, h⟩)
  · exact freeNumber_not_taken d c.taken c.counter h
  · have hle := le_freeNumber d.word c.taken c.taken.length c.counter
    have := Directive.number_inj h
    omega

theorem spent_freshName (c : Catalog) (d : Directive) :
    (c.freshName d).2.Spent (c.freshName d).1 :=
  .inr ⟨d, _, Nat.lt_succ_self _, rfl⟩

theorem Spent.freshName (h : c.Spent name) (d : Directive) : (c.freshName d).2.Spent name := by
  rcases h with h | ⟨d', n, hn, h⟩
  · exact .inl h
  · have hle := le_freeNumber d.word c.taken c.taken.length c.counter
    exact .inr ⟨d', n, Nat.lt_succ_of_le (Nat.le_trans (Nat.le_of_lt hn) hle), h⟩

theorem spent_reserve (c : Catalog) (name : String) : (c.reserve name).Spent name :=
  .inl (by simp [taken, reserve])

theorem Spent.reserve (h : c.Spent name) (other : String) : (c.reserve other).Spent name := by
  rcases h with h | h
  · refine .inl ?_
    have : name ∈ c.names ++ (c.pending ++ [other]) := by
      rw [← List.append_assoc]
      exact List.mem_append_left _ h
    exact this
  · exact .inr h

/-- A name that is freed is registered at once. -/
theorem Spent.add (h : c.Spent name) (t : Template) : ((c.free t.name).add t).Spent name := by
  rcases h with h | h
  · refine .inl ?_
    change name ∈ (c.templates ++ [t]).map (·.name) ++ c.pending.filter (· != t.name)
    rw [List.map_append, List.mem_append, List.mem_append, List.mem_filter]
    by_cases hn : name = t.name
    · exact .inl (.inr (List.mem_singleton.mpr hn))
    · rcases List.mem_append.mp h with h | h
      · exact .inl (.inl h)
      · exact .inr ⟨h, by simpa using hn⟩
  · exact .inr h

end Catalog

/-! ## Nested templates -/

/-- The template that a computation renders. -/
def Computation.target? : Computation → Option String
  | .reconcile _ name _ _ _ => some name
  | .unlessFalse _ _ _ setter => setter.target?
  | _ => none

/-- The templates that are nested in a template, in order. -/
def Template.targets (t : Template) : List String := t.computations.filterMap Computation.target?

/-- Templates under names of their own, each after those that it nests. No name is nested
twice, nor is one of `xs`, which are still to be nested. -/
structure Template.Orderly (ts : List Template) (xs : List String) : Prop where
  nodup_names : (ts.map (·.name)).Nodup
  nested : ∀ (k : Nat) t, ts[k]? = some t → ∀ x ∈ t.targets, x ∈ (ts.take k).map (·.name)
  awaiting : ∀ x ∈ xs, x ∈ ts.map (·.name)
  nodup_targets : (ts.flatMap targets ++ xs).Nodup

namespace Template.Orderly

variable {ts ts' : List Template} {xs xs' : List String} {t : Template} {x : String}

theorem nil : Orderly [] [] where
  nodup_names := List.nodup_nil
  nested k t h := by simp at h
  awaiting x h := by cases h
  nodup_targets := List.nodup_nil

theorem mem_names (h : Orderly ts xs) (hx : x ∈ ts.flatMap targets ++ xs) :
    x ∈ ts.map (·.name) := by
  rcases List.mem_append.mp hx with hx | hx
  · obtain ⟨t, ht, hx⟩ := List.mem_flatMap.mp hx
    obtain ⟨k, hk⟩ := List.getElem?_of_mem ht
    exact List.map_subset _ (List.take_subset k ts) (h.nested k t hk x hx)
  · exact h.awaiting x hx

theorem forget (h : Orderly ts xs) : Orderly ts [] where
  nodup_names := h.nodup_names
  nested := h.nested
  awaiting x h := by cases h
  nodup_targets := by
    rw [List.append_nil]
    exact (List.nodup_append.mp h.nodup_targets).1

theorem append (h : Orderly ts xs) (h' : Orderly ts' xs')
    (hne : ∀ x ∈ ts.map (·.name), x ∉ ts'.map (·.name)) : Orderly (ts ++ ts') (xs ++ xs') where
  nodup_names := by
    rw [List.map_append]
    refine List.nodup_append.mpr ⟨h.nodup_names, h'.nodup_names, ?_⟩
    rintro x hx _ hx' rfl
    exact hne x hx hx'
  nested k t hk x hx := by
    rw [List.take_append, List.map_append, List.mem_append]
    by_cases hlt : k < ts.length
    · rw [List.getElem?_append_left hlt] at hk
      exact .inl (h.nested k t hk x hx)
    · rw [List.getElem?_append_right (Nat.le_of_not_lt hlt)] at hk
      exact .inr (h'.nested _ t hk x hx)
  awaiting x hx := by
    rw [List.map_append, List.mem_append]
    exact (List.mem_append.mp hx).imp (h.awaiting x) (h'.awaiting x)
  nodup_targets := by
    have hperm : ((ts ++ ts').flatMap targets ++ (xs ++ xs')).Perm
        (ts.flatMap targets ++ xs ++ (ts'.flatMap targets ++ xs')) := by
      rw [List.flatMap_append, List.append_assoc, List.append_assoc]
      refine .append_left _ ?_
      rw [← List.append_assoc, ← List.append_assoc]
      exact List.perm_append_comm.append_right _
    refine hperm.nodup_iff.mpr (List.nodup_append.mpr ⟨h.nodup_targets, h'.nodup_targets, ?_⟩)
    rintro x hx _ hx' rfl
    exact hne x (h.mem_names hx) (h'.mem_names hx')

/-- A template that nests what was still to be nested. -/
theorem add (h : Orderly ts xs) (ht : t.targets = xs) (hname : t.name ∉ ts.map (·.name)) :
    Orderly (ts ++ [t]) [] where
  nodup_names := by
    rw [List.map_append]
    refine List.nodup_append.mpr ⟨h.nodup_names, List.nodup_singleton _, ?_⟩
    rintro x hx _ hx' rfl
    obtain rfl : x = t.name := List.mem_singleton.mp hx'
    exact hname hx
  nested k u hk x hx := by
    by_cases hlt : k < ts.length
    · rw [List.getElem?_append_left hlt] at hk
      rw [List.take_append_of_le_length (Nat.le_of_lt hlt)]
      exact h.nested k u hk x hx
    · have hk' := (List.getElem?_eq_some_iff.mp hk).1
      simp only [List.length_append, List.length_singleton] at hk'
      obtain rfl : k = ts.length := by omega
      obtain rfl : t = u := by simpa using hk
      rw [List.take_left' rfl]
      exact h.awaiting x (ht ▸ hx)
  awaiting x h := by cases h
  nodup_targets := by
    have := h.nodup_targets
    simpa [ht] using this

/-- A name that is registered and not nested yet is still to be nested. -/
theorem await (h : Orderly ts xs) (hx : x ∈ ts.map (·.name))
    (hnew : x ∉ ts.flatMap targets ++ xs) : Orderly ts (xs ++ [x]) where
  nodup_names := h.nodup_names
  nested := h.nested
  awaiting y hy := by
    rcases List.mem_append.mp hy with hy | hy
    · exact h.awaiting y hy
    · exact List.mem_singleton.mp hy ▸ hx
  nodup_targets := by
    rw [← List.append_assoc]
    refine List.nodup_append.mpr ⟨h.nodup_targets, List.nodup_singleton _, ?_⟩
    rintro y hy _ hy' rfl
    exact hnew (List.mem_singleton.mp hy' ▸ hy)

end Template.Orderly

namespace Draft

/-- The templates that are nested in a draft, in order. -/
def targets (d : Draft) : List String := d.index.computations.filterMap Computation.target?

variable {d e : Draft} {parent : Parent}

theorem targets_finish (d : Draft) (name : String) : (d.finish name).targets = d.targets := rfl

theorem target?_attributeSetter (tag : String) (svg : Bool) (s : Slot) (name : String)
    (bare : Bool) (value : Interpolation) :
    (attributeSetter tag svg s name bare value).target? = none := by
  unfold attributeSetter
  repeat' split
  all_goals rfl

theorem targets_compute (ss : List Segment) {build : Interpolation → Computation}
    (hbuild : ∀ value, (build value).target? = none) (d : Draft) :
    (d.compute ss build).targets = d.targets := by
  simp [targets, compute, Index.computations_gather, hbuild]

theorem targets_addText {raw : String} (h : d.addText raw parent = .ok e) :
    e.targets = d.targets := by
  unfold addText at h
  cases hr : Segment.readAll (tidy raw) with
  | error err => simp [hr] at h
  | ok ss =>
    simp only [hr, Except.ok.injEq] at h
    subst h
    split
    · exact targets_compute ss (fun _ => rfl) _
    · rfl

theorem targets_addAttribute {tag : String} {svg : Bool} {s : Slot} {a : Attribute}
    (h : d.addAttribute tag svg s a = .ok e) : e.targets = d.targets := by
  unfold addAttribute at h
  cases hr : Segment.readAll (tidy a.value) with
  | error err => simp [hr] at h
  | ok ss =>
    simp only [hr, Except.ok.injEq] at h
    subst h
    have hcompute := targets_compute ss
      (target?_attributeSetter tag svg s a.name (literalText (tidy a.value) == ""))
    split <;> split
    · exact hcompute _
    · exact hcompute _
    · rfl
    · rfl

theorem targets_addAttributes {tag : String} {svg : Bool} {s : Slot} (as : List Attribute) :
    ∀ {d e : Draft}, d.addAttributes tag svg s as = .ok e → e.targets = d.targets := by
  induction as with
  | nil =>
    intro d e h
    cases h
    rfl
  | cons a as ih =>
    intro d e h
    rw [addAttributes] at h
    cases ha : d.addAttribute tag svg s a with
    | error err => simp [ha] at h
    | ok d₁ =>
      simp only [ha] at h
      exact (ih h).trans (targets_addAttribute ha)

theorem targets_addElement {tag : String} {svg : Bool} {as : List Attribute}
    (h : d.addElement tag svg as parent = .ok e) : e.targets = d.targets := by
  unfold addElement at h
  cases ha : (d.plant (.element d.next tag svg)).addAttributes tag svg d.next as with
  | error err => simp [ha] at h
  | ok d₁ =>
    simp only [ha, Except.ok.injEq] at h
    subst h
    exact (targets_addAttributes as ha :)

theorem targets_addAnchor (dir : Directive) (name : String) (path : Path) (parent : Parent)
    (d : Draft) : (d.addAnchor dir name path parent).targets = d.targets ++ [name] := by
  simp [targets, addAnchor, Index.record, Index.computations_assign, plant, append,
    Computation.target?]

/-! Texts and elements can fail for their references only. -/

theorem invalidPath_of_addText {raw : String} {err : CompileError}
    (h : d.addText raw parent = .error err) : ∃ p, err = .invalidPath p := by
  unfold addText at h
  cases hr : Segment.readAll (tidy raw) with
  | error p => exact ⟨p, by simpa [hr] using h.symm⟩
  | ok ss => simp [hr] at h

theorem invalidPath_of_addAttributes {tag : String} {svg : Bool} {s : Slot} (as : List Attribute) :
    ∀ {d : Draft} {err : CompileError}, d.addAttributes tag svg s as = .error err →
      ∃ p, err = .invalidPath p := by
  induction as with
  | nil =>
    intro d err h
    cases h
  | cons a as ih =>
    intro d err h
    rw [addAttributes, addAttribute] at h
    cases hr : Segment.readAll (tidy a.value) with
    | error p => exact ⟨p, by simpa [hr] using h.symm⟩
    | ok ss =>
      simp only [hr] at h
      exact ih h

theorem invalidPath_of_addElement {tag : String} {svg : Bool} {as : List Attribute}
    {err : CompileError} (h : d.addElement tag svg as parent = .error err) :
    ∃ p, err = .invalidPath p := by
  unfold addElement at h
  cases ha : (d.plant (.element d.next tag svg)).addAttributes tag svg d.next as with
  | error e =>
    simp only [ha, Except.error.injEq] at h
    subst h
    exact invalidPath_of_addAttributes as ha
  | ok d₁ => simp [ha] at h

end Draft
end Stencil

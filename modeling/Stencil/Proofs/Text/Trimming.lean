import Stencil.Text.Blank

/-! Trimming. White space at the ends of a text is taken off, and nothing else. -/
namespace Stencil.Text

/-- White space, possibly none. -/
def Blanks (w : List Char) : Prop := ∀ c ∈ w, isBlank c = true

theorem blanks_nil : Blanks [] := fun _ hc => absurd hc List.not_mem_nil

theorem trimStart_cons {c : Char} (h : isBlank c = false) (cs : List Char) :
    trimStart (c :: cs) = c :: cs := by
  simp [trimStart, h]

theorem trimStart_append {w : List Char} (hw : Blanks w) (cs : List Char) :
    trimStart (w ++ cs) = trimStart cs :=
  List.dropWhile_append_of_pos hw

theorem trimEnd_append {w : List Char} (hw : Blanks w) (cs : List Char) :
    trimEnd (cs ++ w) = trimEnd cs := by
  have hrev : Blanks w.reverse := fun c hc => hw c (List.mem_reverse.mp hc)
  rw [trimEnd, List.reverse_append, trimStart_append hrev, trimEnd]

theorem trimStart_cases (cs : List Char) :
    trimStart cs = [] ∨ ∃ d r, trimStart cs = d :: r ∧ isBlank d = false := by
  induction cs with
  | nil => exact .inl rfl
  | cons c cs ih =>
    cases hc : isBlank c with
    | false => exact .inr ⟨c, cs, trimStart_cons hc cs, hc⟩
    | true =>
      have hdrop : trimStart (c :: cs) = trimStart cs := by simp [trimStart, hc]
      rw [hdrop]
      exact ih

theorem exists_trimStart (cs : List Char) : ∃ w, Blanks w ∧ cs = w ++ trimStart cs := by
  refine ⟨cs.takeWhile isBlank, ?_, List.takeWhile_append_dropWhile.symm⟩
  exact List.all_eq_true.mp List.all_takeWhile

theorem trimStart_trimStart (cs : List Char) : trimStart (trimStart cs) = trimStart cs := by
  rcases trimStart_cases cs with h | ⟨d, r, h, hd⟩ <;> rw [h]
  · rfl
  · exact trimStart_cons hd r

theorem trimEnd_cons {d : Char} (hd : isBlank d = false) (cs : List Char) :
    trimEnd (d :: cs) = d :: trimEnd cs := by
  unfold trimEnd trimStart
  rw [List.reverse_cons, List.dropWhile_append]
  split
  · rename_i hnil
    simp [List.isEmpty_iff.mp hnil, hd]
  · simp

/-- White space around a trimmed text is taken off. -/
theorem trim_append {w w' cs : List Char} (hw : Blanks w) (hw' : Blanks w') (hne : cs ≠ [])
    (h : trim cs = cs) : trim (w ++ (cs ++ w')) = cs := by
  rcases trimStart_cases cs with hnil | ⟨d, r, hr, hd⟩
  · rw [trim, hnil] at h
    exact absurd h.symm hne
  · have hcs : cs = d :: trimEnd r := by
      rw [← trimEnd_cons hd, ← hr]
      exact h.symm
    have hstart : ∀ l, trimStart (cs ++ l) = cs ++ l := by
      intro l
      rw [hcs, List.cons_append, trimStart_cons hd]
    have hself := hstart []
    rw [List.append_nil] at hself
    rw [trim, hself] at h
    rw [trim, trimStart_append hw, hstart, trimEnd_append hw', h]

theorem trim_trim (cs : List Char) : trim (trim cs) = trim cs := by
  have hend : ∀ l : List Char, trimEnd (trimEnd l) = trimEnd l := by
    intro l
    rw [trimEnd, trimEnd, List.reverse_reverse, trimStart_trimStart]
  unfold trim
  rcases trimStart_cases cs with h | ⟨d, r, h, hd⟩ <;> rw [h]
  · rfl
  · rw [trimEnd_cons hd, trimStart_cons hd, trimEnd_cons hd, hend]

theorem mem_of_mem_trim {c : Char} {cs : List Char} (h : c ∈ trim cs) : c ∈ cs := by
  have hstart : ∀ {l : List Char}, c ∈ trimStart l → c ∈ l := fun h =>
    (List.dropWhile_suffix isBlank).mem h
  exact hstart (List.mem_reverse.mp (hstart (List.mem_reverse.mp h)))

variable {l w : List Char}

theorem trim_blanks (hw : Blanks w) : trim w = [] := by
  have h := trimStart_append hw []
  rw [List.append_nil] at h
  rw [trim, h]
  rfl

theorem trim_append_left (hw : Blanks w) (cs : List Char) : trim (w ++ cs) = trim cs := by
  rw [trim, trimStart_append hw, trim]

theorem trim_append_right (hw : Blanks w) (cs : List Char) : trim (cs ++ w) = trim cs := by
  rcases trimStart_cases cs with hnil | ⟨d, r, hd, hblank⟩
  · obtain ⟨v, hv, hcs⟩ := exists_trimStart cs
    rw [hnil, List.append_nil] at hcs
    rw [hcs, trim_append_left hv, trim_blanks hw, trim_blanks hv]
  · obtain ⟨v, hv, hcs⟩ := exists_trimStart cs
    rw [hd] at hcs
    rw [hcs, List.append_assoc, trim_append_left hv, trim_append_left hv, trim, trim,
      List.cons_append, trimStart_cons hblank, trimStart_cons hblank,
      ← List.cons_append, trimEnd_append hw]

/-- A text is its trimmed text with white space around it. -/
theorem exists_trim (cs : List Char) :
    ∃ w w', Blanks w ∧ Blanks w' ∧ cs = w ++ (trim cs ++ w') := by
  obtain ⟨w, hw, hcs⟩ := exists_trimStart cs
  obtain ⟨v, hv, hrev⟩ := exists_trimStart (trimStart cs).reverse
  refine ⟨w, v.reverse, hw, fun c hc => hv c (List.mem_reverse.mp hc), ?_⟩
  have hstart : trimStart cs = trim cs ++ v.reverse := by
    rw [trim, trimEnd, ← List.reverse_append, ← hrev, List.reverse_reverse]
  rw [← hstart]
  exact hcs

/-- Trimming takes nothing away but white space. -/
theorem filter_trim (cs : List Char) :
    (trim cs).filter (!isBlank ·) = cs.filter (!isBlank ·) := by
  have hnone : ∀ {w}, Blanks w → w.filter (!isBlank ·) = [] := fun hw =>
    List.filter_eq_nil_iff.mpr fun c hc => by simp [hw c hc]
  obtain ⟨w, w', hw, hw', hcs⟩ := exists_trim cs
  calc (trim cs).filter (!isBlank ·) = (w ++ (trim cs ++ w')).filter (!isBlank ·) := by
        rw [List.filter_append, List.filter_append, hnone hw, hnone hw', List.nil_append,
          List.append_nil]
    _ = cs.filter (!isBlank ·) := by rw [← hcs]

theorem mem_trim {c : Char} {cs : List Char} (h : c ∈ cs) (hc : isBlank c = false) :
    c ∈ trim cs := by
  have hmem : c ∈ (trim cs).filter (!isBlank ·) := by
    rw [filter_trim]
    exact List.mem_filter.mpr ⟨h, by simp [hc]⟩
  exact (List.mem_filter.mp hmem).1

theorem blanks_of_trim {cs : List Char} (h : trim cs = []) : Blanks cs := by
  obtain ⟨w, w', hw, hw', hcs⟩ := exists_trim cs
  rw [hcs, h, List.nil_append]
  exact List.forall_mem_append.mpr ⟨hw, hw'⟩

theorem head?_trim (cs : List Char) : (trim cs).head? = (trimStart cs).head? := by
  rcases trimStart_cases cs with hnil | ⟨d, r, hd, hblank⟩
  · rw [trim, hnil]
    rfl
  · rw [trim, hd, trimEnd_cons hblank]
    rfl

/-- The first character that is not white space stays the first, whatever follows. -/
theorem head?_trim_append {d : Char} (h : (trim l).head? = some d) (t : List Char) :
    (trim (l ++ t)).head? = some d := by
  rw [head?_trim] at h ⊢
  rcases trimStart_cases l with hnil | ⟨d', r, hd, hblank⟩
  · rw [hnil] at h
    cases h
  · obtain ⟨v, hv, hl⟩ := exists_trimStart l
    rw [hd] at h hl
    rw [hl, List.append_assoc, trimStart_append hv, List.cons_append,
      trimStart_cons hblank]
    exact h

/-- A text is trimmed if it has no white space at its ends. -/
theorem trim_eq_self_iff {cs : List Char} : trim cs = cs ↔
    (∀ c ∈ cs.head?, isBlank c = false) ∧ ∀ c ∈ cs.getLast?, isBlank c = false := by
  have hends : ∀ l : List Char, ∀ c ∈ (trimStart l).head?, isBlank c = false := by
    intro l c hc
    rcases trimStart_cases l with hnil | ⟨d, r, hd, hblank⟩
    · rw [hnil] at hc
      cases hc
    · rw [hd] at hc
      cases hc
      exact hblank
  have hstart : ∀ l : List Char, (∀ c ∈ l.head?, isBlank c = false) → trimStart l = l := by
    intro l hl
    cases l with
    | nil => rfl
    | cons c l => exact trimStart_cons (hl c rfl) l
  constructor
  · intro h
    constructor
    · rw [← h, head?_trim]
      exact hends cs
    · rw [← h, trim, trimEnd, List.getLast?_reverse]
      exact hends (trimStart cs).reverse
  · rintro ⟨hhead, hlast⟩
    rw [← List.head?_reverse] at hlast
    rw [trim, hstart cs hhead, trimEnd, hstart cs.reverse hlast, List.reverse_reverse]

theorem trim_eq_self {cs : List Char} (h : ∀ c ∈ cs, isBlank c = false) : trim cs = cs :=
  trim_eq_self_iff.mpr
    ⟨fun c hc => h c (List.mem_of_head? hc), fun c hc => h c (List.mem_of_getLast? hc)⟩

end Stencil.Text

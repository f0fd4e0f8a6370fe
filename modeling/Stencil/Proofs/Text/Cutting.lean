import Stencil.Markup.Token.Scan

/-! Cutting a text at a byte offset. A cut is there only at offsets within the text at which a
character begins or the text ends; offsets that were found by looking for a character or for a
mark are such. -/
namespace Stencil.Text

/-- The two parts of a text before and after the first `n` bytes. There are none when the text
is shorter, or when a character goes on there. -/
def cut? : Nat → List Char → Option (List Char × List Char)
  | 0, cs => some ([], cs)
  | _ + 1, [] => none
  | n + 1, c :: cs =>
    if c.utf8Size ≤ n + 1 then (cut? (n + 1 - c.utf8Size) cs).map fun r => (c :: r.1, r.2) else none

/-- The part of a text between two byte offsets. -/
def slice? (i j : Nat) (cs : List Char) : Option (List Char) :=
  (cut? j cs).bind fun r => (cut? i r.1).map (·.2)

/-- The byte offset of the first character with a property. -/
def offsetOf? (p : Char → Bool) : List Char → Option Nat
  | [] => none
  | c :: cs => if p c then some 0 else (offsetOf? p cs).map (c.utf8Size + ·)

/-- The byte offset of the first occurrence of a mark. -/
def offsetOfMark? (mark : List Char) : List Char → Option Nat
  | [] => none
  | c :: cs =>
    if mark.isPrefixOf (c :: cs) then some 0 else (offsetOfMark? mark cs).map (c.utf8Size + ·)

/-! ## Cuts -/

theorem cut?_append (u v : List Char) : cut? (byteSize u) (u ++ v) = some (u, v) := by
  induction u with
  | nil =>
    rw [byteSize, List.nil_append, cut?]
  | cons c u ih =>
    have hpos := c.utf8Size_pos
    obtain ⟨n, hn⟩ : ∃ n, byteSize (c :: u) = n + 1 :=
      Nat.exists_eq_add_one_of_ne_zero (by rw [byteSize]; omega)
    have hsub : n + 1 - c.utf8Size = byteSize u := by
      rw [← hn, byteSize, Nat.add_sub_cancel_left]
    have hle : c.utf8Size ≤ n + 1 := by
      rw [← hn, byteSize]
      exact Nat.le_add_right _ _
    rw [hn, List.cons_append, cut?, if_pos hle, hsub, ih]
    rfl

/-- A cut is where so many bytes end. -/
theorem cut?_eq_some {n : Nat} {cs u v : List Char} :
    cut? n cs = some (u, v) ↔ cs = u ++ v ∧ byteSize u = n := by
  constructor
  · intro h
    induction cs generalizing n u with
    | nil =>
      cases n with
      | zero =>
        cases h
        exact ⟨rfl, rfl⟩
      | succ n => cases h
    | cons c cs ih =>
      cases n with
      | zero =>
        cases h
        exact ⟨rfl, rfl⟩
      | succ n =>
        rw [cut?] at h
        split at h
        · rename_i hle
          obtain ⟨⟨u', v'⟩, hcut, heq⟩ := Option.map_eq_some_iff.mp h
          cases heq
          obtain ⟨rfl, hsize⟩ := ih hcut
          refine ⟨rfl, ?_⟩
          rw [byteSize, hsize]
          omega
        · cases h
  · rintro ⟨rfl, rfl⟩
    exact cut?_append u v

example : cut? 1 ['é', 'x'] = none ∧ cut? 2 ['é', 'x'] = some (['é'], ['x']) := by decide

theorem slice?_append (u v w : List Char) :
    slice? (byteSize u) (byteSize (u ++ v)) (u ++ (v ++ w)) = some v := by
  rw [slice?, ← List.append_assoc, cut?_append, Option.bind_some, cut?_append]
  rfl

/-! ## Finding -/

theorem offsetOf?_append {p : Char → Bool} {u : List Char} (hu : ∀ c ∈ u, p c = false)
    (v : List Char) : offsetOf? p (u ++ v) = (offsetOf? p v).map (byteSize u + ·) := by
  induction u with
  | nil =>
    simp only [List.nil_append, byteSize, Nat.zero_add]
    exact Option.map_id'.symm
  | cons c u ih =>
    rw [List.forall_mem_cons] at hu
    rw [List.cons_append, offsetOf?, hu.1, ih hu.2]
    cases offsetOf? p v with
    | none => rfl
    | some n => simp [byteSize, Nat.add_assoc]

open Markup.Token in
/-- Looking for one character: it is not there, or it ends the run of the others. -/
theorem offsetOf?_char (q : Char) (cs : List Char) :
    cs.dropWhile (· != q) = [] ∧ after? [q] cs = none ∧ offsetOf? (· == q) cs = none ∨
      ∃ rest, cs.dropWhile (· != q) = q :: rest ∧ after? [q] cs = some rest ∧
        offsetOf? (· == q) cs = some (byteSize (cs.takeWhile (· != q))) := by
  induction cs with
  | nil => exact .inl ⟨rfl, rfl, rfl⟩
  | cons c cs ih =>
    by_cases hc : c = q
    · subst hc
      exact .inr ⟨cs, by simp, by simp [after?], by simp [offsetOf?, byteSize]⟩
    · have hafter : after? [q] (c :: cs) = after? [q] cs := by
        rw [after?, if_neg]
        simpa using fun h : q = c => hc h.symm
      have hoffset : offsetOf? (· == q) (c :: cs) =
          (offsetOf? (· == q) cs).map (c.utf8Size + ·) := by
        simp [offsetOf?, hc]
      rw [hafter, hoffset]
      rcases ih with ⟨hdrop, hnone, hnone'⟩ | ⟨rest, hdrop, hsome, hsome'⟩
      · exact .inl ⟨by simp [hc, hdrop], hnone, by rw [hnone']; rfl⟩
      · exact .inr ⟨rest, by simp [hc, hdrop], hsome, by simp [hc, hsome', byteSize]⟩

/-- The offset of the first character with a property, or of the end of the text. -/
theorem offsetOf?_getD (p : Char → Bool) (cs : List Char) :
    (offsetOf? p cs).getD (byteSize cs) = byteSize (cs.takeWhile (!p ·)) := by
  induction cs with
  | nil => rfl
  | cons c cs ih =>
    cases hc : p c with
    | true => rw [offsetOf?, if_pos hc, List.takeWhile_cons, hc]; rfl
    | false =>
      rw [List.takeWhile_cons, hc, offsetOf?, hc]
      simp only [Bool.not_false, ↓reduceIte, Bool.false_eq_true, byteSize, ← ih]
      cases offsetOf? p cs <;> rfl

theorem cut?_takeWhile (p : Char → Bool) (cs : List Char) :
    cut? (byteSize (cs.takeWhile p)) cs = some (cs.takeWhile p, cs.dropWhile p) := by
  have h := cut?_append (cs.takeWhile p) (cs.dropWhile p)
  rwa [List.takeWhile_append_dropWhile] at h

open Markup.Token in
/-- A mark is found where it occurs first, or it does not occur. -/
theorem offsetOfMark?_cases (mark cs : List Char) :
    after? mark cs = none ∧ offsetOfMark? mark cs = none ∨
      ∃ u v, cs = u ++ (mark ++ v) ∧ after? mark cs = some v ∧
        offsetOfMark? mark cs = some (byteSize u) := by
  induction cs with
  | nil => exact .inl ⟨rfl, rfl⟩
  | cons c cs ih =>
    rw [after?, offsetOfMark?]
    split
    · rename_i hp
      obtain ⟨v, hv⟩ := List.isPrefixOf_iff_prefix.mp hp
      refine .inr ⟨[], v, hv.symm, ?_, rfl⟩
      rw [← hv, List.drop_left]
    · rcases ih with ⟨hnone, hnone'⟩ | ⟨u, v, rfl, hafter, hsome⟩
      · exact .inl ⟨hnone, by rw [hnone']; rfl⟩
      · exact .inr ⟨c :: u, v, rfl, hafter, by rw [hsome]; rfl⟩

end Stencil.Text

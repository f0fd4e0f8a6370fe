import Stencil.Json.Reader
import Stencil.Text.Quoted

/-! Double-quoted strings as JSON. What is written between the quotes has no raw control
character, and the whole is read back as the text. -/
namespace Stencil

namespace Text

/-- What stands between the quotes of a literal. -/
def quoted (s : String) : List Char := s.toList.flatMap quoteChar

theorem toList_quote (s : String) : (quote s).toList = '"' :: quoted s ++ ['"'] :=
  String.toList_ofList

/-- The characters with a letter of their own, each with its letter. -/
def letters : List (Char × Char) :=
  [('"', '"'), ('\\', '\\'), ('\x08', 'b'), ('\x0c', 'f'), ('\n', 'n'), ('\r', 'r'), ('\t', 't')]

theorem mem_letters {c l : Char} (h : escapeLetter? c = some l) : (c, l) ∈ letters := by
  have hc : c = Char.ofNat c.toNat := (Char.ofNat_toNat c).symm
  unfold escapeLetter? at h
  split at h <;> cases h
  all_goals
    rename_i hn
    rw [hc, hn]
    decide

/-- A character is written by its letter, by its code, or as it is. -/
theorem quoteChar_cases (c : Char) :
    (∃ l, (c, l) ∈ letters ∧ quoteChar c = ['\\', l]) ∨
      (c.toNat < 0x20 ∧ quoteChar c =
        ['\\', 'u', '0', '0', hexDigit (c.toNat / 16), hexDigit c.toNat]) ∨
      (0x20 ≤ c.toNat ∧ c ≠ '"' ∧ c ≠ '\\' ∧ quoteChar c = [c]) := by
  unfold quoteChar
  cases hl : escapeLetter? c with
  | some l => exact .inl ⟨l, mem_letters hl, rfl⟩
  | none =>
    dsimp only
    split
    · exact .inr (.inl ⟨‹_›, rfl⟩)
    · refine .inr (.inr ⟨Nat.le_of_not_lt ‹_›, ?_, ?_, rfl⟩) <;> rintro rfl <;> cases hl

theorem hexDigit_mem (n : Nat) : hexDigit n ∈ "0123456789abcdef".toList := by
  have h : ∀ k < 16, Nat.digitChar k ∈ "0123456789abcdef".toList := by decide
  exact h _ (Nat.mod_lt n (by decide))

theorem le_toNat_of_mem_quoteChar {c x : Char} (h : x ∈ quoteChar c) : 0x20 ≤ x.toNat := by
  have hdigit : ("0123456789abcdef".toList.all fun y => decide (0x20 ≤ y.toNat)) = true := by decide
  have hletter : (letters.all fun p => decide (0x20 ≤ p.2.toNat)) = true := by decide
  simp only [List.all_eq_true, decide_eq_true_eq] at hdigit hletter
  rcases quoteChar_cases c with ⟨l, hl, hq⟩ | ⟨_, hq⟩ | ⟨hc, _, _, hq⟩ <;> rw [hq] at h
  · simp only [List.mem_cons, List.not_mem_nil, or_false] at h
    rcases h with rfl | rfl
    · decide
    · exact hletter _ hl
  · simp only [List.mem_cons, List.not_mem_nil, or_false] at h
    rcases h with rfl | rfl | rfl | rfl | rfl | rfl
    · decide
    · decide
    · decide
    · decide
    · exact hdigit _ (hexDigit_mem _)
    · exact hdigit _ (hexDigit_mem _)
  · rwa [List.mem_singleton.mp h]

/-- No raw control character stands in a literal. -/
theorem le_toNat_of_mem_quoted {s : String} {x : Char} (h : x ∈ quoted s) : 0x20 ≤ x.toNat := by
  obtain ⟨c, _, hx⟩ := List.mem_flatMap.mp h
  exact le_toNat_of_mem_quoteChar hx

end Text

namespace Json.Reader
open Text

theorem escaped_letter {c l : Char} (h : (c, l) ∈ letters) (r : List Char) :
    escaped (l :: r) = some (c, r) := by
  simp only [letters, List.mem_cons, Prod.mk.injEq, List.not_mem_nil, or_false] at h
  rcases h with ⟨rfl, rfl⟩ | ⟨rfl, rfl⟩ | ⟨rfl, rfl⟩ | ⟨rfl, rfl⟩ | ⟨rfl, rfl⟩ | ⟨rfl, rfl⟩ |
    ⟨rfl, rfl⟩ <;> rfl

theorem hexValue?_hexDigit (n : Nat) : hexValue? (hexDigit n) = some (n % 16) := by
  have h : ∀ k < 16, hexValue? (Nat.digitChar k) = some k := by decide
  exact h _ (Nat.mod_lt n (by decide))

theorem ofCode?_toNat (c : Char) : ofCode? c.toNat = some c := by
  have hvalid : c.toNat.isValidChar := c.valid
  rw [ofCode?, dif_pos hvalid]
  rfl

theorem unicode_code {c : Char} (h : c.toNat < 0x20) (r : List Char) :
    unicode ('0' :: '0' :: hexDigit (c.toNat / 16) :: hexDigit c.toNat :: r) = some (c, r) := by
  have hzero : hexValue? '0' = some 0 := rfl
  have hcode : ((0 * 16 + 0) * 16 + c.toNat / 16 % 16) * 16 + c.toNat % 16 = c.toNat := by omega
  have hplain : ¬ (0xD800 ≤ c.toNat ∧ c.toNat < 0xDC00) := by omega
  simp only [unicode, hexFour, hzero, hexValue?_hexDigit, Option.bind_eq_bind,
    Option.bind_some, hcode, if_neg hplain, ofCode?_toNat]

theorem stringRest_quoteChar (c : Char) (fuel : Nat) (acc rest : List Char) :
    stringRest (fuel + 1) acc (quoteChar c ++ rest) = stringRest fuel (c :: acc) rest := by
  rcases quoteChar_cases c with ⟨l, hl, hq⟩ | ⟨hc, hq⟩ | ⟨hc, hquote, hslash, hq⟩ <;> rw [hq]
  · simp only [List.cons_append, List.nil_append, stringRest, escaped_letter hl]
  · simp only [List.cons_append, List.nil_append, stringRest, escaped, unicode_code hc]
  · simp only [List.cons_append, List.nil_append, stringRest, if_neg (Nat.not_lt_of_le hc)]

theorem stringRest_quoted (cs rest : List Char) : ∀ {fuel : Nat} {acc : List Char},
    cs.length < fuel → stringRest fuel acc (cs.flatMap quoteChar ++ '"' :: rest) =
      some (String.ofList (acc.reverse ++ cs), rest) := by
  induction cs with
  | nil =>
    intro fuel acc hfuel
    obtain ⟨n, rfl⟩ := Nat.exists_eq_add_of_lt hfuel
    rw [List.append_nil]
    rfl
  | cons c cs ih =>
    intro fuel acc hfuel
    cases fuel with
    | zero => cases hfuel
    | succ fuel =>
      rw [List.flatMap_cons, List.append_assoc, stringRest_quoteChar,
        ih (Nat.lt_of_succ_lt_succ hfuel), List.reverse_cons, List.append_assoc]
      rfl

end Json.Reader

namespace Json
open Text

theorem length_le_length_quoted (cs : List Char) : cs.length ≤ (cs.flatMap quoteChar).length := by
  induction cs with
  | nil => exact Nat.le_refl 0
  | cons c cs ih =>
    have hc : 1 ≤ (quoteChar c).length := by
      rcases quoteChar_cases c with ⟨_, _, hq⟩ | ⟨_, hq⟩ | ⟨_, _, _, hq⟩ <;> rw [hq] <;> simp
    rw [List.flatMap_cons, List.length_append, List.length_cons]
    omega

/-- A quoted text is read as that text. -/
theorem read?_quote (s : String) : read? (quote s) = some (.str s) := by
  have hlen := length_le_length_quoted s.toList
  have hrest : Reader.stringRest ((quoted s ++ ['"']).length + 1) [] (quoted s ++ ['"']) =
      some (s, []) := by
    have hfuel : s.toList.length < (quoted s ++ ['"']).length + 1 := by
      rw [List.length_append, quoted]
      omega
    have hread : Reader.stringRest _ [] _ = _ := Reader.stringRest_quoted s.toList [] hfuel
    rwa [List.reverse_nil, List.nil_append, String.ofList_toList] at hread
  have hvalue : ∀ fuel, Reader.value (fuel + 1) ('"' :: quoted s ++ ['"']) = some (.str s, []) := by
    intro fuel
    have hskip : Reader.skip ('"' :: (quoted s ++ ['"'])) = '"' :: (quoted s ++ ['"']) := rfl
    rw [List.cons_append, Reader.value, hskip]
    simp only [hrest, Option.map_some]
  unfold read?
  rw [toList_quote]
  dsimp only
  rw [hvalue]
  rfl

end Json
end Stencil

import Mathlib.Data.List.Forall2
import Stencil.Proofs.Json.Strings
import Stencil.Template.Script

/-! Scanning a script for its string literals, from left to right. What is known of its
fragments is put together: a fragment without a quote is code, a quoted text is one literal,
and two fragments that differ within literals only stay so when others are added. -/
namespace Stencil.Script
open Text

/-- Where the scanner is: in code, in a literal of which `body` was read, or in a literal
right after a backslash. -/
inductive Mode where
  | code
  | literal (body : List Char)
  | escape (body : List Char)
  deriving DecidableEq

/-- What was scanned: the text with two quotes for each literal, and what stood between
the quotes. -/
structure Scan where
  mode : Mode := .code
  code : List Char := []
  literals : List (List Char) := []
  deriving DecidableEq

namespace Scan

def step (s : Scan) (c : Char) : Scan :=
  match s.mode with
  | .code => if c = '"' then { s with mode := .literal [] } else { s with code := s.code ++ [c] }
  | .literal body =>
    if c = '"' then ⟨.code, s.code ++ ['"', '"'], s.literals ++ [body]⟩
    else if c = '\\' then { s with mode := .escape (body ++ [c]) }
    else { s with mode := .literal (body ++ [c]) }
  | .escape body => { s with mode := .literal (body ++ [c]) }

end Scan

def scan (text : String) : Scan := text.toList.foldl Scan.step {}

namespace Scan

theorem foldl_step_code {cs : List Char} (h : '"' ∉ cs) (code : List Char)
    (literals : List (List Char)) :
    cs.foldl step ⟨.code, code, literals⟩ = ⟨.code, code ++ cs, literals⟩ := by
  induction cs generalizing code with
  | nil => rw [List.append_nil]; rfl
  | cons c cs ih =>
    rw [List.mem_cons, not_or] at h
    rw [List.foldl_cons, step]
    dsimp only
    rw [if_neg (Ne.symm h.1), ih h.2, List.append_assoc]
    rfl

/-- A digit neither ends a literal nor escapes what follows. -/
theorem hexDigit_ne (n : Nat) : hexDigit n ≠ '"' ∧ hexDigit n ≠ '\\' :=
  ⟨fun h => absurd (h ▸ hexDigit_mem n) (by decide),
    fun h => absurd (h ▸ hexDigit_mem n) (by decide)⟩

/-- A character as it is written in a literal does not end it. -/
theorem foldl_step_quoteChar (c : Char) (body code : List Char) (literals : List (List Char)) :
    (quoteChar c).foldl step ⟨.literal body, code, literals⟩ =
      ⟨.literal (body ++ quoteChar c), code, literals⟩ := by
  rcases quoteChar_cases c with ⟨l, _, hq⟩ | ⟨_, hq⟩ | ⟨_, hquote, hslash, hq⟩ <;> rw [hq]
  · simp [step]
  · simp [step, hexDigit_ne]
  · simp [step, hquote, hslash]

theorem foldl_step_quoted (cs body code : List Char) (literals : List (List Char)) :
    (cs.flatMap quoteChar).foldl step ⟨.literal body, code, literals⟩ =
      ⟨.literal (body ++ cs.flatMap quoteChar), code, literals⟩ := by
  induction cs generalizing body with
  | nil => rw [List.flatMap_nil, List.append_nil]; rfl
  | cons c cs ih =>
    rw [List.flatMap_cons, List.foldl_append, foldl_step_quoteChar, ih, List.append_assoc]

theorem foldl_step_quote (p : String) (code : List Char) (literals : List (List Char)) :
    (quote p).toList.foldl step ⟨.code, code, literals⟩ =
      ⟨.code, code ++ ['"', '"'], literals ++ [quoted p]⟩ := by
  rw [toList_quote, List.foldl_append, List.foldl_cons]
  change List.foldl step ((quoted p).foldl step ⟨.literal [], code, literals⟩) ['"'] = _
  rw [quoted, foldl_step_quoted]
  rfl

end Scan

theorem exists_digitChar_of_mem {n : Nat} {c : Char} (h : c ∈ Nat.toDigits 16 n) :
    ∃ k < 16, Nat.digitChar k = c := by
  induction n using Nat.strongRecOn with
  | ind n ih =>
    by_cases hn : n < 16
    · rw [Nat.toDigits_of_lt_base hn, List.mem_singleton] at h
      exact ⟨n, hn, h.symm⟩
    · rw [Nat.toDigits_of_base_le (by decide) (Nat.le_of_not_lt hn), List.mem_append,
        List.mem_singleton] at h
      rcases h with h | rfl
      · exact ih _ (Nat.div_lt_self (by omega) (by decide)) h
      · exact ⟨n % 16, Nat.mod_lt n (by decide), rfl⟩

/-! ## Fragments -/

/-- No literal begins or ends in the text. -/
def Plain (x : String) : Prop := '"' ∉ x.toList

instance (x : String) : Decidable (Plain x) := inferInstanceAs (Decidable ('"' ∉ x.toList))

theorem plain_empty : Plain "" := by decide

theorem Plain.append {x y : String} (hx : Plain x) (hy : Plain y) : Plain (x ++ y) := by
  unfold Plain
  rw [String.toList_append, List.mem_append, not_or]
  exact ⟨hx, hy⟩

theorem Plain.intercalate {sep : String} (hsep : Plain sep) : ∀ {xs : List String},
    (∀ x ∈ xs, Plain x) → Plain (sep.intercalate xs)
  | [], _ => plain_empty
  | [x], h => h x List.mem_cons_self
  | x :: y :: xs, h => by
    rw [String.intercalate_cons_cons]
    exact ((h x List.mem_cons_self).append hsep).append
      (hsep.intercalate fun z hz => h z (List.mem_cons_of_mem _ hz))

theorem plain_join {xs : List String} (h : ∀ x ∈ xs, Plain x) : Plain (String.join xs) := by
  induction xs with
  | nil => exact plain_empty
  | cons x xs ih =>
    rw [String.join_cons]
    exact (h x List.mem_cons_self).append (ih fun y hy => h y (List.mem_cons_of_mem _ hy))

/-- Between code and code, the text gives this code and literals for these texts. -/
def Writes (x : String) (code : List Char) (ps : List String) : Prop :=
  ∀ before literals, x.toList.foldl Scan.step ⟨.code, before, literals⟩ =
    ⟨.code, before ++ code, literals ++ ps.map quoted⟩

/-- Two texts with the same code; the literals of the first are for `ps`, those of the
second for `qs`. -/
def Coincide (x y : String) (ps qs : List String) : Prop :=
  ∃ code, Writes x code ps ∧ Writes y code qs

section Coincide

variable {x y z x' y' : String} {ps qs ps' qs' : List String}

theorem Plain.writes (h : Plain x) : Writes x x.toList [] := by
  intro before literals
  rw [Scan.foldl_step_code h, List.map_nil, List.append_nil]

theorem Writes.append {code code' : List Char} (h : Writes x code ps) (h' : Writes x' code' ps') :
    Writes (x ++ x') (code ++ code') (ps ++ ps') := by
  intro before literals
  rw [String.toList_append, List.foldl_append, h, h', List.map_append, List.append_assoc,
    List.append_assoc]

theorem Plain.coincide (h : Plain x) : Coincide x x [] [] := ⟨x.toList, h.writes, h.writes⟩

theorem coincide_quote (p q : String) : Coincide (quote p) (quote q) [p] [q] :=
  ⟨['"', '"'], fun _ _ => Scan.foldl_step_quote p _ _, fun _ _ => Scan.foldl_step_quote q _ _⟩

theorem Coincide.append (h : Coincide x y ps qs) (h' : Coincide x' y' ps' qs') :
    Coincide (x ++ x') (y ++ y') (ps ++ ps') (qs ++ qs') := by
  obtain ⟨code, hx, hy⟩ := h
  obtain ⟨code', hx', hy'⟩ := h'
  exact ⟨code ++ code', hx.append hx', hy.append hy'⟩

theorem Coincide.congr (h : Coincide x x ps qs) (hxy : y = x) : Coincide y y ps qs := by
  subst hxy
  exact h

theorem Coincide.append_plain (h : Coincide x y ps qs) (hz : Plain z) :
    Coincide (x ++ z) (y ++ z) ps qs := by
  have := h.append hz.coincide
  rwa [List.append_nil, List.append_nil] at this

theorem Plain.append_coincide (hz : Plain z) (h : Coincide x y ps qs) :
    Coincide (z ++ x) (z ++ y) ps qs := hz.coincide.append h

/-- Texts that coincide one by one, with the literals of all in order. -/
inductive CoincideAll : List String → List String → List String → List String → Prop
  | nil : CoincideAll [] [] [] []
  | cons {x y ps qs xs ys ps' qs'} (h : Coincide x y ps qs) (h' : CoincideAll xs ys ps' qs') :
      CoincideAll (x :: xs) (y :: ys) (ps ++ ps') (qs ++ qs')

variable {xs ys xs' ys' : List String}

theorem CoincideAll.append (h : CoincideAll xs ys ps qs) (h' : CoincideAll xs' ys' ps' qs') :
    CoincideAll (xs ++ xs') (ys ++ ys') (ps ++ ps') (qs ++ qs') := by
  induction h with
  | nil => exact h'
  | cons h _ ih =>
    rw [List.append_assoc, List.append_assoc]
    exact .cons h ih

theorem coincideAll_plain (h : ∀ x ∈ xs, Plain x) : CoincideAll xs xs [] [] := by
  induction xs with
  | nil => exact .nil
  | cons x xs ih =>
    exact .cons (h x List.mem_cons_self).coincide (ih fun y hy => h y (List.mem_cons_of_mem _ hy))

/-- Data of one kind, and data of that kind that is like it. -/
theorem coincideAll_map {α : Type} {f : α → String} {P : α → List String} {l l' : List α}
    (h : List.Forall₂ (fun a b => Coincide (f a) (f b) (P a) (P b)) l l') :
    CoincideAll (l.map f) (l'.map f) (l.flatMap P) (l'.flatMap P) := by
  induction h with
  | nil => exact .nil
  | cons h _ ih => exact .cons h ih

theorem CoincideAll.wrap (h : CoincideAll xs ys ps qs) {a b : String} (ha : Plain a)
    (hb : Plain b) :
    CoincideAll (xs.map fun l => a ++ l ++ b) (ys.map fun l => a ++ l ++ b) ps qs := by
  induction h with
  | nil => exact .nil
  | cons h _ ih => exact .cons ((ha.append_coincide h).append_plain hb) ih

theorem CoincideAll.intercalate {sep : String} (hsep : Plain sep) (h : CoincideAll xs ys ps qs) :
    Coincide (sep.intercalate xs) (sep.intercalate ys) ps qs := by
  induction h with
  | nil => exact plain_empty.coincide
  | cons h ht ih =>
    cases ht with
    | nil =>
      rw [List.append_nil, List.append_nil]
      exact h
    | cons h' ht =>
      rw [String.intercalate_cons_cons, String.intercalate_cons_cons]
      exact (h.append_plain hsep).append ih

theorem coincide_args {sep : String} (hsep : Plain sep) (h : CoincideAll xs ys ps qs) :
    Coincide (args sep xs) (args sep ys) ps qs :=
  (Plain.append_coincide (by decide) (h.intercalate hsep)).append_plain (by decide)

end Coincide
end Stencil.Script

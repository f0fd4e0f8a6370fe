import Stencil.Proofs.Script.Scanner

/-! Scripts as lexemes: names, members, string literals and single characters. What the
fragments of a script give is put together, as long as no fragment goes on with a word that
the one before it has begun. -/
namespace Stencil.Script
open Binding Text

/-- A name, a name right after a dot, what stands between the quotes of a literal, or any
other character. -/
inductive Lexeme where
  | word (cs : List Char)
  | member (cs : List Char)
  | literal (body : List Char)
  | mark (c : Char)
  deriving DecidableEq

namespace Lexeme

/-- A character joins the word that begins right after it. -/
def joinChar (c : Char) : List Lexeme → List Lexeme
  | .word cs :: ls => .word (c :: cs) :: ls
  | ls => .word [c] :: ls

/-- A dot makes a member of the word that begins right after it. -/
def joinDot : List Lexeme → List Lexeme
  | .word cs :: ls => .member cs :: ls
  | ls => .mark '.' :: ls

end Lexeme

open Lexeme

/-- The lexemes from where the scanner is. Of a literal that does not end only the quote is
kept. -/
def lexFrom : Mode → List Char → List Lexeme
  | .code, [] => []
  | .literal _, [] => [.mark '"']
  | .escape _, [] => [.mark '"']
  | .code, c :: cs =>
    if c = '"' then lexFrom (.literal []) cs
    else if c = '.' then joinDot (lexFrom .code cs)
    else if continuesIdentifier c then joinChar c (lexFrom .code cs)
    else .mark c :: lexFrom .code cs
  | .literal body, c :: cs =>
    if c = '"' then .literal body :: lexFrom .code cs
    else if c = '\\' then lexFrom (.escape (body ++ [c])) cs
    else lexFrom (.literal (body ++ [c])) cs
  | .escape body, c :: cs => lexFrom (.literal (body ++ [c])) cs

def lexemes (text : String) : List Lexeme := lexFrom .code text.toList

/-- A member and a word of the same letters, and a quote within a literal. -/
example : lexemes "n0.n1=\"\\\"n2\";" =
    [.word ['n', '0'], .member ['n', '1'], .mark '=', .literal ['\\', '"', 'n', '2'],
      .mark ';'] := by
  decide +kernel

/-! ## Where words end -/

/-- No word goes on here. -/
def Breaks (rest : List Char) : Prop := ∀ c ∈ rest.head?, continuesIdentifier c = false

theorem breaks_nil : Breaks [] := fun _ h => by cases h

def startsApart (x : String) : Bool := x.toList.head?.any fun c => !continuesIdentifier c

/-- A word or a member could go on after the text. -/
def endsOpen (x : String) : Bool := x.toList.getLast?.any fun c => c == '.' || continuesIdentifier c

theorem startsApart_append {x : String} (h : startsApart x = true) (y : String) :
    startsApart (x ++ y) = true := by
  unfold startsApart at h ⊢
  rw [String.toList_append]
  cases hx : x.toList with
  | nil => simp [hx] at h
  | cons c cs => simpa [hx] using h

theorem breaks_of_startsApart {x : String} (h : startsApart x = true) (rest : List Char) :
    Breaks (x.toList ++ rest) := by
  unfold startsApart at h
  cases hx : x.toList with
  | nil => simp [hx] at h
  | cons c cs =>
    intro d hd
    rw [List.cons_append, List.head?_cons, Option.mem_some] at hd
    simpa [hx, hd] using h

/-- A literal is not a word. -/
theorem lexFrom_literal_ne_word (cs : List Char) : ∀ (body w : List Char) (ls : List Lexeme),
    lexFrom (.literal body) cs ≠ .word w :: ls ∧ lexFrom (.escape body) cs ≠ .word w :: ls := by
  induction cs with
  | nil =>
    intro body w ls
    constructor <;> intro h <;> cases h
  | cons c cs ih =>
    intro body w ls
    rw [lexFrom, lexFrom]
    refine ⟨?_, (ih _ w ls).1⟩
    split
    · nofun
    · split
      · exact (ih _ w ls).2
      · exact (ih _ w ls).1

theorem lexFrom_ne_word {rest : List Char} (h : Breaks rest) (w : List Char) (ls : List Lexeme) :
    lexFrom .code rest ≠ .word w :: ls := by
  cases rest with
  | nil => nofun
  | cons c cs =>
    have hc : continuesIdentifier c = false := h c rfl
    rw [lexFrom]
    split
    · exact (lexFrom_literal_ne_word cs [] w ls).1
    · split
      · unfold joinDot
        split <;> nofun
      · rw [hc]
        nofun

theorem joinChar_of_ne {ls : List Lexeme} (h : ∀ w ms, ls ≠ .word w :: ms) (c : Char) :
    joinChar c ls = .word [c] :: ls := by
  unfold joinChar
  split
  · exact absurd rfl (h _ _)
  · rfl

theorem joinDot_of_ne {ls : List Lexeme} (h : ∀ w ms, ls ≠ .word w :: ms) :
    joinDot ls = .mark '.' :: ls := by
  unfold joinDot
  split
  · exact absurd rfl (h _ _)
  · rfl

theorem joinChar_append {ls : List Lexeme} (h : ls ≠ []) (c : Char) (ms : List Lexeme) :
    joinChar c (ls ++ ms) = joinChar c ls ++ ms := by
  obtain ⟨l, ls, rfl⟩ := List.exists_cons_of_ne_nil h
  cases l <;> rfl

theorem joinDot_append {ls : List Lexeme} (h : ls ≠ []) (ms : List Lexeme) :
    joinDot (ls ++ ms) = joinDot ls ++ ms := by
  obtain ⟨l, ls, rfl⟩ := List.exists_cons_of_ne_nil h
  cases l <;> rfl

/-! ## Fragments -/

/-- The text gives these lexemes, whatever follows. If it is open at its end, no word may
follow at once. -/
def Lexes (x : String) (opened : Bool) (ls : List Lexeme) : Prop :=
  ∀ rest, (opened = true → Breaks rest) →
    lexFrom .code (x.toList ++ rest) = ls ++ lexFrom .code rest

section Lexes

variable {x y : String} {o p : Bool} {ls ms : List Lexeme}

theorem Lexes.eq (h : Lexes x o ls) : lexemes x = ls := by
  have hx := h [] fun _ => breaks_nil
  rwa [List.append_nil, lexFrom, List.append_nil] at hx

theorem lexes_empty : Lexes "" false [] := fun _ _ => rfl

/-- Any text may be taken as open. -/
theorem Lexes.loosen (h : Lexes x o ls) : Lexes x true ls :=
  fun rest hrest => h rest fun _ => hrest rfl

theorem Lexes.append (hx : Lexes x false ls) (hy : Lexes y p ms) : Lexes (x ++ y) p (ls ++ ms) := by
  intro rest hrest
  rw [String.toList_append, List.append_assoc, hx _ fun hf => absurd hf (by decide), hy rest hrest,
    List.append_assoc]

theorem Lexes.append_apart (hx : Lexes x o ls) (hy : Lexes y p ms) (h : startsApart y = true) :
    Lexes (x ++ y) p (ls ++ ms) := by
  intro rest hrest
  rw [String.toList_append, List.append_assoc, hx _ fun _ => breaks_of_startsApart h rest,
    hy rest hrest, List.append_assoc]

theorem lexFrom_code_ne_nil {c : Char} {cs : List Char} (h : c ≠ '"') :
    lexFrom .code (c :: cs) ≠ [] := by
  rw [lexFrom, if_neg h]
  split
  · unfold joinDot
    split <;> nofun
  · split
    · unfold joinChar
      split <;> nofun
    · nofun

/-- A text without quotes gives its own lexemes. -/
theorem Plain.lexes (h : Plain x) : Lexes x (endsOpen x) (lexemes x) := by
  unfold Plain endsOpen lexemes Lexes at *
  generalize x.toList = cs at h ⊢
  intro rest
  induction cs with
  | nil => exact fun _ => rfl
  | cons c cs ih =>
    intro hrest
    rw [List.mem_cons, not_or] at h
    cases cs with
    | nil =>
      -- the last character: what follows begins with no word if this one could go on
      have hlast : (c == '.' || continuesIdentifier c) = true → Breaks rest := hrest
      rw [List.cons_append, List.nil_append, lexFrom, lexFrom, if_neg (Ne.symm h.1),
        if_neg (Ne.symm h.1), lexFrom]
      split
      · have hne := lexFrom_ne_word (hlast (by simp [*]))
        rw [joinDot_of_ne hne]
        rfl
      · split
        · have hne := lexFrom_ne_word (hlast (by simp [*]))
          rw [joinChar_of_ne hne]
          rfl
        · rfl
    | cons d cs =>
      have hne : lexFrom .code (d :: cs) ≠ [] :=
        lexFrom_code_ne_nil fun hd => h.2 (hd ▸ List.mem_cons_self)
      have htail := ih h.2 (by simpa using hrest)
      rw [List.cons_append, lexFrom, lexFrom, htail, if_neg (Ne.symm h.1), if_neg (Ne.symm h.1),
        joinDot_append hne, joinChar_append hne]
      split
      · rfl
      · split <;> rfl

theorem lexes_closed (h : Plain x) (hend : endsOpen x = false) : Lexes x false (lexemes x) :=
  hend ▸ h.lexes

theorem lexFrom_word (w rest : List Char) (hne : w ≠ []) (h : ∀ c ∈ w, continuesIdentifier c = true)
    (hrest : Breaks rest) : lexFrom .code (w ++ rest) = .word w :: lexFrom .code rest := by
  have hword : ∀ c, continuesIdentifier c = true → c ≠ '"' ∧ c ≠ '.' := by
    rintro c hc
    constructor <;> rintro rfl <;> cases hc
  induction w with
  | nil => exact absurd rfl hne
  | cons c w ih =>
    have hc := h c List.mem_cons_self
    rw [List.cons_append, lexFrom, if_neg (hword c hc).1, if_neg (hword c hc).2, if_pos hc]
    cases w with
    | nil => exact joinChar_of_ne (lexFrom_ne_word hrest) c
    | cons d w =>
      rw [ih (List.cons_ne_nil d w) fun e he => h e (List.mem_cons_of_mem _ he)]
      rfl

/-- The text is a name, or a number. -/
def IsWord (x : String) : Prop := x.toList ≠ [] ∧ ∀ c ∈ x.toList, continuesIdentifier c = true

theorem IsWord.lexes (h : IsWord x) : Lexes x true [.word x.toList] :=
  fun rest hrest => lexFrom_word x.toList rest h.1 h.2 (hrest rfl)

theorem IsWord.lexes_member (h : IsWord x) : Lexes ("." ++ x) true [.member x.toList] := by
  intro rest hrest
  have hdot : ("." ++ x).toList ++ rest = '.' :: (x.toList ++ rest) := by
    rw [String.toList_append]
    rfl
  rw [hdot, lexFrom, lexFrom_word x.toList rest h.1 h.2 (hrest rfl)]
  rfl

/-- A character as it is written in a literal does not end it. -/
theorem lexFrom_quoteChar (c : Char) (body rest : List Char) :
    lexFrom (.literal body) (quoteChar c ++ rest) =
      lexFrom (.literal (body ++ quoteChar c)) rest := by
  rcases quoteChar_cases c with ⟨l, _, hq⟩ | ⟨_, hq⟩ | ⟨_, hquote, hslash, hq⟩ <;> rw [hq]
  · simp [lexFrom]
  · simp [lexFrom, Scan.hexDigit_ne]
  · simp [lexFrom, hquote, hslash]

theorem lexFrom_quoted (cs body rest : List Char) :
    lexFrom (.literal body) (cs.flatMap quoteChar ++ rest) =
      lexFrom (.literal (body ++ cs.flatMap quoteChar)) rest := by
  induction cs generalizing body with
  | nil => rw [List.flatMap_nil, List.nil_append, List.append_nil]
  | cons c cs ih =>
    rw [List.flatMap_cons, List.append_assoc, lexFrom_quoteChar, ih, List.append_assoc]

theorem lexes_quote (p : String) : Lexes (quote p) false [.literal (quoted p)] := by
  intro rest _
  rw [toList_quote, List.append_assoc, List.cons_append, lexFrom, if_pos rfl, quoted,
    lexFrom_quoted]
  rfl

end Lexes

/-! ## What fragments have -/

/-- The lexemes of the text have the property, whatever follows it. -/
def Reads (P : List Lexeme → Prop) (x : String) (opened : Bool) : Prop :=
  ∃ ls, Lexes x opened ls ∧ P ls

/-- What two lists have, they have together. -/
class Additive (P : List Lexeme → Prop) : Prop where
  nil : P []
  append : ∀ {ls ms}, P ls → P ms → P (ls ++ ms)

section Reads

variable {P Q : List Lexeme → Prop} {x y : String} {o p : Bool}

theorem Reads.imp (h : Reads P x o) (hPQ : ∀ ls, P ls → Q ls) : Reads Q x o := by
  obtain ⟨ls, hx, hP⟩ := h
  exact ⟨ls, hx, hPQ ls hP⟩

theorem Reads.loosen (h : Reads P x o) : Reads P x true := by
  obtain ⟨ls, hx, hP⟩ := h
  exact ⟨ls, hx.loosen, hP⟩

/-- Lexemes are kept apart between texts that are. -/
theorem reads_intercalate {κ : Type} {R : List κ → List Lexeme → Prop} {sep : String}
    {gap : List Lexeme} (hsep : Lexes sep false gap) (hapart : startsApart sep = true)
    (hR : ∀ {ks ks' ls ms}, R ks ls → R ks' ms → R (ks ++ ks') (ls ++ (gap ++ ms)))
    {xs : List String} {ks : List κ} (hne : xs ≠ [])
    (h : List.Forall₂ (fun x k => Reads (R [k]) x o) xs ks) :
    Reads (R ks) (sep.intercalate xs) o := by
  induction h with
  | nil => exact absurd rfl hne
  | @cons x k xs ks hx hxs ih =>
    cases hxs with
    | nil => exact hx
    | @cons y k' xs ks hy hxs =>
      obtain ⟨ls, hls, hk⟩ := hx
      obtain ⟨ms, hms, hks⟩ := ih (List.cons_ne_nil y xs)
      rw [String.intercalate_cons_cons, String.append_assoc]
      exact ⟨ls ++ (gap ++ ms), hls.append_apart (hsep.append hms) (startsApart_append hapart _),
        hR hk hks⟩

variable [Additive P]

theorem reads_empty : Reads P "" false := ⟨[], lexes_empty, Additive.nil⟩

theorem Reads.append (hx : Reads P x false) (hy : Reads P y p) : Reads P (x ++ y) p := by
  obtain ⟨ls, hx, hls⟩ := hx
  obtain ⟨ms, hy, hms⟩ := hy
  exact ⟨ls ++ ms, hx.append hy, Additive.append hls hms⟩

theorem Reads.append_apart (hx : Reads P x o) (hy : Reads P y p) (h : startsApart y = true) :
    Reads P (x ++ y) p := by
  obtain ⟨ls, hx, hls⟩ := hx
  obtain ⟨ms, hy, hms⟩ := hy
  exact ⟨ls ++ ms, hx.append_apart hy h, Additive.append hls hms⟩

theorem Reads.intercalate {sep : String} (hsep : Reads P sep false)
    (hapart : startsApart sep = true)
    {xs : List String} (h : ∀ x ∈ xs, Reads P x o) : Reads P (sep.intercalate xs) o := by
  cases xs with
  | nil =>
    cases o with
    | false => exact reads_empty
    | true => exact reads_empty.loosen
  | cons x xs =>
    obtain ⟨gap, hgap, hP⟩ := hsep
    have hall : List.Forall₂ (fun x _ => Reads P x o) (x :: xs) (x :: xs) :=
      List.forall₂_same.mpr h
    exact reads_intercalate (R := fun _ => P) hgap hapart
      (fun hls hms => Additive.append hls (Additive.append hP hms)) (List.cons_ne_nil x xs) hall

theorem Reads.join {xs : List String} (h : ∀ x ∈ xs, Reads P x false) :
    Reads P (String.join xs) false := by
  induction xs with
  | nil => exact reads_empty
  | cons x xs ih =>
    rw [String.join_cons]
    exact (h x List.mem_cons_self).append (ih fun y hy => h y (List.mem_cons_of_mem _ hy))

end Reads
end Stencil.Script

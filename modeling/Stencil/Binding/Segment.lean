import Stencil.Binding.Path

/-! References in text. A reference stands between double braces, holds at least
one character and no line feed, begins at the leftmost braces that can be closed
and ends at the first ones that close it. -/
namespace Stencil.Binding
open Text

/-- The text before it is searched for references: without line feeds, carriage
returns and tabs, and without blanks at its ends. -/
def tidy (raw : String) : String :=
  String.ofList (trim (raw.toList.filter fun c => c != '\n' && c != '\r' && c != '\t'))

inductive Piece where
  | literal (cs : List Char)
  | reference (body : List Char)
  deriving DecidableEq, Repr

namespace Piece

/-- What stands before the next closing braces, and what follows them. -/
def body? : List Char → Option (List Char × List Char)
  | [] => none
  | c :: cs =>
    if c = '\x7d' ∧ cs.head? = some '\x7d' then some ([], cs.tail)
    else if c = '\n' then none
    else (body? cs).map fun r => (c :: r.1, r.2)

/-- The reference that begins right here, and what follows it. -/
def reference? : List Char → Option (List Char × List Char)
  | a :: b :: c :: cs =>
    if a = '\x7b' ∧ b = '\x7b' ∧ c ≠ '\n' then (body? cs).map fun r => (c :: r.1, r.2) else none
  | _ => none

theorem length_body?_le {cs b r : List Char} (h : body? cs = some (b, r)) :
    r.length ≤ cs.length := by
  induction cs generalizing b with
  | nil => simp [body?] at h
  | cons c cs ih =>
    rw [body?] at h
    split at h
    · cases h; simp; omega
    · split at h
      · cases h
      · obtain ⟨⟨b', r'⟩, hb, he⟩ := Option.map_eq_some_iff.1 h
        cases he
        exact Nat.le_succ_of_le (ih hb)

theorem length_reference?_lt {cs b r : List Char} (h : reference? cs = some (b, r)) :
    r.length < cs.length := by
  unfold reference? at h
  split at h
  · split at h
    · obtain ⟨⟨b', r'⟩, hb, he⟩ := Option.map_eq_some_iff.1 h
      cases he
      have := length_body?_le hb
      simp only [List.length_cons] at *
      omega
    · cases h
  · cases h

/-- A character in front of pieces joins a literal that comes first. -/
def prependChar (c : Char) : List Piece → List Piece
  | .literal cs :: ps => .literal (c :: cs) :: ps
  | ps => .literal [c] :: ps

def cut (cs : List Char) : List Piece :=
  match _hr : reference? cs with
  | some (b, rest) => .reference b :: cut rest
  | none =>
    match cs with
    | [] => []
    | c :: cs => prependChar c (cut cs)
termination_by cs.length
decreasing_by
  · exact length_reference?_lt _hr
  · simp

def literal? : Piece → Option (List Char)
  | .literal cs => some cs
  | .reference _ => none

end Piece

/-- The text without its references. -/
def literalText (text : String) : String :=
  String.ofList ((Piece.cut text.toList).filterMap Piece.literal?).flatten

/-- A stretch of literal text or a reference to data. -/
inductive Segment where
  | literal (text : String)
  | reference (path : Path)
  deriving DecidableEq

namespace Segment

def ofPiece : Piece → Except InvalidPath Segment
  | .literal cs => .ok (.literal (String.ofList cs))
  | .reference b =>
    match Path.read (String.ofList b) with
    | .ok p => .ok (.reference p)
    | .error e => .error e

def ofPieces : List Piece → Except InvalidPath (List Segment)
  | [] => .ok []
  | p :: ps =>
    match ofPiece p with
    | .error e => .error e
    | .ok s =>
      match ofPieces ps with
      | .error e => .error e
      | .ok ss => .ok (s :: ss)

/-- The segments of a text; the first reference that is no path is the error. -/
def readAll (text : String) : Except InvalidPath (List Segment) :=
  ofPieces (Piece.cut text.toList)

def isReference : Segment → Bool
  | .reference _ => true
  | .literal _ => false

end Segment

/-- Both braces around a directive's value, if they are there, are taken off. -/
def withoutBraces (cs : List Char) : List Char :=
  match cs with
  | '\x7b' :: '\x7b' :: r =>
    match r.reverse with
    | '\x7d' :: '\x7d' :: m => m.reverse
    | _ => cs
  | _ => cs

/-- The path a directive names, with or without braces around it. -/
def Path.ofDirective (value : String) : Except InvalidPath Path :=
  Path.read (String.ofList (withoutBraces (tidy value).toList))

end Stencil.Binding

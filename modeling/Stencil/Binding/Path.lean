import Stencil.Text.Blank
import Stencil.Text.Split

/-! Paths into data: identifiers joined by dots, as in `user.name`. -/
namespace Stencil.Binding
open Text

def startsIdentifier (c : Char) : Bool := c.isAlpha || c == '_' || c == '$'

def continuesIdentifier (c : Char) : Bool := startsIdentifier c || c.isDigit

def isIdentifier (s : String) : Bool :=
  match s.toList with
  | [] => false
  | c :: cs => startsIdentifier c && cs.all continuesIdentifier

/-- A non-empty list of identifiers. -/
structure Path where
  segments : List String
  segments_ne_nil : segments ≠ []
  isIdentifier_of_mem : ∀ s ∈ segments, isIdentifier s = true
  deriving DecidableEq

/-- A reference that is no path, without the blanks around it. -/
structure InvalidPath where
  text : String
  deriving DecidableEq, Repr

def InvalidPath.message (e : InvalidPath) : String := "Invalid variable path '" ++ e.text ++ "'"

namespace Path

def ofSegments? (ss : List String) : Option Path :=
  if h : ss ≠ [] ∧ ∀ s ∈ ss, isIdentifier s = true then some ⟨ss, h.1, h.2⟩ else none

/-- Reads a dotted path; blanks around the whole are ignored. -/
def read (raw : String) : Except InvalidPath Path :=
  let text := trimmed raw
  match ofSegments? ((split '.' text.toList).map String.ofList) with
  | some p => .ok p
  | none => .error ⟨text⟩

/-- The first segment, which selects a field of the data. -/
def key (p : Path) : String := p.segments.head p.segments_ne_nil

end Path

/-- Segments joined by dots. -/
def dotted (ss : List String) : String := String.ofList (join '.' (ss.map String.toList))

end Stencil.Binding

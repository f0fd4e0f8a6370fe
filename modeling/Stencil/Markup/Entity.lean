/-! The five predefined entities: reading them back into characters, and writing
characters as entities where markup needs it. -/
namespace Stencil.Markup.Entity

/-- Replaces every occurrence of `mark`, left to right without overlap; the
number says how many characters of an occurrence are still to be skipped. -/
def replaceFrom (mark new : List Char) : Nat → List Char → List Char
  | _, [] => []
  | k + 1, _ :: cs => replaceFrom mark new k cs
  | 0, c :: cs =>
    if mark.isPrefixOf (c :: cs) then new ++ replaceFrom mark new (mark.length - 1) cs
    else c :: replaceFrom mark new 0 cs

def replaceAll (mark new : List Char) (cs : List Char) : List Char := replaceFrom mark new 0 cs

/-- The entities with their characters. The ampersand comes last, so that what
it yields is not read as an entity again. -/
def table : List (String × Char) :=
  [("&lt;", '<'), ("&gt;", '>'), ("&quot;", '"'), ("&apos;", '\''), ("&amp;", '&')]

/-- Every entity becomes its character; other uses of the ampersand stay. -/
def decode (cs : List Char) : List Char :=
  table.foldl (fun acc e => replaceAll e.1.toList [e.2] acc) cs

/-- Where a text is written: between tags, or in a double-quoted value. -/
inductive Place where
  | content
  | value
  deriving DecidableEq, Repr

def escapeChar (p : Place) (c : Char) : List Char :=
  if c = '&' then "&amp;".toList
  else if c = '<' then "&lt;".toList
  else if c = '>' ∧ p = .content then "&gt;".toList
  else if c = '"' ∧ p = .value then "&quot;".toList
  else [c]

def escape (p : Place) (cs : List Char) : List Char := cs.flatMap (escapeChar p)

end Stencil.Markup.Entity

/-! White space. A character is blank when it is one of the 25 code points with
the White_Space property; zero-width characters such as U+200B and U+FEFF are
not. Trimming takes blank characters off the ends of a text. -/
namespace Stencil.Text

/-- The code points with the White_Space property, in order. -/
def blankPoints : List Nat :=
  [0x09, 0x0A, 0x0B, 0x0C, 0x0D, 0x20, 0x85, 0xA0, 0x1680,
   0x2000, 0x2001, 0x2002, 0x2003, 0x2004, 0x2005, 0x2006, 0x2007, 0x2008, 0x2009, 0x200A,
   0x2028, 0x2029, 0x202F, 0x205F, 0x3000]

def isBlank (c : Char) : Bool := blankPoints.contains c.toNat

def trimStart (cs : List Char) : List Char := cs.dropWhile isBlank

def trimEnd (cs : List Char) : List Char := (trimStart cs.reverse).reverse

def trim (cs : List Char) : List Char := trimEnd (trimStart cs)

/-- The text without the blank characters at its ends. -/
def trimmed (s : String) : String := String.ofList (trim s.toList)

/-- A text of blank characters only, such as the empty one. -/
def isBlankText (s : String) : Bool := s.toList.all isBlank

theorem trimStart_suffix (cs : List Char) : trimStart cs <:+ cs := List.dropWhile_suffix isBlank

theorem suffix_of_trimStart {cs r : List Char} {c : Char} (h : trimStart cs = c :: r) :
    r <:+ cs :=
  (List.suffix_cons c r).trans (h ▸ trimStart_suffix cs)

theorem length_trimStart_le (cs : List Char) : (trimStart cs).length ≤ cs.length :=
  (trimStart_suffix cs).length_le

theorem isBlank_of_isWhitespace {c : Char} (h : c.isWhitespace = true) : isBlank c = true := by
  simp only [Char.isWhitespace, Bool.or_eq_true, decide_eq_true_eq] at h
  rcases h with ((rfl | rfl) | rfl) | rfl <;> decide

end Stencil.Text

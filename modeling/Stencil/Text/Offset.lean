/-! Places in a source text. A place is given by the characters that are left
from there on, and reported as the number of UTF-8 bytes before it. -/
namespace Stencil.Text

def byteSize : List Char → Nat
  | [] => 0
  | c :: cs => c.utf8Size + byteSize cs

/-- The byte offset at which `rest` begins, for a `rest` that ends `source`. -/
def offset (source rest : List Char) : Nat := byteSize source - byteSize rest

theorem byteSize_append (xs ys : List Char) : byteSize (xs ++ ys) = byteSize xs + byteSize ys := by
  induction xs with
  | nil => simp [byteSize]
  | cons c xs ih => simp only [List.cons_append, byteSize, ih]; omega

theorem byteSize_toList (s : String) : byteSize s.toList = s.utf8ByteSize := by
  have hlist : ∀ cs : List Char, byteSize cs = (String.ofList cs).utf8ByteSize := by
    intro cs
    induction cs with
    | nil => simp [byteSize]
    | cons c cs ih =>
      have hcons : String.ofList (c :: cs) = String.singleton c ++ String.ofList cs := by simp
      rw [byteSize, ih, hcons, String.utf8ByteSize_append, String.utf8ByteSize_singleton]
  rw [hlist, String.ofList_toList]

theorem offset_append (xs ys : List Char) : offset (xs ++ ys) ys = byteSize xs := by
  simp [offset, byteSize_append]

end Stencil.Text

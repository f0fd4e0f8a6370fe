import Stencil.Proofs.Markup.Grammar
import Stencil.Proofs.Markup.Layout

/-! Printing trees. A tree is printed in one of the layouts of its tokens. So, if its names can
be read back, it is read back from its printed form, with texts that stand beside each other
joined and empty ones dropped. -/
namespace Stencil.Markup
open Text

/-- An attribute as it is printed in a tag. -/
def Attribute.print (a : Attribute) : List Char :=
  ' ' :: (a.name.toList ++ '=' :: '"' :: (Entity.escape .value a.value.toList ++ ['"']))

theorem Attribute.allWritten_print (as : List Attribute) :
    Attribute.AllWritten as (as.flatMap Attribute.print) := by
  induction as with
  | nil => exact .nil
  | cons a as ih =>
    have ha : a.Written a.print := by
      have hspace : Blanks [' '] := by simp [Blanks, show Text.isBlank ' ' = true by decide]
      have hquoted := Attribute.Written.quoted (a := a) hspace (by simp) (.inl rfl)
      simpa [Attribute.print, Entity.escape_eq, Entity.Place.marked] using hquoted
    exact .cons ha ih

namespace Node

mutual

def print : Node → List Char
  | .document ns => printAll ns
  | .element tag as ns =>
    '<' :: (tag.toList ++ (as.flatMap Attribute.print ++ '>' ::
      (printAll ns ++ '<' :: '/' :: (tag.toList ++ ['>']))))
  | .text s => Entity.escape .content s.toList

def printAll : List Node → List Char
  | [] => []
  | n :: ns => print n ++ printAll ns

end

mutual

/-- Elements and texts, with names that can be read back. -/
def Legible : Node → Prop
  | .document _ => False
  | .element tag as ns => isTag tag = true ∧ (∀ a ∈ as, isName a.name = true) ∧ LegibleAll ns
  | .text _ => True

def LegibleAll : List Node → Prop
  | [] => True
  | n :: ns => Legible n ∧ LegibleAll ns

end

/-- A text in front of nodes; it joins a text that comes first, and is dropped if it is
empty. -/
def joinText (s : String) : List Node → List Node
  | .text t :: ns => .text (s ++ t) :: ns
  | ns => if s = "" then ns else .text s :: ns

def join : Node → List Node → List Node
  | .text s, ns => joinText s ns
  | n, ns => n :: ns

mutual

/-- The tree with every run of texts made one text, and without empty texts. -/
def joined : Node → Node
  | .document ns => .document (joinedAll ns)
  | .element tag as ns => .element tag as (joinedAll ns)
  | .text s => .text s

def joinedAll : List Node → List Node
  | [] => []
  | n :: ns => join (joined n) (joinedAll ns)

end

mutual

/-- The texts of a tree, in order. -/
def texts : Node → List String
  | .document ns => textsAll ns
  | .element _ _ ns => textsAll ns
  | .text s => [s]

def textsAll : List Node → List String
  | [] => []
  | n :: ns => texts n ++ textsAll ns

end

def isText : Node → Bool
  | .text _ => true
  | _ => false

mutual

/-- No text is empty, and none stands before another. -/
def Spaced : Node → Prop
  | .document ns => SpacedAll ns
  | .element _ _ ns => SpacedAll ns
  | .text s => s ≠ ""

def SpacedAll : List Node → Prop
  | [] => True
  | n :: ns => Spaced n ∧ (n.isText = true → ns.head?.any isText = false) ∧ SpacedAll ns

end

/-! ## Joining -/

/-- What holds of nodes joined, from what holds of a text and of the nodes. -/
theorem joinText_cases (s : String) (ns : List Node) :
    (∃ t ns', ns = .text t :: ns' ∧ joinText s ns = .text (s ++ t) :: ns') ∨
      ns.head?.any isText = false ∧
        (s = "" ∧ joinText s ns = ns ∨ s ≠ "" ∧ joinText s ns = .text s :: ns) := by
  unfold joinText
  split
  · exact .inl ⟨_, _, rfl, rfl⟩
  · rename_i hns
    refine .inr ⟨?_, ?_⟩
    · cases ns with
      | nil => rfl
      | cons n ns =>
        cases n with
        | text t => exact absurd rfl (hns t ns)
        | document => rfl
        | element => rfl
    · by_cases hs : s = ""
      · exact .inl ⟨hs, if_pos hs⟩
      · exact .inr ⟨hs, if_neg hs⟩

theorem printAll_join (n : Node) (ns : List Node) :
    printAll (join n ns) = print n ++ printAll ns := by
  cases n with
  | document | element => rfl
  | text s =>
    rw [join, print]
    rcases joinText_cases s ns with ⟨t, ns', rfl, h⟩ | ⟨_, ⟨rfl, h⟩ | ⟨_, h⟩⟩ <;> rw [h]
    · rw [printAll, printAll, print, print, String.toList_append, Entity.escape_append,
        List.append_assoc]
    · rfl
    · rw [printAll, print]

theorem textsAll_join (n : Node) (ns : List Node) :
    String.join (textsAll (join n ns)) = String.join (texts n) ++ String.join (textsAll ns) := by
  cases n with
  | document | element =>
    rw [join, textsAll, String.join_append]
    nofun
  | text s =>
    rw [join, texts]
    rcases joinText_cases s ns with ⟨t, ns', rfl, h⟩ | ⟨_, ⟨rfl, h⟩ | ⟨_, h⟩⟩ <;> rw [h]
    · simp [textsAll, texts, String.append_assoc]
    · simp
    · simp [textsAll, texts]

theorem legibleAll_join {n : Node} {ns : List Node} (hn : Legible n) (hns : LegibleAll ns) :
    LegibleAll (join n ns) := by
  cases n with
  | document | element => exact ⟨hn, hns⟩
  | text s =>
    rw [join]
    rcases joinText_cases s ns with ⟨t, ns', rfl, h⟩ | ⟨_, ⟨_, h⟩ | ⟨_, h⟩⟩ <;> rw [h]
    · exact ⟨trivial, hns.2⟩
    · exact hns
    · exact ⟨trivial, hns⟩

theorem spacedAll_join {n : Node} {ns : List Node} (hn : n.isText = false → Spaced n)
    (hns : SpacedAll ns) : SpacedAll (join n ns) := by
  cases n with
  | document | element => exact ⟨hn rfl, nofun, hns⟩
  | text s =>
    rw [join]
    rcases joinText_cases s ns with ⟨t, ns', rfl, h⟩ | ⟨hhead, ⟨_, h⟩ | ⟨hs, h⟩⟩ <;> rw [h]
    · have ht : t ≠ "" := hns.1
      have hst : s ++ t ≠ "" := by simp [ht]
      exact ⟨hst, hns.2⟩
    · exact hns
    · exact ⟨hs, fun _ => hhead, hns⟩

mutual

theorem print_joined : ∀ n : Node, print (joined n) = print n
  | .document ns => by rw [joined, print, print, printAll_joinedAll ns]
  | .element tag as ns => by rw [joined, print, print, printAll_joinedAll ns]
  | .text s => by rw [joined]

theorem printAll_joinedAll : ∀ ns : List Node, printAll (joinedAll ns) = printAll ns
  | [] => by rw [joinedAll]
  | n :: ns => by
    rw [joinedAll, printAll_join, print_joined n, printAll_joinedAll ns, printAll]

end

mutual

theorem texts_joined : ∀ n : Node, String.join (texts (joined n)) = String.join (texts n)
  | .document ns => by rw [joined, texts, texts, textsAll_joinedAll ns]
  | .element tag as ns => by rw [joined, texts, texts, textsAll_joinedAll ns]
  | .text s => by rw [joined]

theorem textsAll_joinedAll : ∀ ns : List Node,
    String.join (textsAll (joinedAll ns)) = String.join (textsAll ns)
  | [] => by rw [joinedAll]
  | n :: ns => by
    rw [joinedAll, textsAll_join, texts_joined n, textsAll_joinedAll ns, textsAll,
      String.join_append]

end

mutual

theorem legible_joined : ∀ n : Node, Legible n → Legible (joined n)
  | .document _, h => by cases h
  | .element tag as ns, h => ⟨h.1, h.2.1, legibleAll_joinedAll ns h.2.2⟩
  | .text _, h => h

theorem legibleAll_joinedAll : ∀ ns : List Node, LegibleAll ns → LegibleAll (joinedAll ns)
  | [], h => h
  | n :: ns, h => legibleAll_join (legible_joined n h.1) (legibleAll_joinedAll ns h.2)

end

mutual

theorem spaced_joined : ∀ n : Node, (joined n).isText = false → Spaced (joined n)
  | .document ns, _ => spacedAll_joinedAll ns
  | .element _ _ ns, _ => spacedAll_joinedAll ns
  | .text _, h => nomatch h

theorem spacedAll_joinedAll : ∀ ns : List Node, SpacedAll (joinedAll ns)
  | [] => trivial
  | n :: ns => spacedAll_join (spaced_joined n) (spacedAll_joinedAll ns)

end

/-! ## Tokens -/

mutual

def tokens : Node → List Token
  | .document ns => tokensAll ns
  | .element tag as ns => .opening tag as false :: (tokensAll ns ++ [.closing tag])
  | .text s => [.text s]

def tokensAll : List Node → List Token
  | [] => []
  | n :: ns => tokens n ++ tokensAll ns

end

mutual

/-- A printed tree, before a layout of other tokens, is a layout. -/
theorem layout_print : ∀ n : Node, Legible n → ∀ {ts : List Token} {cs : List Char},
    Layout ts cs → Layout (tokens n ++ ts) (print n ++ cs)
  | .document _, h, _, _, _ => by cases h
  | .text s, _, ts, cs, h => by
    rw [print, Entity.escape_eq]
    exact .cons .nil (.text s) h
  | .element tag as ns, hl, ts, cs, h => by
    have hclosing := Layout.cons .nil (.closing tag blanks_nil blanks_nil) h
    have hopening := Layout.cons .nil
      (.opening tag false (Attribute.allWritten_print as) blanks_nil)
      (layout_printAll ns hl.2.2 hclosing)
    simpa [print, tokens, Token.tagEnd] using hopening

theorem layout_printAll : ∀ ns : List Node, LegibleAll ns → ∀ {ts : List Token} {cs : List Char},
    Layout ts cs → Layout (tokensAll ns ++ ts) (printAll ns ++ cs)
  | [], _, _, _, h => h
  | n :: ns, hl, ts, cs, h => by
    rw [tokensAll, printAll, List.append_assoc, List.append_assoc]
    exact layout_print n hl.1 (layout_printAll ns hl.2 h)

end

theorem legible_closing {tag : String} (h : isTag tag = true) : (Token.closing tag).Legible := by
  obtain ⟨d, ds, hds, _, hends⟩ := exists_of_isTag h
  have hall : ∀ x ∈ tag.toList, Token.endsName x = false := fun x hx => hends x (hds ▸ hx)
  refine ⟨?_, fun hgt => absurd (hall _ hgt) (by decide), ?_⟩
  · rintro rfl
    cases hds
  · exact Text.trim_eq_self fun x hx => Token.not_isBlank_of_endsName (hall x hx)

mutual

theorem legible_tokens : ∀ n : Node, Legible n → Spaced n → ∀ t ∈ tokens n, t.Legible
  | .document _, h, _ => by cases h
  | .text s, _, hs => by simpa [tokens, Token.Legible, Spaced] using hs
  | .element tag as ns, hl, hs => by
    rw [tokens, List.forall_mem_cons, List.forall_mem_append, List.forall_mem_singleton]
    exact ⟨⟨hl.1, hl.2.1⟩, legible_tokensAll ns hl.2.2 hs, legible_closing hl.1⟩

theorem legible_tokensAll : ∀ ns : List Node, LegibleAll ns → SpacedAll ns →
    ∀ t ∈ tokensAll ns, t.Legible
  | [], _, _ => by simp [tokensAll]
  | n :: ns, hl, hs => by
    rw [tokensAll, List.forall_mem_append]
    exact ⟨legible_tokens n hl.1 hs.1, legible_tokensAll ns hl.2 hs.2.2⟩

end

theorem fresh_tokensAll {ns : List Node} (hl : LegibleAll ns) (hns : ns.head?.any isText = false)
    (tag : String) (ts : List Token) : Token.Fresh (tokensAll ns ++ .closing tag :: ts) := by
  cases ns with
  | nil => rfl
  | cons n ns =>
    cases n with
    | document => cases hl.1
    | element => rfl
    | text => cases hns

mutual

theorem separate_tokens : ∀ n : Node, Legible n → Spaced n → ∀ {ts : List Token},
    (n.isText = true → Token.Fresh ts) → Token.Separate ts → Token.Separate (tokens n ++ ts)
  | .document _, h, _, _, _, _ => by cases h
  | .text _, _, _, _, hfresh, h => ⟨fun _ => hfresh rfl, h⟩
  | .element tag as ns, hl, hs, ts, _, h => by
    have hclosing : Token.Separate (.closing tag :: ts) := ⟨by simp [Token.isText], h⟩
    rw [tokens, List.cons_append, List.append_assoc]
    exact ⟨by simp [Token.isText], separate_tokensAll ns hl.2.2 hs hclosing⟩

theorem separate_tokensAll : ∀ ns : List Node, LegibleAll ns → SpacedAll ns →
    ∀ {tag : String} {ts : List Token}, Token.Separate (.closing tag :: ts) →
      Token.Separate (tokensAll ns ++ .closing tag :: ts)
  | [], _, _, _, _, h => h
  | n :: ns, hl, hs, tag, ts, h => by
    rw [tokensAll, List.append_assoc]
    exact separate_tokens n hl.1 hs.1 (fun htext => fresh_tokensAll hl.2 (hs.2.1 htext) tag ts)
      (separate_tokensAll ns hl.2 hs.2.2 h)

end

/-! ## Growth -/

mutual

theorem balanced_tokens : ∀ n : Node, Legible n → Balanced (tokens n) [n]
  | .document _, h => by cases h
  | .text s, _ => .text s .nil
  | .element tag as ns, h => .element tag as (balanced_tokensAll ns h.2.2) .nil

theorem balanced_tokensAll : ∀ ns : List Node, LegibleAll ns → Balanced (tokensAll ns) ns
  | [], _ => .nil
  | n :: ns, h => (balanced_tokens n h.1).append (balanced_tokensAll ns h.2)

end

theorem read_print_of_spaced {n : Node} (hl : Legible n) (hs : Spaced n)
    (hn : n.isElement = true) : read (String.ofList (print n)) = .ok (.document [n]) := by
  cases n with
  | document | text => cases hn
  | element tag as ns =>
    have hlayout := layout_print _ hl (.nil .nil)
    have hseparate : Token.Separate (tokens (.element tag as ns) ++ []) :=
      separate_tokens _ hl hs (fun _ => rfl) trivial
    rw [List.append_nil] at hlayout hseparate
    rw [List.append_nil] at hlayout
    have hscan := Token.scan_layout hlayout (legible_tokens _ hl hs) hseparate
    rw [read, Token.readAll, String.toList_ofList, hscan]
    simp only [ofTokens_balanced (balanced_tokens _ hl)]
    rfl

/-- A tree is read back from its printed form with its texts joined. -/
theorem read_print {n : Node} (hl : Legible n) (hn : n.isElement = true) :
    read (String.ofList (print n)) = .ok (.document [joined n]) := by
  cases n with
  | document | text => cases hn
  | element tag as ns =>
    rw [← print_joined]
    exact read_print_of_spaced (legible_joined _ hl) (spaced_joined _ rfl) rfl

end Node
end Stencil.Markup

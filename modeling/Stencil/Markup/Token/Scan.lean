import Stencil.Markup.Entity
import Stencil.Markup.Token
import Stencil.Text.Blank
import Stencil.Text.Offset

/-! Cutting a source text into tokens. Comments and declarations (`<? >`, `<! >`)
are passed over. A reader takes the characters left and returns what it read with
what is left after it; each step takes at least one character, and a fault names
the place where the faulty construct begins. -/
namespace Stencil.Markup
open Text

namespace Token

/-- A fault during scanning: the cause, and the characters left from there. -/
abbrev Fault := TokenCause × List Char

/-- What follows the first occurrence of `mark`. -/
def after? (mark : List Char) : List Char → Option (List Char)
  | [] => none
  | c :: cs =>
    if mark.isPrefixOf (c :: cs) then some ((c :: cs).drop mark.length) else after? mark cs

theorem suffix_after? {mark cs r : List Char} (h : after? mark cs = some r) : r <:+ cs := by
  induction cs with
  | nil => simp [after?] at h
  | cons c cs ih =>
    rw [after?] at h
    split at h
    · cases h
      exact List.drop_suffix _ _
    · exact (ih h).trans (List.suffix_cons c cs)

/-- Characters at which a tag or attribute name stops. -/
def endsName (c : Char) : Bool := isBlank c || c == '>' || c == '/' || c == '='

/-- Characters of a value without quotes. -/
def isBare (c : Char) : Bool := !isBlank c && c != '>'

/-- A value without quotes loses its trailing slashes, which may close the tag. -/
def bareValue (cs : List Char) : List Char :=
  ((cs.takeWhile isBare).reverse.dropWhile (· == '/')).reverse

/-- Reads up to the closing quote `q`; `start` is the place of the opening one. -/
def quotedValue (start : List Char) (q : Char) (cs : List Char) :
    Except Fault (List Char × List Char) :=
  match cs.dropWhile (· != q) with
  | [] => .error (.unterminatedValue, start)
  | _ :: rest => .ok (cs.takeWhile (· != q), rest)

def attributeValue (cs : List Char) : Except Fault (List Char × List Char) :=
  match cs with
  | '"' :: r => quotedValue cs '"' r
  | '\'' :: r => quotedValue cs '\'' r
  | _ => .ok (bareValue cs, cs.drop (bareValue cs).length)

/-- The attribute called `name`, from what follows the name. Without an equals
sign the value is empty, and blanks after the name are left. -/
def attributeAfter (name r : List Char) : Except Fault (Attribute × List Char) :=
  match trimStart r with
  | '=' :: r' =>
    match attributeValue (trimStart r') with
    | .ok (v, rest) => .ok (⟨String.ofList name, String.ofList (Entity.decode v)⟩, rest)
    | .error e => .error e
  | _ => .ok (⟨String.ofList name, ""⟩, r)

theorem suffix_quotedValue {start cs v r : List Char} {q : Char}
    (h : quotedValue start q cs = .ok (v, r)) : r <:+ cs := by
  have hd := List.dropWhile_suffix (l := cs) (· != q)
  unfold quotedValue at h
  split at h
  · cases h
  · rename_i c rest hr
    cases h
    rw [hr] at hd
    exact (List.suffix_cons c r).trans hd

theorem suffix_attributeValue {cs v r : List Char} (h : attributeValue cs = .ok (v, r)) :
    r <:+ cs := by
  unfold attributeValue at h
  split at h
  · exact (suffix_quotedValue h).trans (List.suffix_cons _ _)
  · exact (suffix_quotedValue h).trans (List.suffix_cons _ _)
  · cases h
    exact List.drop_suffix _ _

theorem suffix_attributeAfter {name r rest : List Char} {a : Attribute}
    (h : attributeAfter name r = .ok (a, rest)) : rest <:+ r := by
  unfold attributeAfter at h
  split at h
  · rename_i r' hr
    split at h
    · rename_i v rest' hv
      cases h
      exact (suffix_attributeValue hv).trans ((trimStart_suffix r').trans (suffix_of_trimStart hr))
    · cases h
  · cases h
    exact List.suffix_refl _

/-- Attributes up to the end of the tag, whether it closes itself, and the rest.
Characters that cannot begin a name are passed over one by one. `start` is the
place of the tag. -/
def tagRest (start cs : List Char) : Except Fault (List Attribute × Bool × List Char) :=
  match _ht : trimStart cs with
  | [] => .error (.unterminatedTag, start)
  | c :: r =>
    if c = '>' then .ok ([], false, r)
    else if c = '/' ∧ r.head? = some '>' then .ok ([], true, r.tail)
    else if endsName c then tagRest start r
    else
      match _ha : attributeAfter (c :: r.takeWhile (!endsName ·)) (r.dropWhile (!endsName ·)) with
      | .error e => .error e
      | .ok (a, rest) =>
        match tagRest start rest with
        | .error e => .error e
        | .ok (as, selfClosing, rest') => .ok (a :: as, selfClosing, rest')
termination_by cs.length
decreasing_by
  · have := length_trimStart_le cs
    rw [_ht] at this
    simp only [List.length_cons] at this
    omega
  · have h1 := length_trimStart_le cs
    have h2 := (suffix_attributeAfter _ha).length_le
    have h3 := (List.dropWhile_suffix (l := r) (!endsName ·)).length_le
    rw [_ht] at h1
    simp only [List.length_cons] at h1
    omega

/-- An opening tag, from what follows its `<`. -/
def openingTag (start r : List Char) : Except Fault (Option Token × List Char) :=
  match tagRest start (r.dropWhile (!endsName ·)) with
  | .ok (as, selfClosing, rest) =>
    .ok (some (.opening (String.ofList (r.takeWhile (!endsName ·))) as selfClosing), rest)
  | .error e => .error e

/-- A closing tag, from what follows its `</`. -/
def closingTag (start r : List Char) : Except Fault (Option Token × List Char) :=
  match r.dropWhile (· != '>') with
  | [] => .error (.unterminatedTag, start)
  | _ :: rest =>
    let tag := trim (r.takeWhile (· != '>'))
    if tag = [] then .error (.missingTagName, start)
    else .ok (some (.closing (String.ofList tag)), rest)

/-- Passes over everything up to the end mark. -/
def skipPast (cause : TokenCause) (start mark r : List Char) :
    Except Fault (Option Token × List Char) :=
  match after? mark r with
  | some rest => .ok (none, rest)
  | none => .error (cause, start)

/-- Text from `c` up to the next `<`. A first `<` that begins no markup is text. -/
def textRun (c : Char) (cs : List Char) : Except Fault (Option Token × List Char) :=
  .ok (some (.text (String.ofList (Entity.decode (c :: cs.takeWhile (· != '<'))))),
    cs.dropWhile (· != '<'))

/-- Reads one construct: the token it gives, if any, and what is left. -/
def next (c : Char) (cs : List Char) : Except Fault (Option Token × List Char) :=
  let start := c :: cs
  if c = '<' then
    match cs with
    | '!' :: '-' :: '-' :: r => skipPast .unterminatedComment start ['-', '-', '>'] r
    | '!' :: r => skipPast .unterminatedTag start ['>'] r
    | '?' :: r => skipPast .unterminatedTag start ['>'] r
    | '/' :: r => closingTag start r
    | d :: _ => if d.isAlpha then openingTag start cs else textRun c cs
    | [] => textRun c cs
  else textRun c cs

theorem suffix_tagRest {start cs rest : List Char} {as : List Attribute} {b : Bool}
    (h : tagRest start cs = .ok (as, b, rest)) : rest <:+ cs := by
  fun_induction tagRest start cs generalizing as b rest with
  | case1 => cases h
  | case2 cs r ht =>
    cases h
    exact suffix_of_trimStart ht
  | case3 cs c r ht =>
    cases h
    exact (List.tail_suffix r).trans (suffix_of_trimStart ht)
  | case4 cs c r ht _ _ _ ih => exact (ih h).trans (suffix_of_trimStart ht)
  | case5 => cases h
  | case6 => cases h
  | case7 cs c r ht _ _ _ a rest' ha as' b' rest'' hr ih =>
    cases h
    exact (ih hr).trans ((suffix_attributeAfter ha).trans
      ((List.dropWhile_suffix (!endsName ·)).trans (suffix_of_trimStart ht)))

theorem suffix_skipPast {cause : TokenCause} {start mark r rest : List Char} {t : Option Token}
    (h : skipPast cause start mark r = .ok (t, rest)) : rest <:+ r := by
  unfold skipPast at h
  split at h
  · rename_i hs
    cases h
    exact suffix_after? hs
  · cases h

theorem suffix_closingTag {start r rest : List Char} {t : Option Token}
    (h : closingTag start r = .ok (t, rest)) : rest <:+ r := by
  have hd := List.dropWhile_suffix (l := r) (· != '>')
  unfold closingTag at h
  split at h
  · cases h
  · rename_i hr
    rw [hr] at hd
    dsimp only at h
    split at h <;> cases h
    exact (List.suffix_cons _ rest).trans hd

theorem suffix_openingTag {start r rest : List Char} {t : Option Token}
    (h : openingTag start r = .ok (t, rest)) : rest <:+ r := by
  unfold openingTag at h
  split at h
  · rename_i hr
    cases h
    exact (suffix_tagRest hr).trans (List.dropWhile_suffix _)
  · cases h

theorem suffix_textRun {c : Char} {cs rest : List Char} {t : Option Token}
    (h : textRun c cs = .ok (t, rest)) : rest <:+ cs := by
  cases h
  exact List.dropWhile_suffix _

/-- Every construct takes at least one character and leaves what follows it. -/
theorem suffix_next {c : Char} {cs rest : List Char} {t : Option Token}
    (h : next c cs = .ok (t, rest)) : rest <:+ cs := by
  unfold next at h
  dsimp only at h
  split at h
  · split at h
    · exact (suffix_skipPast h).trans ⟨['!', '-', '-'], rfl⟩
    · exact (suffix_skipPast h).trans (List.suffix_cons _ _)
    · exact (suffix_skipPast h).trans (List.suffix_cons _ _)
    · exact (suffix_closingTag h).trans (List.suffix_cons _ _)
    · split at h
      · exact suffix_openingTag h
      · exact suffix_textRun h
    · exact suffix_textRun h
  · exact suffix_textRun h

/-- Puts a token before others; text joins the text that follows it. -/
def prepend : Option Token → List Token → List Token
  | some (.text a), .text b :: ts => .text (a ++ b) :: ts
  | some t, ts => t :: ts
  | none, ts => ts

def scan (cs : List Char) : Except Fault (List Token) :=
  match cs with
  | [] => .ok []
  | c :: cs =>
    match _hn : next c cs with
    | .error e => .error e
    | .ok (t, rest) =>
      match scan rest with
      | .error e => .error e
      | .ok ts => .ok (prepend t ts)
termination_by cs.length
decreasing_by exact Nat.lt_succ_of_le (suffix_next _hn).length_le

/-- The tokens of a source text, in order. -/
def readAll (source : String) : Except TokenError (List Token) :=
  match scan source.toList with
  | .ok ts => .ok ts
  | .error (cause, rest) => .error ⟨cause, offset source.toList rest⟩

end Token
end Stencil.Markup

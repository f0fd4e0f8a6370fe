import Stencil.Proofs.Markup.Faults
import Stencil.Proofs.Text.Cutting

/-! A cursor in a source text: what is left of it and the number of bytes before that. Offsets
are computed and the text is cut there; a cut that is not within the text, or is inside a
character, gives nothing. The scanner as a machine over cursors takes one step for each construct
outside of tags and for each attribute within one. Each of its reads, at a place of the source,
is the reader of the characters left. -/
namespace Stencil.Markup.Token
open Text

structure Cursor where
  rest : List Char
  position : Nat
  deriving DecidableEq, Repr

namespace Cursor

/-- Goes on by `n` bytes. -/
def advance (c : Cursor) (n : Nat) : Option Cursor :=
  (cut? n c.rest).map fun r => ⟨r.2, c.position + n⟩

def skipBlanks (c : Cursor) : Option Cursor :=
  c.advance (byteSize c.rest - byteSize (trimStart c.rest))

/-- Takes the characters up to the first with a property, or all. -/
def takeUntil (p : Char → Bool) (c : Cursor) : Option (List Char × Cursor) :=
  let n := (offsetOf? p c.rest).getD (byteSize c.rest)
  (cut? n c.rest).bind fun r => (c.advance n).map fun c' => (r.1, c')

/-- A value in quotes, from its opening quote. -/
def quoted (q : Char) (c : Cursor) : Option (Except TokenError (List Char × Cursor)) :=
  (cut? 1 c.rest).bind fun r =>
    match offsetOf? (· == q) r.2 with
    | none => some (.error ⟨.unterminatedValue, c.position⟩)
    | some n => (slice? 1 (1 + n) c.rest).bind fun raw =>
        (c.advance (n + 2)).map fun c' => .ok (raw, c')

/-- A value without quotes; the slashes at its end are left. -/
def bare (c : Cursor) : Option (List Char × Cursor) :=
  let n := (offsetOf? (!isBare ·) c.rest).getD (byteSize c.rest)
  (cut? n c.rest).bind fun r =>
    let raw := (r.1.reverse.dropWhile (· == '/')).reverse
    (c.advance (byteSize raw)).map fun c' => (raw, c')

def value (c : Cursor) : Option (Except TokenError (List Char × Cursor)) :=
  match c.rest with
  | '"' :: _ => c.quoted '"'
  | '\'' :: _ => c.quoted '\''
  | _ => c.bare.map .ok

/-- An attribute, unless no name begins here. -/
def readAttribute (c : Cursor) : Option (Except TokenError (Option Attribute × Cursor)) :=
  (c.takeUntil endsName).bind fun r =>
    if r.1 = [] then some (.ok (none, c))
    else
      match trimStart r.2.rest with
      | '=' :: after =>
        (r.2.advance (byteSize r.2.rest - byteSize after)).bind fun c₁ =>
          c₁.skipBlanks.bind fun c₂ =>
            c₂.value.map (Except.map fun v =>
              (some ⟨String.ofList r.1, String.ofList (Entity.decode v.1)⟩, v.2))
      | _ => some (.ok (some ⟨String.ofList r.1, ""⟩, r.2))

end Cursor

/-! ## The machine -/

/-- Puts a token after others; text joins the text before it. -/
def push (ts : List Token) (t : Token) : List Token :=
  match t, ts.getLast? with
  | .text s, some (.text before) => ts.dropLast ++ [.text (before ++ s)]
  | t, _ => ts ++ [t]

/-- Where the scanner is: outside of tags, or within an opening tag that begins at `start`. -/
inductive State where
  | outside (c : Cursor) (tokens : List Token)
  | inside (start : Nat) (tag : String) (attributes : List Attribute) (c : Cursor)
    (tokens : List Token)
  deriving DecidableEq, Repr

inductive Outcome where
  | goes (s : State)
  | ends (answer : Except TokenError (List Token))

inductive Kind where
  | comment
  | declaration
  | closing
  | opening
  | text

/-- The construct that begins here. -/
def kindOf : List Char → Kind
  | '<' :: '!' :: '-' :: '-' :: _ => .comment
  | '<' :: '!' :: _ => .declaration
  | '<' :: '?' :: _ => .declaration
  | '<' :: '/' :: _ => .closing
  | '<' :: d :: _ => if d.isAlpha then .opening else .text
  | _ => .text

namespace Cursor

def comment (c : Cursor) (ts : List Token) : Option Outcome :=
  (cut? 4 c.rest).bind fun r =>
    match offsetOfMark? ['-', '-', '>'] r.2 with
    | some n => (c.advance (4 + n + 3)).map fun c' => .goes (.outside c' ts)
    | none => some (.ends (.error ⟨.unterminatedComment, c.position⟩))

def declaration (c : Cursor) (ts : List Token) : Option Outcome :=
  match offsetOf? (· == '>') c.rest with
  | some n => (c.advance (n + 1)).map fun c' => .goes (.outside c' ts)
  | none => some (.ends (.error ⟨.unterminatedTag, c.position⟩))

def closing (c : Cursor) (ts : List Token) : Option Outcome :=
  match offsetOf? (· == '>') c.rest with
  | some n => (slice? 2 n c.rest).bind fun raw =>
      if trim raw = [] then some (.ends (.error ⟨.missingTagName, c.position⟩))
      else (c.advance (n + 1)).map fun c' =>
        .goes (.outside c' (push ts (.closing (String.ofList (trim raw)))))
  | none => some (.ends (.error ⟨.unterminatedTag, c.position⟩))

def opening (c : Cursor) (ts : List Token) : Option Outcome :=
  (c.advance 1).bind fun c₁ => (c₁.takeUntil endsName).map fun r =>
    .goes (.inside c.position (String.ofList r.1) [] r.2 ts)

def text (c : Cursor) (ts : List Token) : Option Outcome :=
  let skip := if c.rest.head? = some '<' then 1 else 0
  (cut? skip c.rest).bind fun r =>
    let n := ((offsetOf? (· == '<') r.2).map (· + skip)).getD (byteSize c.rest)
    (cut? n c.rest).bind fun u => (c.advance n).map fun c' =>
      .goes (.outside c' (push ts (.text (String.ofList (Entity.decode u.1)))))

def construct (c : Cursor) (ts : List Token) : Option Outcome :=
  match kindOf c.rest with
  | .comment => c.comment ts
  | .declaration => c.declaration ts
  | .closing => c.closing ts
  | .opening => c.opening ts
  | .text => c.text ts

/-- Goes on after an attribute, or past a character at which none begins. -/
def resume (c : Cursor) (start : Nat) (tag : String) (as : List Attribute) (ts : List Token)
    (d : Char) : Except TokenError (Option Attribute × Cursor) → Option Outcome
  | .error e => some (.ends (.error e))
  | .ok (some a, c') => some (.goes (.inside start tag (as ++ [a]) c' ts))
  | .ok (none, _) => (c.advance d.utf8Size).map fun c' => .goes (.inside start tag as c' ts)

/-- The end of an opening tag, or an attribute. -/
def within (start : Nat) (tag : String) (as : List Attribute) (ts : List Token) (c : Cursor) :
    Option Outcome :=
  match c.rest with
  | [] => some (.ends (.error ⟨.unterminatedTag, start⟩))
  | '/' :: '>' :: _ =>
    (c.advance 2).map fun c' => .goes (.outside c' (push ts (.opening tag as true)))
  | '>' :: _ =>
    (c.advance 1).map fun c' => .goes (.outside c' (push ts (.opening tag as false)))
  | d :: _ => c.readAttribute.bind (c.resume start tag as ts d)

end Cursor

/-- One step; there is none where a cut fails. -/
def State.step : State → Option Outcome
  | .outside c ts =>
    match c.rest with
    | [] => some (.ends (.ok ts))
    | _ :: _ => c.construct ts
  | .inside start tag as c ts => c.skipBlanks.bind (Cursor.within start tag as ts)

def State.begin (source : String) : State := .outside ⟨source.toList, 0⟩ []

def State.cursor : State → Cursor
  | .outside c _ => c
  | .inside _ _ _ c _ => c

/-- The answer after at most so many steps. -/
def run : Nat → State → Option (Except TokenError (List Token))
  | 0, _ => none
  | n + 1, s =>
    match s.step with
    | some (.goes s') => run n s'
    | some (.ends answer) => some answer
    | none => none

inductive Reaches (source : String) : State → Prop
  | begin : Reaches source (.begin source)
  | step {s s' : State} (h : Reaches source s) (hs : s.step = some (.goes s')) : Reaches source s'

/-! ## Places -/

/-- The cursor at what is left of a source. -/
def place (src rest : List Char) : Cursor := ⟨rest, offset src rest⟩

def report (src : List Char) (e : Fault) : TokenError := ⟨e.1, offset src e.2⟩

/-- What a reader of the characters left gives, with places for what it leaves. -/
def relay {α : Type} (src : List Char) :
    Except Fault (α × List Char) → Except TokenError (α × Cursor)
  | .ok r => .ok (r.1, place src r.2)
  | .error e => .error (report src e)

/-- What is left is what follows so many bytes of the source. -/
def Cursor.At (source : String) (c : Cursor) : Prop :=
  ∃ before : String, source = before ++ String.ofList c.rest ∧ c.position = before.utf8ByteSize

namespace Cursor

variable {src cs r : List Char}

theorem at_place {source : String} {rest : List Char} (h : rest <:+ source.toList) :
    (place source.toList rest).At source := by
  obtain ⟨u, hu⟩ := h
  refine ⟨String.ofList u, ?_, ?_⟩
  · have hsource := congrArg String.ofList hu
    rw [String.ofList_toList, String.ofList_append] at hsource
    exact hsource.symm
  · rw [← byteSize_toList, String.toList_ofList, place, ← hu]
    exact offset_append u rest

/-- Going on keeps the place and the count of bytes together. -/
theorem At.advance {source : String} {c c' : Cursor} {n : Nat} (h : c.At source)
    (hc : c.advance n = some c') : c'.At source := by
  obtain ⟨before, hsource, hposition⟩ := h
  obtain ⟨⟨u, v⟩, hcut, rfl⟩ := Option.map_eq_some_iff.mp hc
  obtain ⟨hrest, hsize⟩ := cut?_eq_some.mp hcut
  refine ⟨before ++ String.ofList u, ?_, ?_⟩
  · rw [hsource, hrest, String.ofList_append, String.append_assoc]
  · rw [String.utf8ByteSize_append, ← hposition, ← byteSize_toList (String.ofList u),
      String.toList_ofList, hsize]

theorem advance_place {u v : List Char} (h : u ++ v <:+ src) :
    (place src (u ++ v)).advance (byteSize u) = some (place src v) := by
  obtain ⟨w, rfl⟩ := h
  have hoffset : offset (w ++ (u ++ v)) v = offset (w ++ (u ++ v)) (u ++ v) + byteSize u := by
    rw [offset_append, ← List.append_assoc, offset_append, byteSize_append]
  rw [advance, place, cut?_append, place, hoffset]
  rfl

theorem advance_of_eq {u v : List Char} {n : Nat} (h : cs <:+ src) (hcs : cs = u ++ v)
    (hn : n = byteSize u) : (place src cs).advance n = some (place src v) := by
  subst hcs hn
  exact advance_place h

/-- Going on past the first occurrence of a character, after what was read before. -/
theorem advance_past {q : Char} {u rest : List Char} {n : Nat} (hq : q.utf8Size = 1)
    (hdrop : r.dropWhile (· != q) = q :: rest) (h : u ++ r <:+ src)
    (hn : n = byteSize u + byteSize (r.takeWhile (· != q)) + 1) :
    (place src (u ++ r)).advance n = some (place src rest) := by
  refine advance_of_eq (u := u ++ (r.takeWhile (· != q) ++ [q])) h ?_ ?_
  · rw [List.append_assoc, List.append_assoc, List.singleton_append, ← hdrop,
      List.takeWhile_append_dropWhile]
  · rw [hn, byteSize_append, byteSize_append, byteSize, byteSize, hq, Nat.add_assoc]

theorem skipBlanks_place (h : cs <:+ src) :
    (place src cs).skipBlanks = some (place src (trimStart cs)) := by
  obtain ⟨w, -, hw⟩ := exists_trimStart cs
  refine advance_of_eq h hw ?_
  have hsize := congrArg byteSize hw
  rw [byteSize_append] at hsize
  simp only [place]
  omega

theorem takeUntil_place (p : Char → Bool) (h : cs <:+ src) :
    (place src cs).takeUntil p =
      some (cs.takeWhile (!p ·), place src (cs.dropWhile (!p ·))) := by
  have hadvance := advance_of_eq h List.takeWhile_append_dropWhile.symm
    (offsetOf?_getD p cs)
  unfold takeUntil
  simp only [place] at hadvance ⊢
  rw [hadvance, offsetOf?_getD, cut?_takeWhile]
  rfl

theorem quoted_place {q : Char} (hq : q.utf8Size = 1) (h : q :: r <:+ src) :
    (place src (q :: r)).quoted q = some (relay src (quotedValue (q :: r) q r)) := by
  have hcut : cut? 1 (q :: r) = some ([q], r) := by
    have happ := cut?_append [q] r
    rwa [byteSize, byteSize, hq] at happ
  unfold quoted quotedValue
  simp only [place] at *
  rw [hcut, Option.bind_some]
  rcases offsetOf?_char q r with ⟨hdrop, -, hnone⟩ | ⟨rest, hdrop, -, hsome⟩
  · simp only [hdrop, hnone]
    rfl
  · have hr : r = r.takeWhile (· != q) ++ q :: rest := by
      rw [← hdrop, List.takeWhile_append_dropWhile]
    have hslice : slice? 1 (1 + byteSize (r.takeWhile (· != q))) (q :: r) =
        some (r.takeWhile (· != q)) := by
      have happ := slice?_append [q] (r.takeWhile (· != q)) (q :: rest)
      rw [← hr, byteSize_append, byteSize, byteSize, hq] at happ
      exact happ
    have hadvance : (place src (q :: r)).advance (byteSize (r.takeWhile (· != q)) + 2) =
        some (place src rest) := by
      refine advance_past (u := [q]) hq hdrop h ?_
      rw [byteSize, byteSize, hq]
      omega
    simp only [place] at hadvance
    simp only [hdrop, hsome, hslice, hadvance, Option.bind_some]
    rfl

theorem bare_place (h : cs <:+ src) :
    (place src cs).bare = some (bareValue cs, place src (cs.drop (bareValue cs).length)) := by
  have hrun : (offsetOf? (!isBare ·) cs).getD (byteSize cs) = byteSize (cs.takeWhile isBare) := by
    rw [offsetOf?_getD]
    simp only [Bool.not_not]
  have hadvance := advance_of_eq h (bareValue_spec cs).2.1.symm rfl
  unfold bare
  simp only [place] at hadvance ⊢
  rw [hrun, cut?_takeWhile, Option.bind_some]
  change Option.map _ (Cursor.advance _ (byteSize (bareValue cs))) = _
  rw [hadvance]
  rfl

theorem value_place (h : cs <:+ src) :
    (place src cs).value = some (relay src (attributeValue cs)) := by
  unfold value
  simp only [place]
  split
  · exact quoted_place (by decide) h
  · exact quoted_place (by decide) h
  · rename_i hdouble hsingle
    have hbare := bare_place h
    simp only [place] at hbare
    rw [hbare, attributeValue_bare hdouble hsingle]
    rfl

/-- Where a name stops, no attribute is read. -/
theorem readAttribute_none {d : Char} (hd : endsName d = true) (h : d :: r <:+ src) :
    (place src (d :: r)).readAttribute = some (.ok (none, place src (d :: r))) := by
  rw [readAttribute, takeUntil_place endsName h, Option.bind_some]
  simp [hd]

theorem readAttribute_place {d : Char} (hd : endsName d = false) (h : d :: r <:+ src) :
    (place src (d :: r)).readAttribute = some ((relay src (attributeAfter
      (d :: r.takeWhile (!endsName ·)) (r.dropWhile (!endsName ·)))).map
        fun a => (some a.1, a.2)) := by
  have htail : r.dropWhile (!endsName ·) <:+ src :=
    ((List.dropWhile_suffix _).trans (List.suffix_cons d r)).trans h
  have htake : (d :: r).takeWhile (!endsName ·) = d :: r.takeWhile (!endsName ·) := by
    simp [hd]
  have hdrop : (d :: r).dropWhile (!endsName ·) = r.dropWhile (!endsName ·) := by
    simp [hd]
  rw [readAttribute, takeUntil_place endsName h, Option.bind_some, htake, hdrop,
    if_neg (List.cons_ne_nil _ _)]
  generalize r.dropWhile (!endsName ·) = tail at htail
  generalize d :: r.takeWhile (!endsName ·) = name
  simp only [place]
  split
  · rename_i after hafter
    obtain ⟨w, -, hw⟩ := exists_trimStart tail
    have hsuffix : after <:+ src := (suffix_of_trimStart hafter).trans htail
    have hadvance : (place src tail).advance (byteSize tail - byteSize after) =
        some (place src after) := by
      rw [hafter] at hw
      refine advance_of_eq (u := w ++ ['=']) htail ?_ ?_
      · rw [List.append_assoc, List.singleton_append]
        exact hw
      · have hsize := congrArg byteSize hw
        rw [byteSize_append, byteSize] at hsize
        rw [byteSize_append, byteSize, byteSize]
        omega
    simp only [place] at hadvance
    rw [hadvance, Option.bind_some]
    change (skipBlanks (place src after)).bind _ = _
    rw [skipBlanks_place hsuffix, Option.bind_some,
      value_place ((trimStart_suffix after).trans hsuffix), attributeAfter_equals hafter]
    cases attributeValue (trimStart after) with
    | ok v => rfl
    | error e => rfl
  · rename_i hequals
    rw [attributeAfter_bare hequals]
    rfl

end Cursor

end Stencil.Markup.Token

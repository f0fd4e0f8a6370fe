import Stencil.Proofs.Markup.Cursor

/-! Progress of the scanner. The machine over cursors never comes to a cut that fails: what is
left is always what follows the bytes counted, each step takes a character at least, and the
answer of a run is the answer of `readAll`. -/
namespace Stencil.Markup.Token
open Text

/-! ## Answers -/

/-- The tokens put after others one by one. -/
def join (ts : List Token) : List Token → List Token
  | [] => ts
  | t :: us => push ts t ++ us

theorem push_text_text (ts : List Token) (a b : String) :
    push (push ts (.text a)) (.text b) = push ts (.text (a ++ b)) := by
  rcases List.eq_nil_or_concat ts with rfl | ⟨us, t, rfl⟩
  · rfl
  · cases t <;> simp [push, String.append_assoc]

theorem push_of_not_text {t : Token} (h : t.isText = false) (ts : List Token) :
    push ts t = ts ++ [t] := by
  cases t with
  | text => cases h
  | opening | closing => rfl

theorem push_after {t : Token} (h : t.isText = false) (ts : List Token) (u : Token) :
    push (ts ++ [t]) u = ts ++ [t] ++ [u] := by
  cases t with
  | text => cases h
  | opening | closing => cases u <;> simp [push]

/-- A token can be put after those before it or before those after it. -/
theorem join_push (ts : List Token) (t : Token) (us : List Token) :
    join (push ts t) us = join ts (prepend (some t) us) := by
  cases ht : t.isText with
  | true =>
    cases t with
    | opening | closing => cases ht
    | text a =>
      cases us with
      | nil => simp [join, prepend]
      | cons u us =>
        cases u with
        | text b => simp [join, prepend, push_text_text]
        | opening | closing =>
          rw [join, push_of_not_text rfl]
          simp [join, prepend]
  | false =>
    have hprepend : prepend (some t) us = t :: us :=
      prepend_of_fresh fun h => by rw [ht] at h; cases h
    rw [hprepend, push_of_not_text ht]
    cases us with
    | nil => simp [join, push_of_not_text ht]
    | cons u us => simp [join, push_after ht, push_of_not_text ht]

theorem join_nil (us : List Token) : join [] us = us := by
  cases us with
  | nil => rfl
  | cons u us => cases u <;> rfl

/-- The answer when `ts` was read before. -/
def conclude (src : List Char) (ts : List Token) :
    Except Fault (List Token) → Except TokenError (List Token)
  | .ok us => .ok (join ts us)
  | .error e => .error (report src e)

theorem conclude_prepend (src : List Char) (ts : List Token) (t : Token)
    (r : Except Fault (List Token)) :
    conclude src ts (r.map (prepend (some t))) = conclude src (push ts t) r := by
  cases r with
  | ok us => exact congrArg Except.ok (join_push ts t us).symm
  | error e => rfl

/-! ## What the readers do first -/

/-- What comes first in the rest of an opening tag, and what it leaves to read. -/
inductive TagStep (start cs : List Char) : Prop
  | unended (hcs : trimStart cs = []) (h : tagRest start cs = .error (.unterminatedTag, start))
  | ended (b : Bool) (r : List Char) (hcs : trimStart cs = tagEnd b ++ r)
    (h : tagRest start cs = .ok ([], b, r))
  | stray (d : Char) (r : List Char) (hcs : trimStart cs = d :: r) (hd : endsName d = true)
    (hgt : d ≠ '>') (hslash : ¬(d = '/' ∧ r.head? = some '>'))
    (h : tagRest start cs = tagRest start r)
  | faulty (d : Char) (r : List Char) (e : Fault) (hcs : trimStart cs = d :: r)
    (hd : endsName d = false) (ha : attributeAfter (d :: r.takeWhile (!endsName ·))
      (r.dropWhile (!endsName ·)) = .error e) (h : tagRest start cs = .error e)
  | named (d : Char) (r : List Char) (a : Attribute) (rest : List Char)
    (hcs : trimStart cs = d :: r) (hd : endsName d = false)
    (ha : attributeAfter (d :: r.takeWhile (!endsName ·)) (r.dropWhile (!endsName ·)) =
      .ok (a, rest))
    (h : tagRest start cs = (tagRest start rest).map fun t => (a :: t.1, t.2))

theorem tagStep (start cs : List Char) : TagStep start cs := by
  have h := tagRest.eq_def start cs
  split at h
  · exact .unended ‹_› h
  · rename_i d r hcs
    split at h
    · rename_i hd
      subst hd
      exact .ended false r hcs h
    · rename_i hgt
      split at h
      · rename_i hslash
        obtain ⟨rfl, hhead⟩ := hslash
        obtain ⟨r, rfl⟩ := List.head?_eq_some_iff.mp hhead
        exact .ended true r hcs h
      · rename_i hslash
        split at h
        · exact .stray d r hcs ‹_› hgt hslash h
        · rename_i hd
          have hd := Bool.eq_false_iff.mpr hd
          split at h
          · exact .faulty d r _ hcs hd ‹_› h
          · rename_i a rest ha
            refine .named d r a rest hcs hd ha (h.trans ?_)
            cases tagRest start rest <;> rfl

/-- What is read at a character outside of tags, by the kind of construct. -/
inductive Construct (c : Char) (cs : List Char) : Kind → Prop
  | comment (r : List Char) (hcs : c :: cs = '<' :: '!' :: '-' :: '-' :: r)
    (h : next c cs = skipPast .unterminatedComment (c :: cs) ['-', '-', '>'] r) :
    Construct c cs .comment
  | declaration (m : Char) (r : List Char) (hcs : c :: cs = '<' :: m :: r)
    (hm : m = '!' ∨ m = '?') (h : next c cs = skipPast .unterminatedTag (c :: cs) ['>'] r) :
    Construct c cs .declaration
  | closing (r : List Char) (hcs : c :: cs = '<' :: '/' :: r)
    (h : next c cs = closingTag (c :: cs) r) : Construct c cs .closing
  | opening (d : Char) (r : List Char) (hcs : c :: cs = '<' :: d :: r) (hd : d.isAlpha = true)
    (h : next c cs = openingTag (c :: cs) (d :: r)) : Construct c cs .opening
  | text (h : next c cs = textRun c cs) : Construct c cs .text

theorem kindOf_declaration {r : List Char} (hr : ∀ r', r = '-' :: '-' :: r' → False) :
    kindOf ('<' :: '!' :: r) = .declaration := by
  rw [kindOf]
  exact hr

theorem construct_kindOf (c : Char) (cs : List Char) : Construct c cs (kindOf (c :: cs)) := by
  by_cases hc : c = '<'
  · subst hc
    have hnext := next.eq_def '<' cs
    dsimp only at hnext
    rw [if_pos rfl] at hnext
    split at hnext
    · exact .comment _ rfl hnext
    · rename_i r hcomment
      rw [kindOf_declaration hcomment]
      exact .declaration '!' r rfl (.inl rfl) hnext
    · exact .declaration '?' _ rfl (.inr rfl) hnext
    · exact .closing _ rfl hnext
    · rename_i d r _ hbang hquestion hslash
      have hkind : kindOf ('<' :: d :: r) = if d.isAlpha then .opening else .text := by
        unfold kindOf
        split <;> simp_all
      rw [hkind]
      split at hnext
      · rw [if_pos ‹_›]
        exact .opening d r rfl ‹_› hnext
      · rw [if_neg ‹_›]
        exact .text hnext
    · exact .text hnext
  · have hkind : kindOf (c :: cs) = .text := by
      unfold kindOf
      split <;> simp_all
    rw [hkind]
    exact .text (if_neg hc)

/-! ## Steps -/

def add (ts : List Token) : Option Token → List Token
  | some t => push ts t
  | none => ts

/-- The step that a reader of one construct stands for. -/
def outcomeOf (src : List Char) (ts : List Token) :
    Except Fault (Option Token × List Char) → Outcome
  | .ok r => .goes (.outside (place src r.2) (add ts r.1))
  | .error e => .ends (.error (report src e))

theorem conclude_add (src : List Char) (ts : List Token) (t : Option Token)
    (r : Except Fault (List Token)) :
    conclude src ts (r.map (prepend t)) = conclude src (add ts t) r := by
  cases t with
  | some t => exact conclude_prepend src ts t r
  | none => cases r <;> rfl

namespace Cursor

variable {src : List Char}

theorem comment_place {r : List Char} (h : '<' :: '!' :: '-' :: '-' :: r <:+ src)
    (ts : List Token) :
    (place src ('<' :: '!' :: '-' :: '-' :: r)).comment ts = some (outcomeOf src ts
      (skipPast .unterminatedComment ('<' :: '!' :: '-' :: '-' :: r) ['-', '-', '>'] r)) := by
  have hcut : cut? 4 ('<' :: '!' :: '-' :: '-' :: r) = some (['<', '!', '-', '-'], r) :=
    cut?_append ['<', '!', '-', '-'] r
  unfold comment skipPast
  simp only [place, hcut, Option.bind_some]
  rcases offsetOfMark?_cases ['-', '-', '>'] r with ⟨hafter, hnone⟩ | ⟨u, v, hr, hafter, hsome⟩
  · simp only [hafter, hnone]
    rfl
  · have hadvance : (place src ('<' :: '!' :: '-' :: '-' :: r)).advance (4 + byteSize u + 3) =
        some (place src v) := by
      refine advance_of_eq (u := ['<', '!', '-', '-'] ++ (u ++ ['-', '-', '>'])) h ?_ ?_
      · simp [hr]
      · rw [byteSize_append, byteSize_append, Nat.add_assoc]
        rfl
    simp only [place] at hadvance
    simp only [hafter, hsome, hadvance]
    rfl

theorem declaration_place {m : Char} {r : List Char} (hm : m = '!' ∨ m = '?')
    (h : '<' :: m :: r <:+ src) (ts : List Token) :
    (place src ('<' :: m :: r)).declaration ts =
      some (outcomeOf src ts (skipPast .unterminatedTag ('<' :: m :: r) ['>'] r)) := by
  have hfirst : ∀ x ∈ ['<', m], (x == '>') = false := by
    rcases hm with rfl | rfl <;> simp
  have hoffset := offsetOf?_append hfirst r
  rw [List.cons_append, List.singleton_append] at hoffset
  unfold declaration skipPast
  simp only [place, hoffset]
  rcases offsetOf?_char '>' r with ⟨-, hafter, hnone⟩ | ⟨rest, hdrop, hafter, hsome⟩
  · simp only [hafter, hnone]
    rfl
  · have hadvance : (place src ('<' :: m :: r)).advance
        (byteSize ['<', m] + byteSize (r.takeWhile (· != '>')) + 1) = some (place src rest) :=
      advance_past (u := ['<', m]) (by decide) hdrop h rfl
    simp only [place] at hadvance
    simp only [hafter, hsome, Option.map_some, hadvance]
    rfl

theorem closing_place {r : List Char} (h : '<' :: '/' :: r <:+ src) (ts : List Token) :
    (place src ('<' :: '/' :: r)).closing ts =
      some (outcomeOf src ts (closingTag ('<' :: '/' :: r) r)) := by
  have hoffset := offsetOf?_append (p := (· == '>')) (u := ['<', '/']) (by simp) r
  rw [List.cons_append, List.singleton_append] at hoffset
  unfold closing closingTag
  simp only [place, hoffset]
  rcases offsetOf?_char '>' r with ⟨hdrop, -, hnone⟩ | ⟨rest, hdrop, -, hsome⟩
  · simp only [hdrop, hnone]
    rfl
  · have hr : r = r.takeWhile (· != '>') ++ '>' :: rest := by
      rw [← hdrop, List.takeWhile_append_dropWhile]
    have hslice : slice? 2 (byteSize ['<', '/'] + byteSize (r.takeWhile (· != '>')))
        ('<' :: '/' :: r) = some (r.takeWhile (· != '>')) := by
      have happ := slice?_append ['<', '/'] (r.takeWhile (· != '>')) ('>' :: rest)
      rw [← hr, byteSize_append] at happ
      exact happ
    have hadvance : (place src ('<' :: '/' :: r)).advance
        (byteSize ['<', '/'] + byteSize (r.takeWhile (· != '>')) + 1) =
          some (place src rest) :=
      advance_past (u := ['<', '/']) (by decide) hdrop h rfl
    simp only [place] at hadvance
    simp only [hdrop, hsome, Option.map_some, hslice, Option.bind_some, hadvance]
    split <;> rfl

/-- The end of a text that begins at a character, which may be `<` itself. -/
theorem text_offset (c : Char) (cs : List Char) :
    ∃ u v, cut? (if c = '<' then 1 else 0) (c :: cs) = some (u, v) ∧
      ((offsetOf? (· == '<') v).map (· + if c = '<' then 1 else 0)).getD (byteSize (c :: cs)) =
        byteSize (c :: cs.takeWhile (· != '<')) := by
  have hgetD := offsetOf?_getD (· == '<') cs
  by_cases hc : c = '<'
  · subst hc
    refine ⟨['<'], cs, cut?_append ['<'] cs, ?_⟩
    have hone : '<'.utf8Size = 1 := by decide
    change _ = byteSize (cs.takeWhile (· != '<')) at hgetD
    cases hfind : offsetOf? (· == '<') cs <;> rw [hfind] at hgetD <;>
      simp only [Option.getD] at hgetD <;> simp [byteSize, ← hgetD, hone, Nat.add_comm]
  · rw [if_neg hc]
    refine ⟨[], c :: cs, by rw [cut?], ?_⟩
    have hoffset : offsetOf? (· == '<') (c :: cs) =
        (offsetOf? (· == '<') cs).map (c.utf8Size + ·) := by
      simp [offsetOf?, hc]
    change _ = byteSize (cs.takeWhile (· != '<')) at hgetD
    rw [hoffset, byteSize, byteSize, ← hgetD]
    cases offsetOf? (· == '<') cs <;> rfl

theorem text_place {c : Char} {cs : List Char} (h : c :: cs <:+ src) (ts : List Token) :
    (place src (c :: cs)).text ts = some (outcomeOf src ts (textRun c cs)) := by
  obtain ⟨u, v, hcut, hoffset⟩ := text_offset c cs
  have happ : c :: cs = (c :: cs.takeWhile (· != '<')) ++ cs.dropWhile (· != '<') := by
    rw [List.cons_append, List.takeWhile_append_dropWhile]
  have hadvance := advance_of_eq h happ rfl
  have hrun : cut? (byteSize (c :: cs.takeWhile (· != '<'))) (c :: cs) =
      some (c :: cs.takeWhile (· != '<'), cs.dropWhile (· != '<')) := by
    have hcut := cut?_append (c :: cs.takeWhile (· != '<')) (cs.dropWhile (· != '<'))
    rwa [← happ] at hcut
  unfold text
  simp only [place] at hadvance
  simp only [place, List.head?_cons, Option.some.injEq, hcut, Option.bind_some, hoffset, hrun,
    hadvance]
  rfl

theorem opening_place {d : Char} {r : List Char} (h : '<' :: d :: r <:+ src) (ts : List Token) :
    (place src ('<' :: d :: r)).opening ts =
      some (.goes (.inside (offset src ('<' :: d :: r))
        (String.ofList ((d :: r).takeWhile (!endsName ·))) []
        (place src ((d :: r).dropWhile (!endsName ·))) ts)) := by
  have hadvance : (place src ('<' :: d :: r)).advance 1 = some (place src (d :: r)) :=
    advance_place (u := ['<']) h
  rw [opening, hadvance, Option.bind_some,
    takeUntil_place endsName ((List.suffix_cons '<' _).trans h)]
  rfl

end Cursor

/-- The step takes at least one character. -/
def State.Takes (s s' : State) : Prop := ∃ c u, s.cursor.rest = c :: (u ++ s'.cursor.rest)

theorem State.takes_of_suffix {s s' : State} {c : Char} {cs : List Char}
    (hs : s.cursor.rest = c :: cs) (h : s'.cursor.rest <:+ cs) : s.Takes s' := by
  obtain ⟨u, hu⟩ := h
  exact ⟨c, u, by rw [hs, hu]⟩

/-- What the rest of an opening tag and of the source give. -/
def element (tag : String) (as : List Attribute) :
    Except Fault (List Attribute × Bool × List Char) → Except Fault (List Token)
  | .ok t => (scan t.2.2).map (prepend (some (.opening tag (as ++ t.1) t.2.1)))
  | .error e => .error e

/-- The states of a source, each with the answer that the readers give from there. -/
inductive Awaits (src : List Char) : State → Except TokenError (List Token) → Prop
  | outside {cs : List Char} (ts : List Token) (h : cs <:+ src) :
    Awaits src (.outside (place src cs) ts) (conclude src ts (scan cs))
  | inside (start : List Char) {cs : List Char} (tag : String) (as : List Attribute)
    (ts : List Token) (h : cs <:+ src) :
    Awaits src (.inside (offset src start) tag as (place src cs) ts)
      (conclude src ts (element tag as (tagRest start cs)))

inductive Proceeds (src : List Char) (s : State) (answer : Except TokenError (List Token)) : Prop
  | goes (s' : State) (hs : s.step = some (.goes s')) (ht : s.Takes s')
    (ha : Awaits src s' answer)
  | ends (hs : s.step = some (.ends answer))

theorem proceeds_of_next {src cs : List Char} {c : Char} {ts : List Token} (h : c :: cs <:+ src)
    (hs : (place src (c :: cs)).construct ts = some (outcomeOf src ts (next c cs))) :
    Proceeds src (.outside (place src (c :: cs)) ts) (conclude src ts (scan (c :: cs))) := by
  cases hn : next c cs with
  | error e =>
    rw [hn] at hs
    rw [scan_fault hn]
    exact .ends hs
  | ok r =>
    obtain ⟨t, rest⟩ := r
    rw [hn] at hs
    have hrest := suffix_next hn
    rw [scan_next hn, conclude_add]
    exact .goes _ hs (State.takes_of_suffix rfl hrest)
      (.outside _ (hrest.trans ((List.suffix_cons c cs).trans h)))

theorem scan_opening {c d : Char} {cs r : List Char}
    (hn : next c cs = openingTag (c :: cs) (d :: r)) :
    scan (c :: cs) = element (String.ofList ((d :: r).takeWhile (!endsName ·))) []
      (tagRest (c :: cs) ((d :: r).dropWhile (!endsName ·))) := by
  rw [openingTag] at hn
  split at hn
  · rename_i as b rest hrest
    rw [hrest, scan_next hn]
    rfl
  · rename_i e he
    rw [he, scan_fault hn]
    rfl

theorem proceeds_outside {src cs : List Char} (ts : List Token) (h : cs <:+ src) :
    Proceeds src (.outside (place src cs) ts) (conclude src ts (scan cs)) := by
  cases cs with
  | nil =>
    rw [scan]
    exact .ends rfl
  | cons c cs =>
    have hconstruct := construct_kindOf c cs
    have hrest : (place src (c :: cs)).rest = c :: cs := rfl
    have hstep := Cursor.construct.eq_def (place src (c :: cs)) ts
    rw [hrest] at hstep
    generalize kindOf (c :: cs) = kind at hconstruct hstep
    cases hconstruct with
    | comment r hcs hn =>
      refine proceeds_of_next h (hstep.trans ?_)
      rw [hn, hcs]
      exact Cursor.comment_place (hcs ▸ h) ts
    | declaration m r hcs hm hn =>
      refine proceeds_of_next h (hstep.trans ?_)
      rw [hn, hcs]
      exact Cursor.declaration_place hm (hcs ▸ h) ts
    | closing r hcs hn =>
      refine proceeds_of_next h (hstep.trans ?_)
      rw [hn, hcs]
      exact Cursor.closing_place (hcs ▸ h) ts
    | text hn =>
      refine proceeds_of_next h (hstep.trans ?_)
      rw [hn]
      exact Cursor.text_place h ts
    | opening d r hcs hd hn =>
      rw [scan_opening hn]
      cases hcs
      have hrest : (d :: r).dropWhile (!endsName ·) <:+ d :: r := List.dropWhile_suffix _
      refine .goes _ (hstep.trans (Cursor.opening_place h ts)) ?_
        (.inside _ _ _ _ (hrest.trans ((List.suffix_cons '<' _).trans h)))
      exact State.takes_of_suffix rfl hrest

theorem length_lt_of_takes {s s' : State} (h : s.Takes s') :
    s'.cursor.rest.length < s.cursor.rest.length := by
  obtain ⟨c, u, hrest⟩ := h
  rw [hrest, List.length_cons, List.length_append]
  omega

theorem Cursor.within_attribute {d : Char} {r : List Char} {c : Cursor} (hc : c.rest = d :: r)
    (hgt : d ≠ '>') (hslash : ¬(d = '/' ∧ r.head? = some '>')) (start : Nat) (tag : String)
    (as : List Attribute) (ts : List Token) :
    c.within start tag as ts = c.readAttribute.bind (c.resume start tag as ts d) := by
  unfold within
  split
  · rename_i h
    cases hc.symm.trans h
  · rename_i h
    cases hc.symm.trans h
    exact absurd ⟨rfl, rfl⟩ hslash
  · rename_i h
    cases hc.symm.trans h
    exact absurd rfl hgt
  · rename_i h
    cases hc.symm.trans h
    rfl

theorem element_attribute (tag : String) (as : List Attribute) (a : Attribute)
    (r : Except Fault (List Attribute × Bool × List Char)) :
    element tag as (r.map fun t => (a :: t.1, t.2)) = element tag (as ++ [a]) r := by
  cases r with
  | error e => rfl
  | ok t => simp [element, Except.map]

theorem ne_of_endsName {d : Char} (hd : endsName d = false) : d ≠ '>' ∧ d ≠ '/' := by
  constructor <;> rintro rfl <;> cases hd

theorem proceeds_inside {src cs : List Char} (start : List Char) (tag : String)
    (as : List Attribute) (ts : List Token) (h : cs <:+ src) :
    Proceeds src (.inside (offset src start) tag as (place src cs) ts)
      (conclude src ts (element tag as (tagRest start cs))) := by
  have hstep : (State.inside (offset src start) tag as (place src cs) ts).step =
      (place src (trimStart cs)).within (offset src start) tag as ts := by
    rw [State.step, Cursor.skipBlanks_place h, Option.bind_some]
  have htrim := trimStart_suffix cs
  -- what a step takes, from what is left of the text without its leading blanks
  have htakes : ∀ {d : Char} {r : List Char} {s' : State}, trimStart cs = d :: r →
      s'.cursor.rest <:+ r →
      (State.inside (offset src start) tag as (place src cs) ts).Takes s' := by
    intro d r s' hcs hs'
    have hlt : s'.cursor.rest.length < cs.length := by
      have hlen := length_trimStart_le cs
      rw [hcs, List.length_cons] at hlen
      exact Nat.lt_of_le_of_lt hs'.length_le hlen
    obtain ⟨u, hu⟩ := hs'.trans (suffix_of_trimStart hcs)
    cases u with
    | nil => exact absurd (congrArg List.length hu) (Nat.ne_of_lt hlt)
    | cons x u => exact ⟨x, u, hu.symm⟩
  cases tagStep start cs with
  | unended hcs ht =>
    rw [hcs] at hstep
    rw [ht]
    exact .ends hstep
  | ended b r hcs ht =>
    have hsrc : tagEnd b ++ r <:+ src := hcs ▸ htrim.trans h
    have hr : r <:+ src := (List.suffix_append _ _).trans hsrc
    have hadvance := Cursor.advance_place hsrc
    rw [hcs] at hstep
    have hanswer : conclude src ts (element tag as (tagRest start cs)) =
        conclude src (push ts (.opening tag as b)) (scan r) := by
      rw [ht, ← conclude_prepend]
      simp [element]
    rw [hanswer]
    cases b with
    | false =>
      refine .goes _ (hstep.trans (congrArg (Option.map _) hadvance)) ?_ (.outside _ hr)
      exact htakes hcs (List.suffix_refl r)
    | true =>
      refine .goes _ (hstep.trans (congrArg (Option.map _) hadvance)) ?_ (.outside _ hr)
      exact htakes hcs (List.suffix_cons _ r)
  | stray d r hcs hd hgt hslash ht =>
    have hsrc : d :: r <:+ src := hcs ▸ htrim.trans h
    have hadvance : (place src (d :: r)).advance d.utf8Size = some (place src r) :=
      Cursor.advance_place (u := [d]) hsrc
    rw [hcs, Cursor.within_attribute rfl hgt hslash, Cursor.readAttribute_none hd hsrc,
      Option.bind_some, Cursor.resume, hadvance] at hstep
    rw [ht]
    refine .goes _ hstep ?_ (.inside start tag as ts ((List.suffix_cons d r).trans hsrc))
    exact htakes hcs (List.suffix_refl r)
  | faulty d r e hcs hd ha ht =>
    have hsrc : d :: r <:+ src := hcs ▸ htrim.trans h
    obtain ⟨hgt, hslash⟩ := ne_of_endsName hd
    rw [hcs, Cursor.within_attribute rfl hgt fun hh => hslash hh.1,
      Cursor.readAttribute_place hd hsrc, ha] at hstep
    rw [ht]
    exact .ends hstep
  | named d r a rest hcs hd ha ht =>
    have hsrc : d :: r <:+ src := hcs ▸ htrim.trans h
    obtain ⟨hgt, hslash⟩ := ne_of_endsName hd
    have hrest : rest <:+ r := (suffix_attributeAfter ha).trans (List.dropWhile_suffix _)
    rw [hcs, Cursor.within_attribute rfl hgt fun hh => hslash hh.1,
      Cursor.readAttribute_place hd hsrc, ha] at hstep
    rw [ht, element_attribute]
    refine .goes _ hstep ?_
      (.inside start tag _ ts (hrest.trans ((List.suffix_cons d r).trans hsrc)))
    exact htakes hcs hrest

/-- One step: it is there, it takes a character unless it is the last, and keeps the answer. -/
theorem Awaits.proceeds {src : List Char} {s : State} {answer : Except TokenError (List Token)}
    (h : Awaits src s answer) : Proceeds src s answer := by
  cases h with
  | outside ts h => exact proceeds_outside ts h
  | inside start tag as ts h => exact proceeds_inside start tag as ts h

/-! ## Runs -/

theorem Awaits.at_cursor {source : String} {s : State} {answer : Except TokenError (List Token)}
    (h : Awaits source.toList s answer) : s.cursor.At source := by
  cases h with
  | outside ts h => exact Cursor.at_place h
  | inside start tag as ts h => exact Cursor.at_place h

theorem Awaits.run_eq {src : List Char} {s : State} {answer : Except TokenError (List Token)}
    (h : Awaits src s answer) {n : Nat} (hn : s.cursor.rest.length < n) :
    run n s = some answer := by
  induction n generalizing s with
  | zero => exact absurd hn (Nat.not_lt_zero _)
  | succ n ih =>
    cases h.proceeds with
    | goes s' hs ht ha =>
      rw [run, hs]
      exact ih ha (Nat.lt_of_lt_of_le (length_lt_of_takes ht) (Nat.le_of_lt_succ hn))
    | ends hs => rw [run, hs]

theorem awaits_begin (source : String) :
    Awaits source.toList (.begin source) (readAll source) := by
  have hplace : (⟨source.toList, 0⟩ : Cursor) = place source.toList source.toList := by
    simp [place, offset]
  have hanswer : readAll source = conclude source.toList [] (scan source.toList) := by
    rw [readAll]
    cases scan source.toList with
    | ok ts => exact congrArg Except.ok (join_nil ts).symm
    | error e => rfl
  rw [State.begin, hplace, hanswer]
  exact .outside [] (List.suffix_refl _)

theorem Reaches.awaits {source : String} {s : State} (h : Reaches source s) :
    Awaits source.toList s (readAll source) := by
  induction h with
  | begin => exact awaits_begin source
  | step _ hs ih =>
    cases ih.proceeds with
    | goes s' hs' _ ha =>
      cases hs.symm.trans hs'
      exact ha
    | ends hs' => cases hs.symm.trans hs'

/-- At every state reached, what is left is what follows the bytes counted; and going on by any
number of bytes at which the text can be cut keeps it so. Each state has a step, so that no cut
fails; a step that does not end the run takes a character at least. The run ends after as many
steps as there are characters and one more at most, with the tokens of the source. -/
theorem cursor_progress (source : String) :
    (∀ s, Reaches source s → s.cursor.At source ∧ ∃ o, s.step = some o ∧
      ∀ s', o = .goes s' → s.Takes s') ∧
    (∀ (c c' : Cursor) (n : Nat), c.At source → c.advance n = some c' → c'.At source) ∧
    run (source.length + 1) (.begin source) = some (readAll source) := by
  refine ⟨fun s hs => ?_, fun c c' n hc => hc.advance, ?_⟩
  · have hawaits := hs.awaits
    refine ⟨hawaits.at_cursor, ?_⟩
    cases hawaits.proceeds with
    | goes s' hs' ht _ =>
      refine ⟨_, hs', fun s'' h => ?_⟩
      cases h
      exact ht
    | ends hs' => exact ⟨_, hs', fun s'' h => by cases h⟩
  · refine (awaits_begin source).run_eq ?_
    rw [← String.length_toList]
    exact Nat.lt_succ_self _

theorem cursor_progress_attribute :
    ∃ s, Reaches "<a b=é>x" s ∧ s = .inside 0 "a" [⟨"b", "é"⟩] ⟨['>', 'x'], 7⟩ [] ∧
      s.cursor.At "<a b=é>x" ∧ ∃ o, s.step = some o ∧ ∀ s', o = .goes s' → s.Takes s' := by
  have hname : Reaches "<a b=é>x" (.inside 0 "a" [] ⟨" b=é>x".toList, 2⟩ []) :=
    .step .begin (by with_unfolding_all rfl)
  have hvalue : Reaches "<a b=é>x" (.inside 0 "a" [⟨"b", "é"⟩] ⟨['>', 'x'], 7⟩ []) :=
    .step hname (by with_unfolding_all rfl)
  exact ⟨_, hvalue, rfl, (cursor_progress "<a b=é>x").1 _ hvalue⟩

end Stencil.Markup.Token

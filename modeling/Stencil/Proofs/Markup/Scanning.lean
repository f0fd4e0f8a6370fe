import Stencil.Markup.Token.Scan
import Stencil.Proofs.Markup.Escaping
import Stencil.Proofs.Text.Trimming

/-! Scanning what was written as markup. A token can be written in many ways: with more or
less white space inside its tag, with quotes of either kind, with or without an empty value.
Each of them gives the token back, whatever follows, as long as its names have no character
at which a name stops. -/
namespace Stencil.Markup
open Text

/-- The text can be read back as the name of an attribute. -/
def isName (s : String) : Bool := s != "" && s.toList.all (!Token.endsName ·)

/-- The text can be read back as a tag: it begins with a letter. -/
def isTag (s : String) : Bool := s.toList.head?.any Char.isAlpha && isName s

theorem exists_of_isName {s : String} (h : isName s = true) :
    ∃ c cs, s.toList = c :: cs ∧ ∀ x ∈ c :: cs, Token.endsName x = false := by
  rw [isName, Bool.and_eq_true, bne_iff_ne, List.all_eq_true] at h
  obtain ⟨hne, hall⟩ := h
  cases hs : s.toList with
  | nil => exact absurd (by simpa using hs) hne
  | cons c cs =>
    refine ⟨c, cs, rfl, fun x hx => ?_⟩
    simpa using hall x (hs ▸ hx)

theorem exists_of_isTag {s : String} (h : isTag s = true) :
    ∃ c cs, s.toList = c :: cs ∧ c.isAlpha = true ∧ ∀ x ∈ c :: cs, Token.endsName x = false := by
  rw [isTag, Bool.and_eq_true] at h
  obtain ⟨c, cs, hs, hall⟩ := exists_of_isName h.2
  rw [hs] at h
  exact ⟨c, cs, hs, h.1, hall⟩

/-! ## Layout -/

/-- How an attribute may be written in a tag. -/
inductive Attribute.Written (a : Attribute) : List Char → Prop
  | quoted {w : List Char} {q : Char} (hw : Blanks w) (hne : w ≠ []) (hq : q = '"' ∨ q = '\'') :
    Attribute.Written a (w ++ (a.name.toList ++
      '=' :: q :: (a.value.toList.flatMap (Entity.spell ['&', '<', q]) ++ [q])))
  | bare {w : List Char} (hw : Blanks w) (hne : w ≠ []) (hv : a.value = "") :
    Attribute.Written a (w ++ a.name.toList)

inductive Attribute.AllWritten : List Attribute → List Char → Prop
  | nil : AllWritten [] []
  | cons {a : Attribute} {as : List Attribute} {u v : List Char} (ha : a.Written u)
    (has : AllWritten as v) : AllWritten (a :: as) (u ++ v)

namespace Token

/-- The end of an opening tag. -/
def tagEnd (selfClosing : Bool) : List Char := if selfClosing then ['/', '>'] else ['>']

/-- How a token may be written. -/
inductive Written : Token → List Char → Prop
  | text (s : String) : Written (.text s) (s.toList.flatMap (Entity.spell ['&', '<', '>']))
  | opening (tag : String) {as : List Attribute} (selfClosing : Bool) {u w : List Char}
    (has : Attribute.AllWritten as u) (hw : Blanks w) :
    Written (.opening tag as selfClosing)
      ('<' :: (tag.toList ++ (u ++ (w ++ tagEnd selfClosing))))
  | closing (tag : String) {w w' : List Char} (hw : Blanks w) (hw' : Blanks w') :
    Written (.closing tag) ('<' :: '/' :: (w ++ (tag.toList ++ (w' ++ ['>']))))

/-- The token has names that can be read back, and no empty text. -/
def Legible : Token → Prop
  | .text s => s ≠ ""
  | .opening tag as _ => isTag tag = true ∧ ∀ a ∈ as, isName a.name = true
  | .closing tag => tag ≠ "" ∧ '>' ∉ tag.toList ∧ trim tag.toList = tag.toList

/-! ## Runs of characters -/

theorem takeWhile_dropWhile {p : Char → Bool} {u : List Char} (hu : ∀ c ∈ u, p c = true) {c : Char}
    (hc : p c = false) (rest : List Char) :
    (u ++ c :: rest).takeWhile p = u ∧ (u ++ c :: rest).dropWhile p = c :: rest := by
  rw [List.takeWhile_append_of_pos hu, List.dropWhile_append_of_pos hu]
  simp [hc]

theorem not_mem_takeWhile (c : Char) (cs : List Char) : c ∉ cs.takeWhile (· != c) := by
  intro h
  have hall := List.all_eq_true.mp (List.all_takeWhile (l := cs) (p := (· != c)))
  simpa using hall c h

theorem gt_not_mem_blanks {w : List Char} (hw : Blanks w) : '>' ∉ w := fun h =>
  absurd (hw _ h) (by decide)

theorem not_isBlank_of_endsName {c : Char} (h : endsName c = false) : isBlank c = false := by
  simp only [endsName, Bool.or_eq_false_iff] at h
  exact h.1.1.1

theorem endsName_of_isBlank {c : Char} (h : isBlank c = true) : endsName c = true := by
  simp [endsName, h]

/-! ## Tags -/

theorem attributeAfter_quoted {q : Char} (hq : q = '"' ∨ q = '\'') (name value rest : List Char) :
    attributeAfter name ('=' :: q :: (value.flatMap (Entity.spell ['&', '<', q]) ++ q :: rest)) =
      .ok (⟨String.ofList name, String.ofList value⟩, rest) := by
  have hnot : ∀ c ∈ value.flatMap (Entity.spell ['&', '<', q]), (c != q) = true := fun c hc =>
    bne_iff_ne.mpr fun h =>
      Entity.not_mem_spell List.mem_cons_self (by simp) (by simp [hq]) value (h ▸ hc)
  obtain ⟨htake, hdrop⟩ := takeWhile_dropWhile hnot (c := q) (by simp) rest
  have hvalue : attributeValue (q :: (value.flatMap (Entity.spell ['&', '<', q]) ++ q :: rest)) =
      .ok (value.flatMap (Entity.spell ['&', '<', q]), rest) := by
    rcases hq with rfl | rfl <;> rw [attributeValue, quotedValue, hdrop, htake]
  have hblank : isBlank q = false := by
    rcases hq with rfl | rfl <;> decide
  rw [attributeAfter, trimStart_cons (by decide)]
  simp only [trimStart_cons hblank, hvalue, Entity.decode_spell List.mem_cons_self]

theorem attributeValue_bare {cs : List Char} (hdouble : ∀ r, cs ≠ '"' :: r)
    (hsingle : ∀ r, cs ≠ '\'' :: r) :
    attributeValue cs = .ok (bareValue cs, cs.drop (bareValue cs).length) := by
  unfold attributeValue
  split
  · exact absurd rfl (hdouble _)
  · exact absurd rfl (hsingle _)
  · rfl

theorem attributeAfter_equals {r r' : List Char} (h : trimStart r = '=' :: r') (name : List Char) :
    attributeAfter name r = (attributeValue (trimStart r')).map fun v =>
      (⟨String.ofList name, String.ofList (Entity.decode v.1)⟩, v.2) := by
  simp only [attributeAfter, h]
  cases attributeValue (trimStart r') <;> rfl

theorem attributeAfter_bare {r : List Char} (hr : ∀ r', trimStart r ≠ '=' :: r')
    (name : List Char) : attributeAfter name r = .ok (⟨String.ofList name, ""⟩, r) := by
  unfold attributeAfter
  split
  · exact absurd ‹_› (hr _)
  · rfl

/-- A name is read as an attribute, with what follows it. -/
theorem tagRest_attribute {start cs : List Char} {c : Char} {r rest rest' : List Char}
    {a : Attribute} {as : List Attribute} {b : Bool} (hcs : trimStart cs = c :: r)
    (hc : endsName c = false)
    (ha : attributeAfter (c :: r.takeWhile (!endsName ·)) (r.dropWhile (!endsName ·)) =
      .ok (a, rest))
    (has : tagRest start rest = .ok (as, b, rest')) :
    tagRest start cs = .ok (a :: as, b, rest') := by
  have hgt : c ≠ '>' := fun h => absurd (h ▸ hc) (by decide)
  have hslash : c ≠ '/' := fun h => absurd (h ▸ hc) (by decide)
  rw [tagRest]
  split
  · rename_i hnil
    cases hnil.symm.trans hcs
  · rename_i hcons
    cases hcons.symm.trans hcs
    rw [if_neg hgt, if_neg fun h => hslash h.1, if_neg (by rw [hc]; exact Bool.false_ne_true)]
    split
    · rename_i herr
      cases herr.symm.trans ha
    · rename_i hok
      cases hok.symm.trans ha
      rw [has]

/-- The end of a tag is read behind white space. -/
theorem tagRest_end {w : List Char} (hw : Blanks w) (b : Bool) (start rest : List Char) :
    tagRest start (w ++ (tagEnd b ++ rest)) = .ok ([], b, rest) := by
  have htrim : trimStart (w ++ (tagEnd b ++ rest)) = tagEnd b ++ rest := by
    rw [trimStart_append hw]
    cases b <;> exact trimStart_cons (by decide) _
  rw [tagRest, htrim]
  cases b <;> simp [tagEnd]

/-- A name behind white space is read up to where it stops. -/
theorem tagRest_name {name : String} (hname : isName name = true) {w : List Char} (hw : Blanks w)
    {start tail rest rest' : List Char} {a : Attribute} {as : List Attribute} {b : Bool}
    (htail : ∃ c r, tail = c :: r ∧ endsName c = true)
    (ha : attributeAfter name.toList tail = .ok (a, rest))
    (has : tagRest start rest = .ok (as, b, rest')) :
    tagRest start (w ++ (name.toList ++ tail)) = .ok (a :: as, b, rest') := by
  obtain ⟨c, cs, hcs, hends⟩ := exists_of_isName hname
  obtain ⟨x, r, rfl, hx⟩ := htail
  have hends' : ∀ y ∈ cs, (!endsName y) = true := fun y hy => by
    simp [hends y (List.mem_cons_of_mem _ hy)]
  obtain ⟨htake, hdrop⟩ := takeWhile_dropWhile hends' (c := x) (by simp [hx]) r
  have hblank := not_isBlank_of_endsName (hends c List.mem_cons_self)
  rw [hcs] at ha ⊢
  refine tagRest_attribute (c := c) (r := cs ++ x :: r) ?_ (hends c List.mem_cons_self) ?_ has
  · rw [trimStart_append hw]
    exact trimStart_cons hblank _
  · rw [htake, hdrop]
    exact ha

theorem exists_name_of_written {a : Attribute} {u : List Char} (ha : a.Written u) :
    ∃ c w v, isBlank c = true ∧ Blanks w ∧ u = c :: (w ++ (a.name.toList ++ v)) := by
  have hcons : ∀ {w : List Char}, Blanks w → w ≠ [] →
      ∃ c w', w = c :: w' ∧ isBlank c = true ∧ Blanks w' := by
    intro w hw hne
    cases w with
    | nil => exact absurd rfl hne
    | cons c w => exact ⟨c, w, rfl, hw c List.mem_cons_self, fun x hx => hw x (.tail _ hx)⟩
  cases ha with
  | quoted hw hne hq =>
    obtain ⟨c, w', rfl, hc, hw'⟩ := hcons hw hne
    exact ⟨c, w', _, hc, hw', rfl⟩
  | bare hw hne hv =>
    obtain ⟨c, w', rfl, hc, hw'⟩ := hcons hw hne
    exact ⟨c, w', [], hc, hw', by simp⟩

/-- A name stops where the rest of its tag begins, and no value is looked for there. -/
theorem stops {as : List Attribute} {u : List Char} (has : Attribute.AllWritten as u)
    (hnames : ∀ a ∈ as, isName a.name = true) {w : List Char} (hw : Blanks w) (b : Bool)
    (rest : List Char) :
    (∃ c r, u ++ (w ++ (tagEnd b ++ rest)) = c :: r ∧ endsName c = true) ∧
      ∀ r, trimStart (u ++ (w ++ (tagEnd b ++ rest))) ≠ '=' :: r := by
  cases has with
  | nil =>
    rw [List.nil_append, trimStart_append hw]
    constructor
    · cases w with
      | nil => cases b <;> exact ⟨_, _, rfl, by decide⟩
      | cons c w => exact ⟨c, _, rfl, endsName_of_isBlank (hw c List.mem_cons_self)⟩
    · intro r h
      cases b <;> simp [tagEnd, trimStart_cons (show isBlank '>' = false by decide),
        trimStart_cons (show isBlank '/' = false by decide)] at h
  | @cons a as u v ha has =>
    obtain ⟨c, w', t, hc, hw', rfl⟩ := exists_name_of_written ha
    obtain ⟨d, ds, hds, hends⟩ := exists_of_isName (hnames a List.mem_cons_self)
    have hd := hends d List.mem_cons_self
    refine ⟨⟨c, _, rfl, endsName_of_isBlank hc⟩, fun r h => ?_⟩
    have hspace : Blanks (c :: w') := List.forall_mem_cons.mpr ⟨hc, hw'⟩
    rw [← List.cons_append, List.append_assoc, List.append_assoc, trimStart_append hspace, hds,
      List.append_assoc, List.cons_append, trimStart_cons (not_isBlank_of_endsName hd)] at h
    cases h
    revert hd
    decide

/-- Attributes are read back in any layout, up to the end of their tag. -/
theorem tagRest_written {as : List Attribute} {u : List Char} (has : Attribute.AllWritten as u)
    (hnames : ∀ a ∈ as, isName a.name = true) {w : List Char} (hw : Blanks w) (b : Bool)
    (start rest : List Char) :
    tagRest start (u ++ (w ++ (tagEnd b ++ rest))) = .ok (as, b, rest) := by
  induction has with
  | nil => exact tagRest_end hw b start rest
  | @cons a as u v ha has ih =>
    have hname := hnames a List.mem_cons_self
    have hnames' : ∀ a ∈ as, isName a.name = true := fun a' ha' => hnames a' (.tail _ ha')
    have htail := ih hnames'
    rw [List.append_assoc]
    cases ha with
    | quoted hwa hne hq =>
      have hafter := attributeAfter_quoted hq a.name.toList a.value.toList
        (v ++ (w ++ (tagEnd b ++ rest)))
      have hread := tagRest_name hname hwa ⟨'=', _, rfl, by decide⟩ hafter htail
      simpa using hread
    | bare hwa hne hv =>
      obtain ⟨hstop, hequals⟩ := stops has hnames' hw b rest
      have hread := tagRest_name hname hwa hstop (attributeAfter_bare hequals _) htail
      rw [List.append_assoc, hread, ← hv, String.ofList_toList]

/-! ## Constructs -/

/-- The constructs that can be read, by what they begin with. -/
theorem next_cases (c : Char) (cs : List Char) :
    (∃ r, c :: cs = '<' :: '!' :: '-' :: '-' :: r ∧
      next c cs = skipPast .unterminatedComment (c :: cs) ['-', '-', '>'] r) ∨
    (∃ m r, c :: cs = '<' :: m :: r ∧ (m = '?' ∨ m = '!') ∧
      next c cs = skipPast .unterminatedTag (c :: cs) ['>'] r) ∨
    (∃ r, c :: cs = '<' :: '/' :: r ∧ next c cs = closingTag (c :: cs) r) ∨
    (∃ d r, c :: cs = '<' :: d :: r ∧ d.isAlpha = true ∧
      next c cs = openingTag (c :: cs) (d :: r)) ∨
    next c cs = textRun c cs := by
  unfold next
  dsimp only
  split
  · rename_i hc
    subst hc
    split
    · exact .inl ⟨_, rfl, rfl⟩
    · exact .inr (.inl ⟨_, _, rfl, .inr rfl, rfl⟩)
    · exact .inr (.inl ⟨_, _, rfl, .inl rfl, rfl⟩)
    · exact .inr (.inr (.inl ⟨_, rfl, rfl⟩))
    · split
      · exact .inr (.inr (.inr (.inl ⟨_, _, rfl, ‹_›, rfl⟩)))
      · exact .inr (.inr (.inr (.inr rfl)))
    · exact .inr (.inr (.inr (.inr rfl)))
  · exact .inr (.inr (.inr (.inr rfl)))

theorem next_opening {d : Char} (hd : d.isAlpha = true) (cs : List Char) :
    next '<' (d :: cs) = openingTag ('<' :: d :: cs) (d :: cs) := by
  unfold next
  rw [if_pos rfl]
  split <;> rename_i h <;> cases h
  · cases hd
  · cases hd
  · cases hd
  · cases hd
  · exact if_pos hd

theorem next_tag {tag : String} (htag : isTag tag = true) {as : List Attribute}
    (hnames : ∀ a ∈ as, isName a.name = true) {u : List Char} (has : Attribute.AllWritten as u)
    {w : List Char} (hw : Blanks w) (b : Bool) (rest : List Char) :
    next '<' (tag.toList ++ (u ++ (w ++ (tagEnd b ++ rest)))) =
      .ok (some (.opening tag as b), rest) := by
  obtain ⟨d, ds, hds, hd, hends⟩ := exists_of_isTag htag
  have hname : ∀ x ∈ tag.toList, (!endsName x) = true := fun x hx => by simp [hends x (hds ▸ hx)]
  obtain ⟨⟨c, r, hr, hc⟩, _⟩ := stops has hnames hw b rest
  obtain ⟨htake, hdrop⟩ := takeWhile_dropWhile hname (c := c) (by simp [hc]) r
  rw [← hr] at htake hdrop
  rw [hds, List.cons_append, next_opening hd, openingTag, ← List.cons_append, ← hds, htake, hdrop,
    tagRest_written has hnames hw]
  simp

theorem next_closing {tag : String} (htag : (Token.closing tag).Legible) {w w' : List Char}
    (hw : Blanks w) (hw' : Blanks w') (rest : List Char) :
    next '<' ('/' :: (w ++ (tag.toList ++ (w' ++ '>' :: rest)))) =
      .ok (some (.closing tag), rest) := by
  obtain ⟨hne, hgt, htrim⟩ := htag
  have hne : tag.toList ≠ [] := by simpa using hne
  have hall : ∀ x ∈ w ++ (tag.toList ++ w'), (x != '>') = true := fun x hx => by
    simp only [List.mem_append] at hx
    refine bne_iff_ne.mpr fun h => ?_
    rcases hx with hx | hx | hx
    · exact gt_not_mem_blanks hw (h ▸ hx)
    · exact hgt (h ▸ hx)
    · exact gt_not_mem_blanks hw' (h ▸ hx)
  obtain ⟨htake, hdrop⟩ := takeWhile_dropWhile hall (c := '>') (by decide) rest
  have happ : w ++ (tag.toList ++ (w' ++ '>' :: rest)) =
      (w ++ (tag.toList ++ w')) ++ '>' :: rest := by
    simp
  have hclosing : ∀ start, closingTag start (w ++ (tag.toList ++ (w' ++ '>' :: rest))) =
      .ok (some (.closing tag), rest) := by
    intro start
    rw [happ, closingTag, hdrop]
    simp only [htake, trim_append hw hw' hne htrim, if_neg hne, String.ofList_toList]
  exact hclosing _

/-- A text is read up to the next tag, comment or declaration, or to the end. -/
theorem next_text {s : String} {c : Char} {cs : List Char}
    (hs : s.toList.flatMap (Entity.spell ['&', '<', '>']) = c :: cs) {rest : List Char}
    (hrest : ∀ x ∈ rest.head?, x = '<') :
    next c (cs ++ rest) = .ok (some (.text s), rest) := by
  have hlt : ∀ x ∈ c :: cs, x ≠ '<' := fun x hx h =>
    Entity.not_mem_spell List.mem_cons_self (by simp) (.inl rfl) s.toList (hs ▸ h ▸ hx)
  have hcs : ∀ x ∈ cs, (x != '<') = true := fun x hx =>
    bne_iff_ne.mpr (hlt x (List.mem_cons_of_mem _ hx))
  have hrun : (cs ++ rest).takeWhile (· != '<') = cs ∧
      (cs ++ rest).dropWhile (· != '<') = rest := by
    rw [List.takeWhile_append_of_pos hcs, List.dropWhile_append_of_pos hcs]
    cases rest with
    | nil => simp
    | cons x rest => simp [hrest x rfl]
  unfold next
  rw [if_neg (hlt c List.mem_cons_self), textRun, hrun.1, hrun.2, ← hs,
    Entity.decode_spell List.mem_cons_self, String.ofList_toList]

/-! ## Sources -/

theorem scan_next {c : Char} {cs rest : List Char} {t : Option Token}
    (hn : next c cs = .ok (t, rest)) : scan (c :: cs) = (scan rest).map (prepend t) := by
  rw [scan]
  split
  · rename_i herr
    cases herr.symm.trans hn
  · rename_i hok
    cases hok.symm.trans hn
    cases scan rest <;> rfl

theorem scan_fault {c : Char} {cs : List Char} {e : Fault} (hn : next c cs = .error e) :
    scan (c :: cs) = .error e := by
  rw [scan]
  split
  · rename_i herr
    cases herr.symm.trans hn
    rfl
  · rename_i hok
    cases hok.symm.trans hn

theorem scan_cons {c : Char} {cs rest : List Char} {t : Option Token} {ts : List Token}
    (hn : next c cs = .ok (t, rest)) (hs : scan rest = .ok ts) :
    scan (c :: cs) = .ok (prepend t ts) := by
  rw [scan_next hn, hs]
  rfl

def isText : Token → Bool
  | .text _ => true
  | _ => false

/-- No text comes first, to which a text before could be joined. -/
def Fresh (ts : List Token) : Prop := ts.head?.any isText = false

theorem prepend_of_fresh {t : Token} {ts : List Token} (h : t.isText = true → Fresh ts) :
    prepend (some t) ts = t :: ts := by
  cases t with
  | opening | closing => rfl
  | text s =>
    cases ts with
    | nil => rfl
    | cons t ts =>
      cases t with
      | text => cases h rfl
      | opening | closing => rfl

theorem flatMap_spell_ne_nil {marked : List Char} (hamp : '&' ∈ marked) {cs : List Char}
    (h : cs ≠ []) : cs.flatMap (Entity.spell marked) ≠ [] := by
  intro hnil
  apply h
  rw [← Entity.decode_spell hamp cs, hnil]
  rfl

/-- A token that was written is read back, and joined to nothing. -/
theorem scan_written {t : Token} (ht : t.Legible) {u : List Char} (hu : t.Written u)
    {rest : List Char} {ts : List Token} (hrest : scan rest = .ok ts)
    (hfresh : t.isText = true → Fresh ts ∧ ∀ x ∈ rest.head?, x = '<') :
    scan (u ++ rest) = .ok (t :: ts) := by
  have hone : ∃ c cs, u = c :: cs ∧ next c (cs ++ rest) = .ok (some t, rest) := by
    cases hu with
    | text s =>
      have hne : s.toList ≠ [] := by simpa [Legible] using ht
      have hspell : s.toList.flatMap (Entity.spell ['&', '<', '>']) ≠ [] :=
        flatMap_spell_ne_nil List.mem_cons_self hne
      obtain ⟨c, cs, hcs⟩ := List.exists_cons_of_ne_nil hspell
      exact ⟨c, cs, hcs, next_text hcs (hfresh rfl).2⟩
    | opening tag selfClosing has hw =>
      have hnext := next_tag ht.1 ht.2 has hw selfClosing rest
      exact ⟨_, _, rfl, by simpa using hnext⟩
    | closing tag hw hw' =>
      have hnext := next_closing ht hw hw' rest
      exact ⟨_, _, rfl, by simpa using hnext⟩
  obtain ⟨c, cs, rfl, hnext⟩ := hone
  rw [List.cons_append, scan_cons hnext hrest, prepend_of_fresh fun h => (hfresh h).1]

end Token
end Stencil.Markup

import Stencil.Proofs.Binding.Calls
import Stencil.Proofs.Binding.Matching
import Stencil.Proofs.Markup.Layout
import Stencil.Proofs.Template.WellFormed

/-! Segments written as text. Reading finds the segments that were written, as long as their
literals keep apart from the braces of references; and what it finds in any text is what is
left between references, with nothing empty and nothing in two parts. Braces that close with
something between them are never kept as text. -/
namespace Stencil.Binding
open Text

/-! ## Paths -/

namespace Path

theorem isBlank_of_continuesIdentifier {c : Char} (h : continuesIdentifier c = true) :
    isBlank c = false := by
  have hblank : ∀ n ∈ blankPoints, continuesIdentifier (Char.ofNat n) = false := by decide
  refine Bool.eq_false_iff.mpr fun hb => ?_
  have hc := hblank c.toNat (by simpa [isBlank] using hb)
  rw [Char.ofNat_toNat, h] at hc
  cases hc

theorem mem_join {sep c : Char} {ws : List (List Char)} (h : c ∈ join sep ws) :
    c = sep ∨ ∃ w ∈ ws, c ∈ w := by
  induction ws with
  | nil => cases h
  | cons w ws ih =>
    cases ws with
    | nil => exact .inr ⟨w, List.mem_cons_self, h⟩
    | cons v vs =>
      rw [join_cons sep w (List.cons_ne_nil v vs), List.mem_append, List.mem_cons] at h
      rcases h with h | h | h
      · exact .inr ⟨w, List.mem_cons_self, h⟩
      · exact .inl h
      · exact (ih h).imp_right fun ⟨u, hu, hc⟩ => ⟨u, List.mem_cons_of_mem _ hu, hc⟩

/-- A path is written with dots and characters of identifiers. -/
theorem mem_dotted {p : Path} {c : Char} (h : c ∈ (dotted p.segments).toList) :
    c = '.' ∨ continuesIdentifier c = true := by
  rw [dotted, String.toList_ofList] at h
  rcases mem_join h with hdot | ⟨w, hw, hc⟩
  · exact .inl hdot
  · obtain ⟨s, hs, rfl⟩ := List.mem_map.mp hw
    exact .inr (continuesIdentifier_of_mem (p.isIdentifier_of_mem s hs) hc)

theorem isBlank_of_mem_dotted {p : Path} {c : Char} (h : c ∈ (dotted p.segments).toList) :
    isBlank c = false := by
  rcases mem_dotted h with rfl | hc
  · decide
  · exact isBlank_of_continuesIdentifier hc

theorem dotted_ne_nil (p : Path) : (dotted p.segments).toList ≠ [] := by
  intro hnil
  have hsplit := split_dotted p.segments_ne_nil p.isIdentifier_of_mem
  rw [hnil] at hsplit
  -- the only part of nothing is the empty one, which is no identifier
  obtain ⟨s, ss, hss⟩ := List.exists_cons_of_ne_nil p.segments_ne_nil
  rw [hss, List.map_cons] at hsplit
  have hs := p.isIdentifier_of_mem s (hss ▸ List.mem_cons_self)
  rw [isIdentifier, ← (List.cons.inj hsplit).1] at hs
  cases hs

theorem ofSegments?_segments (p : Path) : ofSegments? p.segments = some p :=
  dif_pos ⟨p.segments_ne_nil, p.isIdentifier_of_mem⟩

/-- A path is read with any white space around it. -/
theorem read_padded {w w' : List Char} (hw : Blanks w) (hw' : Blanks w') (p : Path) :
    read (String.ofList (w ++ ((dotted p.segments).toList ++ w'))) = .ok p := by
  have hself : trim (dotted p.segments).toList = (dotted p.segments).toList :=
    Text.trim_eq_self fun c hc => isBlank_of_mem_dotted hc
  have htrim := Text.trim_append hw hw' p.dotted_ne_nil hself
  have hsegments : ((split '.' (dotted p.segments).toList).map String.ofList) = p.segments :=
    p.undotted_dotted
  simp only [read, trimmed, String.toList_ofList, htrim, hsegments, ofSegments?_segments]

theorem read_dotted (p : Path) : read (dotted p.segments) = .ok p := by
  simpa using read_padded blanks_nil blanks_nil p

/-- A path is read where it is written with dots and white space around it, and only there. -/
theorem read_eq_ok_iff (raw : String) (p : Path) : read raw = .ok p ↔
    ∃ w w', Blanks w ∧ Blanks w' ∧ raw.toList = w ++ ((dotted p.segments).toList ++ w') := by
  constructor
  · intro h
    have htext : trim raw.toList = (dotted p.segments).toList := by
      simp only [read, trimmed, String.toList_ofList] at h
      split at h
      · rename_i q hq
        cases h
        have hsegments : p.segments = (split '.' (trim raw.toList)).map String.ofList := by
          unfold ofSegments? at hq
          split at hq
          · cases hq
            rfl
          · cases hq
        rw [dotted, String.toList_ofList, hsegments, List.map_map]
        simp [Function.comp_def, join_split]
      · cases h
    rw [← htext]
    exact exists_trim raw.toList
  · rintro ⟨w, w', hw, hw', hraw⟩
    rw [← String.ofList_toList (s := raw), hraw]
    exact read_padded hw hw' p

end Path

/-! ## Writing segments -/

/-- White space within a line. -/
def IsPadding (w : List Char) : Prop := ∀ c ∈ w, isBlank c = true ∧ c ≠ '\n'

namespace Segment

def literal? : Segment → Option String
  | .literal text => some text
  | .reference _ => none

/-- The ways to write segments: literals as they are, and paths between braces with padding
on both sides. -/
inductive Spells : List Segment → List Char → Prop
  | nil : Spells [] []
  | literal {text ss cs} (h : Spells ss cs) : Spells (.literal text :: ss) (text.toList ++ cs)
  | reference {p ss cs w w'} (hw : IsPadding w) (hw' : IsPadding w') (h : Spells ss cs) :
      Spells (.reference p :: ss)
        ('\x7b' :: '\x7b' :: ((w ++ ((dotted p.segments).toList ++ w')) ++ '\x7d' :: '\x7d' :: cs))

/-- No literal is empty, follows another, has opening braces or lends one to a reference. -/
structure Separable (ss : List Segment) : Prop where
  nonempty : .literal "" ∉ ss
  alternate : Alternate (ss.map isReference)
  unopened : ∀ text, .literal text ∈ ss → ¬ ['\x7b', '\x7b'] <:+: text.toList
  apart : ∀ before text p after, ss = before ++ .literal text :: .reference p :: after →
    text.toList.getLast? ≠ some '\x7b'

theorem Separable.tail {s : Segment} {ss : List Segment} (h : Separable (s :: ss)) :
    Separable ss where
  nonempty hm := h.nonempty (List.mem_cons_of_mem _ hm)
  alternate := h.alternate.of_cons
  unopened text hm := h.unopened text (List.mem_cons_of_mem _ hm)
  apart before text p after heq := h.apart (s :: before) text p after (congrArg (s :: ·) heq)

end Segment

namespace Piece

variable {b cs rest : List Char}

theorem body?_append (hline : '\n' ∉ b) (hclose : '\x7d' ∉ b) (r : List Char) :
    body? (b ++ '\x7d' :: '\x7d' :: r) = some (b, r) := by
  induction b with
  | nil => simp [body?]
  | cons c b ih =>
    rw [List.mem_cons, not_or] at hline hclose
    rw [List.cons_append, body?, if_neg fun h => hclose.1 h.1.symm, if_neg (Ne.symm hline.1),
      ih hline.2 hclose.2]
    rfl

theorem reference?_append (hne : b ≠ []) (hline : '\n' ∉ b) (hclose : '\x7d' ∉ b) (r : List Char) :
    reference? ('\x7b' :: '\x7b' :: (b ++ '\x7d' :: '\x7d' :: r)) = some (b, r) := by
  obtain ⟨c, b, rfl⟩ := List.exists_cons_of_ne_nil hne
  rw [List.mem_cons, not_or] at hline hclose
  rw [List.cons_append, reference?, if_pos ⟨rfl, rfl, Ne.symm hline.1⟩,
    body?_append hline.2 hclose.2]
  rfl

theorem cut_nil : cut [] = [] := by
  rw [cut]
  rfl

theorem cut_of_some {r : List Char} (h : reference? cs = some (b, r)) :
    cut cs = .reference b :: cut r := by
  rw [cut]
  split
  · rename_i h'
    cases h.symm.trans h'
    rfl
  · rename_i h'
    cases h.symm.trans h'

theorem cut_of_none {c : Char} (h : reference? (c :: cs) = none) :
    cut (c :: cs) = prependChar c (cut cs) := by
  rw [cut]
  split
  · rename_i h'
    cases h.symm.trans h'
  · rfl

/-- Text in which no reference begins is one literal. -/
theorem cut_append (hnone : ∀ s, s ≠ [] → s <:+ cs → reference? (s ++ rest) = none)
    (hrest : ∀ ds qs, cut rest ≠ .literal ds :: qs) : cut (cs ++ rest) = lead cs (cut rest) := by
  induction cs with
  | nil => rfl
  | cons c cs ih =>
    have htail := ih fun s hs hsuffix => hnone s hs (hsuffix.trans (List.suffix_cons c cs))
    have hhead : reference? (c :: (cs ++ rest)) = none :=
      hnone (c :: cs) (List.cons_ne_nil c cs) List.suffix_rfl
    rw [List.cons_append, cut_of_none hhead, htail, prependChar_lead c cs hrest]

/-- Without opening braces in a text, and none made with what follows, no reference begins. -/
theorem reference?_eq_none (hopen : ¬ ['\x7b', '\x7b'] <:+: cs)
    (hlast : rest.head? = some '\x7b' → cs.getLast? ≠ some '\x7b') {s : List Char} (hs : s ≠ [])
    (hsuffix : s <:+ cs) : reference? (s ++ rest) = none := by
  refine Option.eq_none_iff_forall_ne_some.mpr fun ⟨b, r⟩ hread => ?_
  have heq := (occurs_of_reference? hread).eq
  obtain ⟨before, rfl⟩ := hsuffix
  match s, hs with
  | [c], _ =>
    obtain ⟨rfl, hrest⟩ := List.cons.inj heq
    refine hlast ?_ (by simp)
    have hrest : rest = '\x7b' :: _ := hrest
    rw [hrest]
    rfl
  | c :: d :: s, _ =>
    obtain ⟨rfl, hd⟩ := List.cons.inj heq
    obtain ⟨rfl, _⟩ := List.cons.inj hd
    exact hopen ⟨before, s, by simp⟩

end Piece

namespace Segment

variable {ss : List Segment} {cs : List Char}

/-- A written reference is cut off and read as its path. -/
theorem cut_reference {p : Path} {w w' : List Char} (hw : IsPadding w) (hw' : IsPadding w')
    (cs : List Char) :
    ∃ b, Piece.cut ('\x7b' :: '\x7b' ::
        ((w ++ ((dotted p.segments).toList ++ w')) ++ '\x7d' :: '\x7d' :: cs)) =
      .reference b :: Piece.cut cs ∧ ofPiece (.reference b) = .ok (.reference p) := by
  have hmem : ∀ c ∈ w ++ ((dotted p.segments).toList ++ w'), c ≠ '\n' ∧ c ≠ '\x7d' := by
    intro c hc
    have hpad : ∀ {v : List Char}, IsPadding v → c ∈ v → c ≠ '\n' ∧ c ≠ '\x7d' := by
      rintro v hv hc
      refine ⟨(hv c hc).2, ?_⟩
      rintro rfl
      exact absurd (hv _ hc).1 (by decide)
    rcases List.mem_append.mp hc with hc | hc
    · exact hpad hw hc
    · rcases List.mem_append.mp hc with hc | hc
      · constructor <;> rintro rfl <;> exact absurd (Path.mem_dotted hc) (by decide)
      · exact hpad hw' hc
  have hne : w ++ ((dotted p.segments).toList ++ w') ≠ [] := by
    simpa using fun _ h => absurd h (by simpa using p.dotted_ne_nil)
  have hread := Piece.reference?_append hne (fun h => (hmem _ h).1 rfl)
    (fun h => (hmem _ h).2 rfl) cs
  refine ⟨_, Piece.cut_of_some hread, ?_⟩
  have hpath := Path.read_padded (fun c hc => (hw c hc).1) (fun c hc => (hw' c hc).1) p
  rw [ofPiece, hpath]

/-- What was written is read again. -/
theorem ofPieces_cut_of_spells (h : Spells ss cs) (hs : Separable ss) :
    ofPieces (Piece.cut cs) = .ok ss := by
  induction h with
  | nil =>
    rw [Piece.cut_nil]
    rfl
  | @literal text ss cs hrest ih =>
    have hne : text.toList ≠ [] := by
      intro hnil
      obtain rfl : text = "" := by simpa using hnil
      exact hs.nonempty List.mem_cons_self
    -- after a literal there is nothing or a reference
    have hafter : (∀ ds qs, Piece.cut cs ≠ .literal ds :: qs) ∧
        (cs.head? = some '\x7b' → text.toList.getLast? ≠ some '\x7b') := by
      cases hrest with
      | nil =>
        rw [Piece.cut_nil]
        exact ⟨by simp, by simp⟩
      | literal => exact absurd hs.alternate (by simp [Alternate, isReference])
      | @reference p ss cs w w' hw hw' hrest =>
        obtain ⟨b, hcut, _⟩ := cut_reference (p := p) hw hw' cs
        rw [hcut]
        exact ⟨by simp, fun _ => hs.apart [] text p ss rfl⟩
    have hcut := Piece.cut_append (fun s hs' hsuffix => Piece.reference?_eq_none
      (hs.unopened text List.mem_cons_self) hafter.2 hs' hsuffix) hafter.1
    rw [hcut, Piece.lead, if_neg hne]
    simp only [ofPieces, ofPiece, ih hs.tail, String.ofList_toList]
  | @reference p ss cs w w' hw hw' _ ih =>
    obtain ⟨b, hcut, hpiece⟩ := cut_reference (p := p) hw hw' cs
    rw [hcut]
    simp only [ofPieces, hpiece, ih hs.tail]

theorem join_literals (ss : List Segment) :
    String.join (ss.filterMap literal?) = fill (fun _ => "") ss := by
  induction ss with
  | nil => rfl
  | cons s ss ih =>
    cases s with
    | literal text =>
      rw [fill, ← ih, ← String.join_cons]
      rfl
    | reference p =>
      rw [fill, ← ih, String.empty_append]
      rfl

theorem any_isReference_iff {text : String} (h : readAll text = .ok ss) :
    ss.any isReference = true ↔ ∃ b, .reference b ∈ Piece.cut text.toList := by
  have hmarks := congrArg (List.any · id) (map_isReference h)
  simp only [List.any_map, Function.id_comp] at hmarks
  rw [hmarks, List.any_eq_true]
  constructor
  · rintro ⟨_ | b, hb, hreference⟩
    · cases hreference
    · exact ⟨b, hb⟩
  · rintro ⟨b, hb⟩
    exact ⟨_, hb, rfl⟩

/-- Whatever text is read, its literals are what is left when its references are taken out
from left to right; none of them is empty or follows another; and there are references as
soon as one occurs. Segments that were written in one of the ways there are, and keep apart,
are read as they were; and so is a path. -/
theorem readAll_spelling :
    (∀ text ss, readAll text = .ok ss →
      String.join (ss.filterMap literal?) = literalText text ∧
      (∀ kept, Piece.Erases text.toList kept ↔ kept = (literalText text).toList) ∧
      .literal "" ∉ ss ∧ Alternate (ss.map isReference) ∧
      (ss.any isReference = true ↔ ∃ before body after,
        Piece.Occurs text.toList before body after)) ∧
    (∀ ss cs, Separable ss → Spells ss cs → readAll (String.ofList cs) = .ok ss) ∧
    ∀ p : Path, Path.read (dotted p.segments) = .ok p := by
  refine ⟨fun text ss h => ⟨?_, Piece.erases_iff text, ?_, ?_, ?_⟩, fun ss cs hs h => ?_,
    Path.read_dotted⟩
  · rw [join_literals, literalText_eq h]
  · exact blank_not_mem_ofPieces h (Piece.literal_nil_not_mem_cut _)
  · rw [map_isReference h]
    exact Piece.alternate_cut _
  · rw [any_isReference_iff h]
    exact (Piece.cuts_cut text.toList).exists_reference
  · rw [readAll, String.toList_ofList]
    exact ofPieces_cut_of_spells h hs

/-- A literal with braces that close, two references side by side, and a brace after them. -/
theorem readAll_spelling_padded :
    let text := "a\x7d\x7d \x7b\x7b user.name\t\x7d\x7d\x7b\x7btag\x7d\x7d\x7d"
    ∃ user tag : Path, user.segments = ["user", "name"] ∧ tag.segments = ["tag"] ∧
      Separable [.literal "a\x7d\x7d ", .reference user, .reference tag, .literal "\x7d"] ∧
      readAll text = .ok [.literal "a\x7d\x7d ", .reference user, .reference tag, .literal "\x7d"] ∧
      literalText text = "a\x7d\x7d \x7d" := by
  intro text
  let user : Path := ⟨["user", "name"], by decide, by decide +kernel⟩
  let tag : Path := ⟨["tag"], by decide, by decide +kernel⟩
  have hseparable : Separable
      [.literal "a\x7d\x7d ", .reference user, .reference tag, .literal "\x7d"] := by
    refine ⟨by simp, by simp [Alternate, isReference], fun s hs => ?_,
      fun before s p after heq => ?_⟩
    · have hmem : s = "a\x7d\x7d " ∨ s = "\x7d" := by simpa using hs
      rcases hmem with rfl | rfl <;> decide
    · have hs : .literal s ∈ before ++ .literal s :: .reference p :: after := by simp
      rw [← heq] at hs
      have hmem : s = "a\x7d\x7d " ∨ s = "\x7d" := by simpa using hs
      rcases hmem with rfl | rfl <;> decide
  have hpadding : IsPadding [' '] ∧ IsPadding ['\t'] ∧ IsPadding [] := by
    simp [IsPadding]
    decide
  obtain ⟨hspace, htab, hnone⟩ := hpadding
  obtain ⟨cs, hcs, hspells⟩ : ∃ cs, String.ofList cs = text ∧ Spells
      [.literal "a\x7d\x7d ", .reference user, .reference tag, .literal "\x7d"] cs := by
    refine ⟨_, ?_, .literal (.reference hspace htab (.reference hnone hnone (.literal .nil)))⟩
    decide +kernel
  have hread := readAll_spelling.2.1 _ cs hseparable hspells
  rw [hcs] at hread
  exact ⟨user, tag, rfl, rfl, hseparable, hread, (readAll_spelling.1 _ _ hread).1.symm⟩

end Segment

/-! ## Braces that are kept -/

/-- Two braces that open stand in a text, and later two that close. -/
def Paired (cs before inside after : List Char) : Prop :=
  cs = before ++ '\x7b' :: '\x7b' :: (inside ++ '\x7d' :: '\x7d' :: after)

namespace Piece

variable {cs l a m b : List Char} {ps : List Piece}

theorem getLast?_lead {cs : List Char} (h : ps ≠ []) : (lead cs ps).getLast? = ps.getLast? := by
  unfold lead
  split
  · rfl
  · rw [List.getLast?_cons_of_ne_nil h]

/-- On one line a literal with a pair of braces is the last piece, there is nothing between
them, and none that close follow. -/
theorem Cuts.kept (h : Cuts cs ps) (hline : '\n' ∉ cs) (hl : .literal l ∈ ps)
    (hpair : Paired l a m b) :
    m = [] ∧ ps.getLast? = some (.literal l) ∧ l <:+ cs ∧ ¬ ['\x7d', '\x7d'] <:+: '\x7d' :: b := by
  induction h with
  | @rest cs none =>
    have hcs : l = cs ∧ cs ≠ [] := by simpa [mem_lead] using hl
    obtain ⟨rfl, hne⟩ := hcs
    have hm : m = [] := by
      by_contra hne
      exact none a m b ⟨hpair, hne, fun hmem => hline (hpair ▸ List.mem_append_right _
        (List.mem_cons_of_mem _ (List.mem_cons_of_mem _ (List.mem_append_left _ hmem))))⟩
    refine ⟨hm, by simp [lead, hne], List.suffix_rfl, ?_⟩
    rintro ⟨x, y, hxy⟩
    -- with the first brace that closes as its body, a reference would occur
    have heq : l = a ++ '\x7b' :: '\x7b' :: ('\x7d' :: x ++ '\x7d' :: '\x7d' :: y) := by
      rw [hpair, hm, List.nil_append, ← hxy]
      simp
    exact none a ('\x7d' :: x) y ⟨heq, List.cons_ne_nil _ _, fun hmem =>
      hline (by rw [heq]; simp only [List.mem_append, List.mem_cons] at hmem ⊢; tauto)⟩
  | @next cs before body after ps first hcuts ih =>
    rcases mem_lead.mp hl with ⟨hl, _⟩ | hl
    · -- the pair would open a reference before the first one
      cases hl
      have hoccurs : Occurs cs a (m ++ '\x7d' :: '\x7d' ::
          (b ++ '\x7b' :: '\x7b' :: body)) after := by
        have heq : cs = a ++ '\x7b' :: '\x7b' ::
            (m ++ '\x7d' :: '\x7d' :: (b ++ '\x7b' :: '\x7b' :: body) ++
              '\x7d' :: '\x7d' :: after) := by
          rw [first.eq, hpair]
          simp
        exact ⟨heq, by simp, fun hmem => hline (heq ▸ List.mem_append_right _
          (List.mem_cons_of_mem _ (List.mem_cons_of_mem _ (List.mem_append_left _ hmem))))⟩
      have hle := first.leftmost _ _ _ hoccurs
      rw [hpair, List.length_append, List.length_cons] at hle
      omega
    · have hmem : .literal l ∈ ps := by simpa using hl
      have hafter : after <:+ cs := by
        rw [first.eq]
        exact ⟨before ++ '\x7b' :: '\x7b' :: (body ++ ['\x7d', '\x7d']), by simp⟩
      obtain ⟨hm, hlast, hsuffix, hnone⟩ := ih (fun h => hline (hafter.mem h)) hmem
      refine ⟨hm, ?_, hsuffix.trans hafter, hnone⟩
      rw [getLast?_lead (List.cons_ne_nil _ _),
        List.getLast?_cons_of_ne_nil (List.ne_nil_of_mem hmem), hlast]

/-- After a brace that closes, two that open at the end are all there. -/
theorem exists_of_append_eq {x y z : List Char} (h : x ++ ['\x7b', '\x7b'] = y ++ '\x7d' :: z) :
    ∃ w, z = w ++ ['\x7b', '\x7b'] := by
  have h' : x ++ ['\x7b', '\x7b'] = (y ++ ['\x7d']) ++ z := by rw [h]; simp
  rcases List.append_eq_append_iff.mp h' with ⟨w, hw, hz⟩ | ⟨w, hw, hz⟩
  · cases List.eq_nil_or_concat w with
    | inl hnil => exact ⟨[], by simpa [hnil] using hz.symm⟩
    | inr hcons =>
      obtain ⟨v, c, rfl⟩ := hcons
      have hmem : c ∈ ['\x7b', '\x7b'] := hz ▸ by simp
      have hend := congrArg List.getLast? hw
      simp only [List.concat_eq_append, ← List.append_assoc, List.getLast?_concat] at hend
      cases hend
      exact absurd hmem (by decide)
  · exact ⟨w, hz⟩

/-- Braces with nothing between them, and none that close after them, are kept when no
reference has a brace that opens. -/
theorem Cuts.exists_kept (h : Cuts cs ps) (hps : ∀ body, .reference body ∈ ps → '\x7b' ∉ body)
    (hpair : Paired cs a [] b) (hlast : ¬ ['\x7d', '\x7d'] <:+: '\x7d' :: b) :
    ∃ l a', .literal l ∈ ps ∧ Paired l a' [] b := by
  induction h generalizing a with
  | @rest cs none =>
    have hne : cs ≠ [] := by
      rw [hpair]
      simp
    exact ⟨cs, a, mem_lead.mpr (.inl ⟨rfl, hne⟩), hpair⟩
  | @next cs before body after ps first hcuts ih =>
    have hopen : '\x7b' ∉ body := hps body (mem_lead.mpr (.inr List.mem_cons_self))
    -- where the first reference closes, against where the pair does
    have heq : (before ++ '\x7b' :: '\x7b' :: body) ++ '\x7d' :: '\x7d' :: after =
        (a ++ ['\x7b', '\x7b']) ++ '\x7d' :: '\x7d' :: b := by
      have := first.eq.symm.trans hpair
      simpa using this
    have hne : before ++ '\x7b' :: '\x7b' :: body ≠ a ++ ['\x7b', '\x7b'] := by
      obtain ⟨body', c, rfl⟩ := (List.eq_nil_or_concat body).resolve_left first.body_ne_nil
      intro hsame
      have hends : (before ++ '\x7b' :: '\x7b' :: body') ++ [c] = (a ++ ['\x7b']) ++ ['\x7b'] := by
        simpa using hsame
      obtain ⟨_, hc⟩ := List.append_inj' hends rfl
      exact hopen ((List.cons.inj hc).1 ▸ by simp)
    rcases List.append_eq_append_iff.mp heq with ⟨z, hz, hrest⟩ | ⟨z, hz, hrest⟩
    · cases z with
      | nil => exact absurd (by simpa using hz.symm) hne
      | cons c z =>
        obtain ⟨hc, hrest⟩ := List.cons.inj hrest
        obtain ⟨w, rfl⟩ := exists_of_append_eq (hc ▸ hz)
        cases w with
        | nil => cases hrest
        | cons d w =>
          obtain ⟨_, hafter⟩ := List.cons.inj hrest
          obtain ⟨l, a', hl, hpair'⟩ := @ih w (fun body' hb => hps body'
            (mem_lead.mpr (.inr (List.mem_cons_of_mem _ hb)))) (by simpa [Paired] using hafter)
          exact ⟨l, a', mem_lead.mpr (.inr (List.mem_cons_of_mem _ hl)), hpair'⟩
    · cases z with
      | nil => exact absurd (by simpa using hz) hne
      | cons c z =>
        obtain ⟨_, hrest⟩ := List.cons.inj hrest
        exact absurd ⟨z, after, by simpa using hrest.symm⟩ hlast

end Piece

/-- The braces of a reference are not part of its path. -/
theorem Path.not_mem_of_read {b : List Char} {p : Path} (h : read (String.ofList b) = .ok p) :
    '\x7b' ∉ b := by
  intro hmem
  obtain ⟨w, w', hw, hw', hb⟩ := (read_eq_ok_iff _ p).mp h
  rw [String.toList_ofList] at hb
  rw [hb, List.mem_append, List.mem_append] at hmem
  rcases hmem with hmem | hmem | hmem
  · exact absurd (hw _ hmem) (by decide)
  · exact absurd (mem_dotted hmem) (by decide)
  · exact absurd (hw' _ hmem) (by decide)

namespace Segment

variable {ss : List Segment} {ps : List Piece}

theorem mem_of_ofPieces (h : ofPieces ps = .ok ss) :
    (∀ text, .literal text ∈ ss ↔ .literal text.toList ∈ ps) ∧
      ∀ b, .reference b ∈ ps → ∃ p, Path.read (String.ofList b) = .ok p := by
  induction ps generalizing ss with
  | nil =>
    cases h
    simp
  | cons p ps ih =>
    obtain ⟨s, ss', hp, hps, rfl⟩ := ofPieces_cons h
    obtain ⟨hliteral, hreference⟩ := ih hps
    cases p with
    | literal cs =>
      cases hp
      refine ⟨fun text => ?_, fun b hb => hreference b (by simpa using hb)⟩
      rw [List.mem_cons, List.mem_cons, hliteral]
      refine or_congr ?_ Iff.rfl
      rw [Segment.literal.injEq, Piece.literal.injEq, ← String.toList_inj, String.toList_ofList]
    | reference b =>
      obtain ⟨q, rfl⟩ := ofPiece_reference hp
      refine ⟨fun text => by simpa using hliteral text, fun b' hb' => ?_⟩
      rcases List.mem_cons.mp hb' with hb' | hb'
      · obtain rfl : b' = b := Piece.reference.inj hb'
        cases hread : Path.read (String.ofList b') with
        | ok p => exact ⟨p, rfl⟩
        | error e => simp [ofPiece, hread] at hp
      · exact hreference b' hb'

theorem getLast?_of_ofPieces {l : List Char} (h : ofPieces ps = .ok ss)
    (hl : ps.getLast? = some (.literal l)) : ss.getLast? = some (.literal (String.ofList l)) := by
  induction ps generalizing ss with
  | nil => cases hl
  | cons p ps ih =>
    obtain ⟨s, ss', hp, hps, rfl⟩ := ofPieces_cons h
    cases ps with
    | nil =>
      cases hl
      cases hp
      cases hps
      rfl
    | cons q qs =>
      have hlast := ih hps (by simpa using hl)
      rw [List.getLast?_cons_of_ne_nil (by rintro rfl; cases hlast), hlast]

/-- Of a tidied text that can be read, a pair of braces stays as text only at its end, with
nothing between the braces and no more that close after them; and it does stay when the text
has such a pair. -/
theorem kept_braces {raw : String} (h : readAll (tidy raw) = .ok ss) :
    (∀ text a m b, .literal text ∈ ss → Paired text.toList a m b →
      m = [] ∧ ss.getLast? = some (.literal text) ∧ ¬ ['\x7d', '\x7d'] <:+: '\x7d' :: b) ∧
    ((∃ text a m b, .literal text ∈ ss ∧ Paired text.toList a m b) ↔
      ∃ a b, Paired (tidy raw).toList a [] b ∧ ¬ ['\x7d', '\x7d'] <:+: '\x7d' :: b) := by
  have hcuts := Piece.cuts_cut (tidy raw).toList
  have hline : '\n' ∉ (tidy raw).toList := by
    intro hmem
    rw [tidy, String.toList_ofList] at hmem
    have hfilter := Text.mem_of_mem_trim hmem
    simp at hfilter
  obtain ⟨hliteral, hreference⟩ := mem_of_ofPieces h
  have hkept : ∀ text a m b, .literal text ∈ ss → Paired text.toList a m b → _ :=
    fun text a m b ht hpair => hcuts.kept hline ((hliteral text).mp ht) hpair
  refine ⟨fun text a m b ht hpair => ?_, ?_, ?_⟩
  · obtain ⟨hm, hlast, _, hnone⟩ := hkept text a m b ht hpair
    exact ⟨hm, by simpa using getLast?_of_ofPieces h hlast, hnone⟩
  · rintro ⟨text, a, m, b, ht, hpair⟩
    obtain ⟨rfl, _, ⟨z, hz⟩, hnone⟩ := hkept text a m b ht hpair
    refine ⟨z ++ a, b, ?_, hnone⟩
    rw [Paired, ← hz, hpair, List.append_assoc]
  · rintro ⟨a, b, hpair, hnone⟩
    obtain ⟨l, a', hl, hpair'⟩ := hcuts.exists_kept (fun body hb => by
      obtain ⟨p, hp⟩ := hreference body hb
      exact Path.not_mem_of_read hp) hpair hnone
    refine ⟨String.ofList l, a', [], b, (hliteral _).mpr (by simpa using hl), ?_⟩
    rw [String.toList_ofList]
    exact hpair'

/-- Braces with nothing between them are no error, though those with a blank are. -/
theorem empty_braces_kept :
    Path.read " " = .error ⟨""⟩ ∧ readAll (tidy "\x7b\x7b \x7d\x7d") = .error ⟨""⟩ ∧
      ¬ ∀ raw ss, readAll (tidy raw) = .ok ss → ∀ text, .literal text ∈ ss →
        ¬ ∃ a m b, Paired text.toList a m b := by
  refine ⟨by with_unfolding_all rfl, by with_unfolding_all rfl, fun hall => ?_⟩
  have hread : readAll (tidy "\x7b\x7b\x7d\x7d") = .ok [.literal "\x7b\x7b\x7d\x7d"] := by
    with_unfolding_all rfl
  have hpair : Paired "\x7b\x7b\x7d\x7d".toList [] [] [] := by
    unfold Paired
    decide +kernel
  exact hall _ _ hread _ List.mem_cons_self ⟨[], [], [], hpair⟩

/-- A pair after a reference, at the end of the text. -/
theorem kept_braces_last :
    ∃ p : Path, p.segments = ["a"] ∧
      readAll (tidy " \x7b\x7ba\x7d\x7d \x7b\x7b\x7d\x7d! ") =
        .ok [.reference p, .literal " \x7b\x7b\x7d\x7d!"] ∧
      ¬ ['\x7d', '\x7d'] <:+: ['\x7d', '!'] ∧
      ∃ a b, Paired (tidy " \x7b\x7ba\x7d\x7d \x7b\x7b\x7d\x7d! ").toList a [] b := by
  let p : Path := ⟨["a"], by decide, by decide +kernel⟩
  have hread : readAll (tidy " \x7b\x7ba\x7d\x7d \x7b\x7b\x7d\x7d! ") =
      .ok [.reference p, .literal " \x7b\x7b\x7d\x7d!"] := by
    with_unfolding_all rfl
  have hpair : Paired " \x7b\x7b\x7d\x7d!".toList [' '] [] ['!'] := by
    unfold Paired
    decide +kernel
  have hmem : .literal " \x7b\x7b\x7d\x7d!" ∈
      [Segment.reference p, .literal " \x7b\x7b\x7d\x7d!"] := by simp
  obtain ⟨hkept, hiff⟩ := kept_braces hread
  obtain ⟨a, b, hraw, _⟩ := hiff.mp ⟨_, _, _, _, hmem, hpair⟩
  exact ⟨p, rfl, hread, (hkept _ _ _ _ hmem hpair).2.2, a, b, hraw⟩

end Segment
end Stencil.Binding

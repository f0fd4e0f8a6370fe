import Stencil.Document.Tree
import Stencil.Proofs.Binding.Spelling

/-! The conventions of markup, on which compiling and rendering rest alike: which attributes
are directives, what is left of a text before it is searched for references, what it then
refers to, which path a directive names, and under which name an attribute is kept. Each is
described by the texts that it comes from. -/
namespace Stencil
open Binding Document Markup Text

/-! ## Directives -/

/-- The attribute by which a directive is asked for. -/
def Markup.Attribute.ofDirective (x : Directive × String) : Attribute := ⟨x.1.word, x.2⟩

namespace Builder

theorem map_ofDirective_directives (as : List Attribute) :
    (directives as).map Attribute.ofDirective =
      as.filter fun a => (Directive.ofWord? a.name).isSome := by
  induction as with
  | nil => rfl
  | cons a as ih =>
    rw [directives, List.filterMap_cons]
    cases hd : Directive.ofWord? a.name with
    | none =>
      rw [List.filter_cons_of_neg (by simp [hd])]
      exact ih
    | some d =>
      rw [List.filter_cons_of_pos (by simp [hd]), ← ih]
      obtain ⟨name, value⟩ := a
      exact congrArg (· :: _) (congrArg (Attribute.mk · value) (Directive.word_of_ofWord? hd))

/-- Every attribute is a directive or a plain one; both are kept in order. -/
theorem attributes_divided (as : List Attribute) :
    ((directives as).map Attribute.ofDirective).Sublist as ∧ (plain as).Sublist as ∧
      ((directives as).map Attribute.ofDirective ++ plain as).Perm as ∧
      ∀ a ∈ plain as, ∀ d : Directive, a.name ≠ d.word := by
  have hplain : plain as = as.filter fun a => !(Directive.ofWord? a.name).isSome :=
    List.filter_congr fun a _ => by simp
  refine ⟨?_, List.filter_sublist, ?_, fun a ha d hname => ?_⟩
  · rw [map_ofDirective_directives]
    exact List.filter_sublist
  · rw [map_ofDirective_directives, hplain]
    exact List.filter_append_perm _ as
  · have hnone := (List.mem_filter.mp ha).2
    rw [hname, Directive.ofWord?_word] at hnone
    cases hnone

end Builder

namespace Binding

/-! ## Texts -/

/-- The characters that are dropped wherever they stand. -/
def breaks : List Char := ['\n', '\r', '\t']

/-- Without line breaks and tabs, and without white space at its ends. -/
structure IsTidy (cs : List Char) : Prop where
  not_mem : ∀ c ∈ breaks, c ∉ cs
  head : ∀ c ∈ cs.head?, isBlank c = false
  last : ∀ c ∈ cs.getLast?, isBlank c = false

theorem IsTidy.trim_eq {cs : List Char} (h : IsTidy cs) : trim cs = cs :=
  trim_eq_self_iff.mpr ⟨h.head, h.last⟩

theorem toList_tidy (raw : String) :
    (tidy raw).toList = trim (raw.toList.filter fun c => c ∉ breaks) := by
  rw [tidy, String.toList_ofList]
  congr 2
  funext c
  rw [Bool.eq_iff_iff]
  simp [breaks, and_assoc]

theorem isTidy_tidy (raw : String) : IsTidy (tidy raw).toList := by
  have htrim : trim (tidy raw).toList = (tidy raw).toList := by rw [toList_tidy, trim_trim]
  obtain ⟨hhead, hlast⟩ := trim_eq_self_iff.mp htrim
  refine ⟨fun c hc hmem => ?_, hhead, hlast⟩
  rw [toList_tidy] at hmem
  have hnot := (List.mem_filter.mp (mem_of_mem_trim hmem)).2
  exact absurd hc (by simpa using hnot)

/-- To tidy a text is to drop its breaks, and then the white space at its ends. -/
theorem tidy_eq_iff (raw text : String) : tidy raw = text ↔ IsTidy text.toList ∧
    ∃ w w', Blanks w ∧ Blanks w' ∧
      raw.toList.filter (fun c => c ∉ breaks) = w ++ (text.toList ++ w') := by
  constructor
  · rintro rfl
    refine ⟨isTidy_tidy raw, ?_⟩
    rw [toList_tidy]
    exact exists_trim _
  · rintro ⟨htidy, w, w', hw, hw', hraw⟩
    rw [← String.toList_inj, toList_tidy, hraw, trim_append_left hw, trim_append_right hw']
    exact htidy.trim_eq

theorem tidy_tidy (raw : String) : tidy (tidy raw) = tidy raw := by
  refine (tidy_eq_iff _ _).mpr ⟨isTidy_tidy raw, [], [], blanks_nil, blanks_nil, ?_⟩
  rw [List.nil_append, List.append_nil, List.filter_eq_self]
  intro c hc
  simpa using fun hbreak => (isTidy_tidy raw).not_mem c hbreak hc

/-! ## References -/

namespace Segment

theorem spells_lead {before cs : List Char} {ps : List Piece}
    (h : ∀ ss, ofPieces ps = .ok ss → Spells ss cs) {ss : List Segment}
    (hss : ofPieces (Piece.lead before ps) = .ok ss) : Spells ss (before ++ cs) := by
  unfold Piece.lead at hss
  split at hss
  · rename_i hnil
    rw [hnil]
    exact h ss hss
  · obtain ⟨s, ss', hs, hss', rfl⟩ := ofPieces_cons hss
    cases hs
    have hspells : Spells (.literal (String.ofList before) :: ss')
        ((String.ofList before).toList ++ cs) := .literal (h ss' hss')
    rwa [String.toList_ofList] at hspells

/-- A reference that was read is written as its path, with padding on both sides. -/
theorem exists_padding {body : List Char} {s : Segment} (hline : '\n' ∉ body)
    (h : ofPiece (.reference body) = .ok s) : ∃ p w w', s = .reference p ∧
      IsPadding w ∧ IsPadding w' ∧ body = w ++ ((dotted p.segments).toList ++ w') := by
  rw [ofPiece] at h
  split at h
  · rename_i p hread
    cases h
    obtain ⟨w, w', hw, hw', hbody⟩ := (Path.read_eq_ok_iff _ p).mp hread
    rw [String.toList_ofList] at hbody
    have hpad : ∀ {v : List Char}, Blanks v → (∀ c ∈ v, c ∈ body) → IsPadding v := by
      intro v hv hsub c hc
      refine ⟨hv c hc, ?_⟩
      rintro rfl
      exact hline (hsub _ hc)
    exact ⟨p, w, w', rfl, hpad hw fun c hc => by simp [hbody, hc],
      hpad hw' fun c hc => by simp [hbody, hc], hbody⟩
  · cases h

/-- What was read is one of the ways to write what it was read as. -/
theorem spells_of_cuts {cs : List Char} {ps : List Piece} (h : Piece.Cuts cs ps)
    {ss : List Segment} (hss : ofPieces ps = .ok ss) : Spells ss cs := by
  induction h generalizing ss with
  | @rest cs _ =>
    have hnil : ∀ ss, ofPieces [] = .ok ss → Spells ss [] := by
      intro ss hss
      cases hss
      exact .nil
    have hspells := spells_lead hnil hss
    rwa [List.append_nil] at hspells
  | @next cs before body after ps first _ ih =>
    rw [first.eq]
    refine spells_lead (fun ss hss => ?_) hss
    obtain ⟨s, ss', hs, hss', rfl⟩ := ofPieces_cons hss
    obtain ⟨p, w, w', rfl, hw, hw', rfl⟩ := exists_padding first.one_line hs
    exact .reference hw hw' (ih hss')

end Segment

/-- The segments of a text are written in it, in order and with nothing else. If segments that
keep apart are written in it, they are its segments. -/
theorem segmentsOf_written (raw : String) :
    ((∃ ss, Segment.readAll (tidy raw) = .ok ss) →
      Segment.Spells (segmentsOf raw) (tidy raw).toList) ∧
    ((∀ ss, Segment.readAll (tidy raw) ≠ .ok ss) → segmentsOf raw = []) ∧
    ∀ ss, Segment.Separable ss → Segment.Spells ss (tidy raw).toList → segmentsOf raw = ss := by
  refine ⟨?_, fun hnone => ?_, fun ss hseparable hspells => segmentsOf_eq ?_⟩
  · rintro ⟨ss, hss⟩
    rw [segmentsOf_eq hss]
    exact Segment.spells_of_cuts (Piece.cuts_cut _) hss
  · cases hr : Segment.readAll (tidy raw) with
    | ok ss => exact absurd hr (hnone ss)
    | error e => rw [segmentsOf, hr]
  · exact Segment.ofPieces_cut_of_spells hspells hseparable

/-! ## Paths of directives -/

/-- Braces are taken off when both are there. -/
theorem withoutBraces_cases (cs : List Char) :
    (∃ m, cs = '\x7b' :: '\x7b' :: (m ++ ['\x7d', '\x7d']) ∧ withoutBraces cs = m) ∨
      ((∀ m, cs ≠ '\x7b' :: '\x7b' :: (m ++ ['\x7d', '\x7d'])) ∧ withoutBraces cs = cs) := by
  unfold withoutBraces
  split
  · rename_i r
    split
    · rename_i m hm
      refine .inl ⟨m.reverse, ?_, rfl⟩
      rw [← List.reverse_reverse r, hm]
      simp
    · rename_i hm
      refine .inr ⟨fun m heq => hm m.reverse ?_, rfl⟩
      cases heq
      simp
  · rename_i hcs
    exact .inr ⟨fun m heq => hcs _ heq, rfl⟩

theorem withoutBraces_braces (m : List Char) :
    withoutBraces ('\x7b' :: '\x7b' :: (m ++ ['\x7d', '\x7d'])) = m := by
  rcases withoutBraces_cases ('\x7b' :: '\x7b' :: (m ++ ['\x7d', '\x7d'])) with
    ⟨m', heq, hm'⟩ | ⟨hnone, _⟩
  · rw [hm']
    simpa using heq.symm
  · exact absurd rfl (hnone m)

/-- A directive names a path by its dotted name, alone or between braces with white space on
both sides. -/
theorem Path.ofDirective_eq_ok_iff (value : String) (p : Path) : ofDirective value = .ok p ↔
    tidy value = dotted p.segments ∨ ∃ w w', Blanks w ∧ Blanks w' ∧ (tidy value).toList =
      '\x7b' :: '\x7b' :: ((w ++ ((dotted p.segments).toList ++ w')) ++ ['\x7d', '\x7d']) := by
  rw [ofDirective, read_eq_ok_iff, String.toList_ofList]
  rcases withoutBraces_cases (tidy value).toList with ⟨m, hbraces, hm⟩ | ⟨hnone, hself⟩
  · rw [hm]
    constructor
    · rintro ⟨w, w', hw, hw', rfl⟩
      exact .inr ⟨w, w', hw, hw', hbraces⟩
    · rintro (hbare | ⟨w, w', hw, hw', heq⟩)
      · -- a path has no braces in it
        have hmem : '\x7b' ∈ (dotted p.segments).toList := by
          rw [← hbare, hbraces]
          exact List.mem_cons_self
        exact absurd (mem_dotted hmem) (by decide)
      · refine ⟨w, w', hw, hw', ?_⟩
        rw [← hm, heq, withoutBraces_braces]
  · rw [hself]
    constructor
    · rintro ⟨w, w', hw, hw', heq⟩
      refine .inl ?_
      have htrim := trim_append hw hw' p.dotted_ne_nil
        (trim_eq_self fun c hc => isBlank_of_mem_dotted hc)
      rw [← String.toList_inj, ← htrim, ← heq]
      exact (isTidy_tidy value).trim_eq.symm
    · rintro (hbare | ⟨w, w', _, _, heq⟩)
      · exact ⟨[], [], blanks_nil, blanks_nil, by rw [hbare]; simp⟩
      · exact absurd heq (hnone _)

end Binding

/-! ## Names of attributes -/

namespace Draft

/-- An attribute is shown under the name that it has in markup. -/
theorem qualifiedName_attributeName (name value : String) :
    Attr.qualifiedName ⟨(attributeName name).1, (attributeName name).2, value⟩ = name := by
  unfold attributeName
  split
  · rename_i hname
    rw [hname, Attr.qualifiedName, if_pos rfl]
    have hhref : "xlink:" ++ "href" = Vocabulary.xlinkHref := by decide
    exact hhref
  · rfl

theorem attributeName_injective : Function.Injective attributeName := by
  intro a b h
  rw [← qualifiedName_attributeName a "", h, qualifiedName_attributeName]

end Draft
end Stencil

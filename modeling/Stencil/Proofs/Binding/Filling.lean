import Stencil.Proofs.Binding.Reading
import Stencil.Proofs.Instance.View

/-! Texts with something filled in for their references. An interpolation shows its
segments filled with the texts of the values, and the literal text is what is left when
nothing is filled in. -/
namespace Stencil.Binding

/-- The text of segments, with a text for every path referred to. -/
def Segment.fill (f : Path → String) : List Segment → String
  | [] => ""
  | .literal s :: ss => s ++ fill f ss
  | .reference p :: ss => f p ++ fill f ss

/-- The text with what the data has at the paths. -/
def Segment.filled (data : Json) (ss : List Segment) : String :=
  fill (fun p => (data.follow p.segments).shown) ss

/-- The path, when the whole is one reference. -/
def Segment.lone? : List Segment → Option Path
  | [.reference p] => some p
  | _ => none

theorem Segment.eq_of_lone? {ss : List Segment} {p : Path} (h : lone? ss = some p) :
    ss = [.reference p] := by
  unfold lone? at h
  split at h
  · cases h
    rfl
  · cases h

/-- The data has a field for one of the paths that are referred to. -/
def Segment.isReached (data : Json) (ss : List Segment) : Bool :=
  (Index.paths ss).any fun p => (data.field? p.key).isSome

theorem Segment.any_of_isReached {data : Json} {ss : List Segment} (h : isReached data ss = true) :
    ss.any isReference = true := by
  induction ss with
  | nil => cases h
  | cons s ss ih =>
    cases s with
    | literal text => exact ih h
    | reference p => rfl

/-- The segments of a text without its line breaks; none if it cannot be read. -/
def segmentsOf (raw : String) : List Segment :=
  match Segment.readAll (tidy raw) with
  | .ok ss => ss
  | .error _ => []

theorem segmentsOf_eq {raw : String} {ss : List Segment}
    (h : Segment.readAll (tidy raw) = .ok ss) : segmentsOf raw = ss := by
  rw [segmentsOf, h]

theorem Interprets.shown_eq {B : Path → Var → Prop} {ss : List Segment} {ps : Interpolation}
    (h : Interprets B ss ps) {values : List Json} {f : Path → String}
    (hf : ∀ p v, p ∈ Index.paths ss → B p v → (values[v]?.getD .null).shown = f p) :
    ps.shown values = Segment.fill f ss := by
  induction h with
  | nil => rfl
  | blank _ ih => rw [Segment.fill, String.empty_append, ih hf]
  | literal _ _ ih => rw [Interpolation.shown, Segment.fill, ih hf]
  | reference hv _ ih =>
    rw [Interpolation.shown, Segment.fill, hf _ _ List.mem_cons_self hv,
      ih fun p v hp => hf p v (List.mem_cons_of_mem _ hp)]

theorem Segment.ofPieces_cons {p : Piece} {ps : List Piece} {ss : List Segment}
    (h : ofPieces (p :: ps) = .ok ss) :
    ∃ s ss', ofPiece p = .ok s ∧ ofPieces ps = .ok ss' ∧ ss = s :: ss' := by
  rw [ofPieces] at h
  cases hp : ofPiece p with
  | error e => simp [hp] at h
  | ok s =>
    cases hps : ofPieces ps with
    | error e => simp [hp, hps] at h
    | ok ss' =>
      simp only [hp, hps, Except.ok.injEq] at h
      exact ⟨s, ss', rfl, rfl, h.symm⟩

theorem Segment.ofPiece_reference {b : List Char} {s : Segment}
    (h : ofPiece (.reference b) = .ok s) : ∃ p, s = .reference p := by
  rw [ofPiece] at h
  split at h
  · cases h
    exact ⟨_, rfl⟩
  · cases h

theorem Segment.fill_ofPieces {ps : List Piece} {ss : List Segment} (h : ofPieces ps = .ok ss) :
    fill (fun _ => "") ss = String.ofList (ps.filterMap Piece.literal?).flatten := by
  induction ps generalizing ss with
  | nil =>
    cases h
    rfl
  | cons p ps ih =>
    obtain ⟨s, ss', hp, hps, rfl⟩ := ofPieces_cons h
    cases p with
    | literal cs =>
      cases hp
      simp [fill, ih hps, Piece.literal?]
    | reference b =>
      obtain ⟨p, rfl⟩ := ofPiece_reference hp
      rw [fill, String.empty_append, ih hps]
      rfl

theorem literalText_eq {text : String} {ss : List Segment} (h : Segment.readAll text = .ok ss) :
    literalText text = Segment.fill (fun _ => "") ss :=
  (Segment.fill_ofPieces h).symm

theorem Segment.fill_eq_of_fixed {ss : List Segment} (h : ss.any isReference = false)
    (f g : Path → String) : fill f ss = fill g ss := by
  induction ss with
  | nil => rfl
  | cons s ss ih =>
    rw [List.any_cons, Bool.or_eq_false_iff] at h
    cases s with
    | literal text => rw [fill, fill, ih h.2]
    | reference p => cases h.1

/-! ## Pieces -/

namespace Piece

theorem literal_nil_not_mem_cut (cs : List Char) : .literal [] ∉ cut cs := by
  fun_induction cut cs with
  | case1 cs b rest _ ih => simpa using ih
  | case2 => nofun
  | case3 c cs _ ih =>
    unfold prependChar
    split
    · rename_i hcut
      rw [hcut] at ih
      simpa using fun h => ih (List.mem_cons_of_mem _ h)
    · simpa using ih

/-- Without references the literals are the whole text. -/
theorem flatten_literals_cut (cs : List Char) (h : ∀ b, .reference b ∉ cut cs) :
    ((cut cs).filterMap literal?).flatten = cs := by
  fun_induction cut cs with
  | case1 cs b rest _ ih => exact absurd List.mem_cons_self (h b)
  | case2 => rfl
  | case3 c cs _ ih =>
    unfold prependChar at h ⊢
    split at h
    · rename_i ds ps hcut
      rw [hcut] at ih
      simpa [literal?] using ih fun b hb => h b (by simpa using hb)
    · simpa [literal?] using ih fun b hb => h b (List.mem_cons_of_mem _ hb)

end Piece

namespace Segment

theorem blank_not_mem_ofPieces {ps : List Piece} {ss : List Segment} (h : ofPieces ps = .ok ss)
    (hps : .literal [] ∉ ps) : .literal "" ∉ ss := by
  induction ps generalizing ss with
  | nil =>
    cases h
    exact List.not_mem_nil
  | cons p ps ih =>
    obtain ⟨s, ss', hp, hrest, rfl⟩ := ofPieces_cons h
    refine List.not_mem_cons_of_ne_of_not_mem ?_
      (ih hrest fun hm => hps (List.mem_cons_of_mem _ hm))
    cases p with
    | literal cs =>
      cases hp
      intro he
      have : cs = [] := by simpa using (Segment.literal.inj he).symm
      exact hps (this ▸ List.mem_cons_self)
    | reference b =>
      obtain ⟨p, rfl⟩ := ofPiece_reference hp
      nofun

theorem reference_not_mem_of_fixed {ps : List Piece} {ss : List Segment} (h : ofPieces ps = .ok ss)
    (hss : ss.any isReference = false) (b : List Char) : .reference b ∉ ps := by
  induction ps generalizing ss with
  | nil => exact List.not_mem_nil
  | cons p ps ih =>
    obtain ⟨s, ss', hp, hrest, rfl⟩ := ofPieces_cons h
    rw [List.any_cons, Bool.or_eq_false_iff] at hss
    refine List.not_mem_cons_of_ne_of_not_mem ?_ (ih hrest hss.2)
    rintro rfl
    obtain ⟨p, rfl⟩ := ofPiece_reference hp
    cases hss.1

/-- A text without references is its own filling. -/
theorem fill_eq_of_readAll {text : String} {ss : List Segment} (h : readAll text = .ok ss)
    (hss : ss.any isReference = false) (f : Path → String) : fill f ss = text := by
  have hpieces := reference_not_mem_of_fixed h hss
  rw [fill_eq_of_fixed hss f fun _ => "", fill_ofPieces h,
    Piece.flatten_literals_cut text.toList hpieces, String.ofList_toList]

end Segment

/-- An interpolation is one variable when the text is one reference. -/
theorem Interprets.single?_eq {B : Path → Var → Prop} {ss : List Segment} {ps : Interpolation}
    (h : Interprets B ss ps) (hss : .literal "" ∉ ss) :
    (ps.single? = none ∧ Segment.lone? ss = none) ∨
      ∃ p v, ps.single? = some v ∧ Segment.lone? ss = some p ∧ B p v := by
  cases h with
  | nil => exact .inl ⟨rfl, rfl⟩
  | blank => exact absurd List.mem_cons_self hss
  | literal => exact .inl ⟨rfl, rfl⟩
  | @reference p v ss ps hv hrest =>
    cases hrest with
    | nil => exact .inr ⟨p, v, rfl, rfl, hv⟩
    | blank => simp at hss
    | literal => exact .inl ⟨rfl, rfl⟩
    | reference => exact .inl ⟨rfl, rfl⟩

end Stencil.Binding

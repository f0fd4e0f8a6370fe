import Stencil.Artifact.Settings
import Stencil.Proofs.Binding.Spelling

/-! Remarks in a settings text: blank lines, lines that are a comment, and comments after
something else. They change no setting, with one exception: a heading with a comment after it
is not the heading any more, and the lines under it are lost. -/
namespace Stencil.Artifact.Settings
open Text Markup

/-- Nothing but white space and a comment, if there is one. -/
def IsRemark (t : List Char) : Prop := Blanks t ∨ ∃ w c, Blanks w ∧ t = w ++ '#' :: c

/-- The line is read as a heading, whatever it says. -/
def IsHeading (l : List Char) : Prop := (trim l).head? = some '['

/-- The line is the heading, with nothing else than white space around it. -/
def Opens (heading : String) (l : List Char) : Prop := trim l = '[' :: heading.toList ++ [']']

/-- The second text is the first one with remarks: between its lines, and at the ends of lines.
A remark after a heading line may not decide whether the line is the heading asked for. -/
inductive Remarked (heading : String) : List (List Char) → List (List Char) → Prop
  | nil : Remarked heading [] []
  | insert {l : List Char} {ls ls' : List (List Char)} (hl : IsRemark l)
    (h : Remarked heading ls ls') : Remarked heading ls (l :: ls')
  | append {l t : List Char} {ls ls' : List (List Char)} (ht : IsRemark t)
    (hl : IsHeading l → (Opens heading (l ++ t) ↔ Opens heading l))
    (h : Remarked heading ls ls') : Remarked heading (l :: ls) ((l ++ t) :: ls')

theorem Remarked.keep {heading : String} {l : List Char} {ls ls' : List (List Char)}
    (h : Remarked heading ls ls') : Remarked heading (l :: ls) (l :: ls') := by
  have happ := h.append (l := l) (.inl blanks_nil) fun _ => by rw [List.append_nil]
  rwa [List.append_nil] at happ

/-! ## What a line says -/

variable {l t w : List Char}

/-- The text of a line without its comment. -/
def body (l : List Char) : List Char := trim (l.takeWhile (· != '#'))

theorem boolOn_congr {l l' : List Char} (h : body l = body l') (key : String) :
    boolOn key l = boolOn key l' := by
  unfold boolOn
  unfold body at h
  rw [h]

theorem hash_not_mem_blanks (hw : Blanks w) : ∀ c ∈ w, (c != '#') = true := by
  intro c hc
  refine bne_iff_ne.mpr ?_
  rintro rfl
  exact absurd (hw _ hc) (by decide)

theorem body_append_blanks (hw : Blanks w) (l : List Char) : body (l ++ w) = body l := by
  unfold body
  rw [List.takeWhile_append]
  split
  · rename_i hlen
    have hself : l.takeWhile (· != '#') = l := (List.takeWhile_prefix _).eq_of_length hlen
    have hall : w.takeWhile (· != '#') = w := by
      have h : (w ++ []).takeWhile (· != '#') = w ++ [].takeWhile (· != '#') :=
        List.takeWhile_append_of_pos (hash_not_mem_blanks hw)
      simpa using h
    rw [hself, hall, trim_append_right hw]
  · rfl

theorem body_append (ht : IsRemark t) (l : List Char) : body (l ++ t) = body l := by
  rcases ht with ht | ⟨w, c, hw, rfl⟩
  · exact body_append_blanks ht l
  · -- the comment begins after the white space, if it has not begun before
    have hcut : (l ++ (w ++ '#' :: c)).takeWhile (· != '#') = (l ++ w).takeWhile (· != '#') := by
      rw [← List.append_assoc, List.takeWhile_append]
      split
      · rename_i hlen
        rw [List.takeWhile_cons_of_neg (by simp), List.append_nil]
        exact ((List.takeWhile_prefix _).eq_of_length hlen).symm
      · rfl
    rw [← body_append_blanks hw l, body, hcut, body]

theorem body_trim (l : List Char) : body (trim l) = body l := by
  obtain ⟨w, w', hw, hw', hl⟩ := exists_trim l
  have hleft : body (w ++ (trim l ++ w')) = body (trim l ++ w') := by
    unfold body
    rw [List.takeWhile_append_of_pos (hash_not_mem_blanks hw), trim_append_left hw]
  rw [← body_append_blanks hw' (trim l), ← hleft, ← hl]

/-! ## One line -/

instance (heading : String) (l : List Char) : Decidable (Opens heading l) :=
  inferInstanceAs (Decidable (_ = _))

/-- A line is passed over, or a heading, or one that can give a value. -/
theorem line_cases (l : List Char) : (∀ d ∈ (trim l).head?, d = '#') ∨ IsHeading l ∨
    ∃ d, (trim l).head? = some d ∧ d ≠ '#' ∧ d ≠ '[' := by
  unfold IsHeading
  cases h : (trim l).head? with
  | none => exact .inl (by simp)
  | some d =>
    by_cases hhash : d = '#'
    · exact .inl (by simp [hhash])
    · by_cases hbracket : d = '['
      · exact .inr (.inl (by rw [hbracket]))
      · exact .inr (.inr ⟨d, rfl, hhash, hbracket⟩)

variable {heading key : String} {inside : Bool} {ls ls' : List (List Char)}

theorem boolIn_skip (h : ∀ d ∈ (trim l).head?, d = '#') :
    boolIn heading key inside (l :: ls) = boolIn heading key inside ls := by
  rw [boolIn]
  cases hl : trim l with
  | nil => rfl
  | cons d r =>
    rw [hl] at h
    obtain rfl := h d rfl
    rfl

theorem boolIn_heading (h : IsHeading l) :
    boolIn heading key inside (l :: ls) = boolIn heading key (decide (Opens heading l)) ls := by
  obtain ⟨r, hr⟩ : ∃ r, trim l = '[' :: r := List.head?_eq_some_iff.mp h
  have hopens : ('[' :: r == '[' :: heading.toList ++ [']']) = decide (Opens heading l) := by
    rw [Bool.eq_iff_iff, beq_iff_eq, decide_eq_true_iff, Opens, hr]
  rw [boolIn, hr, ← hopens]
  rfl

theorem boolIn_line {d : Char} (h : (trim l).head? = some d) (hhash : d ≠ '#')
    (hbracket : d ≠ '[') :
    boolIn heading key inside (l :: ls) =
      (if inside then boolOn key (trim l) else none).or (boolIn heading key inside ls) := by
  rw [boolIn]
  cases hl : trim l with
  | nil => rw [hl] at h; cases h
  | cons d' r =>
    rw [hl] at h
    cases h
    split
    · rename_i heq; cases heq
    · rename_i heq; cases heq; exact absurd rfl hhash
    · rename_i heq; cases heq; exact absurd rfl hbracket
    · cases inside
      · rfl
      · cases boolOn key (d :: r) <;> rfl

/-! ## Whole texts -/

theorem isRemark_skipped (hl : IsRemark l) : ∀ d ∈ (trim l).head?, d = '#' := by
  rcases hl with hw | ⟨w, c, hw, rfl⟩
  · rw [trim_blanks hw]
    intro d hd
    cases hd
  · rw [trim_append_left hw, head?_trim, Text.trimStart_cons (by decide)]
    intro d hd
    cases hd
    rfl

theorem opens_append_blanks (hw : Blanks t) : Opens heading (l ++ t) ↔ Opens heading l := by
  rw [Opens, trim_append_right hw, Opens]

/-- With anything but white space after it, the heading is another one. -/
theorem not_opens_append (hl : Opens heading l) (ht : ¬ Blanks t) : ¬ Opens heading (l ++ t) := by
  intro h
  have heq : l.filter (!isBlank ·) ++ t.filter (!isBlank ·) = l.filter (!isBlank ·) := by
    rw [← List.filter_append, ← filter_trim, h, ← hl, filter_trim]
  have hnone := List.filter_eq_nil_iff.mp (List.append_right_eq_self.mp heq)
  exact ht fun c hc => by simpa using hnone c hc

/-- If the heading that is asked for has no comment sign in it, any other line may get a
comment. -/
theorem Remarked.comment (hheading : '#' ∉ heading.toList) (hl : ¬ Opens heading l)
    (ht : IsRemark t) (h : Remarked heading ls ls') :
    Remarked heading (l :: ls) ((l ++ t) :: ls') := by
  refine h.append ht fun _ => ?_
  rcases ht with hw | ⟨w, c, _, rfl⟩
  · exact opens_append_blanks hw
  · refine iff_of_false (fun hopens => ?_) hl
    have hmem : '#' ∈ trim (l ++ (w ++ '#' :: c)) := Text.mem_trim (by simp) (by decide)
    rw [hopens] at hmem
    simp [hheading] at hmem

/-- A remark at the end of a line keeps what the line says. -/
theorem boolIn_append (ht : IsRemark t)
    (hl : IsHeading l → (Opens heading (l ++ t) ↔ Opens heading l))
    (h : ∀ inside, boolIn heading key inside ls' = boolIn heading key inside ls) :
    boolIn heading key inside ((l ++ t) :: ls') = boolIn heading key inside (l :: ls) := by
  rcases line_cases l with hskip | hhead | ⟨d, hd, hhash, hbracket⟩
  · have hskip' : ∀ d ∈ (trim (l ++ t)).head?, d = '#' := by
      cases hd : (trim l).head? with
      | none =>
        obtain ⟨w, w', hw, hw', heq⟩ := exists_trim l
        rw [List.head?_eq_none_iff.mp hd, List.nil_append] at heq
        rw [heq, List.append_assoc, trim_append_left hw, trim_append_left hw']
        exact isRemark_skipped ht
      | some d =>
        obtain rfl := hskip d hd
        rw [head?_trim_append hd t]
        simp
    rw [boolIn_skip hskip', boolIn_skip hskip, h]
  · rw [boolIn_heading (head?_trim_append hhead t), boolIn_heading hhead, h,
      decide_eq_decide.mpr (hl hhead)]
  · have hbody : body (trim (l ++ t)) = body (trim l) := by
      rw [body_trim, body_append ht, body_trim]
    rw [boolIn_line (head?_trim_append hd t) hhash hbracket, boolIn_line hd hhash hbracket,
      boolOn_congr hbody, h]

/-- Remarks are passed over, wherever they stand. -/
theorem boolIn_remarked (h : Remarked heading ls ls') (key : String) (inside : Bool) :
    boolIn heading key inside ls' = boolIn heading key inside ls := by
  induction h generalizing inside with
  | nil => rfl
  | insert hl _ ih => rw [boolIn_skip (isRemark_skipped hl), ih]
  | append ht hl _ ih => exact boolIn_append ht hl ih

/-! ## Lines under a heading -/

/-- What comes first does not matter, as long as it is the same. -/
theorem boolIn_congr (before : List (List Char))
    (h : ∀ inside, boolIn heading key inside ls' = boolIn heading key inside ls) :
    boolIn heading key inside (before ++ ls') = boolIn heading key inside (before ++ ls) := by
  induction before generalizing inside with
  | nil => exact h inside
  | cons l before ih =>
    rw [List.cons_append, List.cons_append]
    rcases line_cases l with hskip | hhead | ⟨d, hd, hhash, hbracket⟩
    · rw [boolIn_skip hskip, boolIn_skip hskip, ih]
    · rw [boolIn_heading hhead, boolIn_heading hhead, ih]
    · rw [boolIn_line hd hhash hbracket, boolIn_line hd hhash hbracket, ih]

/-- Lines under another heading give nothing. -/
theorem boolIn_outside {under : List (List Char)} (h : ∀ l ∈ under, ¬ IsHeading l) :
    boolIn heading key false (under ++ ls) = boolIn heading key false ls := by
  induction under with
  | nil => rfl
  | cons l under ih =>
    rw [List.forall_mem_cons] at h
    rw [List.cons_append]
    rcases line_cases l with hskip | hhead | ⟨d, hd, hhash, hbracket⟩
    · rw [boolIn_skip hskip, ih h.2]
    · exact absurd hhead h.1
    · rw [boolIn_line hd hhash hbracket, ih h.2]
      rfl

/-- At a heading it does not matter what was before. -/
theorem boolIn_of_head (h : ∀ l ∈ ls.head?, IsHeading l) (inside inside' : Bool) :
    boolIn heading key inside ls = boolIn heading key inside' ls := by
  cases ls with
  | nil => rw [boolIn, boolIn]
  | cons l ls => rw [boolIn_heading (h l rfl), boolIn_heading (h l rfl)]

/-- A heading that is not the one asked for can be left out, with the lines under it. -/
theorem boolIn_unopened {before under after : List (List Char)} (hhead : IsHeading l)
    (hl : ¬ Opens heading l) (hunder : ∀ u ∈ under, ¬ IsHeading u)
    (hafter : ∀ a ∈ after.head?, IsHeading a) :
    boolIn heading key inside (before ++ l :: (under ++ after)) =
      boolIn heading key inside (before ++ after) := by
  refine boolIn_congr before fun inside => ?_
  rw [boolIn_heading hhead, decide_eq_false hl, boolIn_outside hunder]
  exact boolIn_of_head hafter false inside

/-! ## Whole texts -/

def lines (text : String) : List (List Char) := split '\n' text.toList

def ofLines (ls : List (List Char)) : String := String.ofList (join '\n' ls)

theorem not_mem_of_mem_split {sep : Char} {w cs : List Char} (h : w ∈ split sep cs) : sep ∉ w := by
  induction cs generalizing w with
  | nil =>
    rw [List.mem_singleton.mp h]
    exact List.not_mem_nil
  | cons c cs ih =>
    rw [split] at h
    split at h
    · rcases List.mem_cons.mp h with rfl | h
      · exact List.not_mem_nil
      · exact ih h
    · rename_i hc
      split at h
      · rename_i hnil
        exact absurd hnil (split_ne_nil sep cs)
      · rename_i v vs hsplit
        rw [hsplit] at ih
        rcases List.mem_cons.mp h with rfl | h
        · rw [List.mem_cons, not_or]
          exact ⟨fun heq => hc heq.symm, ih List.mem_cons_self⟩
        · exact ih (List.mem_cons_of_mem v h)

theorem bool?_ofLines (h : ∀ l ∈ ls, '\n' ∉ l) (heading key : String) :
    bool? (ofLines ls) heading key = boolIn heading key false ls := by
  rw [bool?, ofLines, String.toList_ofList]
  cases ls with
  | nil => rfl
  | cons l ls => rw [split_join (List.cons_ne_nil l ls) h]

theorem bool?_eq (text heading key : String) :
    bool? text heading key = boolIn heading key false (lines text) := rfl

/-- Remarks change no setting: blank lines and comments can be put anywhere but after the
heading that is asked for. A comment there, as anything but white space, takes away the
heading, and with it the lines down to the next heading, and nothing else. -/
theorem remarked_read (text : String) :
    (∀ heading ls, Remarked heading (lines text) ls → (∀ l ∈ ls, '\n' ∉ l) →
      ∀ key, bool? (ofLines ls) heading key = bool? text heading key) ∧
    (∀ ls, Remarked "build" (lines text) ls → (∀ l ∈ ls, '\n' ∉ l) →
      read (ofLines ls) = read text) ∧
    ∀ heading before l under after t, lines text = before ++ l :: (under ++ after) →
      Opens heading l → (∀ u ∈ under, ¬ IsHeading u) → (∀ a ∈ after.head?, IsHeading a) →
      ¬ Blanks t → '\n' ∉ t →
      ∀ key, bool? (ofLines (before ++ (l ++ t) :: (under ++ after))) heading key =
        bool? (ofLines (before ++ after)) heading key := by
  have hkept : ∀ heading ls, Remarked heading (lines text) ls → (∀ l ∈ ls, '\n' ∉ l) →
      ∀ key, bool? (ofLines ls) heading key = bool? text heading key := by
    intro heading ls h hls key
    rw [bool?_ofLines hls, bool?_eq, boolIn_remarked h]
  refine ⟨hkept, fun ls h hls => ?_, ?_⟩
  · rw [read, read, hkept "build" ls h hls "module", hkept "build" ls h hls "bundle"]
  · intro heading before l under after t hlines hl hunder hafter hnot hnewline key
    have hfree : ∀ x ∈ before ++ l :: (under ++ after), '\n' ∉ x := by
      rw [← hlines]
      exact fun x hx => not_mem_of_mem_split hx
    simp only [List.forall_mem_append, List.forall_mem_cons] at hfree
    have hline : '\n' ∉ l ++ t := by
      rw [List.mem_append, not_or]
      exact ⟨hfree.2.1, hnewline⟩
    have hcommented : ∀ x ∈ before ++ (l ++ t) :: (under ++ after), '\n' ∉ x :=
      List.forall_mem_append.mpr ⟨hfree.1,
        List.forall_mem_cons.mpr ⟨hline, List.forall_mem_append.mpr hfree.2.2⟩⟩
    have hrest : ∀ x ∈ before ++ after, '\n' ∉ x :=
      List.forall_mem_append.mpr ⟨hfree.1, hfree.2.2.2⟩
    have hhead : IsHeading (l ++ t) := by
      refine head?_trim_append ?_ t
      rw [hl]
      rfl
    rw [bool?_ofLines hcommented, bool?_ofLines hrest]
    exact boolIn_unopened hhead (not_opens_append hl hnot) hunder hafter

/-- A comment line, a comment after a value and one after another heading are passed over; one
after the heading takes the value under it away, and not the value further down. -/
theorem remarked_read_build :
    let text := "[build]\nmodule = true\n[watch]\nbundle = false\n[build]\nbundle = true"
    let remark := "\t# module = false".toList
    let ls := [remark, "[build]".toList, "module = true".toList ++ remark,
      "[watch]".toList ++ remark, "bundle = false".toList, "[build]".toList, "bundle = true".toList]
    let after := ["[watch]".toList, "bundle = false".toList, "[build]".toList,
      "bundle = true".toList]
    let lost := ("[build]".toList ++ remark) :: "module = true".toList :: after
    Remarked "build" (lines text) ls ∧ read (ofLines ls) = ⟨true, true⟩ ∧
      Opens "build" "[build]".toList ∧ IsRemark remark ∧ ¬ Blanks remark ∧
      bool? (ofLines lost) "build" "module" = none ∧
      bool? (ofLines lost) "build" "bundle" = some true := by
  intro text remark ls after lost
  have hremark : IsRemark remark := by
    refine .inr ⟨['\t'], " module = false".toList, fun c hc => ?_, rfl⟩
    rw [List.mem_singleton.mp hc]
    decide
  have hblanks : ¬ Blanks remark := fun h => absurd (h '#' (by decide)) (by decide)
  have hlines : lines text = "[build]".toList :: "module = true".toList :: after := by decide
  have hls : Remarked "build" (lines text) ls := by
    rw [hlines]
    exact .insert hremark <| .keep <|
      .append hremark (fun h => absurd h (by unfold IsHeading; decide)) <|
      .comment (by decide) (by decide) hremark <| .keep <| .keep <| .keep .nil
  have hopens : Opens "build" "[build]".toList := by decide
  obtain ⟨_, hread, hlost⟩ := remarked_read text
  have hunder : ∀ u ∈ ["module = true".toList], ¬ IsHeading u := by
    unfold IsHeading
    decide
  have hafter : ∀ a ∈ after.head?, IsHeading a := by
    unfold IsHeading
    decide
  have hvalue := hlost "build" [] "[build]".toList ["module = true".toList] after remark hlines
    hopens hunder hafter hblanks (by decide)
  refine ⟨hls, ?_, hopens, hremark, hblanks, ?_, ?_⟩
  · rw [hread ls hls (by decide)]
    decide
  · exact (hvalue "module").trans (by decide)
  · exact (hvalue "bundle").trans (by decide)

/-- A comment after the heading changes what the settings are. -/
theorem heading_comment_lost :
    bool? "[build]\nmodule = true" "build" "module" = some true ∧
      bool? "[build] # defaults\nmodule = true" "build" "module" = none ∧
      read "[build] # defaults\nmodule = true" ≠ read "[build]\nmodule = true" := by
  decide

end Stencil.Artifact.Settings

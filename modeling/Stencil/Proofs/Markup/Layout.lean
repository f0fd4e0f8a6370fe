import Stencil.Proofs.Markup.Scanning

/-! Layouts of a whole source: its tokens, each written in one of the ways there are, with
comments and declarations between them. Whatever tokens a source has, it has the same ones in
every layout. -/
namespace Stencil.Markup
open Text

/-- A comment or a declaration. -/
inductive Aside : List Char → Prop
  | comment {body : List Char} (h : ¬ ['-', '-', '>'] <:+: body) :
    Aside ('<' :: '!' :: '-' :: '-' :: (body ++ ['-', '-', '>']))
  | instruction {body : List Char} (h : '>' ∉ body) : Aside ('<' :: '?' :: (body ++ ['>']))
  | declaration {body : List Char} (h : '>' ∉ body) (hd : ¬ ['-', '-'] <+: body) :
    Aside ('<' :: '!' :: (body ++ ['>']))

/-- Any number of comments and declarations. -/
inductive Asides : List Char → Prop
  | nil : Asides []
  | cons {u v : List Char} (hu : Aside u) (hv : Asides v) : Asides (u ++ v)

/-- The ways to write a list of tokens as a source. -/
inductive Layout : List Token → List Char → Prop
  | nil {gap : List Char} (hg : Asides gap) : Layout [] gap
  | cons {t : Token} {ts : List Token} {gap u v : List Char} (hg : Asides gap) (ht : t.Written u)
    (hts : Layout ts v) : Layout (t :: ts) (gap ++ (u ++ v))

namespace Token

/-- No text stands before another. -/
def Separate : List Token → Prop
  | [] => True
  | t :: ts => (t.isText = true → Fresh ts) ∧ Separate ts

/-! ## Asides -/

theorem after?_char {c : Char} {body : List Char} (h : c ∉ body) (rest : List Char) :
    after? [c] (body ++ c :: rest) = some rest := by
  induction body with
  | nil => simp [after?]
  | cons d body ih =>
    simp only [List.mem_cons, not_or] at h
    have hp : List.isPrefixOf [c] (d :: (body ++ c :: rest)) = false := by
      simp [List.isPrefixOf, h.1]
    rw [List.cons_append, after?, hp]
    exact ih h.2

/-- The end of a comment does not begin in a body without one. -/
theorem after?_comment {body : List Char} (h : ¬ ['-', '-', '>'] <:+: body) (rest : List Char) :
    after? ['-', '-', '>'] (body ++ '-' :: '-' :: '>' :: rest) = some rest := by
  induction body with
  | nil => simp [after?, List.isPrefixOf]
  | cons c body ih =>
    have hp : List.isPrefixOf ['-', '-', '>'] (c :: (body ++ '-' :: '-' :: '>' :: rest)) =
        false := by
      refine Bool.eq_false_iff.mpr fun hp => ?_
      -- the mark would have to overlap with the end of the body, where a dash meets a bracket
      cases body with
      | nil => simp [List.isPrefixOf] at hp
      | cons d body =>
        cases body with
        | nil => simp [List.isPrefixOf] at hp
        | cons e body =>
          simp only [List.cons_append, List.isPrefixOf, Bool.and_eq_true, beq_iff_eq] at hp
          obtain ⟨rfl, rfl, rfl, _⟩ := hp
          exact h ⟨[], body, rfl⟩
    rw [List.cons_append, after?, hp]
    exact ih fun hin => h (hin.trans (List.suffix_cons c body).isInfix)

theorem next_declaration {r : List Char} (h : ¬ ['-', '-'] <+: r) :
    next '<' ('!' :: r) = skipPast .unterminatedTag ('<' :: '!' :: r) ['>'] r := by
  unfold next
  rw [if_pos rfl]
  split <;> rename_i hr <;> cases hr
  · exact absurd ⟨_, rfl⟩ h
  · rfl
  · rename_i hne _ _ _
    exact absurd rfl hne

theorem next_aside {u : List Char} (hu : Aside u) :
    ∃ cs, u = '<' :: cs ∧ ∀ rest, next '<' (cs ++ rest) = .ok (none, rest) := by
  cases hu with
  | @comment body h =>
    refine ⟨_, rfl, fun rest => ?_⟩
    have hnext : next '<' ('!' :: '-' :: '-' :: (body ++ '-' :: '-' :: '>' :: rest)) =
        skipPast .unterminatedComment
          ('<' :: '!' :: '-' :: '-' :: (body ++ '-' :: '-' :: '>' :: rest)) ['-', '-', '>']
          (body ++ '-' :: '-' :: '>' :: rest) := rfl
    rw [skipPast, after?_comment h] at hnext
    simpa using hnext
  | @instruction body h =>
    refine ⟨_, rfl, fun rest => ?_⟩
    have hnext : next '<' ('?' :: (body ++ '>' :: rest)) =
        skipPast .unterminatedTag ('<' :: '?' :: (body ++ '>' :: rest)) ['>']
          (body ++ '>' :: rest) := rfl
    rw [skipPast, after?_char h] at hnext
    simpa using hnext
  | @declaration body h hd =>
    refine ⟨_, rfl, fun rest => ?_⟩
    have hdash : ¬ ['-', '-'] <+: body ++ '>' :: rest := by
      rcases body with _ | ⟨c, _ | ⟨c', body⟩⟩
      · simp
      · simp
      · simpa using hd
    have hnext := next_declaration hdash
    rw [skipPast, after?_char h] at hnext
    simpa using hnext

theorem scan_asides {gap : List Char} (hg : Asides gap) {rest : List Char} {ts : List Token}
    (h : scan rest = .ok ts) : scan (gap ++ rest) = .ok ts := by
  induction hg with
  | nil => exact h
  | cons hu _ ih =>
    obtain ⟨cs, rfl, hnext⟩ := next_aside hu
    rw [List.append_assoc, List.cons_append, scan_cons (hnext _) ih]
    rfl

/-! ## Layouts are read back -/

theorem head?_asides {gap rest : List Char} (hg : Asides gap) (h : ∀ x ∈ rest.head?, x = '<') :
    ∀ x ∈ (gap ++ rest).head?, x = '<' := by
  cases hg with
  | nil => exact h
  | cons hu hv =>
    obtain ⟨cs, rfl, _⟩ := next_aside hu
    simp

/-- A layout begins with a bracket unless its first token is a text. -/
theorem head?_layout {ts : List Token} {cs : List Char} (h : Layout ts cs) (hts : Fresh ts) :
    ∀ x ∈ cs.head?, x = '<' := by
  cases h with
  | nil hg =>
    have hhead := head?_asides hg (show ∀ x ∈ [].head?, x = '<' by simp)
    simpa using hhead
  | cons hg ht _ =>
    refine head?_asides hg ?_
    cases ht with
    | text s => cases hts
    | opening | closing => simp

theorem scan_layout {ts : List Token} {cs : List Char} (h : Layout ts cs)
    (hl : ∀ t ∈ ts, t.Legible) (hs : Separate ts) : scan cs = .ok ts := by
  induction h with
  | nil hg => simpa using scan_asides hg (show scan [] = .ok [] by rw [scan])
  | cons hg ht hts ih =>
    have hrest := ih (fun t' ht' => hl t' (List.mem_cons_of_mem _ ht')) hs.2
    refine scan_asides hg (scan_written (hl _ List.mem_cons_self) ht hrest fun htext => ?_)
    exact ⟨hs.1 htext, head?_layout hts (hs.1 htext)⟩

/-! ## Tokens that were read -/

theorem endsName_of_isAlpha {c : Char} (h : c.isAlpha = true) : endsName c = false := by
  have hblank : ∀ n ∈ blankPoints, (Char.ofNat n).isAlpha = false := by decide
  refine Bool.eq_false_iff.mpr fun hends => ?_
  simp only [endsName, Bool.or_eq_true, beq_iff_eq] at hends
  rcases hends with ((hb | rfl) | rfl) | rfl
  · have hc := hblank c.toNat (by simpa [isBlank] using hb)
    rw [Char.ofNat_toNat, h] at hc
    cases hc
  · cases h
  · cases h
  · cases h

theorem isName_ofList {c : Char} (hc : endsName c = false) (r : List Char) :
    isName (String.ofList (c :: r.takeWhile (!endsName ·))) = true := by
  simp [isName, hc]

theorem legible_closingTag {start r rest : List Char} {t : Token}
    (h : closingTag start r = .ok (some t, rest)) : t.Legible := by
  unfold closingTag at h
  split at h
  · cases h
  · dsimp only at h
    split at h
    · cases h
    · rename_i hne
      cases h
      refine ⟨by simpa using hne, fun hgt => ?_, ?_⟩
      · rw [String.toList_ofList] at hgt
        exact not_mem_takeWhile _ _ (mem_of_mem_trim hgt)
      · rw [String.toList_ofList, trim_trim]

theorem name_attributeAfter {name r rest : List Char} {a : Attribute}
    (h : attributeAfter name r = .ok (a, rest)) : a.name = String.ofList name := by
  unfold attributeAfter at h
  split at h
  · split at h
    · cases h
      rfl
    · cases h
  · cases h
    rfl

theorem isName_tagRest {start cs rest : List Char} {as : List Attribute} {b : Bool}
    (h : tagRest start cs = .ok (as, b, rest)) : ∀ a ∈ as, isName a.name = true := by
  fun_induction tagRest start cs generalizing as b rest with
  | case1 => cases h
  | case2 => cases h; simp
  | case3 => cases h; simp
  | case4 cs c r _ _ _ _ ih => exact ih h
  | case5 => cases h
  | case6 => cases h
  | case7 cs c r _ _ _ hc a rest' ha as' b' rest'' hr ih =>
    cases h
    refine List.forall_mem_cons.mpr ⟨?_, ih hr⟩
    rw [name_attributeAfter ha]
    exact isName_ofList (by simpa using hc) r

theorem legible_openingTag {start r rest : List Char} {d : Char} (hd : d.isAlpha = true) {t : Token}
    (h : openingTag start (d :: r) = .ok (some t, rest)) : t.Legible := by
  unfold openingTag at h
  split at h
  · rename_i htag
    cases h
    have hd' := endsName_of_isAlpha hd
    refine ⟨?_, isName_tagRest htag⟩
    rw [List.takeWhile_cons, if_pos (by simp [hd']), isTag, isName_ofList hd', String.toList_ofList]
    simp [hd]
  · cases h

theorem legible_next {c : Char} {cs rest : List Char} {t : Token}
    (h : next c cs = .ok (some t, rest)) : t.Legible := by
  have hskip : ∀ {cause start mark r}, skipPast cause start mark r ≠ .ok (some t, rest) := by
    intro cause start mark r hs
    unfold skipPast at hs
    split at hs <;> cases hs
  rcases next_cases c cs with
    ⟨r, _, hn⟩ | ⟨m, r, _, _, hn⟩ | ⟨r, _, hn⟩ | ⟨d, r, _, hd, hn⟩ | hn <;> rw [hn] at h
  · exact absurd h hskip
  · exact absurd h hskip
  · exact legible_closingTag h
  · exact legible_openingTag hd h
  · cases h
    have hne := Entity.decode_ne_nil (List.cons_ne_nil c (cs.takeWhile (· != '<')))
    simpa [Legible] using hne

theorem legible_prepend {t : Option Token} {ts : List Token} (ht : ∀ u ∈ t, u.Legible)
    (hl : ∀ u ∈ ts, u.Legible) (hs : Separate ts) :
    (∀ u ∈ prepend t ts, u.Legible) ∧ Separate (prepend t ts) := by
  cases t with
  | none => exact ⟨hl, hs⟩
  | some t =>
    by_cases hfresh : t.isText = true → Fresh ts
    · rw [prepend_of_fresh hfresh]
      exact ⟨List.forall_mem_cons.mpr ⟨ht t rfl, hl⟩, hfresh, hs⟩
    · rw [Classical.not_imp] at hfresh
      obtain ⟨htext, hhead⟩ := hfresh
      cases t with
      | opening | closing => cases htext
      | text a =>
        -- the text joins the first of the others, which was a text as well
        cases ts with
        | nil => exact absurd rfl hhead
        | cons u ts =>
          cases u with
          | opening | closing => exact absurd rfl hhead
          | text b =>
            have ha : a ≠ "" := ht _ rfl
            have hab : a ++ b ≠ "" := by simp [ha]
            simp only [List.forall_mem_cons] at hl
            exact ⟨List.forall_mem_cons.mpr ⟨hab, hl.2⟩, hs⟩

/-- Whatever a source holds, its tokens can be read back, and its texts are apart. -/
theorem legible_scan {cs : List Char} {ts : List Token} (h : scan cs = .ok ts) :
    (∀ t ∈ ts, t.Legible) ∧ Separate ts := by
  fun_induction scan cs generalizing ts with
  | case1 => cases h; simp [Separate]
  | case2 => cases h
  | case3 => cases h
  | case4 c cs t rest hn ts' hs ih =>
    cases h
    obtain ⟨hl, hsep⟩ := ih hs
    refine legible_prepend (fun u hu => ?_) hl hsep
    cases hu
    exact legible_next hn

/-- The tokens of a source are the tokens of all its layouts. -/
theorem readAll_layout {source source' : String} {ts : List Token}
    (h : readAll source = .ok ts) (hlayout : Layout ts source'.toList) :
    readAll source' = .ok ts := by
  have hscan : scan source.toList = .ok ts := by
    unfold readAll at h
    split at h
    · cases h
      assumption
    · cases h
  obtain ⟨hl, hs⟩ := legible_scan hscan
  rw [readAll, scan_layout hlayout hl hs]

/-- Quotes, white space, comments and declarations change, and the tokens stay. -/
theorem readAll_layout_tidied :
    readAll "<a/x='\"&lt;' y>1 &<!-- c --> 2</ a >" =
        .ok [.opening "a" [⟨"x", "\"<"⟩, ⟨"y", ""⟩] false, .text "1 & 2", .closing "a"] ∧
      Layout [.opening "a" [⟨"x", "\"<"⟩, ⟨"y", ""⟩] false, .text "1 & 2", .closing "a"]
        "<?b c?><a\n x=\"&quot;&lt;\" y ><!-- > --><!d>1 &amp; 2</a\t>".toList ∧
      readAll "<?b c?><a\n x=\"&quot;&lt;\" y ><!-- > --><!d>1 &amp; 2</a\t>" =
        .ok [.opening "a" [⟨"x", "\"<"⟩, ⟨"y", ""⟩] false, .text "1 & 2", .closing "a"] := by
  have hblanks : ∀ {w : List Char}, w.all isBlank = true → Blanks w := List.all_eq_true.mp
  have hx : Attribute.Written ⟨"x", "\"<"⟩ _ :=
    .quoted (w := ['\n', ' ']) (q := '"') (hblanks (by decide)) (by simp) (.inl rfl)
  have hy : Attribute.Written ⟨"y", ""⟩ _ :=
    .bare (w := [' ']) (hblanks (by decide)) (by simp) rfl
  have hopening := Written.opening "a" false (.cons hx (.cons hy .nil)) (w := [' '])
    (hblanks (by decide))
  have hclosing := Written.closing "a" (w := []) (hblanks rfl)
    (show Blanks ['\t'] from hblanks (by decide))
  have hfirst := Asides.cons (@Aside.instruction ['b', ' ', 'c', '?'] (by decide)) .nil
  have hsecond := Asides.cons (@Aside.comment [' ', '>', ' '] (by decide))
    (.cons (@Aside.declaration ['d'] (by decide) (by decide)) .nil)
  have hcons := Layout.cons hfirst hopening
    (.cons hsecond (.text "1 & 2") (.cons .nil hclosing (.nil .nil)))
  have hlayout : Layout [.opening "a" [⟨"x", "\"<"⟩, ⟨"y", ""⟩] false, .text "1 & 2", .closing "a"]
      "<?b c?><a\n x=\"&quot;&lt;\" y ><!-- > --><!d>1 &amp; 2</a\t>".toList := by
    refine Eq.mp (congrArg _ ?_) hcons
    decide +kernel
  have hread : readAll "<a/x='\"&lt;' y>1 &<!-- c --> 2</ a >" =
      .ok [.opening "a" [⟨"x", "\"<"⟩, ⟨"y", ""⟩] false, .text "1 & 2", .closing "a"] := by
    with_unfolding_all rfl
  exact ⟨hread, hlayout, readAll_layout hread hlayout⟩

end Token
end Stencil.Markup

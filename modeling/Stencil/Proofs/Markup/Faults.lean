import Stencil.Proofs.Markup.Scanning

/-! Faults of a source, and the places that are given for them. A fault is reported as a byte
offset at which a character begins, and what stands there shows the fault: a comment, a tag or
a quotation that does not end, or a closing tag without a name. -/
namespace Stencil.Markup
open Text

/-- Where a character of an opening tag stands: in the name of the tag, between attributes,
in or after the name of one, before its value, in a value without quotes, in a value that
ends with the quote `q`, or after the tag. -/
inductive Spot where
  | tag
  | between
  | named
  | valued
  | bare
  | quoted (q : Char)
  | closed
  deriving DecidableEq

namespace Spot

/-- The spot of the next character. -/
def move : Spot → Char → Spot
  | .tag, c => if c = '>' then .closed else if Token.endsName c then .between else .tag
  | .between, c => if c = '>' then .closed else if Token.endsName c then .between else .named
  | .named, c =>
    if c = '>' then .closed else if c = '/' then .between else if c = '=' then .valued else .named
  | .valued, c =>
    if c = '>' then .closed else if isBlank c then .valued
    else if c = '"' ∨ c = '\'' then .quoted c else .bare
  | .bare, c => if c = '>' then .closed else if isBlank c then .between else .bare
  | .quoted q, c => if c = q then .between else .quoted q
  | .closed, _ => .closed

/-- Every closing bracket of a text that begins at the spot lies inside a quoted value, which
ends after it. -/
def Guards (σ : Spot) (cs : List Char) : Prop :=
  ∀ before after, cs = before ++ '>' :: after → ∃ q, before.foldl move σ = .quoted q ∧ q ∈ after

end Spot

/-- What the characters from a place on show of a fault. -/
def TokenCause.Shows : TokenCause → List Char → Prop
  | .unterminatedComment, place =>
    ∃ r, place = '<' :: '!' :: '-' :: '-' :: r ∧ ¬ ['-', '-', '>'] <:+: r
  | .missingTagName, place => ∃ w r, place = '<' :: '/' :: (w ++ '>' :: r) ∧ Blanks w
  | .unterminatedValue, place => ∃ q r, place = q :: r ∧ (q = '"' ∨ q = '\'') ∧ q ∉ r
  | .unterminatedTag, place =>
    (∃ m r, place = '<' :: m :: r ∧ (m = '?' ∨ m = '!' ∨ m = '/') ∧ '>' ∉ r) ∨
      ∃ d r, place = '<' :: d :: r ∧ d.isAlpha = true ∧ Spot.tag.Guards (d :: r)

/-! ## Walking through a tag -/

namespace Spot

variable {σ : Spot} {u v cs : List Char}

theorem guards_nil (σ : Spot) : σ.Guards [] := by
  intro before after h
  cases before <;> cases h

theorem guards_cons {c : Char} :
    σ.Guards (c :: cs) ↔ (c = '>' → ∃ q, σ = .quoted q ∧ q ∈ cs) ∧ (σ.move c).Guards cs := by
  constructor
  · intro h
    refine ⟨?_, fun before after hcs => ?_⟩
    · rintro rfl
      exact h [] cs rfl
    · exact h (c :: before) after (by rw [hcs]; rfl)
  · rintro ⟨hc, hcs⟩ before after h
    cases before with
    | nil =>
      cases h
      exact hc rfl
    | cons d before =>
      cases h
      exact hcs before after rfl

theorem guards_cons_of_unquoted {c : Char} (hσ : ∀ q, σ ≠ .quoted q) :
    σ.Guards (c :: cs) ↔ c ≠ '>' ∧ (σ.move c).Guards cs := by
  have hnone : ¬ ∃ q, σ = .quoted q ∧ q ∈ cs := fun ⟨q, hq, _⟩ => hσ q hq
  rw [guards_cons, imp_iff_not hnone]

/-- Characters that leave the spot as it is, and are no closing brackets, can be passed. -/
theorem guards_append (hgt : '>' ∉ u) (hu : ∀ c ∈ u, σ.move c = σ) (hv : σ.Guards v) :
    σ.Guards (u ++ v) := by
  induction u with
  | nil => exact hv
  | cons c u ih =>
    rw [List.mem_cons, not_or] at hgt
    rw [List.forall_mem_cons] at hu
    rw [List.cons_append, guards_cons, hu.1]
    exact ⟨fun hc => absurd hc.symm hgt.1, ih hgt.2 hu.2⟩

theorem ne_of_isBlank {c d : Char} (hc : isBlank c = true) (hd : isBlank d = false) : c ≠ d := by
  rintro rfl
  rw [hc] at hd
  cases hd

/-- White space leaves the spot as it is, unless it ends the name of the tag or a value. -/
theorem guards_of_trimStart (hσ : σ = .between ∨ σ = .named ∨ σ = .valued)
    (h : σ.Guards (trimStart cs)) : σ.Guards cs := by
  obtain ⟨w, hw, hcs⟩ := Text.exists_trimStart cs
  rw [hcs]
  refine guards_append (Token.gt_not_mem_blanks hw) (fun c hc => ?_) h
  have hblank := hw c hc
  have hgt := ne_of_isBlank hblank (d := '>') (by decide)
  have hslash := ne_of_isBlank hblank (d := '/') (by decide)
  have heq := ne_of_isBlank hblank (d := '=') (by decide)
  rcases hσ with rfl | rfl | rfl <;>
    simp [move, hgt, hslash, heq, hblank, Token.endsName_of_isBlank hblank]

/-- A name goes on until a character ends it. -/
theorem guards_name (hu : ∀ c ∈ u, Token.endsName c = false) (hσ : σ = .tag ∨ σ = .named)
    (hv : σ.Guards v) : σ.Guards (u ++ v) := by
  refine guards_append (fun hgt => absurd (hu _ hgt) (by decide)) (fun c hc => ?_) hv
  have hends := hu c hc
  simp only [Token.endsName, Bool.or_eq_false_iff, beq_eq_false_iff_ne] at hends
  obtain ⟨⟨⟨hblank, hgt⟩, hslash⟩, heq⟩ := hends
  rcases hσ with rfl | rfl <;> simp [move, Token.endsName, hgt, hslash, heq, hblank]

/-- Attributes begin where the name of the tag ends. -/
theorem guards_tag (h : between.Guards cs) (hcs : ∀ c ∈ cs.head?, Token.endsName c = true) :
    tag.Guards cs := by
  cases cs with
  | nil => exact guards_nil _
  | cons c cs =>
    rw [guards_cons_of_unquoted (by simp)] at h ⊢
    simpa [move, hcs c rfl] using h

/-- A quoted value holds whatever stands before its closing quote. -/
theorem guards_quoted {q : Char} (hq : q ≠ '>') (hv : q ∉ v) (h : between.Guards cs) :
    (quoted q).Guards (v ++ q :: cs) := by
  induction v with
  | nil =>
    have hcloses : (quoted q).move q = .between := if_pos rfl
    rw [List.nil_append, guards_cons, hcloses]
    exact ⟨fun hgt => absurd hgt hq, h⟩
  | cons c v ih =>
    rw [List.mem_cons, not_or] at hv
    have hstays : (quoted q).move c = .quoted q := if_neg fun hc => hv.1 hc.symm
    rw [List.cons_append, guards_cons, hstays]
    exact ⟨fun _ => ⟨q, rfl, by simp⟩, ih hv.2⟩

/-- After a name without a value, attributes go on. -/
theorem guards_named (h : between.Guards cs) (hcs : ∀ r, trimStart cs ≠ '=' :: r) :
    named.Guards cs := by
  induction cs with
  | nil => exact guards_nil _
  | cons c cs ih =>
    rw [guards_cons_of_unquoted (by simp)] at h ⊢
    obtain ⟨hgt, h⟩ := h
    refine ⟨hgt, ?_⟩
    -- white space keeps the two spots apart; a slash or the next name brings them together
    cases hblank : isBlank c with
    | true =>
      have hslash := ne_of_isBlank hblank (d := '/') (by decide)
      have heq := ne_of_isBlank hblank (d := '=') (by decide)
      have hends := Token.endsName_of_isBlank hblank
      have htrim : trimStart (c :: cs) = trimStart cs := by simp [trimStart, hblank]
      rw [htrim] at hcs
      simp only [move, hgt, hslash, heq, hends, if_true, if_false] at h ⊢
      exact ih h hcs
    | false =>
      have heq : c ≠ '=' := by
        rintro rfl
        exact hcs cs (Text.trimStart_cons hblank cs)
      by_cases hslash : c = '/'
      · subst hslash
        exact h
      · have hends : Token.endsName c = false := by simp [Token.endsName, hblank, hgt, hslash, heq]
        simp only [move, hgt, hslash, heq, hends, if_false, Bool.false_eq_true] at h ⊢
        exact h

/-- The slashes that a value without quotes leaves are followed by its end. -/
theorem guards_bare (h : between.Guards cs) (hcs : ∀ c ∈ cs.takeWhile Token.isBare, c = '/') :
    bare.Guards cs := by
  induction cs with
  | nil => exact guards_nil _
  | cons c cs ih =>
    rw [guards_cons_of_unquoted (by simp)] at h ⊢
    obtain ⟨hgt, h⟩ := h
    refine ⟨hgt, ?_⟩
    cases hblank : isBlank c with
    | true =>
      simp only [move, hgt, hblank, Token.endsName_of_isBlank hblank, if_true, if_false] at h ⊢
      exact h
    | false =>
      have hbare : Token.isBare c = true := by simp [Token.isBare, hblank, hgt]
      rw [List.takeWhile_cons_of_pos hbare, List.forall_mem_cons] at hcs
      obtain ⟨rfl, hcs⟩ := hcs
      exact ih h hcs

/-- A value without quotes, which may be empty, ends before the slashes it leaves. -/
theorem guards_valued (hbare : ∀ c ∈ v, Token.isBare c = true)
    (hhead : ∀ c ∈ (v ++ cs).head?, isBlank c = false ∧ c ≠ '"' ∧ c ≠ '\'')
    (hcs : ∀ c ∈ cs.takeWhile Token.isBare, c = '/') (h : between.Guards cs) :
    valued.Guards (v ++ cs) := by
  -- the first character makes no difference between a value that begins and one that goes on
  have hall : bare.Guards (v ++ cs) := by
    refine guards_append (fun hgt => absurd (hbare _ hgt) (by decide)) (fun c hc => ?_)
      (guards_bare h hcs)
    have hc := hbare c hc
    simp only [Token.isBare, Bool.and_eq_true, Bool.not_eq_true', bne_iff_ne] at hc
    simp [move, hc.1, hc.2]
  cases hv : v ++ cs with
  | nil => exact guards_nil _
  | cons c r =>
    rw [hv] at hall hhead
    obtain ⟨hblank, hdouble, hsingle⟩ := hhead c rfl
    rw [guards_cons_of_unquoted (by simp)] at hall ⊢
    obtain ⟨hgt, hr⟩ := hall
    refine ⟨hgt, ?_⟩
    simpa [move, hgt, hblank, hdouble, hsingle] using hr

end Spot

namespace Token

/-! ## Values -/

theorem not_mem_of_dropWhile {q : Char} {cs : List Char} (h : cs.dropWhile (· != q) = []) :
    q ∉ cs := by
  have happ := List.takeWhile_append_dropWhile (p := (· != q)) (l := cs)
  rw [h, List.append_nil] at happ
  rw [← happ]
  exact not_mem_takeWhile q cs

theorem exists_of_dropWhile {q d : Char} {cs rest : List Char}
    (h : cs.dropWhile (· != q) = d :: rest) :
    cs = cs.takeWhile (· != q) ++ q :: rest ∧ q ∉ cs.takeWhile (· != q) := by
  have happ := List.takeWhile_append_dropWhile (p := (· != q)) (l := cs)
  have hd := List.head?_dropWhile_not (· != q) cs
  rw [h] at happ hd
  have hdq : d = q := by simpa using hd
  subst hdq
  exact ⟨happ.symm, not_mem_takeWhile d cs⟩

theorem takeWhile_dropWhile_eq_nil (p : Char → Bool) (cs : List Char) :
    (cs.dropWhile p).takeWhile p = [] := by
  induction cs with
  | nil => rfl
  | cons c cs ih => cases hc : p c <;> simp [hc, ih]

theorem exists_slashes (cs : List Char) :
    ∃ slashes, cs.takeWhile isBare = bareValue cs ++ slashes ∧ ∀ c ∈ slashes, c = '/' := by
  have hall := List.all_eq_true.mp
    (List.all_takeWhile (l := (cs.takeWhile isBare).reverse) (p := (· == '/')))
  refine ⟨((cs.takeWhile isBare).reverse.takeWhile (· == '/')).reverse, ?_, fun c hc => ?_⟩
  · rw [bareValue, ← List.reverse_append, List.takeWhile_append_dropWhile, List.reverse_reverse]
  · simpa using hall c (List.mem_reverse.mp hc)

/-- A value without quotes leaves nothing of its run but slashes. -/
theorem bareValue_spec (cs : List Char) :
    (∀ c ∈ bareValue cs, isBare c = true) ∧ bareValue cs ++ cs.drop (bareValue cs).length = cs ∧
      ∀ c ∈ (cs.drop (bareValue cs).length).takeWhile isBare, c = '/' := by
  obtain ⟨slashes, hrun, hslash⟩ := exists_slashes cs
  have hbare := List.all_eq_true.mp (List.all_takeWhile (l := cs) (p := isBare))
  have hcs : cs = bareValue cs ++ (slashes ++ cs.dropWhile isBare) := by
    rw [← List.append_assoc, ← hrun, List.takeWhile_append_dropWhile]
  have hdrop : cs.drop (bareValue cs).length = slashes ++ cs.dropWhile isBare := by
    have hlen := congrArg (List.drop (bareValue cs).length) hcs
    rwa [List.drop_left] at hlen
  rw [hdrop]
  refine ⟨fun c hc => hbare c ?_, hcs.symm, ?_⟩
  · rw [hrun]
    exact List.mem_append_left _ hc
  · have hslash' : ∀ c ∈ slashes, isBare c = true := fun c hc => by
      rw [hslash c hc]
      decide
    rwa [List.takeWhile_append_of_pos hslash', takeWhile_dropWhile_eq_nil, List.append_nil]

/-- A value that ends leads from the spot before it to the spots between attributes. -/
theorem guards_attributeValue {cs v rest : List Char} (h : attributeValue cs = .ok (v, rest))
    (hcs : ∀ c ∈ cs.head?, isBlank c = false) (hrest : Spot.between.Guards rest) :
    Spot.valued.Guards cs := by
  have hquoted : ∀ {start q r}, quotedValue start q r = .ok (v, rest) → (q = '"' ∨ q = '\'') →
      Spot.valued.Guards (q :: r) := by
    intro start q r hr hq
    unfold quotedValue at hr
    split at hr
    · cases hr
    · rename_i hdrop
      cases hr
      obtain ⟨happ, hnot⟩ := exists_of_dropWhile hdrop
      have hgt : q ≠ '>' := by
        rcases hq with rfl | rfl <;> decide
      have hopens : Spot.valued.move q = .quoted q := by
        rcases hq with rfl | rfl <;> decide
      rw [happ, Spot.guards_cons_of_unquoted (by simp), hopens]
      exact ⟨hgt, Spot.guards_quoted hgt hnot hrest⟩
  unfold attributeValue at h
  split at h
  · exact hquoted h (.inl rfl)
  · exact hquoted h (.inr rfl)
  · rename_i hdouble hsingle
    cases h
    obtain ⟨hbare, happ, hslash⟩ := bareValue_spec cs
    rw [← happ]
    refine Spot.guards_valued hbare ?_ hslash hrest
    rw [happ]
    intro c hc
    obtain ⟨r, rfl⟩ := List.head?_eq_some_iff.mp hc
    refine ⟨hcs c hc, ?_, ?_⟩
    · rintro rfl
      exact hdouble r rfl
    · rintro rfl
      exact hsingle r rfl

theorem error_attributeValue {cs : List Char} {e : Fault} (h : attributeValue cs = .error e) :
    e.1.Shows e.2 ∧ e.2 <:+ cs := by
  have hquoted : ∀ {q r}, quotedValue (q :: r) q r = .error e → (q = '"' ∨ q = '\'') →
      e.1.Shows e.2 ∧ e.2 <:+ q :: r := by
    intro q r hr hq
    unfold quotedValue at hr
    split at hr
    · rename_i hdrop
      cases hr
      exact ⟨⟨q, r, rfl, hq, not_mem_of_dropWhile hdrop⟩, List.suffix_refl _⟩
    · cases hr
  unfold attributeValue at h
  split at h
  · exact hquoted h (.inl rfl)
  · exact hquoted h (.inr rfl)
  · cases h

/-! ## Tags -/

theorem endsName_takeWhile (r : List Char) :
    ∀ c ∈ r.takeWhile (!endsName ·), endsName c = false := by
  have hall := List.all_eq_true.mp (List.all_takeWhile (l := r) (p := (!endsName ·)))
  intro c hc
  simpa using hall c hc

/-- An attribute leads from the end of its name to the spots between attributes. -/
theorem guards_attributeAfter {name r rest : List Char} {a : Attribute}
    (h : attributeAfter name r = .ok (a, rest)) (hrest : Spot.between.Guards rest) :
    Spot.named.Guards r := by
  unfold attributeAfter at h
  split at h
  · rename_i r' hr
    split at h
    · rename_i v rest' hv
      cases h
      have hhead : ∀ c ∈ (trimStart r').head?, isBlank c = false := by
        rcases trimStart_cases r' with hnil | ⟨d, l, hd, hblank⟩
        · simp [hnil]
        · simpa [hd] using hblank
      have hvalue := Spot.guards_of_trimStart (.inr (.inr rfl))
        (guards_attributeValue hv hhead hrest)
      refine Spot.guards_of_trimStart (.inr (.inl rfl)) ?_
      rw [hr, Spot.guards_cons_of_unquoted (by simp)]
      exact ⟨by decide, hvalue⟩
    · cases h
  · rename_i hequals
    cases h
    exact Spot.guards_named hrest hequals

theorem error_attributeAfter {name r : List Char} {e : Fault}
    (h : attributeAfter name r = .error e) : e.1.Shows e.2 ∧ e.2 <:+ r := by
  unfold attributeAfter at h
  split at h
  · rename_i r' hr
    split at h
    · cases h
    · rename_i hv
      cases h
      obtain ⟨hshows, hsuffix⟩ := error_attributeValue hv
      exact ⟨hshows, hsuffix.trans ((trimStart_suffix r').trans (suffix_of_trimStart hr))⟩
  · cases h

/-- The attributes of a tag fail at a value, or because nothing ends the tag. -/
theorem error_tagRest {start cs : List Char} {e : Fault} (h : tagRest start cs = .error e) :
    (e = (.unterminatedTag, start) ∧ Spot.between.Guards cs) ∨ (e.1.Shows e.2 ∧ e.2 <:+ cs) := by
  -- a fault of the whole tag comes from its end, past attributes that each lead on
  fun_induction tagRest start cs with
  | case1 cs ht =>
    cases h
    refine .inl ⟨rfl, Spot.guards_of_trimStart (.inl rfl) ?_⟩
    rw [ht]
    exact Spot.guards_nil _
  | case2 => cases h
  | case3 => cases h
  | case4 cs c r ht hgt _ hends ih =>
    rcases ih h with ⟨he, hr⟩ | ⟨hshows, hr⟩
    · refine .inl ⟨he, Spot.guards_of_trimStart (.inl rfl) ?_⟩
      rw [ht, Spot.guards_cons_of_unquoted (by simp)]
      exact ⟨hgt, by simpa [Spot.move, hgt, hends] using hr⟩
    · exact .inr ⟨hshows, hr.trans (suffix_of_trimStart ht)⟩
  | case5 cs c r ht _ _ _ e' ha =>
    cases h
    obtain ⟨hshows, hr⟩ := error_attributeAfter ha
    exact .inr ⟨hshows, hr.trans ((List.dropWhile_suffix _).trans (suffix_of_trimStart ht))⟩
  | case6 cs c r ht hgt _ hends a rest ha e' he ih =>
    cases h
    rcases ih he with ⟨he, hrest⟩ | ⟨hshows, hrest⟩
    · refine .inl ⟨he, Spot.guards_of_trimStart (.inl rfl) ?_⟩
      have hafter := Spot.guards_name (endsName_takeWhile r) (.inr rfl)
        (guards_attributeAfter ha hrest)
      rw [List.takeWhile_append_dropWhile] at hafter
      rw [ht, Spot.guards_cons_of_unquoted (by simp)]
      exact ⟨hgt, by simpa [Spot.move, hgt, hends] using hafter⟩
    · exact .inr ⟨hshows, hrest.trans ((suffix_attributeAfter ha).trans
        ((List.dropWhile_suffix _).trans (suffix_of_trimStart ht)))⟩
  | case7 => cases h

theorem error_openingTag {d : Char} {r : List Char} {e : Fault} (hd : d.isAlpha = true)
    (h : openingTag ('<' :: d :: r) (d :: r) = .error e) :
    e.1.Shows e.2 ∧ e.2 <:+ '<' :: d :: r := by
  unfold openingTag at h
  split at h
  · cases h
  · rename_i htag
    cases h
    rcases error_tagRest htag with ⟨rfl, hguards⟩ | ⟨hshows, hsuffix⟩
    · refine ⟨.inr ⟨d, r, rfl, hd, ?_⟩, List.suffix_refl _⟩
      have hhead := List.head?_dropWhile_not (!endsName ·) (d :: r)
      rw [← List.takeWhile_append_dropWhile (p := (!endsName ·)) (l := d :: r)]
      refine Spot.guards_name (endsName_takeWhile _) (.inl rfl)
        (Spot.guards_tag hguards fun c hc => ?_)
      rw [Option.mem_def.mp hc] at hhead
      simpa using hhead
    · exact ⟨hshows, hsuffix.trans ((List.dropWhile_suffix _).trans (List.suffix_cons _ _))⟩

theorem error_closingTag {r : List Char} {e : Fault}
    (h : closingTag ('<' :: '/' :: r) r = .error e) :
    e.1.Shows e.2 ∧ e.2 = '<' :: '/' :: r := by
  unfold closingTag at h
  split at h
  · rename_i hdrop
    cases h
    exact ⟨.inl ⟨'/', r, rfl, by simp, not_mem_of_dropWhile hdrop⟩, rfl⟩
  · rename_i rest hdrop
    dsimp only at h
    split at h
    · rename_i htrim
      cases h
      refine ⟨⟨r.takeWhile (· != '>'), rest, ?_, blanks_of_trim htrim⟩, rfl⟩
      rw [← (exists_of_dropWhile hdrop).1]
    · cases h

/-! ## Sources -/

theorem not_infix_of_after? {mark cs : List Char} (hmark : mark ≠ []) (h : after? mark cs = none) :
    ¬ mark <:+: cs := by
  induction cs with
  | nil => simpa using hmark
  | cons c cs ih =>
    rw [after?] at h
    split at h
    · cases h
    · rename_i hprefix
      rw [List.infix_cons_iff]
      exact fun hin => hin.elim (fun hp => hprefix (List.isPrefixOf_iff_prefix.mpr hp)) (ih h)

theorem error_skipPast {cause : TokenCause} {start mark r : List Char} {e : Fault}
    (hmark : mark ≠ []) (h : skipPast cause start mark r = .error e) :
    e = (cause, start) ∧ ¬ mark <:+: r := by
  unfold skipPast at h
  split at h
  · cases h
  · rename_i hnone
    cases h
    exact ⟨rfl, not_infix_of_after? hmark hnone⟩

/-- A construct that fails shows its fault, at its beginning or inside it. -/
theorem error_next {c : Char} {cs : List Char} {e : Fault} (h : next c cs = .error e) :
    e.1.Shows e.2 ∧ e.2 <:+ c :: cs := by
  rcases next_cases c cs with
    ⟨r, hr, hn⟩ | ⟨m, r, hr, hm, hn⟩ | ⟨r, hr, hn⟩ | ⟨d, r, hr, hd, hn⟩ | hn <;> rw [hn] at h
  · obtain ⟨rfl, hnot⟩ := error_skipPast (by simp) h
    exact ⟨⟨r, hr, hnot⟩, List.suffix_refl _⟩
  · obtain ⟨rfl, hnot⟩ := error_skipPast (by simp) h
    refine ⟨.inl ⟨m, r, hr, hm.imp_right .inl, fun hgt => hnot ?_⟩, List.suffix_refl _⟩
    obtain ⟨u, v, rfl⟩ := List.append_of_mem hgt
    exact ⟨u, v, by simp⟩
  · rw [hr] at h ⊢
    obtain ⟨hshows, hplace⟩ := error_closingTag h
    exact ⟨hshows, hplace ▸ List.suffix_refl _⟩
  · rw [hr] at h ⊢
    exact error_openingTag hd h
  · cases h

theorem error_scan {cs : List Char} {e : Fault} (h : scan cs = .error e) :
    e.1.Shows e.2 ∧ e.2 <:+ cs := by
  fun_induction scan cs with
  | case1 => cases h
  | case2 c cs e' hn =>
    cases h
    exact error_next hn
  | case3 c cs t rest hn e' hs ih =>
    cases h
    obtain ⟨hshows, hsuffix⟩ := ih hs
    exact ⟨hshows, hsuffix.trans ((suffix_next hn).trans (List.suffix_cons c cs))⟩
  | case4 => cases h

theorem ne_nil_of_shows {cause : TokenCause} {place : List Char} (h : cause.Shows place) :
    place ≠ [] := by
  rintro rfl
  cases cause <;> simp [TokenCause.Shows] at h

/-- The offset of a fault is the number of bytes before the place that shows it. -/
theorem readAll_fault {source : String} {e : TokenError} (h : readAll source = .error e) :
    ∃ before place : String, source = before ++ place ∧ e.offset = before.utf8ByteSize ∧
      e.offset < source.utf8ByteSize ∧ e.cause.Shows place.toList := by
  unfold readAll at h
  split at h
  · cases h
  · rename_i cause rest hscan
    cases h
    obtain ⟨hshows, before, happ⟩ := error_scan hscan
    have hbefore : offset source.toList rest = (String.ofList before).utf8ByteSize := by
      rw [← happ, offset_append, ← byteSize_toList, String.toList_ofList]
    have hsource : source = String.ofList before ++ String.ofList rest := by
      rw [← String.ofList_append, happ, String.ofList_toList]
    have hinside : offset source.toList rest < source.utf8ByteSize := by
      obtain ⟨c, r, rfl⟩ := List.exists_cons_of_ne_nil (ne_nil_of_shows hshows)
      have hpos := c.utf8Size_pos
      have hplace : (String.ofList (c :: r)).utf8ByteSize = c.utf8Size + byteSize r := by
        rw [← byteSize_toList, String.toList_ofList, byteSize]
      rw [hbefore, hsource, String.utf8ByteSize_append, hplace]
      omega
    refine ⟨String.ofList before, String.ofList rest, hsource, hbefore, hinside, ?_⟩
    rwa [String.toList_ofList]

/-- The bracket in quotes does not end the tag, which begins after a character of two bytes. -/
theorem readAll_quoted_bracket :
    readAll "é<a b='>' c=/" = .error ⟨.unterminatedTag, 2⟩ ∧
      ∃ before place : String, "é<a b='>' c=/" = before ++ place ∧ 2 = before.utf8ByteSize ∧
        2 < "é<a b='>' c=/".utf8ByteSize ∧ TokenCause.unterminatedTag.Shows place.toList :=
  have h : readAll "é<a b='>' c=/" = .error ⟨.unterminatedTag, 2⟩ := by with_unfolding_all rfl
  ⟨h, readAll_fault h⟩

end Token
end Stencil.Markup

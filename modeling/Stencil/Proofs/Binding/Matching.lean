import Stencil.Binding.Segment

/-! Where references stand in a text. A reference occurs wherever two braces, something on one
line and two more braces follow each other. Of the occurrences in a text the leftmost is
taken, and of those that begin there the shortest; then the rest of the text is searched.
Cutting a text into pieces does exactly this. -/
namespace Stencil.Binding.Piece

/-- A reference to `body` stands between `before` and `after`. -/
structure Occurs (cs before body after : List Char) : Prop where
  eq : cs = before ++ '\x7b' :: '\x7b' :: (body ++ '\x7d' :: '\x7d' :: after)
  body_ne_nil : body ≠ []
  one_line : '\n' ∉ body

/-- No reference begins further left, and none that begins here ends earlier. -/
structure First (cs before body after : List Char) : Prop extends Occurs cs before body after where
  leftmost : ∀ before' body' after', Occurs cs before' body' after' → before.length ≤ before'.length
  shortest : ∀ body' after', Occurs cs before body' after' → body.length ≤ body'.length

/-- Literal text before other pieces; none if it is empty. -/
def lead (cs : List Char) (ps : List Piece) : List Piece :=
  if cs = [] then ps else .literal cs :: ps

/-- The pieces of a text: up to the first reference, this reference, and those of the rest. -/
inductive Cuts : List Char → List Piece → Prop
  | rest {cs} (none : ∀ before body after, ¬ Occurs cs before body after) : Cuts cs (lead cs [])
  | next {cs before body after ps} (first : First cs before body after) (h : Cuts after ps) :
      Cuts cs (lead before (.reference body :: ps))

/-- The text without its references, each found in what the one before it leaves. -/
inductive Erases : List Char → List Char → Prop
  | rest {cs} (none : ∀ before body after, ¬ Occurs cs before body after) : Erases cs cs
  | next {cs before body after kept} (first : First cs before body after) (h : Erases after kept) :
      Erases cs (before ++ kept)

variable {cs b r before body after : List Char} {c : Char} {ps : List Piece}

theorem Occurs.cons (h : Occurs cs before body after) (c : Char) :
    Occurs (c :: cs) (c :: before) body after :=
  ⟨congrArg (c :: ·) h.eq, h.body_ne_nil, h.one_line⟩

/-- An occurrence begins with the first character or lies in what follows it. -/
theorem Occurs.of_cons (h : Occurs (c :: cs) before body after) :
    before = [] ∨ ∃ before', before = c :: before' ∧ Occurs cs before' body after := by
  cases before with
  | nil => exact .inl rfl
  | cons d before =>
    obtain ⟨rfl, heq⟩ := List.cons.inj h.eq
    exact .inr ⟨before, rfl, heq, h.body_ne_nil, h.one_line⟩

theorem not_occurs_nil : ¬ Occurs [] before body after := by
  intro h
  have heq := congrArg List.length h.eq
  simp only [List.length_nil, List.length_append, List.length_cons] at heq
  omega

/-! ## One reference -/

theorem eq_of_body? (h : body? cs = some (b, r)) :
    cs = b ++ '\x7d' :: '\x7d' :: r ∧ '\n' ∉ b := by
  induction cs generalizing b with
  | nil => simp [body?] at h
  | cons c cs ih =>
    rw [body?] at h
    split at h
    · rename_i hclose
      cases h
      obtain ⟨rfl, hhead⟩ := hclose
      cases cs with
      | nil => cases hhead
      | cons d cs =>
        obtain rfl : d = '\x7d' := by simpa using hhead
        exact ⟨rfl, List.not_mem_nil⟩
    · split at h
      · cases h
      · rename_i hline
        obtain ⟨⟨b', r'⟩, hb, he⟩ := Option.map_eq_some_iff.1 h
        cases he
        obtain ⟨rfl, hmem⟩ := ih hb
        exact ⟨rfl, List.not_mem_cons_of_ne_of_not_mem (Ne.symm hline) hmem⟩

/-- The first braces that close end no later than any others. -/
theorem exists_body? (hline : '\n' ∉ b) (r : List Char) :
    ∃ b' r', body? (b ++ '\x7d' :: '\x7d' :: r) = some (b', r') ∧ b'.length ≤ b.length := by
  induction b with
  | nil => exact ⟨[], r, by simp [body?], Nat.le_refl 0⟩
  | cons c b ih =>
    rw [List.mem_cons, not_or] at hline
    obtain ⟨b', r', hb, hle⟩ := ih hline.2
    rw [List.cons_append, body?]
    split
    · exact ⟨[], _, rfl, Nat.zero_le _⟩
    · rw [if_neg (Ne.symm hline.1), hb]
      exact ⟨c :: b', r', rfl, Nat.succ_le_succ hle⟩

theorem occurs_of_reference? (h : reference? cs = some (b, r)) : Occurs cs [] b r := by
  unfold reference? at h
  split at h
  · split at h
    · rename_i hopen
      obtain ⟨rfl, rfl, hc⟩ := hopen
      obtain ⟨⟨b', r'⟩, hb, he⟩ := Option.map_eq_some_iff.1 h
      cases he
      obtain ⟨rfl, hmem⟩ := eq_of_body? hb
      exact ⟨rfl, List.cons_ne_nil _ _, List.not_mem_cons_of_ne_of_not_mem (Ne.symm hc) hmem⟩
    · cases h
  · cases h

/-- Where a reference begins one is read, and it is no longer. -/
theorem exists_reference? (h : Occurs cs [] body after) :
    ∃ b r, reference? cs = some (b, r) ∧ b.length ≤ body.length := by
  obtain ⟨rfl, hne, hline⟩ := h
  obtain ⟨c, body, rfl⟩ := List.exists_cons_of_ne_nil hne
  rw [List.mem_cons, not_or] at hline
  obtain ⟨b, r, hb, hle⟩ := exists_body? hline.2 after
  refine ⟨c :: b, r, ?_, Nat.succ_le_succ hle⟩
  rw [List.nil_append, List.cons_append, reference?, if_pos ⟨rfl, rfl, Ne.symm hline.1⟩, hb]
  rfl

theorem first_of_reference? (h : reference? cs = some (b, r)) : First cs [] b r where
  toOccurs := occurs_of_reference? h
  leftmost _ _ _ _ := Nat.zero_le _
  shortest body' after' h' := by
    obtain ⟨b', r', hread, hle⟩ := exists_reference? h'
    cases h.symm.trans hread
    exact hle

/-- Where none begins the first occurrences are those in what follows. -/
theorem First.cons (h : First cs before body after) (hnone : reference? (c :: cs) = none) :
    First (c :: cs) (c :: before) body after where
  toOccurs := h.toOccurs.cons c
  leftmost before' body' after' h' := by
    rcases h'.of_cons with rfl | ⟨before'', rfl, h''⟩
    · obtain ⟨b', r', hread, _⟩ := exists_reference? h'
      cases hnone.symm.trans hread
    · exact Nat.succ_le_succ (h.leftmost _ _ _ h'')
  shortest body' after' h' := by
    rcases h'.of_cons with hnil | ⟨before'', heq, h''⟩
    · cases hnil
    · cases heq
      exact h.shortest body' after' h''

/-- There is one first occurrence. -/
theorem First.unique {before' body' after' : List Char} (h : First cs before body after)
    (h' : First cs before' body' after') : before = before' ∧ body = body' ∧ after = after' := by
  have hbefore : before.length = before'.length :=
    Nat.le_antisymm (h.leftmost _ _ _ h'.toOccurs) (h'.leftmost _ _ _ h.toOccurs)
  obtain ⟨rfl, htail⟩ := List.append_inj (h.eq.symm.trans h'.eq) hbefore
  have hbody : body.length = body'.length :=
    Nat.le_antisymm (h.shortest _ _ h'.toOccurs) (h'.shortest _ _ h.toOccurs)
  obtain ⟨rfl, hafter⟩ := List.append_inj (List.cons.inj (List.cons.inj htail).2).2 hbody
  exact ⟨rfl, rfl, (List.cons.inj (List.cons.inj hafter).2).2⟩

/-! ## All references -/

theorem prependChar_lead (c : Char) (cs : List Char) (hps : ∀ ds qs, ps ≠ .literal ds :: qs) :
    prependChar c (lead cs ps) = lead (c :: cs) ps := by
  unfold lead
  by_cases hcs : cs = []
  · subst hcs
    cases ps with
    | nil => rfl
    | cons p ps =>
      cases p with
      | literal ds => exact absurd rfl (hps ds ps)
      | reference b => rfl
  · rw [if_neg hcs, if_neg (List.cons_ne_nil c cs)]
    rfl

theorem cuts_cut (cs : List Char) : Cuts cs (cut cs) := by
  fun_induction cut cs with
  | case1 cs b rest hread ih => exact .next (first_of_reference? hread) ih
  | case2 => exact .rest fun _ _ _ => not_occurs_nil
  | case3 c cs hnone ih =>
    generalize cut cs = ps at ih
    cases ih with
    | rest none =>
      rw [prependChar_lead c cs (by simp)]
      refine .rest fun before body after h => ?_
      rcases h.of_cons with rfl | ⟨before', rfl, h'⟩
      · obtain ⟨b, r, hread, _⟩ := exists_reference? h
        cases hnone.symm.trans hread
      · exact none _ _ _ h'
    | next first hps =>
      rw [prependChar_lead c _ (by simp)]
      exact .next (first.cons hnone) hps

theorem filterMap_lead (cs : List Char) (ps : List Piece) :
    ((lead cs ps).filterMap literal?).flatten = cs ++ (ps.filterMap literal?).flatten := by
  unfold lead
  split
  · rename_i h
    rw [h, List.nil_append]
  · rfl

theorem Cuts.erases (h : Cuts cs ps) : Erases cs (ps.filterMap literal?).flatten := by
  induction h with
  | rest none =>
    rw [filterMap_lead]
    simpa using Erases.rest none
  | next first _ ih =>
    rw [filterMap_lead]
    exact .next first ih

theorem Erases.unique {kept kept' : List Char} (h : Erases cs kept) (h' : Erases cs kept') :
    kept = kept' := by
  induction h generalizing kept' with
  | rest none =>
    cases h' with
    | rest => rfl
    | next first => exact absurd first.toOccurs (none _ _ _)
  | next first _ ih =>
    cases h' with
    | rest none => exact absurd first.toOccurs (none _ _ _)
    | next first' hrest =>
      obtain ⟨rfl, rfl, rfl⟩ := first.unique first'
      rw [ih hrest]

/-- The literal text is what is left when the references are taken out one by one. -/
theorem erases_iff (text : String) (kept : List Char) :
    Erases text.toList kept ↔ kept = (literalText text).toList := by
  have herases : Erases text.toList (literalText text).toList := by
    rw [literalText, String.toList_ofList]
    exact (cuts_cut text.toList).erases
  constructor
  · exact fun h => h.unique herases
  · rintro rfl
    exact herases

theorem mem_lead {cs : List Char} {p : Piece} :
    p ∈ lead cs ps ↔ p = .literal cs ∧ cs ≠ [] ∨ p ∈ ps := by
  unfold lead
  by_cases h : cs = [] <;> simp [h]

/-- A text has a reference as soon as one occurs. -/
theorem Cuts.exists_reference (h : Cuts cs ps) :
    (∃ b, .reference b ∈ ps) ↔ ∃ before body after, Occurs cs before body after := by
  cases h with
  | rest none =>
    refine ⟨?_, fun ⟨before, body, after, h⟩ => absurd h (none _ _ _)⟩
    rintro ⟨b, hb⟩
    rcases mem_lead.mp hb with ⟨hb, _⟩ | hb <;> cases hb
  | @next _ before body after ps first hps =>
    exact ⟨fun _ => ⟨_, _, _, first.toOccurs⟩,
      fun _ => ⟨body, mem_lead.mpr (.inr List.mem_cons_self)⟩⟩

end Stencil.Binding.Piece

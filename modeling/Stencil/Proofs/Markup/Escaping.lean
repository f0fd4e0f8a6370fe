import Stencil.Markup.Entity

/-! Escaping is undone by decoding. An escaped text is cut in one way into characters and
entities: an ampersand begins an entity, the next semicolon ends it. So each entity of the
table is replaced where it was written and nowhere else. -/
namespace Stencil.Markup.Entity

/-- An ampersand, a name and a semicolon. -/
def IsEntity (u : List Char) : Prop :=
  ∃ name, (∀ c ∈ name, c ≠ '&' ∧ c ≠ ';') ∧ u = '&' :: (name ++ [';'])

/-- What stands for one character of a text: a character other than the ampersand, or an
entity. -/
inductive Stroke : List Char → Prop
  | plain {c : Char} (hc : c ≠ '&') : Stroke [c]
  | entity {u : List Char} (hu : IsEntity u) : Stroke u

variable {mark new rest : List Char}

/-- No entity begins another one. -/
theorem IsEntity.eq_of_isPrefixOf {u : List Char} (hmark : IsEntity mark) (hu : IsEntity u)
    (hp : mark.isPrefixOf (u ++ rest) = true) : mark = u := by
  obtain ⟨name, hname, rfl⟩ := hmark
  obtain ⟨name', hname', rfl⟩ := hu
  simp only [List.cons_append, List.isPrefixOf, beq_self_eq_true, Bool.true_and] at hp
  congr 1
  induction name generalizing name' with
  | nil =>
    cases name' with
    | nil => rfl
    | cons d name' =>
      have hd : ';' = d := by simpa [List.isPrefixOf] using hp
      exact absurd hd.symm (hname' d List.mem_cons_self).2
  | cons c name ih =>
    cases name' with
    | nil =>
      have hc : c = ';' := by
        simp only [List.nil_append, List.cons_append, List.isPrefixOf, Bool.and_eq_true,
          beq_iff_eq] at hp
        exact hp.1
      exact absurd hc (hname c List.mem_cons_self).2
    | cons d name' =>
      simp only [List.cons_append, List.isPrefixOf, Bool.and_eq_true, beq_iff_eq] at hp
      have hrest := ih (fun x hx => hname x (List.mem_cons_of_mem _ hx)) name'
        (fun x hx => hname' x (List.mem_cons_of_mem _ hx)) hp.2
      rw [hp.1, List.cons_append, hrest]
      rfl

/-! ## Replacing -/

theorem replaceFrom_append (mark new : List Char) (u v : List Char) :
    replaceFrom mark new u.length (u ++ v) = replaceAll mark new v := by
  induction u with
  | nil => rfl
  | cons c u ih => exact ih

theorem replaceAll_mark (c : Char) (mark new rest : List Char) :
    replaceAll (c :: mark) new (c :: mark ++ rest) = new ++ replaceAll (c :: mark) new rest := by
  have hp : (c :: mark).isPrefixOf (c :: (mark ++ rest)) = true :=
    List.isPrefixOf_iff_prefix.mpr ⟨rest, rfl⟩
  rw [replaceAll, List.cons_append, replaceFrom, if_pos hp]
  exact congrArg (new ++ ·) (replaceFrom_append (c :: mark) new mark rest)

theorem replaceAll_cons {c : Char} {cs : List Char} (h : mark.isPrefixOf (c :: cs) = false) :
    replaceAll mark new (c :: cs) = c :: replaceAll mark new cs := by
  rw [replaceAll, replaceFrom, if_neg (by rw [h]; exact Bool.false_ne_true)]
  rfl

/-- Nothing begins at a character that is not the first one of the mark. -/
theorem replaceAll_append {m : Char} {u : List Char} (h : ∀ c ∈ u, c ≠ m) (v : List Char) :
    replaceAll (m :: mark) new (u ++ v) = u ++ replaceAll (m :: mark) new v := by
  induction u with
  | nil => rfl
  | cons c u ih =>
    have hc : (m :: mark).isPrefixOf (c :: (u ++ v)) = false := by
      have hne : (m == c) = false := beq_eq_false_iff_ne.mpr (Ne.symm (h c List.mem_cons_self))
      rw [List.isPrefixOf, hne, Bool.false_and]
    rw [List.cons_append, replaceAll_cons hc, ih fun x hx => h x (List.mem_cons_of_mem _ hx)]
    rfl

/-- An entity is replaced where it stands as a whole. -/
theorem replaceAll_stroke (hmark : IsEntity mark) {u : List Char} (hu : Stroke u)
    (rest : List Char) : replaceAll mark new (u ++ rest) =
      (if u = mark then new else u) ++ replaceAll mark new rest := by
  cases hu with
  | @plain c hc =>
    obtain ⟨name, _, rfl⟩ := hmark
    rw [if_neg fun h => hc (List.cons.inj h).1]
    exact replaceAll_append (fun x hx => by rwa [List.mem_singleton.mp hx]) rest
  | entity hu =>
    by_cases he : u = mark
    · obtain ⟨name, _, rfl⟩ := hmark
      rw [if_pos he, he, replaceAll_mark]
    · have hp : mark.isPrefixOf (u ++ rest) = false :=
        Bool.eq_false_iff.mpr fun hp => he (hmark.eq_of_isPrefixOf hu hp).symm
      obtain ⟨name, hname, rfl⟩ := hu
      obtain ⟨_, _, rfl⟩ := hmark
      have htail : ∀ c ∈ name ++ [';'], c ≠ '&' := by
        intro c hc
        rcases List.mem_append.mp hc with hc | hc
        · exact (hname c hc).1
        · rw [List.mem_singleton.mp hc]
          decide
      rw [List.cons_append] at hp
      rw [if_neg he, List.cons_append, replaceAll_cons hp, replaceAll_append htail]
      rfl

theorem replaceAll_ne_nil (hnew : new ≠ []) {cs : List Char} (hcs : cs ≠ []) :
    replaceAll mark new cs ≠ [] := by
  cases cs with
  | nil => exact absurd rfl hcs
  | cons c cs =>
    rw [replaceAll, replaceFrom]
    split <;> simp [hnew]

/-- All strokes are looked at one by one. -/
theorem replaceAll_flatMap (hmark : IsEntity mark) {f : Char → List Char}
    (hf : ∀ c, Stroke (f c)) (cs : List Char) :
    replaceAll mark new (cs.flatMap f) = cs.flatMap fun c => if f c = mark then new else f c := by
  induction cs with
  | nil => rfl
  | cons c cs ih => rw [List.flatMap_cons, replaceAll_stroke hmark (hf c), ih, List.flatMap_cons]

/-! ## Decoding -/

/-- The entity of an entry becomes its character. -/
def swap (u : List Char) (e : String × Char) : List Char := if u = e.1.toList then [e.2] else u

theorem Stroke.swap {u : List Char} (hu : Stroke u) {e : String × Char} (he : e.2 ≠ '&') :
    Stroke (swap u e) := by
  unfold Entity.swap
  split
  · exact .plain he
  · exact hu

/-- Entries are read one after the other, as long as none gives an ampersand. -/
theorem foldl_replaceAll (es : List (String × Char))
    (hes : ∀ e ∈ es, IsEntity e.1.toList ∧ e.2 ≠ '&') {f : Char → List Char}
    (hf : ∀ c, Stroke (f c)) (cs : List Char) :
    es.foldl (fun acc e => replaceAll e.1.toList [e.2] acc) (cs.flatMap f) =
        cs.flatMap (fun c => es.foldl swap (f c)) ∧
      ∀ c, Stroke (es.foldl swap (f c)) := by
  induction es generalizing f with
  | nil => exact ⟨rfl, hf⟩
  | cons e es ih =>
    obtain ⟨he, hne⟩ := hes e List.mem_cons_self
    rw [List.foldl_cons, replaceAll_flatMap he hf]
    exact ih (fun e' he' => hes e' (List.mem_cons_of_mem _ he')) fun c => (hf c).swap hne

/-- Something stays of every text that is not empty. -/
theorem decode_ne_nil {cs : List Char} (hcs : cs ≠ []) : decode cs ≠ [] := by
  unfold decode
  generalize table = es
  induction es generalizing cs with
  | nil => exact hcs
  | cons e es ih => exact ih (replaceAll_ne_nil (by simp) hcs)

theorem isEntity_of_all (name : List Char) (h : name.all (fun c => c != '&' && c != ';') = true) :
    IsEntity ('&' :: (name ++ [';'])) := by
  refine ⟨name, fun c hc => ?_, rfl⟩
  have hboth := Bool.and_eq_true_iff.mp (List.all_eq_true.mp h c hc)
  exact ⟨bne_iff_ne.mp hboth.1, bne_iff_ne.mp hboth.2⟩

theorem isEntity_of_mem_table {e : String × Char} (he : e ∈ table) : IsEntity e.1.toList := by
  simp only [table, List.mem_cons, List.not_mem_nil, or_false] at he
  rcases he with rfl | rfl | rfl | rfl | rfl
  · exact isEntity_of_all ['l', 't'] rfl
  · exact isEntity_of_all ['g', 't'] rfl
  · exact isEntity_of_all ['q', 'u', 'o', 't'] rfl
  · exact isEntity_of_all ['a', 'p', 'o', 's'] rfl
  · exact isEntity_of_all ['a', 'm', 'p'] rfl

/-- Strokes are decoded one by one: only the last entry gives an ampersand. -/
theorem decode_flatMap {f : Char → List Char} (hf : ∀ c, Stroke (f c)) (cs : List Char) :
    decode (cs.flatMap f) = cs.flatMap fun c => table.foldl swap (f c) := by
  obtain ⟨hfold, hstroke⟩ := foldl_replaceAll table.dropLast
    (fun e he => ⟨isEntity_of_mem_table (List.dropLast_subset _ he), by revert e; decide⟩) hf cs
  have hlast : table = table.dropLast ++ [("&amp;", '&')] := rfl
  rw [decode, hlast, List.foldl_append, hfold, List.foldl_cons, List.foldl_nil,
    replaceAll_flatMap (isEntity_of_mem_table (by decide)) hstroke]
  simp only [List.foldl_append, List.foldl_cons, List.foldl_nil]
  rfl

/-! ## Writing -/

/-- Writes a character of `marked` as its entity, if it has one, and any other as it is. -/
def spell (marked : List Char) (c : Char) : List Char :=
  if c ∈ marked then ((table.find? (·.2 == c)).map (·.1.toList)).getD [c] else [c]

/-- The ways to write a character: as an entity of the table, or as it is. -/
theorem spell_cases {marked : List Char} (hamp : '&' ∈ marked) (c : Char) :
    (∃ e ∈ table, e.2 = c ∧ spell marked c = e.1.toList) ∨ c ≠ '&' ∧ spell marked c = [c] := by
  unfold spell
  split
  · cases he : table.find? (·.2 == c) with
    | none =>
      refine .inr ⟨?_, rfl⟩
      rintro rfl
      revert he
      decide
    | some e =>
      have hc : e.2 = c := by simpa using List.find?_some he
      exact .inl ⟨e, List.mem_of_find?_eq_some he, hc, rfl⟩
  · rename_i hc
    exact .inr ⟨fun h => hc (h ▸ hamp), rfl⟩

theorem stroke_spell {marked : List Char} (hamp : '&' ∈ marked) (c : Char) :
    Stroke (spell marked c) := by
  obtain ⟨e, he, _, h⟩ | ⟨hc, h⟩ := spell_cases hamp c <;> rw [h]
  · exact .entity (isEntity_of_mem_table he)
  · exact .plain hc

theorem foldl_swap_plain {c : Char} (hc : c ≠ '&') (es : List (String × Char))
    (hes : ∀ e ∈ es, IsEntity e.1.toList) : es.foldl swap [c] = [c] := by
  induction es with
  | nil => rfl
  | cons e es ih =>
    obtain ⟨name, _, hname⟩ := hes e List.mem_cons_self
    have hne : [c] ≠ e.1.toList := by
      rw [hname]
      exact fun h => hc (List.cons.inj h).1
    rw [List.foldl_cons, swap, if_neg hne]
    exact ih fun e' he' => hes e' (List.mem_cons_of_mem _ he')

theorem foldl_swap_spell {marked : List Char} (hamp : '&' ∈ marked) (c : Char) :
    table.foldl swap (spell marked c) = [c] := by
  have hentry : ∀ e ∈ table, table.foldl swap e.1.toList = [e.2] := by decide
  obtain ⟨e, he, rfl, h⟩ | ⟨hc, h⟩ := spell_cases hamp c <;> rw [h]
  · exact hentry e he
  · exact foldl_swap_plain hc table fun e => isEntity_of_mem_table

/-- A text is read back, whatever else is written as an entity beside the ampersand. -/
theorem decode_spell {marked : List Char} (hamp : '&' ∈ marked) (cs : List Char) :
    decode (cs.flatMap (spell marked)) = cs := by
  rw [decode_flatMap (stroke_spell hamp)]
  simp only [foldl_swap_spell hamp]
  exact List.flatMap_singleton' cs

/-- A marked character other than the ampersand is not to be found in what was written. -/
theorem not_mem_spell {marked : List Char} (hamp : '&' ∈ marked) {x : Char} (hx : x ∈ marked)
    (hne : x = '<' ∨ x = '>' ∨ x = '"' ∨ x = '\'') (cs : List Char) :
    x ∉ cs.flatMap (spell marked) := by
  have hentry : ∀ e ∈ table, '<' ∉ e.1.toList ∧ '>' ∉ e.1.toList ∧ '"' ∉ e.1.toList ∧
      '\'' ∉ e.1.toList := by decide
  intro h
  obtain ⟨c, _, hc⟩ := List.mem_flatMap.mp h
  obtain ⟨e, he, _, heq⟩ | ⟨_, heq⟩ := spell_cases hamp c <;> rw [heq] at hc
  · have hnot := hentry e he
    rcases hne with rfl | rfl | rfl | rfl <;> simp [hc] at hnot
  · rw [← List.mem_singleton.mp hc, spell, if_pos hx] at heq
    rcases hne with rfl | rfl | rfl | rfl <;> exact absurd heq (by decide)

/-! ## Escaping -/

/-- The characters that are written as entities at a place. -/
def Place.marked : Place → List Char
  | .content => ['&', '<', '>']
  | .value => ['&', '<', '"']

theorem escapeChar_eq (p : Place) (c : Char) : escapeChar p c = spell p.marked c := by
  by_cases hmem : c ∈ p.marked
  · cases p <;> simp only [Place.marked, List.mem_cons, List.not_mem_nil, or_false] at hmem <;>
      rcases hmem with rfl | rfl | rfl <;> rfl
  · rw [spell, if_neg hmem]
    cases p <;> simp only [Place.marked, List.mem_cons, List.not_mem_nil, or_false,
      not_or] at hmem <;> simp [escapeChar, hmem]

theorem escape_eq (p : Place) (cs : List Char) : escape p cs = cs.flatMap (spell p.marked) := by
  rw [escape, funext (escapeChar_eq p)]

/-- A text that was escaped is read back. -/
theorem decode_escape (p : Place) (cs : List Char) : decode (escape p cs) = cs := by
  rw [escape_eq]
  exact decode_spell (by cases p <;> decide) cs

theorem escape_append (p : Place) (cs ds : List Char) :
    escape p (cs ++ ds) = escape p cs ++ escape p ds := List.flatMap_append

end Stencil.Markup.Entity

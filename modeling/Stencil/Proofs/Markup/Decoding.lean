import Stencil.Proofs.Markup.Escaping

/-! Decoding in one pass. The entities of the table are replaced one entry after the other,
in the whole text. A character that was decoded occurs in no entity that is still to be
replaced, so it begins none and ends none: the text is read as if from left to right once. -/
namespace Stencil.Markup.Entity

/-- The text read once from left to right: an entity gives its character, and every other
character is copied. -/
def decodeOnce : List Char → List Char
  | '&' :: 'l' :: 't' :: ';' :: r => '<' :: decodeOnce r
  | '&' :: 'g' :: 't' :: ';' :: r => '>' :: decodeOnce r
  | '&' :: 'q' :: 'u' :: 'o' :: 't' :: ';' :: r => '"' :: decodeOnce r
  | '&' :: 'a' :: 'p' :: 'o' :: 's' :: ';' :: r => '\'' :: decodeOnce r
  | '&' :: 'a' :: 'm' :: 'p' :: ';' :: r => '&' :: decodeOnce r
  | c :: r => c :: decodeOnce r
  | [] => []

/-- Entries in an order in which they can be replaced: the character of an entry is in no
later entity. -/
structure Ordered (es : List (String × Char)) : Prop where
  isEntity : ∀ e ∈ es, IsEntity e.1.toList
  apart : es.Pairwise fun e e' => e'.1.toList ≠ e.1.toList ∧ e.2 ∉ e'.1.toList

theorem ordered_table : Ordered table :=
  ⟨fun _ => isEntity_of_mem_table, by decide⟩

theorem Ordered.tail {e : String × Char} {es : List (String × Char)} (h : Ordered (e :: es)) :
    Ordered es :=
  ⟨fun e' he' => h.isEntity e' (List.mem_cons_of_mem e he'), h.apart.tail⟩

theorem Ordered.head {e e' : String × Char} {es : List (String × Char)} (h : Ordered (e :: es))
    (he' : e' ∈ es) : e'.1.toList ≠ e.1.toList ∧ e.2 ∉ e'.1.toList :=
  List.rel_of_pairwise_cons h.apart he'

/-! ## Replacing one entity -/

variable {mark : List Char} {x : Char}

/-- Where a text without the new character begins afterwards, it began before. -/
theorem isPrefix_of_replaceAll {u cs : List Char} (hx : x ∉ u) (h : u <+: replaceAll mark [x] cs) :
    u <+: cs := by
  induction u generalizing cs with
  | nil => exact List.nil_prefix
  | cons d u ih =>
    rw [List.mem_cons, not_or] at hx
    cases cs with
    | nil => exact h
    | cons c cs =>
      rw [replaceAll, replaceFrom] at h
      split at h
      · exact absurd (List.cons_prefix_cons.mp h).1.symm hx.1
      · obtain ⟨rfl, hu⟩ := List.cons_prefix_cons.mp h
        exact List.cons_prefix_cons.mpr ⟨rfl, ih hx.2 hu⟩

/-! ## Replacing all -/

/-- Replaces the entities of the entries, one entry after the other. -/
def replaceEach (es : List (String × Char)) (cs : List Char) : List Char :=
  es.foldl (fun acc e => replaceAll e.1.toList [e.2] acc) cs

theorem replaceEach_nil (es : List (String × Char)) : replaceEach es [] = [] := by
  induction es with
  | nil => rfl
  | cons e es ih => exact ih

/-- A character at which no entity begins is copied. -/
theorem replaceEach_cons {es : List (String × Char)} (hes : Ordered es) {c : Char} {cs : List Char}
    (h : ∀ e ∈ es, ¬ e.1.toList <+: c :: cs) :
    replaceEach es (c :: cs) = c :: replaceEach es cs := by
  induction es generalizing cs with
  | nil => rfl
  | cons e es ih =>
    have hcopy : replaceAll e.1.toList [e.2] (c :: cs) = c :: replaceAll e.1.toList [e.2] cs :=
      replaceAll_cons (Bool.eq_false_iff.mpr fun hp =>
        h e List.mem_cons_self (List.isPrefixOf_iff_prefix.mp hp))
    change replaceEach es (replaceAll e.1.toList [e.2] (c :: cs)) = _
    rw [hcopy]
    refine ih hes.tail fun e' he' hp => h e' (List.mem_cons_of_mem e he') ?_
    -- an entity that begins here now began here before
    rw [← hcopy] at hp
    exact isPrefix_of_replaceAll (hes.head he').2 hp

/-- An entity gives its character, wherever it stands in the table. -/
theorem replaceEach_mark {es : List (String × Char)} (hes : Ordered es) {e : String × Char}
    (he : e ∈ es) (cs : List Char) :
    replaceEach es (e.1.toList ++ cs) = e.2 :: replaceEach es cs := by
  induction es generalizing cs with
  | nil => cases he
  | cons e₀ es ih =>
    have hstroke : replaceAll e₀.1.toList [e₀.2] (e.1.toList ++ cs) = _ :=
      replaceAll_stroke (hes.isEntity e₀ List.mem_cons_self) (.entity (hes.isEntity e he)) cs
    change replaceEach es (replaceAll e₀.1.toList [e₀.2] (e.1.toList ++ cs)) = _
    rw [hstroke]
    rcases List.mem_cons.mp he with rfl | he
    · rw [if_pos rfl]
      refine replaceEach_cons hes.tail fun e' he' hp => ?_
      obtain ⟨name, _, hname⟩ := hes.isEntity e' (List.mem_cons_of_mem e he')
      have hhead := (hes.head he').2
      rw [hname] at hp hhead
      obtain ⟨hamp, _⟩ := List.cons_prefix_cons.mp hp
      exact hhead (hamp ▸ List.mem_cons_self)
    · rw [if_neg (hes.head he).1]
      exact ih hes.tail he _

theorem decode_eq_replaceEach (cs : List Char) : decode cs = replaceEach table cs := rfl

theorem decode_eq_decodeOnce (cs : List Char) : decode cs = decodeOnce cs := by
  rw [decode_eq_replaceEach]
  have hmark := fun e (he : e ∈ table) => replaceEach_mark ordered_table he
  fun_induction decodeOnce cs with
  | case1 r ih => rw [← ih]; exact hmark ("&lt;", '<') (by decide) r
  | case2 r ih => rw [← ih]; exact hmark ("&gt;", '>') (by decide) r
  | case3 r ih => rw [← ih]; exact hmark ("&quot;", '"') (by decide) r
  | case4 r ih => rw [← ih]; exact hmark ("&apos;", '\'') (by decide) r
  | case5 r ih => rw [← ih]; exact hmark ("&amp;", '&') (by decide) r
  | case6 c r hlt hgt hquot hapos hamp ih =>
    rw [← ih]
    refine replaceEach_cons ordered_table fun e he => ?_
    rintro ⟨rest, hrest⟩
    simp only [table, List.mem_cons, List.not_mem_nil, or_false] at he
    rcases he with rfl | rfl | rfl | rfl | rfl <;> obtain ⟨hc, hr⟩ := List.cons.inj hrest
    · exact hlt rest hc.symm hr.symm
    · exact hgt rest hc.symm hr.symm
    · exact hquot rest hc.symm hr.symm
    · exact hapos rest hc.symm hr.symm
    · exact hamp rest hc.symm hr.symm
  | case7 => exact replaceEach_nil table

/-- Without an ampersand there is nothing to decode. -/
theorem decode_eq_self {cs : List Char} (h : '&' ∉ cs) : decode cs = cs := by
  rw [decode_eq_replaceEach]
  induction cs with
  | nil => exact replaceEach_nil table
  | cons c cs ih =>
    rw [List.mem_cons, not_or] at h
    have hcopy : replaceEach table (c :: cs) = c :: replaceEach table cs := by
      refine replaceEach_cons ordered_table fun e he hp => ?_
      obtain ⟨name, _, hname⟩ := isEntity_of_mem_table he
      rw [hname] at hp
      exact h.1 (List.cons_prefix_cons.mp hp).1
    rw [hcopy, ih h.2]

/-- Decoding reads a text once from left to right, whether or not it is first looked through
for an ampersand; and it undoes escaping at both places. -/
theorem decode_exact (cs : List Char) :
    decode cs = decodeOnce cs ∧ (if '&' ∈ cs then decode cs else cs) = decodeOnce cs ∧
      ∀ p, decode (escape p cs) = cs := by
  refine ⟨decode_eq_decodeOnce cs, ?_, fun p => decode_escape p cs⟩
  split
  · exact decode_eq_decodeOnce cs
  · rename_i h
    rw [← decode_eq_decodeOnce, decode_eq_self h]

/-- Entities that overlap, that are cut short and that are written twice. -/
example : decodeOnce "&&amp;lt;&am&lt;p;&quot".toList = "&&lt;&am<p;&quot".toList := by decide

end Stencil.Markup.Entity

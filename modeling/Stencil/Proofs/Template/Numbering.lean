import Stencil.Proofs.Template.Verdict

/-! The numbers of nested templates. Which names a tree gives to what it nests can be told
without compiling it: each directive takes the next number, in the order of the document, and
passes over the names that are held by templates with names of their own. -/
namespace Stencil
open Binding Markup

def Item.directive? : Item → Option Directive
  | .content _ => none
  | .directive d _ => some d

/-- The directives of a tree in order. -/
def Markup.Node.spawns (tree : Node) : List Directive := tree.items.filterMap Item.directive?

namespace Catalog

/-- Names for the directives, numbered from `n` on, but for the names that are held; and the
number that comes after them. -/
def draw (held : List String) : Nat → List Directive → List String × Nat
  | n, [] => ([], n)
  | n, d :: ds =>
    let k := freeNumber d.word held held.length n
    ((d.word ++ toString k) :: (draw held (k + 1) ds).1, (draw held (k + 1) ds).2)

theorem draw_append (held : List String) (n : Nat) (ds es : List Directive) :
    draw held n (ds ++ es) = ((draw held n ds).1 ++ (draw held (draw held n ds).2 es).1,
      (draw held (draw held n ds).2 es).2) := by
  induction ds generalizing n with
  | nil => rfl
  | cons d ds ih => simp only [List.cons_append, draw, ih]

theorem le_draw (held : List String) (n : Nat) (ds : List Directive) : n ≤ (draw held n ds).2 := by
  induction ds generalizing n with
  | nil => exact Nat.le_refl n
  | cons d ds ih =>
    have hfree := le_freeNumber d.word held held.length n
    have hrest := ih (freeNumber d.word held held.length n + 1)
    rw [draw]
    dsimp only
    omega

/-- A name that was drawn is that of one of the directives. -/
theorem exists_of_mem_draw {held : List String} {n : Nat} {ds : List Directive} {x : String}
    (h : x ∈ (draw held n ds).1) : ∃ d ∈ ds, ∃ k : Nat, x = d.word ++ toString k := by
  induction ds generalizing n with
  | nil => cases h
  | cons d ds ih =>
    rw [draw] at h
    rcases List.mem_cons.mp h with rfl | h
    · exact ⟨d, List.mem_cons_self, _, rfl⟩
    · obtain ⟨d', hd', k, hk⟩ := ih h
      exact ⟨d', List.mem_cons_of_mem d hd', k, hk⟩

theorem mem_of_lt_freeNumber {word : String} {taken : List String} {k n i : Nat} (hi : n ≤ i)
    (h : i < freeNumber word taken k n) : word ++ toString i ∈ taken := by
  induction k generalizing n with
  | zero => exact absurd h (Nat.not_lt.mpr hi)
  | succ k ih =>
    rw [freeNumber] at h
    split at h
    · rename_i hn
      rcases Nat.eq_or_lt_of_le hi with rfl | hlt
      · exact List.contains_iff_mem.mp hn
      · exact ih hlt h
    · exact absurd h (Nat.not_lt.mpr hi)

/-- The number found depends only on the names that could be met. -/
theorem freeNumber_congr (d : Directive) {taken held : List String} {n : Nat}
    (h : ∀ k, n ≤ k → (d.word ++ toString k ∈ taken ↔ d.word ++ toString k ∈ held)) :
    freeNumber d.word taken taken.length n = freeNumber d.word held held.length n := by
  have hle := le_freeNumber d.word taken taken.length n
  have hle' := le_freeNumber d.word held held.length n
  refine Nat.le_antisymm (Nat.not_lt.mp fun hlt => ?_) (Nat.not_lt.mp fun hlt => ?_)
  · exact freeNumber_not_taken d held n ((h _ hle').mp (mem_of_lt_freeNumber hle' hlt))
  · exact freeNumber_not_taken d taken n ((h _ hle).mpr (mem_of_lt_freeNumber hle hlt))

/-- Among the names that could still be given out, those that are held are taken, and no
others. -/
def Holds (c : Catalog) (held : List String) : Prop := ∀ (d : Directive) (k : Nat), c.counter ≤ k →
  (d.word ++ toString k ∈ c.taken ↔ d.word ++ toString k ∈ held)

variable {c : Catalog} {held : List String} {name : String}

theorem Holds.freshName (h : c.Holds held) (d : Directive) :
    let k := freeNumber d.word held held.length c.counter
    c.freshName d = (d.word ++ toString k, { c with counter := k + 1 }) := by
  intro k
  have hk : freeNumber d.word c.taken c.taken.length c.counter = k := freeNumber_congr d (h d)
  rw [Catalog.freshName, hk]

theorem mem_taken_reserve {x : String} :
    x ∈ (c.reserve name).taken ↔ x ∈ c.taken ∨ x = name := by
  change x ∈ c.names ++ (c.pending ++ [name]) ↔ x ∈ c.names ++ c.pending ∨ x = name
  rw [← List.append_assoc, List.mem_append, List.mem_singleton]

theorem mem_taken_add (c : Catalog) (t : Template) {x : String} :
    x ∈ ((c.free t.name).add t).taken ↔ x ∈ c.taken ∨ x = t.name := by
  change x ∈ (c.templates ++ [t]).map (·.name) ++ c.pending.filter (· != t.name) ↔
    x ∈ c.templates.map (·.name) ++ c.pending ∨ x = t.name
  simp only [List.map_append, List.mem_append, List.map_cons, List.map_nil, List.mem_singleton,
    List.mem_filter, bne_iff_ne]
  tauto

/-- A nested template does not stand in the way of later ones. -/
theorem Holds.reserve_fresh (h : c.Holds held) (d : Directive) :
    ((c.freshName d).2.reserve (c.freshName d).1).Holds held := by
  rw [h.freshName d]
  intro d' k hk
  have hle := le_freeNumber d.word held held.length c.counter
  have hne : d'.word ++ toString k ≠
      d.word ++ toString (freeNumber d.word held held.length c.counter) := by
    intro heq
    have hnum := Directive.number_inj heq
    change _ + 1 ≤ k at hk
    omega
  change _ + 1 ≤ k at hk
  rw [mem_taken_reserve, or_iff_left hne]
  exact h d' k (by omega)

/-- A name of one's own is held from the time when it is reserved. -/
theorem Holds.reserve (h : c.Holds held) (name : String) :
    (c.reserve name).Holds (held ++ [name]) := by
  intro d k hk
  rw [mem_taken_reserve, List.mem_append, List.mem_singleton, h d k hk]

/-- Between two catalogs a name was drawn for each directive, and a template registered under
each of these names. -/
structure Dealt (held : List String) (ds : List Directive) (c c' : Catalog) : Prop where
  holds : c'.Holds held
  counter_eq : c'.counter = (draw held c.counter ds).2
  names_perm : c'.names.Perm (c.names ++ (draw held c.counter ds).1)

theorem Dealt.refl (h : c.Holds held) : Dealt held [] c c :=
  ⟨h, rfl, by rw [draw, List.append_nil]⟩

theorem Dealt.trans {ds es : List Directive} {c' c'' : Catalog} (h : Dealt held ds c c')
    (h' : Dealt held es c' c'') : Dealt held (ds ++ es) c c'' where
  holds := h'.holds
  counter_eq := by rw [draw_append, h'.counter_eq, h.counter_eq]
  names_perm := by
    have hsecond := h'.names_perm
    rw [h.counter_eq] at hsecond
    rw [draw_append, ← List.append_assoc]
    exact hsecond.trans (h.names_perm.append_right _)

end Catalog

/-! ## Builders -/

namespace Builder

variable {a b : Builder} {ds es : List Directive} {held : List String}

/-- When the builder succeeds, names were dealt to the directives. -/
structure Numbers (b : Builder) (ds : List Directive) : Prop where
  names : b.Names
  dealt : ∀ {held parent svg d w e w'}, w.catalog.Holds held → b parent svg d w = (.ok e, w') →
    Catalog.Dealt held ds w.catalog w'.catalog

theorem numbers_nothing : Numbers nothing [] := by
  refine ⟨names_nothing, fun hw heq => ?_⟩
  cases heq
  exact .refl hw

theorem numbers_text (raw : String) : Numbers (text raw) [] := by
  refine ⟨names_text raw, fun hw heq => ?_⟩
  obtain ⟨_, rfl⟩ := Prod.mk.inj heq
  exact .refl hw

theorem Numbers.andThen (ha : Numbers a ds) (hb : Numbers b es) :
    Numbers (andThen a b) (ds ++ es) := by
  refine ⟨ha.names.andThen hb.names, fun {held parent svg d w e w'} hw heq => ?_⟩
  unfold Builder.andThen at heq
  cases ha' : a parent svg d w with
  | mk r w₁ =>
    rw [ha'] at heq
    cases r with
    | error err => cases heq
    | ok d₁ =>
      have hfirst := ha.dealt hw ha'
      exact hfirst.trans (hb.dealt hfirst.holds heq)

theorem Numbers.element (hb : Numbers b ds) (tag : String) (as : List Attribute) :
    Numbers (element tag as b) ds := by
  refine ⟨hb.names.element tag as, fun {held parent inSvg d w e w'} hw heq => ?_⟩
  unfold Builder.element at heq
  dsimp only at heq
  split at heq
  · cases heq
  · exact hb.dealt hw heq

/-- The name itself comes after those that were drawn. -/
theorem Numbers.register (hb : Numbers b ds) {name : String} {svg : Bool} {w w' : Workshop}
    (hfree : name ∉ w.catalog.names) (hw : (w.catalog.reserve name).Holds held)
    (hok : register name svg b w = (.ok (), w')) :
    w'.catalog.Holds held ∧ w'.catalog.counter = (Catalog.draw held w.catalog.counter ds).2 ∧
      w'.catalog.names.Perm
        (w.catalog.names ++ ((Catalog.draw held w.catalog.counter ds).1 ++ [name])) := by
  obtain ⟨_, _, _, hcases⟩ := register_cases hb.names svg hfree
  cases hrun : b .root svg {} { w with catalog := w.catalog.reserve name } with
  | mk r w₁ =>
    rw [hrun, hok] at hcases
    rcases hcases with ⟨err, _, _, heq⟩ | ⟨d, rfl, _, heq⟩
    · cases heq
    · obtain ⟨_, rfl⟩ := Prod.mk.inj heq
      have hdealt := hb.dealt hw hrun
      refine ⟨fun dir k hk => ?_, hdealt.counter_eq, ?_⟩
      · have hle : w.catalog.counter ≤ k :=
          Nat.le_trans (Catalog.le_draw held w.catalog.counter ds) (hdealt.counter_eq ▸ hk)
        have hname : dir.word ++ toString k = name → dir.word ++ toString k ∈ held := fun heq =>
          (hw dir k hle).mp (Catalog.mem_taken_reserve.mpr (.inr heq))
        refine (Catalog.mem_taken_add w₁.catalog (d.finish name)).trans ?_
        rw [hdealt.holds dir k hk]
        exact or_iff_left_of_imp hname
      · change ((w₁.catalog.templates ++ [d.finish name]).map (·.name)).Perm _
        rw [List.map_append, ← List.append_assoc]
        exact hdealt.names_perm.append_right [name]

theorem Numbers.nest (hb : Numbers b ds) (tag : String) (dir : Directive) (value : String) :
    Numbers (nest tag dir value b) (dir :: ds) := by
  refine ⟨hb.names.nest tag dir value, fun {held parent svg d w e w'} hw heq => ?_⟩
  unfold Builder.nest at heq
  cases hpath : Path.ofDirective value with
  | error err =>
    rw [hpath] at heq
    cases heq
  | ok path =>
    rw [hpath] at heq
    dsimp only at heq
    have hfree := not_mem_names_freshName w.catalog dir
    have hholds := hw.reserve_fresh dir
    have hfresh := hw.freshName dir
    generalize w.catalog.freshName dir = fresh at heq hfree hholds hfresh
    obtain ⟨name, cat⟩ := fresh
    cases hreg : Builder.register name svg b
        ({ w with catalog := cat }.tell (.spawned dir value tag name)) with
    | mk r w₁ =>
      dsimp only at heq
      rw [hreg] at heq
      cases r with
      | error err => cases heq
      | ok =>
        obtain ⟨_, rfl⟩ := Prod.mk.inj heq
        obtain ⟨hafter, hcount, hperm⟩ := hb.register hfree hholds hreg
        obtain ⟨rfl, rfl⟩ := Prod.mk.inj hfresh
        exact ⟨hafter, hcount, hperm.trans (.append_left _ (List.perm_append_singleton _ _))⟩

theorem itemwise_numbers : Itemwise fun b is => Numbers b (is.filterMap Item.directive?) where
  nothing := numbers_nothing
  andThen ha hb := by
    rw [List.filterMap_append]
    exact ha.andThen hb
  text := numbers_text
  element tag as h := by
    have hnone : (as.map fun a => Item.content a.value).filterMap Item.directive? = [] := by
      simp [Item.directive?]
    rw [List.filterMap_append, hnone, List.nil_append]
    exact h.element tag as
  nest tag dir value h := h.nest tag dir value

end Builder

/-! ## Compiling -/

namespace Workshop

variable {source : String} {tree : Node} {name : String} {w w' : Workshop}

/-- Whether a tree can be compiled under a free name does not depend on the workshop. -/
theorem compile_of_alone (hread : Markup.read source = .ok tree)
    (halone : (({} : Workshop).compile tree name).1 = .ok ()) (hfree : name ∉ w.catalog.names) :
    (w.compile tree name).1 = .ok () := by
  have hjudges := Builder.judges_of_read hread
  have hempty : failure? (({} : Workshop).compile tree name).1 = firstFault tree.items := by
    rw [failure?_compile]
    exact hjudges.register false List.not_mem_nil
  rw [halone] at hempty
  have hnone : failure? (w.compile tree name).1 = none := by
    rw [failure?_compile, hjudges.register false hfree, ← hempty]
    rfl
  obtain ⟨_, hok⟩ := failure?_eq_none.mp hnone
  exact hok

/-- Compiling draws names for the directives of the tree, and registers them before its own. -/
theorem draw_compile {held : List String} (hread : Markup.read source = .ok tree)
    (hw : w.catalog.Holds held) (hfree : name ∉ w.catalog.names)
    (hok : w.compile tree name = (.ok (), w')) :
    let drawn := Catalog.draw (held ++ [name]) w.catalog.counter tree.spawns
    w'.catalog.Holds (held ++ [name]) ∧ w'.catalog.counter = drawn.2 ∧
      w'.catalog.names.Perm (w.catalog.names ++ (drawn.1 ++ [name])) := by
  have hnumbers := Builder.itemwise_numbers.ofNode_read hread
  unfold compile at hok
  cases hreg : Builder.register name false (Builder.ofNode tree) w with
  | mk r w₁ =>
    rw [hreg] at hok
    cases r with
    | error err => cases hok
    | ok =>
      obtain ⟨_, rfl⟩ := Prod.mk.inj hok
      have hdrawn := hnumbers.register hfree (hw.reserve name) hreg
      exact hdrawn

end Workshop
end Stencil

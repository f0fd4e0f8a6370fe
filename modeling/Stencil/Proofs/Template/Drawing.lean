import Stencil.Proofs.Template.Drafting

/-! Pictures of markup in drafts. A slot is explained by the text, the element or the
directive it was made for. A picture says that markup is drawn at given slots of a draft,
with the templates of a catalog behind its anchors; it stays true while the draft is
extended elsewhere and the catalog grows. -/
namespace Stencil
open Binding Markup

namespace Draft

def attrsAt (d : Draft) (s : Slot) : List Wire := Wire.attrsAt d.wires s

def computationsAt (d : Draft) (s : Slot) : List Computation :=
  Computation.allAt d.index.computations s

def slotsAt (d : Draft) (p : Parent) : List Slot := Wire.slotsAt d.wires p

/-- The draft has grown under `p` and under new nodes only. -/
structure Extends (p : Parent) (d e : Draft) : Prop where
  seeds : d.seeds <+: e.seeds
  computations : d.index.computations <+: e.index.computations
  grows : d.index.Grows e.index
  attrsAt_eq : ∀ s : Nat, s < d.next → e.attrsAt s = d.attrsAt s
  computationsAt_eq : ∀ s : Nat, s < d.next → e.computationsAt s = d.computationsAt s
  slotsAt_eq : ∀ q, q ≠ p → (∀ s : Nat, q = .slot s → s < d.next) → e.slotsAt q = d.slotsAt q

variable {d e f : Draft} {p q : Parent}

theorem Extends.refl (p : Parent) (d : Draft) : d.Extends p d :=
  ⟨List.prefix_rfl, List.prefix_rfl, .refl _, fun _ _ => rfl, fun _ _ => rfl, fun _ _ _ => rfl⟩

theorem Extends.next_le (h : d.Extends p e) : d.next ≤ e.next := h.seeds.length_le

theorem Extends.getElem?_seeds (h : d.Extends p e) {s : Slot} {seed : Seed}
    (hs : d.seeds[s]? = some seed) : e.seeds[s]? = some seed := by
  obtain ⟨l, hl⟩ := h.seeds
  rw [← hl, List.getElem?_append_left (List.getElem?_eq_some_iff.mp hs).1]
  exact hs

/-- Growth under the same parent, or under a node that is new after the first growth. -/
theorem Extends.trans (h : d.Extends p e) (h' : e.Extends q f)
    (hq : q = p ∨ ∃ s : Nat, q = .slot s ∧ d.next ≤ s) : d.Extends p f where
  seeds := h.seeds.trans h'.seeds
  computations := h.computations.trans h'.computations
  grows := h.grows.trans h'.grows
  attrsAt_eq s hs := by
    rw [h'.attrsAt_eq s (Nat.lt_of_lt_of_le hs h.next_le), h.attrsAt_eq s hs]
  computationsAt_eq s hs := by
    rw [h'.computationsAt_eq s (Nat.lt_of_lt_of_le hs h.next_le), h.computationsAt_eq s hs]
  slotsAt_eq r hr hlt := by
    rw [h'.slotsAt_eq r ?_ fun s hs => Nat.lt_of_lt_of_le (hlt s hs) h.next_le,
      h.slotsAt_eq r hr hlt]
    rcases hq with rfl | ⟨s, rfl, hs⟩
    · exact hr
    · rintro rfl
      exact absurd (hlt s rfl) (Nat.not_lt_of_le hs)

variable {parent : Parent} {seed : Seed} {ws : List Wire} {xs : List Computation}

theorem Gains.attrsAt_eq (h : d.Gains e parent seed ws xs) (s : Slot) :
    e.attrsAt s = d.attrsAt s ++ if s = d.next then ws else [] := by
  unfold attrsAt Wire.attrsAt
  rw [h.wires_eq, List.filter_append, List.filter_append]
  congr 1
  have hlast : [Wire.append parent d.next].filter (Wire.isAttrOf s) = [] := rfl
  rw [hlast, List.append_nil]
  split
  · rename_i hs
    refine List.filter_eq_self.mpr fun w hw => ?_
    obtain ⟨⟨_, _, _, rfl⟩, _⟩ := h.attr w hw
    simp [Wire.isAttrOf, hs]
  · rename_i hs
    refine List.filter_eq_nil_iff.mpr fun w hw => ?_
    obtain ⟨⟨_, _, _, rfl⟩, _⟩ := h.attr w hw
    simpa [Wire.isAttrOf] using fun h => hs h.symm

theorem Gains.computationsAt_eq (h : d.Gains e parent seed ws xs) (s : Slot) :
    e.computationsAt s = d.computationsAt s ++ if s = d.next then xs else [] := by
  unfold computationsAt Computation.allAt
  rw [h.computations_eq, List.filter_append]
  congr 1
  split
  · rename_i hs
    refine List.filter_eq_self.mpr fun x hx => ?_
    simp [h.slot_eq x hx, hs]
  · rename_i hs
    refine List.filter_eq_nil_iff.mpr fun x hx => ?_
    simpa [h.slot_eq x hx] using fun h => hs h.symm

theorem Gains.slotsAt_eq (h : d.Gains e parent seed ws xs) (q : Parent) :
    e.slotsAt q = d.slotsAt q ++ if q = parent then [d.next] else [] := by
  have hws : Wire.slotsAt ws q = [] := by
    rw [Wire.slotsAt, List.filterMap_eq_nil_iff]
    intro w hw
    obtain ⟨⟨_, _, _, rfl⟩, _⟩ := h.attr w hw
    rfl
  unfold slotsAt
  rw [h.wires_eq, Wire.slotsAt_append, Wire.slotsAt_append, hws]
  congr 1
  by_cases hq : q = parent
  · simp [Wire.slotsAt, Wire.under, hq]
  · have : parent ≠ q := fun h => hq h.symm
    simp [Wire.slotsAt, Wire.under, hq, this]

theorem Gains.extends (h : d.Gains e parent seed ws xs) : d.Extends parent e where
  seeds := ⟨[seed], h.seeds_eq.symm⟩
  computations := ⟨xs, h.computations_eq.symm⟩
  grows := h.grows
  attrsAt_eq s hs := by rw [h.attrsAt_eq, if_neg (Nat.ne_of_lt hs), List.append_nil]
  computationsAt_eq s hs := by rw [h.computationsAt_eq, if_neg (Nat.ne_of_lt hs), List.append_nil]
  slotsAt_eq q hq _ := by rw [h.slotsAt_eq, if_neg hq, List.append_nil]

/-- Nothing speaks of a node that is not there yet. -/
theorem Sound.attrsAt_next (h : d.Sound) : d.attrsAt d.next = [] := by
  refine List.filter_eq_nil_iff.mpr fun w hw => ?_
  cases w with
  | append => simp [Wire.isAttrOf]
  | attr s space name value =>
    have := Template.lt_of_hasElement ((h.template "").attr_element s space name value hw)
    simpa [Wire.isAttrOf, next, finish] using Nat.ne_of_lt this

theorem slot_lt_of_fits {t : Template} {x : Computation} (h : t.Fits x) :
    (x.slot : Nat) < t.seeds.length := by
  cases x with
  | setText => exact Template.lt_of_hasText h.1
  | setProperty => exact Template.lt_of_hasElement h.1
  | setAttribute => exact Template.lt_of_hasElement h.1
  | unlessFalse => exact Template.lt_of_hasElement h.1
  | reconcile => exact Template.lt_of_hasAnchor h.1

theorem Sound.computationsAt_next (h : d.Sound) : d.computationsAt d.next = [] := by
  refine List.filter_eq_nil_iff.mpr fun x hx => ?_
  have := slot_lt_of_fits ((h.template "").fits x hx)
  simpa [next, finish] using Nat.ne_of_lt this

theorem Sound.slotsAt_next (h : d.Sound) : d.slotsAt (.slot d.next) = [] := by
  refine List.eq_nil_iff_forall_not_mem.mpr fun s hs => ?_
  have hm := Template.mem_slotsAt (t := d.finish "").mp hs
  have := Template.lt_of_hasElement ((h.template "").parent_lt _ _ hm).2
  exact Nat.lt_irrefl _ this

/-! ## What a slot was made for -/

/-- A slot was made for a text, for one of the elements `E`, or for a directive, and all
that is wired and computed for it comes from there. -/
inductive Explained (E : String → List Attribute → Prop) (d : Draft) (s : Slot) : Prop
  | text {raw : String} (seed : d.seeds[s]? = some (.text s (literalText (tidy raw))))
      (attrs : d.attrsAt s = []) (computes : TextComputes d.index.Binds s raw (d.computationsAt s))
  | element {tag : String} {svg : Bool} {as : List Attribute} (source : E tag as)
      (seed : d.seeds[s]? = some (.element s tag svg))
      (furnishes : Furnishes d.index.Binds tag svg s (Builder.plain as) (d.attrsAt s)
        (d.computationsAt s))
  | anchor {dir : Directive} {name : String} {v : Var} {g : Group}
      (seed : d.seeds[s]? = some (.anchor s)) (attrs : d.attrsAt s = [])
      (computes : d.computationsAt s = [.reconcile dir name s v g])

theorem TextComputes.mono {B B' : Path → Var → Prop} {s : Slot} {raw : String}
    (hB : ∀ p v, B p v → B' p v) (h : TextComputes B s raw xs) : TextComputes B' s raw xs := by
  obtain ⟨ss, hr, h | ⟨hd, ps, hi, hx⟩⟩ := h
  · exact ⟨ss, hr, .inl h⟩
  · exact ⟨ss, hr, .inr ⟨hd, ps, hi.mono hB, hx⟩⟩

theorem Explained.extends {E : String → List Attribute → Prop} {s : Nat} (h : Explained E d s)
    (he : d.Extends p e) (hs : s < d.next) : Explained E e s := by
  have ha := he.attrsAt_eq s hs
  have hc := he.computationsAt_eq s hs
  cases h with
  | text seed attrs computes =>
    exact .text (he.getElem?_seeds seed) (ha.trans attrs) (hc ▸ computes.mono he.grows.binds)
  | element source seed furnishes =>
    refine .element source (he.getElem?_seeds seed) ?_
    rw [ha, hc]
    exact furnishes.mono he.grows.binds
  | anchor seed attrs computes =>
    exact .anchor (he.getElem?_seeds seed) (ha.trans attrs) (hc.trans computes)

end Draft

/-! ## Pictures -/

/-- Markup drawn at slots of a draft, from slot `lo` on, with a catalog behind it. -/
abbrev Picture := Catalog → Draft → Nat → Bool → List Slot → Prop

/-- The later catalog finds what the earlier one finds. -/
def Catalog.Within (c c' : Catalog) : Prop := c.templates <+: c'.templates

theorem Catalog.Within.get? {c c' : Catalog} (h : c.Within c') {name : String} {t : Template}
    (ht : c.get? name = some t) : c'.get? name = some t := by
  obtain ⟨l, hl⟩ := h
  unfold Catalog.get? at ht ⊢
  rw [← hl, List.find?_append, ht]
  rfl

namespace Picture

def nothing : Picture := fun _ _ _ _ ss => ss = []

def andThen (P Q : Picture) : Picture := fun c d lo svg ss =>
  ∃ ss₁ ss₂, ss = ss₁ ++ ss₂ ∧ P c d lo svg ss₁ ∧ Q c d lo svg ss₂

def text (raw : String) : Picture := fun _ d lo _ ss =>
  ∃ s : Nat, ss = [s] ∧ lo ≤ s ∧ d.seeds[s]? = some (.text s (literalText (tidy raw))) ∧
    Draft.TextComputes d.index.Binds s raw (d.computationsAt s)

def element (tag : String) (as : List Attribute) (children : Picture) : Picture :=
  fun c d lo inSvg ss => ∃ s : Nat, ss = [s] ∧ lo ≤ s ∧
    d.seeds[s]? = some (.element s tag (inSvg || Vocabulary.isSvgTag tag)) ∧
    Draft.Furnishes d.index.Binds tag (inSvg || Vocabulary.isSvgTag tag) s as (d.attrsAt s)
      (d.computationsAt s) ∧
    children c d lo ((inSvg || Vocabulary.isSvgTag tag) && tag != Vocabulary.foreignObject)
      (d.slotsAt (.slot s))

/-- An anchor, with what is nested drawn in a template of its own. -/
def nest (dir : Directive) (value : String) (inner : Picture) : Picture := fun c d lo svg ss =>
  ∃ (s : Nat) (name : String) (path : Path) (v : Var) (g : Group) (e : Draft), ss = [s] ∧ lo ≤ s ∧
    d.seeds[s]? = some (.anchor s) ∧ Path.ofDirective value = .ok path ∧
    d.computationsAt s = [.reconcile dir name s v g] ∧
    d.index.Binds path v ∧ c.get? name = some (e.finish name) ∧ e.Sound ∧
    inner c e 0 svg (e.slotsAt .root)

mutual

/-- The picture of a node: of a document its first element, or its first child. -/
def ofNode : Node → Picture
  | .document cs => (ofFirstElement? cs).getD (ofHead cs)
  | .text raw => text raw
  | .element tag as cs =>
    (Builder.directives as).foldr (fun x P => nest x.1 x.2 P)
      (element tag (Builder.plain as) (ofChildren cs))

def ofChildren : List Node → Picture
  | [] => nothing
  | n :: ns => andThen (ofNode n) (ofChildren ns)

def ofFirstElement? : List Node → Option Picture
  | [] => none
  | n :: ns => if n.isElement then some (ofNode n) else ofFirstElement? ns

def ofHead : List Node → Picture
  | [] => nothing
  | n :: _ => ofNode n

end

/-- What is drawn stays drawn. -/
def Stable (P : Picture) : Prop := ∀ ⦃c c' : Catalog⦄ ⦃d e : Draft⦄ ⦃p : Parent⦄ ⦃lo lo' : Nat⦄
  ⦃svg : Bool⦄ ⦃ss : List Slot⦄, c.Within c' → d.Extends p e → lo' ≤ lo →
    (∀ s : Nat, p = .slot s → s < lo) → P c d lo svg ss → P c' e lo' svg ss

/-- What grows under the root grows under no slot. -/
theorem lt_of_root {lo : Nat} : ∀ s : Nat, Parent.root = .slot s → s < lo := by
  intro s h
  cases h

theorem stable_nothing : Stable nothing := by
  intro _ _ _ _ _ _ _ _ _ _ _ _ _ h
  exact h

theorem Stable.andThen {P Q : Picture} (hP : Stable P) (hQ : Stable Q) : Stable (P.andThen Q) := by
  rintro c c' d e p lo lo' svg ss hc he hle hlo ⟨ss₁, ss₂, rfl, h₁, h₂⟩
  exact ⟨ss₁, ss₂, rfl, hP hc he hle hlo h₁, hQ hc he hle hlo h₂⟩

private theorem lt_next {d : Draft} {s : Nat} {seed : Seed} (h : d.seeds[s]? = some seed) :
    s < d.next :=
  (List.getElem?_eq_some_iff.mp h).1

theorem stable_text (raw : String) : Stable (text raw) := by
  rintro c c' d e p lo lo' svg ss hc he hle hlo ⟨s, rfl, hs, hseed, hx⟩
  refine ⟨s, rfl, Nat.le_trans hle hs, he.getElem?_seeds hseed, ?_⟩
  rw [he.computationsAt_eq s (lt_next hseed)]
  exact hx.mono he.grows.binds

theorem Stable.element {C : Picture} (hC : Stable C) (tag : String) (as : List Attribute) :
    Stable (element tag as C) := by
  rintro c c' d e p lo lo' svg ss hc he hle hlo ⟨s, rfl, hs, hseed, hf, hch⟩
  have hlt := lt_next hseed
  refine ⟨s, rfl, Nat.le_trans hle hs, he.getElem?_seeds hseed, ?_, ?_⟩
  · rw [he.attrsAt_eq s hlt, he.computationsAt_eq s hlt]
    exact hf.mono he.grows.binds
  · have hne : Parent.slot s ≠ p := by
      rintro rfl
      exact absurd (hlo s rfl) (Nat.not_lt_of_le hs)
    rw [he.slotsAt_eq (.slot s) hne fun s' h => by cases h; exact hlt]
    exact hC hc he hle hlo hch

theorem Stable.nest {P : Picture} (hP : Stable P) (dir : Directive) (value : String) :
    Stable (nest dir value P) := by
  rintro c c' d e p lo lo' svg ss hc he hle hlo
    ⟨s, name, path, v, g, f, rfl, hs, hseed, hp, hx, hv, hn, hf, hin⟩
  refine ⟨s, name, path, v, g, f, rfl, Nat.le_trans hle hs, he.getElem?_seeds hseed, hp, ?_,
    he.grows.binds _ _ hv, hc.get? hn, hf,
    hP hc (.refl .root f) (Nat.le_refl 0) lt_of_root hin⟩
  rw [he.computationsAt_eq s (lt_next hseed)]
  exact hx

theorem Stable.foldr_nest {P : Picture} (hP : Stable P) (ds : List (Directive × String)) :
    Stable (ds.foldr (fun x P => Picture.nest x.1 x.2 P) P) := by
  induction ds with
  | nil => exact hP
  | cons x ds ih => exact ih.nest x.1 x.2

/-- The picture stands at one slot. -/
def One (P : Picture) : Prop :=
  ∀ ⦃c : Catalog⦄ ⦃d : Draft⦄ ⦃lo : Nat⦄ ⦃svg : Bool⦄ ⦃ss : List Slot⦄,
  P c d lo svg ss → ∃ s, ss = [s]

theorem one_element (tag : String) (as : List Attribute) (C : Picture) :
    One (element tag as C) := by
  rintro c d lo svg ss ⟨s, rfl, _⟩
  exact ⟨s, rfl⟩

theorem one_nest (dir : Directive) (value : String) (P : Picture) : One (nest dir value P) := by
  rintro c d lo svg ss ⟨s, _, _, _, _, _, rfl, _⟩
  exact ⟨s, rfl⟩

theorem One.foldr_nest {P : Picture} (hP : One P) (ds : List (Directive × String)) :
    One (ds.foldr (fun x P => Picture.nest x.1 x.2 P) P) := by
  cases ds with
  | nil => exact hP
  | cons x ds => exact one_nest x.1 x.2 _

mutual

theorem stable_ofNode : ∀ n : Node, Stable (ofNode n)
  | .document cs => by
    rw [ofNode]
    cases h : ofFirstElement? cs with
    | none => exact stable_ofHead cs
    | some P => exact stable_ofFirstElement? cs P h
  | .text raw => stable_text raw
  | .element tag as cs => by
    rw [ofNode]
    exact ((stable_ofChildren cs).element tag _).foldr_nest _

theorem stable_ofChildren : ∀ ns : List Node, Stable (ofChildren ns)
  | [] => stable_nothing
  | n :: ns => (stable_ofNode n).andThen (stable_ofChildren ns)

theorem stable_ofFirstElement? : ∀ (ns : List Node) (P : Picture), ofFirstElement? ns = some P →
    Stable P
  | [], _, h => nomatch h
  | n :: ns, P, h => by
    rw [ofFirstElement?] at h
    split at h
    · cases h
      exact stable_ofNode n
    · exact stable_ofFirstElement? ns P h

theorem stable_ofHead : ∀ ns : List Node, Stable (ofHead ns)
  | [] => stable_nothing
  | n :: _ => stable_ofNode n

end

theorem one_ofNode_element (tag : String) (as : List Attribute) (cs : List Node) :
    One (ofNode (.element tag as cs)) := by
  rw [ofNode]
  exact (one_element tag _ _).foldr_nest _

end Picture
end Stencil

import Mathlib.Logic.Equiv.Basic
import Stencil.Proofs.Template.Registering

/-! Compiling beside other templates. Two runs of a builder, over any two catalogs, take the
same course: the names that one gives out are paired with those of the other, in order, and
the templates that they add are equal but for paired names. So what a tree is compiled to
depends on the rest of the catalog in the names of nested templates only. -/
namespace Stencil
open Binding Markup

/-! ## Renaming -/

/-- The computation with nested templates renamed. -/
def Computation.rename (f : String → String) : Computation → Computation
  | .reconcile dir name s v g => .reconcile dir (f name) s v g
  | .unlessFalse s name v setter => .unlessFalse s name v (setter.rename f)
  | x => x

/-- The template with itself and nested templates renamed. -/
def Template.rename (f : String → String) (t : Template) : Template :=
  { t with name := f t.name, computations := t.computations.map (Computation.rename f) }

theorem Computation.rename_eq_self (f : String → String) {x : Computation}
    (h : x.target? = none) : x.rename f = x := by
  induction x with
  | unlessFalse s name v setter ih => rw [rename, ih h]
  | reconcile => cases h
  | _ => rfl

/-- Names that are paired one to one are the values of a permutation at each other. -/
theorem exists_perm_of_pairs (ρ : List (String × String)) (hleft : (ρ.map (·.1)).Nodup)
    (hright : (ρ.map (·.2)).Nodup) : ∃ σ : Equiv.Perm String, ∀ p ∈ ρ, σ p.1 = p.2 := by
  induction ρ with
  | nil => exact ⟨Equiv.refl String, fun p hp => by cases hp⟩
  | cons q ρ ih =>
    rw [List.map_cons, List.nodup_cons] at hleft hright
    obtain ⟨σ, hσ⟩ := ih hleft.2 hright.2
    refine ⟨σ.trans (Equiv.swap (σ q.1) q.2), fun p hp => ?_⟩
    rw [Equiv.trans_apply]
    rcases List.mem_cons.mp hp with rfl | hp
    · exact Equiv.swap_apply_left _ _
    · have hne : σ p.1 ≠ σ q.1 := fun h =>
        hleft.1 (σ.injective h ▸ List.mem_map_of_mem hp)
      have hne' : σ p.1 ≠ q.2 := fun h =>
        hright.1 (h ▸ (hσ p hp).symm ▸ List.mem_map_of_mem hp)
      rw [Equiv.swap_apply_of_ne_of_ne hne hne', hσ p hp]

/-! ## Equal but for paired names -/

/-- Equal but for the name of a nested template. -/
inductive Computation.Matches (ρ : List (String × String)) : Computation → Computation → Prop
  | same {x : Computation} (h : x.target? = none) : Matches ρ x x
  | reconcile {dir : Directive} {name name' : String} {s : Slot} {v : Var} {g : Group}
      (h : (name, name') ∈ ρ) :
      Matches ρ (.reconcile dir name s v g) (.reconcile dir name' s v g)

variable {ρ ρ' : List (String × String)}

theorem Computation.Matches.mono {x y : Computation} (h : Matches ρ x y) (hρ : ρ ⊆ ρ') :
    Matches ρ' x y := by
  cases h with
  | same h => exact .same h
  | reconcile h => exact .reconcile (hρ h)

theorem Computation.Matches.eq_rename {x y : Computation} (h : Matches ρ x y)
    {f : String → String} (hf : ∀ p ∈ ρ, f p.1 = p.2) : y = x.rename f := by
  cases h with
  | same h => exact (rename_eq_self f h).symm
  | reconcile h => rw [rename, hf _ h]

/-- Equal but for the names of the template and of nested ones. -/
def Template.Matches (ρ : List (String × String)) (t t' : Template) : Prop :=
  ∃ name xs, (t.name, name) ∈ ρ ∧ t' = { t with name := name, computations := xs } ∧
    List.Forall₂ (Computation.Matches ρ) t.computations xs

theorem Template.Matches.mono {t t' : Template} (h : Matches ρ t t') (hρ : ρ ⊆ ρ') :
    Matches ρ' t t' := by
  obtain ⟨name, xs, hname, rfl, hxs⟩ := h
  exact ⟨name, xs, hρ hname, rfl, hxs.imp fun _ _ h => h.mono hρ⟩

theorem Template.Matches.eq_rename {t t' : Template} (h : Matches ρ t t') {f : String → String}
    (hf : ∀ p ∈ ρ, f p.1 = p.2) : t' = t.rename f := by
  obtain ⟨name, xs, hname, rfl, hxs⟩ := h
  have hmap : xs = t.computations.map (Computation.rename f) := by
    rw [← List.forall₂_eq_eq_eq, List.forall₂_map_right_iff]
    exact hxs.flip.imp fun _ _ h => h.eq_rename hf
  rw [rename, ← hmap, hf _ hname]

namespace Binding.Index

variable {α : Type} {R : α → α → Prop} {ix ix' : Index α}

/-- Equal but for the computations, which are related one by one. -/
structure Matches (R : α → α → Prop) (ix ix' : Index α) : Prop where
  trie_eq : ix'.trie = ix.trie
  varCount_eq : ix'.varCount = ix.varCount
  computations : List.Forall₂ R ix.computations ix'.computations

theorem Matches.assign (h : Matches R ix ix') (p : Path) :
    (ix'.assign p).1 = (ix.assign p).1 ∧ Matches R (ix.assign p).2 (ix'.assign p).2 := by
  unfold Index.assign
  rw [h.trie_eq, h.varCount_eq]
  cases ix.trie.var? p.segments with
  | some v => exact ⟨rfl, h⟩
  | none => exact ⟨rfl, rfl, rfl, h.computations⟩

theorem Matches.interpolate (ss : List Segment) : ∀ {ix ix' : Index α}, Matches R ix ix' →
    (Index.interpolate ss ix').1 = (Index.interpolate ss ix).1 ∧
      Matches R (Index.interpolate ss ix).2 (Index.interpolate ss ix').2 := by
  induction ss with
  | nil => exact fun h => ⟨rfl, h⟩
  | cons s ss ih =>
    intro ix ix' h
    cases s with
    | literal s =>
      obtain ⟨hparts, hix⟩ := ih h
      simp only [Index.interpolate]
      exact ⟨by rw [hparts], hix⟩
    | reference p =>
      obtain ⟨hv, hassign⟩ := h.assign p
      obtain ⟨hparts, hix⟩ := ih hassign
      simp only [Index.interpolate]
      exact ⟨by rw [hv, hparts], hix⟩

theorem Matches.record (h : Matches R ix ix') {a a' : α} (ha : R a a') (ps : List Path) :
    Matches R (ix.record a ps) (ix'.record a' ps) where
  trie_eq := by
    unfold Index.record
    rw [h.trie_eq, h.computations.length_eq]
  varCount_eq := h.varCount_eq
  computations := List.rel_append h.computations (.cons ha .nil)

theorem Matches.gather (h : Matches R ix ix') (ss : List Segment) {build : Interpolation → α}
    (hbuild : ∀ value, R (build value) (build value)) :
    Matches R (ix.gather ss build) (ix'.gather ss build) := by
  obtain ⟨hparts, hix⟩ := h.interpolate ss
  unfold Index.gather
  dsimp only
  rw [hparts]
  exact hix.record (hbuild _) _

end Binding.Index

/-- Both fail in the same way, or both succeed with related results. -/
def Agrees {ε α : Type} (R : α → α → Prop) : Except ε α → Except ε α → Prop
  | .ok a, .ok b => R a b
  | .error e, .error e' => e = e'
  | _, _ => False

theorem Agrees.cases {ε α : Type} {R : α → α → Prop} {x y : Except ε α} (h : Agrees R x y) :
    (∃ e, x = .error e ∧ y = .error e) ∨ ∃ a b, x = .ok a ∧ y = .ok b ∧ R a b := by
  cases x with
  | error e =>
    cases y with
    | error e' => exact .inl ⟨e, rfl, congrArg _ (Eq.symm h)⟩
    | ok b => exact h.elim
  | ok a =>
    cases y with
    | error e' => exact h.elim
    | ok b => exact .inr ⟨a, b, rfl, rfl, h⟩

namespace Draft

/-- Equal but for the names of nested templates. -/
def Matches (ρ : List (String × String)) (d d' : Draft) : Prop :=
  ∃ ix, d' = { d with index := ix } ∧ d.index.Matches (Computation.Matches ρ) ix

variable {d d' : Draft}

theorem matches_empty (ρ : List (String × String)) : Matches ρ {} {} :=
  ⟨{}, rfl, rfl, rfl, .nil⟩

theorem Matches.mono (h : Matches ρ d d') (hρ : ρ ⊆ ρ') : Matches ρ' d d' := by
  obtain ⟨ix, rfl, hix⟩ := h
  exact ⟨ix, rfl, hix.trie_eq, hix.varCount_eq, hix.computations.imp fun _ _ h => h.mono hρ⟩

theorem Matches.finish (h : Matches ρ d d') {name name' : String} (hname : (name, name') ∈ ρ) :
    Template.Matches ρ (d.finish name) (d'.finish name') := by
  obtain ⟨ix, rfl, hix⟩ := h
  refine ⟨name', ix.computations, hname, ?_, hix.computations⟩
  simp [Draft.finish, Index.routes, hix.trie_eq, hix.varCount_eq, hix.computations.length_eq]

theorem Matches.compute (h : Matches ρ d d') (ss : List Segment)
    {build : Interpolation → Computation} (hbuild : ∀ value, (build value).target? = none) :
    Matches ρ (d.compute ss build) (d'.compute ss build) := by
  obtain ⟨ix, rfl, hix⟩ := h
  exact ⟨_, rfl, hix.gather ss fun value => .same (hbuild value)⟩

theorem Matches.plant (h : Matches ρ d d') (s : Seed) : Matches ρ (d.plant s) (d'.plant s) := by
  obtain ⟨ix, rfl, hix⟩ := h
  exact ⟨ix, rfl, hix⟩

theorem Matches.wire (h : Matches ρ d d') (x : Wire) : Matches ρ (d.wire x) (d'.wire x) := by
  obtain ⟨ix, rfl, hix⟩ := h
  exact ⟨ix, rfl, hix⟩

theorem Matches.append (h : Matches ρ d d') (parent : Parent) (s : Slot) :
    Matches ρ (d.append parent s) (d'.append parent s) := by
  obtain ⟨ix, rfl, hix⟩ := h
  exact ⟨ix, rfl, hix⟩

theorem Matches.next_eq (h : Matches ρ d d') : d'.next = d.next := by
  obtain ⟨ix, rfl, _⟩ := h
  rfl

theorem Matches.addText (h : Matches ρ d d') (raw : String) (parent : Parent) :
    Agrees (Matches ρ) (d.addText raw parent) (d'.addText raw parent) := by
  unfold Draft.addText
  rw [h.next_eq]
  dsimp only
  cases Segment.readAll (tidy raw) with
  | error e => exact rfl
  | ok ss =>
    refine Matches.append ?_ parent d.next
    split
    · exact (h.plant _).compute ss fun _ => rfl
    · exact h.plant _

theorem Matches.addAttribute (h : Matches ρ d d') (tag : String) (svg : Bool) (s : Slot)
    (a : Attribute) :
    Agrees (Matches ρ) (d.addAttribute tag svg s a) (d'.addAttribute tag svg s a) := by
  unfold Draft.addAttribute
  dsimp only
  cases Segment.readAll (tidy a.value) with
  | error e => exact rfl
  | ok ss =>
    have hsetter := target?_attributeSetter tag svg s a.name (literalText (tidy a.value) == "")
    change Matches ρ _ _
    split <;> split
    · exact (h.wire _).compute ss hsetter
    · exact h.compute ss hsetter
    · exact h.wire _
    · exact h

theorem Matches.addAttributes (tag : String) (svg : Bool) (s : Slot) (as : List Attribute) :
    ∀ {d d' : Draft}, Matches ρ d d' →
      Agrees (Matches ρ) (d.addAttributes tag svg s as) (d'.addAttributes tag svg s as) := by
  induction as with
  | nil => exact fun h => h
  | cons a as ih =>
    intro d d' h
    rw [Draft.addAttributes, Draft.addAttributes]
    rcases (h.addAttribute tag svg s a).cases with ⟨e, he, he'⟩ | ⟨d₁, d₁', he, he', h₁⟩ <;>
      rw [he, he']
    · exact rfl
    · exact ih h₁

theorem Matches.addElement (h : Matches ρ d d') (tag : String) (svg : Bool) (as : List Attribute)
    (parent : Parent) :
    Agrees (Matches ρ) (d.addElement tag svg as parent) (d'.addElement tag svg as parent) := by
  unfold Draft.addElement
  rw [h.next_eq]
  dsimp only
  rcases (Matches.addAttributes tag svg d.next as (h.plant (.element d.next tag svg))).cases with
    ⟨e, he, he'⟩ | ⟨d₁, d₁', he, he', h₁⟩ <;> rw [he, he']
  · exact rfl
  · exact h₁.append parent d.next

theorem Matches.addAnchor (h : Matches ρ d d') (dir : Directive) {name name' : String}
    (hname : (name, name') ∈ ρ) (path : Path) (parent : Parent) :
    Matches ρ (d.addAnchor dir name path parent) (d'.addAnchor dir name' path parent) := by
  obtain ⟨ix, rfl, hix⟩ := h
  obtain ⟨hv, hassign⟩ := hix.assign path
  refine ⟨_, rfl, hassign.record ?_ [path]⟩
  change Computation.Matches ρ (.reconcile dir name d.next _ d.groupCount)
    (.reconcile dir name' d.next (ix.assign path).1 d.groupCount)
  rw [hv]
  exact .reconcile hname

end Draft

/-! ## Catalogs -/

namespace Catalog

/-- Names paired one to one, each spent in its catalog. -/
structure Paired (ρ : List (String × String)) (c c' : Catalog) : Prop where
  nodup_left : (ρ.map (·.1)).Nodup
  nodup_right : (ρ.map (·.2)).Nodup
  spent : ∀ p ∈ ρ, c.Spent p.1 ∧ c'.Spent p.2

variable {c c' c₁ c₁' c₂ c₂' : Catalog}

theorem Paired.mono (h : Paired ρ c c') (hc : ∀ x, c.Spent x → c₁.Spent x)
    (hc' : ∀ x, c'.Spent x → c₁'.Spent x) : Paired ρ c₁ c₁' :=
  ⟨h.nodup_left, h.nodup_right, fun p hp => ⟨hc _ (h.spent p hp).1, hc' _ (h.spent p hp).2⟩⟩

/-- New names can be paired. -/
theorem Paired.snoc (h : Paired ρ c c') {x x' : String} (hx : ¬ c.Spent x) (hx' : ¬ c'.Spent x')
    (hc : ∀ y, c.Spent y → c₁.Spent y) (hc' : ∀ y, c'.Spent y → c₁'.Spent y)
    (hs : c₁.Spent x) (hs' : c₁'.Spent x') : Paired (ρ ++ [(x, x')]) c₁ c₁' where
  nodup_left := by
    rw [List.map_append]
    refine List.nodup_append.mpr ⟨h.nodup_left, List.nodup_singleton _, ?_⟩
    rintro y hy _ hy' rfl
    obtain ⟨p, hp, rfl⟩ := List.mem_map.mp hy
    have heq : p.1 = x := List.mem_singleton.mp hy'
    exact hx (heq ▸ (h.spent p hp).1)
  nodup_right := by
    rw [List.map_append]
    refine List.nodup_append.mpr ⟨h.nodup_right, List.nodup_singleton _, ?_⟩
    rintro y hy _ hy' rfl
    obtain ⟨p, hp, rfl⟩ := List.mem_map.mp hy
    have heq : p.2 = x' := List.mem_singleton.mp hy'
    exact hx' (heq ▸ (h.spent p hp).2)
  spent p hp := by
    rcases List.mem_append.mp hp with hp | hp
    · exact ⟨hc _ (h.spent p hp).1, hc' _ (h.spent p hp).2⟩
    · rw [List.mem_singleton.mp hp]
      exact ⟨hs, hs'⟩

/-- Two catalogs got templates that are equal but for paired names. -/
def Mirrors (ρ : List (String × String)) (c c₁ c' c₁' : Catalog) : Prop :=
  ∃ ts ts', c₁.templates = c.templates ++ ts ∧ c₁'.templates = c'.templates ++ ts' ∧
    List.Forall₂ (Template.Matches ρ) ts ts' ∧ Paired ρ c₁ c₁'

theorem Mirrors.refl (h : Paired ρ c c') : Mirrors ρ c c c' c' :=
  ⟨[], [], (List.append_nil _).symm, (List.append_nil _).symm, .nil, h⟩

theorem Mirrors.paired (h : Mirrors ρ c c₁ c' c₁') : Paired ρ c₁ c₁' := by
  obtain ⟨_, _, _, _, _, h⟩ := h
  exact h

theorem Mirrors.trans (h : Mirrors ρ c c₁ c' c₁') (hρ : ρ ⊆ ρ') (h' : Mirrors ρ' c₁ c₂ c₁' c₂') :
    Mirrors ρ' c c₂ c' c₂' := by
  obtain ⟨ts, ts', hts, hts', hm, _⟩ := h
  obtain ⟨us, us', hus, hus', hm', hp⟩ := h'
  refine ⟨ts ++ us, ts' ++ us', by rw [hus, hts, List.append_assoc],
    by rw [hus', hts', List.append_assoc], List.rel_append (hm.imp fun _ _ h => h.mono hρ) hm', hp⟩

/-- Nothing is said of what is pending and of the count. -/
theorem Mirrors.congr_left {c₀ c₀' : Catalog} (h : Mirrors ρ c c₁ c' c₁')
    (hc : c.templates = c₀.templates) (hc' : c'.templates = c₀'.templates) :
    Mirrors ρ c₀ c₁ c₀' c₁' := by
  obtain ⟨ts, ts', hts, hts', hm, hp⟩ := h
  exact ⟨ts, ts', hc ▸ hts, hc' ▸ hts', hm, hp⟩

theorem Mirrors.add (h : Mirrors ρ c c₁ c' c₁') {t t' : Template} (ht : Template.Matches ρ t t') :
    Mirrors ρ c ((c₁.free t.name).add t) c' ((c₁'.free t'.name).add t') := by
  obtain ⟨ts, ts', hts, hts', hm, hp⟩ := h
  refine ⟨ts ++ [t], ts' ++ [t'], ?_, ?_, List.rel_append hm (.cons ht .nil),
    hp.mono (fun _ h => h.add t) fun _ h => h.add t'⟩
  · change c₁.templates ++ [t] = _
    rw [hts, List.append_assoc]
  · change c₁'.templates ++ [t'] = _
    rw [hts', List.append_assoc]

end Catalog

/-! ## Builders -/

namespace Builder

/-- Two runs of the builder from drafts that match take the same course. -/
def Mirrors (b : Builder) : Prop := ∀ ρ parent svg (d d' : Draft) (w w' : Workshop),
  d.Matches ρ d' → Catalog.Paired ρ w.catalog w'.catalog →
    ∃ ρ', ρ ⊆ ρ' ∧
      Catalog.Mirrors ρ' w.catalog (b parent svg d w).2.catalog w'.catalog
        (b parent svg d' w').2.catalog ∧
      Agrees (Draft.Matches ρ') (b parent svg d w).1 (b parent svg d' w').1

theorem mirrors_nothing : Mirrors nothing := fun ρ _ _ _ _ _ _ hd hp =>
  ⟨ρ, List.Subset.refl ρ, .refl hp, hd⟩

theorem mirrors_text (raw : String) : Mirrors (text raw) := fun ρ parent _ _ _ _ _ hd hp =>
  ⟨ρ, List.Subset.refl ρ, .refl hp, hd.addText raw parent⟩

theorem Mirrors.andThen {a b : Builder} (ha : Mirrors a) (hb : Mirrors b) :
    Mirrors (andThen a b) := by
  intro ρ parent svg d d' w w' hd hp
  obtain ⟨ρ₁, hρ₁, hm₁, hr₁⟩ := ha ρ parent svg d d' w w' hd hp
  unfold Builder.andThen
  generalize a parent svg d w = r at hm₁ hr₁ ⊢
  generalize a parent svg d' w' = r' at hm₁ hr₁ ⊢
  obtain ⟨res, w₁⟩ := r
  obtain ⟨res', w₁'⟩ := r'
  rcases hr₁.cases with ⟨err, rfl, rfl⟩ | ⟨d₁, d₁', rfl, rfl, hd₁⟩
  · exact ⟨ρ₁, hρ₁, hm₁, rfl⟩
  · obtain ⟨ρ₂, hρ₂, hm₂, hr₂⟩ := hb ρ₁ parent svg d₁ d₁' w₁ w₁' hd₁ hm₁.paired
    exact ⟨ρ₂, List.Subset.trans hρ₁ hρ₂, hm₁.trans hρ₂ hm₂, hr₂⟩

theorem Mirrors.element {C : Builder} (hC : Mirrors C) (tag : String) (as : List Attribute) :
    Mirrors (element tag as C) := by
  intro ρ parent inSvg d d' w w' hd hp
  unfold Builder.element
  dsimp only
  rw [hd.next_eq]
  rcases (hd.addElement tag (inSvg || Vocabulary.isSvgTag tag) as parent).cases with
    ⟨err, he, he'⟩ | ⟨d₁, d₁', he, he', hd₁⟩ <;> rw [he, he']
  · exact ⟨ρ, List.Subset.refl ρ, .refl hp, rfl⟩
  · exact hC ρ _ _ d₁ d₁' w w' hd₁ hp

/-- Registering under paired names, which are reserved, takes the same course. -/
theorem mirrors_register {b : Builder} (hn : Names b) (hb : Mirrors b) (svg : Bool)
    {name name' : String} (hname : (name, name') ∈ ρ) (w w' : Workshop)
    (hfree : name ∉ w.catalog.names) (hfree' : name' ∉ w'.catalog.names)
    (hp : Catalog.Paired ρ (w.catalog.reserve name) (w'.catalog.reserve name')) :
    (register name' svg b w').1 = (register name svg b w).1 ∧ ∃ ρ', ρ ⊆ ρ' ∧
      Catalog.Mirrors ρ' w.catalog (register name svg b w).2.catalog w'.catalog
        (register name' svg b w').2.catalog := by
  obtain ⟨ρ', hρ, hm, hr⟩ := hb ρ .root svg {} {} { w with catalog := w.catalog.reserve name }
    { w' with catalog := w'.catalog.reserve name' } (Draft.matches_empty ρ) hp
  obtain ⟨_, _, _, hcases⟩ := register_cases hn svg hfree
  obtain ⟨_, _, _, hcases'⟩ := register_cases hn svg hfree'
  generalize b .root svg {} { w with catalog := w.catalog.reserve name } = r at hm hr hcases
  generalize b .root svg {} { w' with catalog := w'.catalog.reserve name' } = r' at hm hr hcases'
  have hm₀ : Catalog.Mirrors ρ' w.catalog r.2.catalog w'.catalog r'.2.catalog :=
    hm.congr_left rfl rfl
  rcases hcases with ⟨err, he, _, heq⟩ | ⟨d, he, _, heq⟩ <;>
    rcases hcases' with ⟨err', he', _, heq'⟩ | ⟨d', he', _, heq'⟩ <;>
    rw [he, he'] at hr <;> rw [heq, heq']
  · obtain rfl : err = err' := hr
    exact ⟨rfl, ρ', hρ, hm₀⟩
  · exact hr.elim
  · exact hr.elim
  · exact ⟨rfl, ρ', hρ, hm₀.add (Draft.Matches.finish hr (hρ hname))⟩

theorem Mirrors.nest {b : Builder} (hn : Names b) (hb : Mirrors b) (tag : String)
    (dir : Directive) (value : String) : Mirrors (nest tag dir value b) := by
  intro ρ parent svg d d' w w' hd hp
  unfold Builder.nest
  cases Path.ofDirective value with
  | error err => exact ⟨ρ, List.Subset.refl ρ, .refl hp, rfl⟩
  | ok path =>
    dsimp only
    have hfree := not_mem_names_freshName w.catalog dir
    have hfree' := not_mem_names_freshName w'.catalog dir
    have hpair := hp.snoc (w.catalog.not_spent_freshName dir) (w'.catalog.not_spent_freshName dir)
      (fun _ h => h.freshName dir) (fun _ h => h.freshName dir)
      (w.catalog.spent_freshName dir) (w'.catalog.spent_freshName dir)
    have hcat : (w.catalog.freshName dir).2.templates = w.catalog.templates := rfl
    have hcat' : (w'.catalog.freshName dir).2.templates = w'.catalog.templates := rfl
    generalize w.catalog.freshName dir = fresh at hfree hpair hcat ⊢
    generalize w'.catalog.freshName dir = fresh' at hfree' hpair hcat' ⊢
    obtain ⟨name, cat⟩ := fresh
    obtain ⟨name', cat'⟩ := fresh'
    have hmem : (name, name') ∈ ρ ++ [(name, name')] :=
      List.mem_append_right _ (List.mem_singleton_self _)
    obtain ⟨hres, ρ', hρ, hm⟩ := mirrors_register hn hb svg hmem
      ({ w with catalog := cat }.tell (.spawned dir value tag name))
      ({ w' with catalog := cat' }.tell (.spawned dir value tag name')) hfree hfree'
      (hpair.mono (fun _ h => h.reserve name) fun _ h => h.reserve name')
    have hm₀ := hm.congr_left hcat hcat'
    have hρ₀ : ρ ⊆ ρ' := fun p hp => hρ (List.mem_append_left _ hp)
    generalize register name svg b ({ w with catalog := cat }.tell _) = r at hres hm₀ ⊢
    generalize register name' svg b ({ w' with catalog := cat' }.tell _) = r' at hres hm₀ ⊢
    obtain ⟨res, w₁⟩ := r
    obtain ⟨res', w₁'⟩ := r'
    obtain rfl : res' = res := hres
    refine ⟨ρ', hρ₀, ?_⟩
    cases res' with
    | error err => exact ⟨hm₀, rfl⟩
    | ok => exact ⟨hm₀, (hd.mono hρ₀).addAnchor dir (hρ hmem) path parent⟩

theorem mirrors_ofNode (n : Node) : (ofNode n).Names ∧ (ofNode n).Mirrors := by
  have hkept : Tracer.Kept fun b _ => b.Names ∧ b.Mirrors := {
    nothing := ⟨names_nothing, mirrors_nothing⟩
    andThen := fun ha hb => ⟨ha.1.andThen hb.1, ha.2.andThen hb.2⟩
    text := fun raw => ⟨names_text raw, mirrors_text raw⟩
    element := fun tag as h => ⟨h.1.element tag as, h.2.element tag as⟩
    nest := fun tag dir value h => ⟨h.1.nest tag dir value, h.2.nest h.1 tag dir value⟩ }
  exact hkept.ofNode n

end Builder

/-! ## Compiling -/

namespace Workshop

theorem result_compile (tree : Node) (name : String) (w : Workshop) :
    (w.compile tree name).1 = (Builder.register name false (.ofNode tree) w).1 := by
  unfold compile
  generalize Builder.register name false (.ofNode tree) w = r
  obtain ⟨err | ⟨⟩, w₁⟩ := r <;> rfl

/-- Under a name that is free a tree is compiled as if there were nothing else: with the
same result, and to the same templates, if those of the empty workshop are renamed one to
one and the name itself is kept. -/
theorem compile_alone (tree : Node) (name : String) (w : Workshop)
    (hfree : name ∉ w.catalog.names) :
    (w.compile tree name).1 = (({} : Workshop).compile tree name).1 ∧
      ∃ ts f, (w.compile tree name).2.catalog.templates = w.catalog.templates ++ ts ∧
        Function.Injective f ∧ f name = name ∧
        ts = (({} : Workshop).compile tree name).2.catalog.templates.map (Template.rename f) := by
  have hp : Catalog.Paired [(name, name)] (({} : Catalog).reserve name)
      (w.catalog.reserve name) := by
    refine ⟨List.nodup_singleton _, List.nodup_singleton _, fun p hp => ?_⟩
    rw [List.mem_singleton.mp hp]
    exact ⟨Catalog.spent_reserve _ _, Catalog.spent_reserve _ _⟩
  obtain ⟨hnames, hmirrors⟩ := Builder.mirrors_ofNode tree
  obtain ⟨hres, ρ, hρ, ts, ts', hts, hts', hm, hpair⟩ := Builder.mirrors_register hnames hmirrors
    false (List.mem_singleton_self _) {} w List.not_mem_nil hfree hp
  obtain ⟨σ, hσ⟩ := exists_perm_of_pairs ρ hpair.nodup_left hpair.nodup_right
  rw [result_compile, result_compile, catalog_compile, catalog_compile]
  refine ⟨hres, ts', σ, hts', σ.injective, hσ _ (hρ (List.mem_singleton_self _)), ?_⟩
  rw [hts, List.nil_append, ← List.forall₂_eq_eq_eq, List.forall₂_map_right_iff]
  exact hm.flip.imp fun _ _ h => Template.Matches.eq_rename h hσ

/-- A directive within a directive, after a tree that failed with a nested template done
and beside a name like those that are given out. -/
theorem compile_alone_list :
    let calls := [(treeOf "<div><p if=\"a\">x</p>\x7b\x7b..\x7d\x7d</div>", "fails"),
      (.text "", "if2")]
    let w := compileAll calls {}
    let tree := treeOf "<ul><li for=\"items\"><b if=\"on\">x</b></li></ul>"
    w.catalog.names = ["if0", "if2"] ∧ "list" ∉ w.catalog.names ∧
      (({} : Workshop).compile tree "list").2.catalog.names = ["if1", "for0", "list"] ∧
      (w.compile tree "list").2.catalog.names = ["if0", "if2", "if3", "for1", "list"] ∧
      ∃ ts f, (w.compile tree "list").2.catalog.templates = w.catalog.templates ++ ts ∧
        Function.Injective f ∧ f "list" = "list" ∧
        ts = (({} : Workshop).compile tree "list").2.catalog.templates.map (Template.rename f) := by
  intro calls w tree
  have hfree : "list" ∉ w.catalog.names := by decide +kernel
  exact ⟨by decide +kernel, hfree, by decide +kernel, by decide +kernel,
    (compile_alone tree "list" w hfree).2⟩

end Workshop
end Stencil

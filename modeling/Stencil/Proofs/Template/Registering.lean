import Stencil.Proofs.Template.Naming
import Stencil.Proofs.Template.Rooting

/-! Registering templates. Whatever is asked of a catalog, its templates stay as they are
and new ones come after them; names differ, templates stand after those that they nest,
and no name is nested twice. A name given out is new: it was not given out before, no
template has it, and none that is being built. -/
namespace Stencil
open Binding Markup

/-! ## Catalogs -/

namespace Catalog

/-- The templates `ts` were added under names that were not spent; those called `xs` are
still to be nested. -/
structure Registers (c c' : Catalog) (ts : List Template) (xs : List String) : Prop where
  templates_eq : c'.templates = c.templates ++ ts
  spent : ∀ x, c.Spent x → c'.Spent x
  new : ∀ x ∈ ts.map (·.name), ¬ c.Spent x
  orderly : Template.Orderly ts xs

namespace Registers

variable {c c' c'' : Catalog} {ts ts' : List Template} {xs xs' : List String} {t : Template}

theorem of_eq (h : c'.templates = c.templates) (hspent : ∀ x, c.Spent x → c'.Spent x) :
    c.Registers c' [] [] where
  templates_eq := by rw [h, List.append_nil]
  spent := hspent
  new x hx := by cases hx
  orderly := .nil

theorem refl (c : Catalog) : c.Registers c [] [] := of_eq rfl fun _ h => h

theorem freshName (c : Catalog) (dir : Directive) : c.Registers (c.freshName dir).2 [] [] :=
  of_eq rfl fun _ h => h.freshName dir

theorem reserve (c : Catalog) (name : String) : c.Registers (c.reserve name) [] [] :=
  of_eq rfl fun _ h => h.reserve name

theorem names_eq (h : c.Registers c' ts xs) : c'.names = c.names ++ ts.map (·.name) := by
  rw [names, h.templates_eq, List.map_append]
  rfl

theorem spent_name (h : c.Registers c' ts xs) {x : String} (hx : x ∈ ts.map (·.name)) :
    c'.Spent x :=
  spent_of_mem_names (h.names_eq ▸ List.mem_append_right _ hx)

theorem trans (h : c.Registers c' ts xs) (h' : c'.Registers c'' ts' xs') :
    c.Registers c'' (ts ++ ts') (xs ++ xs') where
  templates_eq := by rw [h'.templates_eq, h.templates_eq, List.append_assoc]
  spent x hx := h'.spent x (h.spent x hx)
  new x hx := by
    rw [List.map_append, List.mem_append] at hx
    rcases hx with hx | hx
    · exact h.new x hx
    · exact fun hs => h'.new x hx (h.spent x hs)
  orderly := h.orderly.append h'.orderly fun x hx hx' => h'.new x hx' (h.spent_name hx)

/-- A template is finished and nests what was still to be nested. -/
theorem add (h : c.Registers c' ts xs) (ht : t.targets = xs) (hname : t.name ∉ ts.map (·.name))
    (hnew : ¬ c.Spent t.name) : c.Registers ((c'.free t.name).add t) (ts ++ [t]) [] where
  templates_eq := by
    change c'.templates ++ [t] = _
    rw [h.templates_eq, List.append_assoc]
  spent x hx := (h.spent x hx).add t
  new x hx := by
    rw [List.map_append, List.mem_append] at hx
    rcases hx with hx | hx
    · exact h.new x hx
    · rw [List.mem_singleton.mp hx]
      exact hnew
  orderly := h.orderly.add ht hname

/-- No template takes a name that is reserved. -/
theorem not_mem_of_reserve {name : String} (h : (c.reserve name).Registers c' ts xs) :
    name ∉ ts.map (·.name) :=
  fun hm => h.new name hm (spent_reserve c name)

end Registers
end Catalog

/-! ## Names given out -/

/-- A name given out: the catalog that gave it, and the templates that were being built
then, innermost first. -/
structure Naming where
  name : String
  catalog : Catalog
  walked : List String

/-- The name of the nested template that an event tells of. -/
def Event.spawned? : Event → Option String
  | .spawned _ _ _ name => some name
  | _ => none

/-- The names of nested templates that were told, in order. -/
def Workshop.spawned (w : Workshop) : List String := w.log.filterMap Event.spawned?

/-- The names that a builder gives out while the templates `walked` are being built. -/
abbrev Tracer := List String → Parent → Bool → Draft → Workshop → List Naming

namespace Tracer

def nothing : Tracer := fun _ _ _ _ _ => []

/-- The second builder begins where the first one, `a`, ends. -/
def andThen (a : Builder) (s t : Tracer) : Tracer := fun walked parent svg d w =>
  s walked parent svg d w ++
    match a parent svg d w with
    | (.ok d, w) => t walked parent svg d w
    | (.error _, _) => []

def element (tag : String) (as : List Attribute) (children : Tracer) : Tracer :=
  fun walked parent inSvg d w =>
    let svg := inSvg || Vocabulary.isSvgTag tag
    match d.addElement tag svg as parent with
    | .error _ => []
    | .ok d' => children walked (.slot d.next) (svg && tag != Vocabulary.foreignObject) d' w

def register (name : String) (svg : Bool) (t : Tracer) (walked : List String) (w : Workshop) :
    List Naming :=
  if w.catalog.contains name then []
  else t (name :: walked) .root svg {} { w with catalog := w.catalog.reserve name }

def nest (tag : String) (directive : Directive) (value : String) (t : Tracer) : Tracer :=
  fun walked _ svg _ w =>
    match Path.ofDirective value with
    | .error _ => []
    | .ok _ =>
      let (name, catalog) := w.catalog.freshName directive
      ⟨name, w.catalog, walked⟩ :: register name svg t walked
        ({ w with catalog := catalog }.tell (.spawned directive value tag name))

mutual

def ofNode : Node → Tracer
  | .document cs => (ofFirstElement? cs).getD (ofHead cs)
  | .text _ => nothing
  | .element tag as cs =>
    (Builder.directives as).foldr (fun x t => nest tag x.1 x.2 t)
      (element tag (Builder.plain as) (ofChildren cs))

def ofChildren : List Node → Tracer
  | [] => nothing
  | n :: ns => andThen (Builder.ofNode n) (ofNode n) (ofChildren ns)

def ofFirstElement? : List Node → Option Tracer
  | [] => none
  | n :: ns => if n.isElement then some (ofNode n) else ofFirstElement? ns

def ofHead : List Node → Tracer
  | [] => nothing
  | n :: _ => ofNode n

end

/-- What each way to build keeps, for a builder with its tracer. -/
structure Kept (P : Builder → Tracer → Prop) : Prop where
  nothing : P .nothing Tracer.nothing
  andThen : ∀ {a b s t}, P a s → P b t → P (.andThen a b) (Tracer.andThen a s t)
  text : ∀ raw, P (.text raw) Tracer.nothing
  element : ∀ {b t} tag as, P b t → P (.element tag as b) (Tracer.element tag as t)
  nest : ∀ {b t} tag directive value, P b t →
    P (.nest tag directive value b) (Tracer.nest tag directive value t)

namespace Kept

variable {P : Builder → Tracer → Prop}

theorem foldr_nest (h : Kept P) {b : Builder} {t : Tracer} (hb : P b t) (tag : String)
    (ds : List (Directive × String)) :
    P (ds.foldr (fun x b => Builder.nest tag x.1 x.2 b) b)
      (ds.foldr (fun x t => Tracer.nest tag x.1 x.2 t) t) := by
  induction ds with
  | nil => exact hb
  | cons x ds ih =>
    rw [List.foldr_cons, List.foldr_cons]
    exact h.nest tag x.1 x.2 ih

mutual

/-- What is kept holds for every tree. -/
theorem ofNode (h : Kept P) : ∀ n : Node, P (Builder.ofNode n) (Tracer.ofNode n)
  | .document cs => by
    rw [Builder.ofNode, Tracer.ofNode]
    rcases h.ofFirstElement? cs with ⟨hb, ht⟩ | ⟨b, t, hb, ht, hp⟩
    · rw [hb, ht]
      exact h.ofHead cs
    · rw [hb, ht]
      exact hp
  | .text raw => by
    rw [Builder.ofNode, Tracer.ofNode]
    exact h.text raw
  | .element tag as cs => by
    rw [Builder.ofNode, Tracer.ofNode]
    exact h.foldr_nest (h.element tag _ (h.ofChildren cs)) tag _

theorem ofChildren (h : Kept P) : ∀ ns : List Node, P (Builder.ofChildren ns) (Tracer.ofChildren ns)
  | [] => h.nothing
  | n :: ns => h.andThen (h.ofNode n) (h.ofChildren ns)

theorem ofFirstElement? (h : Kept P) : ∀ ns : List Node,
    Builder.ofFirstElement? ns = none ∧ Tracer.ofFirstElement? ns = none ∨
      ∃ b t, Builder.ofFirstElement? ns = some b ∧ Tracer.ofFirstElement? ns = some t ∧ P b t
  | [] => .inl ⟨rfl, rfl⟩
  | n :: ns => by
    rw [Builder.ofFirstElement?, Tracer.ofFirstElement?]
    split
    · exact .inr ⟨_, _, rfl, rfl, h.ofNode n⟩
    · exact h.ofFirstElement? ns

theorem ofHead (h : Kept P) : ∀ ns : List Node, P (Builder.ofHead ns) (Tracer.ofHead ns)
  | [] => h.nothing
  | n :: _ => h.ofNode n

end

end Kept
end Tracer

/-! ## Builders -/

namespace Builder

/-- The builder finds all names free, and the templates that it adds, but for those that it
nests in the draft, are nested among themselves. -/
def Names (b : Builder) : Prop := ∀ parent svg d w,
  (∀ name, (b parent svg d w).1 ≠ .error (.duplicate name)) ∧
    ∃ ts xs, w.catalog.Registers (b parent svg d w).2.catalog ts xs ∧
      ∀ e, (b parent svg d w).1 = .ok e → e.targets = d.targets ++ xs

theorem names_nothing : Names nothing := fun _ _ _ w =>
  ⟨fun _ h => (by cases h), [], [], .refl w.catalog, fun e he => by
    cases he
    exact (List.append_nil _).symm⟩

theorem Names.andThen {a b : Builder} (ha : Names a) (hb : Names b) : Names (andThen a b) := by
  intro parent svg d w
  obtain ⟨hne₁, ts₁, xs₁, hr₁, h₁⟩ := ha parent svg d w
  unfold Builder.andThen
  generalize a parent svg d w = r at hne₁ hr₁ h₁
  obtain ⟨err | d₁, w₁⟩ := r
  · exact ⟨fun name h => hne₁ name (by cases h; rfl), ts₁, xs₁, hr₁, fun e he => by cases he⟩
  · obtain ⟨hne₂, ts₂, xs₂, hr₂, h₂⟩ := hb parent svg d₁ w₁
    refine ⟨hne₂, ts₁ ++ ts₂, xs₁ ++ xs₂, hr₁.trans hr₂, fun e he => ?_⟩
    rw [h₂ e he, h₁ d₁ rfl, List.append_assoc]

theorem names_text (raw : String) : Names (text raw) := by
  intro parent svg d w
  refine ⟨fun name h => ?_, [], [], .refl _, fun e he => ?_⟩
  · obtain ⟨p, hp⟩ := Draft.invalidPath_of_addText h
    cases hp
  · rw [Draft.targets_addText he, List.append_nil]

theorem Names.element {C : Builder} (hC : Names C) (tag : String) (as : List Attribute) :
    Names (element tag as C) := by
  intro parent inSvg d w
  unfold Builder.element
  dsimp only
  cases hadd : d.addElement tag (inSvg || Vocabulary.isSvgTag tag) as parent with
  | error err =>
    obtain ⟨p, rfl⟩ := Draft.invalidPath_of_addElement hadd
    exact ⟨fun name h => (by cases h), [], [], .refl _, fun e he => (by cases he)⟩
  | ok d₁ =>
    obtain ⟨hne, ts, xs, hr, h⟩ := hC (.slot d.next)
      ((inSvg || Vocabulary.isSvgTag tag) && tag != Vocabulary.foreignObject) d₁ w
    refine ⟨hne, ts, xs, hr, fun e he => ?_⟩
    rw [h e he, Draft.targets_addElement hadd]

/-- What registering under a free name does: the builder runs with the name reserved, and
if it succeeds, its draft is finished under that name. -/
theorem register_cases {b : Builder} (hb : Names b) {name : String} (svg : Bool) {w : Workshop}
    (hfree : name ∉ w.catalog.names) :
    let r := b .root svg {} { w with catalog := w.catalog.reserve name }
    ∃ ts xs, (w.catalog.reserve name).Registers r.2.catalog ts xs ∧
      ((∃ err, r.1 = .error err ∧ (∀ name, err ≠ .duplicate name) ∧
          register name svg b w = (.error err, r.2)) ∨
        ∃ d, r.1 = .ok d ∧ d.targets = xs ∧ register name svg b w =
          (.ok (), { r.2.tell (.assembled name d.seeds.length d.index.computations.length) with
            catalog := (r.2.catalog.free name).add (d.finish name) })) := by
  intro r
  obtain ⟨hne, ts, xs, hr, h⟩ := hb .root svg {} { w with catalog := w.catalog.reserve name }
  refine ⟨ts, xs, hr, ?_⟩
  have hcontains : ¬ w.catalog.contains name = true := fun hc => hfree (List.contains_iff_mem.mp hc)
  unfold register
  rw [if_neg hcontains]
  change _ ∨ _
  simp only [r]
  generalize b .root svg {} { w with catalog := w.catalog.reserve name } = r at hne hr h
  obtain ⟨err | d, w₁⟩ := r
  · exact .inl ⟨err, rfl, fun other he => hne other (congrArg _ he), rfl⟩
  · have hname : name ∉ w₁.catalog.names := by
      rw [hr.names_eq, List.mem_append, not_or]
      exact ⟨hfree, hr.not_mem_of_reserve⟩
    have hcontains₁ : ¬ (w₁.catalog.free name).contains name = true := fun hc =>
      hname (List.contains_iff_mem.mp hc)
    exact .inr ⟨d, rfl, h d rfl, if_neg hcontains₁⟩

theorem spent_register {b : Builder} (hb : Names b) {name : String} (svg : Bool) {w : Workshop}
    (hfree : name ∉ w.catalog.names) {x : String} (hx : w.catalog.Spent x) :
    (register name svg b w).2.catalog.Spent x := by
  obtain ⟨ts, xs, hr, ⟨err, _, _, heq⟩ | ⟨d, _, _, heq⟩⟩ := register_cases hb svg hfree <;> rw [heq]
  · exact hr.spent x (hx.reserve name)
  · exact (hr.spent x (hx.reserve name)).add (d.finish name)

/-- A name just given out, before its template is built. -/
theorem not_mem_names_freshName (c : Catalog) (dir : Directive) :
    (c.freshName dir).1 ∉ (c.freshName dir).2.names := fun hm =>
  c.not_spent_freshName dir (Catalog.spent_of_mem_names (c := c) hm)

theorem Names.nest {b : Builder} (hb : Names b) (tag : String) (dir : Directive) (value : String) :
    Names (nest tag dir value b) := by
  intro parent svg d w
  unfold Builder.nest
  cases Path.ofDirective value with
  | error err => exact ⟨fun name h => (by cases h), [], [], .refl _, fun e he => (by cases he)⟩
  | ok path =>
    dsimp only
    have hnew := w.catalog.not_spent_freshName dir
    have hfree := not_mem_names_freshName w.catalog dir
    have hfresh := Catalog.Registers.freshName w.catalog dir
    generalize w.catalog.freshName dir = fresh at hnew hfree hfresh ⊢
    obtain ⟨name, cat⟩ := fresh
    obtain ⟨ts, xs, hr, hcases⟩ := register_cases hb svg
      (w := { w with catalog := cat }.tell (.spawned dir value tag name)) hfree
    dsimp only at hnew hr hcases ⊢
    generalize b .root svg {} _ = r at hr hcases
    have hrun : w.catalog.Registers r.2.catalog ts xs := (hfresh.trans (.reserve cat name)).trans hr
    have hts : name ∉ ts.map (·.name) := hr.not_mem_of_reserve
    rcases hcases with ⟨err, _, hne, heq⟩ | ⟨e, _, rfl, heq⟩
    · rw [heq]
      exact ⟨fun other h => hne other (Except.error.inj h), ts, xs, hrun, fun e he => (by cases he)⟩
    · rw [heq]
      have hadd := hrun.add (t := e.finish name) rfl hts hnew
      have hawait := hadd.orderly.await (x := name) (by simp [Draft.finish]) fun hm => by
        rw [List.append_nil] at hm
        exact hts (hrun.orderly.mem_names (by simpa [Draft.targets_finish] using hm))
      refine ⟨fun other h => (by cases h), ts ++ [e.finish name], [name],
        ⟨hadd.templates_eq, hadd.spent, hadd.new, hawait⟩, fun f hf => ?_⟩
      cases hf
      exact Draft.targets_addAnchor dir name path parent d

end Builder

/-! ## Tracers -/

/-- Names given out between two catalogs: they are new and differ from each other, and none
was the name of a template that was registered or being built. -/
structure Naming.Fresh (c c' : Catalog) (ns : List Naming) : Prop where
  nodup : (ns.map (·.name)).Nodup
  new : ∀ n ∈ ns, ¬ c.Spent n.name
  spent : ∀ n ∈ ns, c'.Spent n.name
  apart : ∀ n ∈ ns, n.name ∉ n.catalog.names ∧ n.name ∉ n.walked

namespace Naming.Fresh

variable {c c' c'' : Catalog} {ns ns' : List Naming}

theorem nil (c c' : Catalog) : Fresh c c' [] where
  nodup := List.nodup_nil
  new n hn := by cases hn
  spent n hn := by cases hn
  apart n hn := by cases hn

theorem append (h : Fresh c c' ns) (h' : Fresh c' c'' ns') (hc : ∀ x, c.Spent x → c'.Spent x)
    (hc' : ∀ x, c'.Spent x → c''.Spent x) : Fresh c c'' (ns ++ ns') where
  nodup := by
    rw [List.map_append]
    refine List.nodup_append.mpr ⟨h.nodup, h'.nodup, ?_⟩
    rintro x hx _ hx' rfl
    obtain ⟨n, hn, rfl⟩ := List.mem_map.mp hx
    obtain ⟨n', hn', he⟩ := List.mem_map.mp hx'
    exact h'.new n' hn' (he ▸ h.spent n hn)
  new n hn := by
    rcases List.mem_append.mp hn with hn | hn
    · exact h.new n hn
    · exact fun hs => h'.new n hn (hc _ hs)
  spent n hn := by
    rcases List.mem_append.mp hn with hn | hn
    · exact hc' _ (h.spent n hn)
    · exact h'.spent n hn
  apart n hn := (List.mem_append.mp hn).elim (h.apart n) (h'.apart n)

theorem freshName (c : Catalog) (dir : Directive) {walked : List String}
    (hw : ∀ x ∈ walked, c.Spent x) :
    Fresh c (c.freshName dir).2 [⟨(c.freshName dir).1, c, walked⟩] where
  nodup := List.nodup_singleton _
  new n hn := by
    rw [List.mem_singleton.mp hn]
    exact c.not_spent_freshName dir
  spent n hn := by
    rw [List.mem_singleton.mp hn]
    exact c.spent_freshName dir
  apart n hn := by
    rw [List.mem_singleton.mp hn]
    exact ⟨fun hm => c.not_spent_freshName dir (Catalog.spent_of_mem_names hm),
      fun hm => c.not_spent_freshName dir (hw _ hm)⟩

end Naming.Fresh

namespace Tracer

/-- While templates with spent names are being built, the builder gives out fresh names as
the tracer says, and tells them in that order. -/
def Traces (b : Builder) (t : Tracer) : Prop := ∀ walked parent svg d w,
  (∀ x ∈ walked, w.catalog.Spent x) →
    Naming.Fresh w.catalog (b parent svg d w).2.catalog (t walked parent svg d w) ∧
      (b parent svg d w).2.spawned = w.spawned ++ (t walked parent svg d w).map (·.name)

theorem traces_andThen {a b : Builder} {s t : Tracer} (hna : a.Names) (hnb : b.Names)
    (ha : Traces a s) (hb : Traces b t) : Traces (a.andThen b) (andThen a s t) := by
  intro walked parent svg d w hw
  obtain ⟨hf₁, ht₁⟩ := ha walked parent svg d w hw
  obtain ⟨_, _, _, hr₁, _⟩ := hna parent svg d w
  unfold Builder.andThen andThen
  generalize a parent svg d w = r at hf₁ ht₁ hr₁
  obtain ⟨err | d₁, w₁⟩ := r
  · dsimp only
    rw [List.append_nil]
    exact ⟨hf₁, ht₁⟩
  · obtain ⟨_, _, _, hr₂, _⟩ := hnb parent svg d₁ w₁
    obtain ⟨hf₂, ht₂⟩ := hb walked parent svg d₁ w₁ fun x hx => hr₁.spent x (hw x hx)
    refine ⟨hf₁.append hf₂ hr₁.spent hr₂.spent, ?_⟩
    rw [ht₂, ht₁, List.map_append, List.append_assoc]

theorem traces_element {b : Builder} {t : Tracer} (h : Traces b t) (tag : String)
    (as : List Attribute) : Traces (b.element tag as) (element tag as t) := by
  intro walked parent inSvg d w hw
  unfold Builder.element element
  dsimp only
  cases d.addElement tag (inSvg || Vocabulary.isSvgTag tag) as parent with
  | error err => exact ⟨.nil _ _, (List.append_nil _).symm⟩
  | ok d₁ => exact h walked _ _ d₁ w hw

theorem traces_register {b : Builder} {t : Tracer} (hb : b.Names) (h : Traces b t) {name : String}
    (svg : Bool) {walked : List String} {w : Workshop} (hfree : name ∉ w.catalog.names)
    (hw : ∀ x ∈ walked, w.catalog.Spent x) :
    Naming.Fresh w.catalog (Builder.register name svg b w).2.catalog
        (register name svg t walked w) ∧
      (Builder.register name svg b w).2.spawned =
        w.spawned ++ (register name svg t walked w).map (·.name) := by
  have hwalked : ∀ x ∈ name :: walked, (w.catalog.reserve name).Spent x := by
    intro x hx
    rcases List.mem_cons.mp hx with rfl | hx
    · exact w.catalog.spent_reserve x
    · exact (hw x hx).reserve name
  have hcontains : ¬ w.catalog.contains name = true := fun hc => hfree (List.contains_iff_mem.mp hc)
  have hreserve := (Catalog.Registers.reserve w.catalog name).spent
  obtain ⟨hf, ht⟩ := h (name :: walked) .root svg {}
    { w with catalog := w.catalog.reserve name } hwalked
  obtain ⟨ts, xs, hr, hcases⟩ := Builder.register_cases hb svg hfree
  rw [register, if_neg hcontains]
  dsimp only at hf ht hr hcases ⊢
  generalize b .root svg {} { w with catalog := w.catalog.reserve name } = r at hf ht hr hcases
  have hfresh : Naming.Fresh w.catalog r.2.catalog _ :=
    (Naming.Fresh.nil w.catalog _).append hf hreserve hr.spent
  rcases hcases with ⟨err, _, _, heq⟩ | ⟨e, _, _, heq⟩ <;> rw [heq]
  · exact ⟨hfresh, ht⟩
  · constructor
    · rw [← List.append_nil (t _ _ _ _ _)]
      exact hfresh.append (.nil _ _) (fun x hx => hr.spent x (hreserve x hx)) fun x hx => hx.add _
    · have htold : r.2.spawned = w.spawned ++ _ := ht
      rw [← htold]
      simp [Workshop.spawned, Workshop.tell, Event.spawned?]

theorem traces_nest {b : Builder} {t : Tracer} (hb : b.Names) (h : Traces b t) (tag : String)
    (dir : Directive) (value : String) :
    Traces (b.nest tag dir value) (nest tag dir value t) := by
  intro walked parent svg d w hw
  unfold Builder.nest nest
  cases Path.ofDirective value with
  | error err => exact ⟨.nil _ _, (List.append_nil _).symm⟩
  | ok path =>
    dsimp only
    have hfree := Builder.not_mem_names_freshName w.catalog dir
    have hname := Naming.Fresh.freshName w.catalog dir hw
    have hspent := (Catalog.Registers.freshName w.catalog dir).spent
    generalize w.catalog.freshName dir = fresh at hfree hname hspent ⊢
    obtain ⟨name, cat⟩ := fresh
    have hafter : ∀ x, cat.Spent x → (Builder.register name svg b
        ({ w with catalog := cat }.tell (.spawned dir value tag name))).2.catalog.Spent x :=
      fun x hx => Builder.spent_register hb svg hfree hx
    have hw₁ : ∀ x ∈ walked, cat.Spent x := fun x hx => hspent x (hw x hx)
    obtain ⟨hf, ht⟩ := traces_register hb h svg
      (w := { w with catalog := cat }.tell (.spawned dir value tag name)) hfree hw₁
    have hns := hname.append hf hspent hafter
    have htold : ({ w with catalog := cat }.tell (.spawned dir value tag name)).spawned =
        w.spawned ++ [name] := by
      simp [Workshop.spawned, Workshop.tell, Event.spawned?]
    rw [htold, List.append_assoc] at ht
    dsimp only at hns ⊢
    generalize Builder.register name svg b ({ w with catalog := cat }.tell _) = r at hns ht ⊢
    obtain ⟨err | ⟨⟩, w₁⟩ := r <;> exact ⟨hns, ht⟩

/-- A builder that leaves the workshop alone gives out no names. -/
theorem traces_nothing {b : Builder} (h : ∀ parent svg d w, (b parent svg d w).2 = w) :
    Traces b nothing := by
  intro walked parent svg d w _
  rw [h]
  exact ⟨.nil _ _, (List.append_nil _).symm⟩

theorem kept_traces : Kept fun b t => b.Names ∧ Traces b t where
  nothing := ⟨Builder.names_nothing, traces_nothing fun _ _ _ _ => rfl⟩
  andThen ha hb := ⟨ha.1.andThen hb.1, traces_andThen ha.1 hb.1 ha.2 hb.2⟩
  text raw := ⟨Builder.names_text raw, traces_nothing fun _ _ _ _ => rfl⟩
  element tag as h := ⟨h.1.element tag as, traces_element h.2 tag as⟩
  nest tag dir value h := ⟨h.1.nest tag dir value, traces_nest h.1 h.2 tag dir value⟩

end Tracer

/-! ## Requests -/

/-- What is asked of a catalog: to compile a tree under a name, or for a new name. -/
inductive Request where
  | compile (tree : Node) (name : String)
  | freshName (directive : Directive)

namespace Request

def serve (w : Workshop) : Request → Workshop
  | .compile tree name => (w.compile tree name).2
  | .freshName dir => { w with catalog := (w.catalog.freshName dir).2 }

/-- The names given out while a request is served. -/
def namings (w : Workshop) : Request → List Naming
  | .compile tree name => Tracer.register name false (.ofNode tree) [] w
  | .freshName dir => [⟨(w.catalog.freshName dir).1, w.catalog, []⟩]

end Request

namespace Workshop

def serveAll (rs : List Request) (w : Workshop) : Workshop := rs.foldl Request.serve w

/-- The names given out while requests are served, in order. -/
def namings : List Request → Workshop → List Naming
  | [], _ => []
  | r :: rs, w => r.namings w ++ namings rs (r.serve w)

/-- What compiling does: nothing under a name that is registered; under another one the
tree is built with the name reserved, and finished if it can be. -/
theorem compile_cases (tree : Node) (name : String) (w : Workshop) :
    name ∈ w.catalog.names ∧ w.compile tree name = (.error (.duplicate name), w) ∨
      name ∉ w.catalog.names ∧ ∃ c ts xs, (w.catalog.reserve name).Registers c ts xs ∧
        ((∃ err, (w.compile tree name).1 = .error err ∧ (∀ name, err ≠ .duplicate name) ∧
            (w.compile tree name).2.catalog = c) ∨
          ∃ d : Draft, d.targets = xs ∧ (w.compile tree name).1 = .ok () ∧
            (w.compile tree name).2.catalog = (c.free name).add (d.finish name)) := by
  unfold compile
  by_cases hm : name ∈ w.catalog.names
  · refine .inl ⟨hm, ?_⟩
    have hcontains : w.catalog.contains name = true := List.contains_iff_mem.mpr hm
    rw [Builder.register, if_pos hcontains]
  · obtain ⟨ts, xs, hr, hcases⟩ :=
      Builder.register_cases (Tracer.kept_traces.ofNode tree).1 false hm
    refine .inr ⟨hm, _, ts, xs, hr, ?_⟩
    rcases hcases with ⟨err, _, hne, heq⟩ | ⟨d, _, hd, heq⟩ <;> rw [heq]
    · exact .inl ⟨err, rfl, hne, rfl⟩
    · exact .inr ⟨d, hd, rfl, rfl⟩

theorem compile_eq_duplicate_iff (tree : Node) (name other : String) (w : Workshop) :
    (w.compile tree name).1 = .error (.duplicate other) ↔
      other = name ∧ name ∈ w.catalog.names := by
  rcases compile_cases tree name w with
    ⟨hm, heq⟩ | ⟨hm, _, _, _, _, ⟨err, heq, hne, _⟩ | ⟨_, _, heq, _⟩⟩ <;> rw [heq]
  · constructor
    · intro h
      cases h
      exact ⟨rfl, hm⟩
    · rintro ⟨rfl, _⟩
      rfl
  · exact ⟨fun h => absurd (Except.error.inj h) (hne other), fun h => absurd h.2 hm⟩
  · exact ⟨fun h => (by cases h), fun h => absurd h.2 hm⟩

theorem spawned_compile (tree : Node) (name : String) (w : Workshop) :
    (w.compile tree name).2.spawned =
      (Builder.register name false (.ofNode tree) w).2.spawned := by
  unfold compile
  generalize Builder.register name false (.ofNode tree) w = r
  obtain ⟨err | ⟨⟩, w₁⟩ := r
  · rfl
  · simp [spawned, tell, Event.spawned?]

/-- A call of the compiler gives out fresh names, and tells them. -/
theorem fresh_compile (tree : Node) (name : String) (w : Workshop) :
    Naming.Fresh w.catalog (w.compile tree name).2.catalog ((Request.compile tree name).namings w) ∧
      (w.compile tree name).2.spawned =
        w.spawned ++ ((Request.compile tree name).namings w).map (·.name) := by
  rw [catalog_compile, spawned_compile, Request.namings]
  by_cases hm : name ∈ w.catalog.names
  · have hcontains : w.catalog.contains name = true := List.contains_iff_mem.mpr hm
    rw [Builder.register, Tracer.register, if_pos hcontains, if_pos hcontains]
    exact ⟨.nil _ _, (List.append_nil _).symm⟩
  · obtain ⟨hnames, htraces⟩ := Tracer.kept_traces.ofNode tree
    exact Tracer.traces_register hnames htraces false hm (by intro x hx; cases hx)

/-- What a request leaves of a catalog. -/
structure Serves (w w' : Workshop) : Prop where
  templates : w.catalog.templates <+: w'.catalog.templates
  spent : ∀ x, w.catalog.Spent x → w'.catalog.Spent x
  orderly : Template.Orderly w.catalog.templates [] → Template.Orderly w'.catalog.templates []

theorem Serves.refl (w : Workshop) : w.Serves w := ⟨List.prefix_rfl, fun _ h => h, fun h => h⟩

theorem Serves.trans {w w' w'' : Workshop} (h : w.Serves w') (h' : w'.Serves w'') : w.Serves w'' :=
  ⟨h.templates.trans h'.templates, fun x hx => h'.spent x (h.spent x hx),
    fun ho => h'.orderly (h.orderly ho)⟩

theorem serves_compile (tree : Node) (name : String) (w : Workshop) :
    w.Serves (w.compile tree name).2 := by
  rcases compile_cases tree name w with ⟨_, heq⟩ | ⟨hm, c, ts, xs, hr, hcases⟩
  · rw [heq]
    exact .refl w
  · have hprefix : w.catalog.templates <+: c.templates := ⟨ts, hr.templates_eq.symm⟩
    have hspent : ∀ x, w.catalog.Spent x → c.Spent x := fun x hx => hr.spent x (hx.reserve name)
    have horderly : Template.Orderly w.catalog.templates [] → Template.Orderly c.templates xs := by
      intro ho
      rw [hr.templates_eq, ← List.nil_append xs]
      exact ho.append hr.orderly fun x hx hx' =>
        hr.new x hx' (Catalog.spent_of_mem_names (c := w.catalog.reserve name) hx)
    rcases hcases with ⟨_, _, _, heq⟩ | ⟨d, hd, _, heq⟩
    · exact ⟨heq ▸ hprefix, heq ▸ hspent, fun ho => heq ▸ (horderly ho).forget⟩
    · have hname : name ∉ c.templates.map (·.name) := by
        have : c.names = w.catalog.names ++ ts.map (·.name) := hr.names_eq
        rw [← Catalog.names, this, List.mem_append, not_or]
        exact ⟨hm, hr.not_mem_of_reserve⟩
      refine ⟨?_, fun x hx => ?_, fun ho => ?_⟩ <;> rw [heq]
      · exact hprefix.trans (List.prefix_append _ _)
      · exact (hspent x hx).add (d.finish name)
      · exact (horderly ho).add hd hname

theorem serves_serve (r : Request) (w : Workshop) : w.Serves (r.serve w) := by
  cases r with
  | compile tree name => exact serves_compile tree name w
  | freshName dir => exact ⟨List.prefix_rfl, fun _ h => h.freshName dir, fun h => h⟩

theorem fresh_serve (r : Request) (w : Workshop) :
    Naming.Fresh w.catalog (r.serve w).catalog (r.namings w) := by
  cases r with
  | compile tree name => exact (fresh_compile tree name w).1
  | freshName dir => exact .freshName w.catalog dir (by intro x hx; cases hx)

theorem serves_serveAll (rs : List Request) (w : Workshop) : w.Serves (w.serveAll rs) := by
  induction rs generalizing w with
  | nil => exact .refl w
  | cons r rs ih => exact (serves_serve r w).trans (ih (r.serve w))

/-- All names given out in the course of requests are fresh. -/
theorem fresh_namings (rs : List Request) (w : Workshop) :
    Naming.Fresh w.catalog (w.serveAll rs).catalog (namings rs w) := by
  induction rs generalizing w with
  | nil => exact .nil _ _
  | cons r rs ih =>
    exact (fresh_serve r w).append (ih (r.serve w)) (serves_serve r w).spent
      (serves_serveAll rs (r.serve w)).spent

/-- Whatever was asked of a catalog before, a request leaves its names and templates in
place; names differ, every nested template stands before the one that nests it, and none is
nested twice. All names given out, in requests for one and while trees are compiled, differ
from each other, from all registered and from all being built at the time. Compiling fails
for a name that is taken exactly when the name it is to compile under is registered. -/
theorem integrity_serve (rs : List Request) (r : Request) :
    let w := serveAll rs {}
    let w' := r.serve w
    w.catalog.names <+: w'.catalog.names ∧ w.catalog.templates <+: w'.catalog.templates ∧
      w'.catalog.names.Nodup ∧
      (∀ (i : Nat) t, w'.catalog.templates[i]? = some t → ∀ x ∈ t.targets,
        ∃ j < i, w'.catalog.names[j]? = some x) ∧
      (w'.catalog.templates.flatMap Template.targets).Nodup ∧
      ((namings (rs ++ [r]) {}).map (·.name)).Nodup ∧
      (∀ n ∈ namings (rs ++ [r]) {}, n.name ∉ n.catalog.names ∧ n.name ∉ n.walked) ∧
      ∀ tree name,
        (w.compile tree name).2.spawned =
          w.spawned ++ ((Request.compile tree name).namings w).map (·.name) ∧
        ∀ other, (w.compile tree name).1 = .error (.duplicate other) ↔
          other = name ∧ name ∈ w.catalog.names := by
  intro w w'
  have hserves : w.Serves w' := serves_serve r w
  have ho : Template.Orderly w'.catalog.templates [] :=
    hserves.orderly ((serves_serveAll rs {}).orderly .nil)
  have hfresh := fresh_namings (rs ++ [r]) {}
  refine ⟨hserves.templates.map _, hserves.templates, ho.nodup_names, fun i t ht x hx => ?_, ?_,
    hfresh.nodup, hfresh.apart, fun tree name => ⟨(fresh_compile tree name w).2, fun other =>
      compile_eq_duplicate_iff tree name other w⟩⟩
  · obtain ⟨j, hj⟩ := List.getElem?_of_mem (ho.nested i t ht x hx)
    rw [List.map_take] at hj
    have hlt : j < i := by
      by_contra hge
      rw [List.getElem?_take_eq_none (Nat.le_of_not_lt hge)] at hj
      cases hj
    exact ⟨j, hlt, by rwa [List.getElem?_take_of_lt hlt] at hj⟩
  · simpa using ho.nodup_targets

/-- A template may be called like a nested one; the numbers of names once given are left out. -/
example :
    let tree := treeOf "<div><p if=\"a\">x</p></div>"
    let rs := [.freshName .onTruthy, .compile tree "if1", .compile tree "if1", .compile tree "if3"]
    (serveAll rs {}).catalog.names = ["if2", "if1", "if4", "if3"] ∧
      (namings rs {}).map (·.name) = ["if0", "if2", "if4"] := by
  decide +kernel

end Workshop
end Stencil

import Stencil.Proofs.Template.Drawing

/-! What compiling leaves behind. Whatever trees are compiled, with or without success,
every template of the catalog comes from a draft that is sound, whose slots are explained
by the markup, and whose nested templates were finished before it. A tree that is compiled
with success is drawn in the template of its name. -/
namespace Stencil
open Binding Markup

namespace Markup.Node

mutual

/-- The elements of a tree, as tags with their attributes. -/
def elements : Node → List (String × List Attribute)
  | .document cs => elementsAll cs
  | .text _ => []
  | .element tag as cs => (tag, as) :: elementsAll cs

def elementsAll : List Node → List (String × List Attribute)
  | [] => []
  | n :: ns => elements n ++ elementsAll ns

end

end Markup.Node

/-- What is known of the trees that are compiled: the elements in them, and whether each
stands at one slot. -/
structure Origin where
  element : String → List Attribute → Prop
  single : Prop

variable {o : Origin}

/-- A draft fit to be finished over the templates `ts`. -/
structure Draft.Ready (o : Origin) (ts : List Template) (d : Draft) :
    Prop where
  sound : d.Sound
  explained : ∀ s : Nat, s < d.next → d.Explained o.element s
  nested : ∀ dir name s v g, .reconcile dir name s v g ∈ d.index.computations →
    ∃ t ∈ ts, t.name = name

/-- Every template was finished from a draft fit for that. -/
def Catalog.Built (o : Origin) (c : Catalog) : Prop :=
  ∀ k t, c.templates[k]? = some t → ∃ d : Draft, t = d.finish t.name ∧
    d.Ready o (c.templates.take k) ∧ (o.single → ∃ s, d.slotsAt .root = [s])

namespace Catalog

theorem Built.sound {c : Catalog} (h : c.Built o) : c.Sound where
  template t ht := by
    obtain ⟨k, hk⟩ := List.getElem?_of_mem ht
    obtain ⟨d, hd, hr, _⟩ := h k t hk
    rw [hd]
    exact hr.sound.template _
  nested k t hk dir name s v g hx := by
    obtain ⟨d, hd, hr, _⟩ := h k t hk
    rw [hd] at hx
    obtain ⟨u, hu, hname⟩ := hr.nested dir name s v g hx
    have hfind : ((c.templates.take k).find? (·.name == name)).isSome := by
      rw [List.find?_isSome]
      exact ⟨u, hu, by simp [hname]⟩
    obtain ⟨u', hu'⟩ := Option.isSome_iff_exists.mp hfind
    refine ⟨u', List.mem_of_find?_eq_some hu', ?_⟩
    rw [get?, ← List.take_append_drop k c.templates, List.find?_append, hu']
    rfl

/-- Every anchor has the computation that renders before it. -/
theorem Built.exists_reconcile {c : Catalog} (h : c.Built o) {t : Template} (ht : t ∈ c.templates)
    {s : Slot} (hs : t.HasAnchor s) :
    ∃ dir name v g, .reconcile dir name s v g ∈ t.computations := by
  obtain ⟨k, hk⟩ := List.getElem?_of_mem ht
  obtain ⟨d, hd, hr, _⟩ := h k t hk
  rw [hd] at hs ⊢
  obtain ⟨q, hs⟩ := hs
  have hseed : d.seeds[s]? = some (.anchor q) := hs
  cases hr.explained s (List.getElem?_eq_some_iff.mp hseed).1 with
  | text seed => rw [hseed] at seed; cases seed
  | element _ seed => rw [hseed] at seed; cases seed
  | @anchor dir name v g _ _ computes =>
    refine ⟨dir, name, v, g, ?_⟩
    have hm : Computation.reconcile dir name s v g ∈ d.computationsAt s := by simp [computes]
    exact (List.mem_filter.mp hm).1

theorem Built.exists_rootSlot {c : Catalog} (h : c.Built o) (ho : o.single) {t : Template}
    (ht : t ∈ c.templates) : ∃ s, t.rootSlots = [s] := by
  obtain ⟨k, hk⟩ := List.getElem?_of_mem ht
  obtain ⟨d, hd, _, hone⟩ := h k t hk
  rw [hd, Template.rootSlots_eq]
  exact hone ho

theorem built_empty : Built o {} := fun k t h => by simp at h

theorem Built.congr {c c' : Catalog} (h : c.Built o) (hc : c'.templates = c.templates) :
    c'.Built o := by
  unfold Built
  rw [hc]
  exact h

theorem Built.add {c : Catalog} (h : c.Built o) {d : Draft} (hd : d.Ready o c.templates)
    (hone : o.single → ∃ s, d.slotsAt .root = [s]) (name : String) :
    (c.add (d.finish name)).Built o := by
  intro k t hk
  unfold Catalog.add at hk ⊢
  dsimp only at hk ⊢
  by_cases hlt : k < c.templates.length
  · rw [List.getElem?_append_left hlt] at hk
    rw [List.take_append_of_le_length (Nat.le_of_lt hlt)]
    exact h k t hk
  · have hk' := (List.getElem?_eq_some_iff.mp hk).1
    simp only [List.length_append, List.length_singleton] at hk'
    obtain rfl : k = c.templates.length := by omega
    obtain rfl : d.finish name = t := by simpa using hk
    exact ⟨d, rfl, by rw [List.take_left' rfl]; exact hd, hone⟩

theorem Within.refl (c : Catalog) : c.Within c := List.prefix_rfl

theorem Within.trans {c c' c'' : Catalog} (h : c.Within c') (h' : c'.Within c'') : c.Within c'' :=
  List.IsPrefix.trans h h'

end Catalog

theorem Draft.Ready.within {c c' : Catalog} {d : Draft} (h : d.Ready o c.templates)
    (hc : c.Within c') : d.Ready o c'.templates where
  sound := h.sound
  explained := h.explained
  nested dir name s v g hx := by
    obtain ⟨t, ht, hn⟩ := h.nested dir name s v g hx
    exact ⟨t, hc.subset ht, hn⟩

theorem Draft.ready_empty (ts : List Template) : Draft.Ready o ts {} :=
  ⟨sound_empty, fun _ hs => absurd hs (Nat.not_lt_zero _), fun _ _ _ _ _ hx => by cases hx⟩

/-- What a new node needs, so that the draft stays fit. -/
theorem Draft.Ready.gains {ts : List Template} {d e : Draft} {parent : Parent} {seed : Seed}
    {ws : List Wire} {xs : List Computation} (h : d.Ready o ts)
    (hg : d.Gains e parent seed ws xs) (ha : d.Admits parent) (hnew : e.Explained o.element d.next)
    (hx : ∀ dir name s v g, .reconcile dir name s v g ∈ xs → ∃ t ∈ ts, t.name = name) :
    e.Ready o ts where
  sound := h.sound.gains hg ha
  explained s hs := by
    by_cases hlt : s < d.next
    · exact (h.explained s hlt).extends hg.extends hlt
    · have : s < d.next + 1 := by simpa [Draft.next, hg.seeds_eq] using hs
      obtain rfl : s = d.next := by omega
      exact hnew
  nested dir name s v g hm := by
    rw [hg.computations_eq, List.mem_append] at hm
    exact hm.elim (h.nested dir name s v g) (hx dir name s v g)

/-- The new node's wires and computations are the only ones that speak of it. -/
theorem Draft.Sound.at_next {d e : Draft} {parent : Parent} {seed : Seed} {ws : List Wire}
    {xs : List Computation} (h : d.Sound) (hg : d.Gains e parent seed ws xs) :
    e.attrsAt d.next = ws ∧ e.computationsAt d.next = xs := by
  rw [hg.attrsAt_eq, hg.computationsAt_eq, h.attrsAt_next, h.computationsAt_next]
  simp

/-! ## Builders -/

namespace Builder

/-- A builder run on a fit draft leaves catalogs well built, and if it succeeds, a fit
draft that has grown under the parent and has the picture drawn there. -/
def Draws (o : Origin) (b : Builder) (P : Picture) : Prop :=
  ∀ (parent : Parent) (svg : Bool) (d : Draft) (w : Workshop), w.catalog.Built o →
    d.Ready o w.catalog.templates → d.Admits parent →
    (b parent svg d w).2.catalog.Built o ∧ w.catalog.Within (b parent svg d w).2.catalog ∧
    ∀ e, (b parent svg d w).1 = .ok e →
      e.Ready o (b parent svg d w).2.catalog.templates ∧ d.Extends parent e ∧
      ∃ ss, e.slotsAt parent = d.slotsAt parent ++ ss ∧
        P (b parent svg d w).2.catalog e d.next svg ss

theorem lt_next_of_admits {d : Draft} {parent : Parent} (h : d.Admits parent) :
    ∀ s : Nat, parent = .slot s → s < d.next := by
  rintro s rfl
  obtain ⟨_, _, _, hs⟩ := h
  exact (List.getElem?_eq_some_iff.mp hs).1

theorem draws_nothing : Draws o nothing .nothing := fun parent svg d w hw hd _ =>
  ⟨hw, .refl _, fun _ he => by cases he; exact ⟨hd, .refl _ _, [], by simp, rfl⟩⟩

theorem Draws.andThen {a b : Builder} {P Q : Picture} (ha : Draws o a P) (hb : Draws o b Q)
    (hP : P.Stable) (hQ : Q.Stable) : Draws o (andThen a b) (P.andThen Q) := by
  intro parent svg d w hw hd hadm
  obtain ⟨hw₁, hin₁, h₁⟩ := ha parent svg d w hw hd hadm
  unfold Builder.andThen
  generalize a parent svg d w = r at hw₁ hin₁ h₁
  obtain ⟨r | d₁, w₁⟩ := r
  · exact ⟨hw₁, hin₁, fun e he => by cases he⟩
  · obtain ⟨hd₁, hext₁, ss₁, hs₁, hP₁⟩ := h₁ d₁ rfl
    have hadm₁ : d₁.Admits parent := by
      cases parent with
      | root => trivial
      | slot s =>
        obtain ⟨q, tag, g, hs⟩ := hadm
        exact ⟨q, tag, g, hext₁.getElem?_seeds hs⟩
    obtain ⟨hw₂, hin₂, h₂⟩ := hb parent svg d₁ w₁ hw₁ hd₁ hadm₁
    refine ⟨hw₂, hin₁.trans hin₂, fun e he => ?_⟩
    obtain ⟨he, hext₂, ss₂, hs₂, hQ₂⟩ := h₂ e he
    refine ⟨he, hext₁.trans hext₂ (.inl rfl), ss₁ ++ ss₂, ?_, ss₁, ss₂, rfl, ?_, ?_⟩
    · rw [hs₂, hs₁, List.append_assoc]
    · exact hP hin₂ hext₂ (Nat.le_refl _) (lt_next_of_admits hadm) hP₁
    · exact hQ (.refl _) (.refl .root e) hext₁.next_le Picture.lt_of_root hQ₂

theorem draws_text (raw : String) : Draws o (text raw) (.text raw) := by
  intro parent svg d w hw hd hadm
  refine ⟨hw, .refl _, fun e he => ?_⟩
  obtain ⟨xs, hg, hx⟩ := Draft.addText_gains hd.sound.coherent he
  obtain ⟨hattrs, hcomps⟩ := hd.sound.at_next hg
  refine ⟨hd.gains hg hadm (.text hg.getElem?_next hattrs (hcomps ▸ hx)) ?_, hg.extends, [d.next],
    by rw [hg.slotsAt_eq, if_pos rfl], d.next, rfl, Nat.le_refl _, hg.getElem?_next, hcomps ▸ hx⟩
  intro dir name s v g hm
  obtain ⟨ss, _, ⟨_, rfl⟩ | ⟨_, ps, _, rfl⟩⟩ := hx
  · cases hm
  · cases List.mem_singleton.mp hm

theorem Draws.element {C : Builder} {P : Picture} (hC : Draws o C P) (hP : P.Stable)
    {tag : String} {as : List Attribute} (hE : o.element tag as) :
    Draws o (element tag (plain as) C) (.element tag (plain as) P) := by
  intro parent inSvg d w hw hd hadm
  unfold Builder.element
  dsimp only
  cases hadd : d.addElement tag (inSvg || Vocabulary.isSvgTag tag) (plain as) parent with
  | error e => exact ⟨hw, .refl _, fun e he => by cases he⟩
  | ok d₁ =>
    obtain ⟨ws, xs, hg, hf⟩ := Draft.addElement_gains hd.sound.coherent hadd
    obtain ⟨hattrs, hcomps⟩ := hd.sound.at_next hg
    have hd₁ : d₁.Ready o w.catalog.templates := by
      refine hd.gains hg hadm (.element hE hg.getElem?_next (by rw [hattrs, hcomps]; exact hf)) ?_
      intro dir name s v g hm
      obtain ⟨_, _, _, _, _, _, _, he⟩ := hf.computation _ hm
      have hnone := congrArg Computation.anchored? he
      rw [Draft.anchored?_attributeSetter] at hnone
      cases hnone
    have hlt : d.next < d₁.next := by simp [Draft.next, hg.seeds_eq]
    obtain ⟨hw₂, hin₂, h₂⟩ := hC (.slot d.next)
      ((inSvg || Vocabulary.isSvgTag tag) && tag != Vocabulary.foreignObject) d₁ w hw hd₁
      ⟨_, _, _, hg.getElem?_next⟩
    refine ⟨hw₂, hin₂, fun e he => ?_⟩
    obtain ⟨hready, hext, ss, hss, hdraw⟩ := h₂ e he
    refine ⟨hready, hg.extends.trans hext (.inr ⟨d.next, rfl, Nat.le_refl _⟩), [d.next], ?_, d.next,
      rfl, Nat.le_refl _, hext.getElem?_seeds hg.getElem?_next, ?_, ?_⟩
    · rw [hext.slotsAt_eq parent, hg.slotsAt_eq, if_pos rfl]
      · rintro rfl
        exact Nat.lt_irrefl _ (lt_next_of_admits hadm _ rfl)
      · exact fun s hs => Nat.lt_trans (lt_next_of_admits hadm s hs) hlt
    · rw [hext.attrsAt_eq _ hlt, hext.computationsAt_eq _ hlt, hattrs, hcomps]
      exact hf.mono hext.grows.binds
    · have hnil : d₁.slotsAt (.slot d.next) = [] := by
        rw [hg.slotsAt_eq, hd.sound.slotsAt_next, if_neg, List.append_nil]
        rintro rfl
        exact Nat.lt_irrefl _ (lt_next_of_admits hadm _ rfl)
      rw [hss, hnil, List.nil_append]
      exact hP (.refl _) (.refl .root e) (Nat.le_of_lt hlt) Picture.lt_of_root hdraw

/-- Registering leaves catalogs well built, and if it succeeds, the template of that name
was finished from a draft in which the picture is drawn. -/
theorem register_spec {b : Builder} {P : Picture} (hb : Draws o b P) (hP : P.Stable)
    (hone : o.single → P.One) (name : String) (svg : Bool) {w : Workshop} (hw : w.catalog.Built o) :
    (register name svg b w).2.catalog.Built o ∧
      w.catalog.Within (register name svg b w).2.catalog ∧
      ((register name svg b w).1 = .ok () → ∃ e : Draft, e.Sound ∧
        (register name svg b w).2.catalog.get? name = some (e.finish name) ∧
        P (register name svg b w).2.catalog e 0 svg (e.slotsAt .root)) := by
  unfold register
  split
  · exact ⟨hw, .refl _, fun h => by cases h⟩
  · let w₀ : Workshop := { w with catalog := w.catalog.reserve name }
    have hw₀ : w₀.catalog.Built o := hw
    obtain ⟨hw₁, hin₁, h₁⟩ := hb .root svg {} w₀ hw₀ (Draft.ready_empty _) trivial
    change _ ∧ _ ∧ _
    simp only [w₀] at hw₁ hin₁ h₁
    generalize b .root svg {} { w with catalog := w.catalog.reserve name } = r at hw₁ hin₁ h₁ ⊢
    obtain ⟨err | d, w₁⟩ := r
    · exact ⟨hw₁, hin₁, fun h => by cases h⟩
    · obtain ⟨hd, _, ss, hss, hdraw⟩ := h₁ d rfl
      dsimp only
      split
      · exact ⟨hw₁, hin₁, fun h => by cases h⟩
      · rename_i hfree
        have hin₂ : w₁.catalog.Within ((w₁.catalog.free name).add (d.finish name)) :=
          List.prefix_append _ _
        have hslots : d.slotsAt .root = ss := hss
        refine ⟨Catalog.Built.add hw₁ hd (fun ho => hslots ▸ hone ho hdraw) name, hin₁.trans hin₂,
          fun _ => ⟨d, hd.sound, ?_, ?_⟩⟩
        · have hnone : w₁.catalog.templates.find? (·.name == name) = none := by
            rw [List.find?_eq_none]
            intro t ht hn
            refine hfree (List.contains_iff_mem.mpr (List.mem_map.mpr ⟨t, ht, ?_⟩))
            simpa using hn
          change (w₁.catalog.templates ++ [d.finish name]).find? _ = _
          rw [List.find?_append, hnone]
          simp [Draft.finish]
        · rw [hslots]
          exact hP hin₂ (.refl .root d) (Nat.le_refl 0) Picture.lt_of_root hdraw

theorem Draws.nest {b : Builder} {P : Picture} (hb : Draws o b P) (hP : P.Stable) (hone : P.One)
    (tag : String) (dir : Directive) (value : String) :
    Draws o (nest tag dir value b) (.nest dir value P) := by
  intro parent svg d w hw hd hadm
  unfold Builder.nest
  cases hpath : Path.ofDirective value with
  | error e => exact ⟨hw, .refl _, fun e he => by cases he⟩
  | ok path =>
    dsimp only
    have hcat : (w.catalog.freshName dir).2.templates = w.catalog.templates := rfl
    generalize w.catalog.freshName dir = fn at hcat ⊢
    obtain ⟨name, cat⟩ := fn
    dsimp only at hcat ⊢
    have hw₀ : ({ w with catalog := cat }.tell (.spawned dir value tag name)).catalog.Built o :=
      hw.congr hcat
    obtain ⟨hw₁, hin₁, h₁⟩ := register_spec hb hP (fun _ => hone) name svg hw₀
    generalize register name svg b ({ w with catalog := cat }.tell _) = r at hw₁ hin₁ h₁ ⊢
    have hin : w.catalog.Within r.2.catalog := by
      have h : cat.templates <+: r.2.catalog.templates := hin₁
      rwa [hcat] at h
    obtain ⟨err | ⟨⟩, w₁⟩ := r
    · exact ⟨hw₁, hin, fun e he => by cases he⟩
    · refine ⟨hw₁, hin, fun e he => ?_⟩
      cases he
      obtain ⟨f, hf, hget, hdraw⟩ := h₁ rfl
      obtain ⟨v, hg, hv⟩ := Draft.addAnchor_gains parent dir name path hd.sound.coherent
      obtain ⟨hattrs, hcomps⟩ := hd.sound.at_next hg
      refine ⟨(hd.within hin).gains hg hadm (.anchor hg.getElem?_next hattrs hcomps) ?_, hg.extends,
        [d.next], by rw [hg.slotsAt_eq, if_pos rfl], d.next, name, path, v, d.groupCount, f, rfl,
        Nat.le_refl _, hg.getElem?_next, hpath, hcomps, hv, hget, hf, hdraw⟩
      intro dir' name' s' v' g' hm
      cases List.mem_singleton.mp hm
      exact ⟨_, List.mem_of_find?_eq_some hget, rfl⟩

/-- Every directive wraps what the ones after it make of the element. -/
theorem Draws.foldr_nest {b : Builder} {P : Picture} (hb : Draws o b P) (hP : P.Stable)
    (hone : P.One) (tag : String) (ds : List (Directive × String)) :
    Draws o (ds.foldr (fun x b => Builder.nest tag x.1 x.2 b) b)
      (ds.foldr (fun x P => Picture.nest x.1 x.2 P) P) := by
  induction ds with
  | nil => exact hb
  | cons x ds ih =>
    rw [List.foldr_cons, List.foldr_cons]
    exact ih.nest (hP.foldr_nest ds) (hone.foldr_nest ds) tag x.1 x.2

mutual

theorem draws_ofNode : ∀ n : Node, (∀ x ∈ n.elements, o.element x.1 x.2) →
    Draws o (ofNode n) (.ofNode n)
  | .document cs, hE => by
    rw [Node.elements] at hE
    rw [ofNode, Picture.ofNode]
    rcases draws_ofFirstElement? cs hE with ⟨hb, hp⟩ | ⟨b, P, hb, hp, h⟩
    · rw [hb, hp]
      exact draws_ofHead cs hE
    · rw [hb, hp]
      exact h
  | .text raw, _ => by
    rw [ofNode, Picture.ofNode]
    exact draws_text raw
  | .element tag as cs, hE => by
    rw [Node.elements] at hE
    have hcs := draws_ofChildren cs fun x hx => hE x (List.mem_cons_of_mem _ hx)
    have hbase := hcs.element (Picture.stable_ofChildren cs) (hE (tag, as) List.mem_cons_self)
    have hstable := (Picture.stable_ofChildren cs).element tag (plain as)
    rw [ofNode, Picture.ofNode]
    exact hbase.foldr_nest hstable (Picture.one_element _ _ _) tag (directives as)

theorem draws_ofChildren : ∀ ns : List Node, (∀ x ∈ Node.elementsAll ns, o.element x.1 x.2) →
    Draws o (ofChildren ns) (.ofChildren ns)
  | [], _ => by
    rw [ofChildren, Picture.ofChildren]
    exact draws_nothing
  | n :: ns, hE => by
    rw [Node.elementsAll] at hE
    have hn := draws_ofNode n fun x hx => hE x (List.mem_append_left _ hx)
    have hns := draws_ofChildren ns fun x hx => hE x (List.mem_append_right _ hx)
    exact hn.andThen hns (Picture.stable_ofNode n) (Picture.stable_ofChildren ns)

theorem draws_ofFirstElement? : ∀ ns : List Node, (∀ x ∈ Node.elementsAll ns, o.element x.1 x.2) →
    ofFirstElement? ns = none ∧ Picture.ofFirstElement? ns = none ∨
      ∃ b P, ofFirstElement? ns = some b ∧ Picture.ofFirstElement? ns = some P ∧ Draws o b P
  | [], _ => .inl ⟨rfl, rfl⟩
  | n :: ns, hE => by
    rw [Node.elementsAll] at hE
    rw [ofFirstElement?, Picture.ofFirstElement?]
    split
    · exact .inr ⟨_, _, rfl, rfl, draws_ofNode n fun x hx => hE x (List.mem_append_left _ hx)⟩
    · exact draws_ofFirstElement? ns fun x hx => hE x (List.mem_append_right _ hx)

theorem draws_ofHead : ∀ ns : List Node, (∀ x ∈ Node.elementsAll ns, o.element x.1 x.2) →
    Draws o (ofHead ns) (.ofHead ns)
  | [], _ => by
    rw [ofHead, Picture.ofHead]
    exact draws_nothing
  | n :: ns, hE => by
    rw [Node.elementsAll] at hE
    exact draws_ofNode n fun x hx => hE x (List.mem_append_left _ hx)

end

end Builder

/-! ## Compiling -/

namespace Workshop

theorem compile_spec {tree : Node} (hE : ∀ x ∈ tree.elements, o.element x.1 x.2)
    (hone : o.single → (Picture.ofNode tree).One) (name : String) {w : Workshop}
    (hw : w.catalog.Built o) :
    (w.compile tree name).2.catalog.Built o ∧
      w.catalog.Within (w.compile tree name).2.catalog ∧
      ((w.compile tree name).1 = .ok () → ∃ e : Draft, e.Sound ∧
        (w.compile tree name).2.catalog.get? name = some (e.finish name) ∧
        Picture.ofNode tree (w.compile tree name).2.catalog e 0 false (e.slotsAt .root)) := by
  have h := Builder.register_spec (Builder.draws_ofNode tree hE) (Picture.stable_ofNode tree) hone
    name false hw
  unfold compile
  generalize Builder.register name false (Builder.ofNode tree) w = r at h ⊢
  obtain ⟨err | ⟨⟩, w₁⟩ := r
  · exact ⟨h.1, h.2.1, fun h => by cases h⟩
  · exact h

/-- What compile calls leave behind, one after the other. -/
def compileAll (calls : List (Node × String)) (w : Workshop) : Workshop :=
  calls.foldl (fun w call => (w.compile call.1 call.2).2) w

/-- What is known of the trees of compile calls. -/
def origin (calls : List (Node × String)) : Origin where
  element tag as := ∃ call ∈ calls, (tag, as) ∈ call.1.elements
  single := ∀ call ∈ calls, (Picture.ofNode call.1).One

theorem compileAll_spec {calls all : List (Node × String)} (hall : ∀ call ∈ calls, call ∈ all)
    {w : Workshop} (hw : w.catalog.Built (origin all)) :
    (w.compileAll calls).catalog.Built (origin all) ∧
      w.catalog.Within (w.compileAll calls).catalog := by
  induction calls generalizing w with
  | nil => exact ⟨hw, .refl _⟩
  | cons call calls ih =>
    have hcall := hall call List.mem_cons_self
    have helement : ∀ x ∈ call.1.elements, (origin all).element x.1 x.2 := fun x hx =>
      ⟨call, hcall, hx⟩
    have hone : (origin all).single → (Picture.ofNode call.1).One := fun h => h call hcall
    obtain ⟨h₁, hin₁, _⟩ := compile_spec helement hone call.2 hw
    obtain ⟨h₂, hin₂⟩ := ih (fun call' h => hall call' (List.mem_cons_of_mem _ h)) h₁
    exact ⟨h₂, hin₁.trans hin₂⟩

/-- The catalog after compile calls of any kind. -/
theorem built_compileAll (calls : List (Node × String)) :
    (compileAll calls {}).catalog.Built (origin calls) :=
  (compileAll_spec (fun _ h => h) Catalog.built_empty).1

end Workshop

/-- A tree read from a source has one root, an element. -/
theorem Markup.exists_of_read {source : String} {tree : Node} (h : read source = .ok tree) :
    ∃ tag as cs, tree = .document [.element tag as cs] := by
  unfold read at h
  split at h
  · cases h
  · split at h
    · cases h
    · rename_i hn
      cases h
      unfold Node.ofTokens at hn
      split at hn
      · unfold Growth.finish at hn
        split at hn
        · cases hn
        · split at hn
          · cases hn
          · cases hn
            exact ⟨_, _, _, rfl⟩
          · cases hn
          · cases hn
      · cases hn

/-- The tree of a source, if it can be read. -/
def Markup.treeOf (source : String) : Node :=
  match read source with
  | .ok tree => tree
  | .error _ => .document []

theorem Markup.read_eq_treeOf {source : String} (h : (read source).isOk = true) :
    read source = .ok (treeOf source) := by
  unfold treeOf
  cases hr : read source with
  | ok tree => rfl
  | error e => rw [hr] at h; cases h

theorem Picture.one_of_read {source : String} {tree : Node} (h : read source = .ok tree) :
    (Picture.ofNode tree).One := by
  obtain ⟨tag, as, cs, rfl⟩ := exists_of_read h
  rw [Picture.ofNode, Picture.ofFirstElement?]
  exact one_ofNode_element tag as cs

theorem Workshop.single_origin {calls : List (Node × String)}
    (hcalls : ∀ call ∈ calls, ∃ source, read source = .ok call.1) :
    (Workshop.origin calls).single := by
  intro call hcall
  obtain ⟨source, hs⟩ := hcalls call hcall
  exact Picture.one_of_read hs

end Stencil

import Stencil.Proofs.Binding.Reading
import Stencil.Proofs.Template.Shape
import Stencil.Template.Compile

/-! What a draft gains with a node: one seed, the wires of its attributes, the wire that
puts it under its parent, and computations that speak of it alone. A draft to which nodes
are added under the elements it has makes a sound template. -/
namespace Stencil
open Binding Markup

namespace Computation

/-- The slot of which a computation speaks. -/
def slot : Computation → Slot
  | .setText s _ => s
  | .setProperty s _ _ => s
  | .setAttribute s _ _ _ => s
  | .unlessFalse s _ _ _ => s
  | .reconcile _ _ s _ _ => s

/-- The computations that speak of a slot, in order. -/
def allAt (xs : List Computation) (s : Slot) : List Computation := xs.filter (·.slot == s)

/-- The variables that a computation reads. -/
def vars : Computation → List Var
  | .setText _ value => value.vars
  | .setProperty _ _ value => value.vars
  | .setAttribute _ _ _ value => value.vars
  | .unlessFalse _ _ v setter => v :: setter.vars
  | .reconcile _ _ _ v _ => [v]

end Computation

theorem Template.Fits.mono {t t' : Template} {x : Computation} (h : t.Fits x)
    (hs : ∀ (s : Slot) seed, t.seeds[s]? = some seed → t'.seeds[s]? = some seed)
    (hv : t.varCount ≤ t'.varCount) (hg : t.groupCount ≤ t'.groupCount) : t'.Fits x := by
  have hel : ∀ {s}, t.HasElement s → t'.HasElement s := fun ⟨q, tag, svg, he⟩ =>
    ⟨q, tag, svg, hs _ _ he⟩
  have hvars : ∀ {value : Interpolation}, (∀ v ∈ value.vars, v < t.varCount) →
      ∀ v ∈ value.vars, v < t'.varCount := fun h v hm => Nat.lt_of_lt_of_le (h v hm) hv
  induction x with
  | setText s value =>
    obtain ⟨⟨q, content, ht⟩, hvs⟩ := h
    exact ⟨⟨q, content, hs _ _ ht⟩, hvars hvs⟩
  | setProperty s name value => exact ⟨hel h.1, hvars h.2⟩
  | setAttribute s space name value => exact ⟨hel h.1, hvars h.2⟩
  | unlessFalse s name v setter ih =>
    exact ⟨hel h.1, Nat.lt_of_lt_of_le h.2.1 hv, h.2.2.1, ih h.2.2.2⟩
  | reconcile d name s v g =>
    obtain ⟨⟨q, ha⟩, hlt, hgl⟩ := h
    exact ⟨⟨q, hs _ _ ha⟩, Nat.lt_of_lt_of_le hlt hv, Nat.lt_of_lt_of_le hgl hg⟩

/-- The attribute begins with its literal text: there is some, or there is nothing else. -/
def Markup.Attribute.IsWired (a : Attribute) : Prop :=
  literalText (tidy a.value) ≠ "" ∨
    ∃ ss, Segment.readAll (tidy a.value) = .ok ss ∧ ss.any Segment.isReference = false

namespace Draft

/-- Nodes can be added under the parent. -/
def Admits (d : Draft) : Parent → Prop
  | .root => True
  | .slot p => ∃ q tag svg, d.seeds[p]? = some (.element q tag svg)

/-- What is gained with one node. -/
structure Gains (d e : Draft) (parent : Parent) (seed : Seed) (ws : List Wire)
    (xs : List Computation) : Prop where
  seeds_eq : e.seeds = d.seeds ++ [seed]
  wires_eq : e.wires = d.wires ++ (ws ++ [.append parent d.next])
  computations_eq : e.index.computations = d.index.computations ++ xs
  coherent : e.index.Coherent Computation.vars
  grows : d.index.Grows e.index
  attr : ∀ w ∈ ws, (∃ space name value, w = .attr d.next space name value) ∧
    ∃ q tag svg, seed = .element q tag svg
  slot_eq : ∀ x ∈ xs, x.slot = d.next
  fits : ∀ x ∈ xs, ∀ name, (e.finish name).Fits x
  anchors : xs.filterMap Computation.anchored? = [] ∧ e.groupCount = d.groupCount ∨
    xs.filterMap Computation.anchored? = [(d.next, d.groupCount)] ∧
      e.groupCount = d.groupCount + 1

/-- A draft whose template would be sound. -/
structure Sound (d : Draft) : Prop where
  coherent : d.index.Coherent Computation.vars
  template : ∀ name, (d.finish name).Sound

theorem sound_empty : Sound {} where
  coherent := Index.coherent_empty
  template name := by
    refine ⟨rfl, ?_, ?_, ?_, rfl, List.nodup_nil, ?_, ?_⟩ <;> intro _ <;>
      simp [finish, Index.routes, Trie.branches, Trie.empty, Trie.branchRoutes]

variable {d e : Draft} {parent : Parent} {seed : Seed} {ws : List Wire} {xs : List Computation}

theorem Gains.getElem?_seeds (h : d.Gains e parent seed ws xs) {s : Slot} {x : Seed}
    (hs : d.seeds[s]? = some x) : e.seeds[s]? = some x := by
  rw [h.seeds_eq, List.getElem?_append_left (List.getElem?_eq_some_iff.mp hs).1]
  exact hs

theorem Gains.getElem?_next (h : d.Gains e parent seed ws xs) : e.seeds[d.next]? = some seed := by
  rw [h.seeds_eq, next]
  simp

theorem Gains.groupCount_le (h : d.Gains e parent seed ws xs) : d.groupCount ≤ e.groupCount := by
  rcases h.anchors with ⟨_, hg⟩ | ⟨_, hg⟩ <;> omega

theorem Gains.anchored_eq (h : d.Gains e parent seed ws xs) (name : String) :
    (e.finish name).anchored = (d.finish name).anchored ++ xs.filterMap Computation.anchored? := by
  unfold Template.anchored finish
  rw [h.computations_eq, List.filterMap_append]

private theorem filterMap_child?_attrs {s : Slot}
    (h : ∀ w ∈ ws, ∃ space name value, w = .attr s space name value) :
    ws.filterMap Wire.child? = [] := by
  rw [List.filterMap_eq_nil_iff]
  intro w hw
  obtain ⟨_, _, _, rfl⟩ := h w hw
  rfl

theorem Sound.gains (hd : d.Sound) (h : d.Gains e parent seed ws xs) (ha : d.Admits parent) :
    e.Sound where
  coherent := h.coherent
  template name := by
    have ht := hd.template name
    have helement : ∀ {s}, (d.finish name).HasElement s → (e.finish name).HasElement s :=
      fun ⟨q, tag, svg, hs⟩ => ⟨q, tag, svg, h.getElem?_seeds hs⟩
    have hanchored := h.anchored_eq name
    have hmem : ∀ w, w ∈ (e.finish name).wires ↔
        w ∈ (d.finish name).wires ∨ w ∈ ws ∨ w = .append parent d.next := by
      intro w
      simp [finish, h.wires_eq]
    refine ⟨?_, ?_, ?_, ?_, ?_, ?_, ?_, ?_⟩
    · have hold : d.wires.filterMap Wire.child? = List.range d.seeds.length := ht.children_eq
      simp only [finish, h.wires_eq, h.seeds_eq, List.filterMap_append, hold,
        filterMap_child?_attrs fun w hw => (h.attr w hw).1, List.length_append,
        List.length_singleton, List.range_succ]
      rfl
    · intro p c hm
      rcases (hmem _).mp hm with hm | hm | hm
      · exact ⟨(ht.parent_lt p c hm).1, helement (ht.parent_lt p c hm).2⟩
      · obtain ⟨_, _, _, he⟩ := (h.attr _ hm).1
        cases he
      · cases hm
        exact ⟨Template.lt_of_hasElement (t := d.finish name) ha, helement ha⟩
    · intro s space nm value hm
      rcases (hmem _).mp hm with hm | hm | hm
      · exact helement (ht.attr_element s space nm value hm)
      · obtain ⟨⟨_, _, _, he⟩, q, tag, svg, rfl⟩ := h.attr _ hm
        cases he
        exact ⟨q, tag, svg, h.getElem?_next⟩
      · cases hm
    · intro x hx
      rw [finish, h.computations_eq, List.mem_append] at hx
      rcases hx with hx | hx
      · exact (ht.fits x hx).mono (fun s seed hs => h.getElem?_seeds hs) h.grows.varCount_le
          h.groupCount_le
      · exact h.fits x hx name
    · have hold : (d.finish name).anchored.map (·.2) = List.range d.groupCount := ht.groups_eq
      rw [hanchored, List.map_append, hold]
      rcases h.anchors with ⟨hx, hg⟩ | ⟨hx, hg⟩ <;> simp [hx, hg, finish, List.range_succ]
    · have hold := ht.nodup_anchors
      rw [hanchored, List.map_append]
      rcases h.anchors with ⟨hx, _⟩ | ⟨hx, _⟩
      · simpa [hx] using hold
      · refine List.nodup_append.mpr ⟨hold, by simp [hx], ?_⟩
        rintro s hs s' hs' rfl
        obtain ⟨⟨s, g⟩, hm, rfl⟩ := List.mem_map.mp hs
        obtain ⟨dir, nm, v, hc⟩ := Template.mem_anchored.mp hm
        have hlt := Template.lt_of_hasAnchor (ht.fits _ hc).1
        have : s = d.seeds.length := by simpa [hx, next] using hs'
        exact absurd hlt (Nat.not_lt_of_le (Nat.le_of_eq this.symm))
    · intro r hr b hb
      obtain ⟨p, hat⟩ := h.coherent.exists_path hr
      exact h.coherent.var_lt _ _ ((hat.mem_bindings b.1 b.2).mp hb)
    · intro r hr k hk
      obtain ⟨p, hat⟩ := h.coherent.exists_path hr
      obtain ⟨a, ha, _⟩ := (hat.mem_computations k).mp hk
      exact (List.getElem?_eq_some_iff.mp ha).1

/-! ## Texts, attributes, elements and anchors -/

/-- The wire that gives an attribute its literal text. -/
def attributeWire (s : Slot) (a : Attribute) : Wire :=
  .attr s (attributeName a.name).1 (attributeName a.name).2 (literalText (tidy a.value))

/-- The wires and computations of the attributes of an element. -/
inductive Furnishes (B : Path → Var → Prop) (tag : String) (svg : Bool) (s : Slot) :
    List Attribute → List Wire → List Computation → Prop
  | nil : Furnishes B tag svg s [] [] []
  | fixed {a as ws xs ss} (read : Segment.readAll (tidy a.value) = .ok ss)
      (fixed : ss.any Segment.isReference = false) (rest : Furnishes B tag svg s as ws xs) :
      Furnishes B tag svg s (a :: as) (attributeWire s a :: ws) xs
  | bound {a as ws xs ss ps} (read : Segment.readAll (tidy a.value) = .ok ss)
      (bound : ss.any Segment.isReference = true) (value : Interprets B ss ps)
      (rest : Furnishes B tag svg s as ws xs) :
      Furnishes B tag svg s (a :: as)
        ((if literalText (tidy a.value) = "" then [] else [attributeWire s a]) ++ ws)
        (attributeSetter tag svg s a.name (literalText (tidy a.value) == "") ps :: xs)

variable {B B' : Path → Var → Prop} {tag : String} {svg : Bool} {s : Slot} {as : List Attribute}

theorem Furnishes.mono (hB : ∀ p v, B p v → B' p v) (h : Furnishes B tag svg s as ws xs) :
    Furnishes B' tag svg s as ws xs := by
  induction h with
  | nil => exact .nil
  | fixed hr hf _ ih => exact .fixed hr hf ih
  | bound hr hb hv _ ih => exact .bound hr hb (hv.mono hB) ih

/-- The wires and computations of a text. -/
def TextComputes (B : Path → Var → Prop) (s : Slot) (raw : String) (xs : List Computation) : Prop :=
  ∃ ss, Segment.readAll (tidy raw) = .ok ss ∧
    (ss.any Segment.isReference = false ∧ xs = [] ∨
      ss.any Segment.isReference = true ∧ ∃ ps, Interprets B ss ps ∧ xs = [.setText s ps])

theorem mem_vars_attributeSetter (tag : String) (svg : Bool) (s : Slot) (name : String)
    (bare : Bool) (ps : Interpolation) (v : Var) :
    v ∈ (attributeSetter tag svg s name bare ps).vars ↔ v ∈ ps.vars := by
  have hsetter : ∀ x, x = (if !svg && Vocabulary.isProperty tag name then
      Computation.setProperty s name ps
      else .setAttribute s (attributeName name).1 (attributeName name).2 ps) →
      x.vars = ps.vars := by
    rintro x rfl
    split <;> rfl
  unfold attributeSetter
  cases hs : ps.single? with
  | none => rw [hsetter _ rfl]
  | some w =>
    dsimp only
    split
    · rw [Computation.vars, hsetter _ rfl, List.mem_cons, or_iff_right_of_imp]
      rintro rfl
      exact Interpolation.mem_vars_of_single? hs
    · rw [hsetter _ rfl]

theorem slot_attributeSetter (tag : String) (svg : Bool) (s : Slot) (name : String)
    (bare : Bool) (ps : Interpolation) : (attributeSetter tag svg s name bare ps).slot = s := by
  unfold attributeSetter
  repeat' split
  all_goals rfl

theorem anchored?_attributeSetter (tag : String) (svg : Bool) (s : Slot) (name : String)
    (bare : Bool) (ps : Interpolation) :
    (attributeSetter tag svg s name bare ps).anchored? = none := by
  unfold attributeSetter
  repeat' split
  all_goals rfl

theorem fits_attributeSetter {t : Template} {tag : String} {svg : Bool} {s : Slot} {name : String}
    {bare : Bool} {ps : Interpolation} (hs : t.HasElement s) (hv : ∀ v ∈ ps.vars, v < t.varCount) :
    t.Fits (attributeSetter tag svg s name bare ps) := by
  have hsetter : t.Fits (if !svg && Vocabulary.isProperty tag name then
      Computation.setProperty s name ps
      else .setAttribute s (attributeName name).1 (attributeName name).2 ps) := by
    split <;> exact ⟨hs, hv⟩
  unfold attributeSetter
  cases hw : ps.single? with
  | none => exact hsetter
  | some w =>
    dsimp only
    split
    · refine ⟨hs, hv w (Interpolation.mem_vars_of_single? hw), ?_, hsetter⟩
      split <;> rfl
    · exact hsetter

theorem Furnishes.computation (h : Furnishes B tag svg s as ws xs) :
    ∀ x ∈ xs, ∃ a ∈ as, ∃ ss ps, Segment.readAll (tidy a.value) = .ok ss ∧
      ss.any Segment.isReference = true ∧ Interprets B ss ps ∧
      x = attributeSetter tag svg s a.name (literalText (tidy a.value) == "") ps := by
  induction h with
  | nil => exact fun x hx => nomatch hx
  | fixed _ _ _ ih =>
    intro x hx
    obtain ⟨a, ha, hx⟩ := ih x hx
    exact ⟨a, List.mem_cons_of_mem _ ha, hx⟩
  | bound hr hb hv _ ih =>
    intro x hx
    rcases List.mem_cons.mp hx with rfl | hx
    · exact ⟨_, List.mem_cons_self, _, _, hr, hb, hv, rfl⟩
    · obtain ⟨a, ha, hx⟩ := ih x hx
      exact ⟨a, List.mem_cons_of_mem _ ha, hx⟩

theorem Furnishes.wire (h : Furnishes B tag svg s as ws xs) :
    ∀ w ∈ ws, ∃ a ∈ as, w = attributeWire s a ∧ a.IsWired := by
  induction h with
  | nil => exact fun w hw => nomatch hw
  | fixed hr hf _ ih =>
    intro w hw
    rcases List.mem_cons.mp hw with rfl | hw
    · exact ⟨_, List.mem_cons_self, rfl, .inr ⟨_, hr, hf⟩⟩
    · obtain ⟨a, ha, h⟩ := ih w hw
      exact ⟨a, List.mem_cons_of_mem _ ha, h⟩
  | bound _ _ _ _ ih =>
    intro w hw
    rcases List.mem_append.mp hw with hw | hw
    · split at hw
      · cases hw
      · rename_i hl
        rw [List.mem_singleton.mp hw]
        exact ⟨_, List.mem_cons_self, rfl, .inl hl⟩
    · obtain ⟨a, ha, h⟩ := ih w hw
      exact ⟨a, List.mem_cons_of_mem _ ha, h⟩

theorem addAttribute_spec {tag : String} {svg : Bool} {s : Slot} {a : Attribute}
    (hd : d.index.Coherent Computation.vars) (h : d.addAttribute tag svg s a = .ok e) :
    ∃ ws xs, e.seeds = d.seeds ∧ e.wires = d.wires ++ ws ∧
      e.index.computations = d.index.computations ++ xs ∧ e.groupCount = d.groupCount ∧
      e.index.Coherent Computation.vars ∧ d.index.Grows e.index ∧
      ∀ {B as ws' xs'}, (∀ p v, e.index.Binds p v → B p v) →
        Furnishes B tag svg s as ws' xs' →
        Furnishes B tag svg s (a :: as) (ws ++ ws') (xs ++ xs') := by
  unfold addAttribute at h
  cases hr : Segment.readAll (tidy a.value) with
  | error e => simp [hr] at h
  | ok ss =>
    simp only [hr, Except.ok.injEq] at h
    cases hdyn : ss.any Segment.isReference with
    | false =>
      simp only [hdyn, Bool.not_false, or_true, if_true, Bool.false_eq_true, if_false] at h
      subst h
      exact ⟨[attributeWire s a], [], rfl, rfl, by simp [wire], rfl, hd, .refl _,
        fun _ hf => .fixed hr hdyn hf⟩
    | true =>
      obtain ⟨hc, hg, ps, hi, hx⟩ := Index.gather_spec hd ss _
        (mem_vars_attributeSetter tag svg s a.name (literalText (tidy a.value) == ""))
      simp only [hdyn, Bool.not_true, Bool.false_eq_true, or_false, if_true] at h
      subst h
      by_cases hl : literalText (tidy a.value) = ""
      · rw [if_neg (not_not_intro hl)]
        refine ⟨[], _, rfl, (List.append_nil _).symm, hx, rfl, hc, hg, fun hB hf => ?_⟩
        have hbound := Furnishes.bound hr hdyn (hi.mono hB) hf
        rwa [if_pos hl] at hbound
      · rw [if_pos hl]
        refine ⟨[attributeWire s a], _, rfl, rfl, hx, rfl, hc, hg, fun hB hf => ?_⟩
        have hbound := Furnishes.bound hr hdyn (hi.mono hB) hf
        rwa [if_neg hl] at hbound

theorem addAttributes_spec {tag : String} {svg : Bool} {s : Slot} (as : List Attribute) :
    ∀ {d e : Draft}, d.index.Coherent Computation.vars → d.addAttributes tag svg s as = .ok e →
    ∃ ws xs, e.seeds = d.seeds ∧ e.wires = d.wires ++ ws ∧
      e.index.computations = d.index.computations ++ xs ∧ e.groupCount = d.groupCount ∧
      e.index.Coherent Computation.vars ∧ d.index.Grows e.index ∧
      Furnishes e.index.Binds tag svg s as ws xs := by
  induction as with
  | nil =>
    intro d e hd h
    cases h
    exact ⟨[], [], rfl, by simp, by simp, rfl, hd, .refl _, .nil⟩
  | cons a as ih =>
    intro d e hd h
    rw [addAttributes] at h
    cases ha : d.addAttribute tag svg s a with
    | error err => simp [ha] at h
    | ok d₁ =>
      simp only [ha] at h
      obtain ⟨ws, xs, hs, hw, hx, hg, hc, hgr, hf⟩ := addAttribute_spec hd ha
      obtain ⟨ws', xs', hs', hw', hx', hg', hc', hgr', hf'⟩ := ih hc h
      exact ⟨ws ++ ws', xs ++ xs', hs'.trans hs, by rw [hw', hw, List.append_assoc],
        by rw [hx', hx, List.append_assoc], hg'.trans hg, hc', hgr.trans hgr', hf hgr'.binds hf'⟩

theorem addElement_gains {tag : String} {svg : Bool} {as : List Attribute}
    (hd : d.index.Coherent Computation.vars) (h : d.addElement tag svg as parent = .ok e) :
    ∃ ws xs, d.Gains e parent (.element d.next tag svg) ws xs ∧
      Furnishes e.index.Binds tag svg d.next as ws xs := by
  unfold addElement at h
  cases ha : (d.plant (.element d.next tag svg)).addAttributes tag svg d.next as with
  | error err => simp [ha] at h
  | ok d₁ =>
    simp only [ha, Except.ok.injEq] at h
    subst h
    obtain ⟨ws, xs, hs, hw, hx, hg, hc, hgr, hf⟩ :=
      addAttributes_spec as (d := d.plant (.element d.next tag svg)) hd ha
    have hseeds : d₁.seeds = d.seeds ++ [.element d.next tag svg] := hs
    refine ⟨ws, xs, ⟨hs, ?_, hx, hc, hgr, ?_, ?_, ?_, .inl ⟨?_, hg⟩⟩, hf⟩
    · change d₁.wires ++ _ = _
      rw [hw, List.append_assoc]
      rfl
    · intro w hwm
      obtain ⟨a, _, rfl, _⟩ := hf.wire w hwm
      exact ⟨⟨_, _, _, rfl⟩, _, _, _, rfl⟩
    · intro x hxm
      obtain ⟨_, _, _, _, _, _, _, rfl⟩ := hf.computation x hxm
      exact slot_attributeSetter ..
    · intro x hxm name
      obtain ⟨_, _, _, _, _, _, hi, rfl⟩ := hf.computation x hxm
      refine fits_attributeSetter ⟨d.next, tag, svg, ?_⟩ fun v hv => ?_
      · change d₁.seeds[d.next]? = _
        rw [hseeds, next]
        simp
      · obtain ⟨p, _, hp⟩ := hi.exists_path hv
        exact hc.var_lt _ v hp
    · rw [List.filterMap_eq_nil_iff]
      intro x hxm
      obtain ⟨_, _, _, _, _, _, _, rfl⟩ := hf.computation x hxm
      exact anchored?_attributeSetter ..

theorem addText_gains {raw : String} (hd : d.index.Coherent Computation.vars)
    (h : d.addText raw parent = .ok e) :
    ∃ xs, d.Gains e parent (.text d.next (literalText (tidy raw))) [] xs ∧
      TextComputes e.index.Binds d.next raw xs := by
  unfold addText at h
  cases hr : Segment.readAll (tidy raw) with
  | error err => simp [hr] at h
  | ok ss =>
    simp only [hr, Except.ok.injEq] at h
    subst h
    cases hdyn : ss.any Segment.isReference with
    | false =>
      exact ⟨[], ⟨rfl, rfl, by simp [append, plant], hd, .refl _, by simp, by simp, by simp,
        .inl ⟨rfl, rfl⟩⟩, ss, hr, .inl ⟨hdyn, rfl⟩⟩
    | true =>
      obtain ⟨hc, hg, ps, hi, hx⟩ := Index.gather_spec hd ss (.setText d.next) fun ps v => Iff.rfl
      refine ⟨[.setText d.next ps], ⟨rfl, rfl, hx, hc, hg, by simp, by simp [Computation.slot], ?_,
        .inl ⟨rfl, rfl⟩⟩, ss, hr, .inr ⟨hdyn, ps, hi, rfl⟩⟩
      intro x hxm name
      rw [List.mem_singleton.mp hxm]
      refine ⟨⟨d.next, literalText (tidy raw), by simp [finish, append, compute, plant, next]⟩,
        fun v hv => ?_⟩
      obtain ⟨p, _, hp⟩ := hi.exists_path hv
      exact hc.var_lt _ v hp

theorem addAnchor_gains (parent : Parent) (dir : Directive) (name : String) (path : Path)
    (hd : d.index.Coherent Computation.vars) :
    ∃ v, d.Gains (d.addAnchor dir name path parent) parent (.anchor d.next) []
        [.reconcile dir name d.next v d.groupCount] ∧
      (d.addAnchor dir name path parent).index.Binds path v := by
  obtain ⟨hc, hg, hx, hv⟩ := Index.assign_spec hd path
  have hrec := Index.grows_record (Computation.reconcile dir name d.next (d.index.assign path).1
    d.groupCount) [path] (d.index.assign path).2
  refine ⟨(d.index.assign path).1, ⟨rfl, rfl, ?_, hc.record ?_ ?_, hg.trans hrec, by simp,
    by simp [Computation.slot], ?_, .inr ⟨rfl, rfl⟩⟩, hrec.binds _ _ hv⟩
  · rw [← hx]
    rfl
  · intro p hp
    rw [List.mem_singleton.mp hp]
    exact ⟨_, List.mem_singleton_self _, hv⟩
  · intro v hvm
    rw [List.mem_singleton.mp hvm]
    exact ⟨path, List.mem_singleton_self _, hv⟩
  · intro x hxm nm
    rw [List.mem_singleton.mp hxm]
    refine ⟨⟨d.next, ?_⟩, hc.var_lt _ _ hv, Nat.lt_succ_self _⟩
    change (d.seeds ++ [Seed.anchor d.next])[d.next]? = _
    simp [next]

end Draft
end Stencil

import Stencil.Proofs.Template.Furnishing
import Stencil.Proofs.Template.Rooting

/-! Well-formed templates. Whatever trees are compiled, every template of the catalog is
sound, numbers its nodes in order, has at most one root, guards a setter by its only
variable, anchors each group once, runs computations in ascending order, and keeps no
literal that is empty or could join its neighbour. -/
namespace Stencil
open Binding Markup

/-! ## Interpolations -/

namespace Binding

def Piece.isReference : Piece → Bool
  | .reference _ => true
  | .literal _ => false

def Part.isVar : Part → Bool
  | .var _ => true
  | .literal _ => false

/-- Of two neighbours one is marked. -/
def Alternate (marks : List Bool) : Prop := marks.IsChain fun a b => a = true ∨ b = true

/-- No literal is empty, and none follows another. -/
structure Interpolation.Terse (value : Interpolation) : Prop where
  not_mem : .literal "" ∉ value
  alternate : Alternate (value.map Part.isVar)

theorem Piece.alternate_prependChar {c : Char} {ps : List Piece}
    (h : Alternate (ps.map isReference)) : Alternate ((prependChar c ps).map isReference) := by
  cases ps with
  | nil => exact .singleton _
  | cons p ps =>
    cases p with
    | literal cs => exact h
    | reference b => exact .cons_cons (.inr rfl) h

/-- Literals are cut as long as they can be. -/
theorem Piece.alternate_cut (cs : List Char) : Alternate ((cut cs).map isReference) := by
  fun_induction cut cs with
  | case1 cs b rest _ ih =>
    cases hcut : (cut rest).map isReference with
    | nil => rw [List.map_cons, hcut]; exact .singleton _
    | cons m ms =>
      rw [List.map_cons, hcut]
      exact .cons_cons (.inl rfl) (hcut ▸ ih)
  | case2 => exact .nil
  | case3 c cs _ ih => exact alternate_prependChar ih

theorem Segment.map_isReference {ps : List Piece} {ss : List Segment} (h : ofPieces ps = .ok ss) :
    ss.map isReference = ps.map Piece.isReference := by
  induction ps generalizing ss with
  | nil =>
    cases h
    rfl
  | cons p ps ih =>
    obtain ⟨s, ss', hp, hps, rfl⟩ := ofPieces_cons h
    rw [List.map_cons, List.map_cons, ih hps]
    cases p with
    | literal cs =>
      cases hp
      rfl
    | reference b =>
      obtain ⟨p, rfl⟩ := ofPiece_reference hp
      rfl

theorem Interprets.map_isVar {B : Path → Var → Prop} {ss : List Segment} {ps : Interpolation}
    (h : Interprets B ss ps) (hss : .literal "" ∉ ss) :
    ps.map Part.isVar = ss.map Segment.isReference := by
  induction h with
  | nil => rfl
  | blank => exact absurd List.mem_cons_self hss
  | literal _ _ ih => exact congrArg (false :: ·) (ih fun hm => hss (List.mem_cons_of_mem _ hm))
  | reference _ _ ih => exact congrArg (true :: ·) (ih fun hm => hss (List.mem_cons_of_mem _ hm))

theorem Interprets.literal_not_mem {B : Path → Var → Prop} {ss : List Segment}
    {ps : Interpolation} (h : Interprets B ss ps) : .literal "" ∉ ps := by
  induction h with
  | nil => exact List.not_mem_nil
  | blank _ ih => exact ih
  | literal hs _ ih => simpa [Ne.symm hs] using ih
  | reference _ _ ih => simpa using ih

/-- What is read from a text makes a terse interpolation. -/
theorem Interprets.terse {B : Path → Var → Prop} {text : String} {ss : List Segment}
    {ps : Interpolation} (h : Interprets B ss ps) (hread : Segment.readAll text = .ok ss) :
    ps.Terse where
  not_mem := h.literal_not_mem
  alternate := by
    have hss := Segment.blank_not_mem_ofPieces hread (Piece.literal_nil_not_mem_cut _)
    rw [h.map_isVar hss, Segment.map_isReference hread]
    exact Piece.alternate_cut _

theorem Interpolation.eq_of_single? {value : Interpolation} {v : Var}
    (h : value.single? = some v) : value = [.var v] := by
  unfold single? at h
  split at h
  · cases h
    rfl
  · cases h

end Binding

/-! ## Computations -/

/-- The interpolation that a computation writes. -/
def Computation.value? : Computation → Option Interpolation
  | .setText _ value => some value
  | .setProperty _ _ value => some value
  | .setAttribute _ _ _ value => some value
  | .unlessFalse _ _ _ setter => setter.value?
  | .reconcile .. => none

/-- A guard and its setter speak of one slot, and the setter reads the guard's variable
and no other. -/
def Computation.IsGuarded : Computation → Prop
  | .unlessFalse s _ v setter => setter.slot = s ∧ setter.vars = [v]
  | _ => True

namespace Draft

theorem setter_eq (tag : String) (svg : Bool) (s : Slot) (name : String) (value : Interpolation) :
    (setter tag svg s name value).slot = s ∧ (setter tag svg s name value).vars = value.vars ∧
      (setter tag svg s name value).value? = some value ∧
      (setter tag svg s name value).IsGuarded := by
  unfold setter
  split <;> exact ⟨rfl, rfl, rfl, trivial⟩

theorem value?_attributeSetter (tag : String) (svg : Bool) (s : Slot) (name : String)
    (bare : Bool) (value : Interpolation) :
    (attributeSetter tag svg s name bare value).value? = some value := by
  have hsetter := (setter_eq tag svg s name value).2.2.1
  rw [attributeSetter_eq]
  split
  · split <;> exact hsetter
  · exact hsetter

theorem isGuarded_attributeSetter (tag : String) (svg : Bool) (s : Slot) (name : String)
    (bare : Bool) (value : Interpolation) :
    (attributeSetter tag svg s name bare value).IsGuarded := by
  obtain ⟨hslot, hvars, _, hguarded⟩ := setter_eq tag svg s name value
  rw [attributeSetter_eq]
  split
  · rename_i v hv
    split
    · refine ⟨hslot, hvars.trans ?_⟩
      rw [Interpolation.eq_of_single? hv]
      rfl
    · exact hguarded
  · exact hguarded

variable {o : Origin} {ts : List Template} {d : Draft} {x : Computation}

/-- What a computation was made for: a text, an attribute or a directive. -/
theorem Ready.computation_cases (h : d.Ready o ts) (hx : x ∈ d.index.computations) :
    (∃ text ss value, Segment.readAll text = .ok ss ∧ ss.any Segment.isReference = true ∧
      Interprets d.index.Binds ss value ∧ (x = .setText x.slot value ∨
        ∃ tag svg name bare, x = attributeSetter tag svg x.slot name bare value)) ∨
      ∃ dir name v g, x = .reconcile dir name x.slot v g := by
  obtain ⟨hex, hm⟩ := h.explained_slot hx
  cases hex with
  | @text raw _ _ computes =>
    obtain ⟨ss, hread, ⟨_, hc⟩ | ⟨hb, value, hi, hc⟩⟩ := computes <;> rw [hc] at hm
    · cases hm
    · exact .inl ⟨_, ss, value, hread, hb, hi, .inl (List.mem_singleton.mp hm)⟩
  | element _ _ furnishes =>
    obtain ⟨a, _, ss, value, hread, hb, hi, hc⟩ := furnishes.computation x hm
    exact .inl ⟨_, ss, value, hread, hb, hi, .inr ⟨_, _, _, _, hc⟩⟩
  | anchor _ _ computes =>
    rw [computes] at hm
    exact .inr ⟨_, _, _, _, List.mem_singleton.mp hm⟩

theorem Ready.isGuarded (h : d.Ready o ts) (hx : x ∈ d.index.computations) : x.IsGuarded := by
  obtain ⟨_, _, _, _, _, _, hx | ⟨_, _, _, _, hx⟩⟩ | ⟨_, _, _, _, hx⟩ := h.computation_cases hx <;>
    rw [hx]
  · exact trivial
  · exact isGuarded_attributeSetter ..
  · exact trivial

theorem Ready.terse (h : d.Ready o ts) (hx : x ∈ d.index.computations) {value : Interpolation}
    (hv : x.value? = some value) : value.Terse := by
  obtain ⟨_, _, _, hread, _, hi, hx | ⟨_, _, _, _, hx⟩⟩ | ⟨_, _, _, _, hx⟩ :=
    h.computation_cases hx <;> rw [hx] at hv
  · cases hv
    exact hi.terse hread
  · rw [value?_attributeSetter] at hv
    cases hv
    exact hi.terse hread
  · cases hv

/-- Every computation reads some variable. -/
theorem Ready.exists_var (h : d.Ready o ts) (hx : x ∈ d.index.computations) : ∃ v, v ∈ x.vars := by
  obtain ⟨_, _, _, _, hb, hi, hx⟩ | ⟨_, _, v, _, hx⟩ := h.computation_cases hx
  · obtain ⟨v, hv⟩ := List.exists_mem_of_ne_nil _ (hi.vars_ne_nil hb)
    refine ⟨v, ?_⟩
    rcases hx with hx | ⟨_, _, _, _, hx⟩ <;> rw [hx]
    · exact hv
    · exact (mem_vars_attributeSetter ..).mpr hv
  · rw [hx]
    exact ⟨v, List.mem_singleton_self v⟩

theorem Ready.slot_seed (h : d.Ready o ts) {s : Slot} {seed : Seed}
    (hs : d.seeds[s]? = some seed) : seed.slot = s := by
  cases h.explained s (List.getElem?_eq_some_iff.mp hs).1 with
  | text hseed | element _ hseed | anchor hseed =>
    cases hs.symm.trans hseed
    rfl

/-- Nodes are numbered in the order of creation. -/
theorem Ready.slots_eq (h : d.Ready o ts) :
    d.seeds.map Seed.slot = List.range d.seeds.length := by
  refine List.ext_getElem (by simp) fun s hs _ => ?_
  rw [List.length_map] at hs
  rw [List.getElem_map, List.getElem_range]
  exact h.slot_seed (List.getElem?_eq_getElem hs)

end Draft

theorem Binding.Index.Coherent.pairwise_computations {α : Type} {reads : α → List Var}
    {ix : Index α} (h : ix.Coherent reads) {r : Route} (hr : r ∈ ix.routes) :
    r.computations.Pairwise (· < ·) := by
  have hd := h.distinct
  unfold routes at hr
  cases ht : ix.trie with
  | node v rs bs =>
    rw [ht] at hd hr
    obtain ⟨s, u, us, _, rfl⟩ := Trie.exists_of_mem_branchRoutes hd.1 hd.2 hr
    exact List.pairwise_lt_range.filter _

/-! ## Templates -/

/-- A sound template that is numbered, rooted, guarded, anchored, ordered and terse. -/
structure Template.WellFormed (t : Template) : Prop extends t.Sound where
  slots_eq : t.seeds.map Seed.slot = List.range t.seeds.length
  atMostOneRoot : t.AtMostOneRoot
  isGuarded : ∀ x ∈ t.computations, x.IsGuarded
  anchored_once : ∀ s, t.HasAnchor s → (t.anchored.map (·.1)).count s = 1
  ascending : ∀ r ∈ t.routes, r.computations.Pairwise (· < ·)
  terse : ∀ x ∈ t.computations, ∀ value, x.value? = some value → value.Terse

theorem Catalog.Built.wellFormed {c : Catalog} {o : Origin} (hc : c.Built o) {t : Template}
    (ht : t ∈ c.templates) (hroot : t.AtMostOneRoot) : t.WellFormed := by
  have hsound := hc.sound.template t ht
  have hanchored : ∀ s, t.HasAnchor s → (t.anchored.map (·.1)).count s = 1 := by
    intro s hs
    obtain ⟨dir, name, v, g, hx⟩ := hc.exists_reconcile ht hs
    have hm : (s, g) ∈ t.anchored := Template.mem_anchored.mpr ⟨dir, name, v, hx⟩
    exact List.count_eq_one_of_mem hsound.nodup_anchors (List.mem_map_of_mem hm)
  obtain ⟨d, ts, hd, hr⟩ := hc.exists_draft ht
  refine { hsound with
    slots_eq := ?_
    atMostOneRoot := hroot
    isGuarded := ?_
    anchored_once := hanchored
    ascending := ?_
    terse := ?_ } <;> rw [hd]
  · exact hr.slots_eq
  · exact fun x hx => hr.isGuarded hx
  · exact fun r hr' => hr.sound.coherent.pairwise_computations hr'
  · exact fun x hx value hv => hr.terse hx hv

/-- Whatever trees were compiled, with or without success, all templates are well formed;
and those that a tree read from a source adds have exactly one root. -/
theorem Workshop.wellFormed_compileAll (calls : List (Node × String)) :
    (∀ t ∈ (compileAll calls {}).catalog.templates, t.WellFormed) ∧
      ∀ source tree name, Markup.read source = .ok tree →
        ∀ t ∈ ((compileAll calls {}).compile tree name).2.catalog.templates,
          t ∉ (compileAll calls {}).catalog.templates →
            ∃ s, t.rootSlots = [s] ∧ t.top = some s := by
  refine ⟨fun t ht => ?_, fun source tree name hread t ht hnew => ?_⟩
  · exact (built_compileAll calls).wellFormed ht ((gains_compileAll calls {}).forall_mem nofun t ht)
  · exact (gains_compile_of_read hread name _).of_not_mem ht hnew

/-- A list with a directive within a directive, after trees without a node and without a
valid path. -/
theorem Workshop.wellFormed_compileAll_list :
    let source := "<ul title=\"\x7b\x7bname\x7d\x7d\">" ++
      "<li for=\"items\" if=\"on\">a \x7b\x7bx\x7d\x7d\x7b\x7by\x7d\x7d</li></ul>"
    let calls := [(Node.document [], "none"), (.text "\x7b\x7b..\x7d\x7d", "fails")]
    let w := ((compileAll calls {}).compile (treeOf source) "list").2
    Markup.read source = .ok (treeOf source) ∧ w.catalog.names = ["none", "if1", "for0", "list"] ∧
      (∃ t ∈ (compileAll calls {}).catalog.templates, t.rootSlots = [] ∧ t.WellFormed) ∧
      ∃ t ∈ w.catalog.templates, t ∉ (compileAll calls {}).catalog.templates ∧ t.name = "if1" ∧
        ∃ s, t.rootSlots = [s] ∧ t.top = some s := by
  intro source calls w
  have hread : Markup.read source = .ok (treeOf source) := read_eq_treeOf (by decide +kernel)
  have hnone : ((compileAll calls {}).catalog.get? "none").map (·.rootSlots) = some [] := by
    decide +kernel
  have hnested : (w.catalog.get? "if1").isSome := by decide +kernel
  have hbefore : (compileAll calls {}).catalog.names = ["none"] := by decide +kernel
  obtain ⟨t, ht, hempty⟩ := Option.map_eq_some_iff.mp hnone
  obtain ⟨u, hu⟩ := Option.isSome_iff_exists.mp hnested
  have hname : u.name = "if1" := by simpa using List.find?_some hu
  have hnew : u ∉ (compileAll calls {}).catalog.templates := by
    intro hm
    have hmem : u.name ∈ (compileAll calls {}).catalog.names := List.mem_map_of_mem hm
    rw [hbefore, hname] at hmem
    exact absurd hmem (by decide)
  refine ⟨hread, by decide +kernel, ⟨t, List.mem_of_find?_eq_some ht, hempty, ?_⟩,
    u, List.mem_of_find?_eq_some hu, hnew, hname, ?_⟩
  · exact (wellFormed_compileAll calls).1 t (List.mem_of_find?_eq_some ht)
  · exact (wellFormed_compileAll calls).2 source _ "list" hread u
      (List.mem_of_find?_eq_some hu) hnew

end Stencil

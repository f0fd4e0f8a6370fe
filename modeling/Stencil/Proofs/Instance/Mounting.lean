import Stencil.Proofs.Instance.Layout
import Stencil.Proofs.Instance.View

/-! Mounting. The nodes of a new instance are numbered one after the other from its
fragment on. The wires are run in order; after each of them the children of every node
are what the wires run so far put under it. At the end the instance is in place, with
its block as the content of its fragment. -/
namespace Stencil
open Document

theorem Seed.holds_kind (s : Seed) : s.Holds s.kind := by
  cases s with
  | element slot tag svg => cases svg <;> exact ⟨rfl, rfl⟩
  | text => trivial
  | anchor => trivial

theorem Seed.Holds.onElement {s : Seed} {k : Kind} {f : Element → Element}
    (hf : ∀ e, (f e).tag = e.tag ∧ (f e).space = e.space) (h : s.Holds k) :
    s.Holds (k.onElement f) := by
  cases k with
  | element e =>
    cases s with
    | element slot tag svg => exact ⟨(hf e).1.trans h.1, (hf e).2.trans h.2⟩
    | text => exact h
    | anchor => exact h
  | text => exact h
  | fragment => exact h

theorem Seed.Holds.element {q : Slot} {tag : String} {svg : Bool} {k : Kind}
    (h : Seed.Holds (.element q tag svg) k) : ∃ e, k = .element e := by
  cases k with
  | element e => exact ⟨e, rfl⟩
  | text => cases h
  | fragment => cases h

/-- Kinds by slot that are those of the seeds. -/
def Template.Held (t : Template) (ks : List Kind) : Prop :=
  ∀ (s : Slot) (seed : Seed), t.seeds[s]? = some seed → ∃ k, ks[s]? = some k ∧ seed.Holds k

theorem Template.Held.modify {t : Template} {ks : List Kind} {f : Kind → Kind} (h : t.Held ks)
    (hf : ∀ seed k, Seed.Holds seed k → seed.Holds (f k)) (s : Slot) :
    t.Held (ks.modify s f) := by
  intro q seed hq
  obtain ⟨k, hk, hh⟩ := h q seed hq
  rw [List.getElem?_modify, hk]
  by_cases hs : s = q
  · exact ⟨f k, by simp [hs], hf seed k hh⟩
  · exact ⟨k, by simp [hs], hh⟩

theorem Template.Held.wires {t : Template} {ks : List Kind} (h : t.Held ks) (ws : List Wire) :
    t.Held (ws.foldl View.wire ks) := by
  induction ws generalizing ks with
  | nil => exact h
  | cons w ws ih =>
    rw [List.foldl_cons]
    refine ih ?_
    cases w with
    | append => exact h
    | attr s space name value =>
      refine h.modify ?_ s
      exact fun _ _ hk => hk.onElement fun _ => ⟨rfl, rfl⟩

theorem Template.held_seeds (t : Template) : t.Held (t.seeds.map Seed.kind) := by
  intro s seed hs
  exact ⟨seed.kind, by simp [hs], seed.holds_kind⟩

theorem View.length_wires (ws : List Wire) (ks : List Kind) :
    (ws.foldl View.wire ks).length = ks.length := by
  induction ws generalizing ks with
  | nil => rfl
  | cons w ws ih => cases w <;> simp [ih, View.wire]

/-! ## New nodes -/

/-- The document with nodes for the seeds added. -/
def Document.createAll (ss : List Seed) (d : Document) : Document :=
  ss.foldl (fun d s => d.create s.kind) d

namespace Document

theorem size_createAll (ss : List Seed) (d : Document) :
    (d.createAll ss).size = d.size + ss.length := by
  induction ss generalizing d with
  | nil => rfl
  | cons s ss ih =>
    rw [createAll, List.foldl_cons]
    have := ih (d.create s.kind)
    rw [createAll, size_create] at this
    rw [this, List.length_cons]
    omega

theorem parent?_createAll (ss : List Seed) (d : Document) (n : NodeId) :
    (d.createAll ss).parent? n = d.parent? n := by
  induction ss generalizing d with
  | nil => rfl
  | cons s ss ih => exact (ih (d.create s.kind)).trans (parent?_create d s.kind n)

theorem children_createAll (ss : List Seed) (d : Document) (n : NodeId) :
    (d.createAll ss).children n = d.children n := by
  induction ss generalizing d with
  | nil => rfl
  | cons s ss ih => exact (ih (d.create s.kind)).trans (children_create d s.kind n)

theorem kind?_createAll_lt (ss : List Seed) (d : Document) {n : Nat} (hn : n < d.size) :
    (d.createAll ss).kind? n = d.kind? n := by
  induction ss generalizing d with
  | nil => rfl
  | cons s ss ih =>
    refine (ih (d.create s.kind) (by rw [size_create]; omega)).trans ?_
    rw [kind?_create, if_neg (Nat.ne_of_lt hn)]

theorem kind?_createAll (ss : List Seed) (d : Document) (s : Nat) :
    (d.createAll ss).kind? (d.size + s) = (ss.map Seed.kind)[s]? := by
  induction ss generalizing d s with
  | nil => simp [createAll, kind?_eq_none_iff]
  | cons seed ss ih =>
    cases s with
    | zero =>
      refine (kind?_createAll_lt ss (d.create seed.kind) (by rw [size_create]; omega)).trans ?_
      simp [kind?_create]
    | succ s =>
      have := ih (d.create seed.kind) s
      rw [size_create] at this
      rw [show d.size + (s + 1) = d.size + 1 + s by omega]
      simpa [createAll] using this

theorem Linked.createAll {d : Document} (h : d.Linked) (ss : List Seed) :
    (d.createAll ss).Linked := by
  induction ss generalizing d with
  | nil => exact h
  | cons s ss ih => exact ih (h.create s.kind)

end Document

theorem Instance.createNodes_eq (ss : List Seed) (sc : Scene) :
    createNodes ss sc = (List.range' sc.document.size ss.length,
      { sc with document := sc.document.createAll ss }) := by
  induction ss generalizing sc with
  | nil => rfl
  | cons s ss ih =>
    rw [createNodes, ih]
    simp [Scene.create, size_create, createAll, List.range'_succ]

/-- Once is enough. -/
theorem Instance.mount_of_isSome {i : Instance} (h : i.root.isSome) (sc : Scene) :
    i.mount sc = .ok i sc := by
  obtain ⟨r, hr⟩ := Option.isSome_iff_exists.mp h
  rw [mount, hr]

/-! ## Wiring -/

/-- The node of a parent in an instance whose fragment is `n`. -/
def Parent.nodeFrom (n : Nat) : Parent → Nat
  | .root => n
  | .slot s => n + 1 + s

theorem Parent.nodeFrom_inj {n : Nat} {p q : Parent} (h : p.nodeFrom n = q.nodeFrom n) : p = q := by
  cases p <;> cases q <;> simp only [nodeFrom] at h
  · rfl
  · omega
  · omega
  · exact congrArg Parent.slot (Nat.add_left_cancel h)

/-- A slot that the template has, or the root. -/
def Template.HasParent (t : Template) : Parent → Prop
  | .root => True
  | .slot s => t.HasElement s

/-- The document `d` after the wires `ws` of a template were run on the nodes that were
added to `d₀`. -/
structure Wired (t : Template) (d₀ : Document) (ws : List Wire) (d : Document) : Prop where
  size_eq : d.size = d₀.size + 1 + t.seeds.length
  linked : d.Linked
  old : ∀ x : Nat, x < d₀.size → d.get? x = d₀.get? x
  root_kind : d.kind? d₀.size = some .fragment
  kind?_eq : ∀ s, d.kind? (d₀.size + 1 + s) = (ws.foldl View.wire (t.seeds.map Seed.kind))[s]?
  children_eq : ∀ p, d.children (p.nodeFrom d₀.size) =
    (Wire.slotsAt ws p).map (d₀.size + 1 + ·)

namespace Wired

variable {t : Template} {d₀ d : Document} {ws : List Wire}

theorem start (t : Template) (hl : d₀.Linked) :
    Wired t d₀ [] ((d₀.create .fragment).createAll t.seeds) where
  size_eq := by rw [size_createAll, size_create]
  linked := (hl.create _).createAll _
  old x hx := by
    have hx' : x < (d₀.create .fragment).size := by rw [size_create]; omega
    refine get?_congr ?_ ?_ ?_
    · rw [kind?_createAll_lt _ _ hx', kind?_create, if_neg (Nat.ne_of_lt hx)]
    · rw [parent?_createAll, parent?_create]
    · rw [children_createAll, children_create]
  root_kind := by
    rw [kind?_createAll_lt _ _ (by rw [size_create]; omega), kind?_create, if_pos rfl]
  kind?_eq s := by
    have := kind?_createAll t.seeds (d₀.create .fragment) s
    rw [size_create] at this
    exact this
  children_eq p := by
    rw [children_createAll, children_create]
    refine children_of_size_le ?_
    cases p <;> simp only [Parent.nodeFrom] <;> omega

/-- The children of a node are old ones of an old node, or were put there by a wire. -/
theorem mem_children (h : Wired t d₀ ws d) (hl : d₀.Linked) {x y : Nat} (hx : x ∈ d.children y) :
    x < d₀.size ∧ y < d₀.size ∨
      ∃ p c, y = p.nodeFrom d₀.size ∧ x = d₀.size + 1 + c ∧ .append p c ∈ ws := by
  have hnew : ∀ p : Parent, y = p.nodeFrom d₀.size →
      ∃ p c, y = p.nodeFrom d₀.size ∧ x = d₀.size + 1 + c ∧ Wire.append p c ∈ ws := by
    intro p hp
    rw [hp, h.children_eq] at hx
    obtain ⟨c, hc, rfl⟩ := List.mem_map.mp hx
    exact ⟨p, c, hp, rfl, Wire.mem_slotsAt.mp hc⟩
  rcases Nat.lt_trichotomy y d₀.size with hy | hy | hy
  · left
    rw [children_of_get? (h.old y hy)] at hx
    exact ⟨hl.lt_size hx, hy⟩
  · exact .inr (hnew .root hy)
  · exact .inr (hnew (.slot (y - d₀.size - 1)) (by simp only [Parent.nodeFrom]; omega))

/-- A node comes after its parent. -/
theorem nodeFrom_lt (ht : t.Sound) {p : Parent} {c : Slot} (hw : .append p c ∈ t.wires) (n : Nat) :
    p.nodeFrom n < n + 1 + c := by
  cases p with
  | root => simp only [Parent.nodeFrom]; omega
  | slot s =>
    have := (ht.parent_lt s c hw).1
    simp only [Parent.nodeFrom]
    omega

/-- Parents have smaller numbers, among the nodes that are wired. -/
theorem parent_lt (h : Wired t d₀ ws d) (hl : d₀.Linked) (ht : t.Sound)
    (hws : ∀ w ∈ ws, w ∈ t.wires) {x y : Nat} (hx : d.parent? x = some y) :
    y < x ∨ x < d₀.size ∧ y < d₀.size := by
  rcases h.mem_children hl ((h.linked.mem_children_iff y x).mpr hx) with hold | ⟨p, c, rfl, rfl, hw⟩
  · exact .inr hold
  · exact .inl (nodeFrom_lt ht (hws _ hw) d₀.size)

theorem held (h : Wired t d₀ ws d) {s : Slot} {seed : Seed} (hs : t.seeds[s]? = some seed) :
    ∃ k, d.kind? (d₀.size + 1 + s) = some k ∧ seed.Holds k := by
  obtain ⟨k, hk, hh⟩ := t.held_seeds.wires ws s seed hs
  exact ⟨k, (h.kind?_eq s).trans hk, hh⟩

theorem container (h : Wired t d₀ ws d) {p : Parent} (hp : t.HasParent p) :
    ∃ k, d.kind? (p.nodeFrom d₀.size) = some k ∧ isContainer k = true := by
  cases p with
  | root => exact ⟨_, h.root_kind, rfl⟩
  | slot s =>
    obtain ⟨q, tag, svg, hs⟩ := hp
    obtain ⟨k, hk, hh⟩ := h.held hs
    obtain ⟨e, rfl⟩ := hh.element
    exact ⟨_, hk, rfl⟩

section

variable {p : Parent} {c : Nat} {rest : List Wire} (h : Wired t d₀ ws d) (hl : d₀.Linked)
  (ht : t.Sound) (hw : t.wires = ws ++ .append p c :: rest)
include h hl ht hw

/-- A wire that puts a node somewhere is the first to do so. -/
theorem orphan : d.parent? (d₀.size + 1 + c) = none := by
  have hfirst : ∀ q, .append q c ∉ ws := by
    intro q hq
    have hn := ht.nodup_children
    rw [hw, List.filterMap_append, List.filterMap_cons] at hn
    simp only [Wire.child?] at hn
    exact (List.nodup_append.mp hn).2.2 c (List.mem_filterMap.mpr ⟨_, hq, rfl⟩) c (by simp) rfl
  cases hq : d.parent? (d₀.size + 1 + c) with
  | none => rfl
  | some y =>
    rcases h.mem_children hl ((h.linked.mem_children_iff _ _).mpr hq) with hold |
      ⟨q, c', _, hc', hm⟩
    · omega
    · have : c' = c := by omega
      exact absurd (this ▸ hm) (hfirst q)

/-- It finds its parent, and is not above it. -/
theorem admits : d.Admits (p.nodeFrom d₀.size) (d₀.size + 1 + c) none := by
  have hmem : .append p c ∈ t.wires := by rw [hw]; simp
  have hws : ∀ w ∈ ws, w ∈ t.wires := fun w h => by rw [hw]; simp [h]
  have hc : c < t.seeds.length := ht.slot_lt (Template.mem_slotsAt.mpr hmem)
  have hp : t.HasParent p := by
    cases p with
    | root => trivial
    | slot s => exact (ht.parent_lt s c hmem).2
  refine ⟨by rw [h.size_eq]; omega, h.container hp, by simp, ?_⟩
  intro hm
  -- going up from the parent the numbers stay below that of the child
  have hlt : ∀ a : Nat, a ∈ d.ancestors (p.nodeFrom d₀.size) → a < d₀.size + 1 + c := by
    refine forall_mem_climb (S := fun x : Nat => x < d₀.size + 1 + c) ?_ _ (nodeFrom_lt ht hmem _)
    intro x y hx hy
    rcases h.parent_lt hl ht hws hy with hlt | hold <;> omega
  exact Nat.lt_irrefl _ (hlt _ hm)

theorem children_place_append (n : Nat) :
    (d.place (p.nodeFrom d₀.size) (d₀.size + 1 + c) none).children n =
      if n = p.nodeFrom d₀.size then d.children n ++ [d₀.size + 1 + c] else d.children n := by
  have hun : (d.unlink (d₀.size + 1 + c)).children n = d.children n := by
    rw [children_unlink, h.orphan hl ht hw]
    rfl
  rw [children_place (h.admits hl ht hw), hun]
  rfl

theorem append : ∃ e, d.append (p.nodeFrom d₀.size) (d₀.size + 1 + c) = .ok e ∧
    Wired t d₀ (ws ++ [.append p c]) e := by
  have ha := h.admits hl ht hw
  have hchildren := h.children_place_append hl ht hw
  have hmem : .append p c ∈ t.wires := by rw [hw]; simp
  have hc : c < t.seeds.length := ht.slot_lt (Template.mem_slotsAt.mpr hmem)
  have hkind : d.kind? (d₀.size + 1 + c) ≠ some .fragment := by
    obtain ⟨k, hk, hh⟩ := h.held (List.getElem?_eq_getElem hc)
    rw [hk]
    rintro ⟨rfl⟩
    cases hseed : t.seeds[c] <;> rw [hseed] at hh <;> exact hh
  refine ⟨_, insertBefore_node ha hkind (by simp), ⟨by rw [size_place]; exact h.size_eq,
    h.linked.place ha, ?_, ?_, ?_, ?_⟩⟩
  · intro x hx
    rw [← h.old x hx]
    refine get?_congr (kind?_place ..) ?_ ?_
    · rw [parent?_place _ ha.child_lt, if_neg (by omega)]
    · rw [hchildren, if_neg]
      cases p <;> simp only [Parent.nodeFrom] <;> omega
  · rw [kind?_place]
    exact h.root_kind
  · intro s
    rw [kind?_place, h.kind?_eq, List.foldl_append]
    rfl
  · intro q
    rw [hchildren, Wire.slotsAt_append, List.map_append, ← h.children_eq]
    by_cases hq : p = q
    · subst hq
      simp [Wire.slotsAt, Wire.under]
    · have hne : q.nodeFrom d₀.size ≠ p.nodeFrom d₀.size := fun he =>
        hq (Parent.nodeFrom_inj he).symm
      simp [hne, Wire.slotsAt, Wire.under, hq]

end

theorem attr (h : Wired t d₀ ws d) (ht : t.Sound) {s : Nat} {space : Option String}
    {name value : String} (hw : .attr s space name value ∈ t.wires) :
    ∃ e, d.setAttribute (d₀.size + 1 + s) space name value = .ok e ∧
      Wired t d₀ (ws ++ [.attr s space name value]) e := by
  obtain ⟨q, tag, svg, hs⟩ := ht.attr_element s space name value hw
  obtain ⟨k, hk, hh⟩ := h.held hs
  obtain ⟨el, rfl⟩ := hh.element
  have hlt := lt_size_of_kind? hk
  refine ⟨_, editElement_element _ hk, ?_⟩
  refine ⟨by rw [size_setKind]; exact h.size_eq, h.linked.setKind hlt (by simp), ?_, ?_, ?_, ?_⟩
  · intro x hx
    rw [← h.old x hx]
    exact get?_setKind _ (Nat.ne_of_lt (by omega))
  · rw [kind?_setKind _ hlt, if_neg (by omega)]
    exact h.root_kind
  · intro q
    rw [kind?_setKind _ hlt, List.foldl_append, List.foldl_cons, List.foldl_nil, View.wire,
      List.getElem?_modify, ← h.kind?_eq q]
    by_cases hq : q = s
    · subst hq
      simp [hk, Kind.onElement, Element.putAttribute]
    · simp [hq, Ne.symm hq]
  · intro p
    rw [children_setKind, h.children_eq, Wire.slotsAt_append]
    simp [Wire.slotsAt, Wire.under]

end Wired

namespace Instance

/-- One wire of an instance whose nodes are numbered from its fragment on. -/
theorem runWire_eq {t : Template} {d₀ : Document} {ws rest : List Wire} {w : Wire} {i : Instance}
    {sc : Scene} (h : Wired t d₀ ws sc.document) (hl : d₀.Linked) (ht : t.Sound)
    (hw : t.wires = ws ++ w :: rest) (hi : i.nodes = List.range' (d₀.size + 1) t.seeds.length) :
    ∃ e, runWire d₀.size w i sc = .ok i { sc with document := e } ∧ Wired t d₀ (ws ++ [w]) e := by
  have hnode : ∀ s : Nat, s < t.seeds.length → i.nodes[s]? = some (d₀.size + 1 + s) := by
    intro s hs
    rw [hi, List.getElem?_range' hs]
    simp
  have hmem : w ∈ t.wires := by rw [hw]; simp
  cases w with
  | append p c =>
    obtain ⟨e, he, hwired⟩ := h.append hl ht hw
    have hc := hnode c (ht.slot_lt (Template.mem_slotsAt.mpr hmem))
    refine ⟨e, ?_, hwired⟩
    cases p with
    | root =>
      simp only [Parent.nodeFrom] at he
      simp [runWire, onNode, hc, Outcome.edit, he]
    | slot p =>
      have hp := hnode p (Template.lt_of_hasElement (ht.parent_lt p c hmem).2)
      simp only [Parent.nodeFrom] at he
      simp [runWire, onNode, hc, hp, Outcome.edit, he]
  | attr s space name value =>
    obtain ⟨e, he, hwired⟩ := h.attr ht hmem
    have hs := hnode s (Template.lt_of_hasElement (ht.attr_element s space name value hmem))
    refine ⟨e, ?_, hwired⟩
    simp [runWire, onNode, hs, Outcome.edit, he]

theorem each_runWire {t : Template} {d₀ : Document} {i : Instance} (hl : d₀.Linked) (ht : t.Sound)
    (hi : i.nodes = List.range' (d₀.size + 1) t.seeds.length) (rest : List Wire) :
    ∀ (ws : List Wire) (sc : Scene), Wired t d₀ ws sc.document → t.wires = ws ++ rest →
      ∃ e, Outcome.each (runWire d₀.size) rest i sc = .ok i { sc with document := e } ∧
        Wired t d₀ t.wires e := by
  induction rest with
  | nil =>
    intro ws sc h hw
    rw [List.append_nil] at hw
    exact ⟨sc.document, rfl, hw ▸ h⟩
  | cons w rest ih =>
    intro ws sc h hw
    obtain ⟨e, he, hwired⟩ := runWire_eq h hl ht hw hi
    obtain ⟨f, hf, hdone⟩ := ih (ws ++ [w]) { sc with document := e } hwired (by simp [hw])
    refine ⟨f, ?_, hdone⟩
    rw [Outcome.each, he]
    exact hf

/-- A new instance of a template, in place in its own fragment. -/
structure Mounted (c : Catalog) (t : Template) (d₀ d : Document) (i : Instance) : Prop where
  template_eq : i.template = t
  root_eq : i.root = some d₀.size
  live : i.Live c d
  nodup : i.owned.Nodup
  fresh : ∀ x : Nat, x ∈ i.owned → d₀.size ≤ x
  children_eq : d.children d₀.size = i.block
  linked : d.Linked
  size_lt : d₀.size < d.size
  old : ∀ x : Nat, x < d₀.size → d.get? x = d₀.get? x
  view_eq : i.view d = View.new t

/-- An instance of `t` before its first update. -/
private def blank (t : Template) (n : Nat) : Instance :=
  { new t with root := some n, phase := .mounted, nodes := List.range' (n + 1) t.seeds.length }

private theorem blank_layout {t : Template} (ht : t.Sound) (n : Nat) (p : Parent) :
    (blank t n).layout p = (t.slotsAt p).map (n + 1 + ·) := by
  have hslot : ∀ s ∈ t.slotsAt p, (blank t n).slotBlock s = [n + 1 + s] := by
    intro s hs
    have hlt := ht.slot_lt hs
    unfold slotBlock Template.spread
    rw [blockGroups_eq]
    cases hg : t.groupAt? s with
    | none => simp [blank, new, hg, hlt]
    | some g =>
      have hgc :
          ((List.replicate t.groupCount ([] : List Instance)).map blockAll)[g]?.getD [] = [] := by
        rw [List.map_replicate, List.getElem?_replicate]
        split <;> rfl
      simp only [blank, new, hg, Option.bind_some, hgc, List.getElem?_range' hlt]
      simp
  unfold layout
  rw [List.map_eq_flatMap]
  exact List.flatMap_congr hslot

private theorem blank_owned (t : Template) (n : Nat) :
    (blank t n).owned = List.range' n (t.seeds.length + 1) := by
  have hg : ownedGroups (List.replicate t.groupCount []) = [] := by
    rw [ownedGroups_eq, List.flatMap_eq_nil_iff]
    intro is his
    rw [List.eq_of_mem_replicate his]
    rfl
  rw [owned_eq, body]
  simp [blank, new, hg, List.range'_succ]

theorem mounted_of_wired {c : Catalog} {t : Template} {d₀ d : Document} (hc : t ∈ c.templates)
    (ht : t.Sound) (h : Wired t d₀ t.wires d) : Mounted c t d₀ d (blank t d₀.size) where
  template_eq := rfl
  root_eq := rfl
  linked := h.linked
  old := h.old
  size_lt := by rw [h.size_eq]; omega
  nodup := by rw [blank_owned]; exact List.nodup_range'
  fresh x hx := by
    rw [blank_owned, List.mem_range'_1] at hx
    exact hx.1
  children_eq := by
    rw [block_eq, blank_layout ht]
    exact h.children_eq .root
  view_eq := by
    rw [view_eq]
    have hk : (blank t d₀.size).nodes.map d.kindOf =
        t.wires.foldl View.wire (t.seeds.map Seed.kind) := by
      refine List.ext_getElem? fun s => ?_
      by_cases hs : s < t.seeds.length
      · have hx := List.getElem?_eq_getElem (l := t.wires.foldl View.wire (t.seeds.map Seed.kind))
          (i := s) (by simpa [View.length_wires] using hs)
        have hk := h.kind?_eq s
        rw [hx] at hk ⊢
        simp [blank, hs, kindOf, hk]
      · rw [List.getElem?_eq_none (by simp [blank]; omega),
          List.getElem?_eq_none (by rw [View.length_wires, List.length_map]; omega)]
    have hg : viewGroups d (List.replicate t.groupCount []) = List.replicate t.groupCount [] := by
      rw [viewGroups_eq, List.map_replicate]
      rfl
    rw [hk]
    simp only [blank, new, hg]
    rfl
  live := by
    have hgroup : ∀ g is,
        (List.replicate t.groupCount ([] : List Instance))[g]? = some is → is = [] :=
      fun g is hg => List.eq_of_mem_replicate (List.mem_of_getElem? hg)
    have hnode : ∀ (s : Nat) n, (List.range' (d₀.size + 1) t.seeds.length)[s]? = some n →
        n = d₀.size + 1 + s := by
      intro s n hn
      have hs : s < t.seeds.length := by simpa using (List.getElem?_eq_some_iff.mp hn).1
      rw [List.getElem?_range' hs] at hn
      simpa using (Option.some.inj hn).symm
    refine .intro ⟨hc, ⟨_, rfl, h.root_kind⟩, ?_, ?_, ?_, ?_, ?_, ?_, ?_⟩ ?_
    · simp [blank, new]
    · simp [blank, new]
    · simp [blank, new]
    · intro s seed n hseed hn
      rw [hnode s n hn]
      exact h.held hseed
    · intro s n _ hn
      rw [hnode s n hn, blank_layout ht]
      exact h.children_eq (.slot s)
    · intro name s v g is _ hg
      rw [hgroup g is hg]
      exact Nat.zero_le 1
    · intro dir name s v g is _ hg j hj
      rw [hgroup g is hg] at hj
      cases hj
    · intro is his j hj
      rw [List.eq_of_mem_replicate his] at hj
      cases hj

theorem mount_new {c : Catalog} {t : Template} (hc : t ∈ c.templates) (ht : t.Sound) {sc : Scene}
    (hl : sc.document.Linked) :
    ∃ i d, (new t).mount sc = .ok i { sc with document := d } ∧ Mounted c t sc.document d i := by
  have hstart := Wired.start t hl
  obtain ⟨e, he, hw⟩ := each_runWire hl ht
    (i := { new t with nodes := List.range' (sc.document.size + 1) t.seeds.length }) rfl t.wires []
    { sc with document := (sc.document.create .fragment).createAll t.seeds } hstart rfl
  refine ⟨_, e, ?_, mounted_of_wired hc ht hw⟩
  unfold mount
  simp only [new, createNodes_eq, Scene.create, size_create]
  simp only [new] at he
  rw [he]
  rfl

end Instance
end Stencil

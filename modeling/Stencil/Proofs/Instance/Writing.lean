import Stencil.Proofs.Document.Facets
import Stencil.Proofs.Instance.Cells
import Stencil.Proofs.Instance.Identity
import Stencil.Proofs.Instance.Updating

/-! Writing. An update that succeeds changes a facet of a node only where a computation
that ran writes to it, in the instance itself or, through a group that was rendered, in an
instance at any depth below. Nothing here depends on where the instances stand. -/
namespace Stencil
open Binding Document

/-- The cell of a slot that shows a facet of its node. -/
def Document.Facet.cell (s : Slot) : Facet → Cell
  | .text => .text s
  | .attr key => .attr s key
  | .property name => .property s name

theorem Document.Facet.ne_of_cell {s : Slot} {w : Facet} {cells : List Cell} (w' : Facet)
    (h : w'.cell s ∈ cells) (hw : w.cell s ∉ cells) : w ≠ w' := by
  rintro rfl
  exact hw h

/-- The keys of an object; other data has none. -/
def Json.keys : Json → List String
  | .obj fields => fields.map (·.1)
  | _ => []

/-- The computation stands on the route of the key. -/
def Template.RunsFor (t : Template) (key : String) (x : Computation) : Prop :=
  ∃ r, t.route? key = some r ∧ ∃ k ∈ r.computations, t.computations[k]? = some x

/-! ## What a computation can do -/

namespace Instance

variable {c : Catalog} {upd : Updater} {x : Computation} {i j : Instance} {sc sc' : Scene}

theorem onNode_eq_ok {s : Slot} {f : NodeId → Outcome Instance}
    (h : i.onNode s sc f = .ok j sc') : ∃ n, i.nodes[s]? = some n ∧ f n = .ok j sc' := by
  unfold onNode at h
  split at h
  · rename_i n hn
    exact ⟨n, hn, h⟩
  · cases h

/-- A computation for some cells sets a text, changes an element, or renders a group. -/
inductive Effect (c : Catalog) (upd : Updater) (cells : List Cell) (i : Instance) (sc : Scene) :
    Instance → Scene → Prop
  | text {s : Slot} {n : NodeId} {content : String} {sc' : Scene} (cell : .text s ∈ cells)
      (node : i.nodes[s]? = some n) (set : sc.document.setText n content = .ok sc'.document) :
      Effect c upd cells i sc i sc'
  | element {s : Slot} {n : NodeId} {f : Element → Element} {sc' : Scene}
      (spares : ∀ w : Facet, w.cell s ∉ cells → w.Spared f) (node : i.nodes[s]? = some n)
      (edit : sc.document.editElement n f = .ok sc'.document) : Effect c upd cells i sc i sc'
  | group {dir : Directive} {name : String} {g : Group} {anchor : NodeId} {value : Json}
      {is js : List Instance} {sc' : Scene} (cell : .group g ∈ cells)
      (group : i.groups[g]? = some is)
      (render : Children.reconcile c upd name dir anchor value is sc = .ok js sc') :
      Effect c upd cells i sc (i.withGroup g js) sc'

theorem Effect.mono {cells cells' : List Cell} (h : Effect c upd cells i sc j sc')
    (hsub : ∀ cell ∈ cells, cell ∈ cells') : Effect c upd cells' i sc j sc' := by
  cases h with
  | text cell node set => exact .text (hsub _ cell) node set
  | element spares node edit =>
    exact .element (fun w hw => spares w fun hm => hw (hsub _ hm)) node edit
  | group cell group render => exact .group (hsub _ cell) group render

theorem effect_compute (h : compute c upd x i sc = .ok j sc') :
    Effect c upd x.cells i sc j sc' := by
  induction x with
  | setText s value =>
    obtain ⟨n, hn, ho⟩ := onNode_eq_ok h
    split at ho
    · obtain ⟨rfl, he⟩ := Outcome.edit_eq_ok ho
      exact .text (List.mem_singleton_self _) hn he
    · cases ho
  | setProperty s name value =>
    obtain ⟨n, hn, ho⟩ := onNode_eq_ok h
    split at ho
    · obtain ⟨rfl, he⟩ := Outcome.edit_eq_ok ho
      exact .element (fun w hw => Facet.spared_putProperty _
        (Facet.ne_of_cell (.property name) (List.mem_singleton_self _) hw)) hn he
    · cases ho
  | setAttribute s space name value =>
    obtain ⟨n, hn, ho⟩ := onNode_eq_ok h
    split at ho
    · obtain ⟨rfl, he⟩ := Outcome.edit_eq_ok ho
      exact .element (fun w hw => Facet.spared_putAttribute _
        (Facet.ne_of_cell (.attr (space, name)) (List.mem_singleton_self _) hw)) hn he
    · cases ho
  | unlessFalse s name v setter ih =>
    rw [compute] at h
    split at h
    · cases h
    · split at h
      · obtain ⟨n, hn, ho⟩ := onNode_eq_ok h
        obtain ⟨i', sc₁, hedit, hrest⟩ := Outcome.andThen_eq_ok ho
        obtain ⟨rfl, hdrop⟩ := Outcome.edit_eq_ok hedit
        rw [dropAttribute_eq] at hdrop
        have hattr : ∀ w : Facet, w.cell s ∉ (Computation.unlessFalse s name v setter).cells →
            w.Spared (.dropAttribute (Draft.attributeName name)) := fun w hw =>
          Facet.spared_dropAttribute
            (Facet.ne_of_cell (.attr (Draft.attributeName name)) List.mem_cons_self hw)
        split at hrest
        · rename_i p _
          obtain ⟨rfl, he⟩ := Outcome.edit_eq_ok hrest
          -- both are taken away from one element, which is one change of it
          refine .element (fun w hw => (hattr w hw).comp (Facet.spared_dropProperty ?_)) hn
            (editElement_comp hdrop he)
          exact Facet.ne_of_cell (.property p)
            (List.mem_cons_of_mem _ (List.mem_append_left _ (List.mem_singleton_self _))) hw
        · cases hrest
          exact .element hattr hn hdrop
      · refine (ih h).mono fun cell hcell => ?_
        exact List.mem_cons_of_mem _ (List.mem_append_right _ hcell)
  | reconcile dir name s v g =>
    obtain ⟨n, _, ho⟩ := onNode_eq_ok h
    split at ho
    · rename_i value is _ hg
      generalize hr : Children.reconcile c upd name dir n value is sc = o at ho
      obtain ⟨js, sc₁, error⟩ := o
      cases ho
      exact .group (List.mem_singleton_self _) hg hr
    · cases ho
    · cases ho

/-! ## What may be written -/

/-- Some computation among `S` may write the facet of the node, or renders a group with an
instance in which any computation may. -/
inductive Writes : Instance → (Computation → Prop) → NodeId → Facet → Prop
  | own {i : Instance} {S : Computation → Prop} {x : Computation} {s : Slot}
      {n : NodeId} {w : Facet}
      (mem : x ∈ i.template.computations) (runs : S x) (cell : w.cell s ∈ x.cells)
      (node : i.nodes[s]? = some n) : Writes i S n w
  | nested {i k : Instance} {S : Computation → Prop} {x : Computation} {g : Group}
      {is : List Instance} {n : NodeId} {w : Facet} (mem : x ∈ i.template.computations) (runs : S x)
      (cell : .group g ∈ x.cells) (group : i.groups[g]? = some is) (held : k ∈ is)
      (writes : Writes k (fun _ => True) n w) : Writes i S n w

/-- Some instance may write the facet of the node. -/
def AnyWrites (is : List Instance) (n : NodeId) (w : Facet) : Prop :=
  ∃ i ∈ is, i.Writes (fun _ => True) n w

theorem anyWrites_cons {is : List Instance} {n : NodeId} {w : Facet} :
    AnyWrites (i :: is) n w ↔ i.Writes (fun _ => True) n w ∨ AnyWrites is n w := by
  simp [AnyWrites]

theorem AnyWrites.mono {is js : List Instance} {n : NodeId} {w : Facet} (h : AnyWrites is n w)
    (hsub : is ⊆ js) : AnyWrites js n w := by
  obtain ⟨i, hi, hw⟩ := h
  exact ⟨i, hsub hi, hw⟩

end Instance

/-- Only `R` was written, and what may be written later is `R'`, or new. -/
structure Document.Confined (R R' : NodeId → Facet → Prop) (d e : Document) : Prop where
  writes : WritesOnly R d e
  fresh : ∀ (n : Nat) w, R' n w → R n w ∨ d.size ≤ n

namespace Document.Confined

variable {R R' R'' Q Q' : NodeId → Facet → Prop} {d e f : Document}

theorem of_writes (h : WritesOnly R d e) : Confined R R d e := ⟨h, fun _ _ => .inl⟩

theorem refl (R : NodeId → Facet → Prop) (d : Document) : Confined R R d d := of_writes (.refl R d)

theorem trans (h : Confined R R' d e) (h' : Confined R' R'' e f) : Confined R R'' d f where
  writes := by
    refine h.writes.trans h'.writes fun n w hn hw => (h.fresh n w hw).resolve_right ?_
    omega
  fresh n w hw := by
    rcases h'.fresh n w hw with hw | hw
    · exact h.fresh n w hw
    · exact .inr (Nat.le_trans h.writes.size_le hw)

/-- What may be written as before, besides, makes no difference. -/
theorem weaken (h : Confined R R' d e) (hR : ∀ n w, R n w → Q n w)
    (hQ : ∀ n w, Q' n w → Q n w ∨ R' n w) : Confined Q Q' d e where
  writes := h.writes.mono fun n w _ => hR n w
  fresh n w hw := by
    rcases hQ n w hw with hw | hw
    · exact .inl hw
    · exact (h.fresh n w hw).imp_left (hR n w)

end Document.Confined

namespace Instance

variable {i j : Instance} {is : List Instance} {d e : Document}

/-- What the first of some instances does. -/
theorem confined_cons (h : Confined (i.Writes fun _ => True) (j.Writes fun _ => True) d e) :
    Confined (AnyWrites (i :: is)) (AnyWrites (j :: is)) d e :=
  h.weaken (fun _ _ hw => anyWrites_cons.mpr (.inl hw)) fun _ _ hw =>
    (anyWrites_cons.mp hw).symm.imp_left fun hw => anyWrites_cons.mpr (.inr hw)

/-- A new instance comes to some others. -/
theorem confined_snoc (h : Confined (fun _ _ => False) (j.Writes fun _ => True) d e) :
    Confined (AnyWrites is) (AnyWrites (is ++ [j])) d e := by
  refine h.weaken (fun _ _ => False.elim) ?_
  rintro n w ⟨k, hk, hw⟩
  rcases List.mem_append.mp hk with hk | hk
  · exact .inl ⟨k, hk, hw⟩
  · exact .inr (List.mem_singleton.mp hk ▸ hw)

end Instance

/-- Updates of nested instances write only what these may write. -/
def Updater.Confined (upd : Updater) : Prop :=
  ∀ (i : Instance) (data : Json) (sc : Scene) (j : Instance) (sc' : Scene),
    upd i data sc = .ok j sc' →
      Document.Confined (i.Writes fun _ => True) (j.Writes fun _ => True) sc.document sc'.document

/-! ## New instances -/

namespace Instance

variable {S : Computation → Prop} {i j : Instance} {sc sc' : Scene}

theorem writes_new (t : Template) (n : NodeId) (w : Facet) : ¬ (new t).Writes S n w := by
  intro h
  cases h with
  | own _ _ _ node => cases node
  | nested _ _ _ group held =>
    rw [List.eq_of_mem_replicate (List.mem_of_getElem? group)] at held
    cases held

theorem writesOnly_runWire {root : NodeId} {w : Wire} (h : runWire root w i sc = .ok j sc') :
    j = i ∧ WritesOnly (fun n _ => n ∈ i.nodes) sc.document sc'.document := by
  unfold runWire at h
  split at h
  · obtain ⟨_, _, ho⟩ := onNode_eq_ok h
    obtain ⟨rfl, he⟩ := Outcome.edit_eq_ok ho
    exact ⟨rfl, .insertBefore he⟩
  · obtain ⟨_, _, ho⟩ := onNode_eq_ok h
    obtain ⟨_, _, ho⟩ := onNode_eq_ok ho
    obtain ⟨rfl, he⟩ := Outcome.edit_eq_ok ho
    exact ⟨rfl, .insertBefore he⟩
  · obtain ⟨n, hn, ho⟩ := onNode_eq_ok h
    obtain ⟨rfl, he⟩ := Outcome.edit_eq_ok ho
    exact ⟨rfl, .editElement he fun _ hR => absurd (List.mem_of_getElem? hn) hR⟩

theorem writesOnly_wires {root : NodeId} (ws : List Wire) :
    ∀ {sc : Scene}, Outcome.each (runWire root) ws i sc = .ok j sc' →
      j = i ∧ WritesOnly (fun n _ => n ∈ i.nodes) sc.document sc'.document := by
  induction ws with
  | nil =>
    intro sc h
    cases h
    exact ⟨rfl, .refl _ _⟩
  | cons w ws ih =>
    intro sc h
    obtain ⟨i', sc₁, hw, hrest⟩ := Outcome.andThen_eq_ok h
    obtain ⟨rfl, hfirst⟩ := writesOnly_runWire hw
    obtain ⟨rfl, hlater⟩ := ih hrest
    exact ⟨rfl, hfirst.trans hlater fun _ _ _ h => h⟩

/-- Mounting makes new nodes, and writes into no others. -/
theorem confined_mount (h : i.mount sc = .ok j sc') :
    j.template = i.template ∧ Confined (i.Writes S) (j.Writes S) sc.document sc'.document := by
  unfold mount at h
  split at h
  · cases h
    exact ⟨rfl, .refl _ _⟩
  · simp only [createNodes_eq] at h
    obtain ⟨i', sc₁, hwires, hrest⟩ := Outcome.andThen_eq_ok h
    obtain ⟨rfl, hch⟩ := writesOnly_wires _ hwires
    cases hrest
    have hfresh : ∀ n : Nat, n ∈ List.range' (sc.create .fragment).document.size
        i.template.seeds.length → sc.document.size ≤ n := by
      intro n hn
      have := (List.mem_range'_1.mp hn).1
      simp only [Scene.create, size_create] at this
      omega
    refine ⟨rfl, ?_, fun n w hw => ?_⟩
    · have hcreate : WritesOnly (i.Writes S) sc.document
          ((sc.create .fragment).document.createAll i.template.seeds) := by
        refine .of_kind ?_ fun n hn => ?_
        · simp only [Scene.create, size_createAll, size_create]
          omega
        · have hlt : n < (sc.document.create .fragment).size := by
            rw [size_create]
            omega
          rw [Scene.create, kind?_createAll_lt _ _ hlt, kind?_create, if_neg (Nat.ne_of_lt hn)]
      refine hcreate.trans hch fun n w hn hm => ?_
      exact absurd (hfresh n hm) (Nat.not_le_of_lt hn)
    · cases hw with
      | own _ _ _ node => exact .inr (hfresh n (List.mem_of_getElem? node))
      | nested mem runs cell group held writes =>
        exact .inl (.nested mem runs cell group held writes)

end Instance

/-! ## Lists of instances -/

namespace Instance

variable (R : NodeId → Facet → Prop)

theorem writesOnly_takeOut (root : Option NodeId) (nodes : List NodeId) (ss : List Slot) :
    ∀ (phase : Phase) (d : Document), WritesOnly R d (takeOut root nodes ss phase d).2 := by
  induction ss with
  | nil => exact fun _ d => .refl R d
  | cons s ss ih =>
    intro phase d
    rw [takeOut]
    split
    · exact ih phase d
    · split
      · exact ih phase d
      · split
        · exact ih phase d
        · exact (WritesOnly.unlink R d _).trans (ih .detached _) fun _ _ _ h => h

mutual

theorem writesOnly_remove : ∀ (i : Instance) (d : Document), WritesOnly R d (i.remove d).2
  | ⟨t, phase, root, nodes, values, groups⟩, d => by
    rw [remove]
    refine (writesOnly_removeGroups t.rootGroups groups 0 d).trans ?_ fun _ _ _ h => h
    exact writesOnly_takeOut R root nodes t.rootSlots phase _

theorem writesOnly_removeGroups (marked : List Group) :
    ∀ (gs : List (List Instance)) (g : Group) (d : Document),
      WritesOnly R d (removeGroups marked g gs d).2
  | [], _, d => .refl R d
  | is :: gs, g, d => by
    rw [removeGroups]
    by_cases hm : marked.contains g = true
    · rw [if_pos hm]
      exact (writesOnly_removeAll is d).trans (writesOnly_removeGroups marked gs (g + 1) _)
        fun _ _ _ h => h
    · rw [if_neg hm]
      exact writesOnly_removeGroups marked gs (g + 1) d

theorem writesOnly_removeAll :
    ∀ (is : List Instance) (d : Document), WritesOnly R d (removeAll is d).2
  | [], d => .refl R d
  | i :: is, d => by
    rw [removeAll]
    exact (writesOnly_remove i d).trans (writesOnly_removeAll is _) fun _ _ _ h => h

end

theorem writesOnly_release (name : String) (i : Instance) (sc : Scene) :
    WritesOnly R sc.document (i.release name sc).2.document :=
  writesOnly_remove R i sc.document

end Instance

namespace Children

open Instance

variable {c : Catalog} {upd : Updater} {name : String} {is js : List Instance} {sc sc' : Scene}

theorem writesOnly_shrink (R : NodeId → Facet → Prop) (n : Nat) (is : List Instance) (sc : Scene) :
    WritesOnly R sc.document (shrink name n is sc).2.document := by
  have hfold : ∀ (js : List Instance) (sc : Scene),
      WritesOnly R sc.document (js.foldl (fun sc i => (i.release name sc).2) sc).document := by
    intro js
    induction js with
    | nil => exact fun sc => .refl R _
    | cons j js ih =>
      intro sc
      exact (Instance.writesOnly_release R name j sc).trans (ih _) fun _ _ _ h => h
  exact hfold _ sc

variable (hupd : upd.Confined)
include hupd

theorem confined_updateEach {vs : List Json} (h : updateEach upd is vs sc = .ok js sc') :
    Confined (AnyWrites is) (AnyWrites js) sc.document sc'.document := by
  induction is generalizing vs js sc with
  | nil =>
    cases h
    exact .refl _ _
  | cons i is ih =>
    cases vs with
    | nil =>
      cases h
      exact .refl _ _
    | cons v vs =>
      obtain ⟨j, sc₁, ks, hj, hks, rfl⟩ := updateEach_cons_eq_ok h
      refine (confined_cons (hupd i v sc j sc₁ hj)).trans ?_
      exact (ih hks).weaken (fun n w hw => anyWrites_cons.mpr (.inr hw)) fun n w hw =>
        (anyWrites_cons.mp hw).imp_left fun hw => anyWrites_cons.mpr (.inl hw)

/-- A new instance may write only into new nodes. -/
theorem confined_introduce {put : NodeId → Document → Except DocumentError Document}
    (hput : ∀ {R r d e}, put r d = .ok e → WritesOnly R d e) {v : Json} {j : Instance}
    (h : introduce c upd name put v sc = (.ok j, sc')) :
    Confined (fun _ _ => False) (j.Writes fun _ => True) sc.document sc'.document := by
  obtain ⟨i, r, sc₁, sc₂, hi, hr, _, hj⟩ := introduce_eq_ok h
  obtain ⟨t, sc₀, _, hmount, rfl⟩ := Catalog.instantiate_cases hi
  have hnew : Confined (fun _ _ => False) (i.Writes fun _ => True) sc.document sc₀.document :=
    (confined_mount hmount).2.weaken (fun n w hw => writes_new t n w hw) fun n w hw => .inr hw
  exact (hnew.trans (.of_writes (hput hr))).trans (hupd i v sc₂ j sc' hj)

theorem confined_grow {batch : NodeId} {vs : List Json}
    (h : grow c upd name batch vs is sc = .ok js sc') :
    Confined (AnyWrites is) (AnyWrites js) sc.document sc'.document := by
  induction vs generalizing is sc with
  | nil =>
    cases h
    exact .refl _ _
  | cons v vs ih =>
    obtain ⟨j, sc₁, hj, hgrow⟩ := grow_cons_eq_ok h
    exact (confined_snoc (confined_introduce hupd (fun h => .insertBefore h) hj)).trans (ih hgrow)

theorem confined_renderEach {anchor : NodeId} {items : List Json}
    (h : renderEach c upd name anchor items is sc = .ok js sc') :
    Confined (AnyWrites is) (AnyWrites js) sc.document sc'.document := by
  obtain ⟨ks, sc₁, hks, hjs⟩ := renderEach_eq_ok h
  have hkept : Confined (AnyWrites is) (AnyWrites ks) sc.document sc₁.document := by
    refine .trans ⟨writesOnly_shrink _ _ _ (sc.tell _), ?_⟩ (confined_updateEach hupd hks)
    exact fun n w hw => .inl (hw.mono (List.take_subset _ _))
  rcases hjs with ⟨_, rfl, rfl⟩ | ⟨_, p, sc₂, hgrow, hput, _⟩
  · exact hkept
  · exact (hkept.trans (.of_writes (.create _ _ _))).trans
      ((confined_grow hupd hgrow).trans (.of_writes (.insertBefore hput)))

theorem confined_renderPresent {anchor : NodeId} {v : Json}
    (h : renderPresent c upd name anchor v is sc = .ok js sc') :
    Confined (AnyWrites is) (AnyWrites js) sc.document sc'.document := by
  unfold renderPresent at h
  split at h
  · split at h
    · rename_i i is
      generalize ho : upd i v sc = o at h
      obtain ⟨j, sc₁, error⟩ := o
      cases h
      exact confined_cons (hupd i v sc j sc₁ ho)
    · split at h
      · cases h
      · split at h
        · cases h
        · rename_i j _ hj
          cases h
          exact confined_snoc (confined_introduce hupd (fun h => .insertBefore h) hj)
  · split at h
    · cases h
      exact .refl _ _
    · cases h
      refine ⟨writesOnly_release _ name _ sc, fun n w hw => .inl (hw.mono ?_)⟩
      exact List.dropLast_subset _

theorem confined_reconcile {dir : Directive} {anchor : NodeId} {v : Json}
    (h : reconcile c upd name dir anchor v is sc = .ok js sc') :
    Confined (AnyWrites is) (AnyWrites js) sc.document sc'.document := by
  cases dir with
  | onTruthy => exact confined_renderEach hupd h
  | forEach =>
    rw [reconcile, renderItems] at h
    split at h
    · exact confined_renderEach hupd h
    · exact (confined_renderEach hupd h :)
  | onPresent => exact confined_renderPresent hupd h

end Children

/-! ## Updates -/

namespace Instance

variable {c : Catalog} {upd : Updater} {S : Computation → Prop} {i j : Instance} {sc sc' : Scene}

/-- The template stays, and only what a computation among `S` may write was written. -/
def Obeys (S : Computation → Prop) (i : Instance) (sc : Scene) (o : Outcome Instance) : Prop :=
  ∀ j sc', o = .ok j sc' →
    j.template = i.template ∧ Confined (i.Writes S) (j.Writes S) sc.document sc'.document

theorem Obeys.andThen {o : Outcome Instance} {next : Instance → Scene → Outcome Instance}
    (h : Obeys S i sc o) (hnext : ∀ j sc', j.template = i.template → Obeys S j sc' (next j sc')) :
    Obeys S i sc (o.andThen next) := by
  intro k sc'' hk
  obtain ⟨j, sc', rfl, hrest⟩ := Outcome.andThen_eq_ok hk
  obtain ⟨htemplate, hfirst⟩ := h j sc' rfl
  obtain ⟨htemplate', hlater⟩ := hnext j sc' htemplate k sc'' hrest
  exact ⟨htemplate'.trans htemplate, hfirst.trans hlater⟩

theorem obeys_each {α : Type} {f : α → Instance → Scene → Outcome Instance} {t : Template}
    (as : List α) (hf : ∀ a ∈ as, ∀ i sc, i.template = t → Obeys S i sc (f a i sc)) :
    ∀ i sc, i.template = t → Obeys S i sc (.each f as i sc) := by
  induction as with
  | nil =>
    intro i sc _ j sc' h
    cases h
    exact ⟨rfl, .refl _ _⟩
  | cons a as ih =>
    intro i sc hi
    refine (hf a List.mem_cons_self i sc hi).andThen fun j sc' hj => ?_
    exact ih (fun b hb => hf b (List.mem_cons_of_mem _ hb)) j sc' (hj.trans hi)

theorem obeys_bind (data : Json) (b : Var × List String) : Obeys S i sc (bind data b i sc) := by
  intro j sc' h
  unfold bind at h
  split at h <;> cases h
  refine ⟨rfl, .refl _ _, fun n w hw => .inl ?_⟩
  cases hw with
  | own mem runs cell node => exact .own mem runs cell node
  | nested mem runs cell group held writes => exact .nested mem runs cell group held writes

theorem obeys_compute (hupd : upd.Confined) {x : Computation} (hx : x ∈ i.template.computations)
    (hS : S x) : Obeys S i sc (compute c upd x i sc) := by
  intro j sc' h
  cases effect_compute h with
  | text cell node set => exact ⟨rfl, .of_writes (.setText set (.own hx hS cell node))⟩
  | element spares node edit =>
    refine ⟨rfl, .of_writes (.editElement edit fun w hw => spares w fun hm => hw ?_)⟩
    exact .own hx hS hm node
  | @group dir name g anchor value is js _ cell group render =>
    refine ⟨rfl, (Children.confined_reconcile hupd render).weaken ?_ fun n w hw => ?_⟩
    · rintro n w ⟨k, hk, hw⟩
      exact .nested hx hS cell group hk hw
    · cases hw with
      | own mem runs cell node => exact .inl (.own mem runs cell node)
      | @nested _ k _ y g' is' _ _ mem runs cell' group' held writes =>
        rw [withGroup, List.getElem?_set] at group'
        split at group'
        · split at group'
          · cases group'
            exact .inr ⟨k, held, writes⟩
          · cases group'
        · exact .inl (.nested mem runs cell' group' held writes)

theorem obeys_takeField (hupd : upd.Confined) {f : String × Json}
    (hS : ∀ x, i.template.RunsFor f.1 x → S x) : Obeys S i sc (takeField c upd f i sc) := by
  unfold takeField
  split
  · rename_i r hr
    refine (obeys_each (t := i.template) r.bindings (fun b _ j sc _ => obeys_bind f.2 b) i sc
      rfl).andThen fun j sc' hj => ?_
    refine obeys_each (t := i.template) r.computations (fun k hk j sc hj => ?_) j sc' hj
    unfold runComputation
    split
    · rename_i x hx
      exact obeys_compute hupd (List.mem_of_getElem? hx) (hS x ⟨r, hr, k, hk, hj ▸ hx⟩)
    · intro j sc' h
      cases h
  · intro j sc' h
    cases h
    exact ⟨rfl, .refl _ _⟩

/-- An update writes only what the computations on the routes of its keys may write. -/
theorem obeys_updateWith (hupd : upd.Confined) {data : Json}
    (hS : ∀ key ∈ data.keys, ∀ x, i.template.RunsFor key x → S x) :
    Obeys S i sc (updateWith c upd i data sc) := by
  refine Obeys.andThen (fun j sc' h => confined_mount h) fun j sc' hj => ?_
  split
  · rename_i fields
    refine obeys_each (t := i.template) fields (fun f hf k sc hk => ?_) j sc' hj
    exact obeys_takeField hupd (hk ▸ hS f.1 (List.mem_map_of_mem hf))
  · intro k sc'' h
    cases h
    exact ⟨rfl, .refl _ _⟩

theorem confined_updateTo (c : Catalog) (n : Nat) : Updater.Confined (updateTo c n) := by
  induction n with
  | zero =>
    intro i data sc j sc' h
    cases h
  | succ n ih =>
    intro i data sc j sc' h
    exact (obeys_updateWith ih (fun _ _ _ _ => trivial) j sc' h).2

end Instance
end Stencil

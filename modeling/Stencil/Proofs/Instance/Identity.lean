import Stencil.Instance.Update
import Stencil.Proofs.Instance.Mounting

/-! Identity. To update a mounted instance is to change its values and its groups: it keeps
its fragment and its nodes, and only through its groups are other instances made or given
back. So a list that is rendered again has the instances it had, by their positions, and
new ones after them. -/
namespace Stencil

/-- How many instances were made, and how many given back. -/
def Scene.counts (sc : Scene) : Nat × Nat := (sc.created, sc.released)

namespace Instance

/-- The same instance at another time. -/
structure Continues (i j : Instance) : Prop where
  template_eq : j.template = i.template
  phase_eq : j.phase = i.phase
  root_eq : j.root = i.root
  nodes_eq : j.nodes = i.nodes

theorem Continues.refl (i : Instance) : i.Continues i := ⟨rfl, rfl, rfl, rfl⟩

theorem Continues.trans {i j k : Instance} (h : i.Continues j) (h' : j.Continues k) :
    i.Continues k where
  template_eq := h'.template_eq.trans h.template_eq
  phase_eq := h'.phase_eq.trans h.phase_eq
  root_eq := h'.root_eq.trans h.root_eq
  nodes_eq := h'.nodes_eq.trans h.nodes_eq

end Instance

/-- At most the document has changed. -/
def Outcome.Edits (i : Instance) (sc : Scene) (o : Outcome Instance) : Prop :=
  o.state = i ∧ o.scene.counts = sc.counts

/-- The instance is the same, and where it has no groups the counts are too. -/
structure Outcome.Keeps (i : Instance) (sc : Scene) (o : Outcome Instance) : Prop where
  continues : i.Continues o.state
  quiet : i.groups = [] → o.state.groups = [] ∧ o.scene.counts = sc.counts

namespace Outcome

variable {α : Type} {i : Instance} {sc : Scene}

theorem andThen_eq_ok {σ : Type} {o : Outcome σ} {next : σ → Scene → Outcome σ} {s : σ}
    {sc : Scene} (h : o.andThen next = .ok s sc) :
    ∃ s₁ sc₁, o = .ok s₁ sc₁ ∧ next s₁ sc₁ = .ok s sc := by
  obtain ⟨s₁, sc₁, error⟩ := o
  cases error with
  | some e => cases h
  | none => exact ⟨s₁, sc₁, rfl, h⟩

theorem edit_eq_ok {σ : Type} {f : Document → Except DocumentError Document} {s s' : σ}
    {sc sc' : Scene} (h : edit f s sc = .ok s' sc') :
    s' = s ∧ f sc.document = .ok sc'.document := by
  unfold edit at h
  split at h
  · rename_i e he
    cases h
    exact ⟨rfl, he⟩
  · cases h

theorem edits_fail (e : RenderError) : Edits i sc (.fail i sc e) := ⟨rfl, rfl⟩

theorem edits_edit (f : Document → Except DocumentError Document) : Edits i sc (.edit f i sc) := by
  unfold edit
  split <;> exact ⟨rfl, rfl⟩

theorem Edits.andThen {o : Outcome Instance} {next : Instance → Scene → Outcome Instance}
    (h : Edits i sc o) (hnext : ∀ sc', Edits i sc' (next i sc')) : Edits i sc (o.andThen next) := by
  unfold Outcome.andThen
  split
  · rw [h.1]
    exact ⟨(hnext _).1, (hnext _).2.trans h.2⟩
  · exact h

theorem edits_each {f : α → Instance → Scene → Outcome Instance}
    (hf : ∀ a sc, Edits i sc (f a i sc)) (as : List α) : Edits i sc (.each f as i sc) := by
  induction as generalizing sc with
  | nil => exact ⟨rfl, rfl⟩
  | cons a as ih => exact (hf a sc).andThen fun _ => ih

theorem Edits.keeps {o : Outcome Instance} (h : Edits i sc o) : Keeps i sc o where
  continues := h.1 ▸ .refl _
  quiet hg := ⟨h.1 ▸ hg, h.2⟩

theorem Keeps.andThen {o : Outcome Instance} {next : Instance → Scene → Outcome Instance}
    (h : Keeps i sc o) (hnext : ∀ j sc', Keeps j sc' (next j sc')) :
    Keeps i sc (o.andThen next) := by
  unfold Outcome.andThen
  split
  · have hn := hnext o.state o.scene
    refine ⟨h.continues.trans hn.continues, fun hg => ?_⟩
    obtain ⟨hg, hcounts⟩ := h.quiet hg
    exact ⟨(hn.quiet hg).1, (hn.quiet hg).2.trans hcounts⟩
  · exact h

theorem keeps_each {f : α → Instance → Scene → Outcome Instance}
    (hf : ∀ a i sc, Keeps i sc (f a i sc)) (as : List α) : Keeps i sc (.each f as i sc) := by
  induction as generalizing i sc with
  | nil => exact Edits.keeps ⟨rfl, rfl⟩
  | cons a as ih => exact (hf a i sc).andThen fun j sc' => ih

end Outcome

namespace Instance

open Outcome

variable {c : Catalog} {upd : Updater} {i : Instance} {sc : Scene}

theorem edits_onNode {s : Slot} {f : NodeId → Outcome Instance} (h : ∀ n, Edits i sc (f n)) :
    Edits i sc (i.onNode s sc f) := by
  unfold onNode
  split
  · exact h _
  · exact edits_fail _

theorem edits_runWire (root : NodeId) (w : Wire) : Edits i sc (runWire root w i sc) := by
  unfold runWire
  split
  · exact edits_onNode fun _ => edits_edit _
  · exact edits_onNode fun _ => edits_onNode fun _ => edits_edit _
  · exact edits_onNode fun _ => edits_edit _

theorem keeps_compute (x : Computation) : Keeps i sc (compute c upd x i sc) := by
  induction x generalizing i sc with
  | setText | setProperty | setAttribute =>
    refine (edits_onNode fun n => ?_).keeps
    split
    · exact edits_edit _
    · exact edits_fail _
  | unlessFalse s name v setter ih =>
    rw [compute]
    split
    · exact (edits_fail _).keeps
    · split
      · refine (edits_onNode fun n => (edits_edit _).andThen fun sc' => ?_).keeps
        split
        · exact edits_edit _
        · exact ⟨rfl, rfl⟩
      · exact ih
  | reconcile dir name s v g =>
    rw [compute, onNode]
    split
    · split
      · -- without groups there is nothing to render
        rename_i hg
        exact ⟨⟨rfl, rfl, rfl, rfl⟩, fun hnil => by rw [hnil] at hg; cases hg⟩
      · exact (edits_fail _).keeps
      · exact (edits_fail _).keeps
    · exact (edits_fail _).keeps

theorem keeps_bind (data : Json) (b : Binding.Var × List String) :
    Keeps i sc (bind data b i sc) := by
  unfold bind
  split
  · exact ⟨⟨rfl, rfl, rfl, rfl⟩, fun hg => ⟨hg, rfl⟩⟩
  · exact (edits_fail _).keeps

theorem keeps_runComputation (k : Nat) : Keeps i sc (runComputation c upd k i sc) := by
  unfold runComputation
  split
  · exact keeps_compute _
  · exact (edits_fail _).keeps

theorem keeps_takeField (f : String × Json) : Keeps i sc (takeField c upd f i sc) := by
  unfold takeField
  split
  · exact (keeps_each (fun b _ _ => keeps_bind _ b) _).andThen fun j sc' =>
      keeps_each (fun k _ _ => keeps_runComputation k) _
  · exact Edits.keeps ⟨rfl, rfl⟩

/-- A mounted instance stays the one it is, whatever data it takes. -/
theorem keeps_updateTo (h : i.root.isSome) (n : Nat) (data : Json) :
    Keeps i sc (updateTo c n i data sc) := by
  cases n with
  | zero => exact (edits_fail _).keeps
  | succ n =>
    rw [updateTo, updateWith, mount_of_isSome h]
    refine Keeps.andThen (Edits.keeps ⟨rfl, rfl⟩) fun j sc' => ?_
    split
    · exact keeps_each (fun f _ _ => keeps_takeField f) _
    · exact Edits.keeps ⟨rfl, rfl⟩

end Instance

/-! ## New instances -/

/-- An instance that could be mounted has all its groups empty still. -/
theorem Instance.mount_eq_ok {t : Template} {sc sc' : Scene} {i : Instance}
    (h : (new t).mount sc = .ok i sc') : i.template = t ∧ i.phase = .mounted ∧ i.root.isSome ∧
      i.groups = List.replicate t.groupCount [] ∧ sc'.counts = sc.counts := by
  simp only [mount, new, createNodes_eq] at h
  generalize ho : Outcome.each _ _ _ _ = o at h
  have hwired : Outcome.Edits _ _ o :=
    ho ▸ Outcome.edits_each (fun w _ => edits_runWire _ w) t.wires
  obtain ⟨state, scene, error⟩ := o
  obtain ⟨rfl, hcounts⟩ := hwired
  cases error with
  | some e => cases h
  | none =>
    cases h
    exact ⟨rfl, rfl, rfl, rfl, hcounts⟩

theorem Catalog.instantiate_cases {c : Catalog} {name : String} {sc sc' : Scene} {i : Instance}
    (h : c.instantiate name sc = (.ok i, sc')) :
    ∃ t sc₁, c.get? name = some t ∧ (Instance.new t).mount sc = .ok i sc₁ ∧
      sc' = { sc₁ with created := sc₁.created + 1 } := by
  unfold instantiate at h
  split at h
  · cases h
  · rename_i t ht
    generalize ho : (Instance.new t).mount sc = o at h
    obtain ⟨state, scene, error⟩ := o
    cases error with
    | some e => cases h
    | none =>
      cases h
      exact ⟨t, scene, ht, ho, rfl⟩

/-- A new instance is mounted, and counted. -/
theorem Catalog.instantiate_eq_ok {c : Catalog} {name : String} {sc sc' : Scene} {i : Instance}
    (h : c.instantiate name sc = (.ok i, sc')) :
    ∃ t, c.get? name = some t ∧ i.template = t ∧ i.phase = .mounted ∧ i.root.isSome ∧
      i.groups = List.replicate t.groupCount [] ∧
      sc'.counts = (sc.created + 1, sc.released) := by
  obtain ⟨t, sc₁, ht, hmount, rfl⟩ := instantiate_cases h
  obtain ⟨htemplate, hphase, hroot, hgroups, hcounts⟩ := Instance.mount_eq_ok hmount
  have hcreated : sc₁.created = sc.created := congrArg Prod.fst hcounts
  have hreleased : sc₁.released = sc.released := congrArg Prod.snd hcounts
  refine ⟨t, ht, htemplate, hphase, hroot, hgroups, ?_⟩
  simp only [Scene.counts, hcreated, hreleased]

/-! ## Lists of instances -/

/-- The updater leaves mounted instances the ones they are. -/
def Updater.Keeps (upd : Updater) : Prop :=
  ∀ (i : Instance) (data : Json) (sc : Scene), i.root.isSome → Outcome.Keeps i sc (upd i data sc)

theorem Instance.update_keeps (c : Catalog) : Updater.Keeps (update c) :=
  fun _ data _ h => keeps_updateTo h _ data

namespace Children

variable {c : Catalog} {upd : Updater} {name : String} {is js : List Instance} {sc sc' : Scene}

/-- The instance was made for the item `v`, and updated with it. -/
def Introduced (c : Catalog) (upd : Updater) (name : String) (v : Json) (j : Instance) : Prop :=
  ∃ i sc₁ sc₂ sc₃ sc₄, c.instantiate name sc₁ = (.ok i, sc₂) ∧ upd i v sc₃ = .ok j sc₄

theorem updateEach_cons_eq_ok {i : Instance} {v : Json} {vs : List Json}
    (h : updateEach upd (i :: is) (v :: vs) sc = .ok js sc') :
    ∃ j sc₁ ks, upd i v sc = .ok j sc₁ ∧ updateEach upd is vs sc₁ = .ok ks sc' ∧ js = j :: ks := by
  rw [updateEach] at h
  generalize hu : upd i v sc = o at h
  obtain ⟨j, sc₁, error⟩ := o
  cases error with
  | some e => cases h
  | none =>
    generalize hr : updateEach upd is vs sc₁ = r at h
    obtain ⟨ks, sc₂, error⟩ := r
    cases h
    exact ⟨j, sc₁, ks, rfl, hr, rfl⟩

/-- Instances are updated one by one, each with the item at its place. -/
theorem updateEach_eq_ok {vs : List Json} (h : updateEach upd is vs sc = .ok js sc')
    (hlen : is.length ≤ vs.length) : js.length = is.length ∧
      ∀ (k : Nat) i v, is[k]? = some i → vs[k]? = some v →
        ∃ j sc₁ sc₂, js[k]? = some j ∧ upd i v sc₁ = .ok j sc₂ := by
  induction is generalizing vs js sc with
  | nil =>
    cases h
    exact ⟨rfl, nofun⟩
  | cons i is ih =>
    cases vs with
    | nil => simp at hlen
    | cons v vs =>
      obtain ⟨j, sc₁, ks, hj, hks, rfl⟩ := updateEach_cons_eq_ok h
      obtain ⟨hlength, hplaces⟩ := ih hks (by simpa using hlen)
      refine ⟨by simp [hlength], fun k i' v' hi hv => ?_⟩
      cases k with
      | zero =>
        cases hi
        cases hv
        exact ⟨j, sc, sc₁, rfl, hj⟩
      | succ k => exact hplaces k i' v' hi hv

theorem introduce_eq_ok {put : NodeId → Document → Except DocumentError Document} {v : Json}
    {j : Instance} (h : introduce c upd name put v sc = (.ok j, sc')) :
    ∃ i r sc₁ sc₂, c.instantiate name sc = (.ok i, sc₁) ∧
      put r sc₁.document = .ok sc₂.document ∧ sc₂.counts = sc₁.counts ∧
      upd i v sc₂ = .ok j sc' := by
  unfold introduce at h
  split at h
  · cases h
  · rename_i i sc₁ hi
    obtain ⟨_, _, _, _, hroot, _⟩ := Catalog.instantiate_eq_ok hi
    obtain ⟨r, hr⟩ := Option.isSome_iff_exists.mp hroot
    simp only [hr] at h
    generalize ho : Outcome.andThen _ _ = o at h
    obtain ⟨state, scene, error⟩ := o
    cases error with
    | some e => cases h
    | none =>
      cases h
      obtain ⟨i', sc₂, hplaced, hu⟩ := Outcome.andThen_eq_ok ho
      have hedits : Outcome.Edits i sc₁ (.ok i' sc₂) := hplaced ▸ Outcome.edits_edit _
      obtain ⟨rfl, hput⟩ := Outcome.edit_eq_ok hplaced
      exact ⟨i', r, sc₁, sc₂, hi, hput, hedits.2, hu⟩

theorem grow_cons_eq_ok {batch : NodeId} {v : Json} {vs : List Json}
    (h : grow c upd name batch (v :: vs) is sc = .ok js sc') :
    ∃ j sc₁, introduce c upd name (fun r d => d.append batch r) v sc = (.ok j, sc₁) ∧
      grow c upd name batch vs (is ++ [j]) sc₁ = .ok js sc' := by
  rw [grow] at h
  split at h
  · cases h
  · rename_i j sc₁ hj
    exact ⟨j, sc₁, hj, h⟩

/-- The three phases of a rendering: surplus instances go, the others are updated, and new
ones are made where items are left. -/
theorem renderEach_eq_ok {anchor : NodeId} {items : List Json}
    (h : renderEach c upd name anchor items is sc = .ok js sc') :
    ∃ ks sc₁, updateEach upd (is.take items.length) items
        (shrink name items.length is (sc.tell (.reconciling name is.length items.length))).2 =
          .ok ks sc₁ ∧
      (items.length ≤ is.length ∧ js = ks ∧ sc' = sc₁ ∨ is.length < items.length ∧ ∃ p sc₂,
        grow c upd name sc₁.document.size (items.drop is.length) ks (sc₁.create .fragment) =
          .ok js sc₂ ∧
        sc₂.document.insertBefore p sc₁.document.size (some anchor) = .ok sc'.document ∧
        sc'.counts = sc₂.counts) := by
  unfold renderEach at h
  obtain ⟨ks, sc₁, hks, h⟩ := Outcome.andThen_eq_ok h
  refine ⟨ks, sc₁, hks, ?_⟩
  split at h
  · rename_i hle
    cases h
    exact .inl ⟨hle, rfl, rfl⟩
  · rename_i hlt
    refine .inr ⟨Nat.lt_of_not_le hlt, ?_⟩
    split at h
    · cases h
    · rename_i p _
      obtain ⟨js', sc₂, hgrow, hput⟩ := Outcome.andThen_eq_ok h
      unfold Outcome.edit at hput
      split at hput
      · rename_i e he
        cases hput
        exact ⟨p, sc₂, hgrow, he, rfl⟩
      · cases hput

end Children
end Stencil

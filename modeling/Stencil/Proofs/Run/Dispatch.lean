import Stencil.Proofs.Binding.Calls
import Stencil.Proofs.Instance.First
import Stencil.Proofs.Instance.Sparing
import Stencil.Proofs.Run.Troupe

/-! Dispatch. The routes of a template say which of its parts depend on which keys of the
data, and an update does no more than they say. Variables, facets of nodes and groups that
depend on none of the keys are afterwards what they were, whatever the host has written
into the document before. -/
namespace Stencil
open Binding Document Markup

/-- The path is the one that the key spells out, or goes on from there. -/
def Binding.Path.Under (p : Path) (key : String) : Prop :=
  ∃ q : Path, dotted q.segments = key ∧ q.segments <+: p.segments

namespace Template

/-- One of the keys has a route, and the path is at or below it. -/
def Touches (t : Template) (data : Json) (p : Path) : Prop :=
  ∃ key ∈ data.keys, (t.route? key).isSome ∧ p.Under key

/-- The data touches none of the paths that the computation reads. -/
def Idle (t : Template) (data : Json) (x : Computation) : Prop :=
  ∀ v ∈ x.vars, ∀ p, t.Binds p v → ¬ t.Touches data p

end Template

/-! ## Routes and paths -/

namespace Draft.Sound

variable {d : Draft} {name key : String} {r : Route} {b : Var × List String}

theorem index_binds (h : d.Sound) {p : Path} {v : Var} (hv : (d.finish name).Binds p v) :
    d.index.Binds p v := by
  obtain ⟨r, hr, hkey, hb⟩ := hv
  obtain ⟨q, hat⟩ := h.coherent.exists_path hr
  have hq : d.index.trie.var? q.segments = some v := by simpa using (hat.mem_bindings v []).mp hb
  have hpq : q.segments = p.segments := dotted_inj q.segments_ne_nil p.segments_ne_nil
    q.isIdentifier_of_mem p.isIdentifier_of_mem (hat.key_eq.symm.trans hkey)
  rwa [Index.Binds, ← hpq]

/-- Whatever a route binds has its path at or below the key. -/
theorem under_key (h : d.Sound) (hr : (d.finish name).route? key = some r) (hb : b ∈ r.bindings)
    {p : Path} (hp : (d.finish name).Binds p b.1) : p.Under key := by
  obtain ⟨q, hkey, hat⟩ := h.exists_routesAt hr
  have hvar := (hat.mem_bindings b.1 b.2).mp hb
  have hsegments : p.segments = q.segments ++ b.2 :=
    h.coherent.var_inj _ _ b.1 (h.index_binds hp) hvar
  exact ⟨q, hkey, b.2, hsegments.symm⟩

theorem exists_path (h : d.Sound) (hr : (d.finish name).route? key = some r) (hb : b ∈ r.bindings) :
    ∃ p, (d.finish name).Binds p b.1 := by
  obtain ⟨_, _, hat⟩ := h.exists_routesAt hr
  have hvar := (hat.mem_bindings b.1 b.2).mp hb
  obtain ⟨p, hp⟩ := h.coherent.var_path _ _ hvar
  rw [← hp] at hvar
  exact ⟨p, h.binds hvar name⟩

end Draft.Sound

namespace Catalog.Built

variable {c : Catalog} {o : Origin} {t : Template} {data : Json} {key : String}

theorem touches (hc : c.Built o) (ht : t ∈ c.templates) (hkey : key ∈ data.keys) {r : Route}
    (hr : t.route? key = some r) {b : Var × List String} (hb : b ∈ r.bindings) {p : Path}
    (hp : t.Binds p b.1) : t.Touches data p := by
  obtain ⟨d, _, hd, hready⟩ := hc.exists_draft ht
  refine ⟨key, hkey, by rw [hr]; rfl, ?_⟩
  rw [hd] at hr hp
  exact hready.sound.under_key hr hb hp

/-- What stands on the route of a key is not idle. -/
theorem not_idle (hc : c.Built o) (ht : t ∈ c.templates) (hkey : key ∈ data.keys) {x : Computation}
    (hx : t.RunsFor key x) : ¬ t.Idle data x := by
  obtain ⟨r, hr, k, hk, hxk⟩ := hx
  have hrm := List.mem_of_find?_eq_some hr
  obtain ⟨b, hb, hv⟩ := ((hc.routed ht).mem_computations r hrm k x hxk).mp hk
  obtain ⟨p, hp⟩ : ∃ p, t.Binds p b.1 := by
    obtain ⟨d, _, hd, hready⟩ := hc.exists_draft ht
    rw [hd] at hr ⊢
    exact hready.sound.exists_path hr hb
  exact fun hidle => hidle b.1 hv p hp (hc.touches ht hkey hr hb hp)

end Catalog.Built

/-! ## What an update leaves -/

namespace Instance

/-- What is left as it was when `i` takes the data and becomes `j`. -/
structure Leaves (data : Json) (sc sc' : Scene) (i j : Instance) : Prop where
  /-- Variables whose path is not touched. -/
  values : ∀ p v, i.template.Binds p v → ¬ i.template.Touches data p → j.values[v]? = i.values[v]?
  /-- Contents of texts, attributes and properties of all nodes of the document, unless a
  computation writes to them that is not idle, or that stands in an instance rendered by one
  that is not idle. -/
  facets : ∀ (n : Nat) w, n < sc.document.size →
    ¬ i.Writes (fun x => ¬ i.template.Idle data x) n w → w.Same sc.document sc'.document n
  /-- Groups of idle computations: their instances, and all nodes of these. -/
  groups : ∀ dir name s v g, .reconcile dir name s v g ∈ i.template.computations →
    i.template.Idle data (.reconcile dir name s v g) → j.groups[g]? = i.groups[g]? ∧
      ∀ is, i.groups[g]? = some is → ∀ x ∈ ownedAll is, sc'.document.get? x = sc.document.get? x
  /-- Everything, if the instance is mounted and no key has a route. -/
  all : i.root.isSome → (∀ key ∈ data.keys, i.template.route? key = none) →
    j = i ∧ sc'.document = sc.document ∧ sc'.counts = sc.counts

variable {c : Catalog} {o : Origin} {sc sc' : Scene} {i j : Instance}

theorem facets_same (hc : c.Built o) (ht : i.template ∈ c.templates) {data : Json}
    (h : i.update c data sc = .ok j sc') (n : Nat) (w : Facet) (hn : n < sc.document.size)
    (hw : ¬ i.Writes (fun x => ¬ i.template.Idle data x) n w) :
    w.Same sc.document sc'.document n := by
  have hobeys : Obeys (fun x => ¬ i.template.Idle data x) i sc (i.update c data sc) :=
    obeys_updateWith (confined_updateTo c c.size) fun key hkey x hx => hc.not_idle ht hkey hx
  exact (hobeys j sc' h).2.writes.same n w hn hw

/-- An instance in place. -/
theorem Placed.update_leaves (hc : c.Built o) {p : Nat} {pre post : List NodeId}
    (h : i.Placed c sc.document p pre post) (data : Json) :
    ∃ j sc', i.update c data sc = .ok j sc' ∧ Leaves data sc sc' i j := by
  have ht := h.live.stands.template_mem
  obtain ⟨j, sc', hj, _, hview⟩ := h.renews_update hc.sound data
  refine ⟨j, sc', hj, ?_, facets_same hc ht hj, ?_, ?_⟩
  · intro q v hv hq
    have hvalues : (View.updateTo c (c.size + 1) (i.view sc.document) data).values[v]? =
        (i.view sc.document).values[v]? := by
      cases data with
      | obj fields =>
        refine View.values_takeFields_of_not_bound fun f hf r hr b hb hbv => ?_
        rw [view_eq] at hr
        exact hq (hc.touches ht (List.mem_map_of_mem hf) hr hb (hbv ▸ hv))
      | _ => rfl
    rw [← hview] at hvalues
    simpa only [view_eq] using hvalues
  · intro dir name s v g hx hidle
    -- a group has one computation, so with that idle none on a route renders the group
    have hother : ∀ key ∈ data.keys, ∀ y, i.template.RunsFor key y → .group g ∉ y.cells := by
      intro key hkey y hy hg
      have hsound := hc.sound.template _ ht
      have hmem : y ∈ i.template.computations := by
        obtain ⟨_, _, _, _, hk⟩ := hy
        exact List.mem_of_getElem? hk
      obtain ⟨dir', name', s', v', rfl⟩ := View.group_of_mem_cells (hsound.fits y hmem) hg
      rw [hsound.eq_of_group hx hmem] at hy
      exact hc.not_idle ht hkey hy hidle
    obtain ⟨j', sc'', hj', _, hpass⟩ := h.passes_update hc.sound hother
    cases hj.symm.trans hj'
    exact ⟨hpass.groups_eq, fun is his => hpass.get?_eq h his⟩
  · intro hroot hno
    obtain ⟨log, hlog⟩ : ∃ log, i.update c data sc = .ok i { sc with log := log } :=
      update_of_no_route hroot hno
    cases hj.symm.trans hlog
    exact ⟨rfl, rfl, rfl⟩

theorem update_of_mount {data : Json} (h : i.mount sc = .ok j sc') (hroot : j.root.isSome) :
    i.update c data sc = j.update c data sc' := by
  simp only [update, updateTo, updateWith, h, mount_of_isSome hroot]

/-- An instance that its first update mounts. -/
theorem update_new_leaves (hc : c.Built o) {t : Template} (ht : t ∈ c.templates)
    (hl : sc.document.Linked) (data : Json) :
    ∃ j sc', (new t).update c data sc = .ok j sc' ∧ Leaves data sc sc' (new t) j := by
  obtain ⟨i, d, hmount, hm⟩ := mount_new ht (hc.sound.template t ht) hl
  obtain ⟨htemplate, _, hroot, hgroups, _⟩ := mount_eq_ok hmount
  have hvalues : i.values = (new t).values := by
    have := hm.view_eq
    rw [view_eq] at this
    exact congrArg View.values this
  have hplaced : i.Placed c ({ sc with document := d } : Scene).document sc.document.size [] [] :=
    hm.raised.placed
  obtain ⟨j, sc', hj, hleaves⟩ := hplaced.update_leaves hc data
  rw [← update_of_mount hmount hroot] at hj
  -- mounting gives the instance nodes, but neither other values nor other groups
  refine ⟨j, sc', hj, ?_, facets_same hc ht hj, ?_, nofun⟩
  · intro p v hp hv
    rw [← hvalues]
    exact hleaves.values p v (htemplate ▸ hp) (htemplate ▸ hv)
  · intro dir name s v g hx hidle
    have hgroup := (hleaves.groups dir name s v g (htemplate ▸ hx) (htemplate ▸ hidle)).1
    refine ⟨hgroup.trans (by rw [hgroups]; rfl), fun is his x hmem => ?_⟩
    rw [List.eq_of_mem_replicate (List.mem_of_getElem? his)] at hmem
    cases hmem

/-- A new instance in any document, or one of those in a scene where the host goes on working. -/
inductive Reached (c : Catalog) : Scene → Instance → Prop
  | new {sc : Scene} {t : Template} (mem : t ∈ c.templates) (linked : sc.document.Linked) :
      Reached c sc (.new t)
  | member {sc : Scene} {i : Instance} {is : List Instance} (troupe : Troupe c sc is)
      (mem : i ∈ is) : Reached c sc i

/-- An update of an instance that was reached is one of an instance in place. -/
theorem Reached.exists_placed (hc : c.Sound) (h : Reached c sc i) :
    ∃ (j : Instance) (sc' : Scene) (p : Nat) (pre post : List NodeId),
      j.Placed c sc'.document p pre post ∧ j.template = i.template ∧
        ∀ data, i.update c data sc = j.update c data sc' := by
  cases h with
  | new mem linked =>
    obtain ⟨j, d, hmount, hm⟩ := mount_new mem (hc.template _ mem) linked
    obtain ⟨htemplate, _, hroot, _⟩ := mount_eq_ok hmount
    exact ⟨j, { sc with document := d }, _, _, _, hm.raised.placed, htemplate, fun data =>
      update_of_mount hmount hroot⟩
  | member troupe mem =>
    obtain ⟨_, hseated, _⟩ := (troupe.company hc).seated i mem
    obtain ⟨_, _, _, _, _, hplaced⟩ := hseated.exists_placed
    exact ⟨i, sc, _, _, _, hplaced, rfl, fun _ => rfl⟩

/-- Over any catalog of compiled templates: in every scene that can be reached an update does
not fail, and leaves what the keys of its data do not concern. -/
theorem Reached.leaves_untouched (calls : List (Node × String)) {sc : Scene} {i : Instance}
    (h : Reached (Workshop.compileAll calls {}).catalog sc i) (data : Json) :
    ∃ j sc', i.update (Workshop.compileAll calls {}).catalog data sc = .ok j sc' ∧
      Leaves data sc sc' i j := by
  have hc := Workshop.built_compileAll calls
  cases h with
  | new mem linked => exact update_new_leaves hc mem linked data
  | member troupe mem =>
    obtain ⟨_, hseated, _⟩ := (troupe.company hc.sound).seated i mem
    obtain ⟨_, _, _, _, _, hplaced⟩ := hseated.exists_placed
    exact hplaced.update_leaves hc data

/-- The host has written an attribute over; an update of the text beside it leaves that. -/
theorem Reached.leaves_untouched_attribute :
    let source := "<p title=\"\x7b\x7bnote\x7d\x7d\">\x7b\x7bname\x7d\x7d</p>"
    ∃ tree, read source = .ok tree ∧
      let c := (Workshop.compileAll [(tree, "card")] {}).catalog
      let first : Json := .obj [("note", .str "a"), ("name", .str "b")]
      let second : Json := .obj [("name", .str "c")]
      ∃ i sc j sc', c.get "card" (some first) {} = (.ok i, sc) ∧
        let edited := { sc with
          document := sc.document.perform (.setAttribute 1 none "title" "by hand") }
        Reached c edited i ∧ i.update c second edited = .ok j sc' ∧ Leaves second edited sc' i j ∧
        sc'.document.attribute? 1 none "title" = some "by hand" ∧
        sc'.document.text? 2 = some "c" := by
  intro source
  have hread : read source = .ok (treeOf source) := read_eq_treeOf (by decide +kernel)
  refine ⟨treeOf source, hread, ?_⟩
  intro c first second
  have hc : c.Sound := (Workshop.built_compileAll _).sound
  obtain ⟨_, i, sc, _, hget, _, hgot⟩ :=
    (Troupe.start {} Linked.empty).exists_got hc "card" (by decide +kernel) (some first)
  let op : Operation := .setAttribute 1 none "title" "by hand"
  have heval : let got := c.get "card" (some first) {}
      got.1.toOption.map (fun i =>
        let o := i.update c second { got.2 with document := got.2.document.perform op }
        (o.scene.document.attribute? 1 none "title", o.scene.document.text? 2)) =
          some (some "by hand", some "c") := by decide +kernel
  simp only [hget, Except.toOption, Option.map_some, Option.some.injEq, Prod.mk.injEq] at heval
  have htroupe : Troupe c { sc with document := sc.document.perform op } [i] :=
    hgot.performed op (fun _ _ => trivial) rfl
  have hreached : Reached c { sc with document := sc.document.perform op } i :=
    .member htroupe (List.mem_singleton_self i)
  obtain ⟨j, sc', hj, hleaves⟩ := hreached.leaves_untouched [(treeOf source, "card")] second
  rw [show i.update c second _ = .ok j sc' from hj] at heval
  exact ⟨i, sc, j, sc', hget, hreached, hj, hleaves, heval⟩

end Instance
end Stencil

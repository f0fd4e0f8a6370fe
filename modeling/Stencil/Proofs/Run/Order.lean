import Stencil.Proofs.Run.Stage
import Stencil.Proofs.Template.Building

/-! Document order. In every stage of a run the children of an element are what its slots
account for, in the order in which they are attached: a node by itself, or the instances
rendered for an anchor and then the anchor. The block of an instance fills its fragment
until it is put into a host, and is a stretch of the host's children afterwards. -/
namespace Stencil
open Binding Document Instance Markup

namespace Instance

/-- All that stands in the elements of an instance stands in order. -/
structure Ordered (d : Document) (i : Instance) : Prop where
  /-- An element or a text accounts for its node. -/
  plain : ∀ (s : Slot) n, i.nodes[s]? = some n → i.template.HasElement s ∨ i.template.HasText s →
    i.slotBlock s = [n]
  /-- An anchor accounts for the blocks of its group, in order, and then for its node. -/
  anchor : ∀ (s : Slot) n, i.nodes[s]? = some n → i.template.HasAnchor s →
    ∃ dir name v g is, .reconcile dir name s v g ∈ i.template.computations ∧
      i.groups[g]? = some is ∧ i.slotBlock s = is.flatMap block ++ [n]
  /-- The block is what the one root slot accounts for. -/
  block : ∃ s, i.template.rootSlots = [s] ∧ i.block = i.slotBlock s
  children : ∀ (s : Slot) n, i.template.HasElement s → i.nodes[s]? = some n →
    d.children n = (i.template.slotsAt (.slot s)).flatMap i.slotBlock

variable {c : Catalog} {o : Origin} {d : Document} {i : Instance}

theorem Stands.ordered (hc : c.Built o) (ho : o.single) (h : i.Stands c d) : i.Ordered d where
  plain _ _ hn hs := slotBlock_plain (hc.sound.template _ h.template_mem) hs hn
  anchor s n hn hs := by
    have ht := hc.sound.template _ h.template_mem
    obtain ⟨dir, name, v, g, hx⟩ := hc.exists_reconcile h.template_mem hs
    have hg : g < i.groups.length := h.groups_length ▸ (ht.fits _ hx).2.2
    refine ⟨dir, name, v, g, _, hx, List.getElem?_eq_getElem hg, ?_⟩
    rw [slotBlock_anchor ht (Template.mem_anchored.mpr ⟨_, _, _, hx⟩)
      (List.getElem?_eq_getElem hg) hn, blockAll_eq]
  block := by
    obtain ⟨s, hs⟩ := hc.exists_rootSlot ho h.template_mem
    refine ⟨s, hs, ?_⟩
    rw [block_eq, layout, ← Template.rootSlots_eq, hs]
    simp
  children := h.children_eq

end Instance

namespace Stage

/-- Over any catalog compiled from sources: instances, nested ones included, stand in order
in every stage of a run. -/
theorem stands_in_order (calls : List (Node × String))
    (hcalls : ∀ call ∈ calls, ∃ source, read source = .ok call.1) {st : Stage}
    (h : Reached (Workshop.compileAll calls {}).catalog st) {a : Actor} (ha : a ∈ st.actors) :
    (∀ i, a.inst.Holds i → i.Ordered st.scene.document) ∧
      (a.host = none → ∃ r, a.inst.root = some r ∧
        st.scene.document.children r = a.inst.block) ∧
      ∀ p, a.host = some p → ∃ pre post,
        st.scene.document.children p = pre ++ a.inst.block ++ post := by
  have hc := Workshop.built_compileAll calls
  have ho := Workshop.single_origin hcalls
  have hs := (h.good hc.sound).settled a ha
  refine ⟨fun i hi => (hs.live.holds hi).stands.ordered hc ho, fun hh => ?_, fun p hh => ?_⟩
  · obtain ⟨r, hr, hp⟩ := hs.alone hh
    exact ⟨r, hr, by simpa using hp.children_eq⟩
  · obtain ⟨⟨pre, post, hp⟩, _⟩ := hs.hosted p hh
    exact ⟨pre, post, hp.children_eq⟩

/-- A list with two items in a container of the host. -/
theorem stands_in_order_list :
    ∃ tree, read "<ul><li for=\"items\">\x7b\x7bname\x7d\x7d</li></ul>" = .ok tree ∧
      ∃ st a, Reached (Workshop.compileAll [(tree, "list")] {}).catalog st ∧ a ∈ st.actors ∧
        a.host = some 0 ∧ (∀ i, a.inst.Holds i → i.Ordered st.scene.document) ∧
        ∃ pre post, st.scene.document.children 0 = pre ++ a.inst.block ++ post := by
  let source := "<ul><li for=\"items\">\x7b\x7bname\x7d\x7d</li></ul>"
  have hread : read source = .ok (treeOf source) := read_eq_treeOf (by decide +kernel)
  let c := (Workshop.compileAll [(treeOf source, "list")] {}).catalog
  let item (s : String) : Json := .obj [("name", .str s)]
  have h₁ := Reached.step (.start {} .empty) (.create (.element { tag := "body" })) trivial (c := c)
  have h₂ := h₁.step (.get "list" (some (.obj [("items", .arr [item "a", item "b"])])))
    (by decide +kernel)
  have h₃ := h₂.step (.host 0 0) (by decide +kernel)
  have hhost : (perform c (perform c (perform c ⟨{}, []⟩ (.create (.element { tag := "body" }))).2
      (.get "list" (some (.obj [("items", .arr [item "a", item "b"])])))).2
      (.host 0 0)).2.actors[0]?.map (·.host) = some (some 0) := by decide +kernel
  obtain ⟨a, ha, hh⟩ := Option.map_eq_some_iff.mp hhost
  have hm := List.mem_of_getElem? ha
  obtain ⟨hordered, _, hblock⟩ := stands_in_order [(treeOf source, "list")]
    (fun call hcall => ⟨source, by rw [List.mem_singleton.mp hcall]; exact hread⟩) h₃ hm
  exact ⟨_, hread, _, a, h₃, hm, hh, hordered, hblock 0 hh⟩

end Stage
end Stencil

import Stencil.Proofs.Run.Stage
import Stencil.Proofs.Template.Building

/-! Safety. Over any catalog that compile calls leave behind, no act of a run fails, and
all that the templates speak of is there in their instances: slots, variables, groups and
computations. -/
namespace Stencil
open Binding Document Instance Markup

namespace Instance

/-- The nodes, variables and groups of a computation are there. -/
def Has (i : Instance) : Computation → Prop
  | .setText s value => s < i.nodes.length ∧ ∀ v ∈ value.vars, v < i.values.length
  | .setProperty s _ value => s < i.nodes.length ∧ ∀ v ∈ value.vars, v < i.values.length
  | .setAttribute s _ _ value => s < i.nodes.length ∧ ∀ v ∈ value.vars, v < i.values.length
  | .unlessFalse s _ v setter => s < i.nodes.length ∧ v < i.values.length ∧ i.Has setter
  | .reconcile _ _ s v g => s < i.nodes.length ∧ v < i.values.length ∧ g < i.groups.length

/-- The nodes of a wire are there. -/
def HasWire (i : Instance) : Wire → Prop
  | .append .root s => s < i.nodes.length
  | .append (.slot p) s => p < i.nodes.length ∧ s < i.nodes.length
  | .attr s .. => s < i.nodes.length

/-- All indices in the template of an instance are in range. -/
structure InRange (i : Instance) : Prop where
  wires : ∀ w ∈ i.template.wires, i.HasWire w
  computations : ∀ x ∈ i.template.computations, i.Has x
  bindings : ∀ r ∈ i.template.routes, ∀ b ∈ r.bindings, b.1 < i.values.length
  routes : ∀ r ∈ i.template.routes, ∀ k ∈ r.computations, k < i.template.computations.length

variable {c : Catalog} {d : Document} {i : Instance}

theorem Stands.has (h : i.Stands c d) {x : Computation} (hx : i.template.Fits x) : i.Has x := by
  have hn := h.nodes_length
  have hv := h.values_length
  have hg := h.groups_length
  induction x with
  | setText => exact ⟨hn ▸ Template.lt_of_hasText hx.1, hv ▸ hx.2⟩
  | setProperty => exact ⟨hn ▸ Template.lt_of_hasElement hx.1, hv ▸ hx.2⟩
  | setAttribute => exact ⟨hn ▸ Template.lt_of_hasElement hx.1, hv ▸ hx.2⟩
  | unlessFalse _ _ _ _ ih =>
    exact ⟨hn ▸ Template.lt_of_hasElement hx.1, hv ▸ hx.2.1, ih hx.2.2.2⟩
  | reconcile => exact ⟨hn ▸ Template.lt_of_hasAnchor hx.1, hv ▸ hx.2.1, hg ▸ hx.2.2⟩

theorem Stands.inRange (h : i.Stands c d) (ht : i.template.Sound) : i.InRange where
  wires w hw := by
    have hn := h.nodes_length
    have hslot : ∀ {p s}, .append p s ∈ i.template.wires → s < i.nodes.length := fun hm =>
      hn ▸ ht.slot_lt (Template.mem_slotsAt.mpr hm)
    cases w with
    | append p s =>
      cases p with
      | root => exact hslot hw
      | slot p => exact ⟨hn ▸ Template.lt_of_hasElement (ht.parent_lt p s hw).2, hslot hw⟩
    | attr s space name value =>
      have hlt := Template.lt_of_hasElement (ht.attr_element s space name value hw)
      rw [← hn] at hlt
      exact hlt
  computations x hx := h.has (ht.fits x hx)
  bindings r hr b hb := h.values_length ▸ ht.binding_lt r hr b hb
  routes := ht.computation_lt

end Instance

namespace Stage

/-- Whatever trees were compiled, with or without success: no act of a run fails, and no
index is out of range in any instance, nested ones included. -/
theorem perform_succeeds (calls : List (Node × String)) {st : Stage}
    (h : Reached (Workshop.compileAll calls {}).catalog st) (act : Act)
    (hact : act.Allowed (Workshop.compileAll calls {}).catalog st) :
    (st.perform (Workshop.compileAll calls {}).catalog act).1 = none ∧
      ∀ a ∈ (st.perform (Workshop.compileAll calls {}).catalog act).2.actors,
        ∀ i, a.inst.Holds i → i.InRange := by
  have hc := (Workshop.built_compileAll calls).sound
  obtain ⟨hok, hgood⟩ := (h.good hc).perform hc act hact
  refine ⟨hok, fun a ha i hi => ?_⟩
  have hs := ((hgood.settled a ha).live.holds hi).stands
  exact hs.inRange (hc.template _ hs.template_mem)

/-- A list of two items in a container of the host is left with one. -/
theorem perform_succeeds_list :
    let calls := [(Node.document [.element "ul" [] [.element "li" [⟨"for", "items"⟩]
      [.text "\x7b\x7bname\x7d\x7d"]]], "list")]
    let c := (Workshop.compileAll calls {}).catalog
    let item (s : String) : Json := .obj [("name", .str s)]
    ∃ st, Reached c st ∧ st.actors.length = 1 ∧
      (st.perform c (.update 0 (.obj [("items", .arr [item "c"])]))).1 = none ∧
      ∀ a ∈ (st.perform c (.update 0 (.obj [("items", .arr [item "c"])]))).2.actors,
        ∀ i, a.inst.Holds i → i.InRange := by
  intro calls c item
  have h₁ := Reached.step (.start {} .empty) (.create (.element { tag := "body" })) trivial (c := c)
  have h₂ := h₁.step (.get "list" (some (.obj [("items", .arr [item "a", item "b"])])))
    (by decide +kernel)
  have h₃ := h₂.step (.host 0 0) (by decide +kernel)
  exact ⟨_, h₃, by decide +kernel, perform_succeeds calls h₃ (.update 0 _) trivial⟩

end Stage
end Stencil

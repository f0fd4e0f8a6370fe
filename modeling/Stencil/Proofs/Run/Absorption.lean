import Stencil.Proofs.Instance.Idling
import Stencil.Proofs.Run.Dispatch

/-! Absorption. After an update with clear data the instance has all of it: to send the data
again, or any part of it under its longer key, changes neither the instance nor the document. -/
namespace Stencil
open Binding Document Markup

namespace Instance

/-- After an update with clear data an instance in place has nothing to do for data that its view
knows. -/
theorem Placed.exists_update_knows {c : Catalog} {o : Origin} (hc : c.Built o) (ho : o.Distinct)
    {sc : Scene} {i : Instance} {p : Nat} {pre post : List NodeId}
    (h : i.Placed c sc.document p pre post) {data : Json} (hdata : data.isClear = true) :
    ∃ j sc', i.update c data sc = .ok j sc' ∧ j.template ∈ c.templates ∧
      (j.view sc'.document).Knows data ∧
      ∀ x, (j.view sc'.document).Knows x → (j.update c x sc').Idle j sc' := by
  obtain ⟨j, sc', hj, hr, hview⟩ := h.renews_update hc.sound data
  have hlive := hr.placed.live
  have hm := hlive.stands.template_mem
  refine ⟨j, sc', hj, hm, ?_, fun x hx => ?_⟩
  · rw [hview]
    exact View.knows_updateTo hc ho (Catalog.mem_take h.live.proper.template_mem)
      h.live.proper hdata
  · exact idle_updateTo hc.sound (fun t ht => hc.routed ht) (Catalog.mem_take hm) hlive hx

/-- Over any compiled catalog of trees without repeated attribute names: in every scene that can
be reached an update with clear data succeeds. After it no update with the value at or below one
of its keys, sent under the key of that place, changes the instance, the document or the counts;
and neither does the same update. -/
theorem Reached.absorbs_known (calls : List (Node × String))
    (hnames : ∀ call ∈ calls, ∀ x ∈ call.1.elements, (x.2.map (·.name)).Nodup) {sc : Scene}
    {i : Instance} (h : Reached (Workshop.compileAll calls {}).catalog sc i) {data : Json}
    (hdata : data.isClear = true) :
    let c := (Workshop.compileAll calls {}).catalog
    ∃ j sc', i.update c data sc = .ok j sc' ∧
      (∀ fields, data = .obj fields → ∀ f ∈ fields, ∀ tail, (∀ s ∈ tail, '.' ∉ s.toList) →
        ∃ log, j.update c (.obj [(dotted (f.1 :: tail), f.2.follow tail)]) sc' =
          .ok j { sc' with log := log }) ∧
      ∃ log, j.update c data sc' = .ok j { sc' with log := log } := by
  intro c
  have hc : c.Built (Workshop.origin calls) := Workshop.built_compileAll calls
  have ho := Workshop.distinct_origin hnames
  obtain ⟨i', sc₀, p, pre, post, hplaced, _, hupdate⟩ := h.exists_placed hc.sound
  obtain ⟨j, sc', hj, hm, hknows, hidle⟩ := hplaced.exists_update_knows hc ho hdata
  refine ⟨j, sc', (hupdate data).trans hj, ?_, hidle data hknows⟩
  rintro fields rfl f hf tail htail
  refine hidle _ (hknows.follow hc ?_ hf htail)
  rw [view_eq]
  exact hm

/-- A list of two items under a class from a longer path. -/
theorem Reached.absorbs_known_list :
    let source := "<ul class=\"\x7b\x7bstyle.name\x7d\x7d\">" ++
      "<li for=\"items\" title=\"\x7b\x7bkind\x7d\x7d\">\x7b\x7btext\x7d\x7d</li></ul>"
    ∃ tree, read source = .ok tree ∧
      let c := (Workshop.compileAll [(tree, "list")] {}).catalog
      let item (kind text : Json) : Json := .obj [("kind", kind), ("text", text)]
      let items := Json.arr [item (.bool false) (.str "y"), item (.str "b") .null]
      let data := Json.obj [("style", .obj [("name", .str "wide")]), ("items", items)]
      ∃ i sc j sc', c.get "list" none {} = (.ok i, sc) ∧ Reached c sc i ∧ data.isClear = true ∧
        i.update c data sc = .ok j sc' ∧ j.groups.map List.length = [2] ∧
        (∃ log, j.update c (.obj [("style.name", .str "wide")]) sc' =
          .ok j { sc' with log := log }) ∧
        (∃ log, j.update c (.obj [("items", items)]) sc' = .ok j { sc' with log := log }) ∧
        ∃ log, j.update c data sc' = .ok j { sc' with log := log } := by
  intro source
  have hread : read source = .ok (treeOf source) := read_eq_treeOf (by decide +kernel)
  refine ⟨treeOf source, hread, ?_⟩
  intro c item items data
  have hnames : ∀ call ∈ [(treeOf source, "list")], ∀ x ∈ call.1.elements,
      (x.2.map (·.name)).Nodup := by decide +kernel
  have hc : c.Sound := (Workshop.built_compileAll _).sound
  obtain ⟨_, i, sc, _, hget, _, htroupe⟩ :=
    (Troupe.start {} Linked.empty).exists_got hc "list" (by decide +kernel) none
  have hreached : Reached c sc i := .member htroupe (List.mem_singleton_self i)
  have hdata : data.isClear = true := by decide +kernel
  obtain ⟨j, sc', hj, hparts, hagain⟩ :=
    hreached.absorbs_known [(treeOf source, "list")] hnames hdata
  have heval : let got := c.get "list" none {}
      got.1.toOption.map (fun i => (i.update c data got.2).state.groups.map List.length) =
        some [2] := by decide +kernel
  simp only [hget, Except.toOption, Option.map_some, Option.some.injEq] at heval
  rw [show i.update c data sc = .ok j sc' from hj] at heval
  have hstyle : ∃ log, j.update c (.obj [(dotted ["style", "name"], .str "wide")]) sc' =
      .ok j { sc' with log := log } :=
    hparts _ rfl ("style", .obj [("name", .str "wide")]) (by simp) ["name"] (by decide)
  have hitems : ∃ log, j.update c (.obj [(dotted ["items"], items)]) sc' =
      .ok j { sc' with log := log } := hparts _ rfl ("items", items) (by simp) [] (by decide)
  rw [show dotted ["style", "name"] = "style.name" by decide +kernel] at hstyle
  rw [show dotted ["items"] = "items" by decide +kernel] at hitems
  exact ⟨i, sc, j, sc', hget, hreached, hdata, hj, heval, hstyle, hitems, hagain⟩

end Instance
end Stencil

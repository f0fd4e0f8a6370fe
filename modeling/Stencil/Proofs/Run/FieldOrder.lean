import Stencil.Proofs.Instance.Knowing
import Stencil.Proofs.Instance.Likeness
import Stencil.Proofs.Instance.Shuffling
import Stencil.Proofs.Run.Dispatch

/-! The order of fields does not show. Updates with clear data that differs in the order of object
fields only come to instances that look the same, and hold the same values up to that order. -/
namespace Stencil
open Binding Document Markup

namespace Instance

/-- What one instance in place comes to with data in two orders. -/
theorem Placed.tallies_update {c : Catalog} {o : Origin} (hc : c.Built o) (ho : o.Distinct)
    {sc : Scene} {i : Instance} {p : Nat} {pre post : List NodeId}
    (h : i.Placed c sc.document p pre post) {data data' : Json} (hsame : data.Shuffled data')
    (hdata : data.isClear = true) (hleg : i.template.Legible c data) :
    ∃ j sc₁ j' sc₂, i.update c data sc = .ok j sc₁ ∧ i.update c data' sc = .ok j' sc₂ ∧
      j.Placed c sc₁.document p pre post ∧ j'.Placed c sc₂.document p pre post ∧
      (j.view sc₁.document).Knows data ∧ (j'.view sc₂.document).Knows data' ∧
      (j.view sc₁.document).Tallies (j'.view sc₂.document) := by
  obtain ⟨j, sc₁, hj, hr, hview⟩ := h.renews_update hc.sound data
  obtain ⟨j', sc₂, hj', hr', hview'⟩ := h.renews_update hc.sound data'
  have htemplate : (i.view sc.document).template = i.template := by rw [view_eq]
  have hm := Catalog.mem_take h.live.proper.template_mem
  refine ⟨j, sc₁, j', sc₂, hj, hj', hr.placed, hr'.placed, ?_⟩
  rw [hview, hview']
  refine ⟨View.knows_updateTo hc ho hm h.live.proper hdata,
    View.knows_updateTo hc ho hm h.live.proper (hsame.isClear hdata), ?_⟩
  exact View.tallies_updateTo hc ho hm h.live.proper hsame hdata (htemplate ▸ hleg)

/-- Over any compiled catalog of trees without repeated attribute names: in every scene that can
be reached, updates with clear data in two orders of object fields succeed, where no variable read
for a text, an attribute or a property is given an array or an object. They leave the instance in
the same place, where it has taken its data, with the same values up to that order and as many
nested instances at every level; and what stands there looks the same. -/
theorem Reached.ignores_field_order (calls : List (Node × String))
    (hnames : ∀ call ∈ calls, ∀ x ∈ call.1.elements, (x.2.map (·.name)).Nodup) {sc : Scene}
    {i : Instance} (h : Reached (Workshop.compileAll calls {}).catalog sc i) {data data' : Json}
    (hsame : data.Shuffled data') (hdata : data.isClear = true)
    (hleg : i.template.Legible (Workshop.compileAll calls {}).catalog data) :
    let c := (Workshop.compileAll calls {}).catalog
    ∃ j sc₁ j' sc₂ p pre post shown shown',
      i.update c data sc = .ok j sc₁ ∧ i.update c data' sc = .ok j' sc₂ ∧
      (j.view sc₁.document).Knows data ∧ (j'.view sc₂.document).Knows data' ∧
      (j.view sc₁.document).Tallies (j'.view sc₂.document) ∧
      sc₁.document.children p = pre ++ j.block ++ post ∧
      sc₂.document.children p = pre ++ j'.block ++ post ∧
      j.block.mapM sc₁.document.tree? = some shown ∧
      j'.block.mapM sc₂.document.tree? = some shown' ∧
      Tree.appearAll shown = Tree.appearAll shown' := by
  intro c
  have hc : c.Built (Workshop.origin calls) := Workshop.built_compileAll calls
  have ho := Workshop.distinct_origin hnames
  obtain ⟨i', sc₀, p, pre, post, hplaced, htemplate, hupdate⟩ := h.exists_placed hc.sound
  obtain ⟨j, sc₁, j', sc₂, hj, hj', hp, hp', hknows, hknows', htallies⟩ :=
    hplaced.tallies_update hc ho hsame hdata (htemplate ▸ hleg)
  obtain ⟨Xs, hX, hX'⟩ := same_block hc hp.live hp'.live htallies.alike
  obtain ⟨shown, hshown, happear⟩ := hX.exists_trees
  obtain ⟨shown', hshown', happear'⟩ := hX'.exists_trees
  exact ⟨j, sc₁, j', sc₂, p, pre, post, shown, shown', (hupdate data).trans hj,
    (hupdate data').trans hj', hknows, hknows', htallies, hp.children_eq, hp'.children_eq, hshown,
    hshown', happear.trans happear'.symm⟩

/-- A list of three items gets two, whose fields come in the other order too. -/
theorem Reached.ignores_field_order_list :
    let source := "<ul class=\"\x7b\x7bstyle.name\x7d\x7d\">" ++
      "<li for=\"items\" title=\"\x7b\x7bkind\x7d\x7d\">" ++
      "\x7b\x7bkind\x7d\x7d, \x7b\x7btext\x7d\x7d</li></ul>"
    ∃ tree, read source = .ok tree ∧
      let c := (Workshop.compileAll [(tree, "list")] {}).catalog
      let item (kind text : Json) : Json := .obj [("kind", kind), ("text", text)]
      let item' (kind text : Json) : Json := .obj [("text", text), ("kind", kind)]
      let style : Json := .obj [("name", .bool false)]
      let first := Json.obj [("style", .obj [("name", .str "wide")]), ("items",
        .arr [.null, .str "none", .null])]
      let data := Json.obj [("style", style), ("items",
        .arr [item (.bool false) (.str "y"), item (.str "b") .null])]
      let data' := Json.obj [("items",
        .arr [item' (.bool false) (.str "y"), item' (.str "b") .null]), ("style", style)]
      ∃ i sc, c.get "list" (some first) {} = (.ok i, sc) ∧ Reached c sc i ∧
        data.Shuffled data' ∧ data.isClear = true ∧ i.template.Legible c data ∧
        ∃ j sc₁ j' sc₂ shown shown', i.update c data sc = .ok j sc₁ ∧
          i.update c data' sc = .ok j' sc₂ ∧ j.groups.map List.length = [2] ∧
          (j.view sc₁.document).Tallies (j'.view sc₂.document) ∧
          j.block.mapM sc₁.document.tree? = some shown ∧
          j'.block.mapM sc₂.document.tree? = some shown' ∧
          Tree.appearAll shown = Tree.appearAll shown' := by
  intro source
  have hread : read source = .ok (treeOf source) := read_eq_treeOf (by decide +kernel)
  refine ⟨treeOf source, hread, ?_⟩
  intro c item item' style first data data'
  have hnames : ∀ call ∈ [(treeOf source, "list")], ∀ x ∈ call.1.elements,
      (x.2.map (·.name)).Nodup := by decide +kernel
  have hc : c.Sound := (Workshop.built_compileAll _).sound
  obtain ⟨_, i, sc, _, hget, _, htroupe⟩ :=
    (Troupe.start {} Linked.empty).exists_got hc "list" (by decide +kernel) (some first)
  have hreached : Reached c sc i := .member htroupe (List.mem_singleton_self i)
  have hdata : data.isClear = true := by decide +kernel
  have hitem : ∀ kind text, (item kind text).Shuffled (item' kind text) := fun kind text =>
    .obj_perm (.swap _ _ []) (.refl (item' kind text))
  have hitems := Json.Shuffled.arr_cons (hitem (.bool false) (.str "y"))
    (.arr_cons (hitem (.str "b") .null) (.refl (.arr [])))
  have hsame : data.Shuffled data' :=
    .obj_perm (.swap _ _ []) (.obj_cons "items" hitems (.refl (.obj [("style", style)])))
  have heval : let got := c.get "list" (some first) {}
      got.1.toOption.map (fun i => ((i.update c data got.2).state.groups.map List.length,
        i.template.isLegible c 2 data)) = some ([2], true) := by decide +kernel
  simp only [hget, Except.toOption, Option.map_some, Option.some.injEq, Prod.mk.injEq] at heval
  obtain ⟨hlengths, hchecked⟩ := heval
  have hleg : i.template.Legible c data := Template.legible_of_isLegible hchecked
  obtain ⟨j, sc₁, j', sc₂, _, _, _, shown, shown', hj, hj', _, _, htallies, _, _, hshown, hshown',
    happear⟩ := hreached.ignores_field_order [(treeOf source, "list")] hnames hsame hdata hleg
  rw [show i.update c data sc = .ok j sc₁ from hj] at hlengths
  exact ⟨i, sc, hget, hreached, hsame, hdata, hleg, j, sc₁, j', sc₂, shown, shown', hj, hj',
    hlengths, htallies, hshown, hshown', happear⟩

end Instance
end Stencil

import Stencil.Proofs.Instance.Likeness
import Stencil.Proofs.Run.Stage

/-! History does not show. Whatever an instance went through, after an update with complete
data it looks as a new instance made of that data. -/
namespace Stencil
open Binding Document Instance Markup

theorem View.Attained.keeps {c : Catalog} {o : Origin} (hc : c.Built o) {V : View}
    (h : V.Attained c) : V.Current c ∧ V.Clean := by
  induction h with
  | new ht => exact ⟨current_new ht, clean_new _⟩
  | update _ data ih => exact updateTo_keeps hc _ ih data

/-- An update with complete data comes to the view of a new instance made of it. -/
theorem View.Attained.alike_first {c : Catalog} {o : Origin} (hc : c.Built o) (ho : o.Distinct)
    {V : View} (h : V.Attained c) {data : Json} (hdata : V.template.Complete c data) :
    (updateTo c (c.size + 1) V data).Alike (first c V.template (some data)) := by
  have hkeeps := h.keeps hc
  have hm := hkeeps.1.template_mem
  have htemplate : (View.new V.template).template = V.template := rfl
  refine alike_updateTo hc ho ?_ htemplate hkeeps ⟨current_new hm, clean_new _⟩ hdata
  rw [Catalog.size, List.take_of_length_le (Nat.le_succ _)]
  exact hm

/-- The fragment of a new instance looks as what stands for the instance. -/
theorem Instance.Raised.exists_tree {c : Catalog} {d e : Document} {i : Instance}
    (h : Raised c d e i) {Xs : List Appearance} (hX : Appearance.AllAt e Xs i.block) :
    ∃ tree, e.tree? d.size = some tree ∧ tree.appear = Xs := by
  obtain ⟨r, hroot, hfragment⟩ := h.placed.live.stands.root_fragment
  cases h.root_eq.symm.trans hroot
  have hchildren : e.children d.size = i.block := by simpa using h.placed.children_eq
  exact Appearance.exists_tree?_of_fragment hfragment (hchildren ▸ hX)

theorem Catalog.get?_name {c : Catalog} (hn : c.names.Nodup) {t : Template} (ht : t ∈ c.templates) :
    c.get? t.name = some t := by
  obtain ⟨u, hu⟩ : ∃ u, c.get? t.name = some u :=
    Option.isSome_iff_exists.mp (List.find?_isSome.mpr ⟨t, ht, by simp⟩)
  have hname : u.name = t.name := by simpa using List.find?_some hu
  rw [List.inj_on_of_nodup_map hn (List.mem_of_find?_eq_some hu) ht hname] at hu
  exact hu

namespace Stage

/-- Over any compiled catalog of trees without repeated attribute names: an update with data
that is complete for an instance on a stage succeeds and leaves the instance where it stands,
in its host or else in its fragment. There it looks as the fragment of a new instance of its
template that is made of the same data, in any scene. -/
theorem update_forgets (calls : List (Node × String))
    (hnames : ∀ call ∈ calls, ∀ x ∈ call.1.elements, (x.2.map (·.name)).Nodup) {st : Stage}
    (h : Reached (Workshop.compileAll calls {}).catalog st) {k : Nat} {a : Actor}
    (ha : st.actors[k]? = some a) {data : Json}
    (hdata : a.inst.template.Complete (Workshop.compileAll calls {}).catalog data) {sc : Scene}
    (hsc : sc.document.Linked) :
    let c := (Workshop.compileAll calls {}).catalog
    ∃ st' b p pre post shown, st.perform c (.update k data) = (none, st') ∧
      st'.actors[k]? = some b ∧ b.host = a.host ∧ (b.host <|> b.inst.root) = some p ∧
      (b.host = none → pre = [] ∧ post = []) ∧
      st'.scene.document.children p = pre ++ b.inst.block ++ post ∧
      b.inst.block.mapM st'.scene.document.tree? = some shown ∧
      ∃ fresh sc' r tree, c.get a.inst.template.name (some data) sc = (.ok fresh, sc') ∧
        fresh.root = some r ∧ sc'.document.tree? r = some tree ∧
        Tree.appearAll shown = tree.appear := by
  intro c
  have hc : c.Built (Workshop.origin calls) := Workshop.built_compileAll calls
  have ho := Workshop.distinct_origin hnames
  have hgood : st.Good c := h.good hc.sound
  have hs := hgood.settled a (List.mem_of_getElem? ha)
  obtain ⟨p, pre, post, hp, halone, hpl⟩ := hs.placed
  obtain ⟨j, sc₁, hj, hr, hview⟩ := hpl.renews_update hc.sound data
  -- a new instance of the same data
  have hget := Catalog.get?_name (Workshop.nodup_names_compileAll calls)
    hpl.live.stands.template_mem
  obtain ⟨i, sc', hi, hraised, _, hview'⟩ := c.get_raised hc.sound hget hsc (some data)
  have hVt : (a.inst.view st.scene.document).template = a.inst.template := by rw [view_eq]
  have halike : (j.view sc₁.document).Alike (i.view sc'.document) := by
    rw [hview, hview', ← hVt]
    exact hs.view.alike_first hc ho (hVt ▸ hdata)
  obtain ⟨Xs, hX, hX'⟩ := same_block hc hr.placed.live hraised.placed.live halike
  obtain ⟨shown, hshown, happear⟩ := hX.exists_trees
  obtain ⟨tree, htree, happear'⟩ := hraised.exists_tree hX'
  refine ⟨st.replace k { a with inst := j } sc₁, { a with inst := j }, p, pre, post, shown, ?_, ?_,
    rfl, ?_, halone, hr.placed.children_eq, hshown, i, sc', _, tree, hi, hraised.root_eq, htree,
    happear.trans happear'.symm⟩
  · rw [perform, ha]
    simp only [hj, Outcome.ok]
  · rw [Stage.replace, List.getElem?_set_self (List.getElem?_eq_some_iff.mp ha).1]
  · rw [← hp, hr.root_eq]

/-- A list that had three items, some of them incomplete, gets two. -/
theorem update_forgets_list :
    let source := "<ul class=\"\x7b\x7bstyle.name\x7d\x7d\">" ++
      "<li for=\"items\" title=\"\x7b\x7bkind\x7d\x7d\">\x7b\x7btext\x7d\x7d</li></ul>"
    let c := (Workshop.compileAll [(treeOf source, "list")] {}).catalog
    let item (kind text : Json) : Json := .obj [("kind", kind), ("text", text)]
    let data := Json.obj [("style", .obj [("name", .bool false)]),
      ("items", .arr [item (.bool false) (.str "y"), item (.str "b") .null])]
    read source = .ok (treeOf source) ∧ ∃ st a, Reached c st ∧ st.actors[0]? = some a ∧
      a.inst.groups.map List.length = [3] ∧ a.inst.template.Complete c data ∧
      ∃ st' b shown fresh sc' r tree, st.perform c (.update 0 data) = (none, st') ∧
        st'.actors[0]? = some b ∧ b.inst.block.mapM st'.scene.document.tree? = some shown ∧
        c.get "list" (some data) {} = (.ok fresh, sc') ∧ fresh.root = some r ∧
        sc'.document.tree? r = some tree ∧ Tree.appearAll shown = tree.appear := by
  intro source c item data
  have hread : read source = .ok (treeOf source) := read_eq_treeOf (by decide +kernel)
  have hnames : ∀ call ∈ [(treeOf source, "list")], ∀ x ∈ call.1.elements,
      (x.2.map (·.name)).Nodup := by decide +kernel
  let first := Json.obj [("items", .arr [item (.str "a") (.str "x"), .str "none", .null]),
    ("style", .obj [("name", .str "wide")])]
  let second := Json.obj [("style.name", .str "narrow"), ("items",
    .arr [.obj [("kind", .bool true)], item .null (.str "z"), .obj [("text", .str "w")]])]
  have h₁ := Reached.step (.start {} .empty) (.get "list" (some first)) (by decide +kernel) (c := c)
  have h₂ := h₁.step (.update 0 second) trivial
  have heval : (perform c (perform c ⟨{}, []⟩ (.get "list" (some first))).2
      (.update 0 second)).2.actors[0]?.map (fun a => (a.inst.groups.map List.length,
        a.inst.template.name, a.inst.template.isComplete c 2 data)) =
      some ([3], "list", true) := by decide +kernel
  obtain ⟨a, ha, hparts⟩ := Option.map_eq_some_iff.mp heval
  simp only [Prod.mk.injEq] at hparts
  obtain ⟨hlengths, hname, hchecked⟩ := hparts
  have hdata : a.inst.template.Complete c data := Template.complete_of_isComplete hchecked
  obtain ⟨st', b, _, _, _, shown, hp, hb, _, _, _, _, hshown, fresh, sc', r, tree, hget, hrest⟩ :=
    update_forgets [(treeOf source, "list")] hnames h₂ ha hdata
      (show ({} : Scene).document.Linked from .empty)
  rw [hname] at hget
  exact ⟨hread, _, a, h₂, ha, hlengths, hdata, st', b, shown, fresh, sc', r, tree, hp, hb, hshown,
    hget, hrest⟩

end Stage
end Stencil

import Stencil.Proofs.Run.Stage
import Stencil.Proofs.Template.Furnishing

/-! Nothing is stale. In every stage of a run, and in every instance, nested ones included,
texts show the current values of their variables, groups have as many instances as the
values ask for, and so do attributes show current values that have some literal text and
are not properties. -/
namespace Stencil
open Binding Document Instance Markup

/-- How many instances a directive renders for a value. -/
def Directive.count : Directive → Json → Nat
  | .onTruthy, x => if x.isTruthy then 1 else 0
  | .onPresent, x => if x.isPresent then 1 else 0
  | .forEach, .arr items => items.length
  | .forEach, _ => 0

theorem Directive.length_items (dir : Directive) (x : Json) :
    (dir.items x).length = dir.count x := by
  cases dir with
  | forEach => cases x <;> rfl
  | onTruthy =>
    rw [items, count]
    split <;> rfl
  | onPresent =>
    rw [items, count]
    split <;> rfl

namespace Instance

/-- What is derived from the values of the variables is as they have it. -/
structure UpToDate (calls : List (Node × String)) (d : Document) (i : Instance) : Prop where
  text : ∀ s value, .setText s value ∈ i.template.computations →
    ∃ n, i.nodes[s]? = some n ∧ d.kind? n = some (.text (value.shown i.values))
  group : ∀ dir name s v g, .reconcile dir name s v g ∈ i.template.computations →
    ∃ is x, i.groups[g]? = some is ∧ i.values[v]? = some x ∧ is.length = dir.count x
  /-- The slot of an element was made for one that was compiled. If its attributes have
  different names, each of them that has references and literal text and is no property
  shows its text with the values filled in. -/
  attr : ∀ s q tag svg, i.template.seeds[s]? = some (.element q tag svg) →
    ∃ n as, i.nodes[s]? = some n ∧ (∃ call ∈ calls, (tag, as) ∈ call.1.elements) ∧
      i.template.Carries s tag svg (Builder.plain as) ∧
      (((Builder.plain as).map (·.name)).Nodup → ∀ a ∈ Builder.plain as, ∀ ss,
        Segment.readAll (tidy a.value) = .ok ss → ss.any Segment.isReference = true →
        (!svg && Vocabulary.isProperty tag a.name) = false → literalText (tidy a.value) ≠ "" →
        ∃ value, Interprets i.template.Binds ss value ∧
          d.attribute? n (Draft.attributeName a.name).1 (Draft.attributeName a.name).2 =
            some (value.shown i.values))

variable {c : Catalog} {d : Document} {i j : Instance}

theorem Holds.current (hi : i.Holds j) (h : (i.view d).Current c) : (j.view d).Current c := by
  induction hi with
  | self => exact h
  | @nested i j k is hg hm _ ih =>
    refine ih ?_
    cases h with
    | intro _ _ _ _ nested =>
      refine nested (viewAll d is) ?_ _ ?_
      · rw [view_eq, viewGroups_eq]
        exact List.mem_map_of_mem hg
      · rw [viewAll_eq]
        exact List.mem_map_of_mem hm

theorem upToDate_of_current {calls : List (Node × String)}
    (hc : c.Built (Workshop.origin calls)) (h : (i.view d).Current c) : i.UpToDate calls d := by
  have htemplate : (i.view d).template = i.template := by rw [view_eq]
  have hvalues : (i.view d).values = i.values := by rw [view_eq]
  cases h with
  | intro template_mem shaped done =>
    rw [htemplate] at template_mem done
    refine ⟨?_, ?_, ?_⟩
    · intro s value hx
      have hd := done _ (hc.steady_text template_mem hx)
      rw [View.Done, hvalues] at hd
      exact exists_of_text? hd
    · intro dir name s v g hx
      obtain ⟨vs, hg, hlen⟩ := done _ (hc.steady_group template_mem hx)
      rw [view_eq, viewGroups_eq, List.getElem?_map] at hg
      obtain ⟨is, his, rfl⟩ := Option.map_eq_some_iff.mp hg
      have hv : v < i.values.length := by
        have := shaped.values_length
        rw [htemplate, hvalues] at this
        exact this ▸ ((hc.sound.template _ template_mem).fits _ hx).2.1
      refine ⟨is, i.values[v], his, List.getElem?_eq_getElem hv, ?_⟩
      rw [viewAll_eq, List.length_map, dir.length_items, View.value, hvalues,
        List.getElem?_eq_getElem hv] at hlen
      exact hlen
    · intro s q tag svg hs
      obtain ⟨as, hsource, hcar⟩ := hc.exists_carries template_mem hs
      obtain ⟨e, he⟩ := shaped.exists_element (s := s) (by rw [htemplate]; exact ⟨q, tag, svg, hs⟩)
      obtain ⟨n, hn, hel⟩ := exists_of_element? he
      refine ⟨n, as, hn, hsource, hcar, fun hnames a ha ss hread hb hdirect hl => ?_⟩
      obtain ⟨value, hi, hsteady⟩ :=
        hc.steady_attribute template_mem hcar hnames ha hread hb hdirect hl
      have hd := done _ hsteady
      rw [View.Done, View.attribute?, he, hvalues] at hd
      refine ⟨value, hi, ?_⟩
      rw [Document.attribute?, hel]
      exact hd

end Instance

theorem View.Attained.current {c : Catalog} {o : Origin} (hc : c.Built o) {V : View}
    (h : V.Attained c) : V.Current c := by
  induction h with
  | new ht => exact current_new ht
  | update _ data ih => exact ih.updateTo hc.sound (fun t ht => hc.routed ht) _ data

namespace Stage

/-- Over any compiled catalog: in every stage of a run all instances, nested ones included,
are up to date. -/
theorem nothing_stale (calls : List (Node × String)) {st : Stage}
    (h : Reached (Workshop.compileAll calls {}).catalog st) {a : Actor} (ha : a ∈ st.actors)
    {i : Instance} (hi : a.inst.Holds i) : i.UpToDate calls st.scene.document := by
  have hc := Workshop.built_compileAll calls
  have hs := (h.good hc.sound).settled a ha
  exact upToDate_of_current hc (hi.current (hs.view.current hc))

/-- An item of a list, after an update that names one of its variables only. -/
theorem nothing_stale_list :
    let calls := [(Node.document [.element "ul" [] [.element "li"
      [⟨"for", "items"⟩, ⟨"class", "item \x7b\x7bkind\x7d\x7d"⟩]
      [.text "\x7b\x7bname\x7d\x7d"]]], "list")]
    ∃ st a is i, Reached (Workshop.compileAll calls {}).catalog st ∧ a ∈ st.actors ∧
      is ∈ a.inst.groups ∧ i ∈ is ∧ i.values.map Json.shown = ["b", "n"] ∧ a.inst.Holds i ∧
      i.UpToDate calls st.scene.document := by
  intro calls
  let c := (Workshop.compileAll calls {}).catalog
  let items (fields : List (String × Json)) : Json := .obj [("items", .arr [.obj fields])]
  have h₁ := Reached.step (.start {} .empty)
    (.get "list" (some (items [("kind", .str "a"), ("name", .str "n")])))
    (by decide +kernel) (c := c)
  have h₂ := h₁.step (.update 0 (items [("kind", .str "b")])) trivial
  have hshown : (perform c (perform c ⟨{}, []⟩ (.get "list"
      (some (items [("kind", .str "a"), ("name", .str "n")])))).2
      (.update 0 (items [("kind", .str "b")]))).2.actors.map
        (fun a => a.inst.groups.map (fun is => is.map (fun i => i.values.map Json.shown))) =
      [[[["b", "n"]]]] := by decide +kernel
  obtain ⟨a, ha, hg⟩ := List.map_eq_singleton_iff.mp hshown
  obtain ⟨is, his, hi⟩ := List.map_eq_singleton_iff.mp hg
  obtain ⟨i, hi, hv⟩ := List.map_eq_singleton_iff.mp hi
  have ham : a ∈ (perform c (perform c ⟨{}, []⟩ (.get "list"
      (some (items [("kind", .str "a"), ("name", .str "n")])))).2
      (.update 0 (items [("kind", .str "b")]))).2.actors := by simp [ha]
  have hgm : is ∈ a.inst.groups := by simp [his]
  have him : i ∈ is := by simp [hi]
  have hholds : a.inst.Holds i := .nested hgm him (.self i)
  exact ⟨_, a, is, i, h₂, ham, hgm, him, hv, hholds, nothing_stale calls h₂ ham hholds⟩

end Stage
end Stencil

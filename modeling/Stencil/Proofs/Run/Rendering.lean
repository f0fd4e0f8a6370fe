import Stencil.Proofs.Instance.Rendering
import Stencil.Proofs.Instance.Updating

/-! Compiling and running agrees with rendering. An instance that was just made of data
shows what is drawn in its template, and so an instance of a compiled tree is what the
tree renders to. -/
namespace Stencil
open Binding Document Instance Markup

/-- An instance of the draft `d`, in place and filled with data once, through at most `n`
levels of nesting. -/
structure Instance.Filled (c : Catalog) (e : Document) (n : Nat) (d : Draft) (data : Json)
    (i : Instance) : Prop where
  live : i.Live c e
  sound : d.Sound
  template_eq : i.template = d.finish i.template.name
  mem_take : i.template ∈ c.templates.take n
  view_eq : i.view e = View.updateTo c n (.new i.template) data
  plain : data.isPlain = true

namespace Instance.Filled

variable {c : Catalog} {e : Document} {n : Nat} {d : Draft} {data : Json} {i : Instance}

theorem mem_templates (h : i.Filled c e n d data) : d.finish i.template.name ∈ c.templates :=
  h.template_eq ▸ List.mem_of_mem_take h.mem_take

theorem exists_view (h : i.Filled c e n d data) : ∃ m, n = m + 1 ∧
    i.view e = View.updateWith c (View.updateTo c m) (.new (d.finish i.template.name)) data := by
  cases n with
  | zero => cases h.mem_take
  | succ m => exact ⟨m, rfl, by rw [h.view_eq, ← h.template_eq]; rfl⟩

theorem getElem?_seeds (h : i.Filled c e n d data) (s : Slot) :
    i.template.seeds[s]? = d.seeds[s]? := by
  rw [h.template_eq]
  rfl

theorem slotsAt_eq (h : i.Filled c e n d data) (p : Parent) :
    i.template.slotsAt p = d.slotsAt p := by
  rw [h.template_eq]
  rfl

theorem template_sound (h : i.Filled c e n d data) : i.template.Sound := by
  rw [h.template_eq]
  exact h.sound.template _

theorem exists_node (h : i.Filled c e n d data) {s : Slot} {seed : Seed}
    (hs : d.seeds[s]? = some seed) :
    ∃ m k, i.nodes[s]? = some m ∧ e.kind? m = some k ∧ seed.Holds k :=
  h.live.stands.exists_node ((h.getElem?_seeds s).trans hs)

end Instance.Filled

namespace Picture

/-- What filled instances show where the picture is drawn. -/
def Shows (P : Picture) (R : Bool → Json → List Appearance) : Prop :=
  ∀ ⦃o : Origin⦄ ⦃c : Catalog⦄ ⦃e : Document⦄ ⦃n : Nat⦄ ⦃d : Draft⦄ ⦃lo : Nat⦄ ⦃svg : Bool⦄
    ⦃ss : List Slot⦄ ⦃data : Json⦄ ⦃i : Instance⦄, c.Built o → P c d lo svg ss →
    i.Filled c e n d data → Appearance.AllAt e (R svg data) (ss.flatMap i.slotBlock)

theorem shows_nothing : Shows nothing fun _ _ => [] := by
  rintro o c e n d lo svg ss data i hc rfl h
  rw [Appearance.AllAt]
  rfl

theorem Shows.andThen {P Q : Picture} {R S : Bool → Json → List Appearance} (hP : P.Shows R)
    (hQ : Q.Shows S) : (P.andThen Q).Shows fun svg data => R svg data ++ S svg data := by
  rintro o c e n d lo svg ss data i hc ⟨ss₁, ss₂, rfl, h₁, h₂⟩ h
  rw [List.flatMap_append]
  exact (hP hc h₁ h).append (hQ hc h₂ h)

theorem shows_text (raw : String) :
    (text raw).Shows fun _ data => [.text (Segment.filled data (segmentsOf raw))] := by
  rintro o c e n d lo svg ss data i hc ⟨s, rfl, _, hseed, hx⟩ h
  obtain ⟨m, _, hview⟩ := h.exists_view
  have htext : (i.view e).text? s = some (Segment.filled data (segmentsOf raw)) := by
    rw [hview]
    exact View.text?_updateWith_new hc h.mem_templates h.sound h.plain hseed hx
  obtain ⟨k, hk, hkind⟩ := exists_of_text? htext
  have hs : i.template.HasText s := ⟨_, _, (h.getElem?_seeds s).trans hseed⟩
  rw [List.flatMap_singleton, slotBlock_plain h.template_sound (.inr hs) hk]
  exact Appearance.allAt_singleton (by rw [Appearance.At]; exact hkind)

theorem Shows.element {C : Picture} {R : Bool → Json → List Appearance} (hC : C.Shows R)
    (tag : String) {as : List Attribute} (hn : (as.map (·.name)).Nodup) :
    (element tag as C).Shows fun svg data =>
      let inside := svg || Vocabulary.isSvgTag tag
      [.element tag (if inside then some Vocabulary.svgNamespace else none)
        (attributesFor tag inside as data) (propertiesFor tag inside as data)
        (R (inside && tag != Vocabulary.foreignObject) data)] := by
  rintro o c e n d lo svg ss data i hc ⟨s, rfl, _, hseed, hf, hch⟩ h
  obtain ⟨m, k, hm, hk, hholds⟩ := h.exists_node hseed
  have hs : i.template.HasElement s := ⟨_, _, _, (h.getElem?_seeds s).trans hseed⟩
  rw [List.flatMap_singleton, slotBlock_plain h.template_sound (.inl hs) hm]
  refine Appearance.allAt_singleton ?_
  cases k with
  | text | fragment => cases hholds
  | element el =>
    have hel : (i.view e).element? s = some el := by
      rw [View.element?, kinds_view hm hk]
      rfl
    obtain ⟨depth, _, hview⟩ := h.exists_view
    have hfurnished : d.Furnished s tag (svg || Vocabulary.isSvgTag tag) as := ⟨hseed, hf, hn⟩
    rw [Appearance.At]
    refine ⟨el, hk, hholds.1, hholds.2, funext fun key => ?_, funext fun p => ?_, ?_⟩
    · have := View.attribute?_updateWith_new (View.updateTo c depth) hc h.mem_templates h.sound
        hfurnished h.plain key
      rwa [← hview, View.attribute?, hel] at this
    · have := View.property?_updateWith_new (View.updateTo c depth) hc h.mem_templates h.sound
        hfurnished h.plain p
      rwa [← hview, View.property?, hel] at this
    · rw [h.live.stands.children_eq s m hs hm, layout, h.slotsAt_eq]
      exact hC hc hch h

/-- Instances look like the items they were filled with, one after the other. -/
theorem allAt_flatMap {e : Document} {f : Json → View} {F : Json → List Appearance}
    {is : List Instance} {items : List Json} (h : is.map (view e) = items.map f)
    (hF : ∀ j ∈ is, ∀ x ∈ items, j.view e = f x → Appearance.AllAt e (F x) j.block) :
    Appearance.AllAt e (items.flatMap F) (is.flatMap block) := by
  induction is generalizing items with
  | nil =>
    rw [List.map_nil, eq_comm, List.map_eq_nil_iff] at h
    rw [h, List.flatMap_nil, List.flatMap_nil, Appearance.AllAt]
  | cons j is ih =>
    cases items with
    | nil => cases h
    | cons x items =>
      rw [List.map_cons, List.map_cons, List.cons.injEq] at h
      rw [List.flatMap_cons, List.flatMap_cons]
      refine (hF j List.mem_cons_self x List.mem_cons_self h.1).append
        (ih h.2 fun j' hj' x' hx' => ?_)
      exact hF j' (List.mem_cons_of_mem _ hj') x' (List.mem_cons_of_mem _ hx')

theorem Shows.nest {P : Picture} {R : Bool → Json → List Appearance} (hP : P.Shows R)
    (dir : Directive) (value : String) :
    (nest dir value P).Shows fun svg => renderItems dir value (R svg) := by
  rintro o c e n d lo svg ss data i hc
    ⟨s, name, path, v, g, f, rfl, _, hseed, hpath, hx, hv, hget, hf, hin⟩ h
  obtain ⟨node, k, hnode, hk, hholds⟩ := h.exists_node hseed
  obtain ⟨depth, rfl, hview⟩ := h.exists_view
  have hmem : .reconcile dir name s v g ∈ d.index.computations := by
    have : .reconcile dir name s v g ∈ d.computationsAt s := by simp [hx]
    exact (List.mem_filter.mp this).1
  have hmem' : .reconcile dir name s v g ∈ i.template.computations := by
    rw [h.template_eq]
    exact hmem
  -- the group of the anchor, as the first update leaves it
  have hgroups := View.groups_updateWith_new (View.updateTo c depth) h.sound hmem
    (hc.alone_group h.mem_templates hmem) hget hv h.plain
  rw [← hview, view_eq, viewGroups_eq, List.getElem?_map] at hgroups
  obtain ⟨is, his, hviews⟩ := Option.map_eq_some_iff.mp hgroups
  rw [viewAll_eq] at hviews
  have hblock : i.slotBlock s = is.flatMap block ++ [node] := by
    rw [slotBlock_anchor h.template_sound (Template.mem_anchored.mpr ⟨_, _, _, hmem'⟩) his hnode,
      blockAll_eq]
  have htake : f.finish name ∈ c.templates.take depth := by
    obtain ⟨u, hu, hget'⟩ := hc.sound.exists_nested h.mem_take hmem'
    rwa [Option.some.inj (hget.symm.trans hget')]
  show Appearance.AllAt e (renderItems dir value (R svg) data) _
  rw [List.flatMap_singleton, hblock, renderItems, directivePath_eq hpath]
  refine Appearance.AllAt.append (allAt_flatMap hviews fun j hj x hx hjx => ?_) ?_
  · have htemplate : j.template = f.finish name := by
      have := congrArg View.template hjx
      rwa [view_eq, View.template_updateTo] at this
    have hfilled : j.Filled c e depth f x := by
      refine ⟨h.live.nested is (List.mem_of_getElem? his) j hj, hf, ?_, ?_, ?_, ?_⟩
      · rw [htemplate]
        rfl
      · rw [htemplate]
        exact htake
      · rw [htemplate]
        exact hjx
      · exact Json.isPlain_items dir (Json.isPlain_follow path.segments h.plain) x hx
    rw [block_eq, layout, hfilled.slotsAt_eq]
    exact hP hc hin hfilled
  · cases k with
    | element | fragment => cases hholds
    | text content =>
      have hempty : (i.view e).text? s = some "" := by
        rw [hview]
        exact View.text?_updateWith_anchor (h.sound.template _) hseed data
      rw [View.text?, kinds_view hnode hk] at hempty
      cases hempty
      refine Appearance.allAt_singleton ?_
      rw [Appearance.At, hk]

theorem Shows.foldr_nest {P : Picture} {R : Bool → Json → List Appearance} (hP : P.Shows R)
    (ds : List (Directive × String)) :
    (ds.foldr (fun x P => Picture.nest x.1 x.2 P) P).Shows fun svg =>
      ds.foldr (fun x inner => renderItems x.1 x.2 inner) (R svg) := by
  induction ds with
  | nil => exact hP
  | cons x ds ih => exact ih.nest x.1 x.2

mutual

theorem shows_ofNode : ∀ n : Node, (∀ x ∈ n.elements, (x.2.map (·.name)).Nodup) →
    (ofNode n).Shows fun svg => n.render svg
  | .document cs, hn => by
    rw [Node.elements] at hn
    simp only [ofNode, Node.render]
    rcases shows_ofFirstElement? cs hn with ⟨hP, hR⟩ | ⟨P, R, hP, hR, h⟩
    · simp only [hP, hR, Option.getD_none]
      exact shows_ofHead cs hn
    · simp only [hP, hR, Option.getD_some]
      exact h
  | .text raw, _ => by
    simp only [ofNode, Node.render]
    exact shows_text raw
  | .element tag as cs, hn => by
    rw [Node.elements] at hn
    have hcs := shows_ofChildren cs fun x hx => hn x (List.mem_cons_of_mem _ hx)
    have hbase := hcs.element tag (Builder.nodup_plain (hn (tag, as) List.mem_cons_self))
    simp only [ofNode, Node.render]
    exact hbase.foldr_nest (Builder.directives as)

theorem shows_ofChildren : ∀ ns : List Node,
    (∀ x ∈ Node.elementsAll ns, (x.2.map (·.name)).Nodup) →
    (ofChildren ns).Shows fun svg => Node.renderAll svg ns
  | [], _ => by
    simp only [ofChildren, Node.renderAll]
    exact shows_nothing
  | n :: ns, hn => by
    rw [Node.elementsAll] at hn
    have h := shows_ofNode n fun x hx => hn x (List.mem_append_left _ hx)
    have hs := shows_ofChildren ns fun x hx => hn x (List.mem_append_right _ hx)
    simp only [ofChildren, Node.renderAll]
    exact h.andThen hs

theorem shows_ofFirstElement? : ∀ ns : List Node,
    (∀ x ∈ Node.elementsAll ns, (x.2.map (·.name)).Nodup) →
    (ofFirstElement? ns = none ∧ ∀ svg, Node.renderFirstElement? svg ns = none) ∨
      ∃ P R, ofFirstElement? ns = some P ∧ (∀ svg, Node.renderFirstElement? svg ns = some (R svg)) ∧
        P.Shows R
  | [], _ => .inl ⟨rfl, fun _ => rfl⟩
  | n :: ns, hn => by
    rw [Node.elementsAll] at hn
    simp only [ofFirstElement?, Node.renderFirstElement?]
    cases n.isElement with
    | true =>
      exact .inr ⟨_, _, rfl, fun _ => rfl,
        shows_ofNode n fun x hx => hn x (List.mem_append_left _ hx)⟩
    | false => exact shows_ofFirstElement? ns fun x hx => hn x (List.mem_append_right _ hx)

theorem shows_ofHead : ∀ ns : List Node, (∀ x ∈ Node.elementsAll ns, (x.2.map (·.name)).Nodup) →
    (ofHead ns).Shows fun svg => Node.renderHead svg ns
  | [], _ => by
    simp only [ofHead, Node.renderHead]
    exact shows_nothing
  | n :: ns, hn => by
    rw [Node.elementsAll] at hn
    simp only [ofHead, Node.renderHead]
    exact shows_ofNode n fun x hx => hn x (List.mem_append_left _ hx)

end

end Picture

/-! ## Compiled trees -/

namespace Workshop

/-- Where a tree was compiled with success it is drawn in the template of its name,
whatever else is compiled before and after. -/
theorem exists_drawn (before after : List (Node × String)) {tree : Node} {name : String}
    (hok : ((compileAll before {}).compile tree name).1 = .ok ()) :
    let c := (compileAll (before ++ (tree, name) :: after) {}).catalog
    ∃ d : Draft, d.Sound ∧ c.get? name = some (d.finish name) ∧
      Picture.ofNode tree c d 0 false (d.slotsAt .root) := by
  intro c
  let all := before ++ (tree, name) :: after
  have hmem : (tree, name) ∈ all := by simp [all]
  have hbefore : (compileAll before {}).catalog.Built (origin all) :=
    (compileAll_spec (fun call h => by simp [all, h]) Catalog.built_empty).1
  obtain ⟨hbuilt, _, hdrawn⟩ := compile_spec (o := origin all) (fun x hx => ⟨_, hmem, hx⟩)
    (fun h => h _ hmem) name hbefore
  obtain ⟨d, hd, hget, hdraw⟩ := hdrawn hok
  have hin : ((compileAll before {}).compile tree name).2.catalog.Within c := by
    have hafter : ∀ call ∈ after, call ∈ all := fun call h => by simp [all, h]
    simpa [c, compileAll] using (compileAll_spec hafter hbuilt).2
  exact ⟨d, hd, hin.get? hget, Picture.stable_ofNode tree hin (.refl .root d) (Nat.le_refl 0)
    Picture.lt_of_root hdraw⟩

end Workshop

/-- Compiling and running agrees with rendering: where a tree without repeated attribute
names was compiled with success, an instance got for plain data succeeds, and its fragment
looks as the tree renders. -/
theorem Catalog.get_renders (before after : List (Node × String)) {tree : Node} {name : String}
    (hok : ((Workshop.compileAll before {}).compile tree name).1 = .ok ())
    (hnames : ∀ x ∈ tree.elements, (x.2.map (·.name)).Nodup) {sc : Scene}
    (hsc : sc.document.Linked) {data : Json} (hdata : data.isPlain = true) :
    let c := (Workshop.compileAll (before ++ (tree, name) :: after) {}).catalog
    ∃ i sc' r shown, c.get name (some data) sc = (.ok i, sc') ∧ i.root = some r ∧
      sc'.document.tree? r = some shown ∧ shown.appear = tree.render false data := by
  intro c
  have hc : c.Built _ := Workshop.built_compileAll (before ++ (tree, name) :: after)
  obtain ⟨d, hd, hget, hdraw⟩ := Workshop.exists_drawn before after hok
  obtain ⟨i, sc', hi, hraised, htemplate, hview⟩ := c.get_raised hc.sound hget hsc (some data)
  have hfilled : i.Filled c sc'.document (c.size + 1) d data := by
    refine ⟨hraised.placed.live, hd, by rw [htemplate]; rfl, ?_,
      by rw [htemplate]; exact hview, hdata⟩
    rw [Catalog.size, List.take_of_length_le (Nat.le_succ _)]
    exact hraised.placed.live.stands.template_mem
  have hblock : sc'.document.children sc.document.size =
      (d.slotsAt .root).flatMap i.slotBlock := by
    rw [hraised.placed.children_eq, List.nil_append, List.append_nil, block_eq, layout,
      hfilled.slotsAt_eq]
  obtain ⟨r, hr, hfragment⟩ := hraised.placed.live.stands.root_fragment
  cases hraised.root_eq.symm.trans hr
  obtain ⟨shown, htree, happear⟩ := Appearance.exists_tree?_of_fragment hfragment
    (hblock ▸ Picture.shows_ofNode tree hnames hc hdraw hfilled)
  exact ⟨i, sc', _, shown, hi, hr, htree, happear⟩

/-- A list of links in vector graphics and of inputs, compiled after a tree that fails. -/
theorem Catalog.get_renders_links :
    let source := "<ul class=\"n \x7b\x7bcount\x7d\x7d\"><li for=\"items\" if=\"on\"><input
      value=\"\x7b\x7bname\x7d\x7d\"/>" ++
      "<svg><a xlink:href=\"\x7b\x7burl\x7d\x7d\">to \x7b\x7bname\x7d\x7d</a></svg></li></ul>"
    let before := [(Node.text "\x7b\x7b..\x7d\x7d", "links")]
    let data := Json.obj [("items",
      .arr [.obj [("on", .obj [("name", .str "a"), ("url", .str "u")])],
      .obj [("on", .bool false)]])]
    let c := (Workshop.compileAll (before ++ [(treeOf source, "links")]) {}).catalog
    (Workshop.compile (.text "\x7b\x7b..\x7d\x7d") "links" {}).1.isOk = false ∧
      read source = .ok (treeOf source) ∧ data.isPlain = true ∧
      ∃ i sc' r shown, c.get "links" (some data) {} = (.ok i, sc') ∧ i.root = some r ∧
        sc'.document.tree? r = some shown ∧ shown.appear = (treeOf source).render false data := by
  intro source before data c
  have hnames : ∀ x ∈ (treeOf source).elements, (x.2.map (·.name)).Nodup := by decide +kernel
  exact ⟨by decide +kernel, read_eq_treeOf (by decide +kernel), by decide +kernel,
    get_renders before [] (by decide +kernel) hnames .empty (by decide +kernel)⟩

end Stencil

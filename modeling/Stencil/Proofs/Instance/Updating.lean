import Stencil.Proofs.Instance.Changes
import Stencil.Proofs.Instance.Reconciling

/-! Updating. Every computation of an instance in place leaves it in place and does to the
view what its definition there says; so do routes, fields and whole updates. No update of
an instance in place fails, and nesting never goes deeper than the catalog allows. -/
namespace Stencil
open Binding Document Instance

namespace Outcome

variable {c : Catalog} {d : Document} {i : Instance} {p : Nat} {pre post : List NodeId}
  {V W : View} {o : Outcome Instance}

theorem Renews.andThen {f : Instance → Scene → Outcome Instance}
    (h : o.Renews c d i p pre post V)
    (hf : ∀ j sc, j.Placed c sc.document p pre post → j.template = i.template →
      j.view sc.document = V → (f j sc).Renews c sc.document j p pre post W) :
    (o.andThen f).Renews c d i p pre post W := by
  obtain ⟨j, sc, rfl, hr, hv⟩ := h
  obtain ⟨k, sc', hk, hr', hv'⟩ := hf j sc hr.placed hr.template_eq hv
  exact ⟨k, sc', hk, hr.trans hr', hv'⟩

theorem edit_ok {f : Document → Except DocumentError Document} {sc : Scene} {e : Document}
    (h : f sc.document = .ok e) : edit f i sc = .ok i { sc with document := e } := by
  rw [edit, h]

theorem renews_edit {f : Document → Except DocumentError Document} {sc : Scene}
    (h : ∃ e, f sc.document = .ok e ∧ Renewed c sc.document e i i p pre post ∧ i.view e = V) :
    (edit f i sc).Renews c sc.document i p pre post V := by
  obtain ⟨e, he, hr, hv⟩ := h
  exact ⟨i, { sc with document := e }, edit_ok he, hr, hv⟩

/-- A loop over steps that follow views follows the loop over views. -/
theorem renews_each {α : Type} {f : α → Instance → Scene → Outcome Instance}
    {g : View → α → View} {t : Template} (as : List α)
    (hf : ∀ a ∈ as, ∀ j sc, j.Placed c sc.document p pre post → j.template = t →
      (f a j sc).Renews c sc.document j p pre post (g (j.view sc.document) a)) :
    ∀ i sc, i.Placed c sc.document p pre post → i.template = t →
      (each f as i sc).Renews c sc.document i p pre post (as.foldl g (i.view sc.document)) := by
  induction as with
  | nil => exact fun i sc hp _ => ⟨i, sc, rfl, hp.renewed, rfl⟩
  | cons a as ih =>
    intro i sc hp ht
    refine (hf a (by simp) i sc hp ht).andThen fun j sc' hj hjt hv => ?_
    rw [List.foldl_cons, ← hv]
    exact ih (fun b hb => hf b (by simp [hb])) j sc' hj (hjt.trans ht)

end Outcome

namespace Instance

/-! ## What is computed -/

theorem text_eq (i : Instance) {value : Interpolation}
    (hv : ∀ v ∈ value.vars, v < i.values.length) :
    i.text value = .ok (value.shown i.values) := by
  induction value with
  | nil => rfl
  | cons x value ih =>
    cases x with
    | literal s =>
      rw [text, ih fun v hm => hv v (by simpa [Interpolation.vars] using hm)]
      rfl
    | var v =>
      have hlt := hv v (by simp [Interpolation.vars])
      have ih := ih fun w hw => hv w (by simp only [Interpolation.vars] at hw ⊢; simp [hw])
      simp [text, List.getElem?_eq_getElem hlt, ih, Interpolation.shown]

theorem propertyValue_eq (i : Instance) (d : Document) {value : Interpolation}
    (hv : ∀ v ∈ value.vars, v < i.values.length) :
    i.propertyValue value = .ok ((i.view d).propertyValue value) := by
  unfold propertyValue View.propertyValue View.value
  rw [view_eq]
  cases hs : value.single? with
  | none => simp [text_eq i hv]
  | some v => simp [List.getElem?_eq_getElem (hv v (Interpolation.mem_vars_of_single? hs))]

variable {c : Catalog} {d : Document} {sc : Scene} {i : Instance} {p : Nat}
  {pre post : List NodeId}

theorem onNode_eq {s : Slot} {n : NodeId} (hn : i.nodes[s]? = some n)
    (f : NodeId → Outcome Instance) : i.onNode s sc f = f n := by
  rw [onNode, hn]

theorem Placed.exists_node (h : i.Placed c sc.document p pre post) {s : Nat}
    (hs : s < i.template.seeds.length) : ∃ n, i.nodes[s]? = some n := by
  rw [← h.live.stands.nodes_length] at hs
  exact ⟨_, List.getElem?_eq_getElem hs⟩

/-- A text takes new content. -/
theorem Placed.exists_setText (h : i.Placed c d p pre post) {s : Slot}
    (hs : i.template.HasText s) {n : NodeId} (hn : i.nodes[s]? = some n) (x : String) :
    ∃ e, d.setText n x = .ok e ∧ Renewed c d e i i p pre post ∧
      i.view e = { i.view d with kinds := (i.view d).kinds.set s (.text x) } := by
  obtain ⟨q, content, hseed⟩ := hs
  obtain ⟨k, hk, hh⟩ := h.live.stands.holds s _ _ hseed hn
  obtain ⟨y, rfl⟩ : ∃ y, k = .text y := by
    cases k with
    | text y => exact ⟨y, rfl⟩
    | element => cases hh
    | fragment => cases hh
  exact ⟨_, setText_text x hk, h.setKind hseed hn (k := .text x) trivial⟩

/-- An element takes new attributes or properties. -/
theorem Placed.exists_editElement (h : i.Placed c d p pre post) {s : Slot}
    (hs : i.template.HasElement s) {n : NodeId} (hn : i.nodes[s]? = some n)
    {f : Element → Element} (hf : ∀ e, (f e).tag = e.tag ∧ (f e).space = e.space) :
    ∃ e, d.editElement n f = .ok e ∧ Renewed c d e i i p pre post ∧
      i.view e = (i.view d).onElement s f := by
  obtain ⟨q, tag, svg, hseed⟩ := hs
  obtain ⟨k, hk, hh⟩ := h.live.stands.holds s _ _ hseed hn
  obtain ⟨el, rfl⟩ := hh.element
  obtain ⟨hr, hv⟩ := h.setKind hseed hn (k := .element (f el)) (hh.onElement hf)
  refine ⟨_, editElement_element f hk, hr, ?_⟩
  have hkind : d.kindOf n = .element el := by rw [kindOf, hk]; rfl
  rw [hv, View.onElement, view_eq, List.modify_eq_set_getElem?, List.getElem?_map, hn]
  simp [hkind, Kind.onElement]

theorem dropAttribute_eq (n : NodeId) (name : String) (d : Document) :
    dropAttribute n name d = d.editElement n (.dropAttribute (Draft.attributeName name)) := by
  unfold dropAttribute Draft.attributeName
  split <;> rfl

/-! ## Computations -/

variable {ts : List Template} {upd : Updater} {vupd : View → Json → View}

/-- A group is brought to one instance for each item, before its anchor. -/
theorem Placed.exists_reconciled (hc : c.Sound) (hu : Updater.Follows c ts upd vupd)
    (h : i.Placed c sc.document p pre post) (ht : i.template.Sound) {dir : Directive}
    {name : String} {s v g : Nat} (hx : .reconcile dir name s v g ∈ i.template.computations)
    {t : Template} (hname : c.get? name = some t) (hts : t ∈ ts) :
    ∃ is n q a b js sc', i.Site p pre post dir name s g is n q a b ∧
      compute c upd (.reconcile dir name s v g) i sc = .ok (i.withGroup g js) sc' ∧
      Row.Becomes c name sc.document sc'.document q a (n :: b) is js ∧
      viewAll sc'.document js = View.render c vupd name
        (dir.items ((i.view sc.document).value v)) (viewAll sc.document is) := by
  obtain ⟨is, n, q, a, b, hs⟩ := h.exists_site ht hx
  have hst := h.live.stands
  have hv : v < i.values.length := hst.values_length ▸ (ht.fits _ hx).2.1
  obtain ⟨js, sc', hjs, hb, hview⟩ := Children.reconcile_follows hc hu hname hts (h.row hs) dir
    (fun hd => hst.present_le name s v g is (hd ▸ hx) hs.group) i.values[v]
  refine ⟨is, n, q, a, b, js, sc', hs, ?_, hb, ?_⟩
  · simp only [compute, onNode, hs.node, List.getElem?_eq_getElem hv, hs.group, hjs]
    rfl
  · rw [hview]
    simp [View.value, view_eq, List.getElem?_eq_getElem hv]

theorem Placed.renews_reconcile (hc : c.Sound) (hu : Updater.Follows c ts upd vupd)
    (h : i.Placed c sc.document p pre post) (ht : i.template.Sound) {dir : Directive}
    {name : String} {s v g : Nat} (hx : .reconcile dir name s v g ∈ i.template.computations)
    {t : Template} (hname : c.get? name = some t) (hts : t ∈ ts) :
    (compute c upd (.reconcile dir name s v g) i sc).Renews c sc.document i p pre post
      ((i.view sc.document).compute c vupd (.reconcile dir name s v g)) := by
  obtain ⟨is, n, q, a, b, js, sc', hs, hjs, hb, hview⟩ := h.exists_reconciled hc hu ht hx hname hts
  refine ⟨i.withGroup g js, sc', hjs, h.withGroup hs hb fun hd => ?_,
    h.view_withGroup hs hb _ hview⟩
  have hlen := congrArg List.length hview
  simp only [viewAll_eq, List.length_map, View.render, hname, List.length_append,
    List.length_zipWith, List.length_drop] at hlen
  have : (dir.items ((i.view sc.document).value v)).length ≤ 1 := by
    subst hd
    unfold Directive.items
    simp only
    split <;> simp
  omega

/-- Takes away an attribute, and a property that may have been set for it. -/
theorem Placed.renews_drop (h : i.Placed c sc.document p pre post) {s : Slot}
    (hs : i.template.HasElement s) {n : NodeId} (hn : i.nodes[s]? = some n) (name : String)
    (setter : Computation) :
    ((Outcome.edit (dropAttribute n name) i sc).andThen fun i sc =>
        match setter with
        | .setProperty _ q _ => .edit (·.removeProperty n q) i sc
        | _ => .ok i sc).Renews c sc.document i p pre post
      (let v := (i.view sc.document).onElement s (.dropAttribute (Draft.attributeName name))
      match setter with
      | .setProperty _ q _ => v.onElement s (.dropProperty q)
      | _ => v) := by
  obtain ⟨e, he, hr, hv⟩ :=
    h.exists_editElement hs hn (f := .dropAttribute (Draft.attributeName name)) fun _ => ⟨rfl, rfl⟩
  rw [Outcome.edit_ok ((dropAttribute_eq n name _).trans he)]
  cases setter with
  | setProperty _ q _ =>
    obtain ⟨e', he', hr', hv'⟩ :=
      hr.placed.exists_editElement hs hn (f := .dropProperty q) fun _ => ⟨rfl, rfl⟩
    exact ⟨i, { sc with document := e' }, Outcome.edit_ok (f := (·.removeProperty n q)) he',
      hr.trans hr', hv'.trans (by rw [hv])⟩
  | setText | setAttribute | unlessFalse | reconcile => exact ⟨i, _, rfl, hr, hv⟩

theorem Placed.renews_compute (hc : c.Sound) (hu : Updater.Follows c ts upd vupd)
    (h : i.Placed c sc.document p pre post) (ht : i.template.Sound)
    (hnested : ∀ dir name s v g, .reconcile dir name s v g ∈ i.template.computations →
      ∃ t ∈ ts, c.get? name = some t) (x : Computation) (hfit : i.template.Fits x)
    (hx : x.anchored? = none ∨ x ∈ i.template.computations) :
    (compute c upd x i sc).Renews c sc.document i p pre post
      ((i.view sc.document).compute c vupd x) := by
  have hvars : ∀ {value : Interpolation}, (∀ v ∈ value.vars, v < i.template.varCount) →
      ∀ v ∈ value.vars, v < i.values.length := fun hv v hm =>
    h.live.stands.values_length ▸ hv v hm
  have hshown : ∀ value : Interpolation,
      value.shown i.values = value.shown (i.view sc.document).values := fun _ => by rw [view_eq]
  induction x with
  | setText s value =>
    obtain ⟨n, hn⟩ := h.exists_node (Template.lt_of_hasText hfit.1)
    rw [compute, onNode_eq hn, text_eq i (hvars hfit.2)]
    exact Outcome.renews_edit (hshown value ▸ h.exists_setText hfit.1 hn _)
  | setProperty s name value =>
    obtain ⟨n, hn⟩ := h.exists_node (Template.lt_of_hasElement hfit.1)
    rw [compute, onNode_eq hn, propertyValue_eq i sc.document (hvars hfit.2)]
    exact Outcome.renews_edit (h.exists_editElement hfit.1 hn fun _ => ⟨rfl, rfl⟩)
  | setAttribute s space name value =>
    obtain ⟨n, hn⟩ := h.exists_node (Template.lt_of_hasElement hfit.1)
    rw [compute, onNode_eq hn, text_eq i (hvars hfit.2)]
    exact Outcome.renews_edit (hshown value ▸ h.exists_editElement hfit.1 hn fun _ => ⟨rfl, rfl⟩)
  | unlessFalse s name v setter ih =>
    obtain ⟨hel, hv, hnone, hset⟩ := hfit
    obtain ⟨n, hn⟩ := h.exists_node (Template.lt_of_hasElement hel)
    have hlt : v < i.values.length := h.live.stands.values_length ▸ hv
    have hvalue : (i.view sc.document).value v = i.values[v] := by
      simp [View.value, view_eq, List.getElem?_eq_getElem hlt]
    rw [compute, View.compute, List.getElem?_eq_getElem hlt, hvalue]
    dsimp only
    split
    · rw [onNode_eq hn]
      exact h.renews_drop hel hn name setter
    · exact ih hset (.inl hnone)
  | reconcile dir name s v g =>
    have hm := hx.resolve_left (by simp [Computation.anchored?])
    obtain ⟨t, hts, hname⟩ := hnested dir name s v g hm
    exact h.renews_reconcile hc hu ht hm hname hts

/-! ## Routes, fields and updates -/

theorem Placed.renews_bind (h : i.Placed c sc.document p pre post) (data : Json)
    (b : Var × List String) (hb : b.1 < i.template.varCount) :
    (bind data b i sc).Renews c sc.document i p pre post
      { i.view sc.document with
        values := (i.view sc.document).values.set b.1 (data.follow b.2) } := by
  have hlt : b.1 < i.values.length := h.live.stands.values_length ▸ hb
  have hst := h.live.stands
  refine ⟨{ i with values := i.values.set b.1 (data.follow b.2) }, sc, by rw [bind, if_pos hlt],
    ⟨⟨h.linked, .intro ⟨hst.template_mem, hst.root_fragment, hst.nodes_length, ?_,
      hst.groups_length, hst.holds, hst.children_eq, hst.present_le, hst.nested⟩ h.live.nested, ?_,
      h.not_mem, ?_⟩, rfl, rfl, fun x hx => .inl hx, .refl _ _, rfl, rfl⟩, ?_⟩
  · simpa using hst.values_length
  · have hnd := h.nodup
    rw [owned_eq] at hnd ⊢
    exact hnd
  · have hch := h.children_eq
    rw [block_eq] at hch ⊢
    exact hch
  · rw [view_eq, view_eq]

theorem bind_eq_foldl (bs : List (Var × List String)) (data : Json) (V : View) :
    bs.foldl (fun V b => { V with values := V.values.set b.1 (data.follow b.2) }) V =
      V.bind bs data := by
  induction bs generalizing V with
  | nil => cases V; rfl
  | cons b bs ih => rw [List.foldl_cons, ih]; rfl

theorem Placed.renews_follow (hc : c.Sound) (hu : Updater.Follows c ts upd vupd)
    (h : i.Placed c sc.document p pre post) (ht : i.template.Sound)
    (hnested : ∀ dir name s v g, .reconcile dir name s v g ∈ i.template.computations →
      ∃ t ∈ ts, c.get? name = some t) {r : Route} (hr : r ∈ i.template.routes) (data : Json) :
    (follow c upd r data i sc).Renews c sc.document i p pre post
      ((i.view sc.document).follow c vupd r data) := by
  have hbind := Outcome.renews_each (t := i.template) (f := bind data)
    (g := fun V b => { V with values := V.values.set b.1 (data.follow b.2) }) r.bindings
    (fun b hb j sc' hj hjt => hj.renews_bind data b (hjt ▸ ht.binding_lt r hr b hb)) i sc h rfl
  refine hbind.andThen fun j sc' hj hjt hv => ?_
  rw [View.follow, ← bind_eq_foldl, ← hv]
  refine Outcome.renews_each (t := i.template) (g := View.runComputation c vupd) r.computations
    (fun k hk j sc' hj hjt => ?_) j sc' hj hjt
  have hlt : k < j.template.computations.length := hjt ▸ ht.computation_lt r hr k hk
  have hm := List.getElem_mem hlt
  have hview : (j.view sc'.document).template = j.template := by rw [view_eq]
  rw [runComputation, View.runComputation, hview, List.getElem?_eq_getElem hlt]
  exact hj.renews_compute hc hu (hjt ▸ ht) (hjt ▸ hnested) _ ((hjt ▸ ht).fits _ hm) (.inr hm)

theorem Placed.renews_updateWith (hc : c.Sound) (hu : Updater.Follows c ts upd vupd)
    (h : i.Placed c sc.document p pre post)
    (hnested : ∀ dir name s v g, .reconcile dir name s v g ∈ i.template.computations →
      ∃ t ∈ ts, c.get? name = some t) (data : Json) :
    (updateWith c upd i data sc).Renews c sc.document i p pre post
      ((i.view sc.document).updateWith c vupd data) := by
  have ht := hc.template _ h.live.stands.template_mem
  rw [updateWith, mount_of_isSome h.live.stands.isSome_root]
  cases data with
  | obj fields =>
    refine Outcome.renews_each (t := i.template) (g := View.takeField c vupd) fields
      (fun f _ j sc' hj hjt => ?_) i sc h rfl
    have hview : (j.view sc'.document).template = j.template := by rw [view_eq]
    rw [takeField, View.takeField, hview]
    cases hroute : j.template.route? f.1 with
    | none => exact ⟨j, _, rfl, hj.renewed, rfl⟩
    | some r =>
      exact hj.renews_follow hc hu (hjt ▸ ht) (hjt ▸ hnested) (List.mem_of_find?_eq_some hroute) f.2
  | null | bool | num | str | arr => exact ⟨i, _, rfl, h.renewed, rfl⟩

/-- Instances of the first templates of a catalog are updated through as many levels. -/
theorem updateTo_follows (hc : c.Sound) (n : Nat) :
    Updater.Follows c (c.templates.take n) (updateTo c n) (View.updateTo c n) := by
  induction n with
  | zero =>
    intro i data sc p pre post ht
    cases ht
  | succ n ih =>
    intro i data sc p pre post ht h
    exact h.renews_updateWith hc ih (fun _ _ _ _ _ hx => hc.exists_nested ht hx) data

/-- No update of an instance in place fails. -/
theorem Placed.renews_update (hc : c.Sound) (h : i.Placed c sc.document p pre post) (data : Json) :
    (update c i data sc).Renews c sc.document i p pre post
      (View.updateTo c (c.size + 1) (i.view sc.document) data) := by
  exact updateTo_follows hc (c.size + 1) i data sc p pre post
    (Catalog.mem_take h.live.stands.template_mem) h

/-! ## New instances -/

/-- A new instance in its own fragment, the first of the new nodes. -/
structure Raised (c : Catalog) (d e : Document) (i : Instance) : Prop where
  root_eq : i.root = some d.size
  placed : i.Placed c e d.size [] []
  fresh : ∀ x : Nat, x ∈ i.owned → d.size ≤ x
  size_lt : d.size < e.size
  old : ∀ x : Nat, x < d.size → e.get? x = d.get? x

theorem Mounted.raised {t : Template} {e : Document} (h : Mounted c t d e i) : Raised c d e i where
  root_eq := h.root_eq
  placed := by
    refine ⟨h.linked, h.live, h.nodup, ?_, by simpa using h.children_eq⟩
    have hnd := h.nodup
    rw [owned_eq, h.root_eq] at hnd
    exact (List.nodup_cons.mp hnd).1
  fresh := h.fresh
  size_lt := h.size_lt
  old := h.old

theorem Raised.renewed {e f : Document} {j : Instance} (h : Raised c d e i)
    (hr : Renewed c e f i j d.size [] []) : Raised c d f j where
  root_eq := hr.root_eq.trans h.root_eq
  placed := hr.placed
  fresh x hx := by
    rw [owned_eq, hr.root_eq, h.root_eq] at hx
    rcases List.mem_append.mp hx with hx | hx
    · have hxd : x = d.size := by simpa using hx
      exact Nat.le_of_eq hxd.symm
    · rcases hr.fresh x hx with hx | hx
      · exact h.fresh x (body_subset_owned i hx)
      · exact Nat.le_trans (Nat.le_of_lt h.size_lt) hx
  size_lt := Nat.lt_of_lt_of_le h.size_lt hr.changes.size_le
  old x hx := by
    refine (hr.changes.get?_eq x (Nat.lt_trans hx h.size_lt) ?_).trans (h.old x hx)
    rintro (hm | rfl)
    · exact absurd (h.fresh x (body_subset_owned i hm)) (Nat.not_le_of_lt hx)
    · exact Nat.lt_irrefl _ hx

end Instance

/-- What a new instance shows. -/
def View.first (c : Catalog) (t : Template) : Option Json → View
  | none => .new t
  | some data => View.updateTo c (c.size + 1) (.new t) data

theorem Catalog.get_raised {c : Catalog} (hc : c.Sound) {name : String} {t : Template}
    (ht : c.get? name = some t) {sc : Scene} (hl : sc.document.Linked) (data : Option Json) :
    ∃ i sc', c.get name data sc = (.ok i, sc') ∧ Raised c sc.document sc'.document i ∧
      i.template = t ∧ i.view sc'.document = View.first c t data := by
  obtain ⟨i, d, hi, hm⟩ := Catalog.instantiate_eq hc ht hl
  unfold get
  rw [hi]
  cases data with
  | none => exact ⟨i, _, rfl, hm.raised, hm.template_eq, hm.view_eq⟩
  | some data =>
    let sc₁ : Scene := { sc with document := d, created := sc.created + 1 }
    have hp : i.Placed c sc₁.document sc.document.size [] [] := hm.raised.placed
    obtain ⟨j, sc', hj, hr, hv⟩ := hp.renews_update hc data
    refine ⟨j, sc', ?_, hm.raised.renewed hr, hr.template_eq.trans hm.template_eq, ?_⟩
    · simp only [sc₁] at hj
      simp only [hj, Outcome.ok]
    · rw [hv, View.first]
      exact congrArg (View.updateTo c (c.size + 1) · data) hm.view_eq

end Stencil

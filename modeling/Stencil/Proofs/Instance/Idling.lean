import Stencil.Proofs.Instance.Knowing
import Stencil.Proofs.Instance.Updating

/-! Updates that change nothing. What is done already leaves the document as it is when it is
done again, to the order of attributes and properties; a group with one instance for each item
keeps them; and so an update with data that the instance knows only adds to the log. -/
namespace Stencil
open Binding Document

/-! ## Documents that stay -/

namespace Document

theorem setKind_self {d : Document} {n : NodeId} {k : Kind} (h : d.kind? n = some k) :
    d.setKind n k = d := by
  obtain ⟨e, he, rfl⟩ := Option.map_eq_some_iff.mp h
  unfold setKind edit
  congr 1
  refine Array.ext_getElem? fun m => ?_
  rw [Array.getElem?_modify]
  split
  · rename_i hm
    subst hm
    rw [get?] at he
    rw [he]
    rfl
  · rfl

theorem Attr.put_self {space : Option String} {name value : String} {as : List Attr}
    (h : (as.find? (·.isNamed space name)).map (·.value) = some value) :
    Attr.put space name value as = as := by
  induction as with
  | nil => cases h
  | cons a as ih =>
    rw [Attr.put]
    by_cases ha : a.isNamed space name = true
    · rw [List.find?_cons_of_pos ha, Option.map_some, Option.some.injEq] at h
      rw [if_pos ha, ← h]
    · rw [List.find?_cons_of_neg ha] at h
      rw [if_neg ha, ih h]

theorem putProperty_self {name : String} {value : Json} {ps : List (String × Json)}
    (h : (ps.find? (·.1 == name)).map (·.2) = some value) : putProperty name value ps = ps := by
  induction ps with
  | nil => cases h
  | cons p ps ih =>
    rw [putProperty]
    by_cases hp : p.1 = name
    · rw [List.find?_cons_of_pos (by simpa using hp), Option.map_some, Option.some.injEq] at h
      rw [if_pos hp, ← h, ← hp]
    · rw [List.find?_cons_of_neg (by simpa using hp)] at h
      rw [if_neg hp, ih h]

namespace Element

variable {e : Element}

theorem putAttribute_self {key : Option String × String} {value : String}
    (h : e.attribute? key = some value) : e.putAttribute key value = e := by
  rw [putAttribute, Attr.put_self h]

theorem putProperty_self {name : String} {value : Json} (h : e.property? name = some value) :
    e.putProperty name value = e := by
  rw [putProperty, Document.putProperty_self h]

theorem dropAttribute_self {key : Option String × String} (h : e.attribute? key = none) :
    e.dropAttribute key = e := by
  rw [attribute?, Option.map_eq_none_iff, List.find?_eq_none] at h
  rw [dropAttribute, List.filter_eq_self.mpr fun a ha => by simpa using h a ha]

theorem dropProperty_self {name : String} (h : e.property? name = none) :
    e.dropProperty name = e := by
  rw [property?, Option.map_eq_none_iff, List.find?_eq_none] at h
  rw [dropProperty, List.filter_eq_self.mpr fun p hp => by simpa using h p hp]

end Element

theorem editElement_self {d : Document} {n : NodeId} {e : Element} (hn : d.element? n = some e)
    {f : Element → Element} (hf : f e = e) : d.editElement n f = .ok d := by
  have hkind : d.kind? n = some (.element e) := by
    unfold element? at hn
    split at hn
    · cases hn
      assumption
    · cases hn
  rw [editElement_element f hkind, hf, setKind_self hkind]

end Document

/-! ## Outcomes that only tell -/

namespace Outcome

variable {σ α : Type} {s : σ} {sc : Scene} {o : Outcome σ}

/-- All is as before, but for what there is to tell. -/
def Idle (o : Outcome σ) (s : σ) (sc : Scene) : Prop := ∃ log, o = .ok s { sc with log := log }

theorem idle_ok (s : σ) (sc : Scene) : (ok s sc).Idle s sc := ⟨sc.log, rfl⟩

theorem idle_edit {f : Document → Except DocumentError Document}
    (hf : f sc.document = .ok sc.document) : (edit f s sc).Idle s sc := by
  rw [edit, hf]
  exact idle_ok s sc

theorem Idle.of_tell {e : Event} (h : o.Idle s (sc.tell e)) : o.Idle s sc := h

theorem Idle.andThen {f : σ → Scene → Outcome σ} (h : o.Idle s sc)
    (hf : ∀ log, (f s { sc with log := log }).Idle s { sc with log := log }) :
    (o.andThen f).Idle s sc := by
  obtain ⟨log, rfl⟩ := h
  obtain ⟨log', h'⟩ := hf log
  exact ⟨log', h'⟩

theorem idle_each {f : α → σ → Scene → Outcome σ} {as : List α}
    (hf : ∀ a ∈ as, ∀ log, (f a s { sc with log := log }).Idle s { sc with log := log }) :
    (each f as s sc).Idle s sc := by
  induction as generalizing sc with
  | nil => exact idle_ok s sc
  | cons a as ih =>
    refine (hf a List.mem_cons_self sc.log).andThen fun log => ?_
    exact ih fun b hb log' => hf b (List.mem_cons_of_mem _ hb) log'

end Outcome

/-! ## Groups that stay -/

namespace Children

open Outcome

variable {c : Catalog} {upd : Updater} {name : String} {anchor : NodeId} {is : List Instance}
  {items : List Json} {sc : Scene}

/-- The instances are idle with the items at their places. -/
def AllIdle (upd : Updater) (is : List Instance) (items : List Json) (sc : Scene) : Prop :=
  ∀ (k : Nat) j x, is[k]? = some j → items[k]? = some x →
    ∀ log, (upd j x { sc with log := log }).Idle j { sc with log := log }

theorem idle_updateEach (h : AllIdle upd is items sc) :
    (updateEach upd is items sc).Idle is sc := by
  induction is generalizing items sc with
  | nil =>
    rw [updateEach]
    · exact idle_ok [] sc
    · intro i is v vs hi
      cases hi
  | cons i is ih =>
    cases items with
    | nil =>
      rw [updateEach]
      · exact idle_ok _ sc
      · intro i is v vs _ hv
        cases hv
    | cons x items =>
      obtain ⟨log, hlog⟩ := h 0 i x rfl rfl sc.log
      obtain ⟨log', hlog'⟩ := @ih items { sc with log := log } fun k j y hj hy =>
        h (k + 1) j y hj hy
      refine ⟨log', ?_⟩
      have hupd : upd i x sc = .ok i { sc with log := log } := hlog
      simp only [updateEach, hupd, ok, hlog']

theorem idle_renderEach (hlength : is.length = items.length) (h : AllIdle upd is items sc) :
    (renderEach c upd name anchor items is sc).Idle is sc := by
  have hshrink : ∀ sc, shrink name items.length is sc = (is, sc) := by
    intro sc
    rw [shrink, ← hlength, List.take_length, List.drop_length]
    rfl
  have heach : (updateEach upd is items (sc.tell (.reconciling name is.length items.length))).Idle
      is (sc.tell (.reconciling name is.length items.length)) := idle_updateEach h
  simp only [renderEach, hshrink]
  refine (heach.andThen fun log => ?_).of_tell
  rw [if_pos (Nat.le_of_eq hlength.symm)]
  exact idle_ok is _

/-- A directive keeps a group that has one instance for each item. -/
theorem idle_reconcile {dir : Directive} {v : Json} (hlength : is.length = (dir.items v).length)
    (h : AllIdle upd is (dir.items v) sc) :
    (reconcile c upd name dir anchor v is sc).Idle is sc := by
  cases dir with
  | onTruthy => exact idle_renderEach hlength h
  | forEach =>
    rw [reconcile, renderItems]
    rw [Directive.items] at hlength h
    cases hv : v.items? with
    | some items =>
      rw [hv] at hlength h
      exact idle_renderEach hlength h
    | none =>
      rw [hv] at hlength h
      exact Idle.of_tell (e := .notSequence name v) (idle_renderEach hlength h)
  | onPresent =>
    rw [reconcile]
    unfold renderPresent
    rw [Directive.items] at hlength h
    by_cases hv : v.isPresent = true
    · rw [if_pos hv] at hlength h ⊢
      obtain ⟨i, rfl⟩ := List.length_eq_one_iff.mp hlength
      obtain ⟨log, hlog⟩ := h 0 i v rfl rfl sc.log
      have hupd : upd i v sc = .ok i { sc with log := log } := hlog
      exact ⟨log, by simp only [hupd, ok]⟩
    · rw [if_neg hv] at hlength ⊢
      obtain rfl := List.eq_nil_of_length_eq_zero hlength
      exact idle_ok [] sc

end Children

/-! ## Instances that stay -/

namespace Instance

open Outcome

variable {c : Catalog} {upd : Updater} {i : Instance} {sc : Scene}

theorem idle_bind {data : Json} {b : Var × List String}
    (h : i.values[b.1]? = some (data.follow b.2)) : (bind data b i sc).Idle i sc := by
  obtain ⟨hlt, hvalue⟩ := List.getElem?_eq_some_iff.mp h
  rw [bind, if_pos hlt, ← hvalue, List.set_getElem_self hlt]
  cases i
  exact idle_ok _ sc

/-- To do again what is done changes nothing. -/
theorem idle_compute (h : i.Stands c sc.document) (x : Computation) (hfit : i.template.Fits x)
    (hdone : (i.view sc.document).Done x)
    (hnested : ∀ dir name s v g is, x = .reconcile dir name s v g → i.groups[g]? = some is →
      Children.AllIdle upd is (dir.items ((i.view sc.document).value v)) sc) :
    (compute c upd x i sc).Idle i sc := by
  have hvars : ∀ {value : Interpolation}, (∀ v ∈ value.vars, v < i.template.varCount) →
      ∀ v ∈ value.vars, v < i.values.length := fun hv v hm => h.values_length ▸ hv v hm
  have hvalue : ∀ {v}, v < i.template.varCount →
      i.values[v]? = some ((i.view sc.document).value v) := by
    intro v hv
    rw [View.value, view_eq, List.getElem?_eq_getElem (h.values_length ▸ hv), Option.getD_some]
  induction x with
  | setText s value =>
    obtain ⟨n, hn, hk⟩ := exists_of_text? hdone
    rw [compute, onNode_eq hn, text_eq i (hvars hfit.2)]
    refine idle_edit ?_
    rw [view_eq] at hk
    rw [setText_text _ hk, setKind_self hk]
  | setProperty s name value =>
    obtain ⟨e, he, hp⟩ := Option.bind_eq_some_iff.mp hdone
    obtain ⟨n, hn, hk⟩ := exists_of_element? he
    rw [compute, onNode_eq hn, propertyValue_eq i sc.document (hvars hfit.2)]
    exact idle_edit (editElement_self hk (Element.putProperty_self hp))
  | setAttribute s space name value =>
    obtain ⟨e, he, ha⟩ := Option.bind_eq_some_iff.mp hdone
    obtain ⟨n, hn, hk⟩ := exists_of_element? he
    rw [compute, onNode_eq hn, text_eq i (hvars hfit.2)]
    rw [view_eq] at ha
    exact idle_edit (editElement_self hk (Element.putAttribute_self ha))
  | unlessFalse s name v setter ih =>
    obtain ⟨hel, hv, hnone, hset⟩ := hfit
    rw [compute, hvalue hv]
    rw [View.Done] at hdone
    dsimp only
    by_cases hfalse : ((i.view sc.document).value v).isFalse = true
    · rw [if_pos hfalse] at hdone ⊢
      obtain ⟨e, he⟩ := (h.shaped).exists_element (by rw [view_eq]; exact hel)
      obtain ⟨n, hn, hk⟩ := exists_of_element? he
      rw [onNode_eq hn]
      have hattr : e.attribute? (Draft.attributeName name) = none := by
        simpa [View.attribute?, he] using hdone.1
      refine Idle.andThen (idle_edit ?_) fun log => ?_
      · rw [dropAttribute_eq]
        exact editElement_self hk (Element.dropAttribute_self hattr)
      · cases setter with
        | setProperty q p value =>
          have hprop : e.property? p = none := by
            simpa [View.property?, he] using hdone.2 p rfl
          exact idle_edit (editElement_self hk (Element.dropProperty_self hprop))
        | setText | setAttribute | unlessFalse | reconcile => exact idle_ok i _
    · rw [if_neg hfalse] at hdone ⊢
      refine ih hset hdone fun dir name s v g is hx => ?_
      rw [hx] at hnone
      cases hnone
  | reconcile dir name s v g =>
    obtain ⟨vs, hg, hlength⟩ := hdone
    obtain ⟨is, his, rfl⟩ := exists_of_groups hg
    rw [List.length_map] at hlength
    obtain ⟨⟨q, hseed⟩, hv, _⟩ := hfit
    obtain ⟨n, _, hn, _⟩ := h.exists_node hseed
    have hidle :
        (Children.reconcile c upd name dir n ((i.view sc.document).value v) is sc).Idle is sc :=
      Children.idle_reconcile hlength (hnested dir name s v g is rfl his)
    obtain ⟨log, hlog⟩ := hidle
    rw [compute, onNode_eq hn, hvalue hv, his]
    refine ⟨log, ?_⟩
    have hset : i.groups.set g is = i.groups := by
      obtain ⟨hlt, rfl⟩ := List.getElem?_eq_some_iff.mp his
      exact List.set_getElem_self hlt
    simp only [hlog, ok, hset]
    cases i
    rfl

/-- What one update with known data does, given what nested ones do. -/
theorem idle_updateWith (hc : c.Sound) (hrt : i.template.Routed) {n : Nat}
    (hupd : ∀ j x sc, j.template ∈ c.templates.take n → j.Live c sc.document →
      (j.view sc.document).Knows x → (upd j x sc).Idle j sc)
    (hm : i.template ∈ c.templates.take (n + 1)) (h : i.Live c sc.document) {data : Json}
    (hdata : (i.view sc.document).Knows data) : (updateWith c upd i data sc).Idle i sc := by
  have hst := h.stands
  have ht := hc.template _ hst.template_mem
  have htemplate : (i.view sc.document).template = i.template := by rw [view_eq]
  rw [updateWith, mount_of_isSome hst.isSome_root]
  cases hdata with
  | other no_object =>
    cases data with
    | obj fields => exact absurd rfl (no_object fields)
    | null | bool | num | str | arr => exact ⟨_, rfl⟩
  | @object _ fields values done nested =>
    rw [htemplate] at values done nested
    show (each (takeField c upd) fields i sc).Idle i sc
    refine idle_each fun f hf log => ?_
    rw [takeField]
    cases hroute : i.template.route? f.1 with
    | none => exact ⟨_, rfl⟩
    | some r =>
      have hr : r ∈ i.template.routes := List.mem_of_find?_eq_some hroute
      have hrun : ∀ k ∈ r.computations, ∀ log,
          (runComputation c upd k i { sc with log := log }).Idle i { sc with log := log } := by
        intro k hk log
        have hlt := ht.computation_lt r hr k hk
        have hx := List.getElem?_eq_getElem hlt
        have hmem := List.getElem_mem hlt
        have hreach : View.Reaches i.template _ f :=
          ⟨r, hroute, (hrt.mem_computations r hr k _ hx).mp hk⟩
        have hst' : i.Stands c ({ sc with log := log } : Scene).document := hst
        rw [runComputation, hx]
        refine idle_compute hst' _ (ht.fits _ hmem) (done f hf _ hmem hreach) ?_
        intro dir name s v g is he hg m j y hj hy log'
        rw [he] at hmem hreach
        obtain ⟨u, hu, hget⟩ := hc.exists_nested hm hmem
        have hjm := List.mem_of_getElem? hj
        cases (hst.nested dir name s v g is hmem hg j hjm).1.symm.trans hget
        refine hupd j y _ hu (h.nested is (List.mem_of_getElem? hg) j hjm) ?_
        exact nested f hf dir name s v g hmem hreach _ (groups_view hg) m _ y (by simp [hj]) hy
      refine Idle.andThen (idle_each fun b hb log => idle_bind ?_) fun log =>
        idle_each fun k hk log => hrun k hk log
      have hvalue := values f hf r hroute b hb
      rwa [view_eq] at hvalue

/-- An update with data that the instance knows leaves all as it is. -/
theorem idle_updateTo (hc : c.Sound) (hrt : ∀ t ∈ c.templates, t.Routed) {n : Nat}
    (hm : i.template ∈ c.templates.take n) (h : i.Live c sc.document) {data : Json}
    (hdata : (i.view sc.document).Knows data) : (updateTo c n i data sc).Idle i sc := by
  induction n generalizing i data sc with
  | zero => cases hm
  | succ n ih =>
    exact idle_updateWith hc (hrt _ (List.mem_of_mem_take hm))
      (fun _ _ _ hj hlive hknows => ih hj hlive hknows) hm h hdata

end Instance
end Stencil

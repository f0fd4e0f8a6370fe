import Stencil.Proofs.Run.Stage
import Stencil.Proofs.Template.Building

/-! Removal. An instance that stands in a container of the host is removed by taking the
nodes of its block out of the container, none of which is refused. They have no parent
afterwards, and every other node is as it was. An instance that has no host yet keeps its
own nodes in its fragment, but not the instances nested beside its root slots. -/
namespace Stencil
open Document Instance Markup

namespace Stage

variable {c : Catalog} {o : Origin} {st : Stage} {a : Actor} {p : Nat}

theorem Good.letGo (hc : c.Sound) (h : st.Good c) (ha : a ∈ st.actors) (hp : a.host = some p) :
    LetGo p a.inst.block st.scene.document (a.inst.remove st.scene.document).2 := by
  obtain ⟨⟨pre, post, hpl⟩, _, hm, _⟩ := (h.settled a ha).hosted p hp
  exact remove_letGo hc hpl.live hpl.nodup hm hpl.parent?_block

theorem Good.phase_remove (hc : c.Built o) (ho : o.single) (h : st.Good c) (ha : a ∈ st.actors)
    (hp : a.host = some p) : (a.inst.remove st.scene.document).1.phase = .detached := by
  obtain ⟨⟨pre, post, hpl⟩, _, hm, _⟩ := (h.settled a ha).hosted p hp
  obtain ⟨s, hs⟩ := hc.exists_rootSlot ho hpl.live.stands.template_mem
  have hroot : s ∈ a.inst.template.rootSlots := by simp [hs]
  exact remove_phase hc.sound hpl.live hpl.nodup hm hpl.parent?_block hroot

/-- Over any catalog compiled from sources: whatever updates an instance took before and
after it was put into a host, its removal takes the nodes of its block out of the host and
leaves all else alone. To give it back is to remove and to count it. -/
theorem remove_takes_block (calls : List (Node × String))
    (hcalls : ∀ call ∈ calls, ∃ source, read source = .ok call.1) {st : Stage}
    (h : Reached (Workshop.compileAll calls {}).catalog st) {a : Actor} (ha : a ∈ st.actors)
    {p : NodeId} (hp : a.host = some p) (name : String) :
    ∃ i d, a.inst.remove st.scene.document = (i, d) ∧
      a.inst.release name st.scene = (i, { st.scene with
        document := d
        released := st.scene.released + 1
        log := st.scene.log ++ [.releasing name] }) ∧
      a.inst.block.foldlM (fun d n => d.removeChild p n) st.scene.document = .ok d ∧
      LetGo p a.inst.block st.scene.document d ∧
      (∃ pre post, st.scene.document.children p = pre ++ a.inst.block ++ post ∧
        d.children p = pre ++ post) ∧
      i.phase = .detached := by
  have hc := Workshop.built_compileAll calls
  have ho := Workshop.single_origin hcalls
  have hgood := h.good hc.sound
  obtain ⟨⟨pre, post, hpl⟩, _⟩ := (hgood.settled a ha).hosted p hp
  have hletGo := hgood.letGo hc.sound ha hp
  have hnodup := hgood.linked.nodup_children p
  rw [hpl.children_eq] at hnodup
  refine ⟨_, _, rfl, rfl, ?_, hletGo, ⟨pre, post, hpl.children_eq, ?_⟩,
    hgood.phase_remove hc ho ha hp⟩
  · have hblock := (List.nodup_append.mp (List.nodup_append.mp hnodup).1).2.1
    obtain ⟨e, he, hg⟩ := LetGo.foldlM_removeChild a.inst.block _ hblock hpl.parent?_block
    rw [he, hg.unique hletGo]
  · rw [hletGo.children_eq, if_pos rfl, hpl.children_eq, Row.filter_not_mem_middle hnodup]

/-- A list that stands between two others is removed with its two items. -/
theorem remove_takes_block_list :
    let source := "<li for=\"items\">\x7b\x7bname\x7d\x7d</li>"
    ∃ tree, read source = .ok tree ∧
      let c := (Workshop.compileAll [(tree, "list")] {}).catalog
      let items (ss : List String) : Json :=
        .obj [("items", .arr (ss.map fun s => .obj [("name", .str s)]))]
      let st := performAll c [.create (.element { tag := "ul" }), .get "list" (some (items ["a"])),
        .get "list" none, .get "list" (some (items ["d"])), .update 1 (items ["b"]), .host 0 0,
        .host 0 1, .host 0 2, .update 1 (items ["b", "c"])] ⟨{}, []⟩
      ∃ a i d, st.actors[1]? = some a ∧ a.inst.block.length = 3 ∧
        a.inst.remove st.scene.document = (i, d) ∧ i.phase = .detached ∧
        LetGo 0 a.inst.block st.scene.document d ∧
        ∃ pre post, st.scene.document.children 0 = pre ++ a.inst.block ++ post ∧
          d.children 0 = pre ++ post := by
  intro source
  have hread : read source = .ok (treeOf source) := read_eq_treeOf (by decide +kernel)
  refine ⟨treeOf source, hread, ?_⟩
  intro c items st
  have hst : Reached c st := (Reached.start {} .empty).performAll (by decide +kernel)
  have hsecond : st.actors[1]?.map (fun a => (a.host, a.inst.block.length)) = some (some 0, 3) := by
    decide +kernel
  obtain ⟨a, ha, hhost⟩ := Option.map_eq_some_iff.mp hsecond
  obtain ⟨i, d, hremove, _, _, hletGo, ⟨pre, post, hbefore, hafter⟩, hphase⟩ :=
    remove_takes_block [(treeOf source, "list")]
      (fun call hcall => ⟨source, by rw [List.mem_singleton.mp hcall]; exact hread⟩) hst
      (List.mem_of_getElem? ha) (congrArg Prod.fst hhost) "list"
  exact ⟨a, i, d, ha, congrArg Prod.snd hhost, hremove, hphase, hletGo, pre, post, hbefore, hafter⟩

/-! ## Before there is a host -/

/-- Over any catalog compiled from sources: an instance that has not been put into a host
yet is removed by letting go the instances nested beside its root slots, and these only. So
its removal does nothing exactly if there are none. -/
theorem remove_unhosted (calls : List (Node × String))
    (hcalls : ∀ call ∈ calls, ∃ source, read source = .ok call.1) {st : Stage}
    (h : Reached (Workshop.compileAll calls {}).catalog st) {a : Actor} (ha : a ∈ st.actors)
    (hhost : a.host = none) :
    ∃ r gs d, a.inst.root = some r ∧
      a.inst.remove st.scene.document = ({ a.inst with groups := gs }, d) ∧
      LetGo r a.inst.rootRows st.scene.document d ∧
      (a.inst.remove st.scene.document = (a.inst, st.scene.document) ↔
        ∀ g ∈ a.inst.template.rootGroups, a.inst.groups.getD g [] = []) := by
  have hc := Workshop.built_compileAll calls
  have ho := Workshop.single_origin hcalls
  have hgood := h.good hc.sound
  obtain ⟨r, hr, hpl⟩ := (hgood.settled a ha).alone hhost
  obtain ⟨hremove, hletGo⟩ := remove_own hc.sound hpl.live hpl.nodup hr hpl.parent?_block
  refine ⟨r, _, _, hr, hremove, hletGo, ?_, ?_⟩
  · intro hsame g hg
    cases his : a.inst.groups.getD g [] with
    | nil => rfl
    | cons j js =>
      -- a node of the first nested instance would have lost its parent
      have hmem : a.inst.groups.getD g [] ∈ a.inst.groups := by
        rw [List.getD_eq_getElem?_getD] at his ⊢
        cases hget : a.inst.groups[g]? with
        | none =>
          rw [hget] at his
          cases his
        | some is => exact List.mem_of_getElem? hget
      have hj : j.Live _ st.scene.document := hpl.live.nested _ hmem j (by rw [his]; simp)
      obtain ⟨x, hx⟩ := List.exists_mem_of_ne_nil _ (hj.block_ne_nil hc ho)
      have hrow : x ∈ a.inst.rootRows :=
        List.mem_flatMap.mpr ⟨g, hg, by rw [his, blockAll]; exact List.mem_append_left _ hx⟩
      have hbefore := hpl.parent?_block x
        (rootRows_subset_block (hc.sound.template _ hpl.live.stands.template_mem) hrow)
      have hafter := hletGo.parent?_eq x
      rw [hremove] at hsame
      rw [(Prod.mk.inj hsame).2, if_pos hrow, hbefore] at hafter
      cases hafter
  · exact remove_own_of_empty hc.sound hpl.live hpl.nodup hr hpl.parent?_block

/-- A list with two items loses them, and one with none stays as it is. -/
theorem remove_unhosted_list :
    let source := "<li for=\"items\">\x7b\x7bname\x7d\x7d</li>"
    ∃ tree, read source = .ok tree ∧
      let c := (Workshop.compileAll [(tree, "list")] {}).catalog
      let items (ss : List String) : Json :=
        .obj [("items", .arr (ss.map fun s => .obj [("name", .str s)]))]
      let st := performAll c [.get "list" (some (items ["a"])), .get "list" (some (items ["b"])),
        .update 0 (items ["a", "c"]), .update 1 (items [])] ⟨{}, []⟩
      (∃ a r d, st.actors[0]? = some a ∧ a.inst.root = some r ∧ a.inst.rootRows.length = 2 ∧
        (a.inst.remove st.scene.document).2 = d ∧ LetGo r a.inst.rootRows st.scene.document d) ∧
      ∃ b, st.actors[1]? = some b ∧
        b.inst.remove st.scene.document = (b.inst, st.scene.document) := by
  intro source
  have hread : read source = .ok (treeOf source) := read_eq_treeOf (by decide +kernel)
  refine ⟨treeOf source, hread, ?_⟩
  intro c items st
  have hcalls : ∀ call ∈ [(treeOf source, "list")], ∃ source, read source = .ok call.1 :=
    fun call hcall => ⟨source, by rw [List.mem_singleton.mp hcall]; exact hread⟩
  have hst : Reached c st := (Reached.start {} .empty).performAll (by decide +kernel)
  constructor
  · have hfirst : st.actors[0]?.map (fun a => (a.host, a.inst.rootRows.length)) =
        some (none, 2) := by decide +kernel
    obtain ⟨a, ha, hhost⟩ := Option.map_eq_some_iff.mp hfirst
    obtain ⟨r, gs, d, hr, hremove, hletGo, _⟩ := remove_unhosted _ hcalls hst
      (List.mem_of_getElem? ha) (congrArg Prod.fst hhost)
    exact ⟨a, r, d, ha, hr, congrArg Prod.snd hhost, by rw [hremove], hletGo⟩
  · have hsecond : st.actors[1]?.map (fun b => (b.host, b.inst.template.rootGroups.all
        fun g => (b.inst.groups.getD g []).isEmpty)) = some (none, true) := by decide +kernel
    obtain ⟨b, hb, hhost⟩ := Option.map_eq_some_iff.mp hsecond
    obtain ⟨_, _, _, _, _, _, hiff⟩ := remove_unhosted _ hcalls hst
      (List.mem_of_getElem? hb) (congrArg Prod.fst hhost)
    exact ⟨b, hb, hiff.mpr fun g hg =>
      List.isEmpty_iff.mp (List.all_eq_true.mp (congrArg Prod.snd hhost) g hg)⟩

/-- A template that is one directive shows nothing any more, once its fragment has been
removed from nowhere. -/
theorem remove_empties_fragment :
    let source := "<p if=\"shown\">x</p>"
    ∃ tree, read source = .ok tree ∧
      let c := (Workshop.compileAll [(tree, "main")] {}).catalog
      let st := performAll c [.get "main" (some (.obj [("shown", .bool true)]))] ⟨{}, []⟩
      Reached c st ∧ ∃ a r, st.actors[0]? = some a ∧ a.host = none ∧ a.inst.root = some r ∧
        st.scene.document.outerMarkup r = "<p>x</p>" ∧
        (a.inst.remove st.scene.document).2.outerMarkup r = "" := by
  intro source
  refine ⟨treeOf source, read_eq_treeOf (by decide +kernel), ?_⟩
  intro c st
  refine ⟨(Reached.start {} .empty).performAll (by decide +kernel), ?_⟩
  have hfirst : st.actors[0]?.map (fun a => (a.host, a.inst.root,
      st.scene.document.outerMarkup 0, (a.inst.remove st.scene.document).2.outerMarkup 0)) =
        some (none, some 0, "<p>x</p>", "") := by decide +kernel
  obtain ⟨a, ha, heq⟩ := Option.map_eq_some_iff.mp hfirst
  obtain ⟨hhost, hroot, hbefore, hafter⟩ : _ ∧ _ ∧ _ ∧ _ := by
    simpa only [Prod.mk.injEq] using heq
  exact ⟨a, 0, ha, hhost, hroot, hbefore, hafter⟩

end Stage
end Stencil

import Stencil.Proofs.Run.Stage
import Stencil.Proofs.Template.Building

/-! Isolation. In every stage of a run no node is held twice, neither by two instances nor
by two slots of one. So an update of one instance finds the nodes of the others as they
are and leaves them so; in the container where its block stands it works inside the block. -/
namespace Stencil
open Document Instance Markup

namespace Stage

variable {c : Catalog} {st : Stage} {a : Actor} {k : Nat}

/-- What an act on the instance at place `k` leaves alone: the other instances with all their
nodes, and nodes that nobody owns but for the stretch of the host's children where its block
stands. -/
structure Isolates (k : Nat) (a b : Actor) (st st' : Stage) : Prop where
  actors_eq : st'.actors = st.actors.set k b
  host_eq : b.host = a.host
  others : ∀ (m : Nat) a', m ≠ k → st.actors[m]? = some a' → ∀ x ∈ a'.inst.owned,
    st'.scene.document.get? x = st.scene.document.get? x
  unowned : ∀ x : Nat, x < st.scene.document.size → x ∉ st.owned → a.host ≠ some x →
    st'.scene.document.get? x = st.scene.document.get? x
  host : ∀ p, a.host = some p →
    st'.scene.document.kind? p = st.scene.document.kind? p ∧
      st'.scene.document.parent? p = st.scene.document.parent? p ∧
      ∃ pre post, st.scene.document.children p = pre ++ a.inst.block ++ post ∧
        st'.scene.document.children p = pre ++ b.inst.block ++ post

/-- No node belongs to two instances, or twice to one. -/
theorem Good.nodup_owned (h : st.Good c) : st.owned.Nodup := by
  rw [owned, ownedAll_eq, List.flatMap_map, List.nodup_flatMap]
  constructor
  · intro a ha
    obtain ⟨_, _, _, _, _, hp⟩ := (h.settled a ha).placed
    exact hp.nodup
  · rw [List.pairwise_iff_getElem]
    intro k m hk hm hlt x hx hx'
    exact h.apart k m _ _ (Nat.ne_of_lt hlt) (List.getElem?_eq_getElem hk)
      (List.getElem?_eq_getElem hm) x hx hx'

/-- An update renews its instance where it stands: in its host, or else in its fragment. -/
theorem Good.exists_renewed (hc : c.Sound) (h : st.Good c) (ha : st.actors[k]? = some a)
    (data : Json) : ∃ j sc p pre post,
      st.perform c (.update k data) = (none, st.replace k { a with inst := j } sc) ∧
      (a.host <|> a.inst.root) = some p ∧ a.inst.Placed c st.scene.document p pre post ∧
      Renewed c st.scene.document sc.document a.inst j p pre post := by
  obtain ⟨j, sc, p, pre, post, hj, hp, hpl, hr, _⟩ :=
    (h.settled a (List.mem_of_getElem? ha)).seated.exists_renewed hc data
  refine ⟨j, sc, p, pre, post, ?_, hp, hpl, hr⟩
  rw [Stage.perform, ha]
  simp only [hj, Outcome.ok]

theorem Good.isolates (hc : c.Sound) (h : st.Good c) (ha : st.actors[k]? = some a) (data : Json) :
    ∃ b st', st.perform c (.update k data) = (none, st') ∧ Isolates k a b st st' := by
  obtain ⟨j, sc, p, pre, post, hperform, hp, hpl, hr⟩ := h.exists_renewed hc ha data
  refine ⟨_, _, hperform, rfl, rfl, ?_, ?_, ?_⟩
  · intro m b hm hb x hx
    have hlt := (h.settled b (List.mem_of_getElem? hb)).live.lt_size x hx
    exact hr.changes.get?_eq x hlt (h.not_renewed ha hp hm hb x hx)
  · intro x hlt hx hhost
    have hxa := not_mem_of_not_mem_owned hx ha
    apply hr.changes.get?_eq x hlt
    rintro (hm | rfl)
    · exact hxa (body_subset_owned _ hm)
    · cases hh : a.host with
      | none =>
        rw [hh] at hp
        exact hxa (root_mem_owned hp)
      | some q =>
        rw [hh] at hp
        exact hhost (hh.trans hp)
  · intro q hq
    rw [hq] at hp
    cases hp
    exact ⟨hr.kind?_eq, hr.parent?_eq, pre, post, hpl.children_eq, hr.placed.children_eq⟩

/-- Over any catalog that compile calls leave behind: the nodes held in a stage, by nested
instances too, are all different, and an update changes nothing but its own instance and
the stretch of the host's children that is its block. -/
theorem instances_isolated (calls : List (Node × String)) {st : Stage}
    (h : Reached (Workshop.compileAll calls {}).catalog st) :
    st.owned.Nodup ∧ ∀ (k : Nat) (a : Actor) (data : Json), st.actors[k]? = some a →
      ∃ b st', st.perform (Workshop.compileAll calls {}).catalog (.update k data) = (none, st') ∧
        Isolates k a b st st' := by
  have hc := (Workshop.built_compileAll calls).sound
  have hgood := h.good hc
  exact ⟨hgood.nodup_owned, fun k a data ha => hgood.isolates hc ha data⟩

/-- Two lists of one template stand side by side; the first is emptied. -/
theorem instances_isolated_lists :
    let calls := [(Node.document [.element "li" [⟨"for", "items"⟩]
      [.text "\x7b\x7bname\x7d\x7d"]], "list")]
    let c := (Workshop.compileAll calls {}).catalog
    let item (s : String) : Json := .obj [("name", .str s)]
    let st := performAll c [.create (.element { tag := "ul" }),
      .get "list" (some (.obj [("items", .arr [item "a", item "b"])])),
      .get "list" (some (.obj [("items", .arr [item "c"])])), .host 0 0, .host 0 1] ⟨{}, []⟩
    st.owned.Nodup ∧ ∃ a b st', st.actors[0]? = some a ∧ a.host = some 0 ∧
      a.inst.block.length = 3 ∧
      st.perform c (.update 0 (.obj [("items", .arr [])])) = (none, st') ∧
        Isolates 0 a b st st' := by
  intro calls c item st
  have hst : Reached c st := (Reached.start {} .empty).performAll (by decide +kernel)
  have hfirst : st.actors[0]?.map (fun a => (a.host, a.inst.block.length)) = some (some 0, 3) := by
    decide +kernel
  obtain ⟨a, ha, hhost⟩ := Option.map_eq_some_iff.mp hfirst
  obtain ⟨hnodup, hupdate⟩ := instances_isolated calls hst
  obtain ⟨b, st', hperform, hb⟩ := hupdate 0 a (.obj [("items", .arr [])]) ha
  exact ⟨hnodup, a, b, st', ha, congrArg Prod.fst hhost, congrArg Prod.snd hhost, hperform, hb⟩

end Stage
end Stencil

import Stencil.Proofs.Run.Seat

/-! Runs. A stage is a scene with the instances got so far, each in its own fragment or in
a container of the host. On a stage instances are got, asked for their fragments, updated,
and put into containers that belong to no instance. In every stage so reached all
instances are in place, own different nodes, and stand in containers that nobody owns. -/
namespace Stencil
open Document Instance

/-- An instance on a stage, and the container the host has put it into. -/
structure Actor where
  inst : Instance
  host : Option NodeId

structure Stage where
  scene : Scene
  actors : List Actor

namespace Stage

/-- The nodes that belong to some instance. -/
def owned (st : Stage) : List NodeId := ownedAll (st.actors.map (·.inst))

def replace (k : Nat) (a : Actor) (sc : Scene) (st : Stage) : Stage := ⟨sc, st.actors.set k a⟩

end Stage

/-- What may happen on a stage. -/
inductive Act where
  | create (kind : Kind)
  | get (name : String) (data : Option Json)
  | dom (k : Nat)
  | update (k : Nat) (data : Json)
  | host (container : NodeId) (k : Nat)

/-- Templates are got by their names, and instances put into containers of the host. -/
def Act.Allowed (c : Catalog) (st : Stage) : Act → Prop
  | .get name _ => c.contains name = true
  | .host p _ => p ∉ st.owned ∧ (st.scene.document.kind? p).any isContainer = true
  | _ => True

instance (c : Catalog) (st : Stage) : (act : Act) → Decidable (act.Allowed c st)
  | .get name _ => inferInstanceAs (Decidable (c.contains name = true))
  | .host p _ => inferInstanceAs
      (Decidable (p ∉ st.owned ∧ (st.scene.document.kind? p).any isContainer = true))
  | .create _ | .dom _ | .update _ _ => .isTrue trivial

namespace Stage

/-- What an act comes to, with the error if there is one. -/
def perform (c : Catalog) (st : Stage) : Act → Option RenderError × Stage
  | .create kind => (none, { st with scene := st.scene.create kind })
  | .get name data =>
    match c.get name data st.scene with
    | (.ok i, sc) => (none, ⟨sc, st.actors ++ [⟨i, none⟩]⟩)
    | (.error e, sc) => (some e, { st with scene := sc })
  | .dom k =>
    match st.actors[k]? with
    | none => (none, st)
    | some a =>
      let o := a.inst.mount st.scene
      (o.error, st.replace k { a with inst := o.state } o.scene)
  | .update k data =>
    match st.actors[k]? with
    | none => (none, st)
    | some a =>
      let o := a.inst.update c data st.scene
      (o.error, st.replace k { a with inst := o.state } o.scene)
  | .host p k =>
    match st.actors[k]? with
    | none => (none, st)
    | some a =>
      match a.inst.root with
      | none => (none, st)
      | some r =>
        match st.scene.document.append p r with
        | .error e => (some (.document e), st)
        | .ok d =>
          -- the fragment of an instance that has a host is empty
          (none, st.replace k { a with host := some (a.host.getD p) }
            { st.scene with document := d })

/-- The stages that can be reached from a document of the host. -/
inductive Reached (c : Catalog) : Stage → Prop
  | start (sc : Scene) (linked : sc.document.Linked) : Reached c ⟨sc, []⟩
  | step {st : Stage} (h : Reached c st) (a : Act) (allowed : a.Allowed c st) :
      Reached c (st.perform c a).2

/-- The stage after acts that are done one after the other. -/
def performAll (c : Catalog) : List Act → Stage → Stage
  | [], st => st
  | act :: acts, st => performAll c acts (st.perform c act).2

/-- Each act is allowed where it is done. -/
def AllAllowed (c : Catalog) : List Act → Stage → Prop
  | [], _ => True
  | act :: acts, st => act.Allowed c st ∧ AllAllowed c acts (st.perform c act).2

instance decidableAllAllowed (c : Catalog) :
    (acts : List Act) → (st : Stage) → Decidable (AllAllowed c acts st)
  | [], _ => .isTrue trivial
  | act :: acts, st =>
    have := decidableAllAllowed c acts (st.perform c act).2
    inferInstanceAs (Decidable (act.Allowed c st ∧ AllAllowed c acts (st.perform c act).2))

theorem Reached.performAll {c : Catalog} {acts : List Act} :
    ∀ {st : Stage}, Reached c st → AllAllowed c acts st → Reached c (performAll c acts st) := by
  induction acts with
  | nil => exact fun h _ => h
  | cons act acts ih => exact fun h hacts => ih (h.step act hacts.1) hacts.2

end Stage

/-! ## Instances that have settled -/

/-- The views that instances come to have, by updates of new views. -/
inductive View.Attained (c : Catalog) : View → Prop
  | new {t : Template} (mem : t ∈ c.templates) : Attained c (.new t)
  | update {V : View} (h : Attained c V) (data : Json) :
      Attained c (View.updateTo c (c.size + 1) V data)

theorem View.attained_first {c : Catalog} {t : Template} (ht : t ∈ c.templates)
    (data : Option Json) : (View.first c t data).Attained c := by
  cases data with
  | none => exact .new ht
  | some data => exact .update (.new ht) data

/-- The instance fills its own fragment, or stands in its host and has left its fragment. -/
structure Actor.Settled (c : Catalog) (d : Document) (a : Actor) : Prop where
  view : (a.inst.view d).Attained c
  alone : a.host = none → ∃ r, a.inst.root = some r ∧ a.inst.Placed c d r [] []
  hosted : ∀ p, a.host = some p → (∃ pre post, a.inst.Placed c d p pre post) ∧
    p < d.size ∧ p ∉ a.inst.owned ∧ ∀ r, a.inst.root = some r → d.children r = []

variable {c : Catalog} {d e : Document} {a : Actor}

theorem Actor.Settled.seated (h : a.Settled c d) : a.inst.Seated c d a.host := by
  cases hh : a.host with
  | none =>
    obtain ⟨r, hr, hp⟩ := h.alone hh
    exact .alone hr hp
  | some p =>
    obtain ⟨⟨pre, post, hp⟩, hlt, hm, hempty⟩ := h.hosted p hh
    exact .hosted hp hlt hm hempty

theorem Instance.Seated.settled {i : Instance} {host : Option NodeId} (h : i.Seated c d host)
    (hv : (i.view d).Attained c) : Actor.Settled c d ⟨i, host⟩ := by
  refine ⟨hv, ?_, ?_⟩
  · rintro rfl
    cases h with
    | alone root placed => exact ⟨_, root, placed⟩
  · rintro p rfl
    cases h with
    | hosted placed lt not_mem empty => exact ⟨⟨_, _, placed⟩, lt, not_mem, empty⟩

/-- The instance stands in its host, or else fills its fragment. -/
theorem Actor.Settled.placed (h : a.Settled c d) : ∃ p pre post,
    (a.host <|> a.inst.root) = some p ∧ (a.host = none → pre = [] ∧ post = []) ∧
      a.inst.Placed c d p pre post :=
  h.seated.exists_placed

theorem Actor.Settled.live (h : a.Settled c d) : a.inst.Live c d := h.seated.live

/-- A settled instance that keeps its seat and the kinds of its nodes is settled again. -/
theorem Actor.Settled.of_seated (h : a.Settled c d) {host : Option NodeId}
    (hs : a.inst.Seated c e host) (hk : ∀ x ∈ a.inst.owned, e.kind? x = d.kind? x) :
    ({ a with host := host } : Actor).Settled c e := by
  refine hs.settled ?_
  rw [view_congr _ hk]
  exact h.view

/-- The instance itself, or one nested in it at any depth. -/
inductive Instance.Holds : Instance → Instance → Prop
  | self (i : Instance) : Holds i i
  | nested {i j k : Instance} {is : List Instance} (group : is ∈ i.groups) (member : j ∈ is)
      (holds : Holds j k) : Holds i k

theorem Instance.Live.holds {i j : Instance} (h : i.Live c d) (hj : i.Holds j) : j.Live c d := by
  induction hj with
  | self => exact h
  | nested hg hm _ ih => exact ih (h.nested _ hg _ hm)

namespace Stage

/-- All instances have settled, own different nodes, and have hosts that nobody owns. -/
structure Good (c : Catalog) (st : Stage) : Prop where
  linked : st.scene.document.Linked
  settled : ∀ a ∈ st.actors, a.Settled c st.scene.document
  apart : ∀ (k m : Nat) (a b : Actor), k ≠ m → st.actors[k]? = some a → st.actors[m]? = some b →
    ∀ x ∈ a.inst.owned, x ∉ b.inst.owned
  host_not_mem : ∀ a ∈ st.actors, ∀ p, a.host = some p → p ∉ st.owned

variable {st : Stage}

theorem mem_owned {x : NodeId} : x ∈ st.owned ↔ ∃ a ∈ st.actors, x ∈ a.inst.owned := by
  rw [owned, mem_ownedAll]
  simp

theorem not_mem_of_not_mem_owned {x : NodeId} (h : x ∉ st.owned) {k : Nat}
    (ha : st.actors[k]? = some a) : x ∉ a.inst.owned := fun hm =>
  h (mem_owned.mpr ⟨a, List.mem_of_getElem? ha, hm⟩)

/-- One instance of a stage takes new nodes at most; the others stay settled. -/
theorem Good.replace (h : st.Good c) {k : Nat} (ha : st.actors[k]? = some a) {a' : Actor}
    {sc : Scene} (hl : sc.document.Linked) (ha' : a'.Settled c sc.document)
    (hfresh : ∀ x : Nat, x ∈ a'.inst.owned → x ∈ a.inst.owned ∨ st.scene.document.size ≤ x)
    (hhost : ∀ p : Nat, a'.host = some p → p < st.scene.document.size ∧ p ∉ st.owned)
    (hothers : ∀ m b, m ≠ k → st.actors[m]? = some b → b.Settled c sc.document) :
    (st.replace k a' sc).Good c := by
  have hk := (List.getElem?_eq_some_iff.mp ha).1
  have hget : ∀ m b, (st.replace k a' sc).actors[m]? = some b →
      m = k ∧ b = a' ∨ m ≠ k ∧ st.actors[m]? = some b := by
    intro m b hb
    rw [Stage.replace, List.getElem?_set] at hb
    split at hb
    · rename_i hm
      exact .inl ⟨hm.symm, (Option.some.inj hb).symm⟩
    · rename_i hm
      exact .inr ⟨fun he => hm he.symm, hb⟩
  have hnew : ∀ m b, m ≠ k → st.actors[m]? = some b → ∀ x : Nat, x ∈ a'.inst.owned →
      x ∉ b.inst.owned := by
    intro m b hm hb x hx hxb
    rcases hfresh x hx with hx | hx
    · exact h.apart k m a b (Ne.symm hm) ha hb x hx hxb
    · have := (h.settled b (List.mem_of_getElem? hb)).live.lt_size x hxb
      omega
  have hout : ∀ p : Nat, p < st.scene.document.size → p ∉ st.owned →
      p ∉ (st.replace k a' sc).owned := by
    intro p hlt hp hm
    obtain ⟨b, hb, hx⟩ := mem_owned.mp hm
    obtain ⟨m, hm⟩ := List.getElem?_of_mem hb
    rcases hget m b hm with ⟨rfl, rfl⟩ | ⟨_, hb⟩
    · rcases hfresh p hx with hx | hx
      · exact not_mem_of_not_mem_owned hp ha hx
      · omega
    · exact not_mem_of_not_mem_owned hp hb hx
  refine ⟨hl, ?_, ?_, ?_⟩
  · intro b hb
    obtain ⟨m, hm⟩ := List.getElem?_of_mem hb
    rcases hget m b hm with ⟨_, rfl⟩ | ⟨hne, hb⟩
    · exact ha'
    · exact hothers m b hne hb
  · intro m m' b b' hne hb hb' x hx hx'
    rcases hget m b hb with ⟨hmk, hba⟩ | ⟨hmk, hbo⟩ <;>
      rcases hget m' b' hb' with ⟨hmk', hba'⟩ | ⟨hmk', hbo'⟩
    · exact hne (hmk.trans hmk'.symm)
    · exact hnew m' b' hmk' hbo' x (hba ▸ hx) hx'
    · exact hnew m b hmk hbo x (hba' ▸ hx') hx
    · exact h.apart m m' b b' hne hbo hbo' x hx hx'
  · intro b hb p hp
    obtain ⟨m, hm⟩ := List.getElem?_of_mem hb
    rcases hget m b hm with ⟨_, rfl⟩ | ⟨_, hb⟩
    · exact hout p (hhost p hp).1 (hhost p hp).2
    · have hbm := List.mem_of_getElem? hb
      exact hout p ((h.settled b hbm).hosted p hp).2.1 (h.host_not_mem b hbm p hp)

/-! ## Acts -/

/-- New nodes change nothing for the instances there. -/
theorem Good.settled_of_old (h : st.Good c) (he : e.Linked)
    (hsize : st.scene.document.size ≤ e.size)
    (hold : ∀ x : Nat, x < st.scene.document.size → e.get? x = st.scene.document.get? x) :
    ∀ b ∈ st.actors, b.Settled c e := by
  intro b hb
  have hs := h.settled b hb
  exact hs.of_seated (hs.seated.of_old he hsize hold) fun x hx =>
    kind?_of_get? (hold x (hs.live.lt_size x hx))

theorem Good.create (h : st.Good c) (kind : Kind) :
    Good c { st with scene := st.scene.create kind } where
  linked := h.linked.create kind
  settled := h.settled_of_old (h.linked.create kind) (by simp [Scene.create, size_create])
    fun x hx => by rw [Scene.create, get?_create, if_neg (Nat.ne_of_lt hx)]
  apart := h.apart
  host_not_mem := h.host_not_mem

theorem Good.get (hc : c.Sound) (h : st.Good c) {name : String} (hn : c.contains name = true)
    (data : Option Json) : (st.perform c (.get name data)).1 = none ∧
      (st.perform c (.get name data)).2.Good c := by
  obtain ⟨t, ht⟩ : ∃ t, c.get? name = some t := by
    rw [Catalog.contains, List.contains_iff_mem, Catalog.names, List.mem_map] at hn
    obtain ⟨t, hm, rfl⟩ := hn
    exact Option.isSome_iff_exists.mp (List.find?_isSome.mpr ⟨t, hm, by simp⟩)
  obtain ⟨i, sc, hget, hr, _, hview⟩ := Catalog.get_raised hc ht h.linked data
  rw [perform, hget]
  have hsettled := h.settled_of_old hr.placed.linked (Nat.le_of_lt hr.size_lt) hr.old
  have hlt : ∀ (m : Nat) (b : Actor), st.actors[m]? = some b → ∀ x ∈ b.inst.owned, x ∉ i.owned := by
    intro m b hb x hx hxi
    have hlt := (h.settled b (List.mem_of_getElem? hb)).live.lt_size x hx
    exact absurd (hr.fresh x hxi) (Nat.not_le_of_lt hlt)
  have hcase : ∀ (m : Nat) (b : Actor), (st.actors ++ [⟨i, none⟩])[m]? = some b →
      st.actors[m]? = some b ∨ m = st.actors.length ∧ b = ⟨i, none⟩ := by
    intro m b hb
    rcases Nat.lt_or_ge m st.actors.length with hlt | hge
    · rw [List.getElem?_append_left hlt] at hb
      exact .inl hb
    · have := (List.getElem?_eq_some_iff.mp hb).1
      simp only [List.length_append, List.length_singleton] at this
      obtain rfl : m = st.actors.length := by omega
      exact .inr ⟨rfl, by simpa using hb.symm⟩
  refine ⟨rfl, hr.placed.linked, ?_, ?_, ?_⟩
  · intro b hb
    rcases List.mem_append.mp hb with hb | hb
    · exact hsettled b hb
    · rw [List.mem_singleton.mp hb]
      refine ⟨?_, fun _ => ⟨_, hr.root_eq, hr.placed⟩, fun p hp => by cases hp⟩
      rw [hview]
      exact View.attained_first (List.mem_of_find?_eq_some ht) data
  · intro m m' b b' hne hb hb' x hx hx'
    rcases hcase m b hb with hb | ⟨rfl, rfl⟩ <;> rcases hcase m' b' hb' with hb' | ⟨rfl, rfl⟩
    · exact h.apart m m' b b' hne hb hb' x hx hx'
    · exact hlt m b hb x hx hx'
    · exact hlt m' b' hb' x hx' hx
    · exact hne rfl
  · intro b hb p hp hm
    rcases List.mem_append.mp hb with hb | hb
    · have hplt := ((h.settled b hb).hosted p hp).2.1
      obtain ⟨b', hb', hx⟩ := mem_owned.mp hm
      rcases List.mem_append.mp hb' with hb' | hb'
      · exact h.host_not_mem b hb p hp (mem_owned.mpr ⟨b', hb', hx⟩)
      · rw [List.mem_singleton.mp hb'] at hx
        exact absurd (hr.fresh p hx) (Nat.not_le_of_lt hplt)
    · rw [List.mem_singleton.mp hb] at hp
      cases hp

/-- Other instances own none of the nodes that are renewed. -/
theorem Good.not_renewed (h : st.Good c) {k : Nat} (ha : st.actors[k]? = some a) {p : Nat}
    (hp : (a.host <|> a.inst.root) = some p) {m : Nat} {b : Actor} (hm : m ≠ k)
    (hb : st.actors[m]? = some b) : ∀ x ∈ b.inst.owned, ¬ (x ∈ a.inst.body ∨ x = p) := by
  have hapart := h.apart m k b a hm hb ha
  rintro x hx (hxi | rfl)
  · exact hapart x hx (body_subset_owned _ hxi)
  · cases hh : a.host with
    | none =>
      rw [hh] at hp
      exact hapart x hx (root_mem_owned hp)
    | some q =>
      rw [hh] at hp
      cases hp
      exact not_mem_of_not_mem_owned (h.host_not_mem a (List.mem_of_getElem? ha) x hh) hb hx

/-- When an instance is renewed where it stands, the others stay settled. -/
theorem Good.settled_of_renewed (hc : c.Sound) (h : st.Good c) {k : Nat}
    (ha : st.actors[k]? = some a) {p : Nat} {pre post : List NodeId} {j : Instance}
    (hp : (a.host <|> a.inst.root) = some p)
    (hpl : a.inst.Placed c st.scene.document p pre post)
    (hr : Renewed c st.scene.document e a.inst j p pre post) {m : Nat} {b : Actor} (hm : m ≠ k)
    (hb : st.actors[m]? = some b) : b.Settled c e := by
  have hbm := List.mem_of_getElem? hb
  have hR := h.not_renewed ha hp hm hb
  have hs := h.settled b hbm
  refine hs.of_seated (hs.seated.beside hc hpl hr hR fun q hq => ?_) fun x hx =>
    hr.changes.kind?_eq (hs.live.lt_size x hx) (hR x hx)
  exact not_mem_of_not_mem_owned (h.host_not_mem b hbm q hq) ha

theorem Good.update (hc : c.Sound) (h : st.Good c) (k : Nat) (data : Json) :
    (st.perform c (.update k data)).1 = none ∧ (st.perform c (.update k data)).2.Good c := by
  rw [perform]
  cases ha : st.actors[k]? with
  | none => exact ⟨rfl, h⟩
  | some a =>
    have ham := List.mem_of_getElem? ha
    have hs := h.settled a ham
    obtain ⟨j, sc, p, pre, post, hj, hp, hpl, hr, hseated, hview⟩ :=
      hs.seated.exists_renewed hc data
    simp only [hj, Outcome.ok]
    refine ⟨trivial, h.replace ha hr.placed.linked (hseated.settled ?_) hr.owned_fresh
      (fun q hq => ⟨hs.seated.host_lt hq, h.host_not_mem a ham q hq⟩)
      fun m b hm hb => h.settled_of_renewed hc ha hp hpl hr hm hb⟩
    rw [hview]
    exact hs.view.update data

/-- What stands in the nodes of an instance on a stage is its own. -/
theorem Good.children_mem (hc : c.Sound) (h : st.Good c) (ha : a ∈ st.actors) {x y : NodeId}
    (hy : y ∈ a.inst.owned) (hx : x ∈ st.scene.document.children y) : x ∈ a.inst.owned :=
  body_subset_owned _ ((h.settled a ha).seated.children_mem hc hy hx)

/-- A container that nobody owns has no ancestor that somebody owns. -/
theorem Good.admits (hc : c.Sound) (h : st.Good c) (ha : a ∈ st.actors) {p r : Nat}
    (hr : a.inst.root = some r) (hp : p ∉ st.owned)
    (hk : ∃ k, st.scene.document.kind? p = some k ∧ isContainer k = true) :
    st.scene.document.Admits p r none := by
  have hrm : r ∈ a.inst.owned := by rw [owned_eq, hr]; simp
  refine ⟨(h.settled a ha).live.lt_size r hrm, hk, (fun _ h => nomatch h), fun hm => ?_⟩
  have hclosed : ∀ x y, x ∉ st.owned → st.scene.document.parent? x = some y → y ∉ st.owned := by
    intro x y hx hxy hy
    obtain ⟨b, hb, hyb⟩ := mem_owned.mp hy
    have hchild := (h.linked.mem_children_iff _ _).mpr hxy
    exact hx (mem_owned.mpr ⟨b, hb, h.children_mem hc hb hyb hchild⟩)
  exact forall_mem_climb hclosed _ hp r hm (mem_owned.mpr ⟨a, ha, hrm⟩)

theorem Good.host (hc : c.Sound) (h : st.Good c) {p : Nat} (k : Nat) (hp : p ∉ st.owned)
    (hcontainer : (st.scene.document.kind? p).any isContainer = true) :
    (st.perform c (.host p k)).1 = none ∧ (st.perform c (.host p k)).2.Good c := by
  have hk := (Option.any_eq_true _ _).mp hcontainer
  have hplt : p < st.scene.document.size := lt_size_of_kind? hk.choose_spec.1
  rw [perform]
  cases ha : st.actors[k]? with
  | none => exact ⟨rfl, h⟩
  | some a =>
    have ham := List.mem_of_getElem? ha
    have hs := h.settled a ham
    obtain ⟨r, hroot, hfrag⟩ := hs.live.stands.root_fragment
    have hadm := h.admits hc ham hroot hp hk
    simp only [hroot, Document.append, insertBefore_fragment hadm hfrag]
    have hrm := root_mem_owned hroot
    refine ⟨trivial, h.replace ha (h.linked.pour hadm) ?_ (fun x hx => .inl hx) ?_
      fun m b hm hb => ?_⟩
    · refine hs.of_seated ?_ fun x _ => kind?_pour ..
      have hpa := not_mem_of_not_mem_owned hp ha
      have hra : r ∉ a.inst.body := fun hm => hs.seated.root_not_mem hroot hm
      cases hh : a.host with
      | none => exact hs.seated.pour_of_eq hpa hadm (by rw [hh]; exact hroot)
      | some q =>
        refine hh ▸ hs.seated.pour_of_ne hpa hra nofun hadm fun he => ?_
        rw [hh] at he
        cases he
        exact not_mem_of_not_mem_owned (h.host_not_mem a ham r hh) ha hrm
    · intro q hq
      cases hh : a.host with
      | none =>
        rw [hh] at hq
        cases hq
        exact ⟨hplt, hp⟩
      | some q' =>
        rw [hh] at hq
        obtain rfl : q' = q := by simpa using hq
        exact ⟨(hs.hosted q' hh).2.1, h.host_not_mem a ham q' hh⟩
    · have hb' := h.settled b (List.mem_of_getElem? hb)
      have hrb : r ∉ b.inst.owned := h.apart k m a b hm.symm ha hb r hrm
      refine hb'.of_seated (hb'.seated.pour_of_ne (not_mem_of_not_mem_owned hp hb)
        (fun hm => hrb (body_subset_owned _ hm)) nofun hadm fun he => ?_) fun x _ => kind?_pour ..
      cases hh : b.host with
      | none =>
        rw [hh] at he
        exact hrb (root_mem_owned he)
      | some q =>
        rw [hh] at he
        cases he
        exact h.host_not_mem b (List.mem_of_getElem? hb) r hh (mem_owned.mpr ⟨a, ham, hrm⟩)

theorem Good.dom (h : st.Good c) (k : Nat) :
    (st.perform c (.dom k)).1 = none ∧ (st.perform c (.dom k)).2.Good c := by
  rw [perform]
  cases ha : st.actors[k]? with
  | none => exact ⟨rfl, h⟩
  | some a =>
    have hroot := (h.settled a (List.mem_of_getElem? ha)).live.stands.isSome_root
    simp only [mount_of_isSome hroot, Outcome.ok]
    have hset : st.actors.set k a = st.actors := by
      obtain ⟨hk, rfl⟩ := List.getElem?_eq_some_iff.mp ha
      exact List.set_getElem_self hk
    refine ⟨trivial, ?_⟩
    change Good c ⟨st.scene, st.actors.set k a⟩
    rw [hset]
    exact h

/-! ## Runs -/

/-- No act that is allowed fails, and all is well after it. -/
theorem Good.perform (hc : c.Sound) (h : st.Good c) (act : Act) (hact : act.Allowed c st) :
    (st.perform c act).1 = none ∧ (st.perform c act).2.Good c := by
  cases act with
  | create kind => exact ⟨rfl, h.create kind⟩
  | get name data => exact h.get hc hact data
  | dom k => exact h.dom k
  | update k data => exact h.update hc k data
  | host p k => exact h.host hc k hact.1 hact.2

theorem Reached.good (hc : c.Sound) (h : Reached c st) : st.Good c := by
  induction h with
  | start sc hl =>
    exact ⟨hl, nofun, fun k m a b _ ha => by simp at ha, nofun⟩
  | step _ act hact ih => exact (ih.perform hc act hact).2

end Stage
end Stencil

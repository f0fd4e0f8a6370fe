import Mathlib.Data.List.Perm.Subperm
import Stencil.Proofs.Run.Seat

/-! Troupes. A troupe is a list of instances in a scene where the host goes on working.
Instances join it when they are mounted, are updated, and leave it again. In between the
host does to the document what it likes, as long as it leaves their nodes where they are:
it may write into them, and move what they stand in. In every scene so reached all
instances have their seats, and own different nodes. -/
namespace Stencil
open Document Instance

namespace Document

/-- The operations that leave the nodes of an instance where they are: nothing is put into
them or between them, and none of them is taken away. Contents may change. -/
def Operation.Spares (d : Document) (i : Instance) : Operation → Prop
  | .append p x => p ∉ i.owned ∧ x ∉ i.body
  | .insertBefore p x mark => p ∉ i.owned ∧ x ∉ i.body ∧ ∀ m ∈ mark, m ∉ i.block.tail
  | .removeChild _ x | .detach x => x ∉ i.body
  | .setText x _ => ∀ k ∈ d.kind? x, isContainer k = false
  | _ => True

instance (d : Document) (i : Instance) : (op : Operation) → Decidable (op.Spares d i)
  | .append p x => inferInstanceAs (Decidable (p ∉ i.owned ∧ x ∉ i.body))
  | .insertBefore p x mark => inferInstanceAs
      (Decidable (p ∉ i.owned ∧ x ∉ i.body ∧ ∀ m ∈ mark, m ∉ i.block.tail))
  | .removeChild _ x | .detach x => inferInstanceAs (Decidable (x ∉ i.body))
  | .setText x _ => inferInstanceAs (Decidable (∀ k ∈ d.kind? x, isContainer k = false))
  | .createElement .. | .createText _ | .createFragment | .setAttribute .. | .removeAttribute ..
  | .setProperty .. | .removeProperty .. => .isTrue trivial

/-- The node that gets new children. -/
def Operation.receiver? : Operation → Option NodeId
  | .append p _ | .insertBefore p _ _ => some p
  | _ => none

theorem Operation.Spares.receiver_not_mem {d : Document} {i : Instance} {op : Operation}
    (h : op.Spares d i) {p : NodeId} (hp : op.receiver? = some p) : p ∉ i.owned := by
  cases op with
  | append | insertBefore =>
    cases hp
    exact h.1
  | _ => cases hp

theorem Linked.insertBefore {d e : Document} (h : d.Linked) {p x : NodeId} {mark : Option NodeId}
    (he : d.insertBefore p x mark = .ok e) : e.Linked := by
  obtain ⟨ha, ⟨_, rfl⟩ | rfl | ⟨_, rfl⟩⟩ := insertBefore_cases he
  · exact h.pour ha
  · exact h
  · exact h.place ha

theorem unlink_of_removeChild {d e : Document} {p x : NodeId} (he : d.removeChild p x = .ok e) :
    e = d.unlink x := by
  rw [removeChild] at he
  split at he
  · cases he
  · split at he
    · exact (Except.ok.inj he).symm
    · cases he

theorem unlink_of_detach {d e : Document} {x : NodeId} (he : d.detach x = .ok e) :
    e = d.unlink x := by
  rw [detach] at he
  split at he
  · cases he
  · exact (Except.ok.inj he).symm

theorem Linked.apply {d e : Document} (h : d.Linked) {op : Operation} (he : op.apply d = .ok e) :
    e.Linked := by
  cases op with
  | createElement | createText | createFragment =>
    cases he
    exact h.create _
  | append | insertBefore => exact h.insertBefore he
  | removeChild => exact unlink_of_removeChild he ▸ h.unlink _
  | detach => exact unlink_of_detach he ▸ h.unlink _
  | setText x content =>
    rw [Operation.apply, Document.setText] at he
    split at he
    · cases he
    · rename_i s hk
      cases he
      exact h.setKind (lt_size_of_kind? hk) fun _ _ => h.children_text x s hk
    · exact ((h.clear x).create _).insertBefore he
  | setAttribute | removeAttribute | setProperty | removeProperty =>
    obtain ⟨el, hk, rfl⟩ := editElement_cases he
    refine h.setKind (lt_size_of_kind? hk) fun s hs => ?_
    cases hs

end Document

/-! ## Troupes -/

/-- The scenes that can be reached with some instances in them. -/
inductive Troupe (c : Catalog) : Scene → List Instance → Prop
  | start (sc : Scene) (linked : sc.document.Linked) : Troupe c sc []
  | got {sc sc' : Scene} {is : List Instance} {i : Instance} {name : String} {data : Option Json}
      (h : Troupe c sc is) (get : c.get name data sc = (.ok i, sc')) : Troupe c sc' (i :: is)
  | mounted {sc sc' : Scene} {is : List Instance} {i : Instance} {t : Template}
      (h : Troupe c sc is) (mem : t ∈ c.templates) (mount : (Instance.new t).mount sc = .ok i sc') :
      Troupe c sc' (i :: is)
  | updated {sc : Scene} {is : List Instance} {i : Instance} (h : Troupe c sc (i :: is))
      (data : Json) : Troupe c (i.update c data sc).scene ((i.update c data sc).state :: is)
  | performed {sc sc' : Scene} {is : List Instance} (h : Troupe c sc is) (op : Operation)
      (spares : ∀ i ∈ is, op.Spares sc.document i)
      (document_eq : sc'.document = sc.document.perform op) : Troupe c sc' is
  | subperm {sc : Scene} {is js : List Instance} (h : Troupe c sc is) (sub : js.Subperm is) :
      Troupe c sc js

/-- All instances have a seat, in containers that none of them owns, and no node belongs to
two of them. -/
structure Company (c : Catalog) (d : Document) (is : List Instance) : Prop where
  linked : d.Linked
  seated : ∀ i ∈ is, ∃ host, i.Seated c d host ∧ ∀ p, host = some p → p ∉ ownedAll is
  nodup : (ownedAll is).Nodup

namespace Company

variable {c : Catalog} {d e : Document} {i : Instance} {is js : List Instance}

theorem live (h : Company c d is) (hi : i ∈ is) : i.Live c d := by
  obtain ⟨_, hs, _⟩ := h.seated i hi
  exact hs.live

theorem lt_size (h : Company c d is) : ∀ x : Nat, x ∈ ownedAll is → x < d.size := by
  intro x hx
  obtain ⟨i, hi, hx⟩ := mem_ownedAll.mp hx
  exact (h.live hi).lt_size x hx

theorem subperm (h : Company c d is) (hsub : js.Subperm is) : Company c d js where
  linked := h.linked
  seated i hi := by
    obtain ⟨host, hs, hhost⟩ := h.seated i (hsub.subset hi)
    refine ⟨host, hs, fun p hp hm => hhost p hp ?_⟩
    obtain ⟨j, hj, hm⟩ := mem_ownedAll.mp hm
    exact mem_ownedAll.mpr ⟨j, hsub.subset hj, hm⟩
  nodup := by
    obtain ⟨ks, hperm, hks⟩ := hsub
    rw [ownedAll_eq, ← (hperm.flatMap_right owned).nodup_iff]
    rw [← ownedAll_eq]
    have hflat := h.nodup
    rw [ownedAll_eq, List.nodup_flatMap] at hflat ⊢
    exact ⟨fun x hx => hflat.1 x (hks.subset hx), hflat.2.sublist hks⟩

/-- A change that gives every instance a seat again, in its old host or in a container that
is not theirs. -/
theorem of_seated (h : Company c d is) (he : e.Linked)
    (hseated : ∀ i ∈ is, ∀ host, i.Seated c d host → ∃ host', i.Seated c e host' ∧
      (host' = host ∨ ∀ p, host' = some p → p ∉ ownedAll is)) : Company c e is where
  linked := he
  nodup := h.nodup
  seated i hi := by
    obtain ⟨host, hs, hhost⟩ := h.seated i hi
    obtain ⟨host', hs', rfl | hout⟩ := hseated i hi host hs
    · exact ⟨_, hs', hhost⟩
    · exact ⟨_, hs', hout⟩

/-- One more instance, all of whose nodes are new. -/
theorem cons_raised (h : Company c d is) (hr : Raised c d e i) : Company c e (i :: is) where
  linked := hr.placed.linked
  seated j hj := by
    rcases List.mem_cons.mp hj with rfl | hj
    · exact ⟨none, .alone hr.root_eq hr.placed, nofun⟩
    · obtain ⟨host, hs, hhost⟩ := h.seated j hj
      refine ⟨host, hs.of_old hr.placed.linked (Nat.le_of_lt hr.size_lt) hr.old, fun p hp hm => ?_⟩
      rcases List.mem_append.mp hm with hm | hm
      · exact Nat.not_lt_of_le (hr.fresh p hm) (hs.host_lt hp)
      · exact hhost p hp hm
  nodup := by
    refine hr.placed.nodup.append h.nodup fun x hx hx' => ?_
    exact Nat.not_lt_of_le (hr.fresh x hx) (h.lt_size x hx')

/-- The first instance is updated, and stays where it is among the others. -/
theorem update (hc : c.Sound) {sc : Scene} (h : Company c sc.document (i :: is)) (data : Json) :
    ∃ j sc', i.update c data sc = .ok j sc' ∧ Company c sc'.document (j :: is) := by
  obtain ⟨host, hs, hhost⟩ := h.seated i List.mem_cons_self
  obtain ⟨j, sc', p, pre, post, hj, hp, hpl, hr, hjs, _⟩ := hs.exists_renewed hc data
  obtain ⟨_, hnis, hdisj⟩ := List.nodup_append.mp h.nodup
  have hout : ∀ q : Nat, q < sc.document.size → q ∉ ownedAll (i :: is) →
      q ∉ ownedAll (j :: is) := by
    intro q hlt hq hm
    rcases List.mem_append.mp hm with hm | hm
    · rcases hr.owned_fresh q hm with hm | hm
      · exact hq (List.mem_append_left _ hm)
      · exact Nat.not_lt_of_le hm hlt
    · exact hq (List.mem_append_right _ hm)
  have hR : ∀ x ∈ ownedAll is, ¬ (x ∈ i.body ∨ x = p) := by
    rintro x hx (hxi | rfl)
    · exact hdisj x (body_subset_owned _ hxi) x hx rfl
    · cases hh : host with
      | none =>
        rw [hh] at hp
        exact hdisj x (root_mem_owned hp) x hx rfl
      | some q =>
        rw [hh] at hp
        cases hp
        exact hhost x hh (List.mem_append_right _ hx)
  refine ⟨j, sc', hj, hr.placed.linked, fun b hb => ?_, ?_⟩
  · rcases List.mem_cons.mp hb with rfl | hb
    · exact ⟨host, hjs, fun q hq => hout q (hs.host_lt hq) (hhost q hq)⟩
    · obtain ⟨host', hs', hhost'⟩ := h.seated b (List.mem_cons_of_mem _ hb)
      refine ⟨host', hs'.beside hc hpl hr (fun x hx => hR x (mem_ownedAll.mpr ⟨b, hb, hx⟩)) ?_,
        fun q hq => hout q (hs'.host_lt hq) (hhost' q hq)⟩
      exact fun q hq hm => hhost' q hq (List.mem_append_left _ hm)
  · refine List.nodup_append.mpr ⟨hr.placed.nodup, hnis, ?_⟩
    rintro x hx y hy rfl
    rcases hr.owned_fresh x hx with hx | hx
    · exact hdisj x hx x hy rfl
    · exact Nat.not_lt_of_le hx (h.lt_size x (List.mem_append_right _ hy))

end Company

/-- An instance that is spared has a seat again, where it was or in the node that got new
children. -/
theorem Instance.Seated.apply {c : Catalog} (hc : c.Sound) {d e : Document} {i : Instance}
    {host : Option NodeId} (h : i.Seated c d host) {op : Operation} (hs : op.Spares d i)
    (he : op.apply d = .ok e) :
    ∃ host', i.Seated c e host' ∧ (host' = host ∨ host' = op.receiver?) := by
  have hcreate : ∀ k, i.Seated c (d.create k) host := fun k =>
    h.of_old (h.linked.create k) (by simp [size_create]) fun x hx => by
      rw [get?_create, if_neg (Nat.ne_of_lt hx)]
  cases op with
  | createElement | createText | createFragment =>
    cases he
    exact ⟨host, hcreate _, .inl rfl⟩
  | append p x => exact h.insertBefore hs.1 hs.2 (fun _ hm => by cases hm) hc he
  | insertBefore p x mark => exact h.insertBefore hs.1 hs.2.1 hs.2.2 hc he
  | removeChild => exact ⟨host, unlink_of_removeChild he ▸ h.unlink hc hs, .inl rfl⟩
  | detach => exact ⟨host, unlink_of_detach he ▸ h.unlink hc hs, .inl rfl⟩
  | setText x content =>
    rw [Operation.apply, Document.setText] at he
    split at he
    · cases he
    · rename_i s hk
      cases he
      exact ⟨host, h.setKind hk (.text s content), .inl rfl⟩
    · rename_i k hk htext
      have := hs k htext
      cases k with
      | text s => exact absurd rfl (hk s)
      | element | fragment => cases this
  | setAttribute | removeAttribute | setProperty | removeProperty =>
    obtain ⟨el, hk, rfl⟩ := editElement_cases he
    exact ⟨host, h.setKind hk (.element rfl rfl), .inl rfl⟩

theorem Company.perform {c : Catalog} (hc : c.Sound) {d : Document} {is : List Instance}
    (h : Company c d is) {op : Operation} (hs : ∀ i ∈ is, op.Spares d i) :
    Company c (d.perform op) is := by
  rw [Document.perform]
  split
  · rename_i e he
    refine h.of_seated (h.linked.apply he) fun i hi host hseated => ?_
    obtain ⟨host', hs', rfl | rfl⟩ := hseated.apply hc (hs i hi) he
    · exact ⟨_, hs', .inl rfl⟩
    · refine ⟨_, hs', .inr fun p hp hm => ?_⟩
      obtain ⟨j, hj, hm⟩ := mem_ownedAll.mp hm
      exact (hs j hj).receiver_not_mem hp hm
  · exact h

namespace Troupe

variable {c : Catalog} {sc : Scene} {is : List Instance}

theorem company (hc : c.Sound) (h : Troupe c sc is) : Company c sc.document is := by
  induction h with
  | start sc linked => exact ⟨linked, nofun, List.nodup_nil⟩
  | @got sc sc' is i name data _ get ih =>
    cases ht : c.get? name with
    | none =>
      rw [Catalog.get, Catalog.instantiate, ht] at get
      cases get
    | some t =>
      obtain ⟨j, sc'', hget, hr, _⟩ := Catalog.get_raised hc ht ih.linked data
      cases get.symm.trans hget
      exact ih.cons_raised hr
  | mounted _ mem mount ih =>
    obtain ⟨j, d, hj, hm⟩ := mount_new mem (hc.template _ mem) ih.linked
    cases mount.symm.trans hj
    exact ih.cons_raised hm.raised
  | updated _ data ih =>
    obtain ⟨j, sc', hj, hcomp⟩ := ih.update hc data
    rw [hj]
    exact hcomp
  | performed _ op spares document_eq ih =>
    rw [document_eq]
    exact ih.perform hc spares
  | subperm _ sub ih => exact ih.subperm sub

/-- An instance of a known template can be got, and joins the others. -/
theorem exists_got (hc : c.Sound) (h : Troupe c sc is) (name : String)
    (hname : (c.get? name).isSome) (data : Option Json) :
    ∃ t i sc', c.get? name = some t ∧ c.get name data sc = (.ok i, sc') ∧ i.template = t ∧
      Troupe c sc' (i :: is) := by
  obtain ⟨t, ht⟩ := Option.isSome_iff_exists.mp hname
  obtain ⟨i, sc', hget, _, htemplate, _⟩ := Catalog.get_raised hc ht (h.company hc).linked data
  exact ⟨t, i, sc', ht, hget, htemplate, h.got hget⟩

end Troupe
end Stencil

import Stencil.Proofs.Document.Forest

/-! The contract of insertion: when a node may go into another, which objection is raised
when it may not, and how the document has changed when it did. -/
namespace Stencil.Document

variable {d e : Document} {p c : NodeId} {mark : Option NodeId}

/-- The nodes that move when `c` is inserted: the children of a fragment, else `c` itself. -/
def moving (d : Document) (c : NodeId) : List NodeId :=
  match d.kind? c with
  | some .fragment => d.children c
  | _ => [c]

theorem moving_fragment (h : d.kind? c = some .fragment) : d.moving c = d.children c := by
  simp [moving, h]

theorem moving_node (h : d.kind? c ≠ some .fragment) : d.moving c = [c] := by
  unfold moving
  split
  · contradiction
  · rfl

/-- The node can have children. -/
def Holds (d : Document) (p : NodeId) : Prop :=
  (∃ el, d.kind? p = some (.element el)) ∨ d.kind? p = some .fragment

/-- What speaks against inserting `c` into `p` before `mark`. An objection is raised where
those listed before it are not. -/
inductive Objection (d : Document) (p c : NodeId) (mark : Option NodeId) : DocumentError → Prop
  | unknownChild (hc : d.size ≤ c) : Objection d p c mark (.unknown c)
  | unknownParent (hc : c < d.size) (hp : d.size ≤ p) : Objection d p c mark (.unknown p)
  | notContainer (hc : c < d.size) (hp : p < d.size) (hk : ¬ d.Holds p) :
    Objection d p c mark (.notContainer p)
  | notChild (hc : c < d.size) (hk : d.Holds p) {r : NodeId} (hm : mark = some r)
    (hr : r ∉ d.children p) : Objection d p c mark (.notChild p r)
  | ownAncestor (hc : c < d.size) (hk : d.Holds p) (hm : ∀ r, mark = some r → r ∈ d.children p)
    (ha : Relation.ReflTransGen d.HasParent p c) : Objection d p c mark (.ownAncestor p c)

/-- How the document `e` has come out of `d` by inserting `c` into `p` before `mark`. -/
structure Inserted (d : Document) (p c : NodeId) (mark : Option NodeId) (e : Document) : Prop where
  kind?_eq : ∀ n, e.kind? n = d.kind? n
  parent?_moving : ∀ n ∈ d.moving c, e.parent? n = some p
  parent?_other : ∀ n, n ∉ d.moving c → e.parent? n = d.parent? n
  at_end : mark = none →
    e.children p = (d.children p).filter (· ∉ d.moving c) ++ d.moving c
  before_mark : ∀ r, mark = some r → r ≠ c → ∃ xs ys,
    (d.children p).filter (· ∉ d.moving c) = xs ++ r :: ys ∧
      e.children p = xs ++ d.moving c ++ r :: ys
  before_self : mark = some c → e.children p = d.children p
  old_parent : ∀ q, q ≠ p → d.parent? c = some q → e.children q = (d.children q).erase c
  fragment : d.kind? c = some .fragment → e.children c = []
  children_other : ∀ n, n ≠ p → d.parent? c ≠ some n →
    (n = c → d.kind? c ≠ some .fragment) → e.children n = d.children n

/-! ## Objections -/

theorem holds_iff : d.Holds p ↔ ∃ k, d.kind? p = some k ∧ isContainer k = true := by
  constructor
  · rintro (⟨el, hk⟩ | hk)
    · exact ⟨_, hk, rfl⟩
    · exact ⟨_, hk, rfl⟩
  · rintro ⟨k, hk, hc⟩
    cases k with
    | element el => exact .inl ⟨el, hk⟩
    | fragment => exact .inr hk
    | text s => cases hc

namespace Forest

theorem admits_iff (h : d.Forest) : d.Admits p c mark ↔
    c < d.size ∧ p < d.size ∧ d.Holds p ∧ (∀ r, mark = some r → r ∈ d.children p) ∧
      ¬ Relation.ReflTransGen d.HasParent p c := by
  have hmark : ∀ r, r ∈ d.children p ↔ d.parent? r = some p := h.linked.mem_children_iff p
  constructor
  · intro ha
    exact ⟨ha.child_lt, ha.parent_lt, holds_iff.mpr ha.container,
      fun r hr => (hmark r).mpr (ha.mark_parent r hr),
      fun hr => ha.not_ancestor (h.mem_ancestors_iff.mpr hr)⟩
  · rintro ⟨hc, _, hk, hm, ha⟩
    exact ⟨hc, holds_iff.mp hk, fun r hr => (hmark r).mp (hm r hr),
      fun hanc => ha (h.mem_ancestors_iff.mp hanc)⟩

theorem isNone_get?_iff {n : NodeId} : (d.get? n).isNone = true ↔ d.size ≤ n := by
  rw [Option.isNone_iff_eq_none, get?_eq_none_iff]

/-- What is found to stand in the way is an objection. -/
theorem objection_of_obstacle? (h : d.Forest) {err : DocumentError}
    (ho : d.obstacle? p c mark = some err) : d.Objection p c mark err := by
  have hmark : ∀ r, r ∈ d.children p ↔ d.parent? r = some p := h.linked.mem_children_iff p
  unfold obstacle? at ho
  split at ho
  · rename_i hc
    cases ho
    exact .unknownChild (isNone_get?_iff.mp hc)
  rename_i hc
  have hc : c < d.size := Nat.lt_of_not_le fun hle => hc (isNone_get?_iff.mpr hle)
  split at ho
  · rename_i hp
    cases ho
    exact .unknownParent hc ((kind?_eq_none_iff d p).mp hp)
  rename_i k hk
  split at ho
  · rename_i hcont
    cases ho
    refine .notContainer hc (lt_size_of_kind? hk) fun hholds => ?_
    obtain ⟨k', hk', hc'⟩ := holds_iff.mp hholds
    cases hk.symm.trans hk'
    simp [hc'] at hcont
  rename_i hcont
  have hholds : d.Holds p := holds_iff.mpr ⟨k, hk, by simpa using hcont⟩
  split at ho
  · rename_i r hr
    cases ho
    obtain ⟨hr, hparent⟩ := Option.filter_eq_some_iff.mp hr
    refine .notChild hc hholds hr fun hmem => ?_
    simp [(hmark r).mp hmem] at hparent
  rename_i hm
  split at ho
  · rename_i ha
    cases ho
    refine .ownAncestor hc hholds (fun r hr => ?_) (h.mem_ancestors_iff.mp (by simpa using ha))
    rw [hmark]
    simpa [hr, Option.filter] using hm
  · cases ho

/-- An objection is found, as nothing before it is. -/
theorem obstacle?_of_objection (h : d.Forest) {err : DocumentError}
    (ho : d.Objection p c mark err) : d.obstacle? p c mark = some err := by
  have hmark : ∀ r, r ∈ d.children p ↔ d.parent? r = some p := h.linked.mem_children_iff p
  -- past the first objection the child is known, past the third the parent holds children
  have hknown : c < d.size → (d.get? c).isNone = false := fun hc =>
    Bool.eq_false_iff.mpr fun hn => Nat.not_le_of_lt hc (isNone_get?_iff.mp hn)
  have hholds : d.Holds p → ∃ k, d.kind? p = some k ∧ isContainer k = true := holds_iff.mp
  unfold obstacle?
  cases ho with
  | unknownChild hc => rw [if_pos (isNone_get?_iff.mpr hc)]
  | unknownParent hc hp => simp [hknown hc, (kind?_eq_none_iff d p).mpr hp]
  | notContainer hc hp hk =>
    obtain ⟨k, hkind⟩ := exists_kind? hp
    have hcont : isContainer k = false :=
      Bool.eq_false_iff.mpr fun hcont => hk (holds_iff.mpr ⟨k, hkind, hcont⟩)
    simp [hknown hc, hkind, hcont]
  | notChild hc hk hm hr =>
    obtain ⟨k, hkind, hcont⟩ := hholds hk
    rw [hmark] at hr
    simp [hknown hc, hkind, hcont, hm, Option.filter, hr]
  | ownAncestor hc hk hm ha =>
    obtain ⟨k, hkind, hcont⟩ := hholds hk
    have hm : mark.filter (d.parent? · != some p) = none := by
      rw [Option.filter_eq_none_iff]
      intro r hr
      simp [(hmark r).mp (hm r hr)]
    simp [hknown hc, hkind, hcont, hm, h.mem_ancestors_iff.mpr ha]

end Forest

/-! ## Where the moved nodes stand -/

theorem exists_splice (moved : List NodeId) {xs : List NodeId} {r : NodeId} (h : r ∈ xs) :
    ∃ ys zs, xs = ys ++ r :: zs ∧ splice moved (some r) xs = ys ++ moved ++ r :: zs := by
  obtain ⟨ys, zs, rfl, hr⟩ := List.eq_append_cons_of_mem h
  exact ⟨ys, zs, rfl, splice_append_cons moved hr⟩

namespace Forest

/-- The children of the parent, without the moved nodes, are there to put these between. -/
theorem children_unlink_parent (h : d.Forest) :
    (d.unlink c).children p = (d.children p).filter (· ∉ [c]) := by
  rw [children_unlink]
  split
  · refine List.filter_congr fun n _ => ?_
    by_cases hn : n = c <;> simp [hn]
  · rename_i hp
    refine (List.filter_eq_self.mpr fun n hn => ?_).symm
    have hne : n ≠ c := by
      rintro rfl
      exact hp ((h.linked.mem_children_iff p n).mp hn)
    simpa using hne

theorem filter_children_fragment (h : d.Forest) (hne : c ≠ p) :
    (d.children p).filter (· ∉ d.children c) = d.children p := by
  refine List.filter_eq_self.mpr fun n hn => ?_
  have hnot : n ∉ d.children c := by
    intro hnc
    rw [h.linked.mem_children_iff] at hn hnc
    exact hne (Option.some.inj (hnc.symm.trans hn))
  simpa using hnot

theorem inserted_pour (h : d.Forest) (ha : d.Admits p c mark) (hc : d.kind? c = some .fragment) :
    Inserted d p c mark (d.pour p c mark) := by
  have hparent := parent?_pour d p c mark fun n hn => h.linked.lt_size hn
  have hchildren := children_pour ha
  have hold := h.parent?_fragment c hc
  have hp : (d.pour p c mark).children p = splice (d.children c) mark (d.children p) := by
    rw [hchildren, if_neg (Ne.symm ha.ne), if_pos rfl]
  constructor
  · exact kind?_pour d p c mark
  · intro n hn
    rw [moving_fragment hc] at hn
    rw [hparent, if_pos hn]
  · intro n hn
    rw [moving_fragment hc] at hn
    rw [hparent, if_neg hn]
  · rintro rfl
    rw [moving_fragment hc, h.filter_children_fragment ha.ne, hp]
    rfl
  · rintro r rfl _
    rw [moving_fragment hc, h.filter_children_fragment ha.ne, hp]
    exact exists_splice _ ((h.linked.mem_children_iff p r).mpr (ha.mark_parent r rfl))
  · rintro rfl
    cases hold.symm.trans (ha.mark_parent c rfl)
  · intro q _ hq
    cases hold.symm.trans hq
  · intro _
    rw [hchildren, if_pos rfl]
  · intro n hn _ hnc
    rw [hchildren, if_neg fun hnc' => hnc hnc' hc, if_neg hn]

theorem inserted_place (h : d.Forest) (ha : d.Admits p c mark) (hc : d.kind? c ≠ some .fragment)
    (hm : mark ≠ some c) : Inserted d p c mark (d.place p c mark) := by
  have hparent : ∀ n, (d.place p c mark).parent? n = if n = c then some p else d.parent? n :=
    parent?_place mark ha.child_lt
  have hchildren := children_place ha
  have hp : (d.place p c mark).children p =
      splice [c] mark ((d.children p).filter (· ∉ [c])) := by
    rw [hchildren, if_pos rfl, h.children_unlink_parent]
  constructor
  · exact kind?_place d p c mark
  · intro n hn
    rw [moving_node hc] at hn
    rw [hparent, if_pos (List.mem_singleton.mp hn)]
  · intro n hn
    rw [moving_node hc] at hn
    rw [hparent, if_neg fun hnc => hn (List.mem_singleton.mpr hnc)]
  · rintro rfl
    rw [moving_node hc, hp]
    rfl
  · rintro r rfl hr
    have hmem : r ∈ d.children p := (h.linked.mem_children_iff p r).mpr (ha.mark_parent r rfl)
    rw [moving_node hc, hp]
    exact exists_splice _ (List.mem_filter.mpr ⟨hmem, by simpa using hr⟩)
  · intro hself
    exact absurd hself hm
  · intro q hq hold
    rw [hchildren, if_neg hq, children_unlink, if_pos hold,
      (h.linked.nodup_children q).erase_eq_filter]
  · intro hf
    exact absurd hf hc
  · intro n hn hold _
    rw [hchildren, if_neg hn, children_unlink, if_neg hold]

/-- To put a node before itself changes nothing. -/
theorem inserted_self (ha : d.Admits p c (some c)) (hc : d.kind? c ≠ some .fragment) :
    Inserted d p c (some c) d := by
  have hparent := ha.mark_parent c rfl
  constructor
  · intro n
    rfl
  · intro n hn
    rw [moving_node hc] at hn
    rw [List.mem_singleton.mp hn, hparent]
  · intro n _
    rfl
  · intro hnone
    cases hnone
  · intro r hr hne
    exact absurd (Option.some.inj hr).symm hne
  · intro _
    rfl
  · intro q hq hold
    exact absurd (Option.some.inj (hold.symm.trans hparent)) hq
  · intro hf
    exact absurd hf hc
  · intro n _ _ _
    rfl

theorem exists_inserted (h : d.Forest) (ha : d.Admits p c mark) :
    ∃ e, d.insertBefore p c mark = .ok e ∧ Inserted d p c mark e := by
  by_cases hc : d.kind? c = some .fragment
  · exact ⟨_, insertBefore_fragment ha hc, h.inserted_pour ha hc⟩
  · by_cases hm : mark = some c
    · subst hm
      exact ⟨_, insertBefore_self ha hc rfl, inserted_self ha hc⟩
    · exact ⟨_, insertBefore_node ha hc hm, h.inserted_place ha hc hm⟩

theorem insertBefore_eq_error_iff (h : d.Forest) {err : DocumentError} :
    d.insertBefore p c mark = .error err ↔ d.Objection p c mark err := by
  constructor
  · intro herr
    cases ho : d.obstacle? p c mark with
    | some err' =>
      have herr' : d.insertBefore p c mark = .error err' := by simp [Document.insertBefore, ho]
      cases herr.symm.trans herr'
      exact h.objection_of_obstacle? ho
    | none =>
      obtain ⟨e, he, _⟩ := h.exists_inserted (obstacle?_eq_none_iff.mp ho)
      cases herr.symm.trans he
  · intro ho
    simp [Document.insertBefore, h.obstacle?_of_objection ho]

end Forest

/-- An insertion into a document that came about by operations succeeds exactly when both
nodes are known, the parent can have children, the mark is one of them and the child is no
ancestor of the parent. Otherwise the first of these that fails is reported and nothing
changes. If it succeeds, the nodes that move stand in order before the mark, and everything
else is as it was. -/
theorem insertBefore_contract (ops : List Operation) (p c : NodeId) (mark : Option NodeId) :
    let d := after ops
    ((∃ e, d.insertBefore p c mark = .ok e) ↔
      c < d.size ∧ p < d.size ∧ d.Holds p ∧ (∀ r, mark = some r → r ∈ d.children p) ∧
        ¬ Relation.ReflTransGen d.HasParent p c) ∧
    (∀ err, d.insertBefore p c mark = .error err ↔ d.Objection p c mark err) ∧
    (∀ err, d.insertBefore p c mark = .error err → d.perform (.insertBefore p c mark) = d) ∧
    ∀ e, d.insertBefore p c mark = .ok e →
      d.perform (.insertBefore p c mark) = e ∧ Inserted d p c mark e := by
  intro d
  have h : d.Forest := forest_after ops
  refine ⟨?_, fun err => h.insertBefore_eq_error_iff, fun err herr => ?_, fun e he => ⟨?_, ?_⟩⟩
  · rw [← h.admits_iff]
    constructor
    · rintro ⟨e, he⟩
      exact (insertBefore_cases he).1
    · intro ha
      obtain ⟨e, he, _⟩ := h.exists_inserted ha
      exact ⟨e, he⟩
  · simp [perform, Operation.apply, herr]
  · simp [perform, Operation.apply, he]
  · obtain ⟨e', he', hin⟩ := h.exists_inserted (insertBefore_cases he).1
    cases he.symm.trans he'
    exact hin

end Stencil.Document

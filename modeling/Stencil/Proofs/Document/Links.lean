import Stencil.Proofs.Document.Operations

/-! Links of a document. A node names its parent, and a parent lists its children; in a
linked document the two say the same. Also, what it means that a document was changed
in some of its nodes only. -/
namespace Stencil.Document

/-- Parents and children agree, no child is listed twice, and texts have no children. -/
structure Linked (d : Document) : Prop where
  mem_children_iff : ∀ p c, c ∈ d.children p ↔ d.parent? c = some p
  nodup_children : ∀ p, (d.children p).Nodup
  children_text : ∀ p s, d.kind? p = some (.text s) → d.children p = []

namespace Linked

variable {d : Document}

theorem empty : ({} : Document).Linked := by
  refine ⟨?_, ?_, ?_⟩ <;> intros <;> simp [children, parent?, get?]

theorem lt_size (h : d.Linked) {p c : Nat} (hc : c ∈ d.children p) : c < d.size :=
  lt_size_of_parent? ((h.mem_children_iff p c).mp hc)

theorem parent_lt_size (h : d.Linked) {p c : Nat} (hc : d.parent? c = some p) : p < d.size :=
  lt_size_of_mem_children ((h.mem_children_iff p c).mpr hc)

theorem isContainer (h : d.Linked) {p c : Nat} (hc : c ∈ d.children p) :
    ∃ k, d.kind? p = some k ∧ isContainer k = true := by
  obtain ⟨k, hk⟩ := exists_kind? (lt_size_of_mem_children hc)
  refine ⟨k, hk, ?_⟩
  cases k with
  | text s => rw [h.children_text p s hk] at hc; cases hc
  | element e => rfl
  | fragment => rfl

theorem create (h : d.Linked) (k : Kind) : (d.create k).Linked where
  mem_children_iff p c := by
    rw [children_create, parent?_create]
    exact h.mem_children_iff p c
  nodup_children p := by
    rw [children_create]
    exact h.nodup_children p
  children_text p s hs := by
    rw [children_create]
    rw [kind?_create] at hs
    split at hs
    · rename_i hp
      exact children_of_size_le (Nat.le_of_eq hp.symm)
    · exact h.children_text p s hs

theorem unlink (h : d.Linked) (id : NodeId) : (d.unlink id).Linked where
  mem_children_iff p c := by
    rw [children_unlink, parent?_unlink]
    by_cases hc : c = id
    · subst hc
      by_cases hp : d.parent? c = some p
      · simp [hp]
      · simp [hp, h.mem_children_iff]
    · rw [if_neg hc, ← h.mem_children_iff p c]
      split
      · simp [hc]
      · rfl
  nodup_children p := by
    rw [children_unlink]
    split
    · exact (h.nodup_children p).filter _
    · exact h.nodup_children p
  children_text p s hs := by
    rw [kind?_unlink] at hs
    rw [children_unlink, h.children_text p s hs]
    split <;> rfl

theorem pour (h : d.Linked) {p f : Nat} {mark : Option NodeId} (ha : d.Admits p f mark) :
    (d.pour p f mark).Linked where
  mem_children_iff q c := by
    have hf : ∀ n : Nat, n ∈ d.children f → n < d.size := fun n hn => h.lt_size hn
    rw [children_pour ha, parent?_pour _ _ _ _ hf]
    by_cases hq : q = f
    · subst hq
      rw [if_pos rfl]
      split
      · simp [Ne.symm ha.ne]
      · rename_i hc
        simpa [← h.mem_children_iff] using hc
    · rw [if_neg hq]
      by_cases hc : c ∈ d.children f
      · rw [if_pos hc]
        split
        · rename_i hqp
          simp [mem_splice, hc, hqp]
        · rename_i hqp
          rw [h.mem_children_iff, (h.mem_children_iff f c).mp hc]
          simp [Ne.symm hq, Ne.symm hqp]
      · rw [if_neg hc, ← h.mem_children_iff]
        split
        · simp [mem_splice, hc]
        · rfl
  nodup_children q := by
    rw [children_pour ha]
    split
    · exact List.nodup_nil
    · rename_i hq
      split
      · rw [(splice_perm _ _ _).nodup_iff]
        refine (h.nodup_children f).append (h.nodup_children q) ?_
        intro c hf hc
        rw [h.mem_children_iff] at hf hc
        rw [hf] at hc
        exact hq (Option.some.inj hc).symm
      · exact h.nodup_children q
  children_text q s hs := by
    rw [kind?_pour] at hs
    rw [children_pour ha, h.children_text q s hs]
    split
    · rfl
    · split
      · rename_i hqp
        obtain ⟨k, hk, hc⟩ := ha.container
        rw [hqp, hk] at hs
        cases hs
        cases hc
      · rfl

theorem place (h : d.Linked) {p c : Nat} {mark : Option NodeId} (ha : d.Admits p c mark) :
    (d.place p c mark).Linked where
  mem_children_iff q x := by
    have hu := (h.unlink c).mem_children_iff q x
    rw [parent?_unlink] at hu
    rw [children_place ha, parent?_place _ ha.child_lt]
    by_cases hx : x = c
    · subst hx
      rw [if_pos rfl] at hu ⊢
      split
      · rename_i hq
        simp [mem_splice, hq]
      · rename_i hq
        simpa [Ne.symm hq] using hu
    · rw [if_neg hx] at hu ⊢
      split
      · simpa [mem_splice, hx] using hu
      · exact hu
  nodup_children q := by
    rw [children_place ha]
    split
    · rw [(splice_perm _ _ _).nodup_iff]
      refine List.nodup_cons.mpr ⟨?_, (h.unlink c).nodup_children q⟩
      intro hc
      have := ((h.unlink c).mem_children_iff q c).mp hc
      simp [parent?_unlink] at this
    · exact (h.unlink c).nodup_children q
  children_text q s hs := by
    rw [kind?_place] at hs
    have hu := (h.unlink c).children_text q s (by rwa [kind?_unlink])
    rw [children_place ha, hu]
    split
    · rename_i hqp
      obtain ⟨k, hk, hc⟩ := ha.container
      rw [hqp, hk] at hs
      cases hs
      cases hc
    · rfl

theorem setKind (h : d.Linked) {id : Nat} {k : Kind} (hid : id < d.size)
    (hk : ∀ s, k = .text s → d.children id = []) : (d.setKind id k).Linked where
  mem_children_iff p c := by
    rw [children_setKind, parent?_setKind]
    exact h.mem_children_iff p c
  nodup_children p := by
    rw [children_setKind]
    exact h.nodup_children p
  children_text p s hs := by
    rw [children_setKind]
    rw [kind?_setKind k hid] at hs
    split at hs
    · rename_i hp
      rw [hp]
      exact hk s (Option.some.inj hs)
    · exact h.children_text p s hs

end Linked

/-! ## Changes to some nodes -/

/-- The second document has the nodes of the first, and those outside of `R` as they were. -/
structure ChangesOnly (R : Nat → Prop) (d e : Document) : Prop where
  size_le : d.size ≤ e.size
  get?_eq : ∀ n : Nat, n < d.size → ¬ R n → e.get? n = d.get? n

namespace ChangesOnly

variable {R S : Nat → Prop} {d e f : Document}

theorem refl (R : Nat → Prop) (d : Document) : ChangesOnly R d d :=
  ⟨Nat.le_refl _, fun _ _ _ => rfl⟩

theorem mono (h : ChangesOnly R d e) (hRS : ∀ n : Nat, n < d.size → R n → S n) :
    ChangesOnly S d e :=
  ⟨h.size_le, fun n hn hS => h.get?_eq n hn fun hR => hS (hRS n hn hR)⟩

/-- What a second change does to nodes that are new after the first is of no account. -/
theorem trans (h : ChangesOnly R d e) (h' : ChangesOnly S e f)
    (hSR : ∀ n : Nat, n < d.size → S n → R n) : ChangesOnly R d f where
  size_le := Nat.le_trans h.size_le h'.size_le
  get?_eq n hn hR := by
    rw [h'.get?_eq n (Nat.lt_of_lt_of_le hn h.size_le) fun hS => hR (hSR n hn hS)]
    exact h.get?_eq n hn hR

theorem kind?_eq (h : ChangesOnly R d e) {n : Nat} (hn : n < d.size) (hR : ¬ R n) :
    e.kind? n = d.kind? n :=
  kind?_of_get? (h.get?_eq n hn hR)

theorem parent?_eq (h : ChangesOnly R d e) {n : Nat} (hn : n < d.size) (hR : ¬ R n) :
    e.parent? n = d.parent? n :=
  parent?_of_get? (h.get?_eq n hn hR)

theorem children_eq (h : ChangesOnly R d e) {n : Nat} (hn : n < d.size) (hR : ¬ R n) :
    e.children n = d.children n :=
  children_of_get? (h.get?_eq n hn hR)

theorem setKind (d : Document) (id : Nat) (k : Kind) :
    ChangesOnly (fun n => n = id) d (d.setKind id k) where
  size_le := Nat.le_of_eq (size_setKind d id k).symm
  get?_eq _ _ hne := get?_setKind k hne

theorem editElement {id : NodeId} {f : Element → Element} (h : d.editElement id f = .ok e) :
    ChangesOnly (fun n => n = id) d e := by
  obtain ⟨el, _, rfl⟩ := editElement_cases h
  exact .setKind d id _

theorem pour {p c : Nat} {mark : Option NodeId} (hl : d.Linked) (ha : d.Admits p c mark) :
    ChangesOnly (fun n => n = p ∨ n = c ∨ n ∈ d.children c) d (d.pour p c mark) where
  size_le := Nat.le_of_eq (size_pour d p c mark).symm
  get?_eq n _ hR := by
    have hp : n ≠ p := fun h => hR (.inl h)
    have hc : n ≠ c := fun h => hR (.inr (.inl h))
    have hm : n ∉ d.children c := fun h => hR (.inr (.inr h))
    refine get?_congr (kind?_pour ..) ?_ ?_
    · rw [parent?_pour _ _ _ _ (fun _ h => hl.lt_size h), if_neg hm]
    · rw [children_pour ha, if_neg hc, if_neg hp]

end ChangesOnly
end Stencil.Document

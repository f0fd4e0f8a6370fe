import Mathlib.Data.List.Nodup
import Stencil.Document.Basic

/-! What the operations on a document do to the kind, the parent and the children of
every node. Nothing later opens an entry. -/
namespace Stencil.Document

/-! ## Reading -/

theorem get?_eq_none_iff (d : Document) (n : NodeId) : d.get? n = none ↔ d.size ≤ n := by
  simp [get?, size]

theorem kind?_eq_none_iff (d : Document) (n : NodeId) : d.kind? n = none ↔ d.size ≤ n := by
  simp [kind?, get?_eq_none_iff]

theorem lt_size_of_kind? {d : Document} {n : Nat} {k : Kind} (h : d.kind? n = some k) :
    n < d.size := by
  rcases Nat.lt_or_ge n d.size with hn | hn
  · exact hn
  · rw [(kind?_eq_none_iff d n).mpr hn] at h
    cases h

theorem exists_kind? {d : Document} {n : Nat} (h : n < d.size) : ∃ k, d.kind? n = some k := by
  cases hk : d.kind? n with
  | none => exact absurd ((kind?_eq_none_iff d n).mp hk) (by omega)
  | some k => exact ⟨k, rfl⟩

theorem parent?_of_size_le {d : Document} {n : NodeId} (h : d.size ≤ n) : d.parent? n = none := by
  simp [parent?, (get?_eq_none_iff d n).mpr h]

theorem children_of_size_le {d : Document} {n : NodeId} (h : d.size ≤ n) : d.children n = [] := by
  simp [children, (get?_eq_none_iff d n).mpr h]

theorem lt_size_of_parent? {d : Document} {n p : Nat} (h : d.parent? n = some p) :
    n < d.size := by
  rcases Nat.lt_or_ge n d.size with hn | hn
  · exact hn
  · rw [parent?_of_size_le hn] at h
    cases h

theorem lt_size_of_mem_children {d : Document} {n p : Nat} (h : n ∈ d.children p) :
    p < d.size := by
  rcases Nat.lt_or_ge p d.size with hp | hp
  · exact hp
  · rw [children_of_size_le hp] at h
    cases h

/-- An entry is its kind, its parent and its children. -/
theorem get?_congr {d e : Document} {n : NodeId} (hk : e.kind? n = d.kind? n)
    (hp : e.parent? n = d.parent? n) (hc : e.children n = d.children n) :
    e.get? n = d.get? n := by
  unfold kind? at hk
  unfold parent? at hp
  unfold children at hc
  cases hd : d.get? n with
  | none => rw [hd] at hk; simpa using hk
  | some x =>
    cases he : e.get? n with
    | none => rw [hd, he] at hk; simp at hk
    | some y =>
      rw [hd, he] at hk hp hc
      cases x; cases y
      simp_all

theorem kind?_of_get? {d e : Document} {n : NodeId} (h : e.get? n = d.get? n) :
    e.kind? n = d.kind? n := by
  simp [kind?, h]

theorem parent?_of_get? {d e : Document} {n : NodeId} (h : e.get? n = d.get? n) :
    e.parent? n = d.parent? n := by
  simp [parent?, h]

theorem children_of_get? {d e : Document} {n : NodeId} (h : e.get? n = d.get? n) :
    e.children n = d.children n := by
  simp [children, h]

/-! ## New nodes -/

theorem get?_create (d : Document) (k : Kind) (n : NodeId) :
    (d.create k).get? n = if n = d.size then some ⟨k, none, []⟩ else d.get? n := by
  exact Array.getElem?_push

theorem kind?_create (d : Document) (k : Kind) (n : NodeId) :
    (d.create k).kind? n = if n = d.size then some k else d.kind? n := by
  unfold kind?
  rw [get?_create]
  split <;> rfl

theorem parent?_create (d : Document) (k : Kind) (n : NodeId) :
    (d.create k).parent? n = d.parent? n := by
  by_cases h : n = d.size
  · rw [parent?_of_size_le (Nat.le_of_eq h.symm)]
    simp [parent?, get?_create, h]
  · simp [parent?, get?_create, h]

theorem children_create (d : Document) (k : Kind) (n : NodeId) :
    (d.create k).children n = d.children n := by
  by_cases h : n = d.size
  · rw [children_of_size_le (Nat.le_of_eq h.symm)]
    simp [children, get?_create, h]
  · simp [children, get?_create, h]

/-! ## Edits of one entry -/

theorem kind?_edit {d : Document} {f : Entry → Entry} (hf : ∀ e, (f e).kind = e.kind)
    (id n : NodeId) : (d.edit id f).kind? n = d.kind? n := by
  unfold kind?
  rw [get?_edit]
  split
  · cases d.get? n <;> simp [hf]
  · rfl

theorem parent?_edit {d : Document} {f : Entry → Entry} (hf : ∀ e, (f e).parent = e.parent)
    (id n : NodeId) : (d.edit id f).parent? n = d.parent? n := by
  unfold parent?
  rw [get?_edit]
  split
  · cases d.get? n <;> simp [hf]
  · rfl

theorem children_edit {d : Document} {f : Entry → Entry} (hf : ∀ e, (f e).children = e.children)
    (id n : NodeId) : (d.edit id f).children n = d.children n := by
  unfold children
  rw [get?_edit]
  split
  · cases d.get? n <;> simp [hf]
  · rfl

theorem children_edit_children (d : Document) (f : List NodeId → List NodeId) (id n : Nat)
    (hid : id < d.size) :
    (d.edit id fun e => { e with children := f e.children }).children n =
      if n = id then f (d.children n) else d.children n := by
  unfold children
  rw [get?_edit]
  split
  · rename_i h
    subst h
    cases hd : d.get? n with
    | none => exact absurd ((get?_eq_none_iff d n).mp hd) (by omega)
    | some e => rfl
  · rfl

theorem parent?_edit_parent (d : Document) (p : Option NodeId) (id n : Nat)
    (hid : id < d.size) :
    (d.edit id fun e => { e with parent := p }).parent? n =
      if n = id then p else d.parent? n := by
  unfold parent?
  rw [get?_edit]
  split
  · rename_i h
    subst h
    cases hd : d.get? n with
    | none => exact absurd ((get?_eq_none_iff d n).mp hd) (by omega)
    | some e => rfl
  · rfl

/-! ## Taking a node out of its parent -/

theorem size_unlink (d : Document) (id : NodeId) : (d.unlink id).size = d.size := by
  unfold unlink
  split <;> simp [size_edit]

theorem kind?_unlink (d : Document) (id n : NodeId) : (d.unlink id).kind? n = d.kind? n := by
  unfold unlink
  split
  · rfl
  · rw [kind?_edit, kind?_edit] <;> exact fun _ => rfl

theorem parent?_unlink (d : Document) (id n : Nat) :
    (d.unlink id).parent? n = if n = id then none else d.parent? n := by
  unfold unlink
  split
  · rename_i h
    split
    · rename_i hn; rw [hn, h]
    · rfl
  · rename_i p h
    rw [parent?_edit, parent?_edit_parent _ _ _ _ (lt_size_of_parent? h)]
    exact fun _ => rfl

theorem children_unlink (d : Document) (id n : NodeId) :
    (d.unlink id).children n =
      if d.parent? id = some n then (d.children n).filter (· != id) else d.children n := by
  unfold unlink
  split
  · rename_i h
    simp [h]
  · rename_i p h
    have hc : ∀ m, (d.edit id fun e => { e with parent := none }).children m = d.children m := by
      intro m
      rw [children_edit]
      exact fun _ => rfl
    simp only [h, Option.some.injEq]
    by_cases hp : p < d.size
    · rw [children_edit_children _ _ _ _ (by rwa [size_edit]), hc]
      by_cases hn : n = p
      · simp [hn]
      · simp [hn, Ne.symm hn]
    · -- a parent that is not there has no children to lose
      have hd : d.get? p = none := (get?_eq_none_iff d p).mpr (Nat.le_of_not_lt hp)
      have he : ∀ f, ((d.edit id fun e => { e with parent := none }).edit p f).children n
          = d.children n := by
        intro f
        rw [← hc n]
        unfold children
        rw [get?_edit _ p]
        split
        · rename_i hn
          subst hn
          simp [get?_edit, hd]
        · rfl
      rw [he]
      split
      · rename_i hn
        subst hn
        simp [children, hd]
      · rfl

/-! ## Giving nodes a new parent -/

theorem get?_foldl_edit (f : Entry → Entry) (hf : ∀ e, f (f e) = f e) (ns : List NodeId)
    (d : Document) (n : NodeId) :
    (ns.foldl (fun d m => d.edit m f) d).get? n =
      if n ∈ ns then (d.get? n).map f else d.get? n := by
  induction ns generalizing d with
  | nil => simp
  | cons m ns ih =>
    rw [List.foldl_cons, ih, get?_edit]
    by_cases hm : n = m
    · subst hm
      by_cases hn : n ∈ ns
      · cases d.get? n <;> simp [hn, hf]
      · simp [hn]
    · simp [hm]

theorem size_foldl_edit (f : Entry → Entry) (ns : List NodeId) (d : Document) :
    (ns.foldl (fun d m => d.edit m f) d).size = d.size := by
  induction ns generalizing d with
  | nil => rfl
  | cons m ns ih => rw [List.foldl_cons, ih, size_edit]

theorem size_adopt (d : Document) (p : NodeId) (moved : List NodeId) (mark : Option NodeId) :
    (d.adopt p moved mark).size = d.size := by
  unfold adopt
  rw [size_edit, size_foldl_edit]

theorem kind?_adopt (d : Document) (p : NodeId) (moved : List NodeId) (mark : Option NodeId)
    (n : NodeId) : (d.adopt p moved mark).kind? n = d.kind? n := by
  unfold adopt
  rw [kind?_edit]
  · unfold kind?
    rw [get?_foldl_edit]
    · split
      · cases d.get? n <;> rfl
      · rfl
    · exact fun _ => rfl
  · exact fun _ => rfl

theorem parent?_adopt (d : Document) (p : NodeId) {moved : List NodeId} (mark : Option NodeId)
    (hm : ∀ n : Nat, n ∈ moved → n < d.size) (n : NodeId) :
    (d.adopt p moved mark).parent? n = if n ∈ moved then some p else d.parent? n := by
  unfold adopt
  rw [parent?_edit]
  · unfold parent?
    rw [get?_foldl_edit]
    · split
      · rename_i h
        cases hd : d.get? n with
        | none => exact absurd ((get?_eq_none_iff d n).mp hd) (Nat.not_le_of_lt (hm n h))
        | some e => rfl
      · rfl
    · exact fun _ => rfl
  · exact fun _ => rfl

theorem children_adopt (d : Document) {p : Nat} (moved : List NodeId) (mark : Option NodeId)
    (hp : p < d.size) (n : Nat) :
    (d.adopt p moved mark).children n =
      if n = p then splice moved mark (d.children n) else d.children n := by
  unfold adopt
  rw [children_edit_children _ _ _ _ (by rwa [size_foldl_edit])]
  have hc : ∀ m,
      (moved.foldl (fun d n => d.edit n fun e => { e with parent := some p }) d).children m =
        d.children m := by
    intro m
    unfold children
    rw [get?_foldl_edit]
    · split
      · cases d.get? m <;> rfl
      · rfl
    · exact fun _ => rfl
  rw [hc]

/-! ## Insertion -/

theorem splice_append_cons (moved : List NodeId) {xs ys : List NodeId} {r : NodeId}
    (h : r ∉ xs) : splice moved (some r) (xs ++ r :: ys) = xs ++ moved ++ r :: ys := by
  have ht : (xs ++ r :: ys).takeWhile (· != r) = xs := by
    induction xs with
    | nil => simp
    | cons x xs ih =>
      have hx : (x != r) = true := by simpa using fun e => h (by simp [e])
      simp only [List.cons_append, List.takeWhile_cons, hx, ↓reduceIte]
      rw [ih (fun hm => h (by simp [hm]))]
  have hd : (xs ++ r :: ys).dropWhile (· != r) = r :: ys := by
    have := List.takeWhile_append_dropWhile (p := (· != r)) (l := xs ++ r :: ys)
    rw [ht] at this
    exact List.append_cancel_left this
  simp only [splice, ht, hd]

theorem splice_perm (moved : List NodeId) (mark : Option NodeId) (xs : List NodeId) :
    (splice moved mark xs).Perm (moved ++ xs) := by
  cases mark with
  | none => exact List.perm_append_comm
  | some r =>
    have hp : (xs.takeWhile (· != r) ++ moved ++ xs.dropWhile (· != r)).Perm
        (moved ++ xs.takeWhile (· != r) ++ xs.dropWhile (· != r)) :=
      List.perm_append_comm.append_right _
    rwa [List.append_assoc moved, List.takeWhile_append_dropWhile] at hp

theorem mem_splice {moved : List NodeId} {mark : Option NodeId} {xs : List NodeId} {x : NodeId} :
    x ∈ splice moved mark xs ↔ x ∈ moved ∨ x ∈ xs := by
  rw [(splice_perm moved mark xs).mem_iff, List.mem_append]

/-- What an ancestor may be, said by a property that passes on to the parent. -/
theorem forall_mem_climb {d : Document} {S : NodeId → Prop}
    (hS : ∀ x y, S x → d.parent? x = some y → S y) (steps : Nat) {p : NodeId} (hp : S p) :
    ∀ a ∈ d.climb steps p, S a := by
  induction steps generalizing p with
  | zero => simp [climb]
  | succ steps ih =>
    intro a ha
    rw [climb] at ha
    rcases List.mem_cons.mp ha with rfl | ha
    · exact hp
    · cases hq : d.parent? p with
      | none => rw [hq] at ha; cases ha
      | some q => rw [hq] at ha; exact ih (hS p q hp hq) a ha

theorem self_mem_ancestors (d : Document) (p : NodeId) : p ∈ d.ancestors p := by
  simp [ancestors, climb]

/-- The conditions under which `child` goes into `parent` before `mark`. -/
structure Admits (d : Document) (parent child : Nat) (mark : Option NodeId) : Prop where
  child_lt : child < d.size
  container : ∃ k, d.kind? parent = some k ∧ isContainer k = true
  mark_parent : ∀ r, mark = some r → d.parent? r = some parent
  not_ancestor : child ∉ d.ancestors parent

theorem Admits.ne {d : Document} {p c : Nat} {mark : Option NodeId} (h : d.Admits p c mark) :
    c ≠ p := by
  intro e
  exact h.not_ancestor (e ▸ self_mem_ancestors d p)

theorem Admits.parent_lt {d : Document} {p c : Nat} {mark : Option NodeId}
    (h : d.Admits p c mark) : p < d.size := by
  obtain ⟨k, hk, _⟩ := h.container
  exact lt_size_of_kind? hk

theorem obstacle?_eq_none_iff {d : Document} {p c : Nat} {mark : Option NodeId} :
    d.obstacle? p c mark = none ↔ d.Admits p c mark := by
  unfold obstacle?
  constructor
  · intro h
    split at h
    · cases h
    · rename_i hc
      split at h
      · cases h
      · rename_i k hk
        split at h
        · cases h
        · rename_i hcont
          split at h
          · cases h
          · rename_i hm
            split at h
            · cases h
            · rename_i ha
              refine ⟨?_, ⟨k, hk, by simpa using hcont⟩, ?_, by simpa using ha⟩
              · exact Nat.lt_of_not_le fun hle => hc (by simp [(get?_eq_none_iff d c).mpr hle])
              · intro r hr
                subst hr
                simpa [Option.filter] using hm
  · intro ⟨hc, ⟨k, hk, hcont⟩, hm, ha⟩
    have hc' : (d.get? c).isNone = false := by
      cases hg : d.get? c with
      | none => exact absurd ((get?_eq_none_iff d c).mp hg) (Nat.not_le_of_lt hc)
      | some e => rfl
    have hm' : mark.filter (d.parent? · != some p) = none := by
      cases mark with
      | none => rfl
      | some r => simp [Option.filter, hm r rfl]
    simp [hc', hk, hcont, hm', ha]

/-- The children of `f` moved into `p`, and `f` left empty. -/
def pour (p f : NodeId) (mark : Option NodeId) (d : Document) : Document :=
  (d.edit f fun e => { e with children := [] }).adopt p (d.children f) mark

/-- The node `c` moved into `p`. -/
def place (p c : NodeId) (mark : Option NodeId) (d : Document) : Document :=
  (d.unlink c).adopt p [c] mark

theorem insertBefore_fragment {d : Document} {p f : NodeId} {mark : Option NodeId}
    (h : d.Admits p f mark) (hf : d.kind? f = some .fragment) :
    d.insertBefore p f mark = .ok (d.pour p f mark) := by
  unfold insertBefore
  rw [obstacle?_eq_none_iff.mpr h]
  simp only [hf]
  rfl

theorem insertBefore_node {d : Document} {p c : NodeId} {mark : Option NodeId}
    (h : d.Admits p c mark) (hc : d.kind? c ≠ some .fragment) (hm : mark ≠ some c) :
    d.insertBefore p c mark = .ok (d.place p c mark) := by
  unfold insertBefore
  rw [obstacle?_eq_none_iff.mpr h]
  split
  · contradiction
  · rename_i hx
    simp [hm, place]

theorem size_pour (d : Document) (p f : NodeId) (mark : Option NodeId) :
    (d.pour p f mark).size = d.size := by
  rw [pour, size_adopt, size_edit]

theorem kind?_pour (d : Document) (p f : NodeId) (mark : Option NodeId) (n : NodeId) :
    (d.pour p f mark).kind? n = d.kind? n := by
  rw [pour, kind?_adopt, kind?_edit]
  exact fun _ => rfl

theorem parent?_pour (d : Document) (p f : NodeId) (mark : Option NodeId)
    (hf : ∀ n : Nat, n ∈ d.children f → n < d.size) (n : NodeId) :
    (d.pour p f mark).parent? n = if n ∈ d.children f then some p else d.parent? n := by
  rw [pour, parent?_adopt _ _ _ (by simpa only [size_edit] using hf), parent?_edit]
  exact fun _ => rfl

theorem children_pour {d : Document} {p f : Nat} {mark : Option NodeId}
    (h : d.Admits p f mark) (n : Nat) :
    (d.pour p f mark).children n =
      if n = f then [] else if n = p then splice (d.children f) mark (d.children n)
      else d.children n := by
  have he : ∀ m, (d.edit f fun e => { e with children := [] }).children m =
      if m = f then [] else d.children m :=
    fun m => children_edit_children d (fun _ => []) f m h.child_lt
  rw [pour, children_adopt _ _ _ (by rw [size_edit]; exact h.parent_lt), he]
  by_cases hn : n = p
  · subst hn
    simp [Ne.symm h.ne]
  · simp [hn]

theorem size_place (d : Document) (p c : NodeId) (mark : Option NodeId) :
    (d.place p c mark).size = d.size := by
  rw [place, size_adopt, size_unlink]

theorem kind?_place (d : Document) (p c : NodeId) (mark : Option NodeId) (n : NodeId) :
    (d.place p c mark).kind? n = d.kind? n := by
  rw [place, kind?_adopt, kind?_unlink]

theorem parent?_place {d : Document} {p c : Nat} (mark : Option NodeId) (hc : c < d.size)
    (n : Nat) : (d.place p c mark).parent? n = if n = c then some p else d.parent? n := by
  rw [place, parent?_adopt _ _ _ (by simpa [size_unlink] using hc), parent?_unlink]
  by_cases hn : n = c <;> simp [hn]

theorem children_place {d : Document} {p c : Nat} {mark : Option NodeId}
    (h : d.Admits p c mark) (n : Nat) :
    (d.place p c mark).children n =
      if n = p then splice [c] mark ((d.unlink c).children n) else (d.unlink c).children n := by
  rw [place, children_adopt _ _ _ (by rw [size_unlink]; exact h.parent_lt)]

/-! ## Contents -/

/-- Gives a node a kind, and nothing else. -/
def setKind (id : NodeId) (k : Kind) (d : Document) : Document :=
  d.edit id fun e => { e with kind := k }

theorem size_setKind (d : Document) (id : NodeId) (k : Kind) : (d.setKind id k).size = d.size :=
  size_edit d id _

theorem parent?_setKind (d : Document) (id : NodeId) (k : Kind) (n : NodeId) :
    (d.setKind id k).parent? n = d.parent? n := by
  rw [setKind, parent?_edit]
  exact fun _ => rfl

theorem children_setKind (d : Document) (id : NodeId) (k : Kind) (n : NodeId) :
    (d.setKind id k).children n = d.children n := by
  rw [setKind, children_edit]
  exact fun _ => rfl

theorem kind?_setKind {d : Document} {id : Nat} (k : Kind) (hid : id < d.size) (n : Nat) :
    (d.setKind id k).kind? n = if n = id then some k else d.kind? n := by
  unfold setKind kind?
  rw [get?_edit]
  split
  · rename_i h
    subst h
    cases hd : d.get? n with
    | none => exact absurd ((get?_eq_none_iff d n).mp hd) (by omega)
    | some e => rfl
  · rfl

theorem get?_setKind {d : Document} {id n : NodeId} (k : Kind) (h : n ≠ id) :
    (d.setKind id k).get? n = d.get? n := by
  rw [setKind, get?_edit, if_neg h]

theorem setText_text {d : Document} {id : NodeId} {s : String} (text : String)
    (h : d.kind? id = some (.text s)) : d.setText id text = .ok (d.setKind id (.text text)) := by
  unfold setText
  rw [h]
  rfl

theorem editElement_element {d : Document} {id : NodeId} {el : Element} (f : Element → Element)
    (h : d.kind? id = some (.element el)) :
    d.editElement id f = .ok (d.setKind id (.element (f el))) := by
  unfold editElement
  rw [h]
  rfl

theorem editElement_cases {d e : Document} {x : NodeId} {f : Element → Element}
    (he : d.editElement x f = .ok e) :
    ∃ el, d.kind? x = some (.element el) ∧ e = d.setKind x (.element (f el)) := by
  cases hk : d.kind? x with
  | none =>
    rw [editElement, hk] at he
    cases he
  | some k =>
    cases k with
    | element el =>
      rw [editElement_element f hk] at he
      exact ⟨el, rfl, (Except.ok.inj he).symm⟩
    | text | fragment =>
      rw [editElement, hk] at he
      cases he

end Stencil.Document

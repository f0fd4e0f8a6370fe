import Stencil.Proofs.Instance.Removing
import Stencil.Proofs.Instance.View

/-! Rows. The instances of a group stand one after the other in the parent of their
anchor. What becomes of a row is told by the nodes it owns and by its parent; all other
nodes stay as they are, so that rows can be worked on part by part. -/
namespace Stencil
open Document Instance

namespace Instance

theorem ownedAll_append (is js : List Instance) :
    ownedAll (is ++ js) = ownedAll is ++ ownedAll js := by
  simp only [ownedAll_eq, List.flatMap_append]

theorem blockAll_append (is js : List Instance) :
    blockAll (is ++ js) = blockAll is ++ blockAll js := by
  simp only [blockAll_eq, List.flatMap_append]

theorem mem_ownedAll {is : List Instance} {x : NodeId} :
    x ∈ ownedAll is ↔ ∃ j ∈ is, x ∈ j.owned := by
  rw [ownedAll_eq, List.mem_flatMap]

/-- A view depends on the kinds of the nodes owned. -/
theorem view_congr (i : Instance) {d e : Document} (h : ∀ x ∈ i.owned, e.kind? x = d.kind? x) :
    i.view e = i.view d := by
  induction i using inductTo with
  | h i ih =>
    have hnodes : i.nodes.map e.kindOf = i.nodes.map d.kindOf := by
      refine List.map_congr_left fun n hn => ?_
      rw [kindOf, kindOf, h n (body_subset_owned i (mem_body.mpr (.inl hn)))]
    have hgroups : viewGroups e i.groups = viewGroups d i.groups := by
      rw [viewGroups_eq, viewGroups_eq]
      refine List.map_congr_left fun is his => ?_
      rw [viewAll_eq, viewAll_eq]
      refine List.map_congr_left fun j hj => ih is his j hj fun x hx => ?_
      exact h x (body_subset_owned i (mem_body.mpr (.inr ⟨is, his, j, hj, hx⟩)))
    rw [view_eq, view_eq, hnodes, hgroups]

theorem Live.view_eq {c : Catalog} {d e : Document} {i : Instance} {R : Nat → Prop}
    (hl : i.Live c d) (h : ChangesOnly R d e) (hR : ∀ x ∈ i.owned, ¬ R x) : i.view e = i.view d :=
  view_congr i fun x hx => h.kind?_eq (hl.lt_size x hx) (hR x hx)

/-- An instance in place, whose block stands in the parent `p` between others. -/
structure Placed (c : Catalog) (d : Document) (i : Instance) (p : Nat) (pre post : List NodeId) :
    Prop where
  linked : d.Linked
  live : i.Live c d
  nodup : i.owned.Nodup
  not_mem : p ∉ i.body
  children_eq : d.children p = pre ++ i.block ++ post

/-- What a change of an instance in the parent `p` comes to: it is in place again, it owns
new nodes besides its old ones, and nothing else has changed. -/
structure Renewed (c : Catalog) (d e : Document) (i j : Instance) (p : Nat)
    (pre post : List NodeId) : Prop where
  placed : j.Placed c e p pre post
  template_eq : j.template = i.template
  root_eq : j.root = i.root
  fresh : ∀ x : Nat, x ∈ j.body → x ∈ i.body ∨ d.size ≤ x
  changes : ChangesOnly (fun x => x ∈ i.body ∨ x = p) d e
  kind?_eq : e.kind? p = d.kind? p
  parent?_eq : e.parent? p = d.parent? p

theorem Placed.parent?_block {c : Catalog} {d : Document} {i : Instance} {p : Nat}
    {pre post : List NodeId} (h : i.Placed c d p pre post) :
    ∀ n ∈ i.block, d.parent? n = some p := by
  intro n hn
  rw [← h.linked.mem_children_iff, h.children_eq]
  simp [hn]

theorem Placed.renewed {c : Catalog} {d : Document} {i : Instance} {p : Nat}
    {pre post : List NodeId} (h : i.Placed c d p pre post) : Renewed c d d i i p pre post :=
  ⟨h, rfl, rfl, fun _ hx => .inl hx, .refl _ _, rfl, rfl⟩

theorem Renewed.trans {c : Catalog} {d e f : Document} {i j k : Instance} {p : Nat}
    {pre post : List NodeId} (h : Renewed c d e i j p pre post)
    (h' : Renewed c e f j k p pre post) : Renewed c d f i k p pre post where
  placed := h'.placed
  template_eq := h'.template_eq.trans h.template_eq
  root_eq := h'.root_eq.trans h.root_eq
  fresh x hx := by
    rcases h'.fresh x hx with hx | hx
    · exact h.fresh x hx
    · exact .inr (Nat.le_trans h.changes.size_le hx)
  changes := by
    refine h.changes.trans h'.changes fun n hn hx => ?_
    rcases hx with hx | hx
    · rcases h.fresh n hx with hx | hx
      · exact .inl hx
      · omega
    · exact .inr hx
  kind?_eq := h'.kind?_eq.trans h.kind?_eq
  parent?_eq := h'.parent?_eq.trans h.parent?_eq

end Instance

/-- The instances of a group in the parent `q`, between other nodes. -/
structure Row (c : Catalog) (name : String) (d : Document) (q : Nat) (pre post : List NodeId)
    (is : List Instance) : Prop where
  linked : d.Linked
  live : ∀ j ∈ is, j.Live c d
  template_eq : ∀ j ∈ is, c.get? name = some j.template
  root_empty : ∀ j ∈ is, ∀ r, j.root = some r → d.children r = []
  nodup : (ownedAll is).Nodup
  not_mem : q ∉ ownedAll is
  children_eq : d.children q = pre ++ blockAll is ++ post

namespace Row

variable {c : Catalog} {name : String} {d e f : Document} {q : Nat} {pre post : List NodeId}
  {is js ks : List Instance}

theorem lt_size (h : Row c name d q pre post is) : ∀ x : Nat, x ∈ ownedAll is → x < d.size := by
  intro x hx
  obtain ⟨j, hj, hx⟩ := mem_ownedAll.mp hx
  exact (h.live j hj).lt_size x hx

theorem parent?_block (h : Row c name d q pre post is) :
    ∀ n ∈ blockAll is, d.parent? n = some q := by
  intro n hn
  rw [← h.linked.mem_children_iff, h.children_eq]
  simp [hn]

/-- What becomes of a row: it is a row again, its instances own new nodes besides old ones,
and nothing else has changed. -/
structure Becomes (c : Catalog) (name : String) (d e : Document) (q : Nat)
    (pre post : List NodeId) (is js : List Instance) : Prop where
  row : Row c name e q pre post js
  fresh : ∀ x : Nat, x ∈ ownedAll js → x ∈ ownedAll is ∨ d.size ≤ x
  changes : ChangesOnly (fun x => x ∈ ownedAll is ∨ x = q) d e
  kind?_eq : e.kind? q = d.kind? q
  parent?_eq : e.parent? q = d.parent? q

theorem becomes (h : Row c name d q pre post is) : Becomes c name d d q pre post is is :=
  ⟨h, fun _ hx => .inl hx, .refl _ _, rfl, rfl⟩

theorem Becomes.trans (h : Becomes c name d e q pre post is js)
    (h' : Becomes c name e f q pre post js ks) : Becomes c name d f q pre post is ks where
  row := h'.row
  fresh x hx := by
    rcases h'.fresh x hx with hx | hx
    · exact h.fresh x hx
    · exact .inr (Nat.le_trans h.changes.size_le hx)
  changes := by
    refine h.changes.trans h'.changes fun n hn hx => ?_
    rcases hx with hx | hx
    · rcases h.fresh n hx with hx | hx
      · exact .inl hx
      · omega
    · exact .inr hx
  kind?_eq := h'.kind?_eq.trans h.kind?_eq
  parent?_eq := h'.parent?_eq.trans h.parent?_eq

theorem Becomes.kind?_eq_of_not_mem (h : Becomes c name d e q pre post is js) {x : Nat}
    (hlt : x < d.size) (hx : x ∉ ownedAll is) : e.kind? x = d.kind? x := by
  by_cases hq : x = q
  · exact hq ▸ h.kind?_eq
  · exact h.changes.kind?_eq hlt (by simp [hx, hq])

/-! ## Parts of a row -/

/-- The part of a row between its first and its last instances. -/
theorem part {hs ts : List Instance} (h : Row c name d q pre post (hs ++ is ++ ts)) :
    Row c name d q (pre ++ blockAll hs) (blockAll ts ++ post) is where
  linked := h.linked
  live j hj := h.live j (by simp [hj])
  template_eq j hj := h.template_eq j (by simp [hj])
  root_empty j hj := h.root_empty j (by simp [hj])
  nodup := by
    have := h.nodup
    rw [ownedAll_append, ownedAll_append] at this
    exact (List.nodup_append.mp (List.nodup_append.mp this).1).2.1
  not_mem hm := h.not_mem (by simp [ownedAll_append, hm])
  children_eq := by
    rw [h.children_eq]
    simp [blockAll_append]

/-- The instances beside a part own none of the nodes that it may change. -/
theorem not_changed {hs ts : List Instance} (h : Row c name d q pre post (hs ++ is ++ ts))
    {j : Instance} (hj : j ∈ hs ∨ j ∈ ts) : ∀ x ∈ j.owned, ¬ (x ∈ ownedAll is ∨ x = q) := by
  have hnd := h.nodup
  rw [ownedAll_append, ownedAll_append] at hnd
  obtain ⟨hnhi, _, hdt⟩ := List.nodup_append.mp hnd
  obtain ⟨_, _, hdh⟩ := List.nodup_append.mp hnhi
  intro x hx hR
  rcases hj with hj | hj
  · have hxh : x ∈ ownedAll hs := mem_ownedAll.mpr ⟨j, hj, hx⟩
    rcases hR with hR | rfl
    · exact hdh x hxh x hR rfl
    · exact h.not_mem (by simp [ownedAll_append, hxh])
  · have hxt : x ∈ ownedAll ts := mem_ownedAll.mpr ⟨j, hj, hx⟩
    rcases hR with hR | rfl
    · exact hdt x (List.mem_append_right _ hR) x hxt rfl
    · exact h.not_mem (by simp [ownedAll_append, hxt])

/-- A part of a row can be worked on by itself. -/
theorem Becomes.widen {hs ts : List Instance} (h : Row c name d q pre post (hs ++ is ++ ts))
    (hb : Becomes c name d e q (pre ++ blockAll hs) (blockAll ts ++ post) is js) :
    Becomes c name d e q pre post (hs ++ is ++ ts) (hs ++ js ++ ts) := by
  have hsplit : ∀ j, j ∈ hs ++ js ++ ts ↔ (j ∈ hs ∨ j ∈ ts) ∨ j ∈ js := by
    intro j
    simp only [List.mem_append]
    tauto
  have hmem : ∀ j, j ∈ hs ∨ j ∈ ts → j ∈ hs ++ is ++ ts := by
    rintro j (hj | hj) <;> simp [hj]
  refine ⟨⟨hb.row.linked, ?_, ?_, ?_, ?_, ?_, ?_⟩, ?_, ?_, hb.kind?_eq, hb.parent?_eq⟩
  · intro j hj
    rcases (hsplit j).mp hj with hj | hj
    · exact (h.live j (hmem j hj)).changesOnly hb.changes (h.not_changed hj)
    · exact hb.row.live j hj
  · intro j hj
    rcases (hsplit j).mp hj with hj | hj
    · exact h.template_eq j (hmem j hj)
    · exact hb.row.template_eq j hj
  · intro j hj r hr
    rcases (hsplit j).mp hj with hj | hj
    · have hm : r ∈ j.owned := by rw [owned_eq, hr]; simp
      rw [hb.changes.children_eq ((h.live j (hmem j hj)).lt_size r hm) (h.not_changed hj r hm)]
      exact h.root_empty j (hmem j hj) r hr
    · exact hb.row.root_empty j hj r hr
  · have hnd := h.nodup
    rw [ownedAll_append, ownedAll_append] at hnd ⊢
    obtain ⟨hnhi, hnt, hdt⟩ := List.nodup_append.mp hnd
    obtain ⟨hnh, _, _⟩ := List.nodup_append.mp hnhi
    have hnew : ∀ x : Nat, x ∈ ownedAll js → ∀ j, j ∈ hs ∨ j ∈ ts → x ∉ j.owned := by
      intro x hx j hj hm
      rcases hb.fresh x hx with hi | hi
      · exact h.not_changed hj x hm (.inl hi)
      · exact absurd ((h.live j (hmem j hj)).lt_size x hm) (by omega)
    refine List.nodup_append.mpr ⟨List.nodup_append.mpr ⟨hnh, hb.row.nodup, ?_⟩, hnt, ?_⟩
    · rintro x hx y hy rfl
      obtain ⟨j, hj, hx⟩ := mem_ownedAll.mp hx
      exact hnew x hy j (.inl hj) hx
    · rintro x hx y hy rfl
      rcases List.mem_append.mp hx with hx | hx
      · exact hdt x (List.mem_append_left _ hx) x hy rfl
      · obtain ⟨j, hj, hy⟩ := mem_ownedAll.mp hy
        exact hnew x hx j (.inr hj) hy
  · intro hm
    simp only [ownedAll_append, List.mem_append] at hm
    rcases hm with (hm | hm) | hm
    · exact h.not_mem (by simp [ownedAll_append, hm])
    · exact hb.row.not_mem hm
    · exact h.not_mem (by simp [ownedAll_append, hm])
  · rw [hb.row.children_eq]
    simp [blockAll_append]
  · intro x hx
    simp only [ownedAll_append, List.mem_append] at hx ⊢
    rcases hx with (hx | hx) | hx
    · exact .inl (.inl (.inl hx))
    · rcases hb.fresh x hx with hx | hx
      · exact .inl (.inl (.inr hx))
      · exact .inr hx
    · exact .inl (.inr hx)
  · refine hb.changes.mono fun n _ hn => ?_
    simp only [ownedAll_append, List.mem_append]
    tauto

/-- Instances beside the part show what they showed. -/
theorem Becomes.view_side {hs ts : List Instance} (h : Row c name d q pre post (hs ++ is ++ ts))
    (hb : Becomes c name d e q (pre ++ blockAll hs) (blockAll ts ++ post) is js) :
    viewAll e hs = viewAll d hs ∧ viewAll e ts = viewAll d ts := by
  simp only [viewAll_eq]
  constructor
  · exact List.map_congr_left fun j hj =>
      (h.live j (by simp [hj])).view_eq hb.changes (h.not_changed (.inl hj))
  · exact List.map_congr_left fun j hj =>
      (h.live j (by simp [hj])).view_eq hb.changes (h.not_changed (.inr hj))

/-! ## One instance of a row -/

theorem placed {i : Instance} (h : Row c name d q pre post [i]) : i.Placed c d q pre post where
  linked := h.linked
  live := h.live i (by simp)
  nodup := by simpa [ownedAll] using h.nodup
  not_mem hm := h.not_mem (by simp [ownedAll, body_subset_owned i hm])
  children_eq := by simpa [blockAll] using h.children_eq

theorem becomes_of_renewed {i j : Instance} (h : Row c name d q pre post [i])
    (hr : Renewed c d e i j q pre post) : Becomes c name d e q pre post [i] [j] := by
  have hi := h.live i (by simp)
  obtain ⟨r, hroot, _⟩ := hi.stands.root_fragment
  have hm : r ∈ i.owned := by rw [owned_eq, hroot]; simp
  have hrq : r ≠ q := by
    rintro rfl
    exact h.not_mem (by simpa [ownedAll] using hm)
  have hrb : r ∉ i.body := by
    have := h.nodup
    simp only [ownedAll, List.append_nil, owned_eq, hroot] at this
    exact (List.nodup_cons.mp this).1
  have howned : ∀ x, x ∈ j.owned ↔ x = r ∨ x ∈ j.body := by
    intro x
    rw [owned_eq, hr.root_eq, hroot]
    simp
  refine ⟨⟨hr.placed.linked, by simpa using hr.placed.live, ?_, ?_, ?_, ?_, ?_⟩, ?_, ?_,
    hr.kind?_eq, hr.parent?_eq⟩
  · simpa [hr.template_eq] using h.template_eq i (by simp)
  · intro k hk s hs
    rw [List.mem_singleton.mp hk, hr.root_eq, hroot] at hs
    cases hs
    rw [hr.changes.children_eq (hi.lt_size r hm) (by simp [hrb, hrq])]
    exact h.root_empty i (by simp) r hroot
  · simpa [ownedAll] using hr.placed.nodup
  · simp only [ownedAll, List.append_nil, howned, not_or]
    exact ⟨Ne.symm hrq, hr.placed.not_mem⟩
  · simpa [blockAll] using hr.placed.children_eq
  · intro x hx
    simp only [ownedAll, List.append_nil] at hx ⊢
    rcases (howned x).mp hx with rfl | hx
    · exact .inl hm
    · exact (hr.fresh x hx).imp (body_subset_owned i) id
  · refine hr.changes.mono fun n _ hn => ?_
    simp only [ownedAll, List.append_nil]
    exact hn.imp (body_subset_owned i) id

/-! ## Instances that leave a row, and instances that join it -/

theorem filter_not_mem_middle {xs ys zs : List NodeId} (h : (xs ++ ys ++ zs).Nodup) :
    (xs ++ ys ++ zs).filter (· ∉ ys) = xs ++ zs := by
  obtain ⟨hxy, _, hdz⟩ := List.nodup_append.mp h
  obtain ⟨_, _, hdy⟩ := List.nodup_append.mp hxy
  have hx : xs.filter (· ∉ ys) = xs :=
    List.filter_eq_self.mpr fun a ha => by simpa using fun hy => hdy a ha a hy rfl
  have hy : ys.filter (· ∉ ys) = [] := List.filter_eq_nil_iff.mpr fun a ha => by simpa using ha
  have hz : zs.filter (· ∉ ys) = zs :=
    List.filter_eq_self.mpr fun a ha => by
      simpa using fun hy => hdz a (List.mem_append_right _ hy) a ha rfl
  rw [List.filter_append, List.filter_append, hx, hy, hz, List.append_nil]

theorem becomes_of_letGo (h : Row c name d q pre post (is ++ js))
    (hg : LetGo q (blockAll js) d e) : Becomes c name d e q pre post (is ++ js) is := by
  have hq : ∀ x ∈ ownedAll is, x ≠ q := by
    rintro x hx rfl
    exact h.not_mem (by simp [ownedAll_append, hx])
  have hchildren : ∀ x ∈ ownedAll is, e.children x = d.children x := by
    intro x hx
    rw [hg.children_eq, if_neg (hq x hx)]
  have hblock : q ∉ blockAll js := fun hm =>
    h.not_mem (by simp [ownedAll_append, blockAll_subset_ownedAll hm])
  refine ⟨⟨hg.linked h.linked, ?_, ?_, ?_, ?_, ?_, ?_⟩, ?_, ?_, hg.kind?_eq q, ?_⟩
  · intro j hj
    refine (h.live j (by simp [hj])).congr (fun x _ => hg.kind?_eq x) fun x hx => ?_
    exact hchildren x (mem_ownedAll.mpr ⟨j, hj, body_subset_owned j hx⟩)
  · exact fun j hj => h.template_eq j (by simp [hj])
  · intro j hj r hr
    have hm : r ∈ j.owned := by rw [owned_eq, hr]; simp
    rw [hchildren r (mem_ownedAll.mpr ⟨j, hj, hm⟩)]
    exact h.root_empty j (by simp [hj]) r hr
  · have := h.nodup
    rw [ownedAll_append] at this
    exact (List.nodup_append.mp this).1
  · exact fun hm => h.not_mem (by simp [ownedAll_append, hm])
  · have hnd := h.linked.nodup_children q
    rw [h.children_eq, blockAll_append, ← List.append_assoc] at hnd
    rw [hg.children_eq, if_pos rfl, h.children_eq, blockAll_append, ← List.append_assoc]
    exact filter_not_mem_middle hnd
  · exact fun x hx => .inl (by simp [ownedAll_append, hx])
  · refine hg.changesOnly.mono fun n _ hn => ?_
    rcases hn with hn | hn
    · exact .inr hn
    · exact .inl (by simp [ownedAll_append, blockAll_subset_ownedAll hn])
  · rw [hg.parent?_eq, if_neg hblock]

theorem becomes_shrink (hc : c.Sound) {sc : Scene} (h : Row c name sc.document q pre post is)
    (n : Nat) : Becomes c name sc.document (Children.shrink name n is sc).2.document q pre post is
      (is.take n) := by
  have hg := Children.shrink_letGo hc name n h.live h.nodup h.not_mem h.parent?_block
  have hrow : Row c name sc.document q pre post (is.take n ++ is.drop n) := by
    rwa [List.take_append_drop]
  have hb := hrow.becomes_of_letGo hg
  rwa [List.take_append_drop] at hb

private theorem splice_head? (moved : List NodeId) {xs zs : List NodeId} (h : (xs ++ zs).Nodup) :
    splice moved zs.head? (xs ++ zs) = xs ++ moved ++ zs := by
  cases zs with
  | nil => simp [splice]
  | cons z zs =>
    refine splice_append_cons moved fun hz => ?_
    exact (List.nodup_append.mp h).2.2 z hz z (by simp) rfl

/-- New instances, and the new fragment in which they stand: the first new node of all. -/
structure Gathered (c : Catalog) (name : String) (d e : Document) (js : List Instance) : Prop where
  linked : e.Linked
  old : ∀ x : Nat, x < d.size → e.get? x = d.get? x
  kind?_eq : e.kind? d.size = some .fragment
  children_eq : e.children d.size = blockAll js
  live : ∀ j ∈ js, j.Live c e
  template_eq : ∀ j ∈ js, c.get? name = some j.template
  root_empty : ∀ j ∈ js, ∀ r, j.root = some r → r = d.size ∨ e.children r = []
  nodup : (ownedAll js).Nodup
  fresh : ∀ x : Nat, x ∈ ownedAll js → d.size ≤ x
  not_mem : ∀ j ∈ js, d.size ∉ j.body

theorem Gathered.ne (hg : Gathered c name d e js) (hq : q < d.size) {x : Nat}
    (hx : x ∈ ownedAll js) : x ≠ q := by
  have := hg.fresh x hx
  omega

theorem Gathered.changes (hg : Gathered c name d e js) (ha : e.Admits q d.size post.head?) :
    ChangesOnly (fun x => x ∈ ownedAll is ∨ x = q) d (e.pour q d.size post.head?) := by
  have hlt : d.size < e.size := lt_size_of_kind? hg.kind?_eq
  have hnew : ChangesOnly (fun x => x ∈ ownedAll is ∨ x = q) d e :=
    ⟨Nat.le_of_lt hlt, fun n hn _ => hg.old n hn⟩
  refine hnew.trans (.pour hg.linked ha) fun n hn hR => ?_
  rcases hR with hR | hR | hR
  · exact .inr hR
  · omega
  · rw [hg.children_eq] at hR
    exact absurd (hg.fresh n (blockAll_subset_ownedAll hR)) (by omega)

section

variable (h : Row c name d q pre post is) (hg : Gathered c name d e js) (hq : q < d.size)
include h hg hq

theorem children_gathered : e.children q = pre ++ blockAll is ++ post := by
  rw [children_of_get? (hg.old q hq)]
  exact h.children_eq

theorem admits_gathered {k : Kind} (hk : d.kind? q = some k) (hcont : isContainer k = true) :
    e.Admits q d.size post.head? := by
  refine ⟨lt_size_of_kind? hg.kind?_eq, ⟨k, (kind?_of_get? (hg.old q hq)).trans hk, hcont⟩, ?_, ?_⟩
  · intro r hr
    rw [← hg.linked.mem_children_iff, h.children_gathered hg hq]
    exact List.mem_append_right _ (List.mem_of_head? hr)
  · intro hm
    -- old nodes have old ancestors
    have hold : ∀ a : Nat, a ∈ e.ancestors q → a < d.size := by
      refine forall_mem_climb (S := fun x : Nat => x < d.size) ?_ _ hq
      intro x y hx hy
      rw [parent?_of_get? (hg.old x hx)] at hy
      exact h.linked.parent_lt_size hy
    exact Nat.lt_irrefl _ (hold _ hm)

variable (ha : e.Admits q d.size post.head?)
include ha

theorem children_pour_gathered (x : Nat) : (e.pour q d.size post.head?).children x =
    if x = d.size then [] else if x = q then pre ++ blockAll is ++ blockAll js ++ post
    else e.children x := by
  have hchildren := h.children_gathered hg hq
  rw [children_pour ha]
  split
  · rfl
  · split
    · rename_i hx
      rw [hx, hg.children_eq, hchildren]
      exact splice_head? _ (hchildren ▸ hg.linked.nodup_children q)
    · rfl

theorem get?_pour_old {x : Nat} (hx : x ∈ ownedAll is) :
    (e.pour q d.size post.head?).kind? x = d.kind? x ∧
      (e.pour q d.size post.head?).children x = d.children x := by
  have hlt := h.lt_size x hx
  have hne : x ≠ q := fun he => h.not_mem (he ▸ hx)
  refine ⟨(kind?_pour ..).trans (kind?_of_get? (hg.old x hlt)), ?_⟩
  rw [h.children_pour_gathered hg hq ha, if_neg (Nat.ne_of_lt hlt), if_neg hne,
    children_of_get? (hg.old x hlt)]

theorem live_gathered : ∀ j ∈ is ++ js, j.Live c (e.pour q d.size post.head?) := by
  intro j hj
  rcases List.mem_append.mp hj with hj | hj
  · have hmem : ∀ x ∈ j.owned, x ∈ ownedAll is := fun x hx => mem_ownedAll.mpr ⟨j, hj, hx⟩
    exact (h.live j hj).congr (fun x hx => (h.get?_pour_old hg hq ha (hmem x hx)).1) fun x hx =>
      (h.get?_pour_old hg hq ha (hmem x (body_subset_owned j hx))).2
  · refine (hg.live j hj).congr (fun x hx => kind?_pour ..) fun x hx => ?_
    have hm : x ∈ ownedAll js := mem_ownedAll.mpr ⟨j, hj, body_subset_owned j hx⟩
    have hne : x ≠ d.size := fun he => hg.not_mem j hj (he ▸ hx)
    rw [h.children_pour_gathered hg hq ha, if_neg hne, if_neg (hg.ne hq hm)]

theorem root_empty_gathered : ∀ j ∈ is ++ js, ∀ r, j.root = some r →
    (e.pour q d.size post.head?).children r = [] := by
  intro j hj r hr
  have hm : r ∈ j.owned := by rw [owned_eq, hr]; simp
  rcases List.mem_append.mp hj with hj | hj
  · rw [(h.get?_pour_old hg hq ha (mem_ownedAll.mpr ⟨j, hj, hm⟩)).2]
    exact h.root_empty j hj r hr
  · rw [h.children_pour_gathered hg hq ha]
    split
    · rfl
    · rename_i hne
      rw [if_neg (hg.ne hq (mem_ownedAll.mpr ⟨j, hj, hm⟩))]
      exact (hg.root_empty j hj r hr).resolve_left hne

theorem row_gathered : Row c name (e.pour q d.size post.head?) q pre post (is ++ js) where
  linked := hg.linked.pour ha
  live := h.live_gathered hg hq ha
  template_eq j hj := by
    rcases List.mem_append.mp hj with hj | hj
    · exact h.template_eq j hj
    · exact hg.template_eq j hj
  root_empty := h.root_empty_gathered hg hq ha
  nodup := by
    rw [ownedAll_append]
    refine List.nodup_append.mpr ⟨h.nodup, hg.nodup, ?_⟩
    rintro x hx y hy rfl
    exact absurd (h.lt_size x hx) (Nat.not_lt_of_le (hg.fresh x hy))
  not_mem := by
    rw [ownedAll_append, List.mem_append, not_or]
    exact ⟨h.not_mem, fun hm => hg.ne hq hm rfl⟩
  children_eq := by
    rw [h.children_pour_gathered hg hq ha, if_neg (Nat.ne_of_lt hq), if_pos rfl, blockAll_append]
    simp

end

/-- Gathered instances join a row at its end. -/
theorem becomes_gathered (h : Row c name d q pre post is) (hg : Gathered c name d e js)
    (hq : ∃ k, d.kind? q = some k ∧ isContainer k = true) :
    ∃ f, e.insertBefore q d.size post.head? = .ok f ∧ Becomes c name d f q pre post is (is ++ js) ∧
      ∀ x, f.kind? x = e.kind? x := by
  obtain ⟨k, hk, hcont⟩ := hq
  have hlt : q < d.size := lt_size_of_kind? hk
  have ha := h.admits_gathered hg hlt hk hcont
  have hold := hg.old q hlt
  refine ⟨_, insertBefore_fragment ha hg.kind?_eq, ⟨h.row_gathered hg hlt ha, ?_,
    hg.changes ha, ?_, ?_⟩, kind?_pour _ _ _ _⟩
  · intro x hx
    rw [ownedAll_append, List.mem_append] at hx
    exact hx.imp id (hg.fresh x)
  · rw [kind?_pour, kind?_of_get? hold]
  · rw [parent?_pour _ _ _ _ fun _ hn => hg.linked.lt_size hn, hg.children_eq, if_neg,
      parent?_of_get? hold]
    exact fun hm => hg.ne hlt (blockAll_subset_ownedAll hm) rfl

end Row
end Stencil

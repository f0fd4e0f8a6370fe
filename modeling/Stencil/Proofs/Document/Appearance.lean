import Mathlib.Data.List.Perm.Subperm
import Stencil.Document.Tree
import Stencil.Proofs.Document.Elements
import Stencil.Proofs.Document.Operations

/-! Appearances: trees in which the attributes and the properties of elements are maps.
When the nodes of a document appear as something, the tree below them can be read off in
full, since no branch is longer than the document. -/
namespace Stencil.Document

inductive Appearance where
  | element (tag : String) (space : Option String)
      (attributes : Option String × String → Option String) (properties : String → Option Json)
      (children : List Appearance)
  | text (content : String)

namespace Tree

mutual

/-- What a tree looks like; fragments look like their children. -/
def appear : Tree → List Appearance
  | .element e cs =>
    [.element e.tag e.space (fun key => e.attribute? key) (fun name => e.property? name)
      (appearAll cs)]
  | .text s => [.text s]
  | .fragment cs => appearAll cs

def appearAll : List Tree → List Appearance
  | [] => []
  | t :: ts => appear t ++ appearAll ts

end

end Tree

namespace Appearance

mutual

/-- The node looks like this. -/
def At (d : Document) : Appearance → NodeId → Prop
  | .text s, n => d.kind? n = some (.text s)
  | .element tag space attributes properties cs, n =>
    ∃ e, d.kind? n = some (.element e) ∧ e.tag = tag ∧ e.space = space ∧
      (fun key => e.attribute? key) = attributes ∧ (fun name => e.property? name) = properties ∧
      AllAt d cs (d.children n)

/-- The nodes look like these, one by one. -/
def AllAt (d : Document) : List Appearance → List NodeId → Prop
  | [], ns => ns = []
  | X :: Xs, ns => ∃ m ms, ns = m :: ms ∧ At d X m ∧ AllAt d Xs ms

end

variable {d : Document}

theorem AllAt.append {Xs Ys : List Appearance} {ns ms : List NodeId} (h : AllAt d Xs ns)
    (h' : AllAt d Ys ms) : AllAt d (Xs ++ Ys) (ns ++ ms) := by
  induction Xs generalizing ns with
  | nil =>
    rw [AllAt] at h
    rw [h]
    exact h'
  | cons X Xs ih =>
    rw [AllAt] at h
    obtain ⟨n, ns, rfl, hX, h⟩ := h
    rw [List.cons_append, List.cons_append, AllAt]
    exact ⟨n, ns ++ ms, rfl, hX, ih h⟩

theorem allAt_singleton {X : Appearance} {n : NodeId} (h : At d X n) : AllAt d [X] [n] := by
  rw [AllAt]
  exact ⟨n, [], rfl, h, by rw [AllAt]⟩

mutual

/-- A node looks like one thing only. -/
theorem At.unique : ∀ {X Y : Appearance} {n : NodeId}, At d X n → At d Y n → X = Y
  | .text s, .text s', n, h, h' => by
    rw [At] at h h'
    cases h.symm.trans h'
    rfl
  | .text s, .element .., n, h, h' => by
    rw [At] at h
    rw [At] at h'
    obtain ⟨e, he, _⟩ := h'
    cases h.symm.trans he
  | .element .., .text s, n, h, h' => by
    rw [At] at h
    rw [At] at h'
    obtain ⟨e, he, _⟩ := h
    cases h'.symm.trans he
  | .element _ _ _ _ cs, .element _ _ _ _ cs', n, h, h' => by
    rw [At] at h h'
    obtain ⟨e, he, rfl, rfl, rfl, rfl, hcs⟩ := h
    obtain ⟨e', he', rfl, rfl, rfl, rfl, hcs'⟩ := h'
    cases he.symm.trans he'
    rw [AllAt.unique hcs hcs']

theorem AllAt.unique : ∀ {Xs Ys : List Appearance} {ns : List NodeId}, AllAt d Xs ns →
    AllAt d Ys ns → Xs = Ys
  | [], [], _, _, _ => rfl
  | [], _ :: _, ns, h, h' => by
    rw [AllAt] at h
    rw [AllAt] at h'
    obtain ⟨m, ms, hn, _⟩ := h'
    cases h.symm.trans hn
  | _ :: _, [], ns, h, h' => by
    rw [AllAt] at h
    rw [AllAt] at h'
    obtain ⟨m, ms, hn, _⟩ := h
    cases h'.symm.trans hn
  | X :: Xs, Y :: Ys, ns, h, h' => by
    rw [AllAt] at h h'
    obtain ⟨m, ms, rfl, hX, hXs⟩ := h
    obtain ⟨m', ms', he, hY, hYs⟩ := h'
    cases he
    rw [At.unique hX hY, AllAt.unique hXs hYs]

end

/-- A path of nodes is no longer than the document. -/
theorem length_le_size {path : List NodeId} (hn : path.Nodup) (hlt : ∀ p ∈ path, p < d.size) :
    path.length ≤ d.size := by
  have hsub : path ⊆ List.range d.size := fun p hp => List.mem_range.mpr (hlt p hp)
  have := (hn.subperm hsub).length_le
  rwa [List.length_range] at this

mutual

/-- The tree below a node that is reached by a path of larger nodes. -/
theorem At.exists_tree : ∀ {X : Appearance} {n : NodeId} {path : List NodeId}, At d X n →
    path.Nodup → (∀ p ∈ path, p < d.size) → (∀ p ∈ path, ∀ Y, At d Y p → sizeOf X < sizeOf Y) →
    ∃ T, d.treeTo (d.size + 1 - path.length) n = some T ∧ T.appear = [X]
  | .text s, n, path, h, hn, hlt, _ => by
    have hlen := length_le_size hn hlt
    obtain ⟨m, hm⟩ : ∃ m, d.size + 1 - path.length = m + 1 := ⟨d.size - path.length, by omega⟩
    rw [At, kind?] at h
    obtain ⟨entry, hget, hkind⟩ := Option.map_eq_some_iff.mp h
    refine ⟨.text s, ?_, by rw [Tree.appear]⟩
    rw [hm, treeTo, hget, Option.map_some, hkind]
  | .element tag space attributes properties cs, n, path, h, hn, hlt, hlarger => by
    have hself : n ∉ path := fun hm => Nat.lt_irrefl _ (hlarger n hm _ h)
    have hunique : ∀ Y, At d Y n → Appearance.element tag space attributes properties cs = Y :=
      fun Y hY => At.unique h hY
    rw [At] at h
    obtain ⟨e, he, rfl, rfl, rfl, rfl, hcs⟩ := h
    have hn' : (n :: path).Nodup := List.nodup_cons.mpr ⟨hself, hn⟩
    have hlt' : ∀ p ∈ n :: path, p < d.size := by
      intro p hp
      rcases List.mem_cons.mp hp with rfl | hp
      · exact lt_size_of_kind? he
      · exact hlt p hp
    have hlen := length_le_size hn' hlt'
    have htrees := AllAt.appearAll_trees hcs hn' hlt' fun p hp Y hY => by
      rcases List.mem_cons.mp hp with rfl | hp
      · rw [← hunique Y hY]
        simp only [element.sizeOf_spec]
        omega
      · have := hlarger p hp Y hY
        simp only [element.sizeOf_spec] at this
        omega
    rw [List.length_cons] at hlen htrees
    obtain ⟨m, hm⟩ : ∃ m, d.size + 1 - path.length = m + 1 := ⟨d.size - path.length, by omega⟩
    have hm' : d.size + 1 - (path.length + 1) = m := by omega
    rw [hm'] at htrees
    rw [kind?] at he
    obtain ⟨entry, hget, hkind⟩ := Option.map_eq_some_iff.mp he
    rw [children, hget] at htrees
    refine ⟨.element e (entry.children.filterMap (d.treeTo m)), ?_, ?_⟩
    · rw [hm, treeTo, hget, Option.map_some, hkind]
    · rw [Tree.appear]
      exact congrArg (fun cs => [Appearance.element e.tag e.space _ _ cs]) htrees

theorem AllAt.appearAll_trees : ∀ {Xs : List Appearance} {ns path : List NodeId}, AllAt d Xs ns →
    path.Nodup → (∀ p ∈ path, p < d.size) → (∀ p ∈ path, ∀ Y, At d Y p → sizeOf Xs < sizeOf Y) →
    Tree.appearAll (ns.filterMap (d.treeTo (d.size + 1 - path.length))) = Xs
  | [], ns, path, h, _, _, _ => by
    rw [AllAt] at h
    rw [h, List.filterMap_nil, Tree.appearAll]
  | X :: Xs, ns, path, h, hn, hlt, hlarger => by
    rw [AllAt] at h
    obtain ⟨m, ms, rfl, hX, hXs⟩ := h
    obtain ⟨T, hT, hTX⟩ := At.exists_tree hX hn hlt fun p hp Y hY => by
      have := hlarger p hp Y hY
      simp only [List.cons.sizeOf_spec] at this
      omega
    have hrest := AllAt.appearAll_trees hXs hn hlt fun p hp Y hY => by
      have := hlarger p hp Y hY
      simp only [List.cons.sizeOf_spec] at this
      omega
    rw [List.filterMap_cons, hT]
    dsimp only
    rw [Tree.appearAll, hTX, hrest]
    rfl

end

/-- A fragment looks like its children. -/
theorem exists_tree?_of_fragment {r : NodeId} {Xs : List Appearance}
    (hr : d.kind? r = some .fragment) (h : AllAt d Xs (d.children r)) :
    ∃ T, d.tree? r = some T ∧ T.appear = Xs := by
  have htrees := AllAt.appearAll_trees h (List.nodup_singleton r)
    (fun p hp => by rw [List.mem_singleton.mp hp]; exact lt_size_of_kind? hr) fun p hp Y hY => by
      rw [List.mem_singleton.mp hp] at hY
      cases Y with
      | text s =>
        rw [At] at hY
        cases hr.symm.trans hY
      | element =>
        rw [At] at hY
        obtain ⟨e, he, _⟩ := hY
        cases hr.symm.trans he
  rw [kind?] at hr
  obtain ⟨entry, hget, hkind⟩ := Option.map_eq_some_iff.mp hr
  rw [children, hget] at htrees
  refine ⟨.fragment (entry.children.filterMap (d.treeTo d.size)), ?_, ?_⟩
  · rw [tree?, treeTo, hget, Option.map_some, hkind]
  · rw [Tree.appear]
    exact htrees

theorem AllAt.exists_trees {Xs : List Appearance} {ns : List NodeId} (h : AllAt d Xs ns) :
    ∃ Ts, ns.mapM d.tree? = some Ts ∧ Tree.appearAll Ts = Xs := by
  induction Xs generalizing ns with
  | nil =>
    rw [AllAt] at h
    subst h
    exact ⟨[], rfl, rfl⟩
  | cons X Xs ih =>
    rw [AllAt] at h
    obtain ⟨m, ms, rfl, hX, hXs⟩ := h
    obtain ⟨T, hT, hTX⟩ := hX.exists_tree List.nodup_nil (by simp) (by simp)
    obtain ⟨Ts, hTs, hTXs⟩ := ih hXs
    have hm : d.tree? m = some T := hT
    refine ⟨T :: Ts, ?_, ?_⟩
    · rw [List.mapM_cons, hm, hTs]
      rfl
    · rw [Tree.appearAll, hTX, hTXs]
      rfl

/-! ## Nodes of two documents that look the same -/

/-- The nodes of one document look like those of the other, one by one. -/
def Same (d e : Document) (ns ms : List NodeId) : Prop := ∃ Xs, AllAt d Xs ns ∧ AllAt e Xs ms

variable {e : Document}

theorem same_nil : Same d e [] [] := ⟨[], by rw [AllAt], by rw [AllAt]⟩

theorem Same.append {ns ms ns' ms' : List NodeId} (h : Same d e ns ms) (h' : Same d e ns' ms') :
    Same d e (ns ++ ns') (ms ++ ms') := by
  obtain ⟨Xs, hd, he⟩ := h
  obtain ⟨Ys, hd', he'⟩ := h'
  exact ⟨Xs ++ Ys, hd.append hd', he.append he'⟩

theorem same_flatMap {α : Type} {f g : α → List NodeId} {l : List α}
    (h : ∀ a ∈ l, Same d e (f a) (g a)) : Same d e (l.flatMap f) (l.flatMap g) := by
  induction l with
  | nil => exact same_nil
  | cons a l ih =>
    rw [List.flatMap_cons, List.flatMap_cons]
    exact (h a List.mem_cons_self).append (ih fun b hb => h b (List.mem_cons_of_mem _ hb))

theorem same_text {n m : NodeId} {s : String} (hn : d.kind? n = some (.text s))
    (hm : e.kind? m = some (.text s)) : Same d e [n] [m] := by
  refine ⟨[.text s], allAt_singleton ?_, allAt_singleton ?_⟩ <;> rw [At]
  · exact hn
  · exact hm

theorem same_element {n m : NodeId} {a b : Element} (hn : d.kind? n = some (.element a))
    (hm : e.kind? m = some (.element b)) (htag : a.tag = b.tag) (hspace : a.space = b.space)
    (hattribute : ∀ key, a.attribute? key = b.attribute? key)
    (hproperty : ∀ name, a.property? name = b.property? name)
    (h : Same d e (d.children n) (e.children m)) : Same d e [n] [m] := by
  obtain ⟨Xs, hX, hX'⟩ := h
  have hn' : At d (.element b.tag b.space (fun key => b.attribute? key) (fun p => b.property? p) Xs)
      n := by
    rw [At]
    exact ⟨a, hn, htag, hspace, funext hattribute, funext hproperty, hX⟩
  refine ⟨_, allAt_singleton hn', allAt_singleton ?_⟩
  rw [At]
  exact ⟨b, hm, rfl, rfl, rfl, rfl, hX'⟩

end Appearance
end Stencil.Document

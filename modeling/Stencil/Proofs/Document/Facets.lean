import Stencil.Proofs.Document.Elements
import Stencil.Proofs.Document.Forest

/-! Facets. The content of a text, an attribute and a property are read and written one by
one: they are the facets of a node. Operations that make nodes or move them about leave
all facets alone, and a change of an element those that it does not speak of. -/
namespace Stencil.Document

inductive Facet where
  | text
  | attr (key : Option String × String)
  | property (name : String)
  deriving DecidableEq

/-- The content of a text. -/
def text? (d : Document) (n : NodeId) : Option String := (d.kind? n).bind Kind.text?

/-- Both documents have the same there. -/
def Facet.Same (d e : Document) (n : NodeId) : Facet → Prop
  | .text => e.text? n = d.text? n
  | .attr key => e.attribute? n key.1 key.2 = d.attribute? n key.1 key.2
  | .property name => e.property? n name = d.property? n name

/-- A change of elements leaves the facet as it is. -/
def Facet.Spared (f : Element → Element) : Facet → Prop
  | .text => True
  | .attr key => ∀ el, (f el).attribute? key = el.attribute? key
  | .property name => ∀ el, (f el).property? name = el.property? name

namespace Facet

variable {d e f : Document} {n : NodeId} {w : Facet}

theorem Same.of_kind (h : e.kind? n = d.kind? n) : w.Same d e n := by
  cases w <;> simp [Same, text?, attribute?, property?, element?, h]

theorem Same.trans (h : w.Same d e n) (h' : w.Same e f n) : w.Same d f n := by
  cases w <;> exact Eq.trans h' h

theorem Spared.same {g : Element → Element} (h : w.Spared g) {el : Element}
    (hd : d.kind? n = some (.element el)) (he : e.kind? n = some (.element (g el))) :
    w.Same d e n := by
  cases w with
  | text => simp [Same, text?, hd, he, Kind.text?]
  | attr key =>
    simp only [Same, Document.attribute?, element?, hd, he]
    exact h el
  | property name =>
    simp only [Same, Document.property?, element?, hd, he]
    exact h el

theorem Spared.comp {g h : Element → Element} (hg : w.Spared g) (hh : w.Spared h) :
    w.Spared (h ∘ g) := by
  cases w with
  | text => trivial
  | attr key => exact fun el => (hh (g el)).trans (hg el)
  | property name => exact fun el => (hh (g el)).trans (hg el)

/-! What changes of elements leave alone. -/

theorem spared_putAttribute {key : Option String × String} (value : String) (h : w ≠ .attr key) :
    w.Spared (.putAttribute key value) := by
  cases w with
  | text => trivial
  | attr key' =>
    intro el
    rw [Element.attribute?_putAttribute, if_neg fun he => h (congrArg attr he)]
  | property name => exact fun _ => rfl

theorem spared_dropAttribute {key : Option String × String} (h : w ≠ .attr key) :
    w.Spared (.dropAttribute key) := by
  cases w with
  | text => trivial
  | attr key' =>
    intro el
    rw [Element.attribute?_dropAttribute, if_neg fun he => h (congrArg attr he)]
  | property name => exact fun _ => rfl

theorem spared_putProperty {name : String} (value : Json) (h : w ≠ .property name) :
    w.Spared (.putProperty name value) := by
  cases w with
  | text => trivial
  | attr key => exact fun _ => rfl
  | property name' =>
    intro el
    rw [Element.property?_putProperty, if_neg fun he => h (congrArg property he)]

theorem spared_dropProperty {name : String} (h : w ≠ .property name) :
    w.Spared (.dropProperty name) := by
  cases w with
  | text => trivial
  | attr key => exact fun _ => rfl
  | property name' =>
    intro el
    rw [Element.property?_dropProperty, if_neg fun he => h (congrArg property he)]

end Facet

/-- Two changes of one element in a row are one. -/
theorem editElement_comp {d e e' : Document} {n : NodeId} {f g : Element → Element}
    (h : d.editElement n f = .ok e) (h' : e.editElement n g = .ok e') :
    d.editElement n (g ∘ f) = .ok e' := by
  obtain ⟨el, hk, rfl⟩ := editElement_cases h
  have hk' : (d.setKind n (.element (f el))).kind? n = some (.element (f el)) := by
    rw [kind?_setKind _ (lt_size_of_kind? hk), if_pos rfl]
  rw [editElement_element g hk'] at h'
  rw [editElement_element (g ∘ f) hk, ← h']
  refine congrArg Except.ok (congrArg Document.mk (Array.ext_getElem? fun m => ?_))
  simp only [setKind, edit, Array.getElem?_modify]
  split <;> simp [Function.comp_def]

/-! ## Changes to some facets -/

/-- The second document has the nodes of the first, and of their facets those outside of `R`
as they were. -/
structure WritesOnly (R : NodeId → Facet → Prop) (d e : Document) : Prop where
  size_le : d.size ≤ e.size
  same : ∀ (n : Nat) w, n < d.size → ¬ R n w → w.Same d e n

namespace WritesOnly

variable {R S : NodeId → Facet → Prop} {d e f : Document}

theorem mono (h : WritesOnly R d e) (hRS : ∀ (n : Nat) w, n < d.size → R n w → S n w) :
    WritesOnly S d e :=
  ⟨h.size_le, fun n w hn hS => h.same n w hn fun hR => hS (hRS n w hn hR)⟩

theorem trans (h : WritesOnly R d e) (h' : WritesOnly S e f)
    (hSR : ∀ (n : Nat) w, n < d.size → S n w → R n w) : WritesOnly R d f where
  size_le := Nat.le_trans h.size_le h'.size_le
  same n w hn hR := by
    refine (h.same n w hn hR).trans ?_
    exact h'.same n w (Nat.lt_of_lt_of_le hn h.size_le) fun hS => hR (hSR n w hn hS)

/-- What leaves all kinds as they are leaves the facets. -/
theorem of_kind (hsize : d.size ≤ e.size) (h : ∀ n : Nat, n < d.size → e.kind? n = d.kind? n) :
    WritesOnly R d e :=
  ⟨hsize, fun n _ hn _ => .of_kind (h n hn)⟩

theorem refl (R : NodeId → Facet → Prop) (d : Document) : WritesOnly R d d :=
  .of_kind (Nat.le_refl _) fun _ _ => rfl

theorem create (R : NodeId → Facet → Prop) (d : Document) (k : Kind) :
    WritesOnly R d (d.create k) := by
  refine .of_kind (by rw [size_create]; omega) fun n hn => ?_
  rw [kind?_create, if_neg (Nat.ne_of_lt hn)]

theorem unlink (R : NodeId → Facet → Prop) (d : Document) (x : NodeId) :
    WritesOnly R d (d.unlink x) :=
  .of_kind (Nat.le_of_eq (size_unlink d x).symm) fun n _ => kind?_unlink d x n

theorem insertBefore {p x : NodeId} {mark : Option NodeId} (h : d.insertBefore p x mark = .ok e) :
    WritesOnly R d e := by
  obtain ⟨_, ⟨_, rfl⟩ | rfl | ⟨_, rfl⟩⟩ := insertBefore_cases h
  · exact .of_kind (Nat.le_of_eq (size_pour ..).symm) fun n _ => kind?_pour ..
  · exact .refl R e
  · exact .of_kind (Nat.le_of_eq (size_place ..).symm) fun n _ => kind?_place ..

theorem editElement {n : NodeId} {g : Element → Element} (h : d.editElement n g = .ok e)
    (hg : ∀ w : Facet, ¬ R n w → w.Spared g) : WritesOnly R d e := by
  obtain ⟨el, hk, rfl⟩ := editElement_cases h
  have hlt := lt_size_of_kind? hk
  refine ⟨Nat.le_of_eq (size_setKind ..).symm, fun m w _ hR => ?_⟩
  by_cases hm : m = n
  · subst hm
    exact (hg w hR).same hk (by rw [kind?_setKind _ hlt, if_pos rfl])
  · exact .of_kind (by rw [kind?_setKind _ hlt, if_neg hm])

theorem setText {n : NodeId} {s : String} (h : d.setText n s = .ok e) (hR : R n .text) :
    WritesOnly R d e := by
  unfold Document.setText at h
  split at h
  · cases h
  · rename_i content hk
    rw [← Except.ok.inj h]
    change WritesOnly R d (d.setKind n (.text s))
    have hlt := lt_size_of_kind? hk
    refine ⟨Nat.le_of_eq (size_setKind ..).symm, fun m w _ hw => ?_⟩
    by_cases hm : m = n
    · -- neither text is an element, so only the content could differ
      subst hm
      have hk' : (d.setKind m (.text s)).kind? m = some (.text s) := by
        rw [kind?_setKind _ hlt, if_pos rfl]
      cases w with
      | text => exact absurd hR hw
      | attr => simp [Facet.Same, attribute?, element?, hk, hk']
      | property => simp [Facet.Same, property?, element?, hk, hk']
    · exact .of_kind (by rw [kind?_setKind _ hlt, if_neg hm])
  · have hclear : WritesOnly R d (d.clear n) :=
      .of_kind (Nat.le_of_eq (size_clear d n).symm) fun m _ => kind?_clear d n m
    exact (hclear.trans (.create R _ _) fun _ _ _ h => h).trans (.insertBefore h) fun _ _ _ h => h

end WritesOnly
end Stencil.Document

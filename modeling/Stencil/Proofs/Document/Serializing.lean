import Stencil.Proofs.Document.Forest
import Stencil.Proofs.Markup.Printing

/-! Markup of documents read back. Below an element of a forest there are elements and texts
only. Where their names can be read back, the markup of the element is read as the tree of
these nodes, with neighbouring texts joined, and the text content is the text of that tree. -/
namespace Stencil
open Document Markup

namespace Document

theorem element?_eq_some_iff {d : Document} {n : NodeId} {el : Element} :
    d.element? n = some el ↔ d.kind? n = some (.element el) := by
  unfold element?
  constructor
  · intro h
    split at h
    · cases h
      assumption
    · cases h
  · intro h
    rw [h]

/-- The names of all elements at and below a node, and of their attributes, can be read
back. -/
def NamedBelow (d : Document) (id : NodeId) : Prop :=
  ∀ n el, id ∈ d.ancestors n → d.element? n = some el →
    isTag el.tag = true ∧ ∀ a ∈ el.attributes, isName a.qualifiedName = true

theorem NamedBelow.child {d : Document} (h : d.Forest) {p c : NodeId} (hp : d.NamedBelow p)
    (hc : c ∈ d.children p) : d.NamedBelow c := by
  intro n el hn hel
  have hparent : d.HasParent c p := (h.linked.mem_children_iff p c).mp hc
  exact hp n el (h.mem_ancestors_of_hasParent hn hparent) hel

/-- The attribute as it is read from markup. -/
def Attr.attribute (a : Attr) : Attribute := ⟨a.qualifiedName, a.value⟩

end Document

namespace Markup.Node

mutual

/-- The tree shows a node of the document: its text, or its tag, its attributes and its
children, one by one. -/
def Depicts (d : Document) : Node → NodeId → Prop
  | .document _, _ => False
  | .element tag as ns, id => ∃ el, d.kind? id = some (.element el) ∧ tag = el.tag ∧
      as = el.attributes.map Attr.attribute ∧ DepictsAll d ns (d.children id)
  | .text s, id => d.kind? id = some (.text s)

def DepictsAll (d : Document) : List Node → List NodeId → Prop
  | [], [] => True
  | n :: ns, id :: ids => Depicts d n id ∧ DepictsAll d ns ids
  | _, _ => False

end

variable {d : Document}

mutual

theorem legible_of_depicts (h : d.Forest) : ∀ (n : Node) {id : NodeId}, n.Depicts d id →
    d.NamedBelow id → n.Legible
  | .document _, _, hn, _ => hn
  | .text _, _, _, _ => trivial
  | .element tag as ns, id, hn, hnames => by
    obtain ⟨el, hk, rfl, rfl, hns⟩ := hn
    obtain ⟨htag, has⟩ := hnames id el (self_mem_ancestors d id) (element?_eq_some_iff.mpr hk)
    refine ⟨htag, fun a ha => ?_, legibleAll_of_depicts h ns hns fun c => hnames.child h⟩
    obtain ⟨a', ha', rfl⟩ := List.mem_map.mp ha
    exact has a' ha'

theorem legibleAll_of_depicts (h : d.Forest) : ∀ (ns : List Node) {ids : List NodeId},
    DepictsAll d ns ids → (∀ c ∈ ids, d.NamedBelow c) → LegibleAll ns
  | [], _, _, _ => trivial
  | n :: ns, [], hns, _ => by cases hns
  | n :: ns, id :: ids, hns, hnames =>
    ⟨legible_of_depicts h n hns.1 (hnames id List.mem_cons_self),
      legibleAll_of_depicts h ns hns.2 fun c hc => hnames c (List.mem_cons_of_mem _ hc)⟩

end

end Markup.Node

namespace Document.Tree

mutual

/-- The tree as it is read from markup. -/
def node : Tree → Node
  | .element el ts => .element el.tag (el.attributes.map Attr.attribute) (nodes ts)
  | .text s => .text s
  | .fragment ts => .document (nodes ts)

def nodes : List Tree → List Node
  | [] => []
  | t :: ts => node t :: nodes ts

end

theorem toList_attributes (as : List Attr) :
    (String.join (as.map Attr.markup)).toList =
      (as.map Attr.attribute).flatMap Attribute.print := by
  rw [String.toList_join, List.flatMap_map, List.flatMap_map]
  refine List.flatMap_congr fun a _ => ?_
  simp [Attr.markup, Attribute.print, Attr.attribute, escape]

mutual

theorem toList_markup : ∀ t : Tree, t.markup.toList = t.node.print
  | .element el ts => by
    have hts := toList_markups ts
    have has := toList_attributes el.attributes
    simp only [markup, node, Node.print, String.toList_append, hts, has]
    simp
  | .text s => by
    rw [markup, node, Node.print, escape, String.toList_ofList]
  | .fragment ts => by rw [markup, node, Node.print, toList_markups ts]

theorem toList_markups : ∀ ts : List Tree, (markups ts).toList = Node.printAll (nodes ts)
  | [] => rfl
  | t :: ts => by
    rw [markups, nodes, Node.printAll, String.toList_append, toList_markup t, toList_markups ts]

end

mutual

theorem content_eq : ∀ t : Tree, t.content = String.join t.node.texts
  | .element el ts => by rw [content, node, Node.texts, contents_eq ts]
  | .text s => by simp [content, node, Node.texts]
  | .fragment ts => by rw [content, node, Node.texts, contents_eq ts]

theorem contents_eq : ∀ ts : List Tree, contents ts = String.join (Node.textsAll (nodes ts))
  | [] => rfl
  | t :: ts => by
    rw [contents, nodes, Node.textsAll, String.join_append, content_eq t, contents_eq ts]

end

end Document.Tree

namespace Document.Forest

variable {d : Document}

theorem exists_tree? (h : d.Forest) {id : Nat} (hid : id < d.size) : ∃ t, d.tree? id = some t := by
  obtain ⟨k, hk⟩ := exists_kind? hid
  rw [h.tree?_eq id, hk]
  exact ⟨_, rfl⟩

theorem kind?_child_ne_fragment (h : d.Forest) {p c : NodeId} (hc : c ∈ d.children p) :
    d.kind? c ≠ some .fragment := by
  intro hk
  have hnone := h.parent?_fragment c hk
  rw [(h.linked.mem_children_iff p c).mp hc] at hnone
  cases hnone

/-- Every child has its tree. -/
theorem map_tree? (h : d.Forest) (ids : List NodeId) (hids : ∀ c ∈ ids, (c : Nat) < d.size) :
    ids.map d.tree? = (ids.filterMap d.tree?).map some := by
  induction ids with
  | nil => rfl
  | cons c ids ih =>
    obtain ⟨t, ht⟩ := h.exists_tree? (hids c List.mem_cons_self)
    rw [List.map_cons, List.filterMap_cons_some ht, List.map_cons, ht,
      ih fun x hx => hids x (List.mem_cons_of_mem _ hx)]

theorem kind?_of_tree? (h : d.Forest) {id : NodeId} {t : Tree} (ht : d.tree? id = some t) :
    ∃ k, d.kind? id = some k ∧ Tree.ofKind k ((d.children id).filterMap d.tree?) = t := by
  rw [h.tree?_eq] at ht
  exact Option.map_eq_some_iff.mp ht

mutual

/-- The tree of a node that is no fragment shows the node. -/
theorem depicts_node (h : d.Forest) : ∀ (t : Tree) {id : NodeId}, d.tree? id = some t →
    d.kind? id ≠ some .fragment → t.node.Depicts d id
  | .text s, id, ht, _ => by
    obtain ⟨k, hk, he⟩ := h.kind?_of_tree? ht
    cases k with
    | text => cases he; exact hk
    | element | fragment => cases he
  | .fragment ts, id, ht, hne => by
    obtain ⟨k, hk, he⟩ := h.kind?_of_tree? ht
    cases k with
    | fragment => exact absurd hk hne
    | element | text => cases he
  | .element el ts, id, ht, _ => by
    obtain ⟨k, hk, he⟩ := h.kind?_of_tree? ht
    cases k with
    | text | fragment => cases he
    | element el' =>
      obtain ⟨rfl, hts⟩ := Tree.element.inj he
      have hmap := h.map_tree? (d.children id) fun c hc => h.linked.lt_size hc
      rw [hts] at hmap
      exact ⟨el', hk, rfl, rfl, depictsAll_nodes h ts hmap fun c => h.kind?_child_ne_fragment⟩

theorem depictsAll_nodes (h : d.Forest) : ∀ (ts : List Tree) {ids : List NodeId},
    ids.map d.tree? = ts.map some → (∀ c ∈ ids, d.kind? c ≠ some .fragment) →
      Node.DepictsAll d (Tree.nodes ts) ids
  | [], [], _, _ => trivial
  | [], _ :: _, hts, _ => by cases hts
  | _ :: _, [], hts, _ => by cases hts
  | t :: ts, id :: ids, hts, hne => by
    obtain ⟨ht, hts⟩ := List.cons.inj hts
    exact ⟨depicts_node h t ht (hne id List.mem_cons_self),
      depictsAll_nodes h ts hts fun c hc => hne c (List.mem_cons_of_mem _ hc)⟩

end

end Document.Forest

/-- After any operations: where the names below an element can be read back, its markup is
read as a document with one root, the element as it stands with texts joined; and its text
content is what the texts of that root say in order. -/
theorem Document.read_outerMarkup (ops : List Operation) {id : NodeId} {el : Element}
    (hid : (after ops).element? id = some el) (hnames : (after ops).NamedBelow id) :
    ∃ n : Node, n.Depicts (after ops) id ∧
      read ((after ops).outerMarkup id) = .ok (.document [n.joined]) ∧
      (after ops).textContent id = String.join n.joined.texts := by
  have h := forest_after ops
  have hid := element?_eq_some_iff.mp hid
  obtain ⟨t, ht⟩ := h.exists_tree? (lt_size_of_kind? hid)
  have hdepicts : t.node.Depicts (after ops) id := h.depicts_node t ht (by rw [hid]; nofun)
  have helement : t.node.isElement = true := by
    cases hn : t.node with
    | element => rfl
    | document =>
      rw [hn] at hdepicts
      cases hdepicts
    | text s =>
      rw [hn] at hdepicts
      cases hid.symm.trans hdepicts
  have hmarkup : (after ops).outerMarkup id = String.ofList t.node.print := by
    rw [outerMarkup, ht, ← Tree.toList_markup, String.ofList_toList]
    rfl
  refine ⟨t.node, hdepicts, ?_, ?_⟩
  · rw [hmarkup]
    exact Node.read_print (Node.legible_of_depicts h _ hdepicts hnames) helement
  · rw [textContent, ht, Node.texts_joined, ← Tree.content_eq]
    rfl

/-- An element with a link attribute, quotes and entities, and with texts beside each other,
one of them empty, after a fragment was poured and an insertion refused. -/
theorem Document.read_outerMarkup_link :
    let ops : List Operation := [.createElement none "p",
      .setAttribute 0 none "title" "a \"b\" & '<c>'",
      .setAttribute 0 (some Vocabulary.xlinkNamespace) "href" "&quot;",
      .createFragment, .createText " x<", .createText "", .createText "&lt; ",
      .createElement none "b",
      .append 1 2, .append 1 3, .append 1 4, .append 1 5, .append 0 1, .append 5 0,
      .createText "=", .append 5 6]
    let shown := "<p title=\"a &quot;b&quot; &amp; '&lt;c>'\" xlink:href=\"&amp;quot;\">" ++
      " x&lt;&amp;lt; <b>=</b></p>"
    (after ops).outerMarkup 0 = shown ∧ (after ops).textContent 0 = " x<&lt; =" ∧
      (after ops).children 0 = [2, 3, 4, 5] ∧
      ∃ n : Node, n.Depicts (after ops) 0 ∧ read shown = .ok (.document [n.joined]) ∧
        (after ops).textContent 0 = String.join n.joined.texts := by
  intro ops shown
  have hshown : (after ops).outerMarkup 0 = shown := by decide +kernel
  have hsome : ((after ops).element? 0).isSome = true := by decide +kernel
  have hall : ∀ n < (after ops).size, ((after ops).element? n).all (fun el =>
      isTag el.tag && el.attributes.all fun a => isName a.qualifiedName) = true := by decide +kernel
  have hnames : (after ops).NamedBelow 0 := by
    intro n el _ hel
    have hn := hall n (lt_size_of_kind? (element?_eq_some_iff.mp hel))
    rwa [hel, Option.all_some, Bool.and_eq_true, List.all_eq_true] at hn
  obtain ⟨el, hel⟩ := Option.isSome_iff_exists.mp hsome
  refine ⟨hshown, by decide +kernel, by decide +kernel, ?_⟩
  rw [← hshown]
  exact read_outerMarkup ops hel hnames

end Stencil

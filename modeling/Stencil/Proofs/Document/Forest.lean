import Mathlib.Logic.Relation
import Mathlib.Order.WellFounded
import Stencil.Proofs.Document.Appearance
import Stencil.Proofs.Document.Links

/-! Forests. Whatever operations a document has gone through, its links make a forest:
nobody is among its own ancestors, fragments stand at the top, and no element has an
attribute twice. So the way up from a node and the tree below it come to an end before
their bounds do. An operation is refused before it has changed anything, or done. -/
namespace Stencil.Document

def HasParent (d : Document) (c p : NodeId) : Prop := d.parent? c = some p

/-- Linked, with no way up that goes on for ever, with fragments at the top, and with
attributes that differ in namespace or name. -/
structure Forest (d : Document) : Prop where
  linked : d.Linked
  wellFounded : WellFounded (flip d.HasParent)
  parent?_fragment : ∀ n, d.kind? n = some .fragment → d.parent? n = none
  nodup_attributes : ∀ n e, d.kind? n = some (.element e) →
    (e.attributes.map fun a => (a.space, a.name)).Nodup

variable {d e : Document}

/-! ## The way up -/

theorem reaches_of_mem_climb {steps : Nat} {n a : NodeId} (h : a ∈ d.climb steps n) :
    Relation.ReflTransGen d.HasParent n a :=
  forall_mem_climb (fun _ _ hx hy => hx.tail hy) steps .refl a h

namespace Forest

theorem not_reaches_self (h : d.Forest) (n : NodeId) : ¬ Relation.TransGen d.HasParent n n := by
  intro hn
  have hflip : Relation.TransGen (flip d.HasParent) n n := Relation.transGen_swap.mpr hn
  exact h.wellFounded.transGen.irrefl.irrefl n hflip

theorem not_mem_climb (h : d.Forest) {n p : NodeId} (hp : d.HasParent n p) (steps : Nat) :
    n ∉ d.climb steps p := fun hm =>
  h.not_reaches_self n (Relation.TransGen.head' hp (reaches_of_mem_climb hm))

theorem climb_lt_size (h : d.Forest) (steps : Nat) {n : Nat} (hn : n < d.size) :
    ∀ a ∈ d.climb steps n, a < d.size :=
  forall_mem_climb (S := fun x => x < d.size) (fun _ _ _ hy => h.linked.parent_lt_size hy) steps hn

theorem nodup_climb (h : d.Forest) (steps : Nat) (n : NodeId) : (d.climb steps n).Nodup := by
  induction steps generalizing n with
  | zero => exact List.nodup_nil
  | succ steps ih =>
    rw [climb]
    cases hp : d.parent? n with
    | none => exact List.nodup_singleton n
    | some p => exact List.nodup_cons.mpr ⟨h.not_mem_climb hp steps, ih p⟩

end Forest

/-- Once the way up has come to an end, more steps do not make it longer. -/
theorem climb_succ {steps : Nat} {n : NodeId} (h : (d.climb steps n).length < steps) :
    d.climb (steps + 1) n = d.climb steps n := by
  induction steps generalizing n with
  | zero => cases h
  | succ steps ih =>
    rw [climb] at h
    rw [climb, climb]
    cases hp : d.parent? n with
    | none => rfl
    | some p =>
      rw [hp] at h
      exact congrArg (n :: ·) (ih (by simpa using h))

namespace Forest

/-- The ancestors of a node are the node and the ancestors of its parent. -/
theorem ancestors_eq (h : d.Forest) (n : NodeId) :
    d.ancestors n = n :: ((d.parent? n).map d.ancestors).getD [] := by
  rw [ancestors, climb]
  cases hp : d.parent? n with
  | none => rfl
  | some p =>
    have hlt : ∀ a ∈ n :: d.climb d.size p, a < d.size := by
      intro a ha
      rcases List.mem_cons.mp ha with rfl | ha
      · exact lt_size_of_parent? hp
      · exact h.climb_lt_size _ (h.linked.parent_lt_size hp) a ha
    have hnd : (n :: d.climb d.size p).Nodup :=
      List.nodup_cons.mpr ⟨h.not_mem_climb hp _, h.nodup_climb _ p⟩
    have hlen : (d.climb d.size p).length < d.size := Appearance.length_le_size hnd hlt
    rw [Option.map_some, Option.getD_some, ancestors, climb_succ hlen]

theorem mem_ancestors_iff (h : d.Forest) {n a : NodeId} :
    a ∈ d.ancestors n ↔ Relation.ReflTransGen d.HasParent n a := by
  refine ⟨reaches_of_mem_climb, fun hr => ?_⟩
  induction hr using Relation.ReflTransGen.head_induction_on with
  | refl => exact self_mem_ancestors d a
  | @head n p hp _ ih =>
    rw [h.ancestors_eq n, show d.parent? n = some p from hp]
    exact List.mem_cons_of_mem _ ih

theorem mem_ancestors_of_hasParent (h : d.Forest) {n a b : NodeId} (ha : a ∈ d.ancestors n)
    (hb : d.HasParent a b) : b ∈ d.ancestors n :=
  h.mem_ancestors_iff.mpr ((h.mem_ancestors_iff.mp ha).tail hb)

theorem length_ancestors_le (h : d.Forest) {n : Nat} (hn : n < d.size) :
    (d.ancestors n).length ≤ d.size :=
  Appearance.length_le_size (h.nodup_climb _ n) (h.climb_lt_size _ hn)

theorem length_ancestors_child (h : d.Forest) {n c : NodeId} (hc : c ∈ d.children n) :
    (d.ancestors c).length = (d.ancestors n).length + 1 := by
  rw [h.ancestors_eq c, (h.linked.mem_children_iff n c).mp hc]
  rfl

end Forest

/-! ## The tree below -/

/-- A node of a kind over the trees of its children; a text has none. -/
def Tree.ofKind : Kind → List Tree → Tree
  | .element el, below => .element el below
  | .text s, _ => .text s
  | .fragment, below => .fragment below

theorem treeTo_eq (d : Document) (depth : Nat) (n : NodeId) : d.treeTo (depth + 1) n =
    (d.kind? n).map fun k => Tree.ofKind k ((d.children n).filterMap (d.treeTo depth)) := by
  rw [treeTo, kind?, children]
  cases d.get? n with
  | none => rfl
  | some entry =>
    simp only [Option.map_some, Option.getD_some]
    cases entry.kind <;> rfl

namespace Forest

/-- A depth that is left when all ancestors are counted is deep enough. -/
theorem treeTo_succ (h : d.Forest) {depth : Nat} {n : NodeId}
    (hlt : d.size < depth + (d.ancestors n).length) :
    d.treeTo (depth + 1) n = d.treeTo depth n := by
  induction depth generalizing n with
  | zero =>
    have hn : d.size ≤ n := by
      apply Nat.le_of_not_lt
      intro hn
      have := h.length_ancestors_le hn
      omega
    rw [treeTo_eq, (kind?_eq_none_iff d n).mpr hn]
    rfl
  | succ depth ih =>
    have hbelow : (d.children n).filterMap (d.treeTo (depth + 1)) =
        (d.children n).filterMap (d.treeTo depth) := by
      refine List.filterMap_congr fun c hc => ih ?_
      have := h.length_ancestors_child hc
      omega
    rw [treeTo_eq, treeTo_eq, hbelow]

/-- The tree of a node is made of the trees of its children. -/
theorem tree?_eq (h : d.Forest) (n : NodeId) :
    d.tree? n = (d.kind? n).map fun k => Tree.ofKind k ((d.children n).filterMap d.tree?) := by
  have hbelow : (d.children n).filterMap d.tree? = (d.children n).filterMap (d.treeTo d.size) := by
    refine List.filterMap_congr fun c hc => h.treeTo_succ ?_
    have := h.length_ancestors_child hc
    omega
  rw [hbelow, tree?, treeTo_eq]

/-! ## New links -/

/-- Links may be cut. -/
theorem wellFounded_of_cut (h : d.Forest)
    (he : ∀ c p, e.HasParent c p → d.HasParent c p) : WellFounded (flip e.HasParent) :=
  Subrelation.wf (fun {p c} hp => he c p hp) h.wellFounded

/-- Nodes may be moved under a parent that has none of them among its ancestors. -/
theorem wellFounded_of_moved (h : d.Forest) {p : NodeId} {moved : List NodeId}
    (hp : ∀ a ∈ d.ancestors p, a ∉ moved)
    (he : ∀ n, e.parent? n = if n ∈ moved then some p else d.parent? n) :
    WellFounded (flip e.HasParent) := by
  -- first the ancestors of the new parent, whose links are the old ones
  have habove : ∀ a, a ∈ d.ancestors p → Acc (flip e.HasParent) a := by
    intro a
    induction a using h.wellFounded.induction with
    | _ a ih =>
      intro ha
      refine .intro a fun b hb => ?_
      have hab : d.HasParent a b := by
        have hb : e.parent? a = some b := hb
        rwa [he, if_neg (hp a ha)] at hb
      exact ih b hab (h.mem_ancestors_of_hasParent ha hab)
  refine ⟨fun n => ?_⟩
  induction n using h.wellFounded.induction with
  | _ n ih =>
    refine .intro n fun q hq => ?_
    have hq : e.parent? n = some q := hq
    rw [he] at hq
    split at hq
    · cases hq
      exact habove p (self_mem_ancestors d p)
    · exact ih q hq

theorem empty : ({} : Document).Forest where
  linked := .empty
  wellFounded := ⟨fun n => .intro n fun p hp => by cases hp⟩
  parent?_fragment n hn := by simp [kind?, get?] at hn
  nodup_attributes n e hn := by simp [kind?, get?] at hn

theorem create (h : d.Forest) {k : Kind} (hk : ∀ el, k = .element el → el.attributes = []) :
    (d.create k).Forest where
  linked := h.linked.create k
  wellFounded := h.wellFounded_of_cut fun c p hp => by
    rwa [HasParent, parent?_create] at hp
  parent?_fragment n hn := by
    rw [kind?_create] at hn
    rw [parent?_create]
    split at hn
    · rename_i hs
      exact parent?_of_size_le (Nat.le_of_eq hs.symm)
    · exact h.parent?_fragment n hn
  nodup_attributes n el hn := by
    rw [kind?_create] at hn
    split at hn
    · rw [hk el (Option.some.inj hn)]
      exact List.nodup_nil
    · exact h.nodup_attributes n el hn

/-- Kinds stay, and so do the links of fragments, unless links are cut. -/
theorem of_links (h : d.Forest) (hl : e.Linked) (hw : WellFounded (flip e.HasParent))
    (hk : ∀ n, e.kind? n = d.kind? n)
    (hp : ∀ n, d.kind? n = some .fragment → d.parent? n = none → e.parent? n = none) :
    e.Forest where
  linked := hl
  wellFounded := hw
  parent?_fragment n hn := by
    rw [hk] at hn
    exact hp n hn (h.parent?_fragment n hn)
  nodup_attributes n el hn := by
    rw [hk] at hn
    exact h.nodup_attributes n el hn

theorem unlink (h : d.Forest) (id : NodeId) : (d.unlink id).Forest := by
  refine h.of_links (h.linked.unlink id) (h.wellFounded_of_cut fun c p hp => ?_)
    (kind?_unlink d id) fun n _ hn => ?_
  · rw [HasParent, parent?_unlink] at hp
    split at hp
    · cases hp
    · exact hp
  · rw [parent?_unlink, hn, ite_self]

theorem pour (h : d.Forest) {p f : NodeId} {mark : Option NodeId} (ha : d.Admits p f mark) :
    (d.pour p f mark).Forest := by
  have hparent := parent?_pour d p f mark fun n hn => h.linked.lt_size hn
  refine h.of_links (h.linked.pour ha) (h.wellFounded_of_moved (fun a hanc hm => ?_) hparent)
    (kind?_pour d p f mark) fun n _ hn => ?_
  · have hf : d.HasParent a f := (h.linked.mem_children_iff f a).mp hm
    exact ha.not_ancestor (h.mem_ancestors_of_hasParent hanc hf)
  · rw [hparent, if_neg, hn]
    intro hm
    cases ((h.linked.mem_children_iff f n).mp hm).symm.trans hn

theorem place (h : d.Forest) {p c : NodeId} {mark : Option NodeId} (ha : d.Admits p c mark)
    (hc : d.kind? c ≠ some .fragment) : (d.place p c mark).Forest := by
  have hparent : ∀ n, (d.place p c mark).parent? n =
      if n ∈ [c] then some p else d.parent? n := by
    intro n
    rw [parent?_place mark ha.child_lt]
    simp only [List.mem_singleton]
  refine h.of_links (h.linked.place ha) (h.wellFounded_of_moved (fun a hanc hm => ?_) hparent)
    (kind?_place d p c mark) fun n hk hn => ?_
  · rw [List.mem_singleton.mp hm] at hanc
    exact ha.not_ancestor hanc
  · rw [hparent, if_neg, hn]
    intro hm
    rw [List.mem_singleton.mp hm] at hk
    exact hc hk

theorem setKind (h : d.Forest) {id : Nat} {k k' : Kind} (hid : d.kind? id = some k')
    (htext : ∀ s, k = .text s → ∃ s', k' = .text s') (hfragment : k ≠ .fragment)
    (hattrs : ∀ el, k = .element el → (el.attributes.map fun a => (a.space, a.name)).Nodup) :
    (d.setKind id k).Forest where
  linked := by
    refine h.linked.setKind (lt_size_of_kind? hid) fun s hs => ?_
    obtain ⟨s', rfl⟩ := htext s hs
    exact h.linked.children_text id s' hid
  wellFounded := h.wellFounded_of_cut fun c p hp => by
    rwa [HasParent, parent?_setKind] at hp
  parent?_fragment n hn := by
    rw [kind?_setKind k (lt_size_of_kind? hid)] at hn
    rw [parent?_setKind]
    split at hn
    · exact absurd (Option.some.inj hn) hfragment
    · exact h.parent?_fragment n hn
  nodup_attributes n el hn := by
    rw [kind?_setKind k (lt_size_of_kind? hid)] at hn
    split at hn
    · exact hattrs el (Option.some.inj hn)
    · exact h.nodup_attributes n el hn

end Forest

/-! ## Operations -/

theorem get?_clear (d : Document) (id n : NodeId) :
    (d.clear id).get? n = (d.get? n).map fun entry =>
      { entry with
        parent := if n ∈ d.children id then none else entry.parent
        children := if n = id then [] else entry.children } := by
  rw [clear, get?_edit, get?_foldl_edit]
  · cases d.get? n with
    | none => simp
    | some entry => split <;> split <;> rfl
  · exact fun _ => rfl

theorem size_clear (d : Document) (id : NodeId) : (d.clear id).size = d.size := by
  rw [clear, size_edit, size_foldl_edit]

theorem kind?_clear (d : Document) (id n : NodeId) : (d.clear id).kind? n = d.kind? n := by
  rw [kind?, get?_clear, Option.map_map]
  rfl

theorem parent?_clear (d : Document) (id n : NodeId) :
    (d.clear id).parent? n = if n ∈ d.children id then none else d.parent? n := by
  rw [parent?, get?_clear, parent?]
  cases d.get? n with
  | none => simp
  | some entry => rfl

theorem children_clear (d : Document) (id n : NodeId) :
    (d.clear id).children n = if n = id then [] else d.children n := by
  have hn := get?_clear d id n
  cases hd : d.get? n with
  | none => rw [children, children, hn, hd]; simp
  | some entry => rw [children, children, hn, hd]; rfl

theorem Linked.clear (h : d.Linked) (id : NodeId) : (d.clear id).Linked where
  mem_children_iff p c := by
    rw [children_clear, parent?_clear]
    by_cases hp : p = id
    · subst hp
      by_cases hc : c ∈ d.children p
      · simp [hc]
      · simpa [hc] using fun he => hc ((h.mem_children_iff p c).mpr he)
    · rw [if_neg hp, h.mem_children_iff]
      split
      · rename_i hc
        rw [(h.mem_children_iff id c).mp hc]
        simp [Ne.symm hp]
      · rfl
  nodup_children p := by
    rw [children_clear]
    split
    · exact List.nodup_nil
    · exact h.nodup_children p
  children_text p s hs := by
    rw [kind?_clear] at hs
    rw [children_clear, h.children_text p s hs, ite_self]

theorem key_of_mem_put {space : Option String} {name value : String} {as : List Attr} {a : Attr}
    (h : a ∈ Attr.put space name value as) :
    (a.space, a.name) = (space, name) ∨ (a.space, a.name) ∈ as.map fun a => (a.space, a.name) := by
  induction as with
  | nil =>
    rw [List.mem_singleton.mp h]
    exact .inl rfl
  | cons b as ih =>
    rw [Attr.put] at h
    split at h <;> rcases List.mem_cons.mp h with rfl | h
    · exact .inr List.mem_cons_self
    · exact .inr (List.mem_cons_of_mem _ (List.mem_map_of_mem h))
    · exact .inr List.mem_cons_self
    · exact (ih h).imp id (List.mem_cons_of_mem _)

theorem nodup_put (space : Option String) (name value : String) {as : List Attr}
    (h : (as.map fun a => (a.space, a.name)).Nodup) :
    ((Attr.put space name value as).map fun a => (a.space, a.name)).Nodup := by
  induction as with
  | nil => exact List.nodup_singleton _
  | cons a as ih =>
    rw [Attr.put]
    split
    · exact h
    · rename_i ha
      rw [List.map_cons, List.nodup_cons] at h ⊢
      refine ⟨fun hm => ?_, ih h.2⟩
      obtain ⟨b, hb, hkey⟩ := List.mem_map.mp hm
      rcases key_of_mem_put hb with he | hm
      · exact ha (Element.isNamed_iff.mpr (hkey.symm.trans he))
      · exact h.1 (hkey ▸ hm)

theorem insertBefore_self {p c : NodeId} {mark : Option NodeId} (h : d.Admits p c mark)
    (hc : d.kind? c ≠ some .fragment) (hm : mark = some c) : d.insertBefore p c mark = .ok d := by
  unfold insertBefore
  rw [obstacle?_eq_none_iff.mpr h]
  split
  · contradiction
  · simp [hm]

/-- What an insertion comes to: a fragment is poured out, any other node is placed. -/
theorem insertBefore_cases {p c : NodeId} {mark : Option NodeId}
    (he : d.insertBefore p c mark = .ok e) : d.Admits p c mark ∧
      (d.kind? c = some .fragment ∧ e = d.pour p c mark ∨ e = d ∨
        d.kind? c ≠ some .fragment ∧ e = d.place p c mark) := by
  cases ho : d.obstacle? p c mark with
  | some err =>
    rw [Document.insertBefore, ho] at he
    cases he
  | none =>
    have ha := obstacle?_eq_none_iff.mp ho
    refine ⟨ha, ?_⟩
    by_cases hc : d.kind? c = some .fragment
    · rw [insertBefore_fragment ha hc] at he
      exact .inl ⟨hc, (Except.ok.inj he).symm⟩
    · by_cases hm : mark = some c
      · rw [insertBefore_self ha hc hm] at he
        exact .inr (.inl (Except.ok.inj he).symm)
      · rw [insertBefore_node ha hc hm] at he
        exact .inr (.inr ⟨hc, (Except.ok.inj he).symm⟩)

namespace Forest

theorem clear (h : d.Forest) (id : NodeId) : (d.clear id).Forest := by
  have hparent := parent?_clear d id
  refine h.of_links (h.linked.clear id) (h.wellFounded_of_cut fun c p hp => ?_)
    (kind?_clear d id) fun n _ hn => ?_
  · rw [HasParent, hparent] at hp
    split at hp
    · cases hp
    · exact hp
  · rw [hparent, hn, ite_self]

theorem insertBefore (h : d.Forest) {p c : NodeId} {mark : Option NodeId}
    (he : d.insertBefore p c mark = .ok e) : e.Forest := by
  obtain ⟨ha, ⟨_, rfl⟩ | rfl | ⟨hc, rfl⟩⟩ := insertBefore_cases he
  · exact h.pour ha
  · exact h
  · exact h.place ha hc

theorem setText (h : d.Forest) {id : NodeId} {text : String} (he : d.setText id text = .ok e) :
    e.Forest := by
  cases hk : d.kind? id with
  | none =>
    rw [Document.setText, hk] at he
    cases he
  | some k =>
    cases k with
    | text s =>
      rw [setText_text text hk] at he
      cases he
      exact h.setKind hk (fun _ _ => ⟨s, rfl⟩) nofun nofun
    | element | fragment =>
      rw [Document.setText, hk] at he
      exact ((h.clear id).create fun el hel => by cases hel).insertBefore he

theorem editElement (h : d.Forest) {id : NodeId} {f : Element → Element}
    (hf : ∀ el, (el.attributes.map fun a => (a.space, a.name)).Nodup →
      ((f el).attributes.map fun a => (a.space, a.name)).Nodup)
    (he : d.editElement id f = .ok e) : e.Forest := by
  obtain ⟨el, hk, rfl⟩ := editElement_cases he
  refine h.setKind hk nofun nofun fun el' hel => ?_
  cases hel
  exact hf el (h.nodup_attributes id el hk)

end Forest

/-- What can be done to a document, with any numbers for its nodes. -/
inductive Operation where
  | createElement (space : Option String) (tag : String)
  | createText (content : String)
  | createFragment
  | append (parent child : NodeId)
  | insertBefore (parent child : NodeId) (mark : Option NodeId)
  | removeChild (parent child : NodeId)
  | detach (node : NodeId)
  | setText (node : NodeId) (text : String)
  | setAttribute (node : NodeId) (space : Option String) (name value : String)
  | removeAttribute (node : NodeId) (space : Option String) (name : String)
  | setProperty (node : NodeId) (name : String) (value : Json)
  | removeProperty (node : NodeId) (name : String)

def Operation.apply (d : Document) : Operation → Except DocumentError Document
  | .createElement space tag => .ok (d.create (.element { tag := tag, space := space }))
  | .createText content => .ok (d.create (.text content))
  | .createFragment => .ok (d.create .fragment)
  | .append parent child => d.append parent child
  | .insertBefore parent child mark => d.insertBefore parent child mark
  | .removeChild parent child => d.removeChild parent child
  | .detach node => d.detach node
  | .setText node text => d.setText node text
  | .setAttribute node space name value => d.setAttribute node space name value
  | .removeAttribute node space name => d.removeAttribute node space name
  | .setProperty node name value => d.setProperty node name value
  | .removeProperty node name => d.removeProperty node name

/-- An operation that is refused leaves the document as it was. -/
def perform (d : Document) (op : Operation) : Document :=
  match op.apply d with
  | .ok e => e
  | .error _ => d

/-- The document after some operations on an empty one. -/
def after (ops : List Operation) : Document := ops.foldl perform {}

theorem Forest.apply (h : d.Forest) {op : Operation} (he : op.apply d = .ok e) : e.Forest := by
  cases op with
  | createElement space tag =>
    cases he
    exact h.create fun el hel => by cases hel; rfl
  | createText | createFragment =>
    cases he
    exact h.create nofun
  | append | insertBefore => exact h.insertBefore he
  | removeChild parent child =>
    rw [Operation.apply, removeChild] at he
    split at he
    · cases he
    · split at he
      · cases he
        exact h.unlink child
      · cases he
  | detach node =>
    rw [Operation.apply, detach] at he
    split at he
    · cases he
    · cases he
      exact h.unlink node
  | setText => exact h.setText he
  | setAttribute node space name value =>
    exact h.editElement (fun el => nodup_put space name value) he
  | removeAttribute =>
    exact h.editElement (fun el hel => hel.sublist (List.filter_sublist.map _)) he
  | setProperty node name value =>
    let put (el : Element) := { el with properties := putProperty name value el.properties }
    exact h.editElement (f := put) (fun el hel => hel) he
  | removeProperty node name =>
    let drop (el : Element) := { el with properties := el.properties.filter (·.1 != name) }
    exact h.editElement (f := drop) (fun el hel => hel) he

theorem Forest.perform (h : d.Forest) (op : Operation) : (d.perform op).Forest := by
  rw [Document.perform]
  split
  · exact h.apply ‹_›
  · exact h

theorem forest_foldl (h : d.Forest) (ops : List Operation) : (ops.foldl perform d).Forest := by
  induction ops generalizing d with
  | nil => exact h
  | cons op ops ih => exact ih (h.perform op)

theorem forest_after (ops : List Operation) : (after ops).Forest := forest_foldl .empty ops

/-! ## Refusals -/

/-- A new node goes to the end of any container: it is nobody's ancestor yet. -/
theorem Linked.admits_create (h : d.Linked) {n : NodeId} {k : Kind} (hn : d.kind? n = some k)
    (hk : Document.isContainer k = true) (new : Kind) :
    (d.create new).Admits n d.size none where
  child_lt := by
    rw [size_create]
    exact Nat.lt_succ_self d.size
  container := by
    refine ⟨k, ?_, hk⟩
    rw [kind?_create, if_neg (Nat.ne_of_lt (lt_size_of_kind? hn)), hn]
  mark_parent r hr := by cases hr
  not_ancestor hm := by
    have hlt : ∀ a ∈ (d.create new).ancestors n, a < d.size := by
      refine forall_mem_climb (fun x y _ hy => ?_) _ (lt_size_of_kind? hn)
      rw [parent?_create] at hy
      exact h.parent_lt_size hy
    exact Nat.lt_irrefl d.size (hlt d.size hm)

/-- Once the children of a container are let go, nothing stands against its new text. -/
theorem Linked.setText_container (h : d.Linked) {n : NodeId} {k : Kind}
    (hn : d.kind? n = some k) (hk : Document.isContainer k = true) (text : String) :
    d.setText n text = .ok (((d.clear n).create (.text text)).place n d.size none) := by
  have hn' : (d.clear n).kind? n = some k := by rw [kind?_clear, hn]
  have hadmits := (h.clear n).admits_create hn' hk (.text text)
  have htext : ((d.clear n).create (.text text)).kind? (d.clear n).size ≠ some .fragment := by
    rw [kind?_create, if_pos rfl]
    simp
  have happend := insertBefore_node hadmits htext (by simp)
  rw [Document.setText, hn]
  cases k with
  | text s => cases hk
  | element | fragment =>
    rw [← size_clear d n]
    exact happend

/-- What is said against an operation while nothing has been changed yet. -/
def Operation.refusal? (d : Document) : Operation → Option DocumentError
  | .createElement .. | .createText _ | .createFragment => none
  | .append parent child => d.obstacle? parent child none
  | .insertBefore parent child mark => d.obstacle? parent child mark
  | .removeChild parent child =>
    if (d.get? child).isNone then some (.unknown child)
    else if d.parent? child = some parent then none
    else some (.notChild parent child)
  | .detach node | .setText node _ => if (d.get? node).isNone then some (.unknown node) else none
  | .setAttribute node .. | .removeAttribute node .. | .setProperty node ..
  | .removeProperty node _ =>
    match d.kind? node with
    | none => some (.unknown node)
    | some (.element _) => none
    | some _ => some (.notElement node)

/-- The answer has the error, or there is none and the operation is done. -/
def Answers (r : Except DocumentError Document) (refusal : Option DocumentError) : Prop :=
  (∃ e, r = .ok e ∧ refusal = none) ∨ ∃ err, r = .error err ∧ refusal = some err

theorem answers_insertBefore (d : Document) (p c : NodeId) (mark : Option NodeId) :
    Answers (d.insertBefore p c mark) (d.obstacle? p c mark) := by
  cases ho : d.obstacle? p c mark with
  | some err => exact .inr ⟨err, by rw [insertBefore, ho], rfl⟩
  | none =>
    have ha := obstacle?_eq_none_iff.mp ho
    by_cases hc : d.kind? c = some .fragment
    · exact .inl ⟨_, insertBefore_fragment ha hc, rfl⟩
    · by_cases hm : mark = some c
      · exact .inl ⟨_, insertBefore_self ha hc hm, rfl⟩
      · exact .inl ⟨_, insertBefore_node ha hc hm, rfl⟩

theorem Linked.answers_setText (h : d.Linked) (n : NodeId) (text : String) :
    Answers (d.setText n text) (if (d.get? n).isNone then some (.unknown n) else none) := by
  cases hk : d.kind? n with
  | none =>
    have hnone : d.get? n = none := Option.map_eq_none_iff.mp hk
    exact .inr ⟨_, by rw [Document.setText, hk], by simp [hnone]⟩
  | some k =>
    obtain ⟨entry, hget, _⟩ := Option.map_eq_some_iff.mp hk
    refine .inl ?_
    cases k with
    | text s => exact ⟨_, setText_text text hk, by simp [hget]⟩
    | element el => exact ⟨_, h.setText_container hk rfl text, by simp [hget]⟩
    | fragment => exact ⟨_, h.setText_container hk rfl text, by simp [hget]⟩

theorem answers_editElement (d : Document) (n : NodeId) (f : Element → Element) :
    Answers (d.editElement n f) (match d.kind? n with
      | none => some (.unknown n)
      | some (.element _) => none
      | some _ => some (.notElement n)) := by
  rw [editElement]
  cases d.kind? n with
  | none => exact .inr ⟨_, rfl, rfl⟩
  | some k =>
    cases k with
    | element el => exact .inl ⟨_, rfl, rfl⟩
    | text | fragment => exact .inr ⟨_, rfl, rfl⟩

/-- An operation is refused for what can be said before it begins, or done to its end. -/
theorem Linked.answers_apply (h : d.Linked) (op : Operation) :
    Answers (op.apply d) (op.refusal? d) := by
  cases op with
  | createElement | createText | createFragment => exact .inl ⟨_, rfl, rfl⟩
  | append | insertBefore => exact answers_insertBefore ..
  | removeChild parent child =>
    rw [Operation.apply, removeChild, Operation.refusal?]
    split
    · exact .inr ⟨_, rfl, rfl⟩
    · split
      · exact .inl ⟨_, rfl, rfl⟩
      · exact .inr ⟨_, rfl, rfl⟩
  | detach node =>
    rw [Operation.apply, detach, Operation.refusal?]
    split
    · exact .inr ⟨_, rfl, rfl⟩
    · exact .inl ⟨_, rfl, rfl⟩
  | setText node text => exact h.answers_setText node text
  | setAttribute | removeAttribute | setProperty | removeProperty => exact answers_editElement ..

/-- After any operations, the next one is refused exactly for what can be said before it
begins. So none is refused halfway. -/
theorem refused_after_iff (ops : List Operation) (op : Operation) (err : DocumentError) :
    op.apply (after ops) = .error err ↔ op.refusal? (after ops) = some err := by
  rcases (forest_after ops).linked.answers_apply op with ⟨e, hok, hnone⟩ | ⟨err', herr, hsome⟩
  · rw [hok, hnone]
    simp
  · rw [herr, hsome]
    simp

/-- After any operations, refused ones among them, links say the same from both ends, name
nodes that are there and lead round in no circle; texts have no children and fragments no
parent; and attributes of one element differ. Ancestors and trees are followed to the end. -/
theorem links_after (ops : List Operation) :
    let d := after ops
    (∀ p c, c ∈ d.children p ↔ d.parent? c = some p) ∧
      (∀ p c, c ∈ d.children p → (d.children p).count c = 1) ∧
      (∀ p c, d.parent? c = some p → c < d.size ∧ p < d.size) ∧
      (∀ n, ¬ Relation.TransGen (fun c p => d.parent? c = some p) n n) ∧
      (∀ n s, d.kind? n = some (.text s) → d.children n = []) ∧
      (∀ n, d.kind? n = some .fragment → d.parent? n = none) ∧
      (∀ n el, d.kind? n = some (.element el) →
        (el.attributes.map fun a => (a.space, a.name)).Nodup) ∧
      (∀ n, d.ancestors n = n :: ((d.parent? n).map d.ancestors).getD []) ∧
      ∀ n, d.tree? n =
        (d.kind? n).map fun k => Tree.ofKind k ((d.children n).filterMap d.tree?) := by
  intro d
  have h : d.Forest := forest_after ops
  refine ⟨h.linked.mem_children_iff, fun p c hc => ?_, fun p c hp => ?_, h.not_reaches_self,
    h.linked.children_text, h.parent?_fragment, h.nodup_attributes, h.ancestors_eq, h.tree?_eq⟩
  · exact List.count_eq_one_of_mem (h.linked.nodup_children p) hc
  · exact ⟨lt_size_of_parent? hp, h.linked.parent_lt_size hp⟩

end Stencil.Document

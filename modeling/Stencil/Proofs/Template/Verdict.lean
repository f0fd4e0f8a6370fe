import Stencil.Proofs.Markup.Grammar
import Stencil.Proofs.Template.Registering

/-! What compiling accepts. A tree that was read has items to be read in turn, in the order of
the document: of an element its directives, its other attributes, and what is in it. It is
compiled when each item can be read; otherwise the first one that cannot is the error, and
no template of that name is registered. -/
namespace Stencil
open Binding Markup

/-- Something to be read: the content of a text or an attribute, or the value of a directive. -/
inductive Item where
  | content (raw : String)
  | directive (d : Directive) (value : String)
  deriving DecidableEq

namespace Markup.Node

mutual

/-- The items of a tree in order. -/
def items : Node → List Item
  | .document cs => itemsAll cs
  | .text raw => [.content raw]
  | .element _ as cs =>
    (Builder.directives as).map (fun x => .directive x.1 x.2) ++
      ((Builder.plain as).map (fun a => .content a.value) ++ itemsAll cs)

def itemsAll : List Node → List Item
  | [] => []
  | n :: ns => items n ++ itemsAll ns

end

end Markup.Node

/-- The error of an outcome, if it is one. -/
def failure? {ε α : Type} : Except ε α → Option ε
  | .ok _ => none
  | .error e => some e

/-! ## Items -/

theorem failure?_eq_none {ε α : Type} {r : Except ε α} : failure? r = none ↔ ∃ a, r = .ok a := by
  cases r <;> simp [failure?]

theorem failure?_eq_some {ε α : Type} {r : Except ε α} {e : ε} :
    failure? r = some e ↔ r = .error e := by
  cases r <;> simp [failure?]

namespace Item

def IsSound : Item → Prop
  | .content raw => ∃ ss, Segment.readAll (tidy raw) = .ok ss
  | .directive _ value => ∃ p, Path.ofDirective value = .ok p

/-- What is wrong with an item: the first reference that is no path, or the value of a
directive that is none. -/
inductive Faults : Item → CompileError → Prop
  | content {raw : String} {before after : List Piece} {body : List Char}
    (cut : Piece.cut (tidy raw).toList = before ++ .reference body :: after)
    (sound : ∀ b, .reference b ∈ before → ∃ p, Path.read (String.ofList b) = .ok p)
    (fault : ∀ p, Path.read (String.ofList body) ≠ .ok p) :
    Faults (.content raw) (.invalidPath ⟨Text.trimmed (String.ofList body)⟩)
  | directive {d : Directive} {value : String} (fault : ∀ p, Path.ofDirective value ≠ .ok p) :
    Faults (.directive d value) (.invalidDirective d value)

/-- The error of an item, if it has one. -/
def fault? : Item → Option CompileError
  | .content raw => (failure? (Segment.readAll (tidy raw))).map .invalidPath
  | .directive d value => (failure? (Path.ofDirective value)).map fun _ => .invalidDirective d value

theorem fault?_eq_none (i : Item) : i.fault? = none ↔ i.IsSound := by
  cases i <;> rw [fault?, Option.map_eq_none_iff, failure?_eq_none] <;> rfl

end Item

theorem Binding.Path.failure?_read (raw : String) :
    failure? (Path.read raw) = none ∨ failure? (Path.read raw) = some ⟨Text.trimmed raw⟩ := by
  unfold Path.read
  dsimp only
  split
  · exact .inl rfl
  · exact .inr rfl

namespace Binding.Segment

theorem failure?_ofPiece_reference (b : List Char) :
    failure? (ofPiece (.reference b)) = failure? (Path.read (String.ofList b)) := by
  rw [ofPiece]
  cases Path.read (String.ofList b) <;> rfl

/-- The first piece that is at fault is the error. -/
theorem failure?_ofPieces (ps : List Piece) :
    failure? (ofPieces ps) = ps.findSome? fun p => failure? (ofPiece p) := by
  induction ps with
  | nil => rfl
  | cons p ps ih =>
    rw [ofPieces, List.findSome?_cons, ← ih]
    cases ofPiece p with
    | error e => rfl
    | ok s => cases ofPieces ps <;> rfl

end Binding.Segment

theorem Item.fault?_eq_some (i : Item) (err : CompileError) :
    i.fault? = some err ↔ i.Faults err := by
  cases i with
  | directive d value =>
    rw [fault?, Option.map_eq_some_iff]
    constructor
    · rintro ⟨e, he, rfl⟩
      refine .directive fun p hp => ?_
      rw [hp] at he
      cases he
    · intro h
      cases h with
      | directive hfault =>
        cases hr : Path.ofDirective value with
        | ok p => exact absurd hr (hfault p)
        | error e => exact ⟨e, rfl, rfl⟩
  | content raw =>
    rw [fault?, Option.map_eq_some_iff, Segment.readAll]
    simp only [Segment.failure?_ofPieces, List.findSome?_eq_some_iff]
    constructor
    · rintro ⟨e, ⟨before, p, after, hcut, hp, hbefore⟩, rfl⟩
      cases p with
      | literal cs => cases hp
      | reference body =>
        rw [Segment.failure?_ofPiece_reference] at hp
        obtain rfl : e = ⟨Text.trimmed (String.ofList body)⟩ := by
          rcases Path.failure?_read (String.ofList body) with h | h <;> rw [hp] at h <;> cases h
          rfl
        refine .content hcut (fun b hb => ?_) fun p hok => ?_
        · have := hbefore _ hb
          rwa [Segment.failure?_ofPiece_reference, failure?_eq_none] at this
        · rw [hok] at hp
          cases hp
    · intro h
      cases h with
      | @content _ before after body hcut hsound hfault =>
        refine ⟨_, ⟨before, .reference body, after, hcut, ?_, fun p hp => ?_⟩, rfl⟩
        · rw [Segment.failure?_ofPiece_reference]
          refine (Path.failure?_read _).resolve_left fun hnone => ?_
          obtain ⟨p, hp⟩ := failure?_eq_none.mp hnone
          exact hfault p hp
        · cases p with
          | literal cs => rfl
          | reference b =>
            rw [Segment.failure?_ofPiece_reference, failure?_eq_none]
            exact hsound b hp

/-! ## Drafts -/

/-- The first error among items. -/
def firstFault (is : List Item) : Option CompileError := is.findSome? Item.fault?

theorem firstFault_cons (i : Item) (is : List Item) :
    firstFault (i :: is) = i.fault?.or (firstFault is) := by
  rw [firstFault, List.findSome?_cons]
  cases i.fault? <;> rfl

theorem firstFault_append (is js : List Item) :
    firstFault (is ++ js) = (firstFault is).or (firstFault js) := by
  rw [firstFault, List.findSome?_append]
  rfl

theorem firstFault_eq_none (is : List Item) : firstFault is = none ↔ ∀ i ∈ is, i.IsSound := by
  simp only [firstFault, List.findSome?_eq_none_iff, Item.fault?_eq_none]

theorem firstFault_eq_some (is : List Item) (err : CompileError) :
    firstFault is = some err ↔ ∃ before i after, is = before ++ i :: after ∧
      (∀ j ∈ before, j.IsSound) ∧ i.Faults err := by
  simp only [firstFault, List.findSome?_eq_some_iff, Item.fault?_eq_none, Item.fault?_eq_some]
  simp only [and_comm]

namespace Draft

theorem failure?_addText (raw : String) (parent : Parent) (d : Draft) :
    failure? (d.addText raw parent) = Item.fault? (.content raw) := by
  rw [addText, Item.fault?]
  cases Segment.readAll (tidy raw) <;> rfl

theorem failure?_addAttribute (tag : String) (svg : Bool) (s : Slot) (a : Attribute) (d : Draft) :
    failure? (d.addAttribute tag svg s a) = Item.fault? (.content a.value) := by
  rw [addAttribute, Item.fault?]
  cases Segment.readAll (tidy a.value) <;> rfl

theorem failure?_addAttributes (tag : String) (svg : Bool) (s : Slot) (as : List Attribute)
    (d : Draft) :
    failure? (d.addAttributes tag svg s as) = firstFault (as.map fun a => .content a.value) := by
  induction as generalizing d with
  | nil => rfl
  | cons a as ih =>
    rw [addAttributes, List.map_cons, firstFault_cons, ← failure?_addAttribute tag svg s a d]
    cases d.addAttribute tag svg s a with
    | error e => rfl
    | ok d' => exact ih d'

theorem failure?_addElement (tag : String) (svg : Bool) (as : List Attribute) (parent : Parent)
    (d : Draft) :
    failure? (d.addElement tag svg as parent) = firstFault (as.map fun a => .content a.value) := by
  rw [addElement, ← failure?_addAttributes tag svg d.next as (d.plant (.element d.next tag svg))]
  cases (d.plant (.element d.next tag svg)).addAttributes tag svg d.next as <;> rfl

end Draft

/-! ## Builders -/

namespace Builder

variable {a b : Builder} {is js : List Item}

/-- Whatever it starts from, the builder fails for the first fault of the items, and for
nothing else. -/
structure Judges (b : Builder) (is : List Item) : Prop where
  names : b.Names
  failure?_eq : ∀ parent svg d w, failure? (b parent svg d w).1 = firstFault is

theorem judges_nothing : Judges nothing [] := ⟨names_nothing, fun _ _ _ _ => rfl⟩

theorem Judges.andThen (ha : Judges a is) (hb : Judges b js) : Judges (andThen a b) (is ++ js) where
  names := ha.names.andThen hb.names
  failure?_eq parent svg d w := by
    rw [firstFault_append, ← ha.failure?_eq parent svg d w, Builder.andThen]
    generalize a parent svg d w = r
    obtain ⟨err | d', w'⟩ := r
    · rfl
    · exact hb.failure?_eq parent svg d' w'

theorem judges_text (raw : String) : Judges (text raw) [.content raw] where
  names := names_text raw
  failure?_eq parent svg d w := by
    rw [firstFault_cons, firstFault, List.findSome?_nil, Option.or_none]
    exact Draft.failure?_addText raw parent d

theorem Judges.element (hb : Judges b is) (tag : String) (as : List Attribute) :
    Judges (element tag as b) (as.map (fun a => .content a.value) ++ is) where
  names := hb.names.element tag as
  failure?_eq parent inSvg d w := by
    rw [firstFault_append, ← Draft.failure?_addElement tag
      (inSvg || Vocabulary.isSvgTag tag) as parent d, Builder.element]
    cases d.addElement tag (inSvg || Vocabulary.isSvgTag tag) as parent with
    | error err => rfl
    | ok d' => exact hb.failure?_eq _ _ d' w

/-- Under a free name a template is registered unless the builder fails. -/
theorem Judges.register (hb : Judges b is) {name : String} (svg : Bool) {w : Workshop}
    (hfree : name ∉ w.catalog.names) : failure? (register name svg b w).1 = firstFault is := by
  have hfailure := hb.failure?_eq .root svg {} { w with catalog := w.catalog.reserve name }
  obtain ⟨_, _, _, ⟨err, hr, _, heq⟩ | ⟨d, hr, _, heq⟩⟩ := register_cases hb.names svg hfree
  · rw [hr] at hfailure
    rw [heq, ← hfailure]
    rfl
  · rw [hr] at hfailure
    rw [heq, ← hfailure]
    rfl

theorem Judges.nest (hb : Judges b is) (tag : String) (dir : Directive) (value : String) :
    Judges (nest tag dir value b) (.directive dir value :: is) where
  names := hb.names.nest tag dir value
  failure?_eq parent svg d w := by
    rw [firstFault_cons, Item.fault?]
    unfold Builder.nest
    cases Path.ofDirective value with
    | error err => rfl
    | ok path =>
      dsimp only
      have hfree := not_mem_names_freshName w.catalog dir
      generalize w.catalog.freshName dir = fresh at hfree ⊢
      obtain ⟨name, cat⟩ := fresh
      have hregister := hb.register svg
        (w := { w with catalog := cat }.tell (.spawned dir value tag name)) hfree
      dsimp only
      generalize Builder.register name svg b ({ w with catalog := cat }.tell _) = r at hregister ⊢
      obtain ⟨err | ⟨⟩, w'⟩ := r <;> exact hregister

/-- What is kept when builders are put together, along with the items that they read. -/
structure Itemwise (P : Builder → List Item → Prop) : Prop where
  nothing : P .nothing []
  andThen : ∀ {a b is js}, P a is → P b js → P (.andThen a b) (is ++ js)
  text : ∀ raw, P (.text raw) [.content raw]
  element : ∀ {b is} tag as, P b is →
    P (.element tag as b) (as.map (fun a => .content a.value) ++ is)
  nest : ∀ {b is} tag dir value, P b is → P (.nest tag dir value b) (.directive dir value :: is)

theorem itemwise_judges : Itemwise Judges where
  nothing := judges_nothing
  andThen := Judges.andThen
  text := judges_text
  element tag as h := h.element tag as
  nest tag dir value h := h.nest tag dir value

theorem andThen_nothing (a : Builder) : andThen a nothing = a := by
  funext parent svg d w
  unfold andThen nothing
  split <;> (rename_i h; exact h.symm)

namespace Itemwise

variable {P : Builder → List Item → Prop}

theorem foldr_nest (h : Itemwise P) (hb : P b is) (tag : String) (ds : List (Directive × String)) :
    P (ds.foldr (fun x b => Builder.nest tag x.1 x.2 b) b)
      (ds.map (fun x => .directive x.1 x.2) ++ is) := by
  induction ds with
  | nil => exact hb
  | cons x ds ih =>
    rw [List.foldr_cons, List.map_cons, List.cons_append]
    exact h.nest tag x.1 x.2 ih

theorem ofNode_element (h : Itemwise P) {cs : List Node}
    (hcs : P (ofChildren cs) (Node.itemsAll cs)) (tag : String) (as : List Attribute) :
    P (ofNode (.element tag as cs)) (Node.items (.element tag as cs)) := by
  rw [ofNode, Node.items]
  exact h.foldr_nest (h.element tag (plain as) hcs) tag (directives as)

/-- Nodes that tokens make up are built side by side. -/
theorem ofChildren_balanced (h : Itemwise P) {ts : List Token} {ns : List Node}
    (hb : Balanced ts ns) : P (ofChildren ns) (Node.itemsAll ns) := by
  induction hb with
  | nil => exact h.nothing
  | @text s ts ns _ ih =>
    have htext : P (ofNode (.text s)) (Node.items (.text s)) := by
      rw [ofNode, Node.items]
      exact h.text s
    rw [ofChildren, Node.itemsAll]
    exact h.andThen htext ih
  | @childless tag as ts ns _ ih =>
    rw [ofChildren, Node.itemsAll]
    have hnone : P (ofChildren []) (Node.itemsAll []) := h.nothing
    exact h.andThen (h.ofNode_element hnone tag as) ih
  | @element tag as _ ts cs ns _ _ ihc ih =>
    rw [ofChildren, Node.itemsAll]
    exact h.andThen (h.ofNode_element ihc tag as) ih

/-- What is kept holds for every tree that was read. -/
theorem ofNode_read (h : Itemwise P) {source : String} {tree : Node}
    (hread : Markup.read source = .ok tree) : P (ofNode tree) tree.items := by
  unfold Markup.read at hread
  split at hread
  · cases hread
  · rename_i ts _
    rcases Node.ofTokens_cases ts with ⟨ns, r, hns, hvisible, helement, hok⟩ | ⟨err, herr, _⟩
    · rw [hok] at hread
      cases hread
      obtain ⟨_, root, _, _, _, _, hroot⟩ := Node.visible_eq_singleton hns hvisible
      have hone := h.ofChildren_balanced hroot
      rw [ofChildren, ofChildren, andThen_nothing] at hone
      rw [ofNode, ofFirstElement?, if_pos helement, Node.items]
      exact hone
    · rw [herr] at hread
      cases hread

end Itemwise

theorem judges_of_read {source : String} {tree : Node} (h : Markup.read source = .ok tree) :
    Judges (ofNode tree) tree.items := itemwise_judges.ofNode_read h

end Builder

/-! ## Compiling -/

namespace Workshop

theorem failure?_compile (tree : Node) (name : String) (w : Workshop) :
    failure? (w.compile tree name).1 =
      failure? (Builder.register name false (Builder.ofNode tree) w).1 := by
  unfold compile
  generalize Builder.register name false (Builder.ofNode tree) w = r
  obtain ⟨err | ⟨⟩, w'⟩ := r <;> rfl

/-- A free name is registered exactly when compiling succeeds. -/
theorem mem_names_compile (tree : Node) {name : String} {w : Workshop}
    (hname : name ∉ w.catalog.names) :
    name ∈ (w.compile tree name).2.catalog.names ↔ (w.compile tree name).1 = .ok () := by
  rcases compile_cases tree name w with ⟨hm, _⟩ | ⟨_, c, ts, xs, hr, hcases⟩
  · exact absurd hm hname
  · rcases hcases with ⟨err, heq, _, hcat⟩ | ⟨d, _, heq, hcat⟩ <;> rw [heq, hcat]
    · have hnot : name ∉ c.names := by
        have : c.names = w.catalog.names ++ ts.map (·.name) := hr.names_eq
        rw [this, List.mem_append, not_or]
        exact ⟨hname, hr.not_mem_of_reserve⟩
      exact ⟨fun hm => absurd hm hnot, fun h => by cases h⟩
    · refine ⟨fun _ => rfl, fun _ => ?_⟩
      simp [Catalog.names, Catalog.add, Draft.finish]

/-- Under a name that is not registered a tree that was read is compiled exactly when all its
items are sound; the error is that of the first item which is not; and the name is registered
in the first case only. -/
theorem compile_verdict {source : String} {tree : Node} (hread : Markup.read source = .ok tree)
    (w : Workshop) {name : String} (hname : name ∉ w.catalog.names) :
    ((w.compile tree name).1 = .ok () ↔ ∀ i ∈ tree.items, i.IsSound) ∧
      (∀ err, (w.compile tree name).1 = .error err ↔ ∃ before i after,
        tree.items = before ++ i :: after ∧ (∀ j ∈ before, j.IsSound) ∧ i.Faults err) ∧
      (name ∈ (w.compile tree name).2.catalog.names ↔ (w.compile tree name).1 = .ok ()) := by
  have hfailure : failure? (w.compile tree name).1 = firstFault tree.items := by
    rw [failure?_compile]
    exact (Builder.judges_of_read hread).register false hname
  refine ⟨?_, fun err => ?_, mem_names_compile tree hname⟩
  · rw [← firstFault_eq_none, ← hfailure, failure?_eq_none]
    exact ⟨fun h => ⟨(), h⟩, fun ⟨_, h⟩ => h⟩
  · rw [← firstFault_eq_some, ← hfailure, failure?_eq_some]

/-- Braces with nothing between them for a directive, before three references that are no
paths, after one that is and another directive. -/
theorem compile_verdict_list :
    let source := "<ul title=\"\x7b\x7bname\x7d\x7d\">" ++
      "<li for=\"items\" class=\"\x7b\x7b..\x7d\x7d\" if=\"\x7b\x7b\x7d\x7d\">" ++
      "\x7b\x7ba b\x7d\x7d</li>\x7b\x7b0\x7d\x7d</ul>"
    let w := compileAll [(treeOf "<p if=\"a\"/>", "for1")] {}
    Markup.read source = .ok (treeOf source) ∧ w.catalog.names = ["if0", "for1"] ∧
      (treeOf source).items = [.content "\x7b\x7bname\x7d\x7d", .directive .forEach "items",
        .directive .onTruthy "\x7b\x7b\x7d\x7d", .content "\x7b\x7b..\x7d\x7d",
        .content "\x7b\x7ba b\x7d\x7d", .content "\x7b\x7b0\x7d\x7d"] ∧
      (w.compile (treeOf source) "list").1 =
        .error (.invalidDirective .onTruthy "\x7b\x7b\x7d\x7d") ∧
      "list" ∉ (w.compile (treeOf source) "list").2.catalog.names := by
  intro source w
  have hread : Markup.read source = .ok (treeOf source) := read_eq_treeOf (by decide +kernel)
  have hnames : w.catalog.names = ["if0", "for1"] := by decide +kernel
  have hitems : (treeOf source).items =
      [.content "\x7b\x7bname\x7d\x7d", .directive .forEach "items"] ++
        .directive .onTruthy "\x7b\x7b\x7d\x7d" :: [.content "\x7b\x7b..\x7d\x7d",
          .content "\x7b\x7ba b\x7d\x7d", .content "\x7b\x7b0\x7d\x7d"] := by
    decide +kernel
  have hsound : ∀ j ∈ [.content "\x7b\x7bname\x7d\x7d", .directive .forEach "items"],
      Item.IsSound j :=
    (firstFault_eq_none _).mp (by decide +kernel)
  have hfault : Item.Faults (.directive .onTruthy "\x7b\x7b\x7d\x7d") _ :=
    (Item.fault?_eq_some _ (.invalidDirective .onTruthy "\x7b\x7b\x7d\x7d")).mp (by decide +kernel)
  have hfree : "list" ∉ w.catalog.names := by
    rw [hnames]
    decide
  obtain ⟨_, herror, hregistered⟩ := compile_verdict hread w hfree
  have herr := (herror _).mpr ⟨_, _, _, hitems, hsound, hfault⟩
  refine ⟨hread, hnames, hitems, herr, fun hm => ?_⟩
  rw [hregistered, herr] at hm
  cases hm

end Workshop
end Stencil

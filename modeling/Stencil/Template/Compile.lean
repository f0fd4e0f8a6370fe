import Stencil.Event
import Stencil.Markup.Node
import Stencil.Template.Catalog
import Stencil.Template.Vocabulary

/-! Compiling markup trees. A draft grows into a template while the nodes of a tree
are built in order, each before its children. An element with a directive becomes
a template of its own, and leaves an anchor in the draft. When something is wrong
the draft is lost, and the catalog keeps the nested templates already finished,
the names begun and the count. -/
namespace Stencil
open Binding Markup

inductive CompileError where
  | invalidPath (e : InvalidPath)
  | invalidDirective (directive : Directive) (value : String)
  | duplicate (name : String)
  deriving DecidableEq, Repr

def CompileError.message : CompileError → String
  | .invalidPath e => e.message
  | .invalidDirective d value =>
    "Invalid value '" ++ value ++ "' for directive '" ++ d.word ++ "'"
  | .duplicate name => "Template '" ++ name ++ "' is already registered"

/-- A template in the making. -/
structure Draft where
  seeds : List Seed := []
  wires : List Wire := []
  index : Index Computation := {}
  groupCount : Nat := 0
  top : Option Slot := none

namespace Draft

/-- The slot of the next node. -/
def next (d : Draft) : Slot := d.seeds.length

def plant (s : Seed) (d : Draft) : Draft := { d with seeds := d.seeds ++ [s] }

def wire (w : Wire) (d : Draft) : Draft := { d with wires := d.wires ++ [w] }

/-- Appends a node; the first one at the root is the top. -/
def append (parent : Parent) (child : Slot) (d : Draft) : Draft :=
  { d with
    wires := d.wires ++ [.append parent child]
    top := if parent = .root ∧ d.top = none then some child else d.top }

def compute (ss : List Segment) (build : Interpolation → Computation) (d : Draft) : Draft :=
  { d with index := d.index.gather ss build }

/-- A text node begins with its literal text, and is computed when it refers to
data. -/
def addText (raw : String) (parent : Parent) (d : Draft) : Except CompileError Draft :=
  let text := tidy raw
  match Segment.readAll text with
  | .error e => .error (.invalidPath e)
  | .ok ss =>
    let slot := d.next
    let d := d.plant (.text slot (literalText text))
    let d := if ss.any Segment.isReference then d.compute ss (.setText slot) else d
    .ok (d.append parent slot)

/-- The namespace and the name under which an attribute is stored. -/
def attributeName (name : String) : Option String × String :=
  if name = Vocabulary.xlinkHref then (some Vocabulary.xlinkNamespace, "href") else (none, name)

/-- The computation for an attribute that refers to data. One that is nothing but
a variable goes away when the variable is false. -/
def attributeSetter (tag : String) (svg : Bool) (node : Slot) (name : String) (bare : Bool)
    (value : Interpolation) : Computation :=
  let setter :=
    if !svg && Vocabulary.isProperty tag name then Computation.setProperty node name value
    else .setAttribute node (attributeName name).1 (attributeName name).2 value
  match value.single? with
  | some v => if bare then .unlessFalse node name v setter else setter
  | none => setter

/-- An attribute begins with its literal text, unless it is made of references
alone, and is computed when it refers to data. -/
def addAttribute (tag : String) (svg : Bool) (node : Slot) (a : Attribute) (d : Draft) :
    Except CompileError Draft :=
  let text := tidy a.value
  match Segment.readAll text with
  | .error e => .error (.invalidPath e)
  | .ok ss =>
    let literal := literalText text
    let dynamic := ss.any Segment.isReference
    let d :=
      if literal ≠ "" ∨ !dynamic then
        d.wire (.attr node (attributeName a.name).1 (attributeName a.name).2 literal)
      else d
    .ok (if dynamic then
      d.compute ss (attributeSetter tag svg node a.name (literal == "")) else d)

def addAttributes (tag : String) (svg : Bool) (node : Slot) :
    List Attribute → Draft → Except CompileError Draft
  | [], d => .ok d
  | a :: as, d =>
    match d.addAttribute tag svg node a with
    | .error e => .error e
    | .ok d => d.addAttributes tag svg node as

/-- An element without its children. -/
def addElement (tag : String) (svg : Bool) (as : List Attribute) (parent : Parent) (d : Draft) :
    Except CompileError Draft :=
  let slot := d.next
  match (d.plant (.element slot tag svg)).addAttributes tag svg slot as with
  | .error e => .error e
  | .ok d => .ok (d.append parent slot)

/-- The anchor of a nested template, with the computation that renders it. -/
def addAnchor (directive : Directive) (template : String) (path : Path) (parent : Parent)
    (d : Draft) : Draft :=
  let slot := d.next
  let d := (d.plant (.anchor slot)).append parent slot
  let (v, index) := d.index.assign path
  { d with
    index := index.record (.reconcile directive template slot v d.groupCount) [path]
    groupCount := d.groupCount + 1 }

def finish (name : String) (d : Draft) : Template where
  name := name
  seeds := d.seeds
  wires := d.wires
  computations := d.index.computations
  routes := d.index.routes
  varCount := d.index.varCount
  groupCount := d.groupCount
  top := d.top

end Draft

/-- The catalog being filled, and what there is to tell about it. -/
structure Workshop where
  catalog : Catalog := {}
  log : List Event := []

def Workshop.tell (e : Event) (w : Workshop) : Workshop := { w with log := w.log ++ [e] }

/-- Builds part of a tree into a draft, at a parent inside or outside of vector
graphics. -/
abbrev Builder := Parent → Bool → Draft → Workshop → Except CompileError Draft × Workshop

namespace Builder

def nothing : Builder := fun _ _ d w => (.ok d, w)

def andThen (a b : Builder) : Builder := fun parent svg d w =>
  match a parent svg d w with
  | (.ok d, w) => b parent svg d w
  | (.error e, w) => (.error e, w)

def text (raw : String) : Builder := fun parent _ d w => (d.addText raw parent, w)

def element (tag : String) (as : List Attribute) (children : Builder) : Builder :=
  fun parent inSvg d w =>
    let svg := inSvg || Vocabulary.isSvgTag tag
    match d.addElement tag svg as parent with
    | .error e => (.error e, w)
    | .ok d' => children (.slot d.next) (svg && tag != Vocabulary.foreignObject) d' w

/-- Makes a template of what a builder builds, and adds it to the catalog. -/
def register (name : String) (svg : Bool) (b : Builder) (w : Workshop) :
    Except CompileError Unit × Workshop :=
  if w.catalog.contains name then (.error (.duplicate name), w)
  else
    match b .root svg {} { w with catalog := w.catalog.reserve name } with
    | (.error e, w) => (.error e, w)
    | (.ok d, w) =>
      let t := d.finish name
      let w := w.tell (.assembled name t.seeds.length t.computations.length)
      let catalog := w.catalog.free name
      if catalog.contains name then (.error (.duplicate name), { w with catalog := catalog })
      else (.ok (), { w with catalog := catalog.add t })

/-- Makes a nested template of what a builder builds, and anchors it. -/
def nest (tag : String) (directive : Directive) (value : String) (b : Builder) : Builder :=
  fun parent svg d w =>
    match Path.ofDirective value with
    | .error _ => (.error (.invalidDirective directive value), w)
    | .ok path =>
      let (name, catalog) := w.catalog.freshName directive
      match register name svg b
          ({ w with catalog := catalog }.tell (.spawned directive value tag name)) with
      | (.error e, w) => (.error e, w)
      | (.ok (), w) => (.ok (d.addAnchor directive name path parent), w)

/-- The directives among the attributes, in order. -/
def directives (as : List Attribute) : List (Directive × String) :=
  as.filterMap fun a => (Directive.ofWord? a.name).map (·, a.value)

/-- The attributes that are no directives, in order. -/
def plain (as : List Attribute) : List Attribute :=
  as.filter fun a => (Directive.ofWord? a.name).isNone

mutual

/-- Of a document only its first element counts, or its first child if it has no
element. The first directive of an element is the outermost one. -/
def ofNode : Node → Builder
  | .document cs => (ofFirstElement? cs).getD (ofHead cs)
  | .text raw => text raw
  | .element tag as cs =>
    (directives as).foldr (fun x b => nest tag x.1 x.2 b) (element tag (plain as) (ofChildren cs))

def ofChildren : List Node → Builder
  | [] => nothing
  | n :: ns => andThen (ofNode n) (ofChildren ns)

def ofFirstElement? : List Node → Option Builder
  | [] => none
  | n :: ns => if n.isElement then some (ofNode n) else ofFirstElement? ns

def ofHead : List Node → Builder
  | [] => nothing
  | n :: _ => ofNode n

end

end Builder

/-- Compiles a tree under a name, together with the nested templates it holds. -/
def Workshop.compile (tree : Node) (name : String) (w : Workshop) :
    Except CompileError Unit × Workshop :=
  match Builder.register name false (Builder.ofNode tree) w with
  | (.error e, w') => (.error e, w')
  | (.ok (), w') => (.ok (), w'.tell (.compiled name (w'.catalog.size - w.catalog.size)))

end Stencil

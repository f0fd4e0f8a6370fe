import Stencil.Json.Basic

/-! Documents: elements, texts and fragments, each known by the number under which
it was created. Parents and children are numbers too. An operation either gives
the changed document or says what forbids it. -/
namespace Stencil

abbrev NodeId := Nat

namespace Document

structure Attr where
  space : Option String
  name : String
  value : String
  deriving DecidableEq, Repr

/-- Properties belong to the element as an object and are not part of its markup. -/
structure Element where
  tag : String
  space : Option String := none
  attributes : List Attr := []
  properties : List (String × Json) := []
  deriving Repr

inductive Kind where
  | element (e : Element)
  | text (content : String)
  /-- A container without a parent: to insert it is to move its children. -/
  | fragment
  deriving Repr

structure Entry where
  kind : Kind
  parent : Option NodeId := none
  children : List NodeId := []
  deriving Repr

end Document

structure Document where
  entries : Array Document.Entry := #[]
  deriving Repr

inductive DocumentError where
  | unknown (node : NodeId)
  | notElement (node : NodeId)
  | notContainer (node : NodeId)
  | notChild (parent child : NodeId)
  | ownAncestor (parent child : NodeId)
  deriving DecidableEq, Repr

def DocumentError.message : DocumentError → String
  | .unknown n => "Unknown node #" ++ toString n
  | .notElement n => "Node #" ++ toString n ++ " is not an element"
  | .notContainer n => "Node #" ++ toString n ++ " cannot have children"
  | .notChild p c => "Node #" ++ toString c ++ " is not a child of #" ++ toString p
  | .ownAncestor p c =>
    "Inserting #" ++ toString c ++ " into #" ++ toString p ++
      " would make a node its own ancestor"

namespace Document

def size (d : Document) : Nat := d.entries.size

def get? (d : Document) (id : NodeId) : Option Entry := d.entries[id]?

def kind? (d : Document) (id : NodeId) : Option Kind := (d.get? id).map (·.kind)

def parent? (d : Document) (id : NodeId) : Option NodeId := (d.get? id).bind (·.parent)

def children (d : Document) (id : NodeId) : List NodeId :=
  ((d.get? id).map (·.children)).getD []

def element? (d : Document) (id : NodeId) : Option Element :=
  match d.kind? id with
  | some (.element e) => some e
  | _ => none

/-- Adds a node; its number is the size of the document before. -/
def create (k : Kind) (d : Document) : Document := ⟨d.entries.push ⟨k, none, []⟩⟩

/-- Changes the entry of one node. -/
def edit (id : NodeId) (f : Entry → Entry) (d : Document) : Document := ⟨d.entries.modify id f⟩

theorem get?_edit (d : Document) (id n : NodeId) (f : Entry → Entry) :
    (d.edit id f).get? n = if n = id then (d.get? n).map f else d.get? n := by
  simp only [get?, edit, Array.getElem?_modify]
  split <;> split <;> simp_all

theorem size_edit (d : Document) (id : NodeId) (f : Entry → Entry) :
    (d.edit id f).size = d.size := by
  simp [size, edit]

theorem size_create (d : Document) (k : Kind) : (d.create k).size = d.size + 1 := by
  simp [size, create]

/-- The node and its ancestors, from the inside out, as many as `steps`. -/
def climb (d : Document) : Nat → NodeId → List NodeId
  | 0, _ => []
  | steps + 1, id =>
    id :: match d.parent? id with
      | some p => d.climb steps p
      | none => []

/-- The node and all its ancestors: no chain is longer than the document. -/
def ancestors (d : Document) (id : NodeId) : List NodeId := d.climb (d.size + 1) id

def isContainer : Kind → Bool
  | .text _ => false
  | _ => true

/-- Takes a node out of its parent, if it has one. -/
def unlink (id : NodeId) (d : Document) : Document :=
  match d.parent? id with
  | none => d
  | some p =>
    (d.edit id fun e => { e with parent := none }).edit p
      fun e => { e with children := e.children.filter (· != id) }

/-- A list with others put before `mark`, or at its end. -/
def splice (moved : List NodeId) (mark : Option NodeId) (xs : List NodeId) : List NodeId :=
  match mark with
  | none => xs ++ moved
  | some r => xs.takeWhile (· != r) ++ moved ++ xs.dropWhile (· != r)

/-- Makes nodes without a parent children of `parent`. -/
def adopt (parent : NodeId) (moved : List NodeId) (mark : Option NodeId) (d : Document) :
    Document :=
  (moved.foldl (fun d n => d.edit n fun e => { e with parent := some parent }) d).edit parent
    fun e => { e with children := splice moved mark e.children }

/-- What forbids to insert `child` into `parent` before `mark`. -/
def obstacle? (d : Document) (parent child : NodeId) (mark : Option NodeId) :
    Option DocumentError :=
  if (d.get? child).isNone then some (.unknown child)
  else
    match d.kind? parent with
    | none => some (.unknown parent)
    | some k =>
      if !isContainer k then some (.notContainer parent)
      else
        match mark.filter (d.parent? · != some parent) with
        | some r => some (.notChild parent r)
        | none =>
          if (d.ancestors parent).contains child then some (.ownAncestor parent child) else none

/-- Inserts a node before one of the parent's children, or at the end. A fragment
gives its children and stays behind empty. -/
def insertBefore (parent child : NodeId) (mark : Option NodeId) (d : Document) :
    Except DocumentError Document :=
  match d.obstacle? parent child mark with
  | some e => .error e
  | none =>
    match d.kind? child with
    | some .fragment =>
      .ok ((d.edit child fun e => { e with children := [] }).adopt parent (d.children child) mark)
    | _ =>
      if mark = some child then .ok d
      else .ok ((d.unlink child).adopt parent [child] mark)

def append (parent child : NodeId) (d : Document) : Except DocumentError Document :=
  d.insertBefore parent child none

def removeChild (parent child : NodeId) (d : Document) : Except DocumentError Document :=
  if (d.get? child).isNone then .error (.unknown child)
  else if d.parent? child = some parent then .ok (d.unlink child)
  else .error (.notChild parent child)

def detach (id : NodeId) (d : Document) : Except DocumentError Document :=
  if (d.get? id).isNone then .error (.unknown id) else .ok (d.unlink id)

/-- Lets all children of a node go. -/
def clear (id : NodeId) (d : Document) : Document :=
  ((d.children id).foldl (fun d c => d.edit c fun e => { e with parent := none }) d).edit id
    fun e => { e with children := [] }

/-- Sets the content of a text; any other node gets a new text as its only child. -/
def setText (id : NodeId) (text : String) (d : Document) : Except DocumentError Document :=
  match d.kind? id with
  | none => .error (.unknown id)
  | some (.text _) => .ok (d.edit id fun e => { e with kind := .text text })
  | some _ =>
    let d := d.clear id
    (d.create (.text text)).append id d.size

/-- Changes an element; other nodes refuse. -/
def editElement (id : NodeId) (f : Element → Element) (d : Document) :
    Except DocumentError Document :=
  match d.kind? id with
  | none => .error (.unknown id)
  | some (.element el) => .ok (d.edit id fun e => { e with kind := .element (f el) })
  | some _ => .error (.notElement id)

def Attr.isNamed (space : Option String) (name : String) (a : Attr) : Bool :=
  a.space == space && a.name == name

/-- Gives the named attribute its value, where it stands or at the end. -/
def Attr.put (space : Option String) (name value : String) : List Attr → List Attr
  | [] => [⟨space, name, value⟩]
  | a :: as =>
    if a.isNamed space name then { a with value := value } :: as
    else a :: Attr.put space name value as

def setAttribute (id : NodeId) (space : Option String) (name value : String) (d : Document) :
    Except DocumentError Document :=
  d.editElement id fun e => { e with attributes := Attr.put space name value e.attributes }

def removeAttribute (id : NodeId) (space : Option String) (name : String) (d : Document) :
    Except DocumentError Document :=
  d.editElement id fun e =>
    { e with attributes := e.attributes.filter (!·.isNamed space name) }

/-- Gives the named property its value, where it stands or at the end. -/
def putProperty (name : String) (value : Json) : List (String × Json) → List (String × Json)
  | [] => [(name, value)]
  | p :: ps => if p.1 = name then (name, value) :: ps else p :: putProperty name value ps

def setProperty (id : NodeId) (name : String) (value : Json) (d : Document) :
    Except DocumentError Document :=
  d.editElement id fun e => { e with properties := putProperty name value e.properties }

def removeProperty (id : NodeId) (name : String) (d : Document) :
    Except DocumentError Document :=
  d.editElement id fun e => { e with properties := e.properties.filter (·.1 != name) }

def attribute? (d : Document) (id : NodeId) (space : Option String) (name : String) :
    Option String :=
  (d.element? id).bind fun e => (e.attributes.find? (·.isNamed space name)).map (·.value)

def property? (d : Document) (id : NodeId) (name : String) : Option Json :=
  (d.element? id).bind fun e => (e.properties.find? (·.1 == name)).map (·.2)

end Document
end Stencil

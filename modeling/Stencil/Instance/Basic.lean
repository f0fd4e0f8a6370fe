import Stencil.Document.Basic
import Stencil.Event

/-! Instances of templates, the scene in which they are rendered, and outcomes. An
operation that fails on its way keeps what it has done: its outcome holds the new
state and the new scene, together with the error. -/
namespace Stencil
open Binding

inductive Phase where
  | unmounted
  | mounted
  | detached
  deriving DecidableEq, Repr

/-- A use of a template: the nodes by slot, the values by variable, and the nested
instances by group. -/
structure Instance where
  template : Template
  phase : Phase
  /-- The fragment of the instance, once it is mounted. -/
  root : Option NodeId
  nodes : List NodeId
  values : List Json
  groups : List (List Instance)

namespace Instance

/-- Before the first update every variable is the empty string. -/
def new (t : Template) : Instance where
  template := t
  phase := .unmounted
  root := none
  nodes := []
  values := List.replicate t.varCount (.str "")
  groups := List.replicate t.groupCount []

/-- The first node that goes into the fragment, once it is created. -/
def top (i : Instance) : Option NodeId := i.template.top.bind fun s => i.nodes[s]?

end Instance

inductive RenderError where
  | document (e : DocumentError)
  | unknownTemplate (name : String)
  | detachedAnchor (name : String)
  | noSlot (template : String) (s : Slot)
  | noVar (template : String) (v : Var)
  | noGroup (template : String) (g : Group)
  | noComputation (template : String) (i : Nat)
  | tooDeep (template : String)
  deriving DecidableEq, Repr

def RenderError.message : RenderError → String
  | .document e => e.message
  | .unknownTemplate name => "Unknown template '" ++ name ++ "'"
  | .detachedAnchor name => "Anchor for template '" ++ name ++ "' is not attached to a parent"
  | .noSlot t s => "Template '" ++ t ++ "' has no node " ++ toString s
  | .noVar t v => "Template '" ++ t ++ "' has no variable " ++ toString v
  | .noGroup t g => "Template '" ++ t ++ "' has no group " ++ toString g
  | .noComputation t i => "Template '" ++ t ++ "' has no computation " ++ toString i
  | .tooDeep t => "Template '" ++ t ++ "' is nested too deep"

/-- Where instances live: the document, how many instances were made and given
back, and what there is to tell. -/
structure Scene where
  document : Document := {}
  created : Nat := 0
  released : Nat := 0
  log : List Event := []

namespace Scene

def tell (e : Event) (sc : Scene) : Scene := { sc with log := sc.log ++ [e] }

/-- Adds a node, whose number is the size of the document before. -/
def create (k : Document.Kind) (sc : Scene) : Scene :=
  { sc with document := sc.document.create k }

end Scene

structure Outcome (σ : Type) where
  state : σ
  scene : Scene
  error : Option RenderError

namespace Outcome

variable {σ α : Type}

def ok (s : σ) (sc : Scene) : Outcome σ := ⟨s, sc, none⟩

def fail (s : σ) (sc : Scene) (e : RenderError) : Outcome σ := ⟨s, sc, some e⟩

/-- Goes on unless something failed. -/
def andThen (o : Outcome σ) (next : σ → Scene → Outcome σ) : Outcome σ :=
  match o.error with
  | none => next o.state o.scene
  | some _ => o

/-- Does something for every element in order, up to the first failure. -/
def each (f : α → σ → Scene → Outcome σ) : List α → σ → Scene → Outcome σ
  | [], s, sc => ok s sc
  | a :: as, s, sc => (f a s sc).andThen (each f as)

/-- A change of the document alone. -/
def edit (f : Document → Except DocumentError Document) (s : σ) (sc : Scene) : Outcome σ :=
  match f sc.document with
  | .ok d => ok s { sc with document := d }
  | .error e => fail s sc (.document e)

end Outcome
end Stencil

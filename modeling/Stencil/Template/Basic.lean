import Stencil.Binding.Index

/-! Compiled templates: the nodes to create, how they are wired together, the
computations that keep them up to date, and the routes from data to these. -/
namespace Stencil
open Binding

/-- What governs how often a nested template is rendered. -/
inductive Directive where
  | onTruthy
  | forEach
  | onPresent
  deriving DecidableEq, Repr

namespace Directive

/-- The attribute name that stands for the directive. -/
def word : Directive → String
  | .onTruthy => "if"
  | .forEach => "for"
  | .onPresent => "when"

def ofWord? (name : String) : Option Directive :=
  if name = "if" then some .onTruthy
  else if name = "for" then some .forEach
  else if name = "when" then some .onPresent
  else none

theorem ofWord?_word (d : Directive) : ofWord? d.word = some d := by cases d <;> rfl

theorem word_of_ofWord? {name : String} {d : Directive} (h : ofWord? name = some d) :
    d.word = name := by
  unfold ofWord? at h
  repeat' split at h
  all_goals simp_all
  all_goals subst h; rfl

end Directive

/-- The place of a node in a template, in the order of creation. -/
abbrev Slot := Nat

/-- The place of a list of nested instances in an instance. -/
abbrev Group := Nat

/-- A node to create. -/
inductive Seed where
  | element (slot : Slot) (tag : String) (svg : Bool)
  | text (slot : Slot) (content : String)
  | anchor (slot : Slot)
  deriving DecidableEq, Repr

def Seed.slot : Seed → Slot
  | .element s _ _ => s
  | .text s _ => s
  | .anchor s => s

/-- Where a node goes: into the fragment of the instance, or into another node. -/
inductive Parent where
  | root
  | slot (s : Slot)
  deriving DecidableEq, Repr

/-- What is done once, after the nodes are created. -/
inductive Wire where
  | append (parent : Parent) (child : Slot)
  | attr (node : Slot) (space : Option String) (name value : String)
  deriving DecidableEq, Repr

/-- What is done when data changes. -/
inductive Computation where
  | setText (node : Slot) (value : Interpolation)
  | setProperty (node : Slot) (name : String) (value : Interpolation)
  | setAttribute (node : Slot) (space : Option String) (name : String) (value : Interpolation)
  /-- Takes the attribute away when the variable is false, else does the rest. -/
  | unlessFalse (node : Slot) (name : String) (var : Var) (setter : Computation)
  | reconcile (directive : Directive) (template : String) (anchor : Slot) (var : Var)
      (group : Group)
  deriving DecidableEq, Repr

structure Template where
  name : String
  seeds : List Seed
  wires : List Wire
  computations : List Computation
  routes : List Route
  varCount : Nat
  groupCount : Nat
  /-- The first node that goes into the fragment of the instance. -/
  top : Option Slot
  deriving DecidableEq, Repr

namespace Template

def route? (t : Template) (key : String) : Option Route := t.routes.find? (·.key == key)

/-- The slots that go into the fragment of the instance, in order. -/
def rootSlots (t : Template) : List Slot :=
  t.wires.filterMap fun
    | .append .root child => some child
    | _ => none

/-- The groups whose anchors go into the fragment of the instance: their instances
stand beside the template's own nodes and not within them. -/
def rootGroups (t : Template) : List Group :=
  t.computations.filterMap fun
    | .reconcile _ _ anchor _ group => if t.rootSlots.contains anchor then some group else none
    | _ => none

end Template
end Stencil

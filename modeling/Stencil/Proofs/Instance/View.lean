import Stencil.Instance.Update
import Stencil.Proofs.Document.Elements
import Stencil.Template.Compile

/-! What an instance shows, without the numbers of its nodes: the kinds of the nodes by
slot, the values by variable, and the views of nested instances by group. Views are
updated by functions that cannot fail; instances are shown to follow them elsewhere. -/
namespace Stencil
open Binding

structure View where
  template : Template
  kinds : List Document.Kind
  values : List Json
  groups : List (List View)

/-- The items for which a nested template is rendered. -/
def Directive.items : Directive → Json → List Json
  | .onTruthy, x => if x.isTruthy then [x] else []
  | .forEach, x => x.items?.getD []
  | .onPresent, x => if x.isPresent then [x] else []

/-- The literals and the texts of the values, one after the other. -/
def Binding.Interpolation.shown (values : List Json) : Interpolation → String
  | [] => ""
  | .literal s :: ps => s ++ shown values ps
  | .var v :: ps => (values[v]?.getD .null).shown ++ shown values ps

namespace Document

/-- The kind of a node that is there. -/
def kindOf (d : Document) (n : NodeId) : Kind := (d.kind? n).getD .fragment

end Document

namespace Instance

mutual

/-- What an instance shows in a document. -/
def view (d : Document) : Instance → View
  | ⟨t, _, _, nodes, values, groups⟩ => ⟨t, nodes.map d.kindOf, values, viewGroups d groups⟩

def viewGroups (d : Document) : List (List Instance) → List (List View)
  | [] => []
  | is :: gs => viewAll d is :: viewGroups d gs

def viewAll (d : Document) : List Instance → List View
  | [] => []
  | i :: is => view d i :: viewAll d is

end

theorem viewAll_eq (d : Document) (is : List Instance) : viewAll d is = is.map (view d) := by
  induction is with
  | nil => rfl
  | cons i is ih => rw [viewAll, ih, List.map_cons]

theorem viewGroups_eq (d : Document) (gs : List (List Instance)) :
    viewGroups d gs = gs.map (viewAll d) := by
  induction gs with
  | nil => rfl
  | cons is gs ih => rw [viewGroups, ih, List.map_cons]

theorem view_eq (d : Document) (i : Instance) :
    i.view d = ⟨i.template, i.nodes.map d.kindOf, i.values, viewGroups d i.groups⟩ := by
  cases i
  rw [view]

end Instance

namespace View

def onElement (s : Slot) (f : Document.Element → Document.Element) (v : View) : View :=
  { v with kinds := v.kinds.modify s (Document.Kind.onElement f) }

/-- What a wire does to the kinds of the nodes. -/
def wire (ks : List Document.Kind) : Wire → List Document.Kind
  | .append .. => ks
  | .attr s space name value =>
    ks.modify s (Document.Kind.onElement (.putAttribute (space, name) value))

/-- A mounted instance before its first update. -/
def new (t : Template) : View where
  template := t
  kinds := t.wires.foldl wire (t.seeds.map Seed.kind)
  values := List.replicate t.varCount (.str "")
  groups := List.replicate t.groupCount []

def value (v : View) (x : Var) : Json := v.values[x]?.getD .null

/-- A property takes a lone variable as it is, and text otherwise. -/
def propertyValue (v : View) (value : Interpolation) : Json :=
  match value.single? with
  | some x => v.value x
  | none => .str (value.shown v.values)

variable (c : Catalog) (upd : View → Json → View)

/-- One view for each item: those there are updated by place, the others are new. -/
def render (name : String) (items : List Json) (vs : List View) : List View :=
  vs.zipWith upd items ++
    match c.get? name with
    | some t => (items.drop vs.length).map (upd (new t))
    | none => []

def compute : Computation → View → View
  | .setText s value, v => { v with kinds := v.kinds.set s (.text (value.shown v.values)) }
  | .setProperty s name value, v => v.onElement s (.putProperty name (v.propertyValue value))
  | .setAttribute s space name value, v =>
    v.onElement s (.putAttribute (space, name) (value.shown v.values))
  | .unlessFalse s name x setter, v =>
    if (v.value x).isFalse then
      let v := v.onElement s (.dropAttribute (Draft.attributeName name))
      match setter with
      | .setProperty _ p _ => v.onElement s (.dropProperty p)
      | _ => v
    else compute setter v
  | .reconcile dir name _ x g, v =>
    { v with groups := v.groups.modify g (render c upd name (dir.items (v.value x))) }

/-- Variables take their values from the data at the route's path. -/
def bind (bs : List (Var × List String)) (data : Json) (v : View) : View :=
  { v with values := bs.foldl (fun xs b => xs.set b.1 (data.follow b.2)) v.values }

def runComputation (v : View) (k : Nat) : View :=
  match v.template.computations[k]? with
  | some x => v.compute c upd x
  | none => v

def follow (r : Route) (data : Json) (v : View) : View :=
  r.computations.foldl (runComputation c upd) (v.bind r.bindings data)

def takeField (v : View) (f : String × Json) : View :=
  match v.template.route? f.1 with
  | some r => v.follow c upd r f.2
  | none => v

def updateWith (v : View) (data : Json) : View :=
  match data with
  | .obj fields => fields.foldl (takeField c upd) v
  | _ => v

/-- Updates through at most `depth` levels of nesting. -/
def updateTo : Nat → View → Json → View
  | 0 => fun v _ => v
  | depth + 1 => updateWith c (updateTo depth)

end View
end Stencil

import Stencil.Instance.Mount
import Stencil.Instance.Removal

/-! Updates. Data reaches an instance field by field: each field goes along its
route, which gives variables new values and runs computations. A computation may
render nested instances; how these are updated is passed in as a function, so
that everything here is about one level of nesting. -/
namespace Stencil
open Binding

/-- How an instance takes new data. -/
abbrev Updater := Instance → Json → Scene → Outcome Instance

/-! ## Nested instances -/

namespace Children

variable (c : Catalog) (upd : Updater) (name : String)

/-- Gives back instances from the end until `n` are left. -/
def shrink (n : Nat) (is : List Instance) (sc : Scene) : List Instance × Scene :=
  (is.take n, (is.drop n).reverse.foldl (fun sc i => (i.release name sc).2) sc)

/-- Updates instances with the items at their places. -/
def updateEach : List Instance → List Json → Scene → Outcome (List Instance)
  | i :: is, v :: vs, sc =>
    let o := upd i v sc
    match o.error with
    | some e => .fail (o.state :: is) o.scene e
    | none =>
      let r := updateEach is vs o.scene
      ⟨o.state :: r.state, r.scene, r.error⟩
  | is, _, sc => .ok is sc

/-- A new instance, put into the document by its fragment and then updated. -/
def introduce (put : NodeId → Document → Except DocumentError Document) (v : Json) (sc : Scene) :
    Except RenderError Instance × Scene :=
  match c.instantiate name sc with
  | (.error e, sc) => (.error e, sc)
  | (.ok i, sc) =>
    let placed : Outcome Instance :=
      match i.root with
      | some r => .edit (put r) i sc
      | none => .ok i sc
    let o := placed.andThen fun i sc => upd i v sc
    match o.error with
    | some e => (.error e, o.scene)
    | none => (.ok o.state, o.scene)

/-- New instances for items, collected in the fragment `batch`. -/
def grow (batch : NodeId) : List Json → List Instance → Scene → Outcome (List Instance)
  | [], is, sc => .ok is sc
  | v :: vs, is, sc =>
    match introduce c upd name (fun r d => d.append batch r) v sc with
    | (.error e, sc) => .fail is sc e
    | (.ok i, sc) => grow batch vs (is ++ [i]) sc

/-- Brings instances to one for each item: surplus ones are given back, those
there are updated by place, and new ones are inserted together before the anchor. -/
def renderEach (anchor : NodeId) (items : List Json) (is : List Instance) (sc : Scene) :
    Outcome (List Instance) :=
  let sc := sc.tell (.reconciling name is.length items.length)
  let (kept, sc) := shrink name items.length is sc
  (updateEach upd kept items sc).andThen fun kept sc =>
    if items.length ≤ is.length then .ok kept sc
    else
      match sc.document.parent? anchor with
      | none => .fail kept sc (.detachedAnchor name)
      | some parent =>
        let batch := sc.document.size
        (grow c upd name batch (items.drop is.length) kept (sc.create .fragment)).andThen
          (.edit (·.insertBefore parent batch (some anchor)))

/-- One instance while the value is truthy. -/
def renderTruthy (anchor : NodeId) (v : Json) (is : List Instance) (sc : Scene) :
    Outcome (List Instance) :=
  renderEach c upd name anchor (if v.isTruthy then [v] else []) is sc

/-- One instance while the value is present. -/
def renderPresent (anchor : NodeId) (v : Json) (is : List Instance) (sc : Scene) :
    Outcome (List Instance) :=
  if v.isPresent then
    match is with
    | i :: is =>
      let o := upd i v sc
      ⟨o.state :: is, o.scene, o.error⟩
    | [] =>
      match sc.document.parent? anchor with
      | none => .fail [] sc (.detachedAnchor name)
      | some parent =>
        match introduce c upd name (fun r d => d.insertBefore parent r (some anchor)) v sc with
        | (.error e, sc) => .fail [] sc e
        | (.ok i, sc) => .ok [i] sc
  else
    match is.getLast? with
    | none => .ok is sc
    | some i => .ok is.dropLast (i.release name sc).2

/-- A value that is no sequence is reported and counts as empty. -/
def renderItems (anchor : NodeId) (v : Json) (is : List Instance) (sc : Scene) :
    Outcome (List Instance) :=
  match v.items? with
  | some items => renderEach c upd name anchor items is sc
  | none => renderEach c upd name anchor [] is (sc.tell (.notSequence name v))

def reconcile : Directive → NodeId → Json → List Instance → Scene → Outcome (List Instance)
  | .onTruthy => renderTruthy c upd name
  | .forEach => renderItems c upd name
  | .onPresent => renderPresent c upd name

end Children

/-! ## One instance -/

namespace Instance

/-- The text of an interpolation. -/
def text (i : Instance) : Interpolation → Except RenderError String
  | [] => .ok ""
  | .literal s :: ps =>
    match i.text ps with
    | .ok r => .ok (s ++ r)
    | .error e => .error e
  | .var v :: ps =>
    match i.values[v]? with
    | none => .error (.noVar i.template.name v)
    | some x =>
      match i.text ps with
      | .ok r => .ok (x.shown ++ r)
      | .error e => .error e

/-- A property takes a lone variable as it is, and text otherwise. -/
def propertyValue (i : Instance) (value : Interpolation) : Except RenderError Json :=
  match value.single? with
  | some v =>
    match i.values[v]? with
    | none => .error (.noVar i.template.name v)
    | some x => .ok x
  | none =>
    match i.text value with
    | .ok s => .ok (.str s)
    | .error e => .error e

/-- Takes an attribute away. -/
def dropAttribute (n : NodeId) (name : String) (d : Document) : Except DocumentError Document :=
  if name = Vocabulary.xlinkHref then d.removeAttribute n (some Vocabulary.xlinkNamespace) "href"
  else d.removeAttribute n none name

variable (c : Catalog) (upd : Updater)

def compute : Computation → Instance → Scene → Outcome Instance
  | .setText s value, i, sc =>
    i.onNode s sc fun n =>
      match i.text value with
      | .ok x => .edit (·.setText n x) i sc
      | .error e => .fail i sc e
  | .setProperty s name value, i, sc =>
    i.onNode s sc fun n =>
      match i.propertyValue value with
      | .ok x => .edit (·.setProperty n name x) i sc
      | .error e => .fail i sc e
  | .setAttribute s space name value, i, sc =>
    i.onNode s sc fun n =>
      match i.text value with
      | .ok x => .edit (·.setAttribute n space name x) i sc
      | .error e => .fail i sc e
  | .unlessFalse s name v setter, i, sc =>
    match i.values[v]? with
    | none => .fail i sc (.noVar i.template.name v)
    | some x =>
      if x.isFalse then
        i.onNode s sc fun n =>
          (Outcome.edit (dropAttribute n name) i sc).andThen fun i sc =>
            match setter with
            | .setProperty _ p _ => .edit (·.removeProperty n p) i sc
            | _ => .ok i sc
      else compute setter i sc
  | .reconcile d name s v g, i, sc =>
    i.onNode s sc fun anchor =>
      match i.values[v]?, i.groups[g]? with
      | some x, some is =>
        let o := Children.reconcile c upd name d anchor x is sc
        ⟨{ i with groups := i.groups.set g o.state }, o.scene, o.error⟩
      | none, _ => .fail i sc (.noVar i.template.name v)
      | _, none => .fail i sc (.noGroup i.template.name g)

/-- Gives a variable its value from the data at the route's path. -/
def bind (data : Json) (b : Var × List String) (i : Instance) (sc : Scene) : Outcome Instance :=
  if b.1 < i.values.length then .ok { i with values := i.values.set b.1 (data.follow b.2) } sc
  else .fail i sc (.noVar i.template.name b.1)

def runComputation (k : Nat) (i : Instance) (sc : Scene) : Outcome Instance :=
  match i.template.computations[k]? with
  | some x => compute c upd x i sc
  | none => .fail i sc (.noComputation i.template.name k)

/-- All variables are bound before the first computation runs. -/
def follow (r : Route) (data : Json) (i : Instance) (sc : Scene) : Outcome Instance :=
  (Outcome.each (bind data) r.bindings i sc).andThen
    (Outcome.each (runComputation c upd) r.computations)

def takeField (f : String × Json) (i : Instance) (sc : Scene) : Outcome Instance :=
  match i.template.route? f.1 with
  | some r => follow c upd r f.2 i sc
  | none => .ok i (sc.tell (.unusedKey f.1))

/-- Mounts the instance if need be, and takes the fields of an object in order. -/
def updateWith (i : Instance) (data : Json) (sc : Scene) : Outcome Instance :=
  (i.mount sc).andThen fun i sc =>
    match data with
    | .obj fields => Outcome.each (takeField c upd) fields i sc
    | _ => .ok i (sc.tell (.notObject i.template.name))

/-- Updates through at most `depth` levels of nesting. -/
def updateTo : Nat → Updater
  | 0 => fun i _ sc => .fail i sc (.tooDeep i.template.name)
  | depth + 1 => updateWith c (updateTo depth)

/-- A template is nested only in templates finished after it, so no instance has
more levels than the catalog has templates. -/
def update : Updater := updateTo c (c.size + 1)

end Instance

/-- A new instance of the named template, updated if there is data. -/
def Catalog.get (c : Catalog) (name : String) (data : Option Json) (sc : Scene) :
    Except RenderError Instance × Scene :=
  match c.instantiate name sc with
  | (.error e, sc) => (.error e, sc)
  | (.ok i, sc) =>
    match data with
    | none => (.ok i, sc)
    | some v =>
      let o := i.update c v sc
      match o.error with
      | some e => (.error e, o.scene)
      | none => (.ok o.state, o.scene)

end Stencil

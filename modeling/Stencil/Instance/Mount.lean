import Stencil.Instance.Basic
import Stencil.Template.Catalog
import Stencil.Template.Vocabulary

/-! Mounting: the nodes of an instance are created once and wired together. -/
namespace Stencil

/-- An anchor is an empty text. -/
def Seed.kind : Seed → Document.Kind
  | .element _ tag true => .element { tag := tag, space := some Vocabulary.svgNamespace }
  | .element _ tag false => .element { tag := tag }
  | .text _ content => .text content
  | .anchor _ => .text ""

namespace Instance

/-- Creates nodes in order, and gives their numbers. -/
def createNodes : List Seed → Scene → List NodeId × Scene
  | [], sc => ([], sc)
  | s :: ss, sc =>
    let (ids, sc') := createNodes ss (sc.create s.kind)
    (sc.document.size :: ids, sc')

/-- Does something with the node of a slot. -/
def onNode (s : Slot) (i : Instance) (sc : Scene) (f : NodeId → Outcome Instance) :
    Outcome Instance :=
  match i.nodes[s]? with
  | some n => f n
  | none => .fail i sc (.noSlot i.template.name s)

def runWire (root : NodeId) (w : Wire) (i : Instance) (sc : Scene) : Outcome Instance :=
  match w with
  | .append .root child => i.onNode child sc fun c => .edit (·.append root c) i sc
  | .append (.slot p) child =>
    i.onNode p sc fun p => i.onNode child sc fun c => .edit (·.append p c) i sc
  | .attr s space name value =>
    i.onNode s sc fun n => .edit (·.setAttribute n space name value) i sc

/-- Creates the fragment and the nodes, unless this is done already. When the
wiring fails the nodes are kept but the instance stays unmounted. -/
def mount (i : Instance) (sc : Scene) : Outcome Instance :=
  match i.root with
  | some _ => .ok i sc
  | none =>
    let root := sc.document.size
    let (nodes, sc) := createNodes i.template.seeds (sc.create .fragment)
    (Outcome.each (runWire root) i.template.wires { i with nodes := nodes } sc).andThen
      fun i sc => .ok { i with root := some root, phase := .mounted } sc

end Instance

/-- A new mounted instance of the named template. -/
def Catalog.instantiate (c : Catalog) (name : String) (sc : Scene) :
    Except RenderError Instance × Scene :=
  match c.get? name with
  | none => (.error (.unknownTemplate name), sc)
  | some t =>
    let o := (Instance.new t).mount sc
    match o.error with
    | some e => (.error e, o.scene)
    | none => (.ok o.state, { o.scene with created := o.scene.created + 1 })

end Stencil

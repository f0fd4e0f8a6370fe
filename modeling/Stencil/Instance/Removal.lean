import Stencil.Instance.Basic

/-! Removal: the nodes of an instance that stand in a foreign parent are taken out
of it, together with the nested instances that stand beside them. Nodes in the
fragment of the instance stay there. -/
namespace Stencil.Instance

/-- Takes the nodes of some slots out of their parents, except from `root`. -/
def takeOut (root : Option NodeId) (nodes : List NodeId) :
    List Slot → Phase → Document → Phase × Document
  | [], phase, d => (phase, d)
  | s :: ss, phase, d =>
    match nodes[s]? with
    | none => takeOut root nodes ss phase d
    | some n =>
      match d.parent? n with
      | none => takeOut root nodes ss phase d
      | some p =>
        if some p = root then takeOut root nodes ss phase d
        else takeOut root nodes ss .detached (d.unlink n)

mutual

def remove : Instance → Document → Instance × Document
  | ⟨t, phase, root, nodes, values, groups⟩, d =>
    let (groups, d) := removeGroups t.rootGroups 0 groups d
    let (phase, d) := takeOut root nodes t.rootSlots phase d
    (⟨t, phase, root, nodes, values, groups⟩, d)

/-- Removes the instances of the marked groups; `g` is the first group's place. -/
def removeGroups (marked : List Group) (g : Group) :
    List (List Instance) → Document → List (List Instance) × Document
  | [], d => ([], d)
  | is :: gs, d =>
    let (is, d) := if marked.contains g then removeAll is d else (is, d)
    let (gs, d) := removeGroups marked (g + 1) gs d
    (is :: gs, d)

def removeAll : List Instance → Document → List Instance × Document
  | [], d => ([], d)
  | i :: is, d =>
    let (i, d) := remove i d
    let (is, d) := removeAll is d
    (i :: is, d)

end

/-- Gives an instance back: it is removed and counted. -/
def release (name : String) (i : Instance) (sc : Scene) : Instance × Scene :=
  let sc := sc.tell (.releasing name)
  let (i, d) := i.remove sc.document
  (i, { sc with document := d, released := sc.released + 1 })

end Stencil.Instance

import Stencil.Proofs.Binding.Filling
import Stencil.Proofs.Document.Appearance

/-! Rendering markup without compiling it: what a tree looks like for given data, node by
node. A directive repeats what it stands at for each of its items, with the item as the
data, and leaves an empty text behind. -/
namespace Stencil
open Binding Document

namespace Markup

namespace Attribute

/-- The attribute is given to elements as a property. -/
def isDirect (tag : String) (svg : Bool) (a : Attribute) : Bool :=
  !svg && Vocabulary.isProperty tag a.name

/-- The value of an attribute, if there is one. It is computed when the data has a field
for it and it is no property, and is its literal text otherwise, if there is some. One
that is nothing but a reference goes away when the data is false. -/
def rendered (tag : String) (svg : Bool) (data : Json) (a : Attribute) : Option String :=
  let ss := segmentsOf a.value
  if !ss.any Segment.isReference then some (tidy a.value)
  else if a.isDirect tag svg || !Segment.isReached data ss then
    let literal := Segment.fill (fun _ => "") ss
    if literal = "" then none else some literal
  else
    match Segment.lone? ss with
    | some p => if (data.follow p.segments).isFalse then none else some (Segment.filled data ss)
    | none => some (Segment.filled data ss)

/-- The property that an attribute gives, if the data has a field for it: the data itself
when it is nothing but a reference, unless that is false, and text otherwise. -/
def property (tag : String) (svg : Bool) (data : Json) (a : Attribute) : Option Json :=
  let ss := segmentsOf a.value
  if a.isDirect tag svg && Segment.isReached data ss then
    match Segment.lone? ss with
    | some p => if (data.follow p.segments).isFalse then none else some (data.follow p.segments)
    | none => some (.str (Segment.filled data ss))
  else none

variable {tag : String} {svg : Bool} {data : Json} {a : Attribute}

theorem rendered_of_fixed (hb : (segmentsOf a.value).any Segment.isReference = false) :
    a.rendered tag svg data = some (tidy a.value) := by
  simp [rendered, hb]

theorem rendered_of_unset (hb : (segmentsOf a.value).any Segment.isReference = true)
    (h : a.isDirect tag svg = true ∨ Segment.isReached data (segmentsOf a.value) = false) :
    a.rendered tag svg data = if Segment.fill (fun _ => "") (segmentsOf a.value) = "" then none
      else some (Segment.fill (fun _ => "") (segmentsOf a.value)) := by
  rcases h with h | h <;> simp [rendered, hb, h]

theorem rendered_of_set (hdirect : a.isDirect tag svg = false)
    (hr : Segment.isReached data (segmentsOf a.value) = true) :
    a.rendered tag svg data =
      match Segment.lone? (segmentsOf a.value) with
      | some p =>
        if (data.follow p.segments).isFalse then none
        else some (Segment.filled data (segmentsOf a.value))
      | none => some (Segment.filled data (segmentsOf a.value)) := by
  simp only [rendered, Segment.any_of_isReached hr, hdirect, hr, Bool.not_true, Bool.false_eq_true,
    ite_false, Bool.or_self]

theorem property_of_unset
    (h : a.isDirect tag svg = false ∨ Segment.isReached data (segmentsOf a.value) = false) :
    a.property tag svg data = none := by
  rcases h with h | h <;> simp [property, h]

theorem property_of_set (hdirect : a.isDirect tag svg = true)
    (hr : Segment.isReached data (segmentsOf a.value) = true) :
    a.property tag svg data =
      match Segment.lone? (segmentsOf a.value) with
      | some p =>
        if (data.follow p.segments).isFalse then none else some (data.follow p.segments)
      | none => some (.str (Segment.filled data (segmentsOf a.value))) := by
  simp only [property, hdirect, hr, Bool.and_self, ite_true]

end Attribute

/-- The attributes by namespace and name. -/
def attributesFor (tag : String) (svg : Bool) (as : List Attribute) (data : Json)
    (key : Option String × String) : Option String :=
  (as.find? fun a => Draft.attributeName a.name == key).bind (·.rendered tag svg data)

def propertiesFor (tag : String) (svg : Bool) (as : List Attribute) (data : Json) (name : String) :
    Option Json :=
  (as.find? fun a => a.name == name).bind (·.property tag svg data)

/-- The path of a directive. -/
def directivePath (value : String) : List String :=
  match Path.ofDirective value with
  | .ok p => p.segments
  | .error _ => []

theorem directivePath_eq {value : String} {p : Path} (h : Path.ofDirective value = .ok p) :
    directivePath value = p.segments := by
  unfold directivePath
  cases hv : Path.ofDirective value with
  | ok q =>
    cases hv.symm.trans h
    exact Eq.refl _
  | error e => cases hv.symm.trans h

/-- What is rendered for each item, and the text that is left behind. -/
def renderItems (dir : Directive) (value : String) (inner : Json → List Appearance) (data : Json) :
    List Appearance :=
  (dir.items (data.follow (directivePath value))).flatMap inner ++ [.text ""]

namespace Node

mutual

/-- What a node looks like, inside or outside of vector graphics. Of a document it is its
first element, or its first child if it has no element. The first directive of an element
is the outermost one. -/
def render (svg : Bool) : Node → Json → List Appearance
  | .document cs => (renderFirstElement? svg cs).getD (renderHead svg cs)
  | .text raw => fun data => [.text (Segment.filled data (segmentsOf raw))]
  | .element tag as cs =>
    let inside := svg || Vocabulary.isSvgTag tag
    (Builder.directives as).foldr (fun x inner => renderItems x.1 x.2 inner) fun data =>
      [.element tag (if inside then some Vocabulary.svgNamespace else none)
        (attributesFor tag inside (Builder.plain as) data)
        (propertiesFor tag inside (Builder.plain as) data)
        (renderAll (inside && tag != Vocabulary.foreignObject) cs data)]

def renderAll (svg : Bool) : List Node → Json → List Appearance
  | [], _ => []
  | n :: ns, data => render svg n data ++ renderAll svg ns data

def renderFirstElement? (svg : Bool) : List Node → Option (Json → List Appearance)
  | [] => none
  | n :: ns => if n.isElement then some (render svg n) else renderFirstElement? svg ns

def renderHead (svg : Bool) : List Node → Json → List Appearance
  | [] => fun _ => []
  | n :: _ => render svg n

end

end Node
end Markup
end Stencil

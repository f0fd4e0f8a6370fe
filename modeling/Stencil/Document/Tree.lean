import Stencil.Document.Basic
import Stencil.Markup.Entity
import Stencil.Template.Vocabulary

/-! The part of a document below a node, as a tree by itself, with its markup and
its text. -/
namespace Stencil.Document
open Markup

inductive Tree where
  | element (e : Element) (children : List Tree)
  | text (content : String)
  | fragment (children : List Tree)

/-- The tree below a node, down to a depth. -/
def treeTo (d : Document) : Nat → NodeId → Option Tree
  | 0, _ => none
  | depth + 1, id =>
    (d.get? id).map fun e =>
      match e.kind with
      | .element el => .element el (e.children.filterMap (d.treeTo depth))
      | .text s => .text s
      | .fragment => .fragment (e.children.filterMap (d.treeTo depth))

/-- The tree below a node: no branch is longer than the document. -/
def tree? (d : Document) (id : NodeId) : Option Tree := d.treeTo (d.size + 1) id

/-- The name with the customary mark of the link namespace. -/
def Attr.qualifiedName (a : Attr) : String :=
  if a.space = some Vocabulary.xlinkNamespace then "xlink:" ++ a.name else a.name

def escape (p : Entity.Place) (s : String) : String := String.ofList (Entity.escape p s.toList)

def Attr.markup (a : Attr) : String :=
  " " ++ a.qualifiedName ++ "=\"" ++ escape .value a.value ++ "\""

namespace Tree

mutual

/-- The tree as markup; fragments show as their children. -/
def markup : Tree → String
  | .element e cs =>
    "<" ++ e.tag ++ String.join (e.attributes.map Attr.markup) ++ ">" ++ markups cs ++
      "</" ++ e.tag ++ ">"
  | .text s => escape .content s
  | .fragment cs => markups cs

def markups : List Tree → String
  | [] => ""
  | t :: ts => markup t ++ markups ts

end

mutual

/-- All text in order. -/
def content : Tree → String
  | .element _ cs => contents cs
  | .text s => s
  | .fragment cs => contents cs

def contents : List Tree → String
  | [] => ""
  | t :: ts => content t ++ contents ts

end

end Tree

/-- The markup of a node; an unknown node has none. -/
def outerMarkup (d : Document) (id : NodeId) : String := ((d.tree? id).map Tree.markup).getD ""

def textContent (d : Document) (id : NodeId) : String := ((d.tree? id).map Tree.content).getD ""

end Stencil.Document

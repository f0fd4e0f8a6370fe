import Stencil.Markup.Token
import Stencil.Markup.Token.Scan
import Stencil.Text.Blank

/-! Markup trees, and how they are built from tokens: a stack of open elements,
innermost first, and the nodes that stand beside each other at the top. -/
namespace Stencil.Markup

inductive Node where
  | document (children : List Node)
  | element (tag : String) (attributes : List Attribute) (children : List Node)
  | text (content : String)
  deriving Repr

def Node.isElement : Node → Bool
  | .element .. => true
  | _ => false

namespace Attribute

/-- The value of the first attribute called `name`. -/
def get? (name : String) (as : List Attribute) : Option String :=
  (as.find? (·.name == name)).map (·.value)

/-- The attributes without the first one called `name`. -/
def erase (name : String) (as : List Attribute) : List Attribute :=
  as.eraseP (·.name == name)

end Attribute

inductive TreeError where
  | unexpectedEnd (tag : String)
  | mismatchedEnd (expected found : String)
  | unclosed (tag : String)
  | noRoot
  | manyRoots
  deriving DecidableEq, Repr

def TreeError.message : TreeError → String
  | .unexpectedEnd tag => "Unexpected closing tag </" ++ tag ++ ">"
  | .mismatchedEnd expected found =>
    "Expected </" ++ expected ++ "> but found </" ++ found ++ ">"
  | .unclosed tag => "Unclosed element <" ++ tag ++ ">"
  | .noRoot => "Document has no root element"
  | .manyRoots => "Document has more than one root node"

inductive MarkupError where
  | token (e : TokenError)
  | tree (e : TreeError)
  deriving DecidableEq, Repr

def MarkupError.message : MarkupError → String
  | .token e => e.message
  | .tree e => e.message

/-- An element whose closing tag has not been seen. -/
structure OpenElement where
  tag : String
  attributes : List Attribute
  children : List Node := []

/-- A tree in the making: open elements, innermost first, and finished roots. -/
structure Growth where
  stack : List OpenElement := []
  roots : List Node := []

namespace Growth

/-- Adds a finished node to the innermost open element, or to the roots. -/
def add (n : Node) (g : Growth) : Growth :=
  match g.stack with
  | [] => { g with roots := g.roots ++ [n] }
  | e :: es => { g with stack := { e with children := e.children ++ [n] } :: es }

/-- Text outside of all elements counts only if it is not blank. -/
def step (g : Growth) : Token → Except TreeError Growth
  | .text s => .ok (if g.stack.isEmpty && Text.isBlankText s then g else g.add (.text s))
  | .opening tag as true => .ok (g.add (.element tag as []))
  | .opening tag as false => .ok { g with stack := ⟨tag, as, []⟩ :: g.stack }
  | .closing tag =>
    match g.stack with
    | [] => .error (.unexpectedEnd tag)
    | e :: es =>
      if e.tag = tag then
        .ok ({ g with stack := es }.add (.element e.tag e.attributes e.children))
      else .error (.mismatchedEnd e.tag tag)

/-- The document, once all tokens are read: everything is closed, and there is
one root, which is an element. -/
def finish (g : Growth) : Except TreeError Node :=
  match g.stack with
  | e :: _ => .error (.unclosed e.tag)
  | [] =>
    match g.roots with
    | [] => .error .noRoot
    | [.element tag as cs] => .ok (.document [.element tag as cs])
    | [_] => .error .noRoot
    | _ => .error .manyRoots

def steps (g : Growth) : List Token → Except TreeError Growth
  | [] => .ok g
  | t :: ts =>
    match g.step t with
    | .ok g' => g'.steps ts
    | .error e => .error e

end Growth

def Node.ofTokens (ts : List Token) : Except TreeError Node :=
  match ({} : Growth).steps ts with
  | .ok g => g.finish
  | .error e => .error e

/-- Reads a source text into a document with one root element. -/
def read (source : String) : Except MarkupError Node :=
  match Token.readAll source with
  | .error e => .error (.token e)
  | .ok ts =>
    match Node.ofTokens ts with
    | .error e => .error (.tree e)
    | .ok n => .ok n

end Stencil.Markup

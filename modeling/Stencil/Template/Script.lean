import Stencil.Template.Catalog
import Stencil.Template.Vocabulary
import Stencil.Text.Quoted

/-! Templates as JavaScript. A template becomes a function that takes the pool of
templates and returns an object with `dom`, `update` and `remove`. Nodes are
called `n` and a hexadecimal number, variables `v` and a number, groups `c` and a
number; all text of the user stands in string literals. -/
namespace Stencil.Script
open Binding Text

def node (s : Slot) : String := "n" ++ String.ofList (Nat.toDigits 16 s)

def var (v : Var) : String := "v" ++ toString v

def group (g : Group) : String := "c" ++ toString g

/-- The function of the browser library that a directive calls. -/
def call : Directive → String
  | .onTruthy => "renderChild"
  | .forEach => "renderChildren"
  | .onPresent => "renderWhen"

def args (sep : String) (as : List String) : String := "(" ++ sep.intercalate as ++ ")"

/-- Nodes, variables with the empty string, and groups with the empty list. -/
def declarations (t : Template) : String :=
  let all := t.seeds.map (fun s => node s.slot) ++
    (List.range t.varCount).map (fun v => var v ++ "=\"\"") ++
    (List.range t.groupCount).map (fun g => group g ++ "=[]")
  if all = [] then "" else "\tlet " ++ ", ".intercalate all ++ ";\n"

def seed : Seed → String
  | .element s tag true =>
    node s ++ "=document.createElementNS" ++
      args ", " [quote Vocabulary.svgNamespace, quote tag]
  | .element s tag false => node s ++ "=document.createElement" ++ args ", " [quote tag]
  | .text s content => node s ++ "=document.createTextNode" ++ args ", " [quote content]
  | .anchor s => node s ++ "=document.createTextNode" ++ args ", " [quote ""]

def wire : Wire → String
  | .append .root child => "root.appendChild" ++ args ", " [node child]
  | .append (.slot p) child => node p ++ ".appendChild" ++ args ", " [node child]
  | .attr n none name value => node n ++ ".setAttribute" ++ args ", " [quote name, quote value]
  | .attr n (some space) name value =>
    node n ++ ".setAttributeNS" ++ args ", " [quote space, quote name, quote value]

def part : Part → String
  | .literal s => quote s
  | .var v => "yate.text" ++ args "," [var v]

/-- The parts added up; the empty string when there is none. -/
def expression (i : Interpolation) : String :=
  if i = [] then quote "" else "+".intercalate (i.map part)

/-- A property takes a lone variable as it is. -/
def propertyValue (i : Interpolation) : String :=
  match i.single? with
  | some v => var v
  | none => expression i

def removal (n : Slot) (name : String) : String :=
  if name = Vocabulary.xlinkHref then
    node n ++ ".removeAttributeNS" ++ args "," [quote Vocabulary.xlinkNamespace, quote "href"]
  else node n ++ ".removeAttribute" ++ args "," [quote name]

/-- A property is cleared along with its attribute. -/
def clearing (n : Slot) : Computation → String
  | .setProperty _ name _ => "yate.clear" ++ args "," [node n, quote name] ++ ";"
  | _ => ""

def computation : Computation → String
  | .setText n value => node n ++ ".textContent=" ++ expression value
  | .setProperty n name value => node n ++ "." ++ name ++ "=" ++ propertyValue value
  | .setAttribute n none name value =>
    node n ++ ".setAttribute" ++ args "," [quote name, expression value]
  | .setAttribute n (some space) name value =>
    node n ++ ".setAttributeNS" ++ args "," [quote space, quote name, expression value]
  | .unlessFalse n name v setter =>
    "if (" ++ var v ++ "===false) \x7b" ++ removal n name ++ ";" ++ clearing n setter ++
      "return;\x7d" ++ computation setter
  | .reconcile d template anchor v g =>
    "yate." ++ call d ++ args "," [quote template, node anchor, var v, "pool", group g]

def binding (b : Var × List String) : String :=
  var b.1 ++ "=a" ++ String.join (b.2.map ("?." ++ ·))

def route (r : Route) : String :=
  let body := r.bindings.map binding ++ r.computations.map fun i => "f[" ++ toString i ++ "]()"
  "function(a)\x7b" ++ ";".intercalate body ++ ";\x7d"

/-- The entries of the table of computations. -/
def functions (cs : List Computation) : String :=
  ",\n".intercalate (cs.zipIdx.map fun c =>
    "\t\t" ++ toString c.2 ++ ":function()\x7b" ++ computation c.1 ++ "\x7d")

/-- The entries of the table of routes. -/
def updates (rs : List Route) : String :=
  ",\n".intercalate (rs.map fun r => "\t\t" ++ quote r.key ++ ":" ++ route r)

def creation (t : Template) : String :=
  "\n".intercalate ((t.seeds.map seed ++ t.wires.map wire).map fun l => "\t\t\t" ++ l ++ ";")

def removeChildren (g : Group) : String :=
  "\t\t" ++ group g ++ ".forEach((child) => child.remove());\n"

def removeNode (s : Slot) : String :=
  let n := node s
  "\t\tif (" ++ n ++ " && " ++ n ++ ".parentNode && " ++ n ++ ".parentNode !== root) \x7b\n" ++
    "\t\t\t" ++ n ++ ".parentNode.removeChild(" ++ n ++ ");\n\t\t\x7d\n"

/-- Nested instances beside the nodes of the template go first. -/
def removals (t : Template) : String :=
  String.join (t.rootGroups.map removeChildren ++ t.rootSlots.map removeNode)

end Script

/-- The function that makes instances of the template. -/
def Template.script (t : Template) : String :=
  "function(pool) \x7b\n" ++
  "\t'use strict';\n" ++
  Script.declarations t ++
  "\tconst f = \x7b\n" ++
  Script.functions t.computations ++ "\n" ++
  "\t\x7d;\n" ++
  "\tconst u = \x7b\n" ++
  Script.updates t.routes ++ "\n" ++
  "\t\x7d;\n" ++
  "\tconst root = document.createDocumentFragment();\n" ++
  "\tlet mounted = false;\n" ++
  "\n" ++
  "\tfunction createDom() \x7b\n" ++
  "\t\tif (!mounted) \x7b\n" ++
  "\t\t\tmounted = true;\n" ++
  Script.creation t ++ "\n" ++
  "\t\t\x7d\n" ++
  "\t\treturn root;\n" ++
  "\t\x7d\n" ++
  "\n" ++
  "\tfunction updateDom(a) \x7b\n" ++
  "\t\tcreateDom();\n" ++
  "\t\tif (a && typeof a === 'object') \x7b\n" ++
  "\t\t\tObject.entries(a).forEach(([key, value]) => \x7b\n" ++
  "\t\t\t\tif (u[key]) \x7b\n" ++
  "\t\t\t\t\tu[key](value);\n" ++
  "\t\t\t\t\x7d else \x7b\n" ++
  "\t\t\t\t\tconsole.warn(`Unused var: \x7b$\x7bkey\x7d\x7d`);\n" ++
  "\t\t\t\t\x7d\n" ++
  "\t\t\t\x7d);\n" ++
  "\t\t\x7d\n" ++
  "\t\x7d\n" ++
  "\n" ++
  "\tfunction removeDom() \x7b\n" ++
  Script.removals t ++
  "\t\x7d\n" ++
  "\n" ++
  "\treturn \x7b\n" ++
  "\t\tdom: createDom,\n" ++
  "\t\tupdate: updateDom,\n" ++
  "\t\tremove: removeDom\n" ++
  "\t\x7d;\n" ++
  "\x7d"

/-- How an artifact makes its templates known: as the exports of a module, or as
a pool in the browser window. -/
inductive Format where
  | exports
  | window
  deriving DecidableEq, Repr

/-- All templates as the fields of one object. -/
def Catalog.scriptFields (c : Catalog) : String :=
  ",".intercalate (c.templates.map fun t => Text.quote t.name ++ ":" ++ t.script)

def Catalog.artifact (c : Catalog) : Format → String
  | .exports =>
    "const yate = require(\"yate\");\nmodule.exports = \x7b" ++ c.scriptFields ++ "\x7d;\n"
  | .window =>
    "const templateList = \x7b" ++ c.scriptFields ++
      "\x7d;\nwindow.templates = yate.pool(templateList);\n"

end Stencil

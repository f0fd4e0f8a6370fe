import Stencil.Template.Basic

/-! Catalogs: compiled templates in the order in which they were finished, with
the names that are being worked on and the count that numbers nested templates. -/
namespace Stencil

structure Catalog where
  templates : List Template := []
  /-- The number for the next nested template. -/
  counter : Nat := 0
  /-- Names of templates whose compilation has begun. -/
  pending : List String := []
  deriving DecidableEq, Repr

namespace Catalog

def names (c : Catalog) : List String := c.templates.map (·.name)

def get? (c : Catalog) (name : String) : Option Template := c.templates.find? (·.name == name)

def contains (c : Catalog) (name : String) : Bool := c.names.contains name

def size (c : Catalog) : Nat := c.templates.length

/-- Names that a nested template may not take. -/
def taken (c : Catalog) : List String := c.names ++ c.pending

/-- The first number from `n` on whose name is not taken; among `tries + 1`
numbers one is free when no more than `tries` names are taken. -/
def freeNumber (word : String) (taken : List String) : Nat → Nat → Nat
  | 0, n => n
  | tries + 1, n =>
    if taken.contains (word ++ toString n) then freeNumber word taken tries (n + 1) else n

/-- A new name for a nested template: the directive's word and a number. -/
def freshName (c : Catalog) (d : Directive) : String × Catalog :=
  let n := freeNumber d.word c.taken c.taken.length c.counter
  (d.word ++ toString n, { c with counter := n + 1 })

def reserve (c : Catalog) (name : String) : Catalog := { c with pending := c.pending ++ [name] }

/-- Frees the name of a template whose compilation is over. -/
def free (c : Catalog) (name : String) : Catalog :=
  { c with pending := c.pending.filter (· != name) }

def add (c : Catalog) (t : Template) : Catalog := { c with templates := c.templates ++ [t] }

end Catalog
end Stencil

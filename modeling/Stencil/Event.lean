import Stencil.Json.Basic
import Stencil.Template.Basic

/-! What is worth telling while templates are compiled and rendered. -/
namespace Stencil

inductive Level where
  | warn
  | debug
  | trace
  deriving DecidableEq, Repr

inductive Event where
  /-- A directive on an element gave rise to a nested template. -/
  | spawned (directive : Directive) (value tag template : String)
  | assembled (template : String) (seeds computations : Nat)
  | compiled (template : String) (count : Nat)
  | fileCompiled (path template : String)
  | unusedKey (key : String)
  | notSequence (template : String) (value : Json)
  | notObject (template : String)
  | releasing (template : String)
  | reconciling (template : String) (old new : Nat)
  deriving Repr

namespace Event

def level : Event → Level
  | .spawned .. => .trace
  | .assembled .. => .trace
  | .compiled .. => .debug
  | .fileCompiled .. => .debug
  | .unusedKey .. => .warn
  | .notSequence .. => .warn
  | .notObject .. => .debug
  | .releasing .. => .debug
  | .reconciling .. => .trace

def message : Event → String
  | .spawned d value tag template =>
    d.word ++ "=\"" ++ value ++ "\" on <" ++ tag ++ "> spawns template " ++ template
  | .assembled template seeds computations =>
    "compiled template " ++ template ++ " (" ++ toString seeds ++ " nodes, " ++
      toString computations ++ " computations)"
  | .compiled template count =>
    "compiled " ++ template ++ " into " ++ toString count ++ " template(s)"
  | .fileCompiled path template => path ++ " -> " ++ template
  | .unusedKey key => "Unused var: \x7b" ++ key ++ "\x7d"
  | .notSequence template value =>
    "for over non-sequence value in " ++ template ++ ": " ++ value.compact
  | .notObject template => "ignoring non-object update of " ++ template
  | .releasing template => "releasing instance of " ++ template
  | .reconciling template old new =>
    "reconciling " ++ template ++ " (" ++ toString old ++ " -> " ++ toString new ++ ")"

end Event
end Stencil

import Stencil.Artifact.Source
import Stencil.Template.Script
import Stencil.Text.Blank

/-! Settings: a text of headings in square brackets, `key = value` lines under
them, and comments that begin with a hash. -/
namespace Stencil.Artifact
open Text

namespace Settings

/-- The truth value that a line gives to a key, its comment left aside. -/
def boolOn (key : String) (line : List Char) : Option Bool :=
  let text := trim (line.takeWhile (· != '#'))
  match text.dropWhile (· != '=') with
  | [] => none
  | _ :: value =>
    if trim (text.takeWhile (· != '=')) = key.toList then
      if trim value = "true".toList then some true
      else if trim value = "false".toList then some false
      else none
    else none

/-- The first truth value of a key under a heading; `inside` says whether the
lines at hand stand under it. -/
def boolIn (heading key : String) : Bool → List (List Char) → Option Bool
  | _, [] => none
  | inside, l :: ls =>
    match trim l with
    | [] => boolIn heading key inside ls
    | '#' :: _ => boolIn heading key inside ls
    | '[' :: r => boolIn heading key ('[' :: r == '[' :: heading.toList ++ [']']) ls
    | line =>
      if inside then
        match boolOn key line with
        | some b => some b
        | none => boolIn heading key inside ls
      else boolIn heading key inside ls

/-- The truth value of a key under a heading of a settings text. -/
def bool? (text heading key : String) : Option Bool :=
  boolIn heading key false (split '\n' text.toList)

end Settings

/-- What the artifact is to be. -/
structure Settings where
  /-- A module instead of a script for the browser window. -/
  asModule : Bool := false
  /-- The browser library comes first. -/
  withLibrary : Bool := false
  deriving DecidableEq, Repr

namespace Settings

def read (text : String) : Settings where
  asModule := (bool? text "build" "module").getD false
  withLibrary := (bool? text "build" "bundle").getD false

/-- A file that cannot be read leaves everything off. -/
def ofFile (reader : Reader) (path : String) : Settings :=
  match reader path with
  | .ok text => read text
  | .error _ => {}

/-- Flags can switch on what is off, and nothing else. -/
def switchOn (s : Settings) (asModule withLibrary : Bool) : Settings where
  asModule := s.asModule || asModule
  withLibrary := s.withLibrary || withLibrary

def format (s : Settings) : Format := if s.asModule then .exports else .window

end Settings
end Stencil.Artifact

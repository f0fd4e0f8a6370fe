import Stencil.Artifact.Source
import Stencil.Template.Compile
import Stencil.Template.Script

/-! Building: template files are compiled one after the other into one catalog. -/
namespace Stencil.Artifact
open Markup

inductive BuildError where
  | invalidName (path : String)
  | read (path : String) (e : ReadError)
  | markup (path : String) (e : MarkupError)
  | compile (path : String) (e : CompileError)
  deriving DecidableEq, Repr

namespace BuildError

/-- What lies behind the error. -/
def cause? : BuildError → Option String
  | .invalidName _ => none
  | .read _ e => some e.message
  | .markup _ e => some e.message
  | .compile _ e => some e.message

def message : BuildError → String
  | .invalidName path => "Cannot derive a template name from " ++ path
  | .read path e => "Failed to read " ++ path ++ ": " ++ e.message
  | .markup path e => "Markup error in " ++ path ++ ": " ++ e.message
  | .compile path e => "Compile error in " ++ path ++ ": " ++ e.message

end BuildError

def addFile (reader : Reader) (path : String) (w : Workshop) :
    Except BuildError Unit × Workshop :=
  match nameFor? path with
  | none => (.error (.invalidName path), w)
  | some name =>
    match reader path with
    | .error e => (.error (.read path e), w)
    | .ok source =>
      match Markup.read source with
      | .error e => (.error (.markup path e), w)
      | .ok tree =>
        match w.compile tree name with
        | (.error e, w) => (.error (.compile path e), w)
        | (.ok (), w) => (.ok (), w.tell (.fileCompiled path name))

/-- Compiles files in order, up to the first that fails. -/
def addFiles (reader : Reader) : List String → Workshop → Except BuildError Unit × Workshop
  | [], w => (.ok (), w)
  | path :: paths, w =>
    match addFile reader path w with
    | (.error e, w) => (.error e, w)
    | (.ok (), w) => addFiles reader paths w

/-- The artifact of some files. -/
def build (reader : Reader) (paths : List String) (format : Format) :
    Except BuildError String × Workshop :=
  match addFiles reader paths {} with
  | (.error e, w) => (.error e, w)
  | (.ok (), w) => (.ok (w.catalog.artifact format), w)

end Stencil.Artifact

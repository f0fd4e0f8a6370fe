import Stencil.Artifact.Command

/-! The program: reads the files that are named, prints the artifact, and tells
on the error stream what is wrong. -/
open Stencil Stencil.Artifact

def readError : IO.Error → ReadError
  | .noFileOrDirectory .. => .notFound
  | .inappropriateType _ code _ => if code = 21 then .isDirectory else .notDirectory
  | e => .other (toString e)

def readFile (path : String) : IO (Except ReadError String) := do
  try
    return decode (← IO.FS.readBinFile path)
  catch e => return .error (readError e)

def logLine (e : Event) : Option String :=
  match e.level with
  | .warn => some ("[WARN] " ++ e.message)
  | .debug => some ("[DEBUG] " ++ e.message)
  | .trace => none

def main (args : List String) : IO UInt32 := do
  let files ← (settingsPath :: args).mapM fun path => return (path, ← readFile path)
  let reader : Reader := fun path => (files.lookup path).getD (.error .notFound)
  let result := run reader args
  let verbose :=
    match Options.read args with
    | .ok o => o.verbose
    | .error _ => false
  if verbose then
    for line in result.log.filterMap logLine do
      IO.eprintln line
  IO.print result.output
  IO.eprint result.errors
  return result.code.toUInt32

import Stencil.Artifact.Build
import Stencil.Artifact.Library
import Stencil.Artifact.Settings
import Stencil.Text.Visible

/-! The command line: arguments, and what the program writes and returns. -/
namespace Stencil.Artifact
open Text

structure Options where
  files : List String := []
  asModule : Bool := false
  withLibrary : Bool := false
  verbose : Bool := false
  deriving DecidableEq, Repr

namespace Options

/-- Takes one occurrence of a flag out, by its short name if that is there. -/
def takeFlag (short long : String) (args : List String) : Bool × List String :=
  if args.contains short then (true, args.erase short)
  else if args.contains long then (true, args.erase long)
  else (false, args)

/-- A lone dash is a file. -/
def isFlag (arg : String) : Bool :=
  match arg.toList with
  | '-' :: _ :: _ => true
  | _ => false

/-- Whatever looks like a flag when the known ones are taken out is unknown. -/
def read (args : List String) : Except (List String) Options :=
  let (asModule, args) := takeFlag "-m" "--module" args
  let (withLibrary, args) := takeFlag "-b" "--bundle" args
  let (verbose, args) := takeFlag "-v" "--verbose" args
  match args.filter isFlag with
  | [] => .ok ⟨args, asModule, withLibrary, verbose⟩
  | unknown => .error unknown

end Options

def usage : String :=
  "Usage: yate file1.yat [...file2.yat] [options]\n" ++
  "       yate file1.yat -m\n" ++
  "Options:\n" ++
  "  -m, --module     build as module\n" ++
  "  -b, --bundle     prepend the yate runtime to the output\n" ++
  "  -v, --verbose    log compilation steps"

/-- The settings file, in the working directory. -/
def settingsPath : String := "yate.toml"

/-- What the program leaves behind. -/
structure Result where
  code : Nat
  output : String := ""
  errors : String := ""
  /-- What there is to tell, for those who want to see it. -/
  log : List Event := []

def red (s : String) : String := "\x1b[0;31m" ++ s ++ "\x1b[0m\n"

def yellow (s : String) : String := "\x1b[0;33m" ++ s ++ "\x1b[0m\n"

/-- The error with what lies behind it. -/
def report (count : Nat) (e : BuildError) : String :=
  "Error: building " ++ toString count ++ " template file(s): " ++ e.message ++
    (match e.cause? with
      | some c => ": " ++ c
      | none => "")

def runWith (reader : Reader) (o : Options) : Result :=
  if o.files = [] then
    { code := 1
      output := usage ++ "\n"
      errors := red "Error: No input files provided." ++
        yellow "Please provide at least one .yat file to process." }
  else
    let settings := (Settings.ofFile reader settingsPath).switchOn o.asModule o.withLibrary
    match build reader o.files settings.format with
    | (.error e, w) => { code := 1, errors := red (report o.files.length e), log := w.log }
    | (.ok built, w) =>
      { code := 0
        output := if settings.withLibrary then library ++ "\n" ++ built else built
        log := w.log }

def run (reader : Reader) (args : List String) : Result :=
  match Options.read args with
  | .error unknown => { code := 1, errors := red ("Unknown arguments: " ++ displayList unknown) }
  | .ok o => runWith reader o

end Stencil.Artifact

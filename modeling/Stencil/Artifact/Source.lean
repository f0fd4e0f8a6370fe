import Stencil.Text.Split

/-! Template files: how a path gives the template its name, what can go wrong when
a file is read, and folders of files held in memory. -/
namespace Stencil.Artifact
open Text

/-- The last part of a path. Parts that are empty or a single dot do not count,
and a path that leads upwards at its end has none. -/
def fileName? (path : String) : Option (List Char) :=
  match ((split '/' path.toList).filter fun p => p != [] && p != ['.']).getLast? with
  | some ['.', '.'] => none
  | p => p

/-- The file name up to its first dot. -/
def nameFor? (path : String) : Option String :=
  match fileName? path with
  | none => none
  | some p =>
    match p.takeWhile (· != '.') with
    | [] => none
    | name => some (String.ofList name)

inductive ReadError where
  | notFound
  | notDirectory
  | isDirectory
  | notText
  | other (text : String)
  deriving DecidableEq, Repr

def ReadError.message : ReadError → String
  | .notFound => "No such file or directory (os error 2)"
  | .notDirectory => "Not a directory (os error 20)"
  | .isDirectory => "Is a directory (os error 21)"
  | .notText => "stream did not contain valid UTF-8"
  | .other text => text

/-- How files are read: from a disk or from memory. -/
abbrev Reader := String → Except ReadError String

def decode (bytes : ByteArray) : Except ReadError String :=
  match String.fromUTF8? bytes with
  | some s => .ok s
  | none => .error .notText

/-- Files and directories below one directory; those on the way to a file are
there without being listed. -/
structure Folder where
  files : List (String × ByteArray)
  directories : List String

namespace Folder

inductive Spot where
  | file (bytes : ByteArray)
  | directory
  | missing

/-- The parts of a path that name something. -/
def parts (path : String) : List (List Char) :=
  (split '/' path.toList).filter fun p => p != [] && p != ['.']

/-- What is found at a place given by its parts. -/
def spot (f : Folder) (place : List (List Char)) : Spot :=
  match f.files.find? fun e => parts e.1 == place with
  | some e => .file e.2
  | none =>
    if place = [] || (f.files.map (·.1) ++ f.directories).any (place.isPrefixOf <| parts ·) then
      .directory
    else .missing

/-- Goes down a path part by part; one step up is taken back only inside. -/
def walk (f : Folder) : List (List Char) → List (List Char) → Except ReadError Spot
  | place, [] => .ok (f.spot place)
  | place, p :: ps =>
    match f.spot place with
    | .missing => .error .notFound
    | .file _ => .error .notDirectory
    | .directory =>
      if p = [] ∨ p = ['.'] then f.walk place ps
      else if p = ['.', '.'] then
        if place = [] then .error .notFound else f.walk place.dropLast ps
      else f.walk (place ++ [p]) ps

/-- Reads a file by a path relative to the folder. -/
def read (f : Folder) : Reader := fun path =>
  if path = "" ∨ path.toList.head? = some '/' then .error .notFound
  else
    match f.walk [] (split '/' path.toList) with
    | .error e => .error e
    | .ok (.file bytes) => decode bytes
    | .ok .directory => .error .isDirectory
    | .ok .missing => .error .notFound

end Folder
end Stencil.Artifact

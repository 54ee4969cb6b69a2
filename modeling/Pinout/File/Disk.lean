import Pinout.File.Path

/-!
# Pinout.File.Disk

A file tree, with the directory that relative paths start from. Reading and writing fail for the
reasons for which they fail on a disk; a failed write changes nothing.
-/

namespace Pinout
namespace File

/-- Why a file cannot be read or written; a machine may have reasons of its own. -/
inductive Fault where
  | notFound
  | notDirectory
  | isDirectory
  | notText
  | other (reason : Text)
  deriving DecidableEq, Repr

def Fault.message : Fault → Text
  | notFound => "No such file or directory (os error 2)".toList
  | notDirectory => "Not a directory (os error 20)".toList
  | isDirectory => "Is a directory (os error 21)".toList
  | notText => "stream did not contain valid UTF-8".toList
  | other reason => reason

/-- A file that holds text or something else, or a directory. -/
inductive Entry where
  | text (t : Text)
  | binary
  | directory
  deriving DecidableEq, Repr

/-- Entries are kept under the names on the way from the root, the innermost first. -/
structure Disk where
  entries : List (List Text × Entry)
  workingDirectory : List Text
  deriving Repr

namespace Disk

def lookup? (key : List Text) : List (List Text × Entry) → Option Entry
  | [] => none
  | (k, e) :: rest => if k = key then some e else lookup? key rest

/-- The entry under a key; the root is a directory. -/
def entry? (d : Disk) (key : List Text) : Option Entry :=
  if key = [] then some .directory else lookup? key d.entries

/-- Where a path leads: to an entry, or to the place of an entry that does not exist. -/
inductive Place where
  | found (key : List Text) (e : Entry)
  | free (key : List Text)
  deriving Repr

/-- Walks from a directory along the pieces of a path. Only the last piece may lead to something
that is no directory, or to nothing. -/
def walk (d : Disk) (key : List Text) : List Text → Except Fault Place
  | [] => .ok (.found key .directory)
  | piece :: rest =>
    if piece = [] ∨ piece = ['.'] then walk d key rest
    else if piece = ['.', '.'] then walk d key.tail rest
    else
      match d.entry? (piece :: key), rest with
      | some .directory, rest => walk d (piece :: key) rest
      | some e, [] => .ok (.found (piece :: key) e)
      | some _, _ :: _ => .error .notDirectory
      | none, [] => .ok (.free (piece :: key))
      | none, rest => if rest.all (· = []) then .error .isDirectory else .error .notFound

/-- Where a path leads from the working directory. -/
def place (d : Disk) (path : Path) : Except Fault Place :=
  match path with
  | [] => .error .notFound
  | '/' :: _ => walk d [] (Path.pieces path)
  | _ => walk d d.workingDirectory (Path.pieces path)

def read (d : Disk) (path : Path) : Except Fault Text :=
  match d.place path with
  | .ok (.found _ (.text t)) => .ok t
  | .ok (.found _ .binary) => .error .notText
  | .ok (.found _ .directory) => .error .isDirectory
  | .ok (.free _) => .error .notFound
  | .error .isDirectory => .error .notFound
  | .error fault => .error fault

/-- Whether a path leads to a file. -/
def isFile (d : Disk) (path : Path) : Bool :=
  match d.place path with
  | .ok (.found _ e) => e != .directory
  | _ => false

def setEntry (key : List Text) (e : Entry) :
    List (List Text × Entry) → List (List Text × Entry)
  | [] => [(key, e)]
  | (k, old) :: rest => if k = key then (key, e) :: rest else (k, old) :: setEntry key e rest

/-- The disk with a text in a file, which is created if need be. -/
def write (d : Disk) (path : Path) (t : Text) : Except Fault Disk :=
  match d.place path with
  | .ok (.found _ .directory) => .error .isDirectory
  | .ok (.found key _) => .ok { d with entries := setEntry key (.text t) d.entries }
  | .ok (.free key) => .ok { d with entries := setEntry key (.text t) d.entries }
  | .error fault => .error fault

end Disk
end File
end Pinout

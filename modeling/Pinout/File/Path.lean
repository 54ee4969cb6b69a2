import Pinout.Text.Basic

/-!
# Pinout.File.Path

Paths of files: names separated by slashes. A path that starts with a slash is absolute.
-/

namespace Pinout
namespace File

abbrev Path := Text

namespace Path

/-- A path from within a directory; an absolute path stands for itself. -/
def join (directory path : Path) : Path :=
  match path with
  | '/' :: _ => path
  | _ =>
    if directory = [] ∨ directory.getLast? = some '/' then directory ++ path
    else directory ++ '/' :: path

/-- The pieces of a path between slashes; a piece may be empty. -/
def pieces : Path → List Text
  | [] => [[]]
  | c :: t =>
    if c = '/' then [] :: pieces t
    else
      match pieces t with
      | [] => [[c]]
      | piece :: rest => (c :: piece) :: rest

/-- A path, written backwards, without the slashes at its end and the names `.` behind a slash. -/
def dropTrailing : Text → Text
  | '/' :: t => dropTrailing t
  | '.' :: '/' :: t => dropTrailing ('/' :: t)
  | t => t

/-- A file name without its last point and what follows it; a point in front begins no ending. -/
def stem (name : Text) : Text :=
  match name.reverse.dropWhile (· ≠ '.') with
  | _ :: c :: t => (c :: t).reverse
  | _ => name

/-- The path with another ending of its file name; a path without a file name stays as it is. -/
def withExtension (extension : Text) (path : Path) : Path :=
  let backwards := dropTrailing path.reverse
  let name := (backwards.takeWhile (· ≠ '/')).reverse
  if name = [] ∨ name = ['.'] ∨ name = ['.', '.'] then path
  else (backwards.drop name.length).reverse ++ stem name ++ '.' :: extension

end Path
end File
end Pinout

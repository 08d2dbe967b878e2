-- Unix paths as `std::path` reads them. Two paths are equal when their
-- components are, so a path is its list of components here.
import Ecode.Text

namespace Ecode

/-- `std::path::Component`, without the Windows prefixes. -/
inductive Component where
  | RootDir
  | CurDir
  | ParentDir
  | Normal (name : Text)
  deriving DecidableEq, Repr

/-- `PathBuf`: equality and hashing go by components, as in Rust. -/
abbrev Path := List Component

instance : LawfulBEq Path := inferInstance

namespace Path

/-- The components of one piece between slashes. An empty piece and a `.` have none. -/
def piece (t : Text) : Path :=
  if t = [] ∨ t = ".".toList then []
  else if t = "..".toList then [.ParentDir]
  else [.Normal t]

/-- `PathBuf::from`: a `.` counts only as the first component of a relative path. -/
def of_text (t : Text) : Path :=
  match Text.split '/' t with
  | [] => []
  | first :: rest =>
    if first = [] ∧ t ≠ [] then .RootDir :: rest.flatMap piece
    else if first = ".".toList then .CurDir :: rest.flatMap piece
    else (first :: rest).flatMap piece

def is_absolute (p : Path) : Bool := p.head? == some .RootDir

/-- `Path::join`: an absolute path takes the place of the base. -/
def join (base p : Path) : Path :=
  match base, p with
  | _, .RootDir :: _ => p
  | [], _ => p
  | _, .CurDir :: rest => base ++ rest
  | _, _ => base ++ p

/-- `Path::parent`: none for a root and for the empty path. -/
def parent (p : Path) : Option Path :=
  match p.getLast? with
  | none | some .RootDir => none
  | some _ => some p.dropLast

/-- `PathBuf::pop`. -/
def pop (p : Path) : Path := (parent p).getD p

/-- `PathBuf::push` of one component. -/
def push (p : Path) : Component → Path
  | .RootDir => [.RootDir]
  | c => join p [c]

/-- `Path::starts_with`, by whole components. -/
def starts_with (p base : Path) : Bool := base.isPrefixOf p

/-- `Path::file_name`. -/
def file_name (p : Path) : Option Text :=
  match p.getLast? with
  | some (.Normal name) => some name
  | _ => none

/-- `Path::file_stem`: the name up to its last dot, or all of it when that dot comes first. -/
def file_stem (p : Path) : Option Text :=
  (file_name p).map fun name =>
    match (name.reverse.dropWhile (· ≠ '.')).reverse.dropLast with
    | [] => name
    | stem => stem

/-- `Path::display`. -/
def display (p : Path) : Text :=
  let name : Component → Text
    | .RootDir => []
    | .CurDir => ".".toList
    | .ParentDir => "..".toList
    | .Normal t => t
  if p = [.RootDir] then "/".toList else Text.join "/".toList (p.map name)

/-- The example path `/w/a`, with its parent and a name below it. -/
example : of_text "/w/./a/".toList = [.RootDir, .Normal "w".toList, .Normal "a".toList] ∧
    join (of_text "/w".toList) (of_text "./a".toList) = of_text "/w/a".toList ∧
    parent (of_text "a".toList) = some [] ∧
    file_stem (of_text "/bin/bash.exe".toList) = some "bash".toList := by decide

end Path

end Ecode

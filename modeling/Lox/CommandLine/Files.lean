import Lox.Text.Quoted

/-! # Files

A tree of files and directories with a working directory in it. A path leads through directories,
from the root if it starts with a slash and from the working directory otherwise; `walk` follows
its names one by one. What a path asks for is refused with the first error on the way.
-/

namespace Lox

inductive FileError
  | notFound
  | present
  | notDirectory
  | isDirectory
  | nameTooLong
  /-- The path holds a NUL, so it cannot be asked for at all. -/
  | embeddedNul
  deriving DecidableEq

namespace FileError

def number? : FileError → Option Nat
  | notFound => some 2
  | present => some 17
  | notDirectory => some 20
  | isDirectory => some 21
  | nameTooLong => some 36
  | embeddedNul => none

def reason : FileError → String
  | notFound => "No such file or directory"
  | present => "File exists"
  | notDirectory => "Not a directory"
  | isDirectory => "Is a directory"
  | nameTooLong => "File name too long"
  | embeddedNul => "embedded null byte"

def message (e : FileError) (path : String) : String :=
  match e.number? with
  | none => e.reason
  | some n => "[Errno " ++ toString n ++ "] " ++ e.reason ++ ": " ++ Text.quoted path

end FileError

inductive Entry
  | file (content : ByteArray)
  /-- Takes all that is written to it and holds nothing. -/
  | sink
  | directory

/-- A place in the tree: the names that lead to it from the root. -/
abbrev Location := List String

structure Files where
  /-- What is there. A directory is there also if something in it is. -/
  entries : List (Location × Entry)
  workingDirectory : Location

/-- A path, cut at its slashes. -/
structure Path where
  absolute : Bool
  /-- The names between the slashes; a dot stays, and two dots lead upwards. -/
  names : List String
  endsInSlash : Bool

namespace Path

def nameLimit : Nat := 255

def limit : Nat := 4095

def ofString (path : String) : Path :=
  ⟨path.startsWith "/", (path.splitOn "/").filter (· ≠ ""), path.toList.getLast? == some '/'⟩

def parse (path : String) : Except FileError Path :=
  if path.toList.contains '\x00' then .error .embeddedNul
  else if path = "" then .error .notFound
  else if limit < path.utf8ByteSize then .error .nameTooLong
  else .ok (ofString path)

/-- A path cut at its last slash. The slashes at the end of the first part are dropped, unless it
has nothing else. -/
def cutLast (path : List Char) : List Char × List Char :=
  let name := (path.reverse.takeWhile (· != '/')).reverse
  let above := path.reverse.dropWhile (· != '/')
  let trimmed := above.dropWhile (· == '/')
  ((if trimmed = [] then above else trimmed).reverse, name)

theorem length_cutLast_lt {path : List Char} (h : (cutLast path).2 ≠ []) :
    (cutLast path).1.length < path.length := by
  have hp : 0 < (path.reverse.takeWhile (· != '/')).length := by
    simpa [cutLast, List.length_pos_iff] using h
  have hs : (path.reverse.takeWhile (· != '/')).length
      + (path.reverse.dropWhile (· != '/')).length = path.length := by
    rw [← List.length_append, List.takeWhile_append_dropWhile, List.length_reverse]
  have ht : ((path.reverse.dropWhile (· != '/')).dropWhile (· == '/')).length
      ≤ (path.reverse.dropWhile (· != '/')).length :=
    (List.dropWhile_suffix _).length_le
  simp only [cutLast]
  split <;> simp only [List.length_reverse] <;> omega

end Path

namespace Files

def find? (fs : Files) (place : Location) : Option Entry :=
  match fs.entries.lookup place with
  | some e => some e
  | none =>
    if place = [] ∨ fs.entries.any (fun e => place.isPrefixOf e.1) then some .directory else none

def isDirectoryAt (fs : Files) (place : Location) : Bool :=
  match fs.find? place with
  | some .directory => true
  | _ => false

def put (fs : Files) (place : Location) (e : Entry) : Files :=
  { fs with entries := (place, e) :: fs.entries.filter (·.1 != place) }

def child (place : Location) (name : String) : Except FileError Location :=
  if Path.nameLimit < name.utf8ByteSize then .error .nameTooLong else .ok (place ++ [name])

/-- Where a name leads from a place. -/
def step (fs : Files) (place : Location) (name : String) : Except FileError Location := do
  if !fs.isDirectoryAt place then throw .notDirectory
  if name = "." then return place
  else if name = ".." then return place.dropLast
  else
    let next ← child place name
    if (fs.find? next).isSome then return next else throw .notFound

def start (fs : Files) (p : Path) : Location := if p.absolute then [] else fs.workingDirectory

def walk (fs : Files) (place : Location) (names : List String) : Except FileError Location :=
  names.foldlM fs.step place

/-- Where a path leads. One that ends in a slash leads to a directory. -/
def resolve (fs : Files) (path : String) : Except FileError Location := do
  let p ← Path.parse path
  let place ← fs.walk (fs.start p) p.names
  if p.endsInSlash && !fs.isDirectoryAt place then throw .notDirectory
  return place

/-- Where a path leads except for its last name, and that name. A last name of dots, or none, is a
directory that is there, which is refused with `ifDots`. -/
def resolveLast (fs : Files) (p : Path) (ifDots : FileError) :
    Except FileError (Location × String) := do
  let place ← fs.walk (fs.start p) p.names.dropLast
  if !fs.isDirectoryAt place then throw .notDirectory
  match p.names.getLast? with
  | none => throw ifDots
  | some name => if name = "." ∨ name = ".." then throw ifDots else return (place, name)

def pathExists (fs : Files) (path : String) : Bool := (fs.resolve path).toBool

def isDirectory (fs : Files) (path : String) : Bool :=
  match fs.resolve path with
  | .ok place => fs.isDirectoryAt place
  | .error _ => false

def read (fs : Files) (path : String) : Except FileError ByteArray := do
  match fs.find? (← fs.resolve path) with
  | some (.file content) => return content
  | some .sink => return .empty
  | some .directory => throw .isDirectory
  | none => throw .notFound

/-- Write a file, a new one or over an old one. A path that ends in a slash is taken for that of a
directory, whatever is there. -/
def write (fs : Files) (path : String) (text : String) : Except FileError Files := do
  let p ← Path.parse path
  let (above, name) ← fs.resolveLast p .isDirectory
  if p.endsInSlash then throw .isDirectory
  let place ← child above name
  match fs.find? place with
  | some .directory => throw .isDirectory
  | some .sink => return fs
  | some (.file _) | none => return fs.put place (.file text.toUTF8)

def createDirectory (fs : Files) (path : String) : Except FileError Files := do
  let (above, name) ← fs.resolveLast (← Path.parse path) .present
  let place ← child above name
  if (fs.find? place).isSome then throw .present else return fs.put place .directory

/-- What is left of an attempt, and the error that ended it, if any, with the path it is at. -/
structure Attempt where
  files : Files
  error : Option (FileError × String)

/-- Make a directory, unless it is there already. -/
def ensureDirectory (fs : Files) (path : String) : Attempt :=
  match fs.createDirectory path with
  | .ok fs => ⟨fs, none⟩
  | .error e => ⟨fs, if fs.isDirectory path then none else some (e, path)⟩

/-- Make a directory with all those that lead to it, the outer ones first. Those made before an
error remain. That an outer one is there already is no error of its own: if it is no directory, the
next step in it fails. -/
def makeDirectories (fs : Files) (path : List Char) : Attempt :=
  if _h : (Path.cutLast path).2 ≠ [] ∧ (Path.cutLast path).1 ≠ []
      ∧ !fs.pathExists (String.ofList (Path.cutLast path).1) then
    let above := fs.makeDirectories (Path.cutLast path).1
    if above.error.any (·.1 ≠ .present) then above
    else if (Path.cutLast path).2 = ['.'] then ⟨above.files, none⟩
    else above.files.ensureDirectory (String.ofList path)
  else fs.ensureDirectory (String.ofList path)
termination_by path.length
decreasing_by exact Path.length_cutLast_lt _h.1

def makeParents (fs : Files) (path : String) : Attempt :=
  let above := (Path.cutLast path.toList).1
  if above = [] then ⟨fs, none⟩ else fs.makeDirectories above

/-- A tree with nothing in its working directory, and a sink at `/dev/null`. -/
def fresh : Files :=
  ⟨[(["dev", "null"], .sink), (["tmp", "work"], .directory)], ["tmp", "work"]⟩

/-- Put an entry at a path from the working directory, where no name is made of dots. -/
def place (fs : Files) (path : String) (e : Entry) : Files :=
  fs.put (fs.workingDirectory ++ (Path.ofString path).names) e

/-- The files in the working directory and below it, by their paths from there. -/
def listing (fs : Files) : List (String × ByteArray) :=
  fs.entries.filterMap fun (place, e) =>
    match e with
    | .file content =>
      if fs.workingDirectory.isPrefixOf place then
        some (String.intercalate "/" (place.drop fs.workingDirectory.length), content)
      else none
    | _ => none

end Files
end Lox

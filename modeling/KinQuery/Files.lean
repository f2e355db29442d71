import KinQuery.Dictionary
import KinQuery.Evaluation.Query
import KinQuery.Family.Record
import KinQuery.Text.Blank

/-! A folder of text files, as far as the program looks at files: whether there is one at a
path, what it holds, and whether one could be written there.

A path is followed step by step from the working folder, or from the root if it begins with a
slash. Every step but the last has to lead to a folder. An empty step, as after a slash at the
end, and a dot stay where they are, which has to be a folder, too. -/
namespace KinQuery

/-- Where a path leads: the names of folders and at last of a file, from the working folder
down. A place above the working folder begins with `..`, one below the root with `/`. -/
abbrev Place := List String

namespace Place

/-- The folder that a place is in; the root is in itself. -/
def above : Place → Place
  | [] => [".."]
  | ["/"] => ["/"]
  | place => if place.getLast? = some ".." then place ++ [".."] else place.dropLast

/-- Where a step leads. -/
def enter (place : Place) : String → Place
  | "" => place
  | "." => place
  | ".." => place.above
  | name => place ++ [name]

/-- Where a path begins. -/
def origin (path : String) : Place :=
  if path.toList.head? = some '/' then ["/"] else []

/-- The steps of a path. -/
def steps (path : String) : List String :=
  (Text.splitOn '/' path.toList).map .ofList

/-- Where a path leads if all its steps can be taken. -/
def ofPath (path : String) : Place :=
  (steps path).foldl enter (origin path)

/-- The steps of a path without the empty ones at its end, which a slash there makes. -/
def namedSteps (path : String) : List String :=
  ((steps path).reverse.dropWhile (·.isEmpty)).reverse

/-- The most bytes that a name may have. -/
def nameLimit : Nat := 255

/-- The first number of bytes that a path may not have. -/
def pathLimit : Nat := 4096

end Place

/-- Text files by their places. -/
structure Folder where
  files : List (Place × String) := []
  /-- Folders that are there even if no file is known in them. -/
  folders : List Place := []

namespace Folder

/-- A folder of files by their paths; of two with one path the later counts. -/
def ofList (files : List (String × String)) : Folder :=
  ⟨(files.map fun (path, text) => (Place.ofPath path, text)).reverse, []⟩

def isFolder (f : Folder) (place : Place) : Bool :=
  place.all (· = "..") || place = ["/"] || f.folders.contains place || f.files.any fun file =>
    place.isPrefixOf file.1 && place.length < file.1.length

/-- Takes one step of a path. -/
def enter (f : Folder) (place : Place) (step : String) : Except StorageFault Place :=
  if (f.files.lookup place).isSome then .error .parentNotDirectory
  else if !f.isFolder place then .error .absent
  else if Place.nameLimit < step.utf8ByteSize then .error .nameTooLong
  else .ok (place.enter step)

/-- Takes steps of a path, all but the first from folders. -/
def follow (f : Folder) (path : String) (steps : List String) : Except StorageFault Place :=
  if path.toList.contains '\x00' then .error .nullInName
  else if path.isEmpty then .error .absent
  else if Place.pathLimit ≤ path.utf8ByteSize then .error .nameTooLong
  else steps.foldlM f.enter (Place.origin path)

/-- What there is at a path. -/
inductive Sight where
  | text (text : String)
  | folder
  | nothing (fault : StorageFault)
  deriving DecidableEq

def look (f : Folder) (path : String) : Sight :=
  match f.follow path (Place.steps path) with
  | .error fault => .nothing fault
  | .ok place =>
    match f.files.lookup place with
    | some text => .text text
    | none => if f.isFolder place then .folder else .nothing .absent

/-- The text of a file that has to be there. -/
def read (f : Folder) (path : String) : Except Failure String :=
  match f.look path with
  | .text text => .ok text
  | .folder => .error (.storage .isDirectory)
  | .nothing fault => .error (.storage fault)

def has (f : Folder) (path : String) : Bool :=
  match f.look path with
  | .nothing _ => false
  | _ => true

/-- Puts a text at a path. -/
def write (f : Folder) (path text : String) : Folder :=
  { f with files := (Place.ofPath path, text) :: f.files }

/-- What hinders writing a file at a path. A slash at the end asks for a folder. -/
def obstacle? (f : Folder) (path : String) : Option StorageFault :=
  match f.follow path (Place.namedSteps path) with
  | .error fault => some fault
  | .ok place =>
    if f.isFolder place || Place.namedSteps path ≠ Place.steps path then some .isDirectory
    else none

/-- The dictionary kept at a path; there may be no file yet. -/
def openDictionary (f : Folder) (path : String) : Except Failure Dictionary :=
  match f.look path with
  | .text text => Dictionary.load { text := some text, obstacle := f.obstacle? path }
  | .folder => .error (.storage .isDirectory)
  | .nothing _ => Dictionary.load { text := none, obstacle := f.obstacle? path }

/-- The folder with the file of a dictionary as it is now. -/
def writeBack (f : Folder) (path : String) (d : Dictionary) : Folder :=
  match d.file.bind (·.text) with
  | some text => f.write path text
  | none => f

/-- The genealogy recorded at a path. -/
def openGenealogy (f : Folder) (path : String) : Except Failure Genealogy :=
  (f.read path).bind Genealogy.read

/-- Runs the script at a path. -/
def execFile (f : Folder) (depth : Nat) (path : String) (s : Session) :
    Except Halt Nat × Session :=
  match f.read path with
  | .ok script => s.execScript depth script
  | .error failure => (.error (.failed failure), s)

end Folder
end KinQuery

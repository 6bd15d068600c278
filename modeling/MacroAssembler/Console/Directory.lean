import MacroAssembler.Console.Script

/-!
# Directories

A directory that is held as a value, in which a script can be carried out. It has no directories
in it; above it there are directories of which nothing else is known. A path is walked one name at
a time, and the first name that cannot be followed decides the fault.
-/

namespace MacroAssembler.Console

/-- Why a file cannot be read or written. -/
inductive FileFault where
  | notFound
  | notDirectory
  | isDirectory
  | nameTooLong
  deriving DecidableEq

namespace FileFault

/-- All of them. -/
def all : List FileFault := [notFound, notDirectory, isDirectory, nameTooLong]

/-- The number that the operating system has for a fault. -/
def number : FileFault → Nat
  | notFound => 2
  | notDirectory => 20
  | isDirectory => 21
  | nameTooLong => 36

/-- What is wrong, without the number. -/
def words : FileFault → String
  | notFound => "No such file or directory"
  | notDirectory => "Not a directory"
  | isDirectory => "Is a directory"
  | nameTooLong => "File name too long"

/-- The reason in words, with its number. -/
def message (f : FileFault) : String := f.words ++ " (os error " ++ toString f.number ++ ")"

end FileFault

/-- The names between the slashes of a path. -/
def pathNames (path : String) : List String := (path.splitOn "/").filter (· ≠ "")

/-- The name of the file without its last ending; there is none if the path names no file. -/
def fileStem? (path : String) : Option String :=
  match ((pathNames path).filter (· ≠ ".")).getLast? with
  | none | some ".." => none
  | some name =>
      let cs := name.toList
      let stem := (cs.reverse.dropWhile (· ≠ '.')).drop 1 |>.reverse
      some (if stem = [] then name else String.ofList stem)

/-- The most bytes that a name may have. -/
def nameLimit : Nat := 255

/-- The most bytes that a path may have. -/
def pathLimit : Nat := 4095

/-- Where a walk has come to: the directory itself, a directory above it, or a file in it. -/
inductive Place where
  | here
  | above
  | file (text : String)
  deriving DecidableEq

/-- A directory without directories in it: the names of its files, and their text. -/
structure Directory where
  files : List (String × String) := []

namespace Directory

/-- The place that a name leads to from another place. A name is only too long where it is looked
up, so that a fault before it counts first. -/
def step (d : Directory) (p : Place) (name : String) : Except FileFault Place :=
  match p, name with
  | .file _, _ => .error .notDirectory
  | p, "." => .ok p
  | _, ".." => .ok .above
  | p, name =>
      if nameLimit < name.utf8ByteSize then .error .nameTooLong
      else
        match p, d.files.lookup name with
        | .here, some text => .ok (.file text)
        | _, _ => .error .notFound

/-- The place that the first names of a path lead to, one after the other. -/
def walk (d : Directory) (path : String) (names : List String) : Except FileFault Place :=
  if path = "" then .error .notFound
  else if pathLimit < path.utf8ByteSize then .error .nameTooLong
  else names.foldlM d.step (if path.startsWith "/" then .above else .here)

/-- The text of a file. A path to a file does not end with a slash. -/
def read (d : Directory) (path : String) : Except FileFault String := do
  match ← d.walk path (pathNames path) with
  | .file text => if path.endsWith "/" then .error .notDirectory else .ok text
  | .here | .above => .error .isDirectory

/-- The directory after a file is written, whether or not it was there before. What is written to
a directory above cannot be seen in this one. -/
def write (d : Directory) (path text : String) : Except FileFault Directory := do
  let names := pathNames path
  let name := names.getLast?.getD "."
  let p ← d.walk path names.dropLast
  if p ≠ .here ∧ p ≠ .above then .error .notDirectory
  else if name = "." ∨ name = ".." ∨ path.endsWith "/" then .error .isDirectory
  else if nameLimit < name.utf8ByteSize then .error .nameTooLong
  else if p = .here then .ok ⟨(name, text) :: d.files.filter fun file => file.1 ≠ name⟩
  else .ok d

end Directory

/-- What a script has done: the lines it has printed, its exit status, and the directory. -/
structure Transcript where
  printed : List String := []
  complaints : List String := []
  status : Nat := 0
  directory : Directory

namespace Script

/-- The transcript of a script that is carried out in a directory. -/
def runIn (d : Directory) : Script → Transcript
  | exit status => { status, directory := d }
  | print line next =>
      let t := next.runIn d
      { t with printed := line :: t.printed }
  | complain line next =>
      let t := next.runIn d
      { t with complaints := line :: t.complaints }
  | read path next => (next ((d.read path).mapError FileFault.message)).runIn d
  | write path lines next =>
      match d.write path (String.join (lines.map (· ++ "\n"))) with
      | .ok d => (next (.ok ())).runIn d
      | .error e => (next (.error e.message)).runIn d

end Script

end MacroAssembler.Console

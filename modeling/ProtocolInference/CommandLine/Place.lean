import ProtocolInference.CommandLine.Files

/-!
Where a path leads.

A place is given by the names on the way to it from the root, and a path
by the names on it, of which `..` leads back. An absolute path starts at
the root, a relative one where the command runs. Names and paths have a
greatest length, counted in bytes, beyond which they lead nowhere.

Some places are there on every machine: directories, a few files, devices
that stand in place of a file, and links from one place to another.
-/

namespace ProtocolInference

/-- A place, by the names that lead to it from the root. -/
abbrev Place := List String

/-! ### Paths -/

def maxNameLength : Nat := 255

def maxPathLength : Nat := 4095

/-- The names on a path. A dot stands for no change of directory. -/
def pathNames (path : String) : List String :=
  (path.splitOn "/").filter fun name => name ≠ "" ∧ name ≠ "."

/-- Whether the path can only be that of a directory. -/
def isDirectoryPath (path : String) : Bool :=
  match (path.splitOn "/").getLast? with
  | some name => name = "" || name = "." || name = ".."
  | none => true

/-- Whether the path can lead to a file: it is not that of a directory, and
it is not too long. -/
def isFilePath (path : String) : Bool :=
  !isDirectoryPath path && path.utf8ByteSize ≤ maxPathLength

namespace Place

/-! ### Standing places -/

/-- Where commands run. -/
def home : Place := ["tmp", "workspace"]

/-- The directories that are always there. -/
def directories : List Place :=
  [[], ["bin"], ["boot"], ["dev"], ["dev", "pts"], ["dev", "shm"], ["etc"], ["home"], ["lib"],
    ["media"], ["mnt"], ["opt"], ["proc"], ["proc", "self"], ["proc", "self", "fd"], ["root"],
    ["run"], ["sbin"], ["srv"], ["sys"], ["tmp"], home, ["usr"], ["var"]]

/-- The files that are always there. None of them holds a document. -/
def files : List Place :=
  [["etc", "group"], ["etc", "hostname"], ["etc", "hosts"], ["etc", "os-release"],
    ["etc", "passwd"], ["etc", "resolv.conf"], ["proc", "cpuinfo"], ["proc", "meminfo"],
    ["proc", "mounts"], ["proc", "self", "status"], ["proc", "uptime"], ["proc", "version"]]

/-- The place to which a place is a link, or the place itself. -/
def follow : Place → Place
  | ["dev", "fd"] => ["proc", "self", "fd"]
  | ["dev", "stdin"] => ["proc", "self", "fd", "0"]
  | ["dev", "stdout"] => ["proc", "self", "fd", "1"]
  | ["dev", "stderr"] => ["proc", "self", "fd", "2"]
  | ["proc", "self", "cwd"] => home
  | ["proc", "self", "root"] => []
  | place => place

/-- Whether files and directories can be made at a place. Where the machine
describes itself they cannot. -/
def isOpen (place : Place) : Bool := place.head? ≠ some "proc" && place.head? ≠ some "sys"

end Place

/-- What stands in place of a file. -/
inductive Device
  /-- It reads as an empty text, and what is written to it is lost. -/
  | null
  /-- What is written to it is lost, and there is no end of reading it. -/
  | drain
  /-- It takes nothing. -/
  | full
  /-- What is written to it is printed. -/
  | output
  deriving DecidableEq

/-- The device at a place. -/
def Device.at? : Place → Option Device
  | ["dev", "null"] => some .null
  | ["dev", "zero"] => some .drain
  | ["dev", "random"] => some .drain
  | ["dev", "urandom"] => some .drain
  | ["dev", "full"] => some .full
  | ["dev", "tty"] => some .full
  | ["proc", "self", "fd", "0"] => some .null
  | ["proc", "self", "fd", "1"] => some .output
  | ["proc", "self", "fd", "2"] => some .drain
  | _ => none

namespace Place

/-! ### Ways -/

/-- The place one name further on. Two dots lead back, at the root to the
root itself. -/
def step (here : Place) (name : String) : Place :=
  if name = ".." then here.dropLast else follow (here ++ [name])

/-- The directories that names pass through, and the place to which they
lead. All but the last of the names have to lead to such that may be
entered. -/
def route (enter : Place → Bool) (here : Place) :
    List String → Except WriteError (List Place × Place)
  | [] => .ok ([], here)
  | [name] =>
    if name.utf8ByteSize ≤ maxNameLength then .ok ([], here.step name) else .error .file
  | name :: rest =>
    let there := here.step name
    if name.utf8ByteSize ≤ maxNameLength && enter there then
      (route enter there rest).map fun (passed, target) => (there :: passed, target)
    else .error .directory

/-- The directories that a path passes through, and the place to which it
leads. -/
def ofPath (enter : Place → Bool) (path : String) : Except WriteError (List Place × Place) :=
  route enter (if path.startsWith "/" then [] else home) (pathNames path)

end Place

end ProtocolInference

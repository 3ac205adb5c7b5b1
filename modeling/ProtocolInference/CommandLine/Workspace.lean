import ProtocolInference.CommandLine.Place
import ProtocolInference.CommandLine.Run
import ProtocolInference.Ordered.Map

/-!
Commands that run in memory.

A `Workspace` is a machine as far as a command can tell: text files, the
directories that have been made, and what has been written to the device
that prints. It offers the operations of `Files`, so that a command runs
in it like anywhere else, and the files that are new can be listed
afterwards.
-/

namespace ProtocolInference

structure Workspace where
  files : OrderedMap Place String
  /-- Directories that have been made, with or without a file in them. -/
  made : List Place
  /-- What has been written to the device that prints. -/
  printed : String
  deriving DecidableEq

namespace Workspace

/-- A workspace in which the given files are where commands run. In the
files that are always there nothing is of use to a command. -/
def ofFiles (files : List (String × String)) : Workspace :=
  let standing := Place.files.map fun place => (place, "unknown\n")
  let given := files.map fun (path, text) => (Place.home ++ pathNames path, text)
  { files := (standing ++ given).foldl (fun files (place, text) => files.insert place text) ∅
    made := []
    printed := "" }

def isFile (w : Workspace) (place : Place) : Bool := w.files.contains place

/-- Whether there is a directory: it is always there, has been made, or has
a file below it. -/
def isDirectory (w : Workspace) (place : Place) : Bool :=
  Place.directories.contains place || w.made.contains place ||
    w.files.keys.any fun file => place.isPrefixOf file && file ≠ place

/-- Whether there is a directory, or one can be made. -/
def canEnter (w : Workspace) (place : Place) : Bool :=
  w.isDirectory place || (place.isOpen && !w.isFile place && (Device.at? place).isNone)

def read (w : Workspace) (path : String) : Option String := do
  if !isFilePath path then none
  let (_, target) ← (Place.ofPath w.isDirectory path).toOption
  match Device.at? target with
  | some .null => some ""
  | some _ => none
  | none => w.files.get? target

def write (w : Workspace) (path text : String) : Except WriteError Workspace := do
  let (passed, target) ← Place.ofPath w.canEnter path
  let w := { w with made := passed ++ w.made }
  if !isFilePath path || w.isDirectory target then .error .file
  match Device.at? target with
  | some .null => return w
  | some .drain => return w
  | some .full => .error .file
  | some .output => return { w with printed := w.printed ++ text }
  | none =>
    if target.isOpen then return { w with files := w.files.insert target text }
    else .error .file

def operations : Files (StateM Workspace) where
  read path := do return (← get).read path
  write path text := do
    match (← get).write path text with
    | .ok w => set w; return .ok ()
    | .error e => return .error e

/-- Run the program with the given arguments. All printing is done at the
end, behind what has been written to the device that prints. -/
def run (w : Workspace) (args : List String) : RunResult × Workspace :=
  let (result, w) := (runProgram operations args).run w
  ({ result with output := w.printed ++ result.output }, w)

/-- The files where commands run, by their names from there on. -/
def listing (w : Workspace) : List (List String × String) :=
  w.files.entries.filterMap fun (place, text) =>
    if Place.home.isPrefixOf place then some (place.drop Place.home.length, text) else none

/-- The files where commands run that were not there before. -/
def newFiles (w before : Workspace) : List (List String × String) :=
  w.listing.filter fun (name, _) => before.listing.all fun (old, _) => old ≠ name

end Workspace

end ProtocolInference

import ProtocolInference.CommandLine.Run

/-!
The program.

It works on the files of the machine. What it prints goes to standard
output, the messages of a failure to standard error, innermost last.
-/

namespace ProtocolInference

def parentPath (path : String) : Option String :=
  match (path.splitOn "/").dropLast with
  | [] => none
  | [""] => some "/"
  | names => some (String.intercalate "/" names)

def makeParent (path : String) : IO Unit :=
  match parentPath path with
  | some parent => IO.FS.createDirAll parent
  | none => return ()

def machineFiles : Files IO where
  read path := do
    match ← (IO.FS.readFile path).toBaseIO with
    | .ok text => return some text
    | .error _ => return none
  write path text := do
    match ← (makeParent path).toBaseIO with
    | .error _ => return .error .directory
    | .ok () =>
      match ← (IO.FS.writeFile path text).toBaseIO with
      | .error _ => return .error .file
      | .ok () => return .ok ()

end ProtocolInference

open ProtocolInference in
def main (args : List String) : IO UInt32 := do
  let result ← runProgram machineFiles args
  IO.print result.output
  for message in result.errors do
    IO.eprintln message
  return result.exitCode.toUInt32

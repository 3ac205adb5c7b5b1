/-!
The files that a command reads and writes.

A command needs no more of the world than two operations, `Files`, and
works over any monad that offers them.

Writing a file makes the directories in which it lies, and those that its
path only passes through. It fails if one of them is a file, or if the
file itself is a directory, be it one that has just been made.
-/

namespace ProtocolInference

inductive WriteError
  /-- A directory on the way cannot be made. -/
  | directory
  /-- The file itself cannot be written. -/
  | file
  deriving DecidableEq

/-- The two operations on files. -/
structure Files (m : Type → Type) where
  /-- The text of a file, if it can be read. -/
  read : String → m (Option String)
  /-- Write a file, making the directories in which it lies. -/
  write : String → String → m (Except WriteError Unit)

end ProtocolInference

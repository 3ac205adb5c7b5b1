/-!
Names for observed states that have none.

The generated names are a stem with a running number. The generator does
not know which names the traces give to their own states, so a generated
name may be one that is given as well.
-/

namespace ProtocolInference

/-- A source of names: the stem, and the number of the next name. -/
structure StateNames where
  stem : String
  next : Nat
  deriving DecidableEq, Inhabited

namespace StateNames

/-- The names `a0`, `a1` and so on. -/
def standard : StateNames := ⟨"a", 0⟩

def name (ns : StateNames) (number : Nat) : String := ns.stem ++ toString number

/-- The next `count` names. -/
def upcoming (ns : StateNames) (count : Nat) : List String :=
  (List.range count).map fun i => ns.name (ns.next + i)

/-- The source after `count` names have been taken. -/
def advance (ns : StateNames) (count : Nat) : StateNames := { ns with next := ns.next + count }

end StateNames

end ProtocolInference

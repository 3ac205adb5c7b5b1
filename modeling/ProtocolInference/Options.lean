import ProtocolInference.Partition.Build
import ProtocolInference.Partition.Refine

/-!
The options of an inference.
-/

namespace ProtocolInference

structure InferenceOptions where
  /-- How many splits may be made in all. -/
  maxIterations : Nat
  partitioning : InitialPartitioning
  leftSet : LeftSet
  remainder : RemainderPolicy
  /-- How many threads a check may use. The outcome does not depend on
  it. -/
  checkThreads : Option Nat
  /-- The name in the heading of a description. -/
  systemName : String
  /-- Whether partitions of one name are merged at the beginning. -/
  coarsenByName : Bool
  deriving DecidableEq, Inhabited

namespace InferenceOptions

/-- What holds where nothing else is chosen. -/
def standard : InferenceOptions where
  maxIterations := 100
  partitioning := .byIncomingEvent
  leftSet := .complement
  remainder := .left
  checkThreads := none
  systemName := "fifomine"
  coarsenByName := false

def refine (opts : InferenceOptions) : RefineOptions := ⟨opts.leftSet, opts.remainder⟩

end InferenceOptions

end ProtocolInference

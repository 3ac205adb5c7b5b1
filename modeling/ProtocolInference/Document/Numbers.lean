import ProtocolInference.Options
import ProtocolInference.Trace.Log
import ProtocolInference.Word

/-!
The numbers of a document.

A number is written as a plain numeral, of which there are more than a
word can hold. What is read has numbers that fit into a word, whatever
part of the document they come from: process ids, channel indices, times,
bounds, seeds and counts. So these are listed here, for each kind of
document, and *words* are numbers that fit.
-/

namespace ProtocolInference

/-- All the numbers fit into a word. -/
def AreWords (numbers : List Nat) : Prop := ∀ n ∈ numbers, n < wordSize

instance (numbers : List Nat) : Decidable (AreWords numbers) :=
  inferInstanceAs (Decidable (∀ n ∈ numbers, n < wordSize))

@[simp] theorem areWords_nil : AreWords [] := List.forall_mem_nil _

@[simp] theorem areWords_cons {n : Nat} {numbers : List Nat} :
    AreWords (n :: numbers) ↔ n < wordSize ∧ AreWords numbers := List.forall_mem_cons

@[simp] theorem areWords_append {numbers numbers' : List Nat} :
    AreWords (numbers ++ numbers') ↔ AreWords numbers ∧ AreWords numbers' := List.forall_mem_append

theorem AreWords.append {numbers numbers' : List Nat} (h : AreWords numbers)
    (h' : AreWords numbers') : AreWords (numbers ++ numbers') := areWords_append.2 ⟨h, h'⟩

@[simp] theorem areWords_flatMap {α : Type} {f : α → List Nat} {l : List α} :
    AreWords (l.flatMap f) ↔ ∀ a ∈ l, AreWords (f a) := by
  simp only [AreWords, List.mem_flatMap]
  exact ⟨fun h a ha n hn => h n ⟨a, ha, hn⟩, fun h n ⟨a, ha, hn⟩ => h a ha n hn⟩

/-! ### Traces -/

def Channel.numbers (c : Channel) : List Nat := [c.src, c.dst, c.index]

def EventSpec.numbers : EventSpec → List Nat
  | internal pid _ => [pid]
  | send channel _ => [channel]
  | receive channel _ => [channel]

def TimedEventSpec.numbers (e : TimedEventSpec) : List Nat := e.event.numbers ++ [e.delta]

def ProcessTraceSpec.numbers (t : ProcessTraceSpec) : List Nat :=
  t.pid :: t.events.flatMap TimedEventSpec.numbers

def ExecutionSpec.numbers (x : ExecutionSpec) : List Nat :=
  x.processes.flatMap ProcessTraceSpec.numbers

def TraceLog.numbers (log : TraceLog) : List Nat :=
  log.processes ::
    (log.channels.flatMap Channel.numbers ++ log.executions.flatMap ExecutionSpec.numbers)

/-! ### Invariants -/

def Bound.numbers : Bound → List Nat
  | atMost limit => [limit]
  | atLeast limit => [limit]

def InvariantSpec.numbers (spec : InvariantSpec) : List Nat :=
  spec.first.toList.flatMap EventSpec.numbers ++ spec.second.numbers ++
    spec.bound.toList.flatMap Bound.numbers

/-! ### Options -/

def RemainderPolicy.numbers : RemainderPolicy → List Nat
  | left => []
  | right => []
  | seeded seed => [seed]

def InferenceOptions.numbers (opts : InferenceOptions) : List Nat :=
  opts.maxIterations :: (opts.remainder.numbers ++ opts.checkThreads.toList)

end ProtocolInference

import ProtocolInference.Monitor
import ProtocolInference.Oracle

/-!
The search for violations within one process.

The automaton of a process and the monitor of an invariant run side by
side. A violation is an accepting state of the automaton in which the
monitor fails, and a breadth-first search over the pairs of both finds a
shortest run into one. A monitor that is satisfied for good cannot fail
any more, so what lies behind it is left out.

Automata know no time. A bound of the invariant is disregarded, as it is
on tracer channels.
-/

namespace ProtocolInference

inductive SearchError
  | crossProcess (inv : Invariant)
  | unknownProcess (pid : ProcessId)
  | exhausted (limit : Nat)
  deriving DecidableEq

def SearchError.message : SearchError → String
  | crossProcess inv =>
    s!"invariant {inv.text} relates processes {inv.first.pid} and {inv.second.pid}"
  | unknownProcess pid => s!"process {pid} is not part of the model"
  | exhausted limit => s!"search exceeded {limit} product states"

/-- A state of the automaton, with the phase of the monitor. -/
structure SearchNode where
  state : StateId
  phase : Phase
  deriving DecidableEq, Inhabited

/-- A node with the run that found it: where it began, and its steps, last
first. -/
structure Visit where
  node : SearchNode
  start : StateId
  trail : List RunStep
  deriving DecidableEq, Inhabited

namespace Visit

def ofInitial (s : StateId) : Visit := ⟨⟨s, .idle⟩, s, []⟩

def extend (v : Visit) (inv : Invariant) (e : Event) (t : StateId) : Visit :=
  ⟨⟨t, v.node.phase.next inv e⟩, v.start, ⟨e, t⟩ :: v.trail⟩

def run (v : Visit) (pid : ProcessId) : ProcessRun := ⟨pid, v.start, v.trail.reverse⟩

end Visit

/-- Add the visits that follow from `v` by the given transitions to those
found before, as far as their nodes are new and can still fail. The limit
is on the number of nodes; running into it is an error. -/
def expand (inv : Invariant) (limit : Nat) (v : Visit) (seen : List SearchNode)
    (found : List Visit) : List (Event × StateId) →
    Except SearchError (List SearchNode × List Visit)
  | [] => .ok (seen, found)
  | (e, t) :: rest =>
    let next := v.extend inv e t
    if next.node.phase.validity inv = .permSuccess then expand inv limit v seen found rest
    else if next.node ∈ seen then expand inv limit v seen found rest
    else if limit ≤ seen.length then .error (.exhausted limit)
    else expand inv limit v (next.node :: seen) (found ++ [next]) rest

theorem length_of_expand {inv : Invariant} {limit : Nat} {v : Visit} {seen : List SearchNode}
    {found : List Visit} {ts : List (Event × StateId)} {seen' : List SearchNode}
    {found' : List Visit} (h : expand inv limit v seen found ts = .ok (seen', found')) :
    seen'.length + found.length = seen.length + found'.length ∧
      (seen'.length = seen.length ∨ seen'.length ≤ limit) ∧ seen.length ≤ seen'.length := by
  induction ts generalizing seen found with
  | nil =>
    simp only [expand, Except.ok.injEq, Prod.mk.injEq] at h
    obtain ⟨rfl, rfl⟩ := h
    exact ⟨rfl, .inl rfl, Nat.le_refl _⟩
  | cons et ts ih =>
    obtain ⟨e, t⟩ := et
    rw [expand] at h
    split at h
    · exact ih h
    · split at h
      · exact ih h
      · split at h
        · simp at h
        · have := ih h
          simp only [List.length_cons, List.length_append, List.length_nil] at this
          omega

/-- Work off the visits in the queue, oldest first, up to one in which the
invariant fails. -/
def searchFrom (a : Automaton) (inv : Invariant) (limit : Nat) (seen : List SearchNode) :
    List Visit → Except SearchError (Option Visit)
  | [] => .ok none
  | v :: queue =>
    if a.isAccepting v.node.state && (v.node.phase.validity inv).isFail then .ok (some v)
    else
      match h : expand inv limit v seen [] (a.transitions v.node.state) with
      | .error e => .error e
      | .ok (seen', found) =>
        have := length_of_expand h
        searchFrom a inv limit seen' (queue ++ found)
  termination_by queue => (limit - seen.length, queue.length)
  decreasing_by
    simp only [List.length_nil, List.length_cons, List.length_append] at *
    -- New nodes bring the limit closer; without them the queue gets shorter.
    by_cases hf : found.length = 0
    · have : limit - seen'.length = limit - seen.length := by omega
      rw [this]
      exact Prod.Lex.right _ (by omega)
    · exact Prod.Lex.left _ _ (by omega)

/-- A shortest run of the model that violates the invariant, if there is
one. The invariant must lie within one process of the model. -/
def Model.search (m : Model) (limit : Nat) (inv : Invariant) :
    Except SearchError (Option ProcessRun) :=
  if !inv.isWithinProcess then .error (.crossProcess inv)
  else
    match m.system.automaton? inv.pid with
    | none => .error (.unknownProcess inv.pid)
    | some a => do
      let queue := a.initialStates.map Visit.ofInitial
      let found ← searchFrom a inv.untimed limit (queue.map (·.node)) queue
      return found.map (·.run inv.pid)

/-- The number of nodes up to which a search goes by default. -/
def defaultSearchLimit : Nat := 1000000

/-- The oracle that searches one process. It has no state. -/
def productSearch (limit : Nat) : Oracle Unit SearchError where
  name := "product-search"
  supports := Invariant.isWithinProcess
  ask _ m inv :=
    ((m.search limit inv).map fun run => run.map fun run => ⟨[run]⟩, ())

end ProtocolInference

import ProtocolInference.Automaton
import ProtocolInference.Automaton.History
import ProtocolInference.ChaCha
import ProtocolInference.Channel
import ProtocolInference.CommandLine.Arguments
import ProtocolInference.CommandLine.Files
import ProtocolInference.CommandLine.Flags
import ProtocolInference.CommandLine.Place
import ProtocolInference.CommandLine.Report
import ProtocolInference.CommandLine.Run
import ProtocolInference.CommandLine.Workspace
import ProtocolInference.Document.Event
import ProtocolInference.Document.Invariant
import ProtocolInference.Document.Numbers
import ProtocolInference.Document.Options
import ProtocolInference.Document.Report
import ProtocolInference.Document.TraceLog
import ProtocolInference.Event
import ProtocolInference.Event.Label
import ProtocolInference.Invariant
import ProtocolInference.Invariant.Meaning
import ProtocolInference.Invariant.Pattern
import ProtocolInference.Invariant.Record
import ProtocolInference.Json
import ProtocolInference.Json.Double
import ProtocolInference.Json.Kept
import ProtocolInference.Json.Reader
import ProtocolInference.Json.Record
import ProtocolInference.Json.Writer
import ProtocolInference.Main
import ProtocolInference.Model
import ProtocolInference.Monitor
import ProtocolInference.Options
import ProtocolInference.Oracle
import ProtocolInference.Ordered.Map
import ProtocolInference.Ordered.Set
import ProtocolInference.Partition.Build
import ProtocolInference.Partition.Coherence
import ProtocolInference.Partition.EdgeTable
import ProtocolInference.Partition.Graph
import ProtocolInference.Partition.History
import ProtocolInference.Partition.InPlace
import ProtocolInference.Partition.Language
import ProtocolInference.Partition.Merge
import ProtocolInference.Partition.Observation
import ProtocolInference.Partition.Path
import ProtocolInference.Partition.Refine
import ProtocolInference.Partition.Split
import ProtocolInference.Partition.StateNames
import ProtocolInference.Refinement
import ProtocolInference.Search
import ProtocolInference.System
import ProtocolInference.System.BadState
import ProtocolInference.System.Configuration
import ProtocolInference.System.Description
import ProtocolInference.System.InPlace
import ProtocolInference.System.Layout
import ProtocolInference.System.Reading
import ProtocolInference.System.Rows
import ProtocolInference.System.Tracing
import ProtocolInference.Tags
import ProtocolInference.Trace
import ProtocolInference.Trace.Check
import ProtocolInference.Trace.Fault
import ProtocolInference.Trace.Log
import ProtocolInference.Trace.WellFormed
import ProtocolInference.Word
import ProtocolInference.Proofs.Automaton.Containment
import ProtocolInference.Proofs.Automaton.History
import ProtocolInference.Proofs.Automaton.Occurrence
import ProtocolInference.Proofs.Automaton.Recording
import ProtocolInference.Proofs.Automaton.Rerouting
import ProtocolInference.Proofs.Automaton.Steps
import ProtocolInference.Proofs.Automaton.Tracing
import ProtocolInference.Proofs.Document.RoundTrip
import ProtocolInference.Proofs.Event.Label
import ProtocolInference.Proofs.Event.Mark
import ProtocolInference.Proofs.Except
import ProtocolInference.Proofs.Invariant.Breach
import ProtocolInference.Proofs.Invariant.Violation
import ProtocolInference.Proofs.Json.Coding
import ProtocolInference.Proofs.Model.Correspondence
import ProtocolInference.Proofs.Model.Existence
import ProtocolInference.Proofs.Model.Locality
import ProtocolInference.Proofs.Model.Mirror
import ProtocolInference.Proofs.Model.Path
import ProtocolInference.Proofs.Model.Retention
import ProtocolInference.Proofs.Monitor
import ProtocolInference.Proofs.Monitor.Reading
import ProtocolInference.Proofs.Monitor.Verdict
import ProtocolInference.Proofs.Partition.Arena
import ProtocolInference.Proofs.Partition.Atomic
import ProtocolInference.Proofs.Partition.Behaviour
import ProtocolInference.Proofs.Partition.Calls
import ProtocolInference.Proofs.Partition.Coarsen
import ProtocolInference.Proofs.Partition.CommonName
import ProtocolInference.Proofs.Partition.Dissolve
import ProtocolInference.Proofs.Partition.EdgeCount
import ProtocolInference.Proofs.Partition.LastStitch
import ProtocolInference.Proofs.Partition.Monotone
import ProtocolInference.Proofs.Partition.Naming
import ProtocolInference.Proofs.Partition.Operations
import ProtocolInference.Proofs.Partition.Ownership
import ProtocolInference.Proofs.Partition.Reassign
import ProtocolInference.Proofs.Partition.Recount
import ProtocolInference.Proofs.Partition.Refine
import ProtocolInference.Proofs.Partition.Replace
import ProtocolInference.Proofs.Partition.Retelling
import ProtocolInference.Proofs.Partition.Stitch
import ProtocolInference.Proofs.Partition.Valid
import ProtocolInference.Proofs.Partition.Words
import ProtocolInference.Proofs.Refinement.Accounting
import ProtocolInference.Proofs.Refinement.Course
import ProtocolInference.Proofs.Refinement.Failure
import ProtocolInference.Proofs.Refinement.Settled
import ProtocolInference.Proofs.Refinement.Verdict
import ProtocolInference.Proofs.Search
import ProtocolInference.Proofs.Search.Shortest
import ProtocolInference.Proofs.System.BadState
import ProtocolInference.Proofs.System.Containment
import ProtocolInference.Proofs.System.Declared
import ProtocolInference.Proofs.System.Description
import ProtocolInference.Proofs.System.Inserted
import ProtocolInference.Proofs.System.Interleaving
import ProtocolInference.Proofs.System.Progress
import ProtocolInference.Proofs.System.Reading
import ProtocolInference.Proofs.System.Recording
import ProtocolInference.Proofs.System.Tracing
import ProtocolInference.Proofs.System.Transparency
import ProtocolInference.Proofs.Trace.Downstream
import ProtocolInference.Proofs.Trace.Refusal
import ProtocolInference.Proofs.Trace.Resolution

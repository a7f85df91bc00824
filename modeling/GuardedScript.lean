import GuardedScript.Capability.Basic
import GuardedScript.Capability.Json
import GuardedScript.Config.Basic
import GuardedScript.Data.Assoc
import GuardedScript.Data.Table
import GuardedScript.Engine
import GuardedScript.Error
import GuardedScript.Host.Operations
import GuardedScript.Json.Basic
import GuardedScript.Json.Reader
import GuardedScript.Json.Record
import GuardedScript.Json.Token
import GuardedScript.Memory.Binding
import GuardedScript.Memory.Heap
import GuardedScript.Memory.Identity
import GuardedScript.Memory.Living
import GuardedScript.Memory.Path
import GuardedScript.Memory.Stack
import GuardedScript.Memory.View
import GuardedScript.Namespace.Basic
import GuardedScript.Namespace.Json
import GuardedScript.Pointer
import GuardedScript.Registry.Basic
import GuardedScript.Registry.Define
import GuardedScript.Registry.Property
import GuardedScript.Registry.Subtype
import GuardedScript.Run.Effect
import GuardedScript.Run.Exec
import GuardedScript.Run.Host
import GuardedScript.Script.Command
import GuardedScript.Script.Error
import GuardedScript.Script.Thread
import GuardedScript.Session
import GuardedScript.Text.Order
import GuardedScript.Text.Quoted
import GuardedScript.Text.Segments
import GuardedScript.Proofs.Coverage
import GuardedScript.Proofs.Trail
import GuardedScript.Proofs.Gate
import GuardedScript.Proofs.Denial
import GuardedScript.Proofs.Declared
import GuardedScript.Proofs.Reach
import GuardedScript.Proofs.Growth
import GuardedScript.Proofs.Ownership
import GuardedScript.Proofs.Layout
import GuardedScript.Proofs.ReturnSlot
import GuardedScript.Proofs.SubtypeOrder
import GuardedScript.Proofs.Survey
import GuardedScript.Proofs.Substitution
import GuardedScript.Proofs.HeapSteps
import GuardedScript.Proofs.RunSteps
import GuardedScript.Proofs.StoreTyping
import GuardedScript.Proofs.Views
import GuardedScript.Proofs.Layers
import GuardedScript.Proofs.TwoRuns
import GuardedScript.Proofs.CallDepth
import GuardedScript.Proofs.InputOrder
import GuardedScript.Proofs.Passage
import GuardedScript.Proofs.Permanence
import GuardedScript.Proofs.Dealing
import GuardedScript.Proofs.Seclusion
import GuardedScript.Proofs.Likeness
import GuardedScript.Proofs.TwoCalls
import GuardedScript.Proofs.Isolation
import GuardedScript.Proofs.Finality
import GuardedScript.Proofs.TypedPaths
import GuardedScript.Proofs.Outline
import GuardedScript.Proofs.Exposure
import GuardedScript.Proofs.PathReads
import GuardedScript.Proofs.Unreadable
import GuardedScript.Proofs.JsonText
import GuardedScript.Proofs.ConfigText
import GuardedScript.Proofs.Names
import GuardedScript.Proofs.Reserved
import GuardedScript.Proofs.Provenance
import GuardedScript.Proofs.Failures
import GuardedScript.Proofs.ObjectViews
import GuardedScript.Proofs.SharedStatics
import GuardedScript.Proofs.RunLoop
import GuardedScript.Proofs.Merging
import GuardedScript.Proofs.Aggregation
import GuardedScript.Proofs.PathWrites
import GuardedScript.Proofs.ContractWalk
import GuardedScript.Proofs.Acceptance
import GuardedScript.Proofs.Linking
import GuardedScript.Proofs.InputMemory
import GuardedScript.Proofs.Spelling
import GuardedScript.Proofs.PointerMoves
import GuardedScript.Proofs.Coherence
import GuardedScript.Proofs.HostValues

import Verilower.Options.CommandLine
import Verilower.Run
import Verilower.Proofs.Lowering.Outcome
import Verilower.Proofs.Lowering.Operand
import Verilower.Proofs.Lowering.Call
import Verilower.Proofs.Lowering.Node
import Verilower.Proofs.Lowering.Inline
import Verilower.Proofs.ControlFlow
import Verilower.Proofs.Ivl.Semantics
import Verilower.Proofs.Devirtualization
import Verilower.Proofs.Digraph
import Verilower.Proofs.Hierarchy
import Verilower.Proofs.Subtyping
import Verilower.Proofs.History
import Verilower.Proofs.Ivl.Renaming
import Verilower.Proofs.Lowering.Blind
import Verilower.Proofs.Lowering.Hygiene
import Verilower.Proofs.Lowering.Twins
import Verilower.Proofs.NonInterference
import Verilower.Proofs.Lowering.Quiet
import Verilower.Proofs.Exits
import Verilower.Proofs.Handlers
import Verilower.Proofs.Indexing
import Verilower.Proofs.Registration
import Verilower.Proofs.Lowering.Safe
import Verilower.Proofs.FaultFreedom
import Verilower.Proofs.Registry
import Verilower.Proofs.Assembly
import Verilower.Proofs.Isolation
import Verilower.Proofs.Closedness
import Verilower.Proofs.ErrorModels
import Verilower.Proofs.Allocation
import Verilower.Proofs.DistinctNames
import Verilower.Proofs.Escapes
import Verilower.Proofs.Propagation
import Verilower.Proofs.Ivl.Flow
import Verilower.Proofs.Lowering.Dereferences
import Verilower.Proofs.Receivers
import Verilower.Proofs.CallSites
import Verilower.Proofs.Exclusivity
import Verilower.Proofs.Resolution
import Verilower.Proofs.Coverage
import Verilower.Proofs.Lowering.Refusals
import Verilower.Proofs.CallArity
import Verilower.Proofs.CallObligations
import Verilower.Proofs.CallTyping
import Verilower.Proofs.Guarding
import Verilower.Proofs.Switches
import Verilower.Proofs.Locations
import Verilower.Proofs.Lowering.Statements
import Verilower.Proofs.TypeConsistency
import Verilower.Proofs.Annotations
import Verilower.Proofs.Division
import Verilower.Proofs.TagOrder
import Verilower.Proofs.LocalNames
import Verilower.Proofs.Locals
import Verilower.Proofs.BoundsChecks
import Verilower.Proofs.Ivl.Substitution
import Verilower.Proofs.Ivl.Readability
import Verilower.Proofs.Ivl.Indentation
import Verilower.Proofs.Labels

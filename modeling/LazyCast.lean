import LazyCast.Arithmetic
import LazyCast.Ordered
import LazyCast.Kind
import LazyCast.Text.Column
import LazyCast.Text.Blank
import LazyCast.Decimal.Binary
import LazyCast.Decimal.Shortest
import LazyCast.Decimal.Positional
import LazyCast.Value
import LazyCast.Instruction
import LazyCast.Text.Duration
import LazyCast.Fault
import LazyCast.Value.Convert
import LazyCast.TypeTable
import LazyCast.Sample
import LazyCast.Reading
import LazyCast.Cast.Table
import LazyCast.Cast.Builtin
import LazyCast.InstructionSet
import LazyCast.Routing
import LazyCast.Json
import LazyCast.Json.Reader
import LazyCast.Program
import LazyCast.Program.Pass
import LazyCast.Registry
import LazyCast.Registry.Document
import LazyCast.Ledger
import LazyCast.Ledger.Arena
import LazyCast.Ledger.Interaction
import LazyCast.Classical
import LazyCast.Random.ChaCha
import LazyCast.Circuit.Lowering
import LazyCast.Circuit.Amplitudes
import LazyCast.Circuit
import LazyCast.Circuit.Qasm
import LazyCast.Simulator
import LazyCast.Outcome
import LazyCast.SubCompiler
import LazyCast.Worker
import LazyCast.Supervision
import LazyCast.Orchestrator
import LazyCast.Cast.Plan
import LazyCast.Session
import LazyCast.Session.Casting
import LazyCast.Proofs.Ledger.Chart
import LazyCast.Proofs.Ledger.Regroup
import LazyCast.Proofs.Ledger.Search
import LazyCast.Proofs.Ledger.Commands
import LazyCast.Proofs.Ledger.Groups
import LazyCast.Proofs.Ledger.Grouping
import LazyCast.Proofs.Ledger.Simulation
import LazyCast.Proofs.Ledger.Operations
import LazyCast.Proofs.Ledger.Drops
import LazyCast.Proofs.Ledger.Creation
import LazyCast.Proofs.Ledger.Ageing
import LazyCast.Proofs.Ledger.Pooling
import LazyCast.Proofs.Ledger.Refinement
import LazyCast.Proofs.Ledger.Leading
import LazyCast.Proofs.Ledger.Counting
import LazyCast.Proofs.Ledger.Onward
import LazyCast.Proofs.Ledger.Sight
import LazyCast.Proofs.Ledger.Handles
import LazyCast.Proofs.Ledger.Stopping
import LazyCast.Proofs.Ledger.Representation
import LazyCast.Proofs.Orchestrator.Scan
import LazyCast.Proofs.Orchestrator.Staffing
import LazyCast.Proofs.Orchestrator.Driving
import LazyCast.Proofs.Orchestrator.Readiness
import LazyCast.Proofs.Orchestrator.Running
import LazyCast.Proofs.Orchestrator.Continuing
import LazyCast.Proofs.Orchestrator.Executors
import LazyCast.Proofs.Orchestrator.Runs
import LazyCast.Proofs.Orchestrator.Thinning
import LazyCast.Proofs.Orchestrator.Routed
import LazyCast.Proofs.Orchestrator.Scheduling
import LazyCast.Proofs.Orchestrator.Binding
import LazyCast.Proofs.Orchestrator.Batches
import LazyCast.Proofs.Orchestrator.Positions
import LazyCast.Proofs.Orchestrator.Faults
import LazyCast.Proofs.Orchestrator.Recording
import LazyCast.Proofs.Circuit.Sweeping
import LazyCast.Proofs.Circuit.Waves
import LazyCast.Proofs.Circuit.Dense
import LazyCast.Proofs.Circuit.Distribution
import LazyCast.Proofs.Circuit.Definite
import LazyCast.Proofs.Circuit.Readout
import LazyCast.Proofs.Passes.Reduction
import LazyCast.Proofs.Passes.Stripped
import LazyCast.Proofs.Passes.Lowered
import LazyCast.Proofs.Passes.Sampled
import LazyCast.Proofs.Passes.Measured
import LazyCast.Proofs.Passes.Paired
import LazyCast.Proofs.Passes.Executed
import LazyCast.Proofs.Passes.Alone
import LazyCast.Proofs.Passes.Closing
import LazyCast.Proofs.Passes.Preserved
import LazyCast.Proofs.Session.Calls
import LazyCast.Proofs.Session.Holding
import LazyCast.Proofs.Session.Consuming
import LazyCast.Proofs.Session.Effects
import LazyCast.Proofs.Session.Office
import LazyCast.Proofs.Session.CastFaults
import LazyCast.Proofs.Session.Settling
import LazyCast.Proofs.Session.AllOrNothing
import LazyCast.Proofs.Session.Tickets
import LazyCast.Proofs.Session.Lifecycle
import LazyCast.Proofs.Session.Coverage
import LazyCast.Proofs.Session.Undisturbed
import LazyCast.Proofs.Session.Covering
import LazyCast.Proofs.Reversible.Machine
import LazyCast.Proofs.Reversible.Lowered
import LazyCast.Proofs.Reversible.Traced
import LazyCast.Proofs.Reversible.Office
import LazyCast.Proofs.Reversible.Batched
import LazyCast.Proofs.Reversible.Measured
import LazyCast.Proofs.Reversible.Executed
import LazyCast.Proofs.Reversible.Hosting
import LazyCast.Proofs.Reversible.Casting
import LazyCast.Proofs.Orchestrator.Interleaving
import LazyCast.Proofs.Orchestrator.WellRead
import LazyCast.Proofs.Passes.Vacated
import LazyCast.Proofs.Orchestrator.Custody
import LazyCast.Proofs.Orchestrator.Staging
import LazyCast.Proofs.Orchestrator.Supervised
import LazyCast.Proofs.Orchestrator.Sessions
import LazyCast.Proofs.Circuit.Locality
import LazyCast.Proofs.Orchestrator.Agreement
import LazyCast.Proofs.Passes.Supported
import LazyCast.Proofs.Passes.Hosted
import LazyCast.Proofs.Passes.Pooled
import LazyCast.Proofs.Session.Unrelated
import LazyCast.Proofs.Passes.Bound
import LazyCast.Proofs.Orchestrator.Phases
import LazyCast.Proofs.Session.Balance
import LazyCast.Proofs.KeyOrder
import LazyCast.Proofs.Orchestrator.Restriction
import LazyCast.Proofs.Orchestrator.Destinations
import LazyCast.Proofs.Orchestrator.Isolation
import LazyCast.Proofs.Sample.Tallies
import LazyCast.Proofs.Sample.Parts
import LazyCast.Proofs.Sample.Members
import LazyCast.Proofs.Sample.Projection
import LazyCast.Proofs.Sample.Readings
import LazyCast.Proofs.Sample.Drawn
import LazyCast.Proofs.Cast.Chains
import LazyCast.Proofs.Orchestrator.Offers
import LazyCast.Proofs.Passes.Runnable
import LazyCast.Proofs.Orchestrator.Substitution
import LazyCast.Proofs.Orchestrator.Stepping
import LazyCast.Proofs.Classical.Integers
import LazyCast.Proofs.Cast.Conversions
import LazyCast.Proofs.Orchestrator.Attempts
import LazyCast.Proofs.Sample.Outcomes
import LazyCast.Proofs.Composites
import LazyCast.Proofs.Session.Slices
import LazyCast.Proofs.Circuit.Confined
import LazyCast.Proofs.Circuit.Tied
import LazyCast.Proofs.Sample.Correlated
import LazyCast.Proofs.Circuit.Renaming
import LazyCast.Proofs.Passes.Renamed
import LazyCast.Proofs.Orchestrator.Renamed
import LazyCast.Proofs.Ledger.Mirrored
import LazyCast.Proofs.Session.Mirrored
import LazyCast.Proofs.Session.Replay
import LazyCast.Proofs.Narrowing
import LazyCast.Proofs.Session.Merging
import LazyCast.Proofs.Circuit.Entries
import LazyCast.Proofs.Decimal.Rounding
import LazyCast.Proofs.Decimal.Shortest
import LazyCast.Proofs.Decimal.Numeral
import LazyCast.Proofs.Decimal.Whole
import LazyCast.Proofs.Circuit.Listing
import LazyCast.Proofs.Circuit.Recorded
import LazyCast.Proofs.Circuit.Drawing
import LazyCast.Proofs.Sample.Possible
import LazyCast.Proofs.Value.Equality
import LazyCast.Proofs.Passes.NormalForm

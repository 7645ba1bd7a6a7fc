import PagedMachine.Isa.Assembly
import PagedMachine.Machine.Basic
import PagedMachine.Proofs.Access
import PagedMachine.Proofs.Accounting
import PagedMachine.Proofs.ArrivalOrder
import PagedMachine.Proofs.Atomicity
import PagedMachine.Proofs.Behaviour
import PagedMachine.Proofs.Bookkeeping
import PagedMachine.Proofs.Books
import PagedMachine.Proofs.BusEffects
import PagedMachine.Proofs.BusFaults
import PagedMachine.Proofs.BusOperations
import PagedMachine.Proofs.ByteExchange
import PagedMachine.Proofs.Bytewise
import PagedMachine.Proofs.CarryChains
import PagedMachine.Proofs.CheckedBus
import PagedMachine.Proofs.CheckedMachine
import PagedMachine.Proofs.CheckedPaging
import PagedMachine.Proofs.CheckedUnits
import PagedMachine.Proofs.Checks
import PagedMachine.Proofs.Comparisons
import PagedMachine.Proofs.Confinement
import PagedMachine.Proofs.Consistency
import PagedMachine.Proofs.Counting
import PagedMachine.Proofs.Coverage
import PagedMachine.Proofs.Denials
import PagedMachine.Proofs.Departures
import PagedMachine.Proofs.Determinism
import PagedMachine.Proofs.Disassembly
import PagedMachine.Proofs.Effects
import PagedMachine.Proofs.Endurance
import PagedMachine.Proofs.Exchange
import PagedMachine.Proofs.Extension
import PagedMachine.Proofs.FailedCalls
import PagedMachine.Proofs.FaultingSteps
import PagedMachine.Proofs.FoundBytes
import PagedMachine.Proofs.Guards
import PagedMachine.Proofs.HostPrivacy
import PagedMachine.Proofs.HostRuns
import PagedMachine.Proofs.HostStores
import PagedMachine.Proofs.Housing
import PagedMachine.Proofs.Images
import PagedMachine.Proofs.InPlace
import PagedMachine.Proofs.Initial
import PagedMachine.Proofs.InstructionFormat
import PagedMachine.Proofs.InstructionFrame
import PagedMachine.Proofs.Isolation
import PagedMachine.Proofs.LayoutIndependence
import PagedMachine.Proofs.Layouts
import PagedMachine.Proofs.Ledger
import PagedMachine.Proofs.Lexemes
import PagedMachine.Proofs.Likeness
import PagedMachine.Proofs.LostFrames
import PagedMachine.Proofs.MachineLayout
import PagedMachine.Proofs.MachineRuns
import PagedMachine.Proofs.Mappings
import PagedMachine.Proofs.Narration
import PagedMachine.Proofs.Noninterference
import PagedMachine.Proofs.OldValues
import PagedMachine.Proofs.OperandLayouts
import PagedMachine.Proofs.Operations
import PagedMachine.Proofs.PageCrossings
import PagedMachine.Proofs.Plans
import PagedMachine.Proofs.PoolHistory
import PagedMachine.Proofs.Privacy
import PagedMachine.Proofs.ProcessNumbers
import PagedMachine.Proofs.Processes
import PagedMachine.Proofs.Products
import PagedMachine.Proofs.Readings
import PagedMachine.Proofs.Refusals
import PagedMachine.Proofs.Repairs
import PagedMachine.Proofs.Representation
import PagedMachine.Proofs.Reset
import PagedMachine.Proofs.Residency
import PagedMachine.Proofs.Results
import PagedMachine.Proofs.RoundTrips
import PagedMachine.Proofs.Routing
import PagedMachine.Proofs.RunLoop
import PagedMachine.Proofs.Runs
import PagedMachine.Proofs.SameView
import PagedMachine.Proofs.Separation
import PagedMachine.Proofs.Sharing
import PagedMachine.Proofs.Shifting
import PagedMachine.Proofs.Solvency
import PagedMachine.Proofs.Soundness
import PagedMachine.Proofs.Stability
import PagedMachine.Proofs.Stores
import PagedMachine.Proofs.Sums
import PagedMachine.Proofs.Tables
import PagedMachine.Proofs.Transfer
import PagedMachine.Proofs.Transparency
import PagedMachine.Proofs.Truncation
import PagedMachine.Proofs.Turnover
import PagedMachine.Proofs.Twins
import PagedMachine.Proofs.UsableFrames
import PagedMachine.Proofs.Views
import PagedMachine.Proofs.Virtual
import PagedMachine.Proofs.WideAccesses

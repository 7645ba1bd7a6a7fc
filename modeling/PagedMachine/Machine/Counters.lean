import PagedMachine.Counter
import PagedMachine.Fault

/-!
# Execution counters

Instructions and cycles since the last reset, and faults under their classes.
-/

namespace PagedMachine

structure ExecutionCounters where
  instructions : Counter
  cycles : Counter
  lastFault : Option Fault
  decode : Counter
  memory : Counter
  paging : Counter
  resource : Counter
  consistency : Counter
  process : Counter
  deriving DecidableEq, Repr

namespace ExecutionCounters

def zero : ExecutionCounters := ⟨0, 0, none, 0, 0, 0, 0, 0, 0⟩

def retire (c : ExecutionCounters) (cycles : Nat) : ExecutionCounters :=
  { c with instructions := c.instructions.succ, cycles := c.cycles.add cycles }

def record (c : ExecutionCounters) (fault : Fault) : ExecutionCounters :=
  let c := { c with lastFault := some fault }
  match fault.kind.faultClass with
  | .decode => { c with decode := c.decode.succ }
  | .memory => { c with memory := c.memory.succ }
  | .paging => { c with paging := c.paging.succ }
  | .resource => { c with resource := c.resource.succ }
  | .consistency => { c with consistency := c.consistency.succ }
  | .process => { c with process := c.process.succ }

def totalFaults (c : ExecutionCounters) : Counter :=
  [c.memory, c.paging, c.resource, c.consistency, c.process].foldl
    (fun total n => total.add n.toNat) c.decode

end ExecutionCounters

end PagedMachine

import PagedMachine.Execution.Plan
import PagedMachine.Isa.Decoding

/-!
# Execution

Runs a planned instruction. At most one transfer is made, and it is the only
thing that can fault once there is a plan.
-/

namespace PagedMachine

def Plan.run : Plan → OnBus Effects
  | .done effects => return effects
  | .access transfer effects => return effects (← Bus.transfer transfer)

def ExecutionUnit.run (u : ExecutionUnit) (i : Instruction) (s : Registers) : OnBus Effects :=
  match u.plan? i s with
  | some plan => plan.run
  | none => throw (.invalidOpcode i.encode s.pc)

def Instruction.execute (i : Instruction) (s : Registers) : OnBus Effects := i.opcode.unit.run i s

def executeNext (s : Registers) : OnBus Effects := do
  let w ← Bus.fetch s.pc
  let i ← outcome (Instruction.decodeAt w s.pc)
  i.execute s

end PagedMachine

import PagedMachine.Execution.Cost
import PagedMachine.Register

/-!
# Effects

What an instruction does to the registers, collected first and committed when
nothing can fault any more.
-/

namespace PagedMachine

inductive ControlEffect where
  | none
  | halt
  | softwareInterrupt (number : Word)
  deriving DecidableEq, Repr

structure Effects where
  /-- In the order of commitment. -/
  writes : List (Register × Word)
  update : FlagsUpdate
  nextPc : Word
  cycles : Nat
  control : ControlEffect
  deriving DecidableEq, Repr

namespace Effects

def next (s : Registers) (cost : Cost) : Effects := ⟨[], .keep, s.pc + 4, cost.cycles, .none⟩

def commit (e : Effects) (s : Registers) : Registers :=
  { s.setAll e.writes with
    flags := e.update.apply s.flags
    pc := e.nextPc }

end Effects

end PagedMachine

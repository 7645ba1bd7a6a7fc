import PagedMachine.Execution.Execute
import PagedMachine.Machine.Counters

/-!
# The machine

Registers on a bus, with counters and a run state. A step that faults leaves the
registers as they are, so it can be tried again once the cause is mended.
-/

namespace PagedMachine

inductive RunState where
  | running
  /-- Nothing runs until the next reset. -/
  | halted
  | faulted (fault : Fault)
  deriving DecidableEq, Repr

structure Configuration where
  /-- Base and size of the window of virtual addresses. -/
  window : Word × Word
  ranges : PageRanges
  /-- Where the first program counter is found. -/
  resetVector : Word
  /-- Where a software interrupt goes; without it the run stops there. -/
  trapVector : Option Word
  privilege : Privilege
  /-- A first process is begun at once. -/
  initialProcess : Bool
  deriving DecidableEq, Repr

def Configuration.standard : Configuration where
  window := (0x400000, 0x400000)
  ranges := ⟨0, 191, 192, 255⟩
  resetVector := 0
  trapVector := none
  privilege := .kernel
  initialProcess := true

inductive StepOutcome where
  | retired (cycles : Nat)
  | halted
  | softwareInterrupt (number : Word)
  | fault (fault : Fault)
  deriving DecidableEq, Repr

inductive StopReason where
  | halted
  | budgetExhausted
  | softwareInterrupt (number : Word)
  | fault (fault : Fault)
  deriving DecidableEq, Repr

def StopReason.fault? : StopReason → Option Fault
  | .fault f => some f
  | _ => none

structure RunOutcome where
  reason : StopReason
  /-- Instructions retired during the run. -/
  executed : Counter
  cycles : Counter
  snapshot : Registers

structure Machine where
  config : Configuration
  registers : Registers
  runState : RunState
  bus : Bus
  counters : ExecutionCounters
  deriving DecidableEq

namespace Machine

def onBus {α : Type} : OnBus α → EStateM Fault Machine α :=
  focus fun ⟨config, registers, runState, bus, counters⟩ =>
    (bus, fun bus => ⟨config, registers, runState, bus, counters⟩)

/-- Clears registers and counters and takes the program counter from the reset
vector, or zero when that cannot be read. -/
def reset (m : Machine) : Machine :=
  let start := fun pc bus =>
    { m with
      registers := { Registers.zero with pc := pc }
      runState := .running
      bus := bus
      counters := .zero }
  match Bus.read m.config.resetVector .word { m.bus with privilege := m.config.privilege } with
  | .ok pc bus => start pc bus
  | .error _ bus => start 0 bus

def ofDevices (config : Configuration) (ram : Ram) (rom : Rom) (disk : Disk) :
    Except LayoutError Machine := do
  let bus ← Bus.ofDevices ram rom disk config.window config.ranges
  let paging :=
    if config.initialProcess then
      match PagedMemory.beginProcess bus.memory with
      | .ok _ memory => memory
      | .error _ memory => memory
    else bus.memory
  return reset ⟨config, .zero, .running, { bus with memory := paging }, .zero⟩

/-- Commits an instruction. A software interrupt goes to the trap vector, if
there is one, and leaves its return address in the link register. -/
def retire (m : Machine) (e : Effects) : StepOutcome × Machine :=
  let m := { m with
    registers := e.commit m.registers
    counters := m.counters.retire e.cycles
    runState := .running }
  match e.control with
  | .none => (.retired e.cycles, m)
  | .halt => (.halted, { m with runState := .halted })
  | .softwareInterrupt number =>
    match m.config.trapVector with
    | some vector =>
      (.retired e.cycles,
        { m with registers := { m.registers.set Register.link e.nextPc with pc := vector } })
    | none => (.softwareInterrupt number, m)

def step (m : Machine) : StepOutcome × Machine :=
  if m.runState = .halted then (.halted, m)
  else
    match onBus (executeNext m.registers) m with
    | .ok e m => retire m e
    | .error f m =>
      (.fault f, { m with counters := m.counters.record f, runState := .faulted f })

/-- Steps until something other than a plain instruction, at most `budget` times. -/
def steps : (budget : Nat) → Machine → StopReason × Machine
  | budget, m =>
    if m.runState = .halted then (.halted, m)
    else
      match budget with
      | 0 => (.budgetExhausted, m)
      | budget + 1 =>
        match m.step with
        | (.retired _, m) => steps budget m
        | (.halted, m) => (.halted, m)
        | (.softwareInterrupt number, m) => (.softwareInterrupt number, m)
        | (.fault f, m) => (.fault f, m)

def run (budget : Nat) (m : Machine) : RunOutcome × Machine :=
  let instructions := m.counters.instructions
  let cycles := m.counters.cycles
  let (reason, m) := steps budget m
  (⟨reason, m.counters.instructions - instructions, m.counters.cycles - cycles, m.registers⟩, m)

/-- Stores words from `base` up and makes the first one the next instruction. -/
def loadProgram (base : Word) (words : List Word) : EStateM Fault Machine Unit := do
  onBus (Bus.loadImage base (words.flatMap fun w => toBytes 4 w.toNat))
  modify fun m => { m with registers := { m.registers with pc := base }, runState := .running }

end Machine

end PagedMachine

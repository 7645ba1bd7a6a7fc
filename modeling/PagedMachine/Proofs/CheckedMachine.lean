import PagedMachine.Proofs.RunLoop
import PagedMachine.Proofs.CheckedUnits

/-!
# The checked machine

Steps, runs and resets, made of checked transfers and checked executions. A step
finds the memory backed and leaves it so, which carries the checks through runs
and from one operation of the host to the next. A run counts its steps in 64 bits,
and takes differences of counters that have only grown.
-/

namespace PagedMachine

open Checked

namespace Machine

/-! ## Steps -/

def checkedOnBus {α : Type} (c : Checked Bus α) : Checked Machine α :=
  focus (fun ⟨config, registers, runState, bus, counters⟩ =>
    (bus, fun bus => ⟨config, registers, runState, bus, counters⟩)) c

def checkedRetire (m : Machine) (e : Effects) : Option (StepOutcome × Machine) := do
  let registers ← e.checkedCommit m.registers
  let m := { m with
    registers := registers
    counters := m.counters.retire e.cycles
    runState := .running }
  match e.control with
  | .none => return (.retired e.cycles, m)
  | .halt => return (.halted, { m with runState := .halted })
  | .softwareInterrupt number =>
    match m.config.trapVector with
    | some vector =>
      let registers ← m.registers.checkedSet Register.link e.nextPc
      return (.retired e.cycles, { m with registers := { registers with pc := vector } })
    | none => return (.softwareInterrupt number, m)

def checkedStep (m : Machine) : Option (StepOutcome × Machine) :=
  if m.runState = .halted then some (.halted, m)
  else
    match (checkedOnBus (checkedExecuteNext m.registers)).run m with
    | .ok e m => checkedRetire m e
    | .error (.fault f) m =>
      some (.fault f, { m with counters := m.counters.record f, runState := .faulted f })
    | .error .outOfRange _ => none

def checkedSteps (executed : Nat) : (budget : Nat) → Machine → Option (StopReason × Machine)
  | budget, m =>
    if m.runState = .halted then some (.halted, m)
    else
      match budget with
      | 0 => some (.budgetExhausted, m)
      | budget + 1 => do
        let executed ← unsigned? 64 (executed + 1)
        match ← m.checkedStep with
        | (.retired _, m) => checkedSteps executed budget m
        | (.halted, m) => return (.halted, m)
        | (.softwareInterrupt number, m) => return (.softwareInterrupt number, m)
        | (.fault f, m) => return (.fault f, m)

def checkedRun (budget : Nat) (m : Machine) : Option (RunOutcome × Machine) := do
  let (reason, m') ← checkedSteps 0 budget m
  let executed ← unsigned? 64 (m'.counters.instructions.toNat - m.counters.instructions.toNat)
  let cycles ← unsigned? 64 (m'.counters.cycles.toNat - m.counters.cycles.toNat)
  return (⟨reason, UInt64.ofNat executed, UInt64.ofNat cycles, m'.registers⟩, m')

def checkedReset (m : Machine) : Option Machine :=
  let start := fun pc bus =>
    { m with
      registers := { Registers.zero with pc := pc }
      runState := .running
      bus := bus
      counters := .zero }
  match (Bus.checkedTransfer (.read m.config.resetVector .word)).run
    { m.bus with privilege := m.config.privilege } with
  | .ok pc bus => some (start pc bus)
  | .error (.fault _) bus => some (start 0 bus)
  | .error .outOfRange _ => none

def checkedLoadProgram (base : Word) (words : List Word) : Checked Machine Unit := do
  checkedOnBus (Bus.checkedLoadImage base (words.flatMap fun w => toBytes 4 w.toNat))
  modify fun m => { m with registers := { m.registers with pc := base }, runState := .running }

variable {m : Machine} {v : Virtual.Bus}

theorem passes_onBus {α : Type} {c : Checked Bus α} {x : OnBus α} (h : Passes c x m.bus) :
    Passes (checkedOnBus c) (onBus x) m :=
  Passes.focus h

theorem checkedRetire_eq (m : Machine) (e : Effects) : m.checkedRetire e = some (m.retire e) := by
  simp only [checkedRetire, e.checkedCommit_eq, Registers.checkedSet_eq, Option.bind_eq_bind,
    Option.bind_some, retire]
  cases e.control with
  | none => rfl
  | halt => rfl
  | softwareInterrupt number => cases m.config.trapVector <;> rfl

theorem backed (hr : m.bus.Represents v) : m.bus.memory.Backed :=
  ⟨hr.consistent, v.memory, hr.memory⟩

theorem checkedStep_eq (hr : m.bus.Represents v) : m.checkedStep = some m.step := by
  by_cases hhalted : m.runState = .halted
  · rw [checkedStep, step, if_pos hhalted, if_pos hhalted]
  · have hpasses := passes_onBus (passes_executeNext (backed hr) m.registers)
    obtain ⟨r, b', h⟩ := yields_exists (executeNext m.registers) m.bus
    rw [checkedStep, if_neg hhalted]
    cases r with
    | ok e =>
      rw [hpasses.ok (onBus_run h), step_ok hhalted h]
      exact checkedRetire_eq _ e
    | error f => rw [hpasses.error (onBus_run h), step_error hhalted h]

/-- Every step finds the memory backed, as the one before it has left it. -/
theorem checkedSteps_eq (budget : Nat) : ∀ {executed : Nat} {m : Machine} {v : Virtual.Bus},
    m.bus.Represents v → executed + budget < 2 ^ 64 →
    checkedSteps executed budget m = some (steps budget m) := by
  induction budget with
  | zero =>
    intro executed m v _ _
    unfold checkedSteps steps
    split <;> rfl
  | succ budget ih =>
    intro executed m v hr hlt
    unfold checkedSteps steps
    by_cases hhalted : m.runState = .halted
    · rw [if_pos hhalted, if_pos hhalted]
    · rw [if_neg hhalted, if_neg hhalted]
      have hcount : unsigned? 64 (executed + 1) = some (executed + 1) :=
        unsigned?_of_lt (by norm_cast) (by omega)
      simp only [hcount, checkedStep_eq hr, Option.bind_eq_bind, Option.bind_some]
      obtain ⟨⟨v', hr'⟩, -⟩ := step_kept hr
      generalize m.step = next at hr'
      obtain ⟨outcome, m'⟩ := next
      cases outcome with
      | retired cycles => exact ih hr' (by omega)
      | halted | softwareInterrupt | fault => rfl

theorem checkedRun_eq (hr : m.bus.Represents v) {budget : Nat} (hlt : budget < 2 ^ 64) :
    checkedRun budget m = some (run budget m) := by
  obtain ⟨instructions, cycles, hinstructions, hcycles⟩ := steps_counters budget m
  have hdifference : ∀ (c : Counter) (n : Nat),
      unsigned? 64 ((c.add n).toNat - c.toNat) = some (c.add n - c).toNat := by
    intro c n
    have hle := UInt64.le_iff_toNat_le.mp (c.le_add n)
    have hsub := c.toNat_add_sub n
    exact unsigned?_of_lt (by omega) (c.add n - c).toNat_lt
  simp only [checkedRun, checkedSteps_eq budget hr (by omega : 0 + budget < 2 ^ 64),
    Option.bind_eq_bind,
    Option.bind_some, hinstructions, hcycles, hdifference, UInt64.ofNat_toNat, run]
  rfl

theorem checkedReset_eq (hr : m.bus.Represents v) : m.checkedReset = some m.reset := by
  have hbacked : PagedMemory.Backed { m.bus with privilege := m.config.privilege }.memory :=
    backed hr
  have hpasses := Bus.passes_transfer (.read m.config.resetVector .word) hbacked
  obtain ⟨r, b', h⟩ := yields_exists (Bus.transfer (.read m.config.resetVector .word))
    { m.bus with privilege := m.config.privilege }
  unfold checkedReset reset
  cases r with
  | ok pc =>
    have hread :
        Bus.read m.config.resetVector .word { m.bus with privilege := m.config.privilege } =
        .ok pc b' := h
    rw [hpasses.ok h, hread]
  | error f =>
    have hread :
        Bus.read m.config.resetVector .word { m.bus with privilege := m.config.privilege } =
        .error f b' := h
    rw [hpasses.error h, hread]

end Machine

/-! ## Operations of the host -/

namespace MachineOperation

open Machine

def checkedChange (f : Machine → Option Machine) : Checked Machine Answer := do
  set (← defined (f (← get)))
  return .done

def checked : MachineOperation → Checked Machine Answer
  | host op => checkedOnBus op.checked
  | step => checkedChange fun m => m.checkedStep.map Prod.snd
  | run budget => checkedChange fun m => (m.checkedRun budget).map Prod.snd
  | reset => checkedChange checkedReset
  | loadProgram base words => (fun _ => .done) <$> checkedLoadProgram base words
  | setRegister r value => checkedChange fun m =>
    (m.registers.checkedSet r value).map ({ m with registers := · })
  | setPc value => lift (setPc value).perform
  | setFlags value => lift (setFlags value).perform
  | setFlag mask on => lift (setFlag mask on).perform

def Sized : MachineOperation → Prop
  | host op => op.Sized
  | run budget => budget < 2 ^ 64
  | _ => True

theorem passes_change {f : Machine → Option Machine} {g : Machine → Machine} {m : Machine}
    (h : f m = some (g m)) : Passes (checkedChange f) (change g) m := by
  change (checkedChange f).run m = _
  have hchange :
      checkedChange f m = (do set (← defined (f m)); return .done : Checked Machine Answer) m := rfl
  change checkedChange f m = _
  rw [hchange, h]
  rfl

theorem passes_perform {m : Machine} {v : Virtual.Bus} (hr : m.bus.Represents v)
    {op : MachineOperation} (hop : op.Sized) : Passes op.checked op.perform m := by
  cases op with
  | host op => exact passes_onBus (Bus.passes_host (backed hr) hop)
  | step => exact passes_change (by rw [checkedStep_eq hr]; rfl)
  | run budget => exact passes_change (by rw [checkedRun_eq hr hop]; rfl)
  | reset => exact passes_change (checkedReset_eq hr)
  | loadProgram base words =>
    exact ((passes_onBus (Bus.passes_loadImage (backed hr) base _)).bind fun _ m' _ =>
      passes_modify _ m').map _
  | setRegister r value => exact passes_change (by rw [Registers.checkedSet_eq]; rfl)
  | setPc | setFlags | setFlag => rfl

end MachineOperation

/-! ## Runs -/

namespace Machine

end Machine

/-! ## A program from the reset on

A program in ROM computes an address and a byte, stores the byte in a page and halts.
-/

namespace BootedProgram

open PagedMemory TwoReaders Machine

/-- `nop`, `movt x1, #0x40`, `lsr x2, x1, #17`, `mul x3, x1, x2`, `sdiv x4, x3, x2`,
`strb x2, [x1, #16]` and `hlt`. -/
def program : Rom :=
  .ofBytes 0 [0x00, 0x00, 0x00, 0x00, 0x40, 0x00, 0x04, 0x22, 0x11, 0x40, 0x48, 0x41, 0x00, 0x48,
  0x0C, 0x1A, 0x00, 0xC8, 0x10, 0x1E, 0x10, 0x70, 0x08, 0x57, 0x00, 0x00, 0x00, 0x01]

def layout : RegionMap :=
  ⟨[⟨.rom, 0, 27⟩, ⟨.mapped, 0x400000, 0x7FFFFF⟩, ⟨.ram, 0x10000000, 0x10007FFF⟩]⟩

def configuration : Configuration := ⟨window, ranges, 0, none, .kernel, true⟩

def machine (m : PagedMemory) (s : Registers) (c : ExecutionCounters) : Machine :=
  ⟨configuration, s, .running, ⟨m, program, layout, .kernel⟩, c⟩

/-! ### One instruction -/

structure Next (s : Registers) (w : Word) (i : Instruction) : Prop where
  region : layout.regionOf? s.pc = some ⟨.rom, 0, 27⟩
  holds : (⟨.rom, 0, 27⟩ : Region).holds s.pc .word = true
  word : program.read s.pc .word = .ok w
  decode : Instruction.decodeAt w s.pc = .ok i

section
variable {m : PagedMemory} {s s' : Registers} {c c' : ExecutionCounters} {w : Word}
    {i : Instruction}

theorem Next.executes {r : Except Fault Effects} {b : Bus} (h : Next s w i)
    (hexecute : Yields (i.execute s) ⟨m, program, layout, .kernel⟩ r b) :
    Yields (executeNext s) ⟨m, program, layout, .kernel⟩ r b := by
  have hfetch : Yields (Bus.fetch s.pc) ⟨m, program, layout, .kernel⟩ (.ok w) ⟨m, program, layout,
      .kernel⟩ := by
    rw [← h.word]
    exact Bus.transfer_rom (t := .fetch s.pc) h.region rfl h.holds rfl
  have hdecode :
      Yields (outcome (Instruction.decodeAt w s.pc)) (⟨m, program, layout, .kernel⟩ : Bus) (.ok i)
      ⟨m, program, layout, .kernel⟩ := outcome_ok h.decode _
  exact hfetch.bind_ok (hdecode.bind_ok hexecute)

theorem running (m : PagedMemory) (s : Registers) (c : ExecutionCounters) :
    (machine m s c).runState ≠ .halted :=
  (nofun : RunState.running ≠ .halted)

theorem Next.step {e : Effects} (h : Next s w i)
    (hplan : i.opcode.unit.plan? i s = some (.done e)) :
    (machine m s c).step = Machine.retire (machine m s c) e := by
  have hexecute :
      Yields (i.execute s) ⟨m, program, layout, .kernel⟩ (.ok e) ⟨m, program, layout, .kernel⟩ := by
    rw [Instruction.execute, ExecutionUnit.run, hplan]
    rfl
  exact Machine.step_ok (running m s c) (h.executes hexecute)

theorem Next.steps {e : Effects} {cycles : Nat} (h : Next s w i)
    (hplan : i.opcode.unit.plan? i s = some (.done e))
    (hretire : Machine.retire (machine m s c) e = (.retired cycles, machine m s' c'))
    (budget : Nat) :
    Machine.steps (budget + 1) (machine m s c) = Machine.steps budget (machine m s' c') := by
  rw [Machine.steps_succ budget (running m s c), h.step hplan, hretire]
  rfl

end

/-! ### All of them -/

def moved : Registers := Registers.zero.set TornStore.x1 0x400000

def shifted : Registers := moved.set ⟨2, by decide⟩ 0x20

def multiplied : Registers := shifted.set ⟨3, by decide⟩ 0x8000000

def divided : Registers := multiplied.set ⟨4, by decide⟩ 0x400000

def atStore (m : PagedMemory) : Machine :=
  machine m { divided with pc := 20 }
    { ExecutionCounters.zero with instructions := 5, cycles := 18 }

theorem steps_booted (m : PagedMemory) :
    Machine.steps 5 (machine m .zero .zero) = (.budgetExhausted, atStore m) := by
  have hnop : Next .zero 0 ⟨.nop, .control 0⟩ := ⟨rfl, rfl, rfl, rfl⟩
  have hmovt : Next { Registers.zero with pc := 4 } 0x22040040 ⟨.movt, .moveTop 1 0x40⟩ :=
    ⟨rfl, rfl, rfl, rfl⟩
  have hlsr : Next { moved with pc := 8 } 0x41484011 ⟨.lsr, .shift false 2 1 (.immediate 17)⟩ :=
    ⟨rfl, rfl, rfl, rfl⟩
  have hmul :
      Next { shifted with pc := 12 } 0x1A0C4800 ⟨.mul, .dataProcessing false 3 1 (.plain 2)⟩ :=
    ⟨rfl, rfl, rfl, rfl⟩
  have hsdiv : Next { multiplied with pc := 16 } 0x1E10C800
      ⟨.sdiv, .dataProcessing false 4 3 (.plain 2)⟩ :=
    ⟨rfl, rfl, rfl, rfl⟩
  calc Machine.steps 5 (machine m .zero .zero)
    _ = Machine.steps 4 (machine m { Registers.zero with pc := 4 }
          { ExecutionCounters.zero with instructions := 1, cycles := 1 }) := hnop.steps rfl rfl 4
    _ = Machine.steps 3 (machine m { moved with pc := 8 }
          { ExecutionCounters.zero with instructions := 2, cycles := 2 }) := hmovt.steps rfl rfl 3
    _ = Machine.steps 2 (machine m { shifted with pc := 12 }
          { ExecutionCounters.zero with instructions := 3, cycles := 3 }) := hlsr.steps rfl rfl 2
    _ = Machine.steps 1 (machine m { multiplied with pc := 16 }
          { ExecutionCounters.zero with instructions := 4, cycles := 6 }) := hmul.steps rfl rfl 1
    _ = Machine.steps 0 (atStore m) := hsdiv.steps rfl rfl 0
    _ = (.budgetExhausted, atStore m) := Machine.steps_zero (running _ _ _)

def stored : PagedMemory :=
  { mappedAs disk TwoReaders.ram .readWrite with
    ram := (TwoReaders.ram.patch 0 zeroPage).patch 0x10 [0x20] }

def atHalt : Machine :=
  machine stored { divided with pc := 24 }
    { ExecutionCounters.zero with instructions := 6, cycles := 20 }

def halted : Machine :=
  { machine stored { divided with pc := 28 }
      { ExecutionCounters.zero with instructions := 7, cycles := 21 } with
    runState := .halted }

theorem step_store :
    (atStore (mappedAs disk TwoReaders.ram .readWrite)).step = (.retired 2, atHalt) := by
  have hnext : Next { divided with pc := 20 } 0x57087010
      ⟨.strb, .memory .offset 2 1 (.immediate 0x10) true⟩ :=
    ⟨rfl, rfl, rfl, rfl⟩
  have hexecute : Instruction.execute
      ⟨.strb, .memory .offset 2 1 (.immediate 0x10) true⟩ { divided with pc := 20 } =
      (fun _ => Effects.next { divided with pc := 20 } .store) <$>
        Bus.transfer (.write 0x400010 .byte 0x20) := rfl
  have hregion : layout.regionOf? 0x400010 = some ⟨.mapped, 0x400000, 0x7FFFFF⟩ := rfl
  have hbase : (mappedAs disk TwoReaders.ram .readWrite).ram.base = TwoReaders.ram.base :=
    ByteStore.base_patch ..
  have hsize : (mappedAs disk TwoReaders.ram .readWrite).ram.size = TwoReaders.ram.size :=
    ByteStore.size_patch ..
  have hfits : (mappedAs disk TwoReaders.ram .readWrite).ram.base.toNat +
      (mappedAs disk TwoReaders.ram .readWrite).ram.size ≤ 2 ^ 32 := by
    rw [hbase, hsize]
    exact ram_fits.1
  have hframe : 0 < Ram.pageCount (mappedAs disk TwoReaders.ram .readWrite).ram := by
    rw [Ram.pageCount_congr hsize]
    exact ram_fits.2
  have htransfer :=
    Bus.transfer_byte (b := ⟨mappedAs disk TwoReaders.ram .readWrite, program, layout, .kernel⟩)
      (mappedAs disk TwoReaders.ram .readWrite) 0x400010 0x20 0 0x10 hregion rfl rfl rfl
      (by decide) (by decide) hfits hframe rfl
  have hstored : Yields (Instruction.execute ⟨.strb, .memory .offset 2 1 (.immediate 0x10) true⟩
      { divided with pc := 20 }) ⟨mappedAs disk TwoReaders.ram .readWrite, program, layout, .kernel⟩
      (.ok (Effects.next { divided with pc := 20 } .store)) ⟨stored, program, layout, .kernel⟩ := by
    rw [hexecute]
    exact map_ok htransfer
  exact (Machine.step_ok (running _ _ _) (hnext.executes hstored)).trans rfl

theorem steps_halt : Machine.steps 1 atHalt = (.halted, halted) := by
  have hnext : Next { divided with pc := 24 } 0x01000000 ⟨.hlt, .control 0⟩ := ⟨rfl, rfl, rfl, rfl⟩
  have hstep : atHalt.step = (.halted, halted) := (hnext.step rfl).trans rfl
  have hrunning : atHalt.runState ≠ .halted := running stored _ _
  rw [Machine.steps_succ 0 hrunning, hstep]
  rfl

/-! ### Under a host -/

def booted : Machine := machine (begun disk TwoReaders.ram) .zero .zero

def events : List (Event Machine MachineOperation Answer) :=
  [⟨.host (.bus (.paging (.addPage 0x400 .readWrite false))), .ok .done,
      machine (mappedAs disk TwoReaders.ram .readWrite) .zero .zero⟩,
    ⟨.run 5, .ok .done, atStore (mappedAs disk TwoReaders.ram .readWrite)⟩,
    ⟨.step, .ok .done, atHalt⟩, ⟨.run 1, .ok .done, halted⟩]

theorem ofRanges : RegionMap.ofRanges (program.base, UInt32.ofNat program.size)
    (TwoReaders.ram.base, UInt32.ofNat TwoReaders.ram.size) window = .ok layout := by
  rw [size_ram]
  exact ofRanges_below 28 (by decide) (by decide)

theorem ofDevices : Machine.ofDevices configuration TwoReaders.ram program disk = .ok booted := by
  have hreset : Machine.reset booted = booted := by
    have hword : program.read 0 .word = .ok 0 := rfl
    have hregion : layout.regionOf? 0 = some ⟨.rom, 0, 27⟩ := rfl
    have hvector : Yields (Bus.transfer (.read 0 .word))
        ⟨begun disk TwoReaders.ram, program, layout, .kernel⟩ (.ok 0)
        ⟨begun disk TwoReaders.ram, program, layout, .kernel⟩ := by
      rw [← hword]
      exact Bus.transfer_rom (t := .read 0 .word) hregion rfl rfl rfl
    have hread : Bus.read 0 .word ⟨begun disk TwoReaders.ram, program, layout, .kernel⟩ = .ok 0 _ :=
      hvector
    unfold Machine.reset
    simp only [booted, machine, configuration, hread]
    rfl
  have hbuilt := Machine.ofDevices_of_begin configuration
    (bus_ofDevices_of_layout ofRanges) rfl (TornStore.begin_ok disk TwoReaders.ram)
  exact hbuilt.trans (congrArg Except.ok hreset)

theorem run_of_steps {budget : Nat} {m m' : Machine} {reason : StopReason}
    (h : Machine.steps budget m = (reason, m')) :
    (MachineOperation.run budget).Step m (.ok .done) m' := by
  have hrun : (m.run budget).2 = m' := by rw [Machine.run_eq, h]
  rw [← hrun]
  rfl

theorem run : Run MachineOperation.Step booted events halted := by
  have hadd :
      (PagingOperation.addPage 0x400 .readWrite false).Step (begun disk TwoReaders.ram) (.ok .done)
      (mappedAs disk TwoReaders.ram .readWrite) :=
        step_addPageAs disk TwoReaders.ram rfl ram_fits.1 ram_fits.2
  have hstore : MachineOperation.step.Step (atStore (mappedAs disk TwoReaders.ram .readWrite))
      (.ok .done) atHalt := by
    have hstep := congrArg Prod.snd step_store
    change (atStore (mappedAs disk TwoReaders.ram .readWrite)).step.2 = atHalt at hstep
    rw [← hstep]
    rfl
  refine .next ?_ (.next (run_of_steps (steps_booted _))
    (.next hstore (.next (run_of_steps steps_halt) (.done _))))
  exact Machine.onBus_run (m := booted)
    (Bus.onMemory_ok (b := ⟨begun disk TwoReaders.ram, program, layout, .kernel⟩) hadd)

theorem withinCounts : ∀ e ∈ events, WithinCounts e.state.bus.memory := by
  intro e he
  apply withinCounts_of_size
  simp only [events, List.mem_cons, List.not_mem_nil, or_false] at he
  rcases he with rfl | rfl | rfl | rfl <;> exact (by decide : 1 ≤ maxRefs)

end BootedProgram
end PagedMachine

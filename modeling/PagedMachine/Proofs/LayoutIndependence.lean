import Mathlib.Algebra.GroupWithZero.Nat
import PagedMachine.Proofs.Determinism
import PagedMachine.Proofs.FaultingSteps
import PagedMachine.Proofs.MachineLayout
import PagedMachine.Proofs.SameView
import PagedMachine.Proofs.Separation

/-!
# Execution does not depend on the layout

An instruction reaches memory by one fetch and at most one more transfer. On two
buses over one virtual memory these have one answer, unless pages run out or RAM is
addressed as such. So two machines with one view of memory run alike, wherever their
pages are, and a page that is moved out between two instructions is not missed.
-/

namespace PagedMachine

/-! ## Transfers -/

namespace Bus

def Matched (b c : Bus) : Prop := ∃ v w, b.Represents v ∧ c.Represents w ∧ v.Alike w

variable {b c b' c' : Bus} {t : Transfer} {s : Registers}

theorem Matched.transfer {r r' : Except Fault Word} (h : Matched b c)
    (hram : ¬ b.regions.RamServes t) (hb : Yields (transfer t) b r b')
    (hc : Yields (transfer t) c r' c') (hr : Supplied r) (hr' : Supplied r') :
    r = r' ∧ Matched b' c' := by
  obtain ⟨v, w, hv, hw, halike⟩ := h
  obtain ⟨_, _, v', hx, hxv, hv', -⟩ := mirrors_transfer hv t
  obtain ⟨_, _, w', hy, hyw, hw', -⟩ := mirrors_transfer hw t
  obtain ⟨rfl, rfl⟩ := hb.unique hx
  obtain ⟨rfl, rfl⟩ := hc.unique hy
  rw [← hv.regions] at hram
  obtain ⟨rfl, halike'⟩ := Virtual.Bus.coincide_transfer halike hram _ _ _ _ hxv hyw hr hr'
  exact ⟨rfl, v', w', hv', hw', halike'⟩

/-! ## Instructions -/

/-- The transfers of the instruction at the program counter: its fetch, and what it does then. -/
inductive Makes (b : Bus) (s : Registers) : Transfer → Prop
  | fetch : Makes b s (.fetch s.pc)
  | access {w : Word} {b' : Bus} {i : Instruction} {t : Transfer} {effects : Word → Effects} :
      Yields (Bus.fetch s.pc) b (.ok w) b' → Instruction.decodeAt w s.pc = .ok i →
      i.opcode.unit.plan? i s = some (.access t effects) → Makes b s t

variable {r r' : Except Fault Effects}

theorem Matched.execute {i : Instruction} (h : Matched b c)
    (hram : ∀ t effects, i.opcode.unit.plan? i s = some (.access t effects) →
      ¬ b.regions.RamServes t) (hb : Yields (i.execute s) b r b')
      (hc : Yields (i.execute s) c r' c') (hr : Supplied r) (hr' : Supplied r') :
    r = r' ∧ Matched b' c' := by
  unfold Instruction.execute ExecutionUnit.run at hb hc
  cases hplan : i.opcode.unit.plan? i s with
  | none =>
    rw [hplan] at hb hc
    obtain ⟨rfl, rfl⟩ := hb.of_throw
    obtain ⟨rfl, rfl⟩ := hc.of_throw
    exact ⟨rfl, h⟩
  | some plan =>
    rw [hplan] at hb hc
    cases plan with
    | done e =>
      obtain ⟨rfl, rfl⟩ := Yields.of_pure hb
      obtain ⟨rfl, rfl⟩ := Yields.of_pure hc
      exact ⟨rfl, h⟩
    | access t effects =>
      obtain ⟨r₁, rfl, hx⟩ := Yields.of_map (g := effects) hb
      obtain ⟨r₂, rfl, hy⟩ := Yields.of_map (g := effects) hc
      obtain ⟨rfl, h'⟩ := h.transfer (hram t effects hplan) hx hy hr.of_map hr'.of_map
      exact ⟨rfl, h'⟩

theorem Matched.executeNext (h : Matched b c) (hram : ∀ t, b.Makes s t → ¬ b.regions.RamServes t)
    (hb : Yields (executeNext s) b r b') (hc : Yields (executeNext s) c r' c') (hr : Supplied r)
    (hr' : Supplied r') : r = r' ∧ Matched b' c' := by
  have hfetch := hram _ .fetch
  rcases hb.of_bind with ⟨w, b₁, hx, hrest⟩ | ⟨e, rfl, hx⟩ <;>
    rcases hc.of_bind with ⟨w', c₁, hy, hrest'⟩ | ⟨e', rfl, hy⟩
  · obtain ⟨⟨⟩, h₁⟩ := h.transfer hfetch hx hy nofun nofun
    rcases hrest.of_outcome_bind with ⟨i, hi, hexecute⟩ | ⟨⟨e, he, rfl⟩, rfl⟩ <;>
      rcases hrest'.of_outcome_bind with ⟨i', hi', hexecute'⟩ | ⟨⟨e', he', rfl⟩, rfl⟩
    · obtain rfl := Except.ok.inj (hi.symm.trans hi')
      refine h₁.execute (fun t effects hplan => ?_) hexecute hexecute' hr hr'
      obtain ⟨m, rfl⟩ := transfer_frame hx
      exact hram t (.access hx hi hplan)
    · cases hi.symm.trans he'
    · cases he.symm.trans hi'
    · obtain rfl := Except.error.inj (he.symm.trans he')
      exact ⟨rfl, h₁⟩
  · cases (h.transfer hfetch hx hy nofun hr'.error).1
  · cases (h.transfer hfetch hx hy hr.error nofun).1
  · obtain ⟨⟨⟩, h₁⟩ := h.transfer hfetch hx hy hr.error hr'.error
    exact ⟨rfl, h₁⟩

end Bus

/-! ## Counters -/

def ExecutionCounters.charge (c : ExecutionCounters) (costs : List Nat) (fault : Option Fault) :
    ExecutionCounters :=
  fault.elim (costs.foldl .retire c) (costs.foldl .retire c).record

def Counter.Full (c : Counter) : Prop := c.toNat = 2 ^ 64 - 1

theorem Counter.add_zero (c : Counter) : c.add 0 = c := by
  apply UInt64.toNat_inj.mp
  have := c.toNat_lt
  rw [toNat_add]
  omega

theorem Counter.add_add (c : Counter) (m n : Nat) : (c.add m).add n = c.add (m + n) := by
  apply UInt64.toNat_inj.mp
  rw [toNat_add, toNat_add, toNat_add]
  omega

/-- What was counted, if the counter could hold it. -/
theorem Counter.add_sub (c : Counter) (n : Nat) (h : ¬ (c.add n).Full) :
    c.add n - c = UInt64.ofNat n := by
  have hadd := c.toNat_add n
  have hlt := c.toNat_lt
  rw [Full, hadd] at h
  apply UInt64.toNat_inj.mp
  rw [UInt64.toNat_sub, hadd, UInt64.toNat_ofNat']
  omega

theorem ExecutionCounters.foldl_retire (costs : List Nat) : ∀ c : ExecutionCounters,
    (costs.foldl retire c).instructions = c.instructions.add costs.length ∧
      (costs.foldl retire c).cycles = c.cycles.add costs.sum := by
  induction costs with
  | nil => exact fun c => ⟨c.instructions.add_zero.symm, c.cycles.add_zero.symm⟩
  | cons cost costs ih =>
    intro c
    obtain ⟨hinstructions, hcycles⟩ := ih (c.retire cost)
    rw [List.foldl_cons, hinstructions, hcycles, List.length_cons, List.sum_cons,
      Nat.add_comm costs.length, ← Counter.add_add, ← Counter.add_add]
    exact ⟨rfl, rfl⟩

/-- Instructions and their cycles are counted, and faults do not count as such. -/
theorem ExecutionCounters.charge_counts (c : ExecutionCounters) (costs : List Nat)
    (fault : Option Fault) :
    (c.charge costs fault).instructions = c.instructions.add costs.length ∧
      (c.charge costs fault).cycles = c.cycles.add costs.sum := by
  cases fault with
  | none => exact foldl_retire costs c
  | some f =>
    obtain ⟨hinstructions, hcycles, -⟩ := (costs.foldl retire c).record_frame f
    rw [charge, Option.elim_some, hinstructions, hcycles]
    exact foldl_retire costs c

/-! ## Steps -/

def StepOutcome.stop? : StepOutcome → Option StopReason
  | .retired _ => none
  | .halted => some .halted
  | .softwareInterrupt number => some (.softwareInterrupt number)
  | .fault f => some (.fault f)

def StepOutcome.fault? (out : StepOutcome) : Option Fault := out.stop?.bind StopReason.fault?

def StopReason.Supplied (reason : StopReason) : Prop :=
  ∀ pool, reason ≠ .fault (.resourceExhausted pool)

namespace Machine

structure Matched (m₁ m₂ : Machine) : Prop where
  trapVector : m₁.config.trapVector = m₂.config.trapVector
  registers : m₁.registers = m₂.registers
  runState : m₁.runState = m₂.runState
  bus : Bus.Matched m₁.bus m₂.bus

/-- What was charged between the two, and between the other two, is the same. -/
def Charges (m₁ m₁' m₂ m₂' : Machine) (fault : Option Fault) : Prop :=
  ∃ costs, m₁'.counters = m₁.counters.charge costs fault ∧
    m₂'.counters = m₂.counters.charge costs fault

variable {m m' m₁ m₂ : Machine}

theorem Matched.retire (h : Matched m₁ m₂) (e : Effects) :
    (retire m₁ e).1 = (retire m₂ e).1 ∧ Matched (retire m₁ e).2 (retire m₂ e).2 := by
  unfold Machine.retire
  dsimp only
  rw [h.registers, ← h.trapVector]
  cases e.control with
  | none => exact ⟨rfl, h.trapVector, rfl, rfl, h.bus⟩
  | halt => exact ⟨rfl, h.trapVector, rfl, rfl, h.bus⟩
  | softwareInterrupt number =>
    dsimp only
    split
    · exact ⟨rfl, h.trapVector, rfl, rfl, h.bus⟩
    · exact ⟨rfl, h.trapVector, rfl, rfl, h.bus⟩

theorem retire_charge (m : Machine) (e : Effects) :
    (Machine.retire m e).2.counters = m.counters.charge [e.cycles]
    (Machine.retire m e).1.fault? := by
  unfold Machine.retire
  dsimp only
  split
  · rfl
  · rfl
  · split <;> rfl

def SparesRam (m : Machine) : Prop := ∀ t, m.bus.Makes m.registers t → ¬ m.bus.regions.RamServes t

theorem supplied_of_step (hrunning : m.runState ≠ .halted) {r : Except Fault Effects} {b : Bus}
    (h : Yields (executeNext m.registers) m.bus r b)
    (hs : ∀ reason, m.step.1.stop? = some reason → reason.Supplied) : Supplied r := by
  rintro pool rfl
  rw [step_error hrunning h] at hs
  exact hs _ rfl pool rfl

/-- Both take the same step, unless one of them runs out of pages. -/
theorem Matched.step (h : Matched m₁ m₂) (hram : m₁.SparesRam)
    (hs₁ : ∀ reason, m₁.step.1.stop? = some reason → reason.Supplied)
    (hs₂ : ∀ reason, m₂.step.1.stop? = some reason → reason.Supplied) :
    m₁.step.1 = m₂.step.1 ∧ Matched m₁.step.2 m₂.step.2 ∧
    Charges m₁ m₁.step.2 m₂ m₂.step.2 m₁.step.1.fault? := by
  by_cases hhalted : m₁.runState = .halted
  · have hstep₁ : m₁.step = (.halted, m₁) := if_pos hhalted
    have hstep₂ : m₂.step = (.halted, m₂) := if_pos (h.runState ▸ hhalted)
    rw [hstep₁, hstep₂]
    exact ⟨rfl, h, [], rfl, rfl⟩
  · have hhalted₂ : m₂.runState ≠ .halted := h.runState ▸ hhalted
    obtain ⟨r₁, b₁, hx⟩ := yields_exists (executeNext m₁.registers) m₁.bus
    obtain ⟨r₂, b₂, hy⟩ := yields_exists (executeNext m₂.registers) m₂.bus
    obtain ⟨rfl, hbus⟩ :=
      h.bus.executeNext hram hx (h.registers ▸ hy) (supplied_of_step hhalted hx hs₁)
      (supplied_of_step hhalted₂ hy hs₂)
    cases r₁ with
    | ok e =>
      have hmatched : Matched { m₁ with bus := b₁ } { m₂ with bus := b₂ } :=
        ⟨h.trapVector, h.registers, h.runState, hbus⟩
      obtain ⟨hout, hretired⟩ := hmatched.retire e
      rw [step_ok hhalted hx, step_ok hhalted₂ hy]
      exact ⟨hout, hretired, [e.cycles], retire_charge _ e, hout ▸ retire_charge _ e⟩
    | error f =>
      rw [step_error hhalted hx, step_error hhalted₂ hy]
      exact ⟨rfl, ⟨h.trapVector, h.registers, rfl, hbus⟩, [], rfl, rfl⟩

/-! ## Runs -/

/-- No instruction that is run within the budget transfers anything to RAM or from it. -/
def OffRam : (budget : Nat) → Machine → Prop
  | 0, _ => True
  | budget + 1, m =>
    m.runState = .halted ∨ m.SparesRam ∧ (m.step.1.stop? = none → OffRam budget m.step.2)

theorem steps_halted (budget : Nat) (h : m.runState = .halted) : steps budget m = (.halted, m) := by
  unfold Machine.steps
  rw [if_pos h]

theorem steps_zero (h : m.runState ≠ .halted) : steps 0 m = (.budgetExhausted, m) := by
  unfold Machine.steps
  rw [if_neg h]

theorem steps_succ (budget : Nat) (h : m.runState ≠ .halted) : steps (budget + 1) m =
    match m.step.1.stop? with
    | none => steps budget m.step.2
    | some reason => (reason, m.step.2) := by
  rw [Machine.steps.eq_def]
  dsimp only
  rw [if_neg h]
  obtain ⟨out, m'⟩ := m.step
  cases out <;> rfl

theorem supplied_of_steps {budget : Nat} (h : m.runState ≠ .halted)
    (hs : (steps (budget + 1) m).1.Supplied) (reason : StopReason)
    (hstop : m.step.1.stop? = some reason) : reason.Supplied := by
  rwa [steps_succ budget h, hstop] at hs

theorem Charges.trans {m₁' m₂' m₁'' m₂'' : Machine} {fault : Option Fault}
    (h : Charges m₁ m₁' m₂ m₂' none) (h' : Charges m₁' m₁'' m₂' m₂'' fault) :
    Charges m₁ m₁'' m₂ m₂'' fault := by
  obtain ⟨costs, h₁, h₂⟩ := h
  obtain ⟨costs', h₁', h₂'⟩ := h'
  have happend : ∀ c : ExecutionCounters,
      (c.charge costs none).charge costs' fault = c.charge (costs ++ costs') fault := by
    intro c
    rw [ExecutionCounters.charge, ExecutionCounters.charge, ExecutionCounters.charge,
      Option.elim_none, List.foldl_append]
  exact ⟨costs ++ costs', by rw [h₁', h₁, happend], by rw [h₂', h₂, happend]⟩

/-- Both run alike, unless one of them stops for want of pages. -/
theorem Matched.steps (budget : Nat) : ∀ {m₁ m₂ : Machine}, Matched m₁ m₂ → m₁.OffRam budget →
    (steps budget m₁).1.Supplied → (steps budget m₂).1.Supplied →
      (steps budget m₁).1 = (steps budget m₂).1 ∧ Matched (steps budget m₁).2 (steps budget m₂).2 ∧
        Charges m₁ (steps budget m₁).2 m₂ (steps budget m₂).2 (steps budget m₁).1.fault? := by
  induction budget with
  | zero =>
    intro m₁ m₂ h _ _ _
    by_cases hhalted : m₁.runState = .halted
    · rw [steps_halted 0 hhalted, steps_halted 0 (h.runState ▸ hhalted)]
      exact ⟨rfl, h, [], rfl, rfl⟩
    · rw [steps_zero hhalted, steps_zero (h.runState ▸ hhalted)]
      exact ⟨rfl, h, [], rfl, rfl⟩
  | succ budget ih =>
    intro m₁ m₂ h hoff hs₁ hs₂
    by_cases hhalted : m₁.runState = .halted
    · rw [steps_halted _ hhalted, steps_halted _ (h.runState ▸ hhalted)]
      exact ⟨rfl, h, [], rfl, rfl⟩
    · have hhalted₂ : m₂.runState ≠ .halted := h.runState ▸ hhalted
      obtain ⟨hram, hrest⟩ := hoff.resolve_left hhalted
      -- the step stops on both sides or on neither
      obtain ⟨hout, hmatched, hcharges⟩ :=
        h.step hram (supplied_of_steps hhalted hs₁) (supplied_of_steps hhalted₂ hs₂)
      rw [steps_succ budget hhalted] at hs₁ ⊢
      rw [steps_succ budget hhalted₂, ← hout] at hs₂ ⊢
      cases hstop : m₁.step.1.stop? with
      | none =>
        rw [hstop] at hs₁ hs₂
        rw [StepOutcome.fault?, hstop] at hcharges
        obtain ⟨hreason, hmatched', hcharges'⟩ := ih hmatched (hrest hstop) hs₁ hs₂
        exact ⟨hreason, hmatched', hcharges.trans hcharges'⟩
      | some reason =>
        rw [StepOutcome.fault?, hstop] at hcharges
        exact ⟨rfl, hmatched, hcharges⟩

/-! ## Runs with a break -/

theorem steps_going {i : Nat} (h : steps (i + 1) m = (.budgetExhausted, m')) :
    m.runState ≠ .halted ∧ m.step.1.stop? = none ∧ steps i m.step.2 = (.budgetExhausted, m') := by
  have hrunning : m.runState ≠ .halted := by
    intro hhalted
    rw [steps_halted _ hhalted] at h
    cases h
  rw [steps_succ i hrunning] at h
  refine ⟨hrunning, ?_⟩
  cases hstop : m.step.1.stop? with
  | none => exact ⟨rfl, by rwa [hstop] at h⟩
  | some reason =>
    rw [hstop] at h
    obtain ⟨rfl, -⟩ := Prod.mk.inj h
    unfold StepOutcome.stop? at hstop
    split at hstop <;> cases hstop

theorem steps_zero_going (h : steps 0 m = (.budgetExhausted, m')) :
    m.runState ≠ .halted ∧ m' = m := by
  by_cases hhalted : m.runState = .halted
  · rw [steps_halted 0 hhalted] at h
    cases h
  · rw [steps_zero hhalted] at h
    exact ⟨hhalted, (Prod.mk.inj h).2.symm⟩

/-- What has not stopped goes on as if there had been no break. -/
theorem steps_add (i j : Nat) : ∀ {m : Machine}, steps i m = (.budgetExhausted, m') →
    steps (i + j) m = steps j m' ∧ (m.OffRam (i + j) → m'.OffRam j) := by
  induction i with
  | zero =>
    intro m h
    obtain ⟨-, rfl⟩ := steps_zero_going h
    rw [Nat.zero_add]
    exact ⟨rfl, id⟩
  | succ i ih =>
    intro m h
    obtain ⟨hrunning, hstop, hrest⟩ := steps_going h
    obtain ⟨hsteps, hoff⟩ := ih hrest
    rw [Nat.succ_add]
    refine ⟨?_, fun h => hoff ((h.resolve_left hrunning).2 hstop)⟩
    rw [steps_succ _ hrunning, hstop]
    exact hsteps

def PagesOut (page : Word) (m m' : Machine) : Prop :=
  MachineOperation.Step (.host (.bus (.paging (.pageOut page)))) m (.ok .done) m'

theorem PagesOut.matched {page : Word} (h : PagesOut page m m') {v : Virtual.Bus}
    (hr : m.bus.Represents v) : Matched m m' ∧ m'.counters = m.counters := by
  have hstep :
      Yields (onBus (HostOperation.bus (.paging (.pageOut page))).perform) m (.ok .done) m' := h
  obtain ⟨r, b, hb⟩ := yields_exists (HostOperation.bus (.paging (.pageOut page))).perform m.bus
  obtain ⟨rfl, rfl⟩ := hstep.unique (onBus_run hb)
  obtain ⟨memory, hm, rfl⟩ := Bus.yields_onMemory hb
  obtain ⟨r, hr', hout⟩ := Yields.of_map hm
  refine ⟨⟨rfl, rfl, rfl, v, v, hr, ?_, v.memory.nextPid, rfl⟩, rfl⟩
  rcases hr.consistent.pageOut hr.memory page with ⟨_, _, m₁, v₁, hrun, hb₁, hfollows, -⟩
    | ⟨e, m₁, v₁, hrun, -⟩
  · obtain ⟨-, rfl⟩ := hout.eq_of_ok hrun
    obtain rfl : v₁ = v.memory := by
      rcases Virtual.allows_mappingOf (Behaviour.allows_get_bind.mp hb₁) with
        ⟨_, _, -, hsame⟩ | ⟨_, he, -⟩
      · exact hsame.1
      · cases he
    exact hr.follows hfollows
  · obtain ⟨rfl, -⟩ := hout.eq_of_error hrun
    cases hr'

/-! ## Two layouts -/

/-- Nothing but the layout tells them apart: the ranges of the frames, the disk, and where the pages
are. -/
structure Alike (m₁ m₂ : Machine) : Prop where
  config : { m₁.config with ranges := m₂.config.ranges } = m₂.config
  registers : m₁.registers = m₂.registers
  runState : m₁.runState = m₂.runState
  privilege : m₁.bus.privilege = m₂.bus.privilege
  rom : m₁.bus.rom = m₂.bus.rom
  ramBase : m₁.bus.memory.ram.base = m₂.bus.memory.ram.base
  ramSize : m₁.bus.memory.ram.size = m₂.bus.memory.ram.size
  memory : PagedMemory.SameView m₁.bus.memory m₂.bus.memory

theorem Alike.refl (m : Machine) : Alike m m := ⟨rfl, rfl, rfl, rfl, rfl, rfl, rfl, .refl _⟩

theorem Alike.matched (h : Alike m₁ m₂) (h₁ : m₁.Reached) (h₂ : m₂.Reached) : Matched m₁ m₂ := by
  obtain ⟨v, hv⟩ := h₁.represents
  obtain ⟨w, hw⟩ := h₂.represents
  have hwindow : m₁.config.window = m₂.config.window := by rw [← h.config]
  have hregions : m₁.bus.regions = m₂.bus.regions := by
    have hlaid := h₁.laid
    rw [Laid, hwindow, h.rom, h.ramBase, h.ramSize] at hlaid
    exact Except.ok.inj (hlaid.symm.trans h₂.laid)
  refine ⟨by rw [← h.config], h.registers, h.runState, v, _, hv, ?_, m₂.bus.memory.nextPid, rfl⟩
  exact ⟨hw.consistent, h.memory.represents hv.memory, hv.rom.trans h.rom,
    hv.regions.trans hregions, hv.privilege.trans h.privilege⟩

/-- What is matched is alike, if it comes from what was laid out alike. -/
theorem Matched.alike {n₁ n₂ : Machine} (h : Matched m₁ m₂) (h₁ : Within n₁ m₁) (h₂ : Within n₂ m₂)
    (hconfig : { n₁.config with ranges := n₂.config.ranges } = n₂.config)
    (hbase : n₁.bus.memory.ram.base = n₂.bus.memory.ram.base)
    (hsize : n₁.bus.memory.ram.size = n₂.bus.memory.ram.size) : Alike m₁ m₂ := by
  obtain ⟨v, _, hv, hw, n, rfl⟩ := h.bus
  refine ⟨?_, h.registers, h.runState, hv.privilege.symm.trans hw.privilege,
    hv.rom.symm.trans hw.rom, ?_, ?_, hv.memory.sameView hw.memory⟩
  · rw [h₁.config, h₂.config, hconfig]
  · rw [h₁.bus.memory.1, h₂.bus.memory.1, hbase]
  · rw [h₁.bus.memory.2, h₂.bus.memory.2, hsize]

/-- The two runs end alike, and the same was charged in both. A counter stays at its largest value,
so what a run added to it is the same too if it was the same before, or is not full after. -/
structure RunsAlike (budget : Nat) (m₁ m₂ : Machine) : Prop where
  reason : (m₁.run budget).1.reason = (m₂.run budget).1.reason
  snapshot : (m₁.run budget).1.snapshot = (m₂.run budget).1.snapshot
  charges : Charges m₁ (m₁.run budget).2 m₂ (m₂.run budget).2 (m₁.run budget).1.reason.fault?
  executed : (m₁.counters.instructions = m₂.counters.instructions ∨
    ¬ (m₁.run budget).2.counters.instructions.Full ∧
    ¬ (m₂.run budget).2.counters.instructions.Full) →
      (m₁.run budget).1.executed = (m₂.run budget).1.executed
  cycles : (m₁.counters.cycles = m₂.counters.cycles ∨
    ¬ (m₁.run budget).2.counters.cycles.Full ∧ ¬ (m₂.run budget).2.counters.cycles.Full) →
      (m₁.run budget).1.cycles = (m₂.run budget).1.cycles
  alike : Alike (m₁.run budget).2 (m₂.run budget).2

theorem run_eq (budget : Nat) (m : Machine) : m.run budget =
    (⟨(steps budget m).1, (steps budget m).2.counters.instructions - m.counters.instructions,
      (steps budget m).2.counters.cycles - m.counters.cycles, (steps budget m).2.registers⟩,
      (steps budget m).2) := rfl

/-- Counters that grow by the same have grown by the same, if there was room or they were the
same. -/
theorem gain_eq {c₁ c₂ : Counter} (n : Nat) (h : c₁ = c₂ ∨ ¬ (c₁.add n).Full ∧ ¬ (c₂.add n).Full) :
    c₁.add n - c₁ = c₂.add n - c₂ := by
  rcases h with rfl | ⟨h₁, h₂⟩
  · rfl
  · rw [c₁.add_sub n h₁, c₂.add_sub n h₂]

theorem Alike.runsAlike (h : Alike m₁ m₂) (h₁ : m₁.Reached) (h₂ : m₂.Reached) {budget : Nat}
    (hoff : m₁.OffRam budget) (hs₁ : (m₁.run budget).1.reason.Supplied)
    (hs₂ : (m₂.run budget).1.reason.Supplied) : RunsAlike budget m₁ m₂ := by
  obtain ⟨hreason, hend, costs, hc₁, hc₂⟩ := (h.matched h₁ h₂).steps budget hoff hs₁ hs₂
  have halike :=
    hend.alike ((Within.refl m₁).steps budget)
      ((Within.refl m₂).steps budget) h.config h.ramBase h.ramSize
  refine ⟨hreason, hend.registers, ⟨costs, hc₁, hc₂⟩, ?_, ?_, halike⟩
  · rw [run_eq, run_eq, hc₁, hc₂]
    dsimp only
    rw [(ExecutionCounters.charge_counts _ _ _).1, (ExecutionCounters.charge_counts _ _ _).1]
    exact gain_eq costs.length
  · rw [run_eq, run_eq, hc₁, hc₂]
    dsimp only
    rw [(ExecutionCounters.charge_counts _ _ _).2, (ExecutionCounters.charge_counts _ _ _).2]
    exact gain_eq costs.sum

/-- Machines that only their layout tells apart run alike, as long as neither runs out of pages and
RAM is not addressed as such. So a run is the same with a page moved out anywhere in it. -/
theorem layout_independent (h₁ : m₁.Reached) (h₂ : m₂.Reached) (h : Alike m₁ m₂) (budget : Nat)
    (hoff : m₁.OffRam budget) (hs₁ : (m₁.run budget).1.reason.Supplied)
    (hs₂ : (m₂.run budget).1.reason.Supplied) :
    RunsAlike budget m₁ m₂ ∧ ∀ i j page m, i + j = budget → (m₁.run i).1.reason = .budgetExhausted →
      PagesOut page (m₁.run i).2 m → (m.run j).1.reason.Supplied →
        (m.run j).1.reason = (m₁.run budget).1.reason ∧
        (m.run j).2.counters = (m₁.run budget).2.counters ∧
          Alike (m₁.run budget).2 (m.run j).2 := by
  refine ⟨h.runsAlike h₁ h₂ hoff hs₁ hs₂, fun i j page m hij hgoing hout hs => ?_⟩
  subst hij
  have hi : steps i m₁ = (.budgetExhausted, (m₁.run i).2) := Prod.ext hgoing rfl
  obtain ⟨hrest, hoffRest⟩ := steps_add i j hi
  obtain ⟨v, hv⟩ := h₁.represents
  obtain ⟨w, hw⟩ := (steps_kept i hv).1
  obtain ⟨hmatched, hcounters⟩ := hout.matched hw
  have hs₁' : (steps j (m₁.run i).2).1.Supplied := hrest ▸ hs₁
  obtain ⟨hreason, hend, costs, hc₁, hc₂⟩ := hmatched.steps j (hoffRest hoff) hs₁' hs
  have hwithin : Within m₁ (m₁.run i).2 := (Within.refl m₁).steps i
  have hwithin' : Within m₁ m :=
    keeps_within (.host (.bus (.paging (.pageOut page)))) _ (.ok .done) m hwithin hout
  rw [run_eq (i + j) m₁, hrest]
  refine ⟨hreason.symm, ?_, hend.alike (hwithin.steps j) (hwithin'.steps j) rfl rfl rfl⟩
  exact hc₂.trans (hcounters ▸ hc₁.symm)

end Machine

/-! ## A page that is out

The program of the torn store, with an address in the one page of the process, on two
machines: on one of them that page has been moved to the disk.
-/

namespace PagedStore

open PagedMemory TwoReaders TornStore

def state : Registers := (atStore.set x1 0x400FFE).set x1 0x400000

def resident (disk : Disk) (ram : Ram) : PagedMemory := mappedAs disk ram .readWrite

def movedOut (disk : Disk) (ram : Ram) : PagedMemory := (resident disk ram).evicted 0 0

def ready : Machine := machine (resident disk TwoReaders.ram) state

def waiting : Machine := machine (movedOut disk TwoReaders.ram) state

def before : List (Event Machine MachineOperation Answer) :=
  TornStore.events ++ [⟨.setRegister x1 0x400000, .ok .done, ready⟩]

theorem run_ready :
    Run MachineOperation.Step (machine (begun disk TwoReaders.ram) atReset) before ready :=
  TornStore.run.append (.next rfl (.done _))

theorem withinCounts_before : ∀ e ∈ before, WithinCounts e.state.bus.memory := by
  intro e he
  rcases List.mem_append.mp he with he | he
  · exact TornStore.withinCounts e he
  · obtain rfl := List.mem_singleton.mp he
    exact withinCounts_of_size (by decide : 1 ≤ maxRefs)

theorem reached_ready : ready.Reached :=
  ⟨_, _, _, _, _, _, ofDevices, rfl, run_ready, (by decide : 1 + 0 < 2 ^ 32 - 1),
    withinCounts_before⟩

section
variable (disk : Disk) (ram : Ram)

theorem mapping_resident :
    (resident disk ram).mapping? 0x400 = some ⟨.frame 0, .readWrite, false⟩ := rfl

theorem mapping_movedOut :
    (movedOut disk ram).mapping? 0x400 = some ⟨.slot 0, .readWrite, false⟩ := rfl

theorem diskPool_movedOut : (movedOut disk ram).diskPool =
    { (resident disk ram).diskPool with free := (resident disk ram).diskPool.free.erase 0 } := rfl

theorem diskPool_resident (hslots : Disk.slotCount disk = 4) :
    (resident disk ram).diskPool = .ofRange .disk 0 3 := by
  change (if Disk.slotCount disk = 0 then _
    else Pool.ofRange .disk 0 (UInt32.ofNat (Disk.slotCount disk - 1))) = _
  rw [hslots]
  rfl

theorem hasFree_resident (hslots : Disk.slotCount disk = 4) :
    (resident disk ram).HasFree .disk := by
  refine ⟨1, ?_⟩
  change (resident disk ram).diskPool.isFree 1 = true
  rw [diskPool_resident disk ram hslots]
  rfl

theorem hasFree_movedOut (hslots : Disk.slotCount disk = 4) :
    (movedOut disk ram).HasFree .disk := by
  refine ⟨1, ?_⟩
  change (movedOut disk ram).diskPool.isFree 1 = true
  rw [diskPool_movedOut, diskPool_resident disk ram hslots]
  rfl

end

theorem slotCount_disk : Disk.slotCount disk = 4 := by
  have hdisk : disk = ByteStore.zeroed 0 16384 :=
    congrArg (ByteStore.zeroed 0)
      (by decide : min ((4 : Word).toNat * pageSize) (2 ^ 32 - 1) = 16384)
  rw [Disk.slotCount, hdisk, ByteStore.size_zeroed 0 (by decide)]
  rfl

theorem pageOut_run (disk : Disk) (ram : Ram) :
    (pageOut 0x400).run (resident disk ram) = (evict 0).run (resident disk ram) := rfl

theorem step_pageOut : (PagingOperation.pageOut 0x400).Step (resident disk TwoReaders.ram)
    (.ok .done) (movedOut disk TwoReaders.ram) := by
  obtain ⟨v, hr⟩ := reached_ready.represents
  have hmapped : (resident disk TwoReaders.ram).mappingsOf (.frame 0) ≠ 0 := by
    obtain ⟨pid, d, -, hd, hm⟩ := mapping?_some.mp (mapping_resident disk TwoReaders.ram)
    exact mappingsOf_ne_zero hd hm
  have hkeys : (resident disk TwoReaders.ram).diskPool.free.keys = [0, 1, 2, 3] := by
    rw [diskPool_resident disk TwoReaders.ram slotCount_disk]
    rfl
  have hconsistent : Consistent (resident disk TwoReaders.ram) := hr.consistent
  exact map_ok ((pageOut_run disk TwoReaders.ram).trans (hconsistent.evict_ok hmapped hkeys).1)

theorem pagesOut : Machine.PagesOut 0x400 ready waiting := by
  have hbus : Yields (HostOperation.bus (.paging (.pageOut 0x400))).perform ready.bus
      (.ok .done) waiting.bus :=
    Bus.onMemory_ok (b := ready.bus) step_pageOut
  exact Machine.onBus_run hbus

theorem reached_waiting : waiting.Reached := by
  have hrun : Run MachineOperation.Step (machine (begun disk TwoReaders.ram) atReset)
      (before ++ [⟨.host (.bus (.paging (.pageOut 0x400))), .ok .done, waiting⟩]) waiting :=
    run_ready.append (.next pagesOut (.done _))
  refine ⟨_, _, _, _, _, _, ofDevices, rfl, hrun, (by decide : 1 + 0 < 2 ^ 32 - 1), fun e he => ?_⟩
  rcases List.mem_append.mp he with he | he
  · exact withinCounts_before e he
  · obtain rfl := List.mem_singleton.mp he
    exact withinCounts_of_size (by decide : 1 ≤ maxRefs)

/-! ### The store -/

theorem transfer_store (m : PagedMemory) :
    (Bus.transfer (.write 0x400000 .word 0)).run ⟨m, program, layout, .kernel⟩ =
    (Bus.transferMapped (.write 0x400000 .word 0)).run ⟨m, program, layout, .kernel⟩ := rfl

section
variable {m : PagedMemory} {v : Virtual.Memory} {l : Location}

theorem transferMapped_store (h : Consistent m) (hv : Represents m v) (hfree : m.HasFree .disk)
    (hm : m.mapping? 0x400 = some ⟨l, .readWrite, false⟩) : ∃ x m',
      (PagedMemory.transferMapped (.write 0x400000 .word 0) .kernel).run m = .ok x m' := by
  obtain ⟨mv, hmv, hpermissions, hflag⟩ := hv.find? hm
  have hg : v.Grants (0x400000 : Word).page .write .kernel :=
    ⟨mv, hmv, by rw [hpermissions]; rfl, fun h => by rw [hflag] at h; cases h.2⟩
  rcases h.translate_granted hv hg with ⟨physical, m₁, hrun, hat, hfollows, -⟩ | ⟨e, -, -, hdisk, -⟩
  · obtain ⟨m₂, hexchange, -⟩ :=
      hfollows.consistent.exchange hfollows.represents (t := .write 0x400000 .word 0) hat
        (by decide)
    exact ⟨_, m₂, (bind_ok hrun).trans hexchange⟩
  · exact absurd hfree hdisk

/-- Wherever the page is, the store is done. -/
theorem store_done (h : Consistent m) (hv : Represents m v) (hfree : m.HasFree .disk)
    (hm : m.mapping? 0x400 = some ⟨l, .readWrite, false⟩) : ∃ b,
      Yields (executeNext state) ⟨m, program, layout, .kernel⟩ (.ok (afterStore state)) b := by
  obtain ⟨x, m', hrun⟩ := transferMapped_store h hv hfree hm
  have honMemory :=
    Bus.isOnMemory_transferMapped (.write 0x400000 .word 0) ⟨m, program, layout, .kernel⟩
  have htransfer : Yields (Bus.transfer (.write 0x400000 .word 0))
      ⟨m, program, layout, .kernel⟩ (.ok x) ⟨m', program, layout, .kernel⟩ :=
    (transfer_store m).trans
      (honMemory.trans (Bus.onMemory_ok (b := ⟨m, program, layout, .kernel⟩) hrun))
  have hnext := executeNext_store (s := state) rfl rfl rfl htransfer
  exact ⟨_, hnext⟩

end

/-- One instruction of the run is retired, so that it stops for its budget. -/
theorem reason_of_store {m : Machine} (hm : m.runState = .running) {b : Bus}
    (h : Yields (executeNext m.registers) m.bus (.ok (afterStore state)) b) :
    (m.run 1).1.reason = .budgetExhausted := by
  have hrunning : m.runState ≠ .halted := hm ▸ nofun
  have hstep := Machine.step_ok hrunning h
  have hsteps : Machine.steps 1 m =
      Machine.steps 0 (Machine.retire { m with bus := b } (afterStore state)).2 := by
    rw [Machine.steps_succ 0 hrunning, hstep]
    rfl
  rw [Machine.run_eq, hsteps, Machine.steps_zero (by exact (nofun : RunState.running ≠ .halted))]

theorem supplied_of_store {m : PagedMemory} {l : Location} (h : (machine m state).Reached)
    (hfree : m.HasFree .disk) (hm : m.mapping? 0x400 = some ⟨l, .readWrite, false⟩) :
    ((machine m state).run 1).1.reason.Supplied := by
  obtain ⟨v, hr⟩ := h.represents
  obtain ⟨b, hx⟩ := store_done (m := m) hr.consistent hr.memory hfree hm
  rw [reason_of_store (m := machine m state) rfl hx]
  exact fun _ => nofun

theorem supplied_ready : (ready.run 1).1.reason.Supplied := by
  unfold ready
  exact supplied_of_store (m := resident disk TwoReaders.ram) reached_ready
    (hasFree_resident disk TwoReaders.ram slotCount_disk) (mapping_resident disk TwoReaders.ram)

theorem supplied_waiting : (waiting.run 1).1.reason.Supplied := by
  unfold waiting
  exact supplied_of_store (m := movedOut disk TwoReaders.ram) reached_waiting
    (hasFree_movedOut disk TwoReaders.ram slotCount_disk) (mapping_movedOut disk TwoReaders.ram)

theorem not_ramServes {t : Transfer} (h : (layout.regionOf? t.address).map (·.kind) ≠ some .ram) :
    ¬ layout.RamServes t := by
  rintro ⟨region, hregion, -, hk⟩
  rw [hregion, Option.map_some, hk] at h
  exact h rfl

/-- The instruction is fetched from ROM, and stores where its base register points. -/
theorem offRam_store {M : Machine} {m : PagedMemory} {privilege : Privilege}
    (hbus : M.bus = ⟨m, program, layout, privilege⟩) (hpc : M.registers.pc = 0)
    (hstore : (layout.regionOf? (M.registers.get x1)).map (·.kind) ≠ some .ram) : M.OffRam 1 := by
  refine .inr ⟨fun t ht => ?_, fun _ => trivial⟩
  rw [hbus] at ht ⊢
  cases ht with
  | fetch =>
    rw [hpc]
    exact not_ramServes (by decide)
  | access hfetch hdecode hplan =>
    rw [hpc] at hfetch hdecode
    obtain ⟨hw, -⟩ := hfetch.unique (transfer_first (t := .fetch 0) program_word rfl rfl rfl)
    obtain rfl := Except.ok.inj hw
    obtain rfl := Except.ok.inj (decode_store.symm.trans hdecode)
    obtain ⟨rfl, -⟩ := Plan.access.inj (Option.some.inj ((plan_store M.registers).symm.trans hplan))
    exact not_ramServes hstore

theorem offRam_ready : ready.OffRam 1 :=
  offRam_store (m := resident disk TwoReaders.ram) rfl rfl (by decide)

theorem alike : Machine.Alike ready waiting := by
  obtain ⟨v, hr⟩ := reached_ready.represents
  have hwithin : Machine.Within ready waiting :=
    Machine.keeps_within (.host (.bus (.paging (.pageOut 0x400)))) _ (.ok .done) _
      (.refl ready) pagesOut
  exact (pagesOut.matched hr).1.alike (.refl ready) hwithin rfl rfl rfl

/-- The machine whose page is on the disk runs like the other one, and so does that one when its
page is moved out. -/
theorem runs_alike :
    Machine.RunsAlike 1 ready waiting ∧ (waiting.run 1).1.reason = (ready.run 1).1.reason ∧
    (waiting.run 1).2.counters = (ready.run 1).2.counters ∧
    Machine.Alike (ready.run 1).2 (waiting.run 1).2 := by
  obtain ⟨hruns, hbreak⟩ :=
    Machine.layout_independent reached_ready reached_waiting alike 1 offRam_ready supplied_ready
      supplied_waiting
  exact ⟨hruns, hbreak 0 1 0x400 waiting rfl rfl pagesOut supplied_waiting⟩

end PagedStore

/-! ## What else has to be the same

A machine that branches to itself is let run until its counters are full. A store that
begins in a kernel page and ends in none faults at the end, or at once for a user.
-/

namespace Spinning

open PagedMemory TwoReaders TornStore Machine

def program : Rom := .ofBytes 0 [0x00, 0x00, 0xE0, 0x72]

def configuration : Configuration := ⟨window, ranges, 0, none, .kernel, false⟩

def branch : Instruction := ⟨.bx, .branch .al (.register x0)⟩

def spun (rounds : Nat) : Machine where
  config := configuration
  registers := .zero
  runState := .running
  bus := ⟨start disk TwoReaders.ram, program, layout, .kernel⟩
  counters := { ExecutionCounters.zero with
    instructions := Counter.add 0 rounds
    cycles := Counter.add 0 (3 * rounds) }

def atReset : Machine := { spun 0 with registers := { Registers.zero with pc := 0x72E00000 } }

theorem branch_word : program.read 0 .word = .ok 0x72E00000 := rfl

theorem decode_branch : Instruction.decodeAt 0x72E00000 0 = .ok branch := rfl

theorem execute_branch : branch.execute .zero =
    pure { Effects.next .zero .branchTaken with nextPc := 0 } := rfl

theorem running_spun (rounds : Nat) : (spun rounds).runState ≠ .halted :=
  (nofun : RunState.running ≠ .halted)

theorem step_spun (rounds : Nat) : (spun rounds).step = (.retired 3, spun (rounds + 1)) := by
  have hfetch : Yields (Bus.fetch 0) (spun rounds).bus (.ok 0x72E00000) (spun rounds).bus :=
    transfer_first branch_word rfl rfl rfl
  have hdecode := yields_outcome (Instruction.decodeAt 0x72E00000 0) (spun rounds).bus
  rw [decode_branch] at hdecode
  have hexecute : Yields (branch.execute .zero) (spun rounds).bus
      (.ok { Effects.next .zero .branchTaken with nextPc := 0 }) (spun rounds).bus := by
    rw [execute_branch]
    rfl
  have hnext : Yields (executeNext .zero) (spun rounds).bus
      (.ok { Effects.next .zero .branchTaken with nextPc := 0 }) (spun rounds).bus := by
    unfold executeNext
    rw [show Registers.zero.pc = 0 from rfl]
    exact hfetch.bind_ok (hdecode.bind_ok hexecute)
  have hretired : Machine.retire (spun rounds)
      { Effects.next .zero .branchTaken with nextPc := 0 } = (.retired 3, spun (rounds + 1)) := by
    unfold spun
    rw [Nat.mul_add, ← Counter.add_add, ← Counter.add_add]
    rfl
  exact (Machine.step_ok (m := spun rounds) (running_spun rounds) hnext).trans hretired

theorem steps_spun (budget : Nat) : ∀ rounds,
    Machine.steps budget (spun rounds) = (.budgetExhausted, spun (rounds + budget)) := by
  induction budget with
  | zero => exact fun rounds => Machine.steps_zero (running_spun rounds)
  | succ budget ih =>
    intro rounds
    rw [Machine.steps_succ budget (running_spun rounds), step_spun]
    dsimp only [StepOutcome.stop?]
    rw [ih, Nat.add_assoc, Nat.add_comm 1]

theorem atReset_eq : Machine.reset ⟨configuration, .zero, .running,
    ⟨start disk TwoReaders.ram, program, layout, .kernel⟩, .zero⟩ = atReset := by
  have hread : Bus.read 0 .word ⟨start disk TwoReaders.ram, program, layout, .kernel⟩ =
      .ok 0x72E00000 ⟨start disk TwoReaders.ram, program, layout, .kernel⟩ :=
    transfer_first branch_word rfl rfl rfl
  unfold Machine.reset
  simp only [configuration, hread]
  rfl

theorem ofDevices : Machine.ofDevices configuration TwoReaders.ram program disk = .ok atReset := by
  have hlaid : RegionMap.ofRanges (program.base, UInt32.ofNat program.size)
      (TwoReaders.ram.base, UInt32.ofNat TwoReaders.ram.size) window = .ok layout :=
    TornStore.ofRanges
  have hbuilt := Machine.ofDevices_of_bus configuration
    (bus_ofDevices_of_layout hlaid) rfl
  exact hbuilt.trans (congrArg Except.ok atReset_eq)

theorem run_spun (budget : Nat) :
    (MachineOperation.run budget).Step (spun 0) (.ok .done) (spun budget) := by
  have hrun : ((spun 0).run budget).2 = spun budget := by
    rw [run_eq, steps_spun, Nat.zero_add]
  rw [← hrun]
  rfl

theorem reached_spun (budget : Nat) : (spun budget).Reached := by
  have hpc : (MachineOperation.setPc 0).Step atReset (.ok .done) (spun 0) := rfl
  refine ⟨_, _, _, _, _, _, ofDevices, rfl, .next hpc (.next (run_spun budget) (.done _)),
    (by decide : 0 + 0 < 2 ^ 32 - 1), ?_⟩
  intro e he
  apply withinCounts_of_size
  simp only [List.mem_cons, List.not_mem_nil, or_false] at he
  rcases he with rfl | rfl <;> exact Nat.zero_le maxRefs

theorem run_once (rounds : Nat) : (spun rounds).run 1 = (⟨.budgetExhausted,
    Counter.add 0 (rounds + 1) - Counter.add 0 rounds,
    Counter.add 0 (3 * (rounds + 1)) - Counter.add 0 (3 * rounds), .zero⟩, spun (rounds + 1)) := by
  rw [run_eq, steps_spun]
  rfl

theorem offRam_spun (rounds : Nat) : (spun rounds).OffRam 1 := by
  refine .inr ⟨fun t ht => ?_, fun _ => trivial⟩
  cases ht with
  | fetch => exact PagedStore.not_ramServes (t := .fetch 0) (by decide)
  | access hfetch hdecode hplan =>
    obtain ⟨hw, -⟩ := hfetch.unique (transfer_first (t := .fetch 0) branch_word rfl rfl rfl)
    obtain rfl := Except.ok.inj hw
    obtain rfl := Except.ok.inj (decode_branch.symm.trans hdecode)
    cases hplan

theorem alike_spun (rounds rounds' : Nat) : Alike (spun rounds) (spun rounds') :=
  ⟨rfl, rfl, rfl, rfl, rfl, rfl, rfl, .refl _⟩

theorem supplied_spun (rounds : Nat) : ((spun rounds).run 1).1.reason.Supplied := by
  rw [run_once]
  exact fun _ => nofun

end Spinning

namespace BarredStore

open PagedMemory TwoReaders TornStore KernelPage Machine

def state : Registers := (atStore.set x1 0x400FFE).set x1 0x401FFE

def withPrivilege (privilege : Privilege) : Machine :=
  { machine (guarded disk TwoReaders.ram) state with
    bus := ⟨guarded disk TwoReaders.ram, program, layout, privilege⟩ }

def events : List (Event Machine MachineOperation Answer) :=
  TornStore.events ++
    [⟨.host (.bus (.paging (.addPage 0x401 (.kernelOnly .readWrite) false))), .ok .done,
        machine (guarded disk TwoReaders.ram) (atStore.set x1 0x400FFE)⟩,
      ⟨.setRegister x1 0x401FFE, .ok .done, withPrivilege .kernel⟩]

theorem run (privilege : Privilege) :
    Run MachineOperation.Step (machine (begun disk TwoReaders.ram) atReset)
    (events ++ [⟨.host (.bus (.setPrivilege privilege)), .ok .done, withPrivilege privilege⟩])
    (withPrivilege privilege) := by
  have hadd : (HostOperation.bus (.paging (.addPage 0x401 (.kernelOnly .readWrite) false))).Step
      ready.bus (.ok .done) ⟨guarded disk TwoReaders.ram, program, layout, .kernel⟩ :=
    Bus.onMemory_ok (b := ready.bus)
      (step_addKernelPage disk TwoReaders.ram ram_fits.1 pages_in_ram)
  have hset : (MachineOperation.setRegister x1 0x401FFE).Step
      (machine (guarded disk TwoReaders.ram) (atStore.set x1 0x400FFE)) (.ok .done)
      (withPrivilege .kernel) := rfl
  have hbar : (HostOperation.bus (.setPrivilege privilege)).Step (withPrivilege .kernel).bus
      (.ok .done) (withPrivilege privilege).bus := rfl
  rw [events, List.append_assoc]
  exact TornStore.run.append
    (.next (onBus_run hadd) (.next hset (.next (onBus_run hbar) (.done _))))

theorem withinCounts (privilege : Privilege) : ∀ e ∈ events ++
    [⟨.host (.bus (.setPrivilege privilege)), .ok .done, withPrivilege privilege⟩],
    WithinCounts e.state.bus.memory := by
  have hguarded : WithinCounts (guarded disk TwoReaders.ram) :=
    withinCounts_of_size (by decide : 2 ≤ maxRefs)
  rw [events, List.append_assoc]
  refine List.forall_mem_append.mpr ⟨TornStore.withinCounts, fun e he => ?_⟩
  simp only [List.cons_append, List.nil_append, List.mem_cons, List.not_mem_nil, or_false] at he
  rcases he with rfl | rfl | rfl <;> exact hguarded

theorem reached (privilege : Privilege) : (withPrivilege privilege).Reached :=
  ⟨_, _, _, _, _, _, ofDevices, rfl, run privilege, (by decide : 1 + 0 < 2 ^ 32 - 1),
    withinCounts privilege⟩

theorem offRam (privilege : Privilege) : (withPrivilege privilege).OffRam 1 := by
  have hstore : (layout.regionOf? (state.get x1)).map (·.kind) ≠ some .ram := by decide
  have hbus : (withPrivilege privilege).bus =
      ⟨guarded disk TwoReaders.ram, program, layout, privilege⟩ := rfl
  exact PagedStore.offRam_store hbus rfl hstore

theorem reason_of_fault {privilege : Privilege} {e : Fault} {b : Bus}
    (h : Yields (Bus.transfer (.write 0x401FFE .word 0))
    ⟨guarded disk TwoReaders.ram, program, layout, privilege⟩ (.error e) b) :
    ((withPrivilege privilege).run 1).1.reason = .fault e := by
  have hrunning : (withPrivilege privilege).runState ≠ .halted :=
    (nofun : RunState.running ≠ .halted)
  have hnext := executeNext_store (s := state) rfl rfl rfl h
  rw [run_eq, steps_succ 0 hrunning, step_error hrunning hnext]
  rfl

theorem store_crosses (disk : Disk) (ram : Ram) :
    ∃ b, Yields (Bus.transfer (.write 0x401FFE .word 0))
    ⟨guarded disk ram, program, layout, .kernel⟩ (.error (.pageFault 0x402001 .write)) b := ⟨_, rfl⟩

theorem store_barred (disk : Disk) (ram : Ram) :
    ∃ b, Yields (Bus.transfer (.write 0x401FFE .word 0))
    ⟨guarded disk ram, program, layout, .user⟩ (.error (.protectionFault 0x401FFE .write)) b :=
  ⟨_, rfl⟩

theorem supplied (privilege : Privilege) : ((withPrivilege privilege).run 1).1.reason.Supplied := by
  cases privilege with
  | kernel =>
    obtain ⟨b, hstore⟩ := store_crosses disk TwoReaders.ram
    rw [reason_of_fault hstore]
    exact fun _ => nofun
  | user =>
    obtain ⟨b, hstore⟩ := store_barred disk TwoReaders.ram
    rw [reason_of_fault hstore]
    exact fun _ => nofun

end BarredStore

namespace Machine

open TwoReaders Spinning BarredStore

/-- It is not so that machines which are alike count alike, whatever they have counted before, nor
that those which only their privilege tells apart stop for the same reason. -/
theorem runs_apart :
    (¬ ∀ m₁ m₂ : Machine, m₁.Reached → m₂.Reached → Alike m₁ m₂ → ∀ budget, m₁.OffRam budget →
      m₂.OffRam budget → (m₁.run budget).1.reason.Supplied → (m₂.run budget).1.reason.Supplied →
        (m₁.run budget).1.executed = (m₂.run budget).1.executed ∨
          (m₁.run budget).1.cycles = (m₂.run budget).1.cycles) ∧
    ¬ ∀ m₁ m₂ : Machine, m₁.Reached → m₂.Reached →
      Alike { m₁ with bus := { m₁.bus with privilege := m₂.bus.privilege } } m₂ →
      m₁.counters = m₂.counters → ∀ budget, m₁.OffRam budget → m₂.OffRam budget →
      (m₁.run budget).1.reason.Supplied → (m₂.run budget).1.reason.Supplied →
      (m₁.run budget).1.reason = (m₂.run budget).1.reason := by
  constructor
  · intro hcounts
    have hround :=
      hcounts _ _ (reached_spun (2 ^ 64 - 1)) (reached_spun 0) (alike_spun _ _) 1 (offRam_spun _)
      (offRam_spun _) (supplied_spun _) (supplied_spun _)
    rw [run_once, run_once] at hround
    -- the full counters have gained nothing, the empty ones a round
    exact absurd hround (by decide)
  · intro hreasons
    obtain ⟨b, hcrosses⟩ := store_crosses disk TwoReaders.ram
    obtain ⟨b', hbarred⟩ := store_barred disk TwoReaders.ram
    have hstore :=
      hreasons _ _ (BarredStore.reached .kernel) (BarredStore.reached .user) (.refl _) rfl 1
      (BarredStore.offRam _) (BarredStore.offRam _) (supplied _) (supplied _)
    rw [reason_of_fault hcrosses, reason_of_fault hbarred] at hstore
    cases hstore

end Machine

end PagedMachine

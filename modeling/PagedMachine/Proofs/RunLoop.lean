import Mathlib.Logic.Function.Iterate
import PagedMachine.Proofs.LayoutIndependence
import PagedMachine.Proofs.Plans

/-!
# The run loop

A run is step after step until the machine is halted, the budget is spent, or a step
does something else than retire an instruction and go on. What it reports is read off
its last step, and what it counts is what its steps retired, as long as the counters
have room. A run that only spent its budget can be gone on with.
-/

namespace PagedMachine

/-! ## What a step retires -/

def execution (s : Registers) : OnBus (Instruction × Effects) := do
  let w ← Bus.fetch s.pc
  let i ← outcome (Instruction.decodeAt w s.pc)
  let e ← i.execute s
  return (i, e)

theorem snd_execution (s : Registers) : Prod.snd <$> execution s = executeNext s := by
  simp only [execution, executeNext, map_bind, map_pure, bind_pure]

theorem execution_ok {s : Registers} {b b' : Bus} {i : Instruction} {e : Effects}
    (h : Yields (execution s) b (.ok (i, e)) b') : ∃ b₁, Yields (i.execute s) b₁ (.ok e) b' := by
  rcases h.of_bind with ⟨w, b₁, -, hrest⟩ | ⟨_, he, -⟩
  · rcases hrest.of_outcome_bind with ⟨j, -, hexecute⟩ | ⟨⟨_, -, he⟩, -⟩
    · rcases hexecute.of_bind with ⟨e', b₂, hx, hpure⟩ | ⟨_, he, -⟩
      · obtain ⟨hi, rfl⟩ := hpure.of_pure
        cases hi
        exact ⟨b₁, hx⟩
      · cases he
    · cases he
  · cases he

namespace Machine

/-- The instruction that the next step retires, with its effects. -/
def retirement? (m : Machine) : Option (Instruction × Effects) :=
  if m.runState = .halted then none
  else
    match execution m.registers m.bus with
    | .ok retired _ => some retired
    | .error _ _ => none

variable {m m' : Machine} {i : Instruction} {e : Effects}

/-- Everything a step can do: nothing, retire an instruction, or fault. -/
theorem step_retires (m : Machine) :
    (m.runState = .halted ∧ m.retirement? = none ∧ m.step = (.halted, m)) ∨
      m.runState ≠ .halted ∧ ∃ b',
        (∃ i e b, m.retirement? = some (i, e) ∧ Yields (i.execute m.registers) b (.ok e) b' ∧
          m.step = retire { m with bus := b' } e) ∨
        ∃ f, m.retirement? = none ∧ m.step =
          (.fault f,
            { m with bus := b', counters := m.counters.record f, runState := .faulted f }) := by
  by_cases hhalted : m.runState = .halted
  · exact .inl ⟨hhalted, if_pos hhalted, by rw [step, if_pos hhalted]⟩
  · refine .inr ⟨hhalted, ?_⟩
    have hretirement : m.retirement? = _ := if_neg hhalted
    obtain ⟨r, b', h⟩ := yields_exists (execution m.registers) m.bus
    have hnext := h.map Prod.snd
    rw [snd_execution] at hnext
    refine ⟨b', ?_⟩
    cases r with
    | ok retired =>
      obtain ⟨i, e⟩ := retired
      obtain ⟨b, hexecute⟩ := execution_ok h
      have hrun : execution m.registers m.bus = .ok (i, e) b' := h
      rw [hrun] at hretirement
      exact .inl ⟨i, e, b, hretirement, hexecute, step_ok hhalted hnext⟩
    | error f =>
      have hrun : execution m.registers m.bus = .error f b' := h
      rw [hrun] at hretirement
      exact .inr ⟨f, hretirement, step_error hhalted hnext⟩

theorem retire_outcome (m : Machine) (e : Effects) :
    (e.control = .none ∧ (retire m e).1 = .retired e.cycles) ∨
    (e.control = .halt ∧ (retire m e).1 = .halted) ∨
    ∃ number, e.control = .softwareInterrupt number ∧
      (retire m e).1 =
        if m.config.trapVector = none then .softwareInterrupt number else .retired e.cycles := by
  unfold retire
  dsimp only
  cases e.control with
  | none => exact .inl ⟨rfl, rfl⟩
  | halt => exact .inr (.inl ⟨rfl, rfl⟩)
  | softwareInterrupt number =>
    refine .inr (.inr ⟨number, rfl, ?_⟩)
    cases m.config.trapVector with
    | none => rfl
    | some vector => rfl

theorem retire_running {cycles : Nat} (h : (retire m e).1 = .retired cycles) :
    (retire m e).2.runState = .running := by
  unfold retire at h ⊢
  dsimp only at h ⊢
  cases hcontrol : e.control with
  | none => rfl
  | halt =>
    rw [hcontrol] at h
    cases h
  | softwareInterrupt number =>
    dsimp only
    cases m.config.trapVector with
    | none => rfl
    | some vector => rfl

/-- The core was halted, or its step retired a `hlt`. -/
theorem step_halted_iff : m.step.1 = .halted ↔
    m.runState = .halted ∨ ∃ i e, m.retirement? = some (i, e) ∧ i.opcode = .hlt := by
  rcases step_retires m with ⟨hhalted, -, hstep⟩
    | ⟨hrunning, b', ⟨i, e, b, hretired, hexecute, hstep⟩ | ⟨f, hretired, hstep⟩⟩
  · rw [hstep]
    exact ⟨fun _ => .inl hhalted, fun _ => rfl⟩
  · obtain ⟨plan, w, hplan, rfl⟩ := Instruction.effects_of_execute hexecute
    obtain ⟨hhalt, -⟩ := Plan.control_of_plan? hplan w
    have houtcome := retire_outcome { m with bus := b' } (plan.effects w)
    rw [← hstep] at houtcome
    rw [hretired]
    constructor
    · intro h
      refine .inr ⟨i, _, rfl, hhalt.mp ?_⟩
      rcases houtcome with ⟨-, hout⟩ | ⟨hcontrol, -⟩ | ⟨number, -, hout⟩
      · cases hout.symm.trans h
      · exact hcontrol
      · rw [h] at hout
        split at hout <;> cases hout
    · rintro (h | ⟨_, _, ⟨⟩, hopcode⟩)
      · exact absurd h hrunning
      · rcases houtcome with ⟨hcontrol, -⟩ | ⟨-, hout⟩ | ⟨number, hcontrol, -⟩
        · cases hcontrol.symm.trans (hhalt.mpr hopcode)
        · exact hout
        · cases hcontrol.symm.trans (hhalt.mpr hopcode)
  · rw [hstep, hretired]
    exact ⟨nofun, fun h => h.elim (absurd · hrunning) fun ⟨_, _, h, _⟩ => nomatch h⟩

/-- The step retired a `swi`, and there is no trap vector. -/
theorem step_softwareInterrupt_iff {number : Word} : m.step.1 = .softwareInterrupt number ↔
    m.config.trapVector = none ∧
      ∃ i e, m.retirement? = some (i, e) ∧ i.opcode = .swi ∧ i.operands = .control number := by
  -- a step that stays halted or faults retires nothing, so only the second case can tell
  rcases step_retires m with
    ⟨-, hretired, hstep⟩ | ⟨-, b', ⟨i, e, b, hretired, hexecute, hstep⟩ | ⟨f, hretired, hstep⟩⟩
  · rw [hstep, hretired]
    exact ⟨nofun, fun ⟨_, _, _, h, _⟩ => nomatch h⟩
  · obtain ⟨plan, w, hplan, rfl⟩ := Instruction.effects_of_execute hexecute
    obtain ⟨-, hswi⟩ := Plan.control_of_plan? hplan w
    have houtcome := retire_outcome { m with bus := b' } (plan.effects w)
    rw [← hstep] at houtcome
    rw [hretired]
    constructor
    · intro h
      rcases houtcome with ⟨-, hout⟩ | ⟨-, hout⟩ | ⟨_, hcontrol, hout⟩
      · cases hout.symm.trans h
      · cases hout.symm.trans h
      · rw [h] at hout
        split at hout
        · cases hout
          exact ⟨‹_›, i, _, rfl, (hswi number).mp hcontrol⟩
        · cases hout
    · rintro ⟨hvector, _, _, ⟨⟩, hopcode⟩
      have hcontrol := (hswi number).mpr hopcode
      rcases houtcome with ⟨hnone, -⟩ | ⟨hhalt, -⟩ | ⟨_, hnumber, hout⟩
      · cases hnone.symm.trans hcontrol
      · cases hhalt.symm.trans hcontrol
      · cases hnumber.symm.trans hcontrol
        rw [hout, if_pos hvector]
  · rw [hstep, hretired]
    exact ⟨nofun, fun ⟨_, _, _, h, _⟩ => nomatch h⟩

theorem step_faulted {f : Fault} (h : m.step.1 = .fault f) : m.step.2.runState = .faulted f := by
  rcases step_retires m with ⟨-, -, hstep⟩ | ⟨-, b', ⟨i, e, b, -, -, hstep⟩ | ⟨f, -, hstep⟩⟩
  · rw [hstep] at h
    cases h
  · rw [hstep] at h
    exact absurd h (retire_ne_fault _ e f)
  · rw [hstep] at h ⊢
    cases h
    rfl

theorem step_going {cycles : Nat} (h : m.step.1 = .retired cycles) :
    m.runState ≠ .halted ∧ m.step.2.runState = .running := by
  rcases step_retires m with ⟨-, -, hstep⟩ | ⟨hrunning, b', ⟨i, e, b, -, -, hstep⟩ | ⟨f, -, hstep⟩⟩
  · rw [hstep] at h
    cases h
  · rw [hstep] at h ⊢
    exact ⟨hrunning, retire_running h⟩
  · rw [hstep] at h
    cases h

/-- The counters grow by what the step retires, if it retires an instruction. -/
theorem step_counters (m : Machine) :
    m.step.2.counters.instructions = m.counters.instructions.add m.retirement?.toList.length ∧
      m.step.2.counters.cycles =
      m.counters.cycles.add (m.retirement?.toList.map (·.2.cycles)).sum := by
  rcases step_retires m with
    ⟨-, hretired, hstep⟩ | ⟨-, b', ⟨i, e, b, hretired, -, hstep⟩ | ⟨f, hretired, hstep⟩⟩
  · rw [hstep, hretired]
    exact ⟨m.counters.instructions.add_zero.symm, m.counters.cycles.add_zero.symm⟩
  · have hcharge := retire_charge { m with bus := b' } e
    rw [hstep, hretired, hcharge]
    exact ExecutionCounters.charge_counts _ _ _
  · obtain ⟨hinstructions, hcycles, -⟩ := m.counters.record_frame f
    rw [hstep, hretired]
    exact ⟨hinstructions.trans m.counters.instructions.add_zero.symm,
      hcycles.trans m.counters.cycles.add_zero.symm⟩

/-! ## Step after step -/

def after (m : Machine) (made : Nat) : Machine := (fun m => m.step.2)^[made] m

theorem after_succ (m : Machine) (made : Nat) : m.after (made + 1) = (m.after made).step.2 :=
  Function.iterate_succ_apply' _ made m

def Goes (m : Machine) : Prop := ∃ cycles, m.step.1 = .retired cycles

theorem goes_iff : m.Goes ↔ m.step.1.stop? = none := by
  unfold Goes
  cases m.step.1 with
  | retired cycles => exact ⟨fun _ => rfl, fun _ => ⟨cycles, rfl⟩⟩
  | halted | softwareInterrupt | fault => exact ⟨nofun, nofun⟩

theorem after_running {made : Nat} (hrunning : m.runState ≠ .halted)
    (h : ∀ i < made, (m.after i).Goes) : (m.after made).runState ≠ .halted := by
  cases made with
  | zero => exact hrunning
  | succ made =>
    obtain ⟨cycles, hout⟩ := h made (Nat.lt_succ_self made)
    rw [after_succ, (step_going hout).2]
    nofun

inductive Stops (budget : Nat) (m : Machine) : Nat → StopReason → Prop
  | halted : m.runState = .halted → Stops budget m 0 .halted
  | exhausted : m.runState ≠ .halted → (∀ i < budget, (m.after i).Goes) →
      Stops budget m budget .budgetExhausted
  | last {made : Nat} {reason : StopReason} : m.runState ≠ .halted → made < budget →
      (∀ i < made, (m.after i).Goes) →
      (m.after made).step.1.stop? = some reason → Stops budget m (made + 1) reason

theorem Stops.step {budget made : Nat} {reason : StopReason} (hrunning : m.runState ≠ .halted)
    (hgoes : m.Goes) (h : Stops budget m.step.2 made reason) :
    Stops (budget + 1) m (made + 1) reason := by
  have hlater : ∀ made, (∀ i < made, (m.step.2.after i).Goes) →
      ∀ i < made + 1, (m.after i).Goes := by
    intro made h i hi
    cases i with
    | zero => exact hgoes
    | succ i => exact h i (Nat.lt_of_succ_lt_succ hi)
  cases h with
  | halted hhalted =>
    obtain ⟨cycles, hout⟩ := hgoes
    cases hhalted.symm.trans (step_going hout).2
  | exhausted _ h => exact .exhausted hrunning (hlater budget h)
  | last _ hmade h hstop => exact .last hrunning (Nat.succ_lt_succ hmade) (hlater _ h) hstop

/-- The run loop is the iteration of the step. -/
theorem steps_stop (budget : Nat) : ∀ m : Machine,
    ∃ made, Stops budget m made (steps budget m).1 ∧ (steps budget m).2 = m.after made := by
  induction budget with
  | zero =>
    intro m
    by_cases hhalted : m.runState = .halted
    · rw [steps_halted 0 hhalted]
      exact ⟨0, .halted hhalted, rfl⟩
    · rw [steps_zero hhalted]
      exact ⟨0, .exhausted hhalted nofun, rfl⟩
  | succ budget ih =>
    intro m
    by_cases hhalted : m.runState = .halted
    · rw [steps_halted _ hhalted]
      exact ⟨0, .halted hhalted, rfl⟩
    · rw [steps_succ budget hhalted]
      cases hstop : m.step.1.stop? with
      | none =>
        obtain ⟨made, hstops, hend⟩ := ih m.step.2
        exact ⟨made + 1, hstops.step hhalted (goes_iff.mpr hstop), hend⟩
      | some reason => exact ⟨1, .last hhalted (Nat.succ_pos budget) nofun hstop, rfl⟩

/-! ## What is counted -/

def retirements (m : Machine) (made : Nat) : List (Instruction × Effects) :=
  (List.range made).flatMap fun i => (m.after i).retirement?.toList

theorem retirements_succ (m : Machine) (made : Nat) :
    m.retirements (made + 1) = m.retirements made ++ (m.after made).retirement?.toList := by
  rw [retirements, List.range_succ, List.flatMap_append, List.flatMap_singleton]
  rfl

theorem retirements_length (m : Machine) (made : Nat) : (m.retirements made).length ≤ made := by
  induction made with
  | zero => exact Nat.le_refl 0
  | succ made ih =>
    rw [retirements_succ, List.length_append]
    have hone : (m.after made).retirement?.toList.length ≤ 1 := by
      cases (m.after made).retirement? with
      | none => exact Nat.zero_le 1
      | some _ => exact Nat.le_refl 1
    exact Nat.add_le_add ih hone

theorem after_counters (m : Machine) (made : Nat) :
    (m.after made).counters.instructions = m.counters.instructions.add (m.retirements made).length ∧
      (m.after made).counters.cycles =
      m.counters.cycles.add ((m.retirements made).map (·.2.cycles)).sum := by
  induction made with
  | zero => exact ⟨m.counters.instructions.add_zero.symm, m.counters.cycles.add_zero.symm⟩
  | succ made ih =>
    obtain ⟨hinstructions, hcycles⟩ := step_counters (m.after made)
    rw [after_succ, hinstructions, hcycles, ih.1, ih.2, Counter.add_add, Counter.add_add,
      retirements_succ, List.length_append, List.map_append, List.sum_append]
    exact ⟨rfl, rfl⟩

end Machine

namespace Counter

theorem le_add (c : Counter) (n : Nat) : c ≤ c.add n := by
  rw [UInt64.le_iff_toNat_le, toNat_add]
  have := c.toNat_lt
  omega

/-- The difference is what was counted as far as there was room. -/
theorem toNat_add_sub (c : Counter) (n : Nat) : (c.add n - c).toNat = (c.add n).toNat - c.toNat :=
  UInt64.toNat_sub_of_le _ _ (c.le_add n)

theorem gain_le (c : Counter) (n : Nat) : (c.add n - c).toNat ≤ n := by
  rw [toNat_add_sub, toNat_add]
  omega

theorem gain_exact {c : Counter} {n : Nat} (h : (c.add n).toNat < 2 ^ 64 - 1) :
    (c.add n - c).toNat = n := by
  rw [toNat_add_sub]
  rw [toNat_add] at h ⊢
  omega

theorem gain_add (c : Counter) (m n : Nat) :
    (c.add m - c).toNat + ((c.add m).add n - c.add m).toNat = (c.add (m + n) - c).toNat := by
  have hlt := c.toNat_lt
  simp only [toNat_add_sub, toNat_add]
  omega

end Counter

namespace Machine

variable {m m' : Machine}

/-! ## Runs -/

structure Reports (budget : Nat) (m : Machine) (made : Nat) : Prop where
  within : made ≤ budget
  /-- Steps are made as long as each retires an instruction and goes on. -/
  goes : ∀ i, i + 1 < made → (m.after i).Goes
  running : ∀ i < made, (m.after i).runState ≠ .halted
  stops : made = budget ∨ (m.after made).runState = .halted ∨ ∃ i, made = i + 1 ∧ ¬ (m.after i).Goes
  state : (m.run budget).2 = m.after made
  snapshot : (m.run budget).1.snapshot = (m.after made).registers
  budgetExhausted : (m.run budget).1.reason = .budgetExhausted ↔
    m.runState ≠ .halted ∧ ∀ i < budget, (m.after i).Goes
  halted : (m.run budget).1.reason = .halted ↔ (m.runState = .halted ∧ made = 0) ∨
    ∃ last i e, made = last + 1 ∧ (m.after last).retirement? = some (i, e) ∧ i.opcode = .hlt
  softwareInterrupt : ∀ number, (m.run budget).1.reason = .softwareInterrupt number ↔
    m.config.trapVector = none ∧
    ∃ last i e, made = last + 1 ∧ (m.after last).retirement? = some (i, e) ∧ i.opcode = .swi ∧
      i.operands = .control number
  fault : ∀ f, (m.run budget).1.reason = .fault f ↔
    ∃ last, made = last + 1 ∧ (m.after last).step.1 = .fault f
  faulted : ∀ f, (m.run budget).1.reason = .fault f → (m.run budget).2.runState = .faulted f
  executed_le : (m.run budget).1.executed.toNat ≤ budget
  executed : (m.run budget).2.counters.instructions.toNat < 2 ^ 64 - 1 →
    (m.run budget).1.executed.toNat = (m.retirements made).length
  cycles : (m.run budget).2.counters.cycles.toNat < 2 ^ 64 - 1 →
    (m.run budget).1.cycles.toNat = ((m.retirements made).map (·.2.cycles)).sum

theorem config_after (m : Machine) (made : Nat) : (m.after made).config = m.config := by
  induction made with
  | zero => rfl
  | succ made ih =>
    rw [after_succ, ← ih]
    exact (Within.refl (m.after made)).step.config

theorem stop?_halted {out : StepOutcome} : out.stop? = some .halted ↔ out = .halted := by
  cases out <;> simp [StepOutcome.stop?]

theorem stop?_softwareInterrupt {out : StepOutcome} {number : Word} :
    out.stop? = some (.softwareInterrupt number) ↔ out = .softwareInterrupt number := by
  cases out <;> simp [StepOutcome.stop?]

theorem stop?_fault {out : StepOutcome} {f : Fault} : out.stop? = some (.fault f) ↔
    out = .fault f := by
  cases out <;> simp [StepOutcome.stop?]

theorem stop?_ne_budgetExhausted (out : StepOutcome) : out.stop? ≠ some .budgetExhausted := by
  cases out <;> simp [StepOutcome.stop?]

section
variable {budget made : Nat} {reason : StopReason}

theorem Stops.running (h : Stops budget m made reason) :
    ∀ i < made, (m.after i).runState ≠ .halted := by
  intro i hi
  cases h with
  | halted => cases hi
  | exhausted hrunning h => exact after_running hrunning fun j hj => h j (Nat.lt_trans hj hi)
  | last hrunning _ h =>
    exact after_running hrunning fun j hj => h j (Nat.lt_of_lt_of_le hj (Nat.le_of_lt_succ hi))

theorem Stops.budgetExhausted_iff (h : Stops budget m made reason) :
    reason = .budgetExhausted ↔ m.runState ≠ .halted ∧ ∀ i < budget, (m.after i).Goes := by
  cases h with
  | halted hhalted => exact ⟨nofun, fun h => absurd hhalted h.1⟩
  | exhausted hrunning h => exact ⟨fun _ => ⟨hrunning, h⟩, fun _ => rfl⟩
  | @last last _ hrunning hlast _ hstop =>
    constructor
    · rintro rfl
      exact absurd hstop (stop?_ne_budgetExhausted _)
    · intro h
      cases hstop.symm.trans (goes_iff.mp (h.2 last hlast))

/-- Any other reason is that of the last step, or that the machine was halted. -/
theorem Stops.reason_iff (h : Stops budget m made reason) {r : StopReason}
    (hr : r ≠ .budgetExhausted) : reason = r ↔ (r = .halted ∧ m.runState = .halted ∧ made = 0) ∨
      ∃ last, made = last + 1 ∧ (m.after last).step.1.stop? = some r := by
  -- by the way the loop ends: halted at the start, out of budget, or stopped by its last step
  cases h with
  | halted hhalted =>
    constructor
    · rintro rfl
      exact .inl ⟨rfl, hhalted, rfl⟩
    · rintro (⟨rfl, -⟩ | ⟨_, h, -⟩)
      · rfl
      · cases h
  | exhausted hrunning h =>
    constructor
    · rintro rfl
      exact absurd rfl hr
    · rintro (⟨-, hhalted, -⟩ | ⟨last, rfl, hstop⟩)
      · exact absurd hhalted hrunning
      · cases hstop.symm.trans (goes_iff.mp (h last (Nat.lt_succ_self last)))
  | @last last _ hrunning _ _ hstop =>
    constructor
    · rintro rfl
      exact .inr ⟨last, rfl, hstop⟩
    · rintro (⟨-, hhalted, -⟩ | ⟨_, h, hstop'⟩)
      · exact absurd hhalted hrunning
      · obtain rfl := Nat.succ.inj h
        exact Option.some.inj (hstop.symm.trans hstop')

theorem Stops.halted_iff (h : Stops budget m made reason) : reason = .halted ↔
    (m.runState = .halted ∧ made = 0) ∨ ∃ last i e, made = last + 1 ∧
    (m.after last).retirement? = some (i, e) ∧ i.opcode = .hlt := by
  rw [h.reason_iff (r := .halted) nofun]
  constructor
  · rintro (⟨-, hhalted⟩ | ⟨last, rfl, hstop⟩)
    · exact .inl hhalted
    · obtain ⟨i, e, hretired⟩ := (step_halted_iff.mp (stop?_halted.mp hstop)).resolve_left
        (h.running last (Nat.lt_succ_self last))
      exact .inr ⟨last, i, e, rfl, hretired⟩
  · rintro (hhalted | ⟨last, i, e, hlast, hretired⟩)
    · exact .inl ⟨rfl, hhalted⟩
    · exact .inr ⟨last, hlast, stop?_halted.mpr (step_halted_iff.mpr (.inr ⟨i, e, hretired⟩))⟩

theorem Stops.softwareInterrupt_iff (h : Stops budget m made reason) (number : Word) :
    reason = .softwareInterrupt number ↔ m.config.trapVector = none ∧
      ∃ last i e, made = last + 1 ∧ (m.after last).retirement? = some (i, e) ∧ i.opcode = .swi ∧
        i.operands = .control number := by
  rw [h.reason_iff (r := .softwareInterrupt number) nofun]
  constructor
  · rintro (⟨hhalted, -⟩ | ⟨last, rfl, hstop⟩)
    · cases hhalted
    · obtain ⟨hvector, i, e, hretired⟩ :=
        step_softwareInterrupt_iff.mp (stop?_softwareInterrupt.mp hstop)
      exact ⟨config_after m last ▸ hvector, last, i, e, rfl, hretired⟩
  · rintro ⟨hvector, last, i, e, hlast, hretired⟩
    refine .inr ⟨last, hlast,
      stop?_softwareInterrupt.mpr (step_softwareInterrupt_iff.mpr ⟨?_, i, e, hretired⟩)⟩
    rw [config_after m last, hvector]

theorem Stops.fault_iff (h : Stops budget m made reason) (f : Fault) :
    reason = .fault f ↔ ∃ last, made = last + 1 ∧ (m.after last).step.1 = .fault f := by
  rw [h.reason_iff (r := .fault f) nofun]
  constructor
  · rintro (⟨hhalted, -⟩ | ⟨last, hlast, hstop⟩)
    · cases hhalted
    · exact ⟨last, hlast, stop?_fault.mp hstop⟩
  · rintro ⟨last, hlast, hout⟩
    exact .inr ⟨last, hlast, stop?_fault.mpr hout⟩

theorem Stops.le (h : Stops budget m made reason) : made ≤ budget := by
  cases h with
  | halted => exact Nat.zero_le budget
  | exhausted => exact Nat.le_refl budget
  | last _ hlast => exact hlast

theorem Stops.goes (h : Stops budget m made reason) : ∀ i, i + 1 < made → (m.after i).Goes := by
  intro i hi
  cases h with
  | halted => cases hi
  | exhausted _ h => exact h i (Nat.lt_of_succ_lt hi)
  | last _ _ h => exact h i (Nat.lt_of_succ_lt_succ hi)

theorem Stops.stops (h : Stops budget m made reason) :
    made = budget ∨ (m.after made).runState = .halted ∨
    ∃ last, made = last + 1 ∧ ¬ (m.after last).Goes := by
  cases h with
  | halted hhalted => exact .inr (.inl hhalted)
  | exhausted => exact .inl rfl
  | @last last _ _ _ _ hstop =>
    refine .inr (.inr ⟨last, rfl, fun hgoes => ?_⟩)
    cases hstop.symm.trans (goes_iff.mp hgoes)

theorem Stops.reports (h : Stops budget m made (steps budget m).1)
    (hend : (steps budget m).2 = m.after made) : Reports budget m made := by
  have hstate : (m.run budget).2 = m.after made := hend
  obtain ⟨hinstructions, hcycles⟩ := after_counters m made
  have hexecuted : (m.run budget).1.executed =
      m.counters.instructions.add (m.retirements made).length - m.counters.instructions := by
    rw [run_eq, hend, hinstructions]
  have hspent : (m.run budget).1.cycles =
      m.counters.cycles.add ((m.retirements made).map (·.2.cycles)).sum - m.counters.cycles := by
    rw [run_eq, hend, hcycles]
  refine
    { within := h.le
      goes := h.goes
      running := h.running
      stops := h.stops
      state := hstate
      snapshot := congrArg registers hend
      budgetExhausted := h.budgetExhausted_iff
      halted := h.halted_iff
      softwareInterrupt := h.softwareInterrupt_iff
      fault := h.fault_iff
      faulted := fun f hfault => ?_
      executed_le := ?_
      executed := fun hroom => ?_
      cycles := fun hroom => ?_ }
  · obtain ⟨last, rfl, hout⟩ := (h.fault_iff f).mp hfault
    rw [hstate, after_succ]
    exact step_faulted hout
  · rw [hexecuted]
    exact Nat.le_trans (Counter.gain_le _ _) (Nat.le_trans (retirements_length m made) h.le)
  · rw [hstate, hinstructions] at hroom
    rw [hexecuted, Counter.gain_exact hroom]
  · rw [hstate, hcycles] at hroom
    rw [hspent, Counter.gain_exact hroom]

end

/-- A halted machine stays as it is through steps and runs. -/
theorem halted_stays {es : List (Event Machine MachineOperation Answer)}
    (hhalted : m.runState = .halted) (hrun : Run MachineOperation.Step m es m')
    (hops : ∀ e ∈ es, e.operation = .step ∨ ∃ budget, e.operation = .run budget) : m' = m := by
  induction hrun with
  | done => rfl
  | @next m m₁ m' op r es hstep _ ih =>
    have hsame : m₁ = m := by
      rcases hops _ List.mem_cons_self with hop | ⟨budget, hop⟩
      · obtain rfl : op = .step := hop
        have hidle : m.step.2 = m := by rw [step, if_pos hhalted]
        have hchange : Yields (MachineOperation.change fun m => m.step.2) m r m₁ := hstep
        exact (hchange.eq_of_ok rfl).2.trans hidle
      · obtain rfl : op = .run budget := hop
        have hidle : (m.run budget).2 = m := by rw [run_eq, steps_halted budget hhalted]
        have hchange : Yields (MachineOperation.change fun m => (m.run budget).2) m r m₁ := hstep
        exact (hchange.eq_of_ok rfl).2.trans hidle
    subst hsame
    exact ih hhalted fun e he => hops e (List.mem_cons_of_mem _ he)

/-- A run with a break is the run without it. -/
structure Resumes (i j : Nat) (m : Machine) : Prop where
  reason : ((m.run i).2.run j).1.reason = (m.run (i + j)).1.reason
  state : ((m.run i).2.run j).2 = (m.run (i + j)).2
  snapshot : ((m.run i).2.run j).1.snapshot = (m.run (i + j)).1.snapshot
  executed : (m.run i).1.executed.toNat + ((m.run i).2.run j).1.executed.toNat =
    (m.run (i + j)).1.executed.toNat
  cycles :
    (m.run i).1.cycles.toNat + ((m.run i).2.run j).1.cycles.toNat = (m.run (i + j)).1.cycles.toNat

theorem steps_counters (budget : Nat) (m : Machine) : ∃ instructions cycles,
    (steps budget m).2.counters.instructions = m.counters.instructions.add instructions ∧
      (steps budget m).2.counters.cycles = m.counters.cycles.add cycles := by
  obtain ⟨made, -, hend⟩ := steps_stop budget m
  obtain ⟨hinstructions, hcycles⟩ := after_counters m made
  rw [hend]
  exact ⟨_, _, hinstructions, hcycles⟩

theorem resumes {i : Nat} (j : Nat) (h : (m.run i).1.reason = .budgetExhausted) :
    Resumes i j m := by
  have hbreak : steps i m = (.budgetExhausted, (steps i m).2) := Prod.ext h rfl
  have hwhole : steps (i + j) m = steps j (steps i m).2 := (steps_add i j hbreak).1
  obtain ⟨n₁, c₁, hn₁, hc₁⟩ := steps_counters i m
  obtain ⟨n₂, c₂, hn₂, hc₂⟩ := steps_counters j (steps i m).2
  have hexecuted := Counter.gain_add m.counters.instructions n₁ n₂
  have hspent := Counter.gain_add m.counters.cycles c₁ c₂
  rw [← Counter.add_add, ← hn₁, ← hn₂] at hexecuted
  rw [← Counter.add_add, ← hc₁, ← hc₂] at hspent
  have hstate : ((m.run i).2.run j).2 = (m.run (i + j)).2 := (congrArg Prod.snd hwhole).symm
  refine ⟨(congrArg Prod.fst hwhole).symm, hstate, congrArg registers hstate, ?_, ?_⟩
  · rw [run_eq (i + j), hwhole]
    exact hexecuted
  · rw [run_eq (i + j), hwhole]
    exact hspent

/-- A run is the iteration of the step, for any machine and any budget. A halted machine stays as it
is, and a run that only spent its budget is gone on with as if there had been no break. -/
theorem run_iterates (m : Machine) :
    (∀ budget, ∃ made, Reports budget m made) ∧
    (m.runState = .halted → ∀ es m', Run MachineOperation.Step m es m' →
      (∀ e ∈ es, e.operation = .step ∨ ∃ budget, e.operation = .run budget) → m' = m) ∧
    ∀ i j, (m.run i).1.reason = .budgetExhausted → Resumes i j m := by
  refine ⟨fun budget => ?_, fun hhalted es m' hrun hops => halted_stays hhalted hrun hops,
    fun i j h => resumes j h⟩
  obtain ⟨made, hstops, hend⟩ := steps_stop budget m
  exact ⟨made, hstops.reports hend⟩

end Machine

/-! ## A program that is interrupted and then halts -/

namespace HaltingProgram

open PagedMemory TwoReaders Machine

/-- `nop`, `swi 7` and `hlt`. -/
def program : Rom := .ofBytes 0 [0, 0, 0, 0, 7, 0, 0, 2, 0, 0, 0, 1]

def machine : Machine where
  config := ⟨window, ranges, 0, none, .kernel, false⟩
  registers := .zero
  runState := .running
  bus := ⟨start disk TwoReaders.ram, program, ⟨[⟨.rom, 0, 11⟩]⟩, .kernel⟩
  counters := .zero

def interrupted : Machine := (machine.run 3).2

def halted : Machine := (interrupted.run 3).2

/-- The run stops at the interrupt, with or without a break after the first instruction, and goes on
to the halt. -/
theorem run_stops :
    ((machine.run 3).1.reason = .softwareInterrupt 7 ∧ ∃ made, Reports 3 machine made) ∧
    Resumes 1 2 machine ∧
    ((interrupted.run 3).1.reason = .halted ∧ ∃ made, Reports 3 interrupted made) ∧
    ∀ es m', Run MachineOperation.Step halted es m' →
      (∀ e ∈ es, e.operation = .step ∨ ∃ budget, e.operation = .run budget) → m' = halted := by
  obtain ⟨hreports, -, hresumes⟩ := run_iterates machine
  exact ⟨⟨rfl, hreports 3⟩, hresumes 1 2 rfl, ⟨rfl, (run_iterates interrupted).1 3⟩,
    (run_iterates halted).2.1 rfl⟩

end HaltingProgram

end PagedMachine

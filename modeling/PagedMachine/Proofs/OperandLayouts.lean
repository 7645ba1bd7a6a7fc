import PagedMachine.Proofs.BusFaults
import PagedMachine.Proofs.InstructionFormat
import PagedMachine.Proofs.Plans

/-!
# Operand layouts

Three tables have to agree: the one from bytes to opcodes, the formats that say how
the operands of an opcode are laid out, and the units that execute it. A unit takes
operands of one layout. What decodes has the layout of its opcode's unit, so it is
planned; and a plan makes one transfer or none.
-/

namespace PagedMachine

/-- A layout of operands, without their values. -/
inductive OperandLayout where
  | control
  | dataProcessing
  | move
  | moveTop
  | compare
  | shift
  | memory
  | atomic
  | branch
  | floatArith
  | floatCompare
  | floatConvert
  deriving DecidableEq, Repr

def Operands.layout : Operands → OperandLayout
  | .control _ => .control
  | .dataProcessing .. => .dataProcessing
  | .move .. => .move
  | .moveTop .. => .moveTop
  | .compare .. => .compare
  | .shift .. => .shift
  | .memory .. => .memory
  | .atomic .. => .atomic
  | .branch .. => .branch
  | .floatArith .. => .floatArith
  | .floatCompare .. => .floatCompare
  | .floatConvert .. => .floatConvert

def ExecutionUnit.layout : ExecutionUnit → OperandLayout
  | .control => .control
  | .arithmetic | .multiply | .divide => .dataProcessing
  | .move => .move
  | .moveTop => .moveTop
  | .compare => .compare
  | .shift => .shift
  | .load | .store => .memory
  | .swap => .atomic
  | .branch => .branch
  | .floatArith => .floatArith
  | .floatCompare => .floatCompare
  | .floatConvert => .floatConvert

def Instruction.LaidOut (i : Instruction) : Prop := i.operands.layout = i.opcode.unit.layout

/-- What a unit does on the bus, in whatever state it is: a load reads, a store writes and a swap
exchanges, each once and with no other step that could fault, and every other unit leaves the bus
alone and succeeds. -/
def ExecutionUnit.Uses (u : ExecutionUnit) (x : OnBus Effects) : Prop :=
  match u with
  | .load => ∃ address width, ∃ effects : Word → Effects, x = effects <$> Bus.read address width
  | .store =>
    ∃ address width value, ∃ effects :
      Effects, x = (fun _ => effects) <$> Bus.write address width value
  | .swap =>
    ∃ address width value, ∃ effects : Word → Effects, x = effects <$> Bus.swap address width value
  | _ => ∃ effects, x = pure effects

/-! ## Decoding -/

def Format.layout? : Format → Option OperandLayout
  | .control => some .control
  | .dataProcessing => some .dataProcessing
  | .compare => some .compare
  | .shift => some .shift
  | .memory => some .memory
  | .atomic => some .atomic
  | .branch => some .branch
  | .singleOperand | .floatingPoint => none

theorem Opcode.layout_unit_of_format {o : Opcode} {l : OperandLayout}
    (h : o.format.layout? = some l) : o.unit.layout = l := by
  cases o <;> cases h <;> rfl

/-- The format and the unit of an opcode mean the same layout. -/
theorem Operands.Suit.layout_eq {ops : Operands} {o : Opcode} (h : ops.Suit o) :
    ops.layout = o.unit.layout := by
  have single : ∀ {f : Format} {l}, o.format = f → f.layout? = some l → l = o.unit.layout := by
    intro f l hf hl
    rw [← hf] at hl
    exact (Opcode.layout_unit_of_format hl).symm
  cases ops with
  | control => exact single h rfl
  | dataProcessing => exact single h rfl
  | compare => exact single h rfl
  | shift => exact single h rfl
  | memory => exact single h rfl
  | atomic => exact single h rfl
  | move => rcases h with rfl | rfl <;> rfl
  | moveTop =>
    obtain rfl : o = .movt := h
    rfl
  | branch condition target => cases target <;> rcases h with rfl | rfl <;> rfl
  | floatArith => rcases h with rfl | rfl | rfl | rfl <;> rfl
  | floatCompare =>
    obtain rfl : o = .vcmpF32 := h
    rfl
  | floatConvert => rcases h with rfl | rfl <;> rfl

theorem Instruction.laidOut_of_decode? {w : Word} {i : Instruction} (h : decode? w = some i) :
    i.LaidOut := by
  have hwell : i.WellFormed := (decode?_eq_some_iff.mp h).1
  exact hwell.suit.layout_eq

/-! ## Planning -/

namespace ExecutionUnit

variable {i : Instruction} {s : Registers} {o : Opcode}

theorem plan?_eq_none {u : ExecutionUnit} (h : i.operands.layout ≠ u.layout) :
    u.plan? i s = none := by
  obtain ⟨o, ops⟩ := i
  cases ops <;> cases u <;> first | rfl | exact absurd rfl h

section
variable (s)

theorem planControl_of_layout (h : i.operands.layout = .control) :
    ∃ e, planControl i s = some (.done e) := by
  obtain ⟨o, ops⟩ := i
  cases ops <;> cases h
  simp only [planControl]
  split <;> exact ⟨_, rfl⟩

/-- For the three units that write a result, each with its own table. -/
theorem planResult_of_layout {cost : Cost}
    {result? : Sources → Opcode → Option (Word × FlagsUpdate)}
    (h : i.operands.layout = .dataProcessing) (hrow : ∀ x, ∃ r, result? x i.opcode = some r) :
    ∃ e, planResult i s cost result? = some (.done e) := by
  obtain ⟨o, ops⟩ := i
  cases ops <;> cases h
  rename_i setFlags rd rn operand
  obtain ⟨r, hr⟩ := hrow (Sources.ofOperands s rn operand)
  simp only [planResult, hr]
  exact ⟨_, rfl⟩

theorem arithmetic?_of_unit (h : o.unit = .arithmetic) (x : Sources) :
    ∃ r, x.arithmetic? o = some r := by
  cases o <;> cases h <;> exact ⟨_, rfl⟩

theorem product?_of_unit (h : o.unit = .multiply) (x : Sources) : ∃ r, x.product? o = some r := by
  cases o <;> cases h <;> exact ⟨_, rfl⟩

theorem quotient?_of_unit (h : o.unit = .divide) (x : Sources) : ∃ r, x.quotient? o = some r := by
  cases o <;> cases h <;> exact ⟨_, rfl⟩

theorem planMove_of_layout (h : i.operands.layout = .move) (hu : i.opcode.unit = .move) :
    ∃ e, planMove i s = some (.done e) := by
  obtain ⟨o, ops⟩ := i
  cases ops <;> cases h
  cases o <;> cases hu <;> exact ⟨_, rfl⟩

theorem planMoveTop_of_layout (h : i.operands.layout = .moveTop) :
    ∃ e, planMoveTop i s = some (.done e) := by
  obtain ⟨o, ops⟩ := i
  cases ops <;> cases h
  exact ⟨_, rfl⟩

theorem planCompare_of_layout (h : i.operands.layout = .compare) (hu : i.opcode.unit = .compare) :
    ∃ e, planCompare i s = some (.done e) := by
  obtain ⟨o, ops⟩ := i
  cases ops <;> cases h
  cases o <;> cases hu <;> exact ⟨_, rfl⟩

theorem planShift_of_layout (h : i.operands.layout = .shift) (hu : i.opcode.unit = .shift) :
    ∃ e, planShift i s = some (.done e) := by
  obtain ⟨o, ops⟩ := i
  cases ops <;> cases h
  cases o <;> cases hu <;> exact ⟨_, rfl⟩

theorem planLoad_of_layout (h : i.operands.layout = .memory) (hu : i.opcode.unit = .load) :
    ∃ address width effects, planLoad i s = some (.access (.read address width) effects) := by
  obtain ⟨o, ops⟩ := i
  cases ops <;> cases h
  cases o <;> cases hu <;> exact ⟨_, _, _, rfl⟩

theorem planStore_of_layout (h : i.operands.layout = .memory) (hu : i.opcode.unit = .store) :
    ∃ address width value, ∃ e :
      Effects, planStore i s = some (.access (.write address width value) fun _ => e) := by
  obtain ⟨o, ops⟩ := i
  cases ops <;> cases h
  cases o <;> cases hu <;> exact ⟨_, _, _, _, rfl⟩

theorem planSwap_of_layout (h : i.operands.layout = .atomic) (hu : i.opcode.unit = .swap) :
    ∃ address width value effects,
    planSwap i s = some (.access (.write address width value) effects) := by
  obtain ⟨o, ops⟩ := i
  cases ops <;> cases h
  cases o <;> cases hu <;> exact ⟨_, _, _, _, rfl⟩

theorem planBranch_of_layout (h : i.operands.layout = .branch) :
    ∃ e, planBranch i s = some (.done e) := by
  obtain ⟨o, ops⟩ := i
  cases ops <;> cases h
  simp only [planBranch]
  split <;> exact ⟨_, rfl⟩

theorem planFloatArith_of_layout (h : i.operands.layout = .floatArith)
    (hu : i.opcode.unit = .floatArith) : ∃ e, planFloatArith i s = some (.done e) := by
  obtain ⟨o, ops⟩ := i
  cases ops <;> cases h
  cases o <;> cases hu <;> exact ⟨_, rfl⟩

theorem planFloatCompare_of_layout (h : i.operands.layout = .floatCompare) :
    ∃ e, planFloatCompare i s = some (.done e) := by
  obtain ⟨o, ops⟩ := i
  cases ops <;> cases h
  exact ⟨_, rfl⟩

theorem planFloatConvert_of_layout (h : i.operands.layout = .floatConvert)
    (hu : i.opcode.unit = .floatConvert) : ∃ e, planFloatConvert i s = some (.done e) := by
  obtain ⟨o, ops⟩ := i
  cases ops <;> cases h
  cases o <;> cases hu <;> exact ⟨_, rfl⟩

end

theorem run_of_plan? {u : ExecutionUnit} {plan : Plan} (h : u.plan? i s = some plan) :
    u.run i s = plan.run := by
  unfold run
  rw [h]

theorem run_of_done {u : ExecutionUnit} (h : ∃ e, u.plan? i s = some (.done e)) :
    ∃ e, u.run i s = pure e := by
  obtain ⟨e, h⟩ := h
  exact ⟨e, run_of_plan? h⟩

/-- Operands of the unit's layout are planned, and the plan makes the transfer that the unit is
for. -/
theorem uses_run (h : i.LaidOut) (s : Registers) : i.opcode.unit.Uses (i.opcode.unit.run i s) := by
  unfold Instruction.LaidOut at h
  cases hu : i.opcode.unit <;> rw [hu] at h
  case control => exact run_of_done (planControl_of_layout s h)
  case arithmetic => exact run_of_done (planResult_of_layout s h (arithmetic?_of_unit hu))
  case multiply => exact run_of_done (planResult_of_layout s h (product?_of_unit hu))
  case divide => exact run_of_done (planResult_of_layout s h (quotient?_of_unit hu))
  case move => exact run_of_done (planMove_of_layout s h hu)
  case moveTop => exact run_of_done (planMoveTop_of_layout s h)
  case compare => exact run_of_done (planCompare_of_layout s h hu)
  case shift => exact run_of_done (planShift_of_layout s h hu)
  case load =>
    obtain ⟨address, width, effects, hplan⟩ := planLoad_of_layout s h hu
    exact ⟨address, width, effects, run_of_plan? (u := .load) hplan⟩
  case store =>
    obtain ⟨address, width, value, e, hplan⟩ := planStore_of_layout s h hu
    refine ⟨address, width, value, e, ?_⟩
    rw [run_of_plan? (u := .store) hplan]
    simp [Plan.run, Bus.write, discard, LawfulFunctor.map_const]
  case swap =>
    obtain ⟨address, width, value, effects, hplan⟩ := planSwap_of_layout s h hu
    exact ⟨address, width, value, effects, run_of_plan? (u := .swap) hplan⟩
  case branch => exact run_of_done (planBranch_of_layout s h)
  case floatArith => exact run_of_done (planFloatArith_of_layout s h hu)
  case floatCompare => exact run_of_done (planFloatCompare_of_layout s h)
  case floatConvert => exact run_of_done (planFloatConvert_of_layout s h hu)

theorem Uses.memoryFaults {u : ExecutionUnit} {x : OnBus Effects} (h : u.Uses x) :
    MemoryFaults x := by
  cases u
  case load =>
    obtain ⟨address, width, effects, rfl⟩ := h
    exact (Bus.transfer_memoryFaults _).map effects
  case store =>
    obtain ⟨address, width, value, e, rfl⟩ := h
    exact ((Bus.transfer_memoryFaults _).map _).map _
  case swap =>
    obtain ⟨address, width, value, effects, rfl⟩ := h
    exact (Bus.transfer_memoryFaults _).map effects
  all_goals
    obtain ⟨e, rfl⟩ := h
    exact raises_pure e

end ExecutionUnit

namespace Instruction

variable {i : Instruction} {s : Registers}

theorem execute_of_mismatch (h : ¬ i.LaidOut) :
    i.execute s = throw (.invalidOpcode i.encode s.pc) := by
  unfold execute ExecutionUnit.run
  rw [ExecutionUnit.plan?_eq_none h]

theorem execute_invalidOpcode_iff {b b' : Bus} {w pc : Word} :
    Yields (i.execute s) b (.error (.invalidOpcode w pc)) b' ↔
    ¬ i.LaidOut ∧ (w = i.encode ∧ pc = s.pc) ∧ b' = b := by
  constructor
  · intro h
    by_cases hlaid : i.LaidOut
    · exact absurd rfl ((ExecutionUnit.uses_run hlaid s).memoryFaults _ _ _ h)
    · rw [execute_of_mismatch hlaid] at h
      obtain ⟨he, rfl⟩ := h.of_throw
      cases he
      exact ⟨hlaid, ⟨rfl, rfl⟩, rfl⟩
  · rintro ⟨hlaid, ⟨rfl, rfl⟩, rfl⟩
    rw [execute_of_mismatch hlaid]
    rfl

/-- The decoder, the units and the bus agree: what decodes is never an invalid opcode, and what is
laid out for its unit makes the unit's transfer and fails at nothing else. Any other instruction is
an invalid opcode under its own encoding, and the bus is left as it is. -/
theorem execute_layouts (i : Instruction) (s : Registers) :
    (∀ w, decode? w = some i → i.LaidOut ∧ ∀ b w' pc b',
      ¬ Yields (i.execute s) b (.error (.invalidOpcode w' pc)) b') ∧
    (i.LaidOut → i.opcode.unit.Uses (i.execute s)) ∧
    ∀ b w pc b', Yields (i.execute s) b (.error (.invalidOpcode w pc)) b' ↔
      ¬ i.LaidOut ∧ (w = i.encode ∧ pc = s.pc) ∧ b' = b := by
  refine ⟨fun w hw => ?_, fun h => ExecutionUnit.uses_run h s, fun b w pc b' =>
    execute_invalidOpcode_iff⟩
  have hlaid := laidOut_of_decode? hw
  refine ⟨hlaid, fun b w' pc b' h => ?_⟩
  exact (execute_invalidOpcode_iff.mp h).1 hlaid

/-- Built by hand, a branch to a register may take a distance: both targets are of one layout. -/
example : LaidOut ⟨.bx, .branch .al (.relative 1)⟩ := rfl

end Instruction

end PagedMachine

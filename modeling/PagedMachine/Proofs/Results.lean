import PagedMachine.Proofs.OperandLayouts

/-!
# What is left in the registers

Most instructions make no transfer. What they do follows from the registers alone, and
they complete in the same way on every bus. An instruction that sets the flags leaves
its result, the flags and the next program counter; the operands it works on do not
depend on the carry that comes in.
-/

namespace PagedMachine

/-! ## Operands -/

theorem ShiftKind.apply_eq_of_ne_zero (kind : ShiftKind) (value : Word) {amount : Nat}
    (h : amount ≠ 0) (carry carry' : Bool) :
    kind.apply value amount carry = kind.apply value amount carry' := by
  cases kind <;> simp only [apply, if_neg h]

theorem Operand2.value_eq (operand : Operand2) (s : Registers) (carry carry' : Bool) :
    operand.value s carry = operand.value s carry' := by
  cases operand with
  | immediate value => rfl
  | shifted rm shift amount =>
    -- where nothing is shifted, the carry is answered as none
    by_cases hzero : amount.value s = 0
    · simp only [value, ShiftKind.apply, hzero, if_true]
    · simp only [value, shift.apply_eq_of_ne_zero (s.get rm) hzero carry carry']

namespace Registers

def withCarry (s : Registers) (carry : Bool) : Registers :=
  { s with flags := { s.flags with carry := carry } }

def next (s : Registers) (flags : Flags) : Registers := { s with flags := flags, pc := s.pc + 4 }

@[simp] theorem get_next (s : Registers) (flags : Flags) (r : Register) :
    (s.next flags).get r = s.get r := rfl

@[simp] theorem flags_next (s : Registers) (flags : Flags) : (s.next flags).flags = flags := rfl

end Registers

theorem Operand2.value_withCarry (operand : Operand2) (s : Registers) (carry c c' : Bool) :
    operand.value (s.withCarry c) carry = operand.value s c' := by
  rw [operand.value_eq s c' carry]
  rcases operand with value | ⟨rm, shift, amount | rs⟩ <;> rfl

theorem Sources.ofOperands_withCarry (s : Registers) (carry : Bool) (rn : Register)
    (operand : Operand2) : ofOperands (s.withCarry carry) rn operand =
    { ofOperands s rn operand with carry := carry } := by
  rw [ofOperands, operand.value_withCarry s _ carry s.flags.carry]
  rfl

/-! ## Instructions that make no transfer -/

/-- Whatever the bus, it is left alone, and the instruction is committed to these registers. -/
def Instruction.Completes (i : Instruction) (s s' : Registers) : Prop :=
  ∃ e, i.execute s = pure e ∧ e.commit s = s'

theorem Instruction.execute_of_done {i : Instruction} {s : Registers} {e : Effects}
    (h : i.opcode.unit.plan? i s = some (.done e)) : i.execute s = pure e :=
  ExecutionUnit.run_of_plan? h

/-- The effects of a branch that is taken. The target is that of the registers before the link is
written. -/
def Effects.taken (s : Registers) (o : Opcode) (target : BranchTarget) : Effects :=
  { Effects.next s .branchTaken with
    writes := if o = .bl ∨ o = .blx then [(Register.link, s.pc + 4)] else []
    nextPc := ExecutionUnit.destination s target }

def Sum.flags (r : Sum) : Flags := ⟨r.result.negative, r.result == 0, r.carry, r.overflow⟩

namespace Instruction

variable {s : Registers} {o : Opcode} {rd rn : Register} {operand : Operand2}

theorem execute_arithmetic {result : Word} {update : FlagsUpdate}
    (h : (Sources.ofOperands s rn operand).arithmetic? o = some (result, update)) (setFlags : Bool)
    (rd : Register) :
    execute ⟨o, .dataProcessing setFlags rd rn operand⟩ s =
      pure { Effects.next s .alu with
        writes := [(rd, result)]
        update := if setFlags then update else .keep } := by
  have hu : o.unit = .arithmetic := by cases o <;> first | rfl | cases h
  apply execute_of_done
  change o.unit.plan? _ s = _
  rw [hu, ExecutionUnit.plan?, ExecutionUnit.planResult]
  simp only [h, Option.map_some]

theorem execute_comparison {update : FlagsUpdate}
    (h : (Sources.ofOperands s rn operand).comparison? o = some update) :
    execute ⟨o, .compare rn operand⟩ s = pure { Effects.next s .alu with update := update } := by
  have hu : o.unit = .compare := by cases o <;> first | rfl | cases h
  apply execute_of_done
  change o.unit.plan? _ s = _
  rw [hu, ExecutionUnit.plan?, ExecutionUnit.planCompare]
  simp only [h, Option.map_some]

theorem execute_shift {kind : ShiftKind} {amount : ShiftAmount} {result : Word} {carry : Bool}
    (h : ExecutionUnit.shiftKind? o = some kind)
    (hresult : kind.apply (s.get rn) (amount.value s) s.flags.carry = (result, carry))
    (setFlags : Bool) (rd : Register) :
    execute ⟨o, .shift setFlags rd rn amount⟩ s =
      pure { Effects.next s .shift with
        writes := [(rd, result)]
        update := if setFlags then .logical result (some carry) else .keep } := by
  have hu : o.unit = .shift := by cases o <;> first | rfl | cases h
  apply execute_of_done
  change o.unit.plan? _ s = _
  rw [hu, ExecutionUnit.plan?, ExecutionUnit.planShift]
  simp only [h, hresult, Option.map_some]

theorem execute_branch (h : o.unit = .branch) (condition : Condition) (target : BranchTarget) :
    execute ⟨o, .branch condition target⟩ s =
      pure (if condition.passes s.flags then .taken s o target else .next s .branchNotTaken) := by
  apply execute_of_done
  change o.unit.plan? _ s = _
  rw [h, ExecutionUnit.plan?, ExecutionUnit.planBranch]
  by_cases hpasses : condition.passes s.flags = true
  · simp only [if_pos hpasses]
    rfl
  · simp only [if_neg hpasses]

theorem completes_arithmetic {result : Word} {update : FlagsUpdate}
    (h : (Sources.ofOperands s rn operand).arithmetic? o = some (result, update)) (rd : Register) :
    Completes ⟨o, .dataProcessing true rd rn operand⟩ s
      ((s.set rd result).next (update.apply s.flags)) :=
  ⟨_, execute_arithmetic h true rd, rfl⟩

theorem completes_comparison {update : FlagsUpdate}
    (h : (Sources.ofOperands s rn operand).comparison? o = some update) :
    Completes ⟨o, .compare rn operand⟩ s (s.next (update.apply s.flags)) :=
  ⟨_, execute_comparison h, rfl⟩

theorem completes_sum {a b : Word} {carry : Bool}
    (h : (Sources.ofOperands s rn operand).arithmetic? o = some (Sources.sum a b carry))
    (rd : Register) :
    Completes ⟨o, .dataProcessing true rd rn operand⟩ s
      ((s.set rd (addWithCarry a b carry).result).next (addWithCarry a b carry).flags) :=
  completes_arithmetic h rd

theorem completes_compared {a b : Word} {carry : Bool}
    (h : (Sources.ofOperands s rn operand).comparison? o = some (Sources.sum a b carry).2) :
    Completes ⟨o, .compare rn operand⟩ s (s.next (addWithCarry a b carry).flags) :=
  completes_comparison h

theorem completes_shift {kind : ShiftKind} {amount : ShiftAmount} {result : Word} {carry : Bool}
    (h : ExecutionUnit.shiftKind? o = some kind)
    (hresult : kind.apply (s.get rn) (amount.value s) s.flags.carry = (result, carry))
    (rd : Register) :
    Completes ⟨o, .shift true rd rn amount⟩ s
      ((s.set rd result).next ((FlagsUpdate.logical result (some carry)).apply s.flags)) :=
  ⟨_, execute_shift h hresult true rd, rfl⟩

end Instruction

end PagedMachine

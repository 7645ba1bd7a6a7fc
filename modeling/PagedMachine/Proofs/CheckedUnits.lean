import PagedMachine.Execution.Execute
import PagedMachine.Proofs.CheckedBus
import PagedMachine.Proofs.Plans
import PagedMachine.Proofs.Readings

/-!
# Checked execution

The units with their shifts, products and quotients checked, and every index into
a table: of opcodes, of registers and of units. An instruction records its writes
in two slots. All of this passes for every instruction in every register state.
-/

namespace PagedMachine

open Checked

/-! ## The barrel shifter -/

namespace Word

def checkedSignExtend (value : Word) (bits : Nat) : Option Word := do
  let places ← unsigned? 32 (32 - bits)
  let raised ← value.shl? places
  raised.sar? places

theorem checkedSignExtend_eq (value : Word) {bits : Nat} (h : bits = 8 ∨ bits = 16) :
    value.checkedSignExtend bits = some (value.signExtend bits) := by
  have hplaces : unsigned? 32 (32 - bits) = some (32 - bits) :=
    unsigned?_of_lt (by omega) (by omega)
  simp only [checkedSignExtend, hplaces, shl?_eq value (by omega : 32 - bits < 32),
    Option.bind_eq_bind, Option.bind_some]
  rw [sar?_eq _ (by omega), Option.some_inj, signExtend]
  refine congrArg ofInt ?_
  have hlt := value.toNat_lt
  rcases h with rfl | rfl
  · rw [signed, UInt32.toNat_ofNat', field, Int.bmod]
    split <;> split <;> omega
  · rw [signed, UInt32.toNat_ofNat', field, Int.bmod]
    split <;> split <;> omega

end Word

namespace ShiftKind

def checkedApply (kind : ShiftKind) (value : Word) (amount : Nat) (carry : Bool) :
    Option (Word × Bool) :=
  if amount = 0 then some (value, carry)
  else match kind with
  | lsl =>
    if amount < 32 then do
      let shifted ← value.shl? amount
      let last ← value.shr? (← unsigned? 32 (32 - amount))
      return (shifted, last.bit 0)
    else some (0, amount == 32 && value.bit 0)
  | lsr =>
    if amount < 32 then do
      let shifted ← value.shr? amount
      let last ← value.shr? (← unsigned? 32 (amount - 1))
      return (shifted, last.bit 0)
    else some (0, amount == 32 && value.bit 31)
  | asr =>
    if amount < 32 then do
      let shifted ← value.sar? amount
      let last ← value.shr? (← unsigned? 32 (amount - 1))
      return (shifted, last.bit 0)
    else some (if value.negative then 0xFFFFFFFF else 0, value.negative)
  | ror => some (ror.apply value amount carry)

theorem checkedApply_eq (kind : ShiftKind) (value : Word) (amount : Nat) (carry : Bool) :
    kind.checkedApply value amount carry = some (kind.apply value amount carry) := by
  by_cases hzero : amount = 0
  · unfold checkedApply apply
    rw [if_pos hzero, if_pos hzero]
  · by_cases hlt : amount < 32
    · have hback : unsigned? 32 (32 - amount) = some (32 - amount) :=
        unsigned?_of_lt (by omega) (by omega)
      have hlast : unsigned? 32 (amount - 1) = some (amount - 1) :=
        unsigned?_of_lt (by omega) (by omega)
      have hshr :
          ∀ places < 32, value.shr? places = some (UInt32.ofNat (value.toNat / 2 ^ places)) :=
        fun _ h => Word.shr?_eq value h
      cases kind with
      | lsl =>
        simp only [checkedApply, apply, if_neg hzero, if_pos hlt, Word.shl?_eq value hlt, hback,
          hshr (32 - amount) (by omega), Option.bind_eq_bind, Option.bind_some, Word.bit_ofNat_div]
        rfl
      | lsr =>
        simp only [checkedApply, apply, if_neg hzero, if_pos hlt, hshr amount hlt, hlast,
          hshr (amount - 1) (by omega), Option.bind_eq_bind, Option.bind_some, Word.bit_ofNat_div]
        rfl
      | asr =>
        simp only [checkedApply, apply, if_neg hzero, if_pos hlt, Word.sar?_eq value hlt, hlast,
          hshr (amount - 1) (by omega), Option.bind_eq_bind, Option.bind_some, Word.bit_ofNat_div]
        rfl
      | ror => simp only [checkedApply, if_neg hzero]
    · cases kind with
      | lsl | lsr | asr => simp only [checkedApply, apply, if_neg hzero, if_neg hlt]
      | ror => simp only [checkedApply, if_neg hzero]

end ShiftKind

/-! ## Operands -/

def Operand2.checkedValue (s : Registers) (carry : Bool) : Operand2 → Option (Word × Option Bool)
  | immediate value => some (value, none)
  | shifted rm shift amount => do
    let places := amount.value s
    let (value, out) ← shift.checkedApply (s.get rm) places carry
    return (value, if places = 0 then none else some out)

theorem Operand2.checkedValue_eq (s : Registers) (carry : Bool) (operand : Operand2) :
    operand.checkedValue s carry = some (operand.value s carry) := by
  cases operand with
  | immediate value => rfl
  | shifted rm shift amount =>
    simp only [checkedValue, ShiftKind.checkedApply_eq, Option.bind_eq_bind, Option.bind_some]
    rfl

namespace Sources

def checkedOperands (s : Registers) (rn : Register) (operand : Operand2) : Option Sources :=
  (operand.checkedValue s s.flags.carry).map fun (b, shifted) =>
    ⟨s.get rn, b, s.flags.carry, shifted⟩

theorem checkedOperands_eq (s : Registers) (rn : Register) (operand : Operand2) :
    checkedOperands s rn operand = some (ofOperands s rn operand) := by
  rw [checkedOperands, operand.checkedValue_eq]
  rfl

/-! ## Products and quotients -/

def checkedProduct? (x : Sources) (o : Opcode) : Option (Option (Word × FlagsUpdate)) := do
  let unsigned ← unsigned? 64 (x.a.toNat * x.b.toNat)
  let signed ← signed? 64 (x.a.signed * x.b.signed)
  return match o with
  | .mul =>
    let low := UInt32.ofNat unsigned
    some (low, .arithmetic low (decide (2 ^ 32 ≤ unsigned)) (signed != Word.signed low))
  | .umulh =>
    let high := UInt32.ofNat (unsigned / 2 ^ 32)
    some (high, .arithmetic high false false)
  | .smulh =>
    let high := Word.ofInt (signed / 2 ^ 32)
    some (high, .arithmetic high false false)
  | _ => none

def checkedQuotient? (x : Sources) : Opcode → Option (Option (Word × FlagsUpdate))
  | .sdiv =>
    if x.b.signed = 0 then some (some (0, .arithmetic 0 false false))
    else if x.a.signed = -2 ^ 31 ∧
      x.b.signed = -1 then some (some (0x80000000, .arithmetic 0x80000000 false true))
    else do
      let q := Word.ofInt (← PagedMachine.quotient? 32 x.a.signed x.b.signed)
      return some (q, .arithmetic q false false)
  | o => some (x.quotient? o)

theorem checkedProduct?_eq (x : Sources) (o : Opcode) :
    x.checkedProduct? o = some (x.product? o) := by
  have hsigned := Word.signed_mul_bounds x.a x.b
  have hlow : UInt32.ofNat (x.a.toNat * x.b.toNat) = x.a * x.b := by
    rw [UInt32.ofNat_mul, UInt32.ofNat_toNat, UInt32.ofNat_toNat]
  have hu : unsigned? 64 (x.a.toNat * x.b.toNat) = some (x.a.toNat * x.b.toNat) :=
    unsigned?_of_lt (by norm_cast) (Word.toNat_mul_lt x.a x.b)
  have hs : signed? 64 (x.a.signed * x.b.signed) = some (x.a.signed * x.b.signed) :=
    signed?_of_mem (by omega) (by omega)
  simp only [checkedProduct?, hu, hs, Option.bind_eq_bind, Option.bind_some, hlow]
  cases o <;> rfl

theorem checkedQuotient?_eq (x : Sources) (o : Opcode) :
    x.checkedQuotient? o = some (x.quotient? o) := by
  cases o with
  | sdiv =>
    simp only [checkedQuotient?, quotient?, Word.signedQuotient, Word.quotientOverflows]
    by_cases hzero : x.b.signed = 0
    · have hoverflow : (x.b.signed == -1) = false := by rw [hzero]; rfl
      rw [if_pos hzero, if_pos (Word.signed_eq_zero.mp hzero), hoverflow, Bool.and_false]
    · have hb : x.b ≠ 0 := fun hb => hzero (Word.signed_eq_zero.mpr hb)
      rw [if_neg hzero, if_neg hb]
      by_cases hleast : x.a.signed = -2 ^ 31 ∧ x.b.signed = -1
      · rw [if_pos hleast, hleast.1, hleast.2]
        rfl
      · have hoverflow : (x.a.signed == -2 ^ 31 && x.b.signed == -1) = false := by
          rw [Bool.eq_false_iff]
          simpa using hleast
        rw [if_neg hleast, quotient?_eq x.a.signed_fits hzero hleast, hoverflow]
        rfl
  | _ => rfl

end Sources

/-! ## Plans -/

inductive CheckedPlan where
  | done (effects : Effects)
  | access (transfer : Transfer) (effects : Word → Option Effects)

def CheckedPlan.of : Plan → CheckedPlan
  | .done effects => .done effects
  | .access transfer effects => .access transfer fun w => some (effects w)

namespace ExecutionUnit

def checkedResult (i : Instruction) (s : Registers) (cost : Cost)
    (result? : Sources → Opcode → Option (Option (Word × FlagsUpdate))) :
    Option (Option CheckedPlan) :=
  match i.operands with
  | .dataProcessing setFlags rd rn operand => do
    let x ← Sources.checkedOperands s rn operand
    return (← result? x i.opcode).map fun (result, update) =>
      .done { Effects.next s cost with
        writes := [(rd, result)]
        update := if setFlags then update else .keep }
  | _ => some none

def checkedMove (i : Instruction) (s : Registers) : Option (Option CheckedPlan) :=
  match i.operands with
  | .move setFlags rd operand => do
    let (value, shifted) ← operand.checkedValue s s.flags.carry
    let plan := fun (result : Word) =>
      CheckedPlan.done { Effects.next s .alu with
        writes := [(rd, result)]
        update := if setFlags then .logical result shifted else .keep }
    return match i.opcode with
    | .mov => some (plan value)
    | .mvn => some (plan (~~~value))
    | _ => none
  | _ => some none

def checkedCompare (i : Instruction) (s : Registers) : Option (Option CheckedPlan) :=
  match i.operands with
  | .compare rn operand => do
    let x ← Sources.checkedOperands s rn operand
    return (x.comparison? i.opcode).map fun update =>
      .done { Effects.next s .alu with update := update }
  | _ => some none

def checkedShift (i : Instruction) (s : Registers) : Option (Option CheckedPlan) :=
  match i.operands with
  | .shift setFlags rd rn amount =>
    match shiftKind? i.opcode with
    | none => some none
    | some kind => do
      let (result, carry) ← kind.checkedApply (s.get rn) (amount.value s) s.flags.carry
      return some (.done { Effects.next s .shift with
        writes := [(rd, result)]
        update := if setFlags then .logical result (some carry) else .keep })
  | _ => some none

def checkedLoaded? : Opcode → Option (Width × (Word → Option Word))
  | .ldr => some (.word, some)
  | .ldrh => some (.half, some)
  | .ldrb => some (.byte, some)
  | .ldrsh => some (.half, (·.checkedSignExtend 16))
  | .ldrsb => some (.byte, (·.checkedSignExtend 8))
  | _ => none

def checkedLoad (i : Instruction) (s : Registers) : Option CheckedPlan :=
  match i.operands with
  | .memory mode rt rn offset up =>
    let effective := mode.effective rn offset up s
    (checkedLoaded? i.opcode).map fun (width, extend) =>
      .access (.read effective.address width) fun value => do
        let loaded ← extend value
        return { Effects.next s .load with writes := effective.writeback.toList ++ [(rt, loaded)] }
  | _ => none

/-- The units that are not named add, subtract and multiply with wrapping only, or not at all. -/
def checkedPlan? (u : ExecutionUnit) (i : Instruction) (s : Registers) :
    Option (Option CheckedPlan) :=
  match u with
  | .arithmetic => checkedResult i s .alu fun x o => some (x.arithmetic? o)
  | .multiply => checkedResult i s .multiply Sources.checkedProduct?
  | .divide => checkedResult i s .divide Sources.checkedQuotient?
  | .move => checkedMove i s
  | .compare => checkedCompare i s
  | .shift => checkedShift i s
  | .load => some (checkedLoad i s)
  | u => some ((u.plan? i s).map .of)

variable {i : Instruction} {s : Registers}

theorem checkedResult_eq {cost : Cost}
    {checked? : Sources → Opcode → Option (Option (Word × FlagsUpdate))}
    {result? : Sources → Opcode → Option (Word × FlagsUpdate)}
    (h : ∀ x o, checked? x o = some (result? x o)) :
    checkedResult i s cost checked? = some ((planResult i s cost result?).map .of) := by
  obtain ⟨opcode, operands⟩ := i
  cases operands with
  | dataProcessing setFlags rd rn operand =>
    simp only [checkedResult, planResult, Sources.checkedOperands_eq, h, Option.bind_eq_bind,
      Option.bind_some]
    cases result? (Sources.ofOperands s rn operand) opcode <;> rfl
  | _ => rfl

theorem checkedMove_eq : checkedMove i s = some ((planMove i s).map .of) := by
  obtain ⟨opcode, operands⟩ := i
  cases operands with
  | move setFlags rd operand =>
    simp only [checkedMove, planMove, Operand2.checkedValue_eq, Option.bind_eq_bind,
      Option.bind_some]
    cases opcode <;> rfl
  | _ => rfl

theorem checkedCompare_eq : checkedCompare i s = some ((planCompare i s).map .of) := by
  obtain ⟨opcode, operands⟩ := i
  cases operands with
  | compare rn operand =>
    simp only [checkedCompare, planCompare, Sources.checkedOperands_eq, Option.bind_eq_bind,
      Option.bind_some]
    cases (Sources.ofOperands s rn operand).comparison? opcode <;> rfl
  | _ => rfl

theorem checkedShift_eq : checkedShift i s = some ((planShift i s).map .of) := by
  obtain ⟨opcode, operands⟩ := i
  cases operands with
  | shift setFlags rd rn amount =>
    simp only [checkedShift, planShift]
    cases shiftKind? opcode with
    | none => rfl
    | some kind =>
      simp only [ShiftKind.checkedApply_eq, Option.bind_eq_bind, Option.bind_some]
      rfl
  | _ => rfl

theorem checkedLoaded?_eq (o : Opcode) :
    checkedLoaded? o = (loaded? o).map fun (width, extend) =>
      (width, fun value => some (extend value)) := by
  have hextend : ∀ bits, bits = 8 ∨ bits = 16 →
      (fun value : Word => value.checkedSignExtend bits) = fun value =>
        some (value.signExtend bits) :=
    fun _ hbits => funext fun value => value.checkedSignExtend_eq hbits
  cases o with
  | ldrsh =>
    rw [checkedLoaded?, hextend 16 (.inr rfl)]
    rfl
  | ldrsb =>
    rw [checkedLoaded?, hextend 8 (.inl rfl)]
    rfl
  | _ => rfl

theorem checkedLoad_eq : checkedLoad i s = (planLoad i s).map .of := by
  obtain ⟨opcode, operands⟩ := i
  cases operands with
  | memory mode rt rn offset up =>
    simp only [checkedLoad, planLoad, checkedLoaded?_eq]
    cases loaded? opcode <;> rfl
  | _ => rfl

theorem checkedPlan?_eq (u : ExecutionUnit) (i : Instruction) (s : Registers) :
    u.checkedPlan? i s = some ((u.plan? i s).map .of) := by
  cases u with
  | arithmetic => exact checkedResult_eq fun _ _ => rfl
  | multiply => exact checkedResult_eq Sources.checkedProduct?_eq
  | divide => exact checkedResult_eq Sources.checkedQuotient?_eq
  | move => exact checkedMove_eq
  | compare => exact checkedCompare_eq
  | shift => exact checkedShift_eq
  | load => exact congrArg some checkedLoad_eq
  | control | moveTop | store | swap | branch | floatArith | floatCompare | floatConvert => rfl

end ExecutionUnit

/-! ## Registers -/

namespace Registers

def checkedGet (s : Registers) (r : Register) : Option Word := s.general[r.val]?

def checkedSet (s : Registers) (r : Register) (value : Word) : Option Registers :=
  if r.val < s.general.size then some (s.set r value) else none

theorem checkedGet_eq (s : Registers) (r : Register) : s.checkedGet r = some (s.get r) :=
  Vector.getElem?_eq_getElem r.isLt

theorem checkedSet_eq (s : Registers) (r : Register) (value : Word) :
    s.checkedSet r value = some (s.set r value) :=
  if_pos r.isLt

end Registers

def ShiftAmount.registers : ShiftAmount → List Register
  | immediate _ => []
  | register rs => [rs]

def Operand2.registers : Operand2 → List Register
  | immediate _ => []
  | shifted rm _ amount => rm :: amount.registers

def MemoryOffset.registers : MemoryOffset → List Register
  | immediate _ => []
  | register rm => [rm]

def BranchTarget.registers : BranchTarget → List Register
  | relative _ => []
  | register rm => [rm]

def Operands.registers : Operands → List Register
  | control _ => []
  | dataProcessing _ _ rn operand => rn :: operand.registers
  | move _ _ operand => operand.registers
  | moveTop rd _ => [rd]
  | compare rn operand => rn :: operand.registers
  | shift _ _ rn amount => rn :: amount.registers
  | memory _ rt rn offset _ => rt :: rn :: offset.registers
  | atomic _ rm rn => [rm, rn]
  | branch _ target => target.registers
  | floatArith _ rn rm => [rn, rm]
  | floatCompare rn rm => [rn, rm]
  | floatConvert _ rn => [rn]

theorem mapM_checkedGet (s : Registers) (rs : List Register) :
    rs.mapM s.checkedGet = some (rs.map s.get) := by
  have hget : s.checkedGet = fun r => pure (s.get r) := funext s.checkedGet_eq
  rw [hget, List.mapM_pure]
  rfl

/-! ## Two slots -/

/-- Each write goes into the next free slot. -/
def Effects.recorded? (e : Effects) : Option (List (Register × Word)) :=
  e.writes.foldlM (fun slots w => if slots.length < 2 then some (slots ++ [w]) else none) []

theorem Effects.recorded?_eq {e : Effects} (h : e.writes.length ≤ 2) :
    e.recorded? = some e.writes := by
  unfold recorded?
  match hw : e.writes, h with
  | [], _ => rfl
  | [_], _ => rfl
  | [_, _], _ => rfl
  | _ :: _ :: _ :: _, h => exact absurd h (by simp)

def Effects.checkedCommit (e : Effects) (s : Registers) : Option Registers := do
  let s' ← e.writes.foldlM (fun s w => s.checkedSet w.1 w.2) s
  return { s' with flags := e.update.apply s.flags, pc := e.nextPc }

theorem foldlM_checkedSet (s : Registers) (writes : List (Register × Word)) :
    writes.foldlM (fun s w => s.checkedSet w.1 w.2) s = some (s.setAll writes) := by
  have hset : (fun (s : Registers) (w : Register × Word) => s.checkedSet w.1 w.2) =
      fun s w => pure (s.set w.1 w.2) := funext fun s => funext fun w => s.checkedSet_eq w.1 w.2
  rw [hset, List.foldlM_pure]
  rfl

theorem Effects.checkedCommit_eq (e : Effects) (s : Registers) :
    e.checkedCommit s = some (e.commit s) := by
  rw [checkedCommit, foldlM_checkedSet]
  rfl

/-! ## Tables -/

def Opcode.table : List (Nat × Opcode) :=
  [(0x00, .nop), (0x01, .hlt), (0x02, .swi),
    (0x10, .add), (0x11, .adc), (0x12, .sub), (0x13, .sbc), (0x14, .rsb), (0x15, .rsc),
    (0x16, .and), (0x17, .orr), (0x18, .eor), (0x19, .bic), (0x1A, .mul), (0x1B, .umulh),
    (0x1C, .smulh), (0x1D, .udiv), (0x1E, .sdiv),
    (0x20, .mov), (0x21, .mvn), (0x22, .movt),
    (0x30, .cmp), (0x31, .cmn), (0x32, .tst), (0x33, .teq),
    (0x40, .lsl), (0x41, .lsr), (0x42, .asr), (0x43, .ror),
    (0x50, .ldr), (0x51, .ldrh), (0x52, .ldrb), (0x53, .ldrsh), (0x54, .ldrsb), (0x55, .str),
    (0x56, .strh), (0x57, .strb),
    (0x60, .swp), (0x61, .swpb),
    (0x70, .b), (0x71, .bl), (0x72, .bx), (0x73, .blx),
    (0x80, .vaddF32), (0x81, .vsubF32), (0x82, .vmulF32), (0x83, .vdivF32), (0x84, .vcmpF32),
    (0x85, .vcvtF32S32), (0x86, .vcvtS32F32)]

def Opcode.lookup : List (Option Opcode) :=
  table.foldl (fun places row => places.set row.1 (some row.2)) (List.replicate 256 none)

def handlers : List (Opcode × ExecutionUnit) :=
  [(.nop, .control), (.hlt, .control), (.swi, .control),
    (.add, .arithmetic), (.adc, .arithmetic), (.sub, .arithmetic), (.sbc, .arithmetic),
    (.rsb, .arithmetic), (.rsc, .arithmetic), (.and, .arithmetic), (.orr, .arithmetic),
    (.eor, .arithmetic), (.bic, .arithmetic),
    (.mul, .multiply), (.umulh, .multiply), (.smulh, .multiply),
    (.udiv, .divide), (.sdiv, .divide),
    (.mov, .move), (.mvn, .move),
    (.movt, .moveTop),
    (.cmp, .compare), (.cmn, .compare), (.tst, .compare), (.teq, .compare),
    (.lsl, .shift), (.lsr, .shift), (.asr, .shift), (.ror, .shift),
    (.ldr, .load), (.ldrh, .load), (.ldrb, .load), (.ldrsh, .load), (.ldrsb, .load),
    (.str, .store), (.strh, .store), (.strb, .store),
    (.swp, .swap), (.swpb, .swap),
    (.b, .branch), (.bl, .branch), (.bx, .branch), (.blx, .branch),
    (.vaddF32, .floatArith), (.vsubF32, .floatArith), (.vmulF32, .floatArith),
    (.vdivF32, .floatArith),
    (.vcmpF32, .floatCompare),
    (.vcvtF32S32, .floatConvert), (.vcvtS32F32, .floatConvert)]

def registerFields : List Nat := [3, 8, 10, 14, 16, 18]

def Instruction.checkedDecodeAt (w pc : Word) : Option (Except Fault Instruction) := do
  let opcode? ← Opcode.lookup[w.opcodeByte]?
  let _ ← registerFields.mapM fun low => Register.all[w.field low 4]?
  return match opcode? with
  | none => .error (.invalidOpcode w pc)
  | some opcode =>
    match Operands.ofWord? opcode w with
    | none => .error (.invalidOpcode w pc)
    | some operands => .ok ⟨opcode, operands⟩

/-- The row at the index of an opcode is its own, here and in the table of units. -/
theorem Opcode.table_eq (o : Opcode) : table[o.index]? = some (o.byte, o) := by cases o <;> rfl

theorem Opcode.lookup_range : lookup = (List.range 256).map ofByte? := by decide +kernel

theorem Opcode.lookup_eq (w : Word) :
    Opcode.lookup[w.opcodeByte]? = some (ofByte? w.opcodeByte) := by
  have hlt : w.opcodeByte < 256 := Nat.mod_lt _ (by decide)
  rw [lookup_range, List.getElem?_map, List.getElem?_range hlt]
  rfl

theorem handlers_eq (o : Opcode) : handlers[o.index]? = some (o, o.unit) := by cases o <;> rfl

theorem Register.all_eq (w : Word) (low : Nat) :
    Register.all[w.field low 4]? = some (ofField w low) := by
  have hlt : w.field low 4 < 16 := Nat.mod_lt _ (by decide)
  simp [all, ofField, hlt]

theorem Instruction.checkedDecodeAt_eq (w pc : Word) :
    checkedDecodeAt w pc = some (decodeAt w pc) := by
  simp only [checkedDecodeAt, Opcode.lookup_eq, Register.all_eq, registerFields, decodeAt, decode?]
  cases Opcode.ofByte? w.opcodeByte with
  | none => rfl
  | some opcode =>
    cases hoperands : Operands.ofWord? opcode w with
    | none => simp [hoperands]
    | some operands => simp [hoperands]

/-! ## Execution -/

def CheckedPlan.run : CheckedPlan → Checked Bus Effects
  | .done effects => do
    let _ ← defined effects.recorded?
    return effects
  | .access transfer effects => do
    let effects ← defined (effects (← Bus.checkedTransfer transfer))
    let _ ← defined effects.recorded?
    return effects

def ExecutionUnit.checkedRun (u : ExecutionUnit) (i : Instruction) (s : Registers) :
    Checked Bus Effects := do
  match ← defined (u.checkedPlan? i s) with
  | some plan => plan.run
  | none =>
    let (_, opcode) ← defined Opcode.table[i.opcode.index]?
    throw (.fault (.invalidOpcode (Instruction.encode ⟨opcode, i.operands⟩) s.pc))

def Instruction.checkedExecute (i : Instruction) (s : Registers) : Checked Bus Effects := do
  let (_, unit) ← defined handlers[i.opcode.index]?
  let _ ← defined (i.operands.registers.mapM s.checkedGet)
  unit.checkedRun i s

def checkedExecuteNext (s : Registers) : Checked Bus Effects := do
  let w ← Bus.checkedTransfer (.fetch s.pc)
  let i ← outcome (result (← defined (Instruction.checkedDecodeAt w s.pc)))
  i.checkedExecute s

variable {b : Bus}

theorem passes_run (hb : b.memory.Backed) {plan : Plan}
    (hwrites : ∀ w, (plan.effects w).writes.length ≤ 2) :
    Passes (CheckedPlan.of plan).run plan.run b := by
  cases plan with
  | done effects => exact passes_defined (Effects.recorded?_eq (hwrites 0)) (passes_pure effects b)
  | access transfer effects =>
    refine (Bus.passes_transfer transfer hb).bind fun w b₁ _ => passes_defined rfl ?_
    exact passes_defined (Effects.recorded?_eq (hwrites w)) (passes_pure (effects w) b₁)

theorem ExecutionUnit.passes_run (hb : b.memory.Backed) (u : ExecutionUnit) (i : Instruction)
    (s : Registers) : Passes (u.checkedRun i s) (u.run i s) b := by
  refine passes_defined (u.checkedPlan?_eq i s) ?_
  unfold run
  cases hplan : u.plan? i s with
  | none => exact passes_defined (Opcode.table_eq i.opcode) (passes_throw _ b)
  | some plan => exact PagedMachine.passes_run hb (Plan.writes_le_two hplan)

theorem passes_executeNext (hb : b.memory.Backed) (s : Registers) :
    Passes (checkedExecuteNext s) (executeNext s) b := by
  refine (Bus.passes_transfer (.fetch s.pc) hb).bind fun w b₁ hfetch => ?_
  have hb₁ := Bus.backed_of_yields (Bus.keeps_transfer PagedMemory.enduring_backed _) hb hfetch
  refine passes_defined (Instruction.checkedDecodeAt_eq w s.pc) ?_
  refine (passes_outcome rfl b₁).bind fun i b₂ hdecode => ?_
  obtain ⟨-, rfl⟩ := hdecode.of_outcome
  refine passes_defined (handlers_eq i.opcode)
    (passes_defined (mapM_checkedGet s i.operands.registers) ?_)
  exact ExecutionUnit.passes_run hb₁ i.opcode.unit i s

end PagedMachine

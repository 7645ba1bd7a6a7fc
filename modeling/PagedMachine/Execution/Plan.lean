import PagedMachine.Arithmetic.Adder
import PagedMachine.Arithmetic.Float
import PagedMachine.Bus
import PagedMachine.Execution.Effects
import PagedMachine.Execution.Operand

/-!
# Plans

An execution unit reads the operands and plans the instruction: either its
effects are known, or they follow from the answer to one transfer on the bus. A
unit has no plan for operands of another layout or an opcode of another unit.
-/

namespace PagedMachine

inductive Plan where
  | done (effects : Effects)
  | access (transfer : Transfer) (effects : Word → Effects)

inductive ExecutionUnit where
  | control
  | arithmetic
  | multiply
  | divide
  | move
  | moveTop
  | compare
  | shift
  | load
  | store
  | swap
  | branch
  | floatArith
  | floatCompare
  | floatConvert
  deriving DecidableEq, Repr

def Opcode.unit : Opcode → ExecutionUnit
  | nop | hlt | swi => .control
  | add | adc | sub | sbc | rsb | rsc | and | orr | eor | bic => .arithmetic
  | mul | umulh | smulh => .multiply
  | udiv | sdiv => .divide
  | mov | mvn => .move
  | movt => .moveTop
  | cmp | cmn | tst | teq => .compare
  | lsl | lsr | asr | ror => .shift
  | ldr | ldrh | ldrb | ldrsh | ldrsb => .load
  | str | strh | strb => .store
  | swp | swpb => .swap
  | b | bl | bx | blx => .branch
  | vaddF32 | vsubF32 | vmulF32 | vdivF32 => .floatArith
  | vcmpF32 => .floatCompare
  | vcvtF32S32 | vcvtS32F32 => .floatConvert

/-! ## Results with their flags -/

/-- The two sources of a data-processing instruction and the carries it may use. -/
structure Sources where
  a : Word
  b : Word
  carry : Bool
  /-- The carry of the shift that made `b`, where there was one. -/
  shifted : Option Bool
  deriving DecidableEq, Repr

namespace Sources

def ofOperands (s : Registers) (rn : Register) (operand : Operand2) : Sources :=
  let (b, shifted) := operand.value s s.flags.carry
  ⟨s.get rn, b, s.flags.carry, shifted⟩

def sum (a b : Word) (carry : Bool) : Word × FlagsUpdate :=
  let r := addWithCarry a b carry
  (r.result, .arithmetic r.result r.carry r.overflow)

def logical (x : Sources) (result : Word) : Word × FlagsUpdate :=
  (result, .logical result x.shifted)

def arithmetic? (x : Sources) : Opcode → Option (Word × FlagsUpdate)
  | .add => some (sum x.a x.b false)
  | .adc => some (sum x.a x.b x.carry)
  | .sub => some (sum x.a (~~~x.b) true)
  | .sbc => some (sum x.a (~~~x.b) x.carry)
  | .rsb => some (sum x.b (~~~x.a) true)
  | .rsc => some (sum x.b (~~~x.a) x.carry)
  | .and => some (x.logical (x.a &&& x.b))
  | .orr => some (x.logical (x.a ||| x.b))
  | .eor => some (x.logical (x.a ^^^ x.b))
  | .bic => some (x.logical (x.a &&& ~~~x.b))
  | _ => none

def product? (x : Sources) : Opcode → Option (Word × FlagsUpdate)
  | .mul =>
    let low := x.a * x.b
    some (low, .arithmetic low (x.a.mulCarries x.b) (x.a.mulOverflows x.b))
  | .umulh =>
    let high := x.a.mulHigh x.b
    some (high, .arithmetic high false false)
  | .smulh =>
    let high := x.a.signedMulHigh x.b
    some (high, .arithmetic high false false)
  | _ => none

def quotient? (x : Sources) : Opcode → Option (Word × FlagsUpdate)
  | .udiv =>
    let q := x.a.quotient x.b
    some (q, .arithmetic q false false)
  | .sdiv =>
    let q := x.a.signedQuotient x.b
    some (q, .arithmetic q false (x.a.quotientOverflows x.b))
  | _ => none

def comparison? (x : Sources) : Opcode → Option FlagsUpdate
  | .cmp => some (sum x.a (~~~x.b) true).2
  | .cmn => some (sum x.a x.b false).2
  | .tst => some (x.logical (x.a &&& x.b)).2
  | .teq => some (x.logical (x.a ^^^ x.b)).2
  | _ => none

end Sources

/-! ## Units -/

namespace ExecutionUnit

def planControl (i : Instruction) (s : Registers) : Option Plan :=
  match i.operands with
  | .control payload =>
    match i.opcode with
    | .hlt => some (.done { Effects.next s .control with control := .halt })
    | .swi =>
      some (.done { Effects.next s .softwareInterrupt with control := .softwareInterrupt payload })
    | _ => some (.done (Effects.next s .control))
  | _ => none

def planResult (i : Instruction) (s : Registers) (cost : Cost)
    (result? : Sources → Opcode → Option (Word × FlagsUpdate)) : Option Plan :=
  match i.operands with
  | .dataProcessing setFlags rd rn operand =>
    (result? (Sources.ofOperands s rn operand) i.opcode).map fun (result, update) =>
      .done { Effects.next s cost with
        writes := [(rd, result)]
        update := if setFlags then update else .keep }
  | _ => none

def planMove (i : Instruction) (s : Registers) : Option Plan :=
  match i.operands with
  | .move setFlags rd operand =>
    let (value, shifted) := operand.value s s.flags.carry
    let plan := fun (result : Word) =>
      Plan.done { Effects.next s .alu with
        writes := [(rd, result)]
        update := if setFlags then .logical result shifted else .keep }
    match i.opcode with
    | .mov => some (plan value)
    | .mvn => some (plan (~~~value))
    | _ => none
  | _ => none

def planMoveTop (i : Instruction) (s : Registers) : Option Plan :=
  match i.operands with
  | .moveTop rd value =>
    some (.done { Effects.next s .alu with
      writes := [(rd, UInt32.ofNat ((s.get rd).field 0 16 + value.toNat * 2 ^ 16))] })
  | _ => none

def planCompare (i : Instruction) (s : Registers) : Option Plan :=
  match i.operands with
  | .compare rn operand =>
    ((Sources.ofOperands s rn operand).comparison? i.opcode).map fun update =>
      .done { Effects.next s .alu with update := update }
  | _ => none

def shiftKind? : Opcode → Option ShiftKind
  | .lsl => some .lsl
  | .lsr => some .lsr
  | .asr => some .asr
  | .ror => some .ror
  | _ => none

def planShift (i : Instruction) (s : Registers) : Option Plan :=
  match i.operands with
  | .shift setFlags rd rn amount =>
    (shiftKind? i.opcode).map fun kind =>
      let (result, carry) := kind.apply (s.get rn) (amount.value s) s.flags.carry
      .done { Effects.next s .shift with
        writes := [(rd, result)]
        update := if setFlags then .logical result (some carry) else .keep }
  | _ => none

def loaded? : Opcode → Option (Width × (Word → Word))
  | .ldr => some (.word, id)
  | .ldrh => some (.half, id)
  | .ldrb => some (.byte, id)
  | .ldrsh => some (.half, (·.signExtend 16))
  | .ldrsb => some (.byte, (·.signExtend 8))
  | _ => none

/-- The loaded value is written last, so it stays when it goes to the base register. -/
def planLoad (i : Instruction) (s : Registers) : Option Plan :=
  match i.operands with
  | .memory mode rt rn offset up =>
    let effective := mode.effective rn offset up s
    (loaded? i.opcode).map fun (width, extend) =>
      .access (.read effective.address width) fun value =>
        { Effects.next s .load with writes := effective.writeback.toList ++ [(rt, extend value)] }
  | _ => none

def storedWidth? : Opcode → Option Width
  | .str => some .word
  | .strh => some .half
  | .strb => some .byte
  | _ => none

def planStore (i : Instruction) (s : Registers) : Option Plan :=
  match i.operands with
  | .memory mode rt rn offset up =>
    let effective := mode.effective rn offset up s
    (storedWidth? i.opcode).map fun width =>
      .access (.write effective.address width (s.get rt)) fun _ =>
        { Effects.next s .store with writes := effective.writeback.toList }
  | _ => none

def swappedWidth? : Opcode → Option Width
  | .swp => some .word
  | .swpb => some .byte
  | _ => none

def planSwap (i : Instruction) (s : Registers) : Option Plan :=
  match i.operands with
  | .atomic rd rm rn =>
    (swappedWidth? i.opcode).map fun width =>
      .access (.write (s.get rn) width (s.get rm)) fun old =>
        { Effects.next s .swap with writes := [(rd, old)] }
  | _ => none

def destination (s : Registers) : BranchTarget → Word
  | .relative words => s.pc + Word.ofInt (words.toInt * 4)
  | .register rm => s.get rm

/-- The target is read before the return address is written. -/
def planBranch (i : Instruction) (s : Registers) : Option Plan :=
  match i.operands with
  | .branch condition target =>
    if condition.passes s.flags then
      some (.done { Effects.next s .branchTaken with
        writes := if i.opcode = .bl ∨ i.opcode = .blx then [(Register.link, s.pc + 4)] else []
        nextPc := destination s target })
    else some (.done (Effects.next s .branchNotTaken))
  | _ => none

def floatResult? (x y : Float32) : Opcode → Option Float32
  | .vaddF32 => some (x + y)
  | .vsubF32 => some (x - y)
  | .vmulF32 => some (x * y)
  | .vdivF32 => some (x / y)
  | _ => none

def planFloatArith (i : Instruction) (s : Registers) : Option Plan :=
  match i.operands with
  | .floatArith rd rn rm =>
    (floatResult? (s.get rn).toFloat (s.get rm).toFloat i.opcode).map fun result =>
      .done { Effects.next s (if i.opcode = .vdivF32 then .floatDivide else .floatArith) with
        writes := [(rd, Word.ofFloat result)] }
  | _ => none

def planFloatCompare (i : Instruction) (s : Registers) : Option Plan :=
  match i.operands with
  | .floatCompare rn rm =>
    let f := (s.get rn).compareFloats (s.get rm)
    some (.done { Effects.next s .floatCompare with
      update := .nzcv f.negative f.zero f.carry f.overflow })
  | _ => none

def planFloatConvert (i : Instruction) (s : Registers) : Option Plan :=
  match i.operands with
  | .floatConvert rd rn =>
    let plan := fun (result : Word) =>
      Plan.done { Effects.next s .floatArith with writes := [(rd, result)] }
    match i.opcode with
    | .vcvtF32S32 => some (plan (s.get rn).floatOfSigned)
    | .vcvtS32F32 => some (plan (s.get rn).signedOfFloat)
    | _ => none
  | _ => none

def plan? (u : ExecutionUnit) (i : Instruction) (s : Registers) : Option Plan :=
  match u with
  | .control => planControl i s
  | .arithmetic => planResult i s .alu Sources.arithmetic?
  | .multiply => planResult i s .multiply Sources.product?
  | .divide => planResult i s .divide Sources.quotient?
  | .move => planMove i s
  | .moveTop => planMoveTop i s
  | .compare => planCompare i s
  | .shift => planShift i s
  | .load => planLoad i s
  | .store => planStore i s
  | .swap => planSwap i s
  | .branch => planBranch i s
  | .floatArith => planFloatArith i s
  | .floatCompare => planFloatCompare i s
  | .floatConvert => planFloatConvert i s

end ExecutionUnit

end PagedMachine

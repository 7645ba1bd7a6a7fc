import PagedMachine.Fault
import PagedMachine.Isa.Encoding

/-!
# Decoding

Every word is an instruction or none. Reserved bits must be zero, so that an
instruction has one word only.
-/

namespace PagedMachine

/-- The second operand held in the low 14 bits and the immediate bit. -/
def Operand2.ofWord? (w : Word) : Option Operand2 :=
  if w.bit 22 then
    some (.immediate (UInt32.ofNat (w.field 0 14)))
  else
    let rm := Register.ofField w 10
    let shift := ShiftKind.ofCode (w.field 8 2)
    if w.bit 7 then
      if w.field 0 3 = 0 then some (.shifted rm shift (.register (Register.ofField w 3))) else none
    else
      if w.field 0 2 = 0 then
        some (.shifted rm shift (.immediate (UInt8.ofNat (w.field 2 5))))
      else none

namespace Operands

def ofControl? (o : Opcode) (w : Word) : Option Operands :=
  if o = .swi ∨ w.field 0 24 = 0 then some (.control (UInt32.ofNat (w.field 0 24))) else none

def ofDataProcessing? (w : Word) : Option Operands :=
  (Operand2.ofWord? w).map
    (.dataProcessing (w.bit 23) (Register.ofField w 18) (Register.ofField w 14) ·)

def ofSingleOperand? (o : Opcode) (w : Word) : Option Operands :=
  if o = .movt then
    if w.field 22 2 = 0 ∧ w.field 16 2 = 0 then
      some (.moveTop (Register.ofField w 18) (UInt16.ofNat (w.field 0 16)))
    else none
  else if w.bit 22 then
    if w.field 16 2 = 0 then
      some (.move (w.bit 23) (Register.ofField w 18) (.immediate (UInt32.ofNat (w.field 0 16))))
    else none
  else if w.field 14 4 = 0 then
    (Operand2.ofWord? w).map (.move (w.bit 23) (Register.ofField w 18) ·)
  else none

def ofCompare? (w : Word) : Option Operands :=
  if w.bit 23 = false ∧ w.field 18 4 = 0 then
    (Operand2.ofWord? w).map (.compare (Register.ofField w 14) ·)
  else none

def ofShift? (w : Word) : Option Operands :=
  let shift := Operands.shift (w.bit 23) (Register.ofField w 18) (Register.ofField w 14)
  if w.bit 22 then
    if w.field 5 9 = 0 then some (shift (.immediate (UInt8.ofNat (w.field 0 5)))) else none
  else
    if w.field 0 10 = 0 then some (shift (.register (Register.ofField w 10))) else none

def ofMemory? (w : Word) : Option Operands := do
  let mode ← AddressingMode.ofCode? (w.field 22 2)
  let memory := fun offset =>
    Operands.memory mode (Register.ofField w 18) (Register.ofField w 14) offset (w.bit 12)
  if w.bit 13 then
    some (memory (.immediate (UInt16.ofNat (w.field 0 12))))
  else if w.field 0 8 = 0 then
    some (memory (.register (Register.ofField w 8)))
  else none

def ofAtomic? (w : Word) : Option Operands :=
  if w.field 22 2 = 0 ∧ w.field 0 10 = 0 then
    some (.atomic (Register.ofField w 18) (Register.ofField w 14) (Register.ofField w 10))
  else none

def ofBranch? (o : Opcode) (w : Word) : Option Operands := do
  let condition ← Condition.ofCode? (w.field 20 4)
  if o = .b ∨ o = .bl then
    some (.branch condition (.relative (Int32.ofInt ((w.field 0 20 : Int).bmod (2 ^ 20)))))
  else if w.field 0 16 = 0 then
    some (.branch condition (.register (Register.ofField w 16)))
  else none

def ofFloatingPoint? (o : Opcode) (w : Word) : Option Operands :=
  let rd := Register.ofField w 18
  let rn := Register.ofField w 14
  let rm := Register.ofField w 10
  if w.field 22 2 = 0 ∧ w.field 0 10 = 0 then
    match o with
    | .vcmpF32 => if rd.val = 0 then some (.floatCompare rn rm) else none
    | .vcvtF32S32 | .vcvtS32F32 => if rm.val = 0 then some (.floatConvert rd rn) else none
    | _ => some (.floatArith rd rn rm)
  else none

def ofWord? (o : Opcode) (w : Word) : Option Operands :=
  match o.format with
  | .control => ofControl? o w
  | .dataProcessing => ofDataProcessing? w
  | .singleOperand => ofSingleOperand? o w
  | .compare => ofCompare? w
  | .shift => ofShift? w
  | .memory => ofMemory? w
  | .atomic => ofAtomic? w
  | .branch => ofBranch? o w
  | .floatingPoint => ofFloatingPoint? o w

end Operands

def Word.opcodeByte (w : Word) : Nat := w.field 24 8

def Instruction.decode? (w : Word) : Option Instruction := do
  let opcode ← Opcode.ofByte? w.opcodeByte
  let operands ← Operands.ofWord? opcode w
  some ⟨opcode, operands⟩

def Instruction.decodeAt (w pc : Word) : Except Fault Instruction :=
  match decode? w with
  | some i => .ok i
  | none => .error (.invalidOpcode w pc)

end PagedMachine

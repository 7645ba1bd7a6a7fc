import PagedMachine.Isa.Instruction

/-!
# Encoding

The word of an instruction is the sum of its fields, each reduced to its own
bits, so that no value spills into a neighbour.
-/

namespace PagedMachine

def ShiftAmount.operandBits : ShiftAmount → Nat
  | .immediate amount => amount.toNat % 2 ^ 5 * 2 ^ 2
  | .register rs => 2 ^ 7 + rs.val * 2 ^ 3

def Operand2.bits (bits : Nat) : Operand2 → Nat
  | .immediate value => 2 ^ 22 + value.toNat % 2 ^ bits
  | .shifted rm shift amount => rm.val * 2 ^ 10 + shift.code * 2 ^ 8 + amount.operandBits

def ShiftAmount.bits : ShiftAmount → Nat
  | .immediate amount => 2 ^ 22 + amount.toNat % 2 ^ 5
  | .register rs => rs.val * 2 ^ 10

def MemoryOffset.bits : MemoryOffset → Nat
  | .immediate value => 2 ^ 13 + value.toNat % 2 ^ 12
  | .register rm => rm.val * 2 ^ 8

def BranchTarget.bits : BranchTarget → Nat
  | .relative words => (words.toInt % 2 ^ 20).toNat
  | .register rm => rm.val * 2 ^ 16

def Operands.bits : Operands → Nat
  | .control payload => payload.toNat % 2 ^ 24
  | .dataProcessing setFlags rd rn operand =>
    setFlags.toNat * 2 ^ 23 + rd.val * 2 ^ 18 + rn.val * 2 ^ 14 + operand.bits 14
  | .move setFlags rd operand => setFlags.toNat * 2 ^ 23 + rd.val * 2 ^ 18 + operand.bits 16
  | .moveTop rd value => rd.val * 2 ^ 18 + value.toNat
  | .compare rn operand => rn.val * 2 ^ 14 + operand.bits 14
  | .shift setFlags rd rn amount =>
    setFlags.toNat * 2 ^ 23 + rd.val * 2 ^ 18 + rn.val * 2 ^ 14 + amount.bits
  | .memory mode rt rn offset up =>
    mode.code * 2 ^ 22 + rt.val * 2 ^ 18 + rn.val * 2 ^ 14 + up.toNat * 2 ^ 12 + offset.bits
  | .atomic rd rm rn => rd.val * 2 ^ 18 + rm.val * 2 ^ 14 + rn.val * 2 ^ 10
  | .branch condition target => condition.code * 2 ^ 20 + target.bits
  | .floatArith rd rn rm => rd.val * 2 ^ 18 + rn.val * 2 ^ 14 + rm.val * 2 ^ 10
  | .floatCompare rn rm => rn.val * 2 ^ 14 + rm.val * 2 ^ 10
  | .floatConvert rd rn => rd.val * 2 ^ 18 + rn.val * 2 ^ 14

def Instruction.encode (i : Instruction) : Word :=
  UInt32.ofNat (i.opcode.byte * 2 ^ 24 + i.operands.bits)

end PagedMachine

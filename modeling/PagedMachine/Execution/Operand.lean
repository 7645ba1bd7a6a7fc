import PagedMachine.Arithmetic.Shifter

/-!
# Operand values

What the operands of an instruction stand for in a given register state.
-/

namespace PagedMachine

/-- The number of places; of a register only the low byte counts. -/
def ShiftAmount.value (s : Registers) : ShiftAmount → Nat
  | immediate amount => amount.toNat
  | register rs => (s.get rs).field 0 8

def Operand2.value (s : Registers) (carry : Bool) : Operand2 → Word × Option Bool
  | immediate value => (value, none)
  | shifted rm shift amount =>
    let places := amount.value s
    let (value, carry) := shift.apply (s.get rm) places carry
    (value, if places = 0 then none else some carry)

def MemoryOffset.value (s : Registers) : MemoryOffset → Word
  | immediate value => value.toUInt32
  | register rm => s.get rm

structure EffectiveAddress where
  address : Word
  /-- The base register and what the mode leaves in it. -/
  writeback : Option (Register × Word)
  deriving DecidableEq, Repr

def AddressingMode.effective (mode : AddressingMode) (rn : Register) (offset : MemoryOffset)
    (up : Bool) (s : Registers) : EffectiveAddress :=
  let base := s.get rn
  let moved := if up then base + offset.value s else base - offset.value s
  match mode with
  | .offset => ⟨moved, none⟩
  | .preIndexed => ⟨moved, some (rn, moved)⟩
  | .postIndexed => ⟨base, some (rn, moved)⟩

end PagedMachine

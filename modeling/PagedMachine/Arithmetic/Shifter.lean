import PagedMachine.Isa.Instruction

/-!
# The barrel shifter

Shifts and rotations by any number of places. The carry is the last bit shifted
out; shifting by nothing keeps value and carry.
-/

namespace PagedMachine.ShiftKind

def step (kind : ShiftKind) (value : Word) : Word × Bool :=
  match kind with
  | lsl => (value <<< 1, value.bit 31)
  | lsr => (value >>> 1, value.bit 0)
  | asr => (Word.ofInt (value.signed / 2), value.bit 0)
  | ror => (UInt32.ofNat (value.toNat / 2 + value.toNat % 2 * 2 ^ 31), value.bit 0)

/-- Shifts by `amount` places. From 32 places up, `lsl` and `lsr` leave zero and
`asr` leaves copies of the sign; `ror` turns by the remainder modulo 32. -/
def apply (kind : ShiftKind) (value : Word) (amount : Nat) (carry : Bool) : Word × Bool :=
  if amount = 0 then (value, carry)
  else match kind with
  | lsl =>
    if amount < 32 then (UInt32.ofNat (value.toNat * 2 ^ amount), value.bit (32 - amount))
    else (0, amount == 32 && value.bit 0)
  | lsr =>
    if amount < 32 then (UInt32.ofNat (value.toNat / 2 ^ amount), value.bit (amount - 1))
    else (0, amount == 32 && value.bit 31)
  | asr =>
    if amount < 32 then (Word.ofInt (value.signed / 2 ^ amount), value.bit (amount - 1))
    else (if value.negative then 0xFFFFFFFF else 0, value.negative)
  | ror =>
    let places := amount % 32
    let rotated : Word :=
      UInt32.ofNat (value.toNat / 2 ^ places + value.toNat % 2 ^ places * 2 ^ (32 - places))
    (rotated, rotated.negative)

end PagedMachine.ShiftKind

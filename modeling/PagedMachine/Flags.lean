import PagedMachine.Word
import PagedMachine.Text

/-!
# Flags

The four condition flags, which stand in bits 31 to 28 of the flags word, and
the updates that instructions make to them.
-/

namespace PagedMachine

structure Flags where
  negative : Bool
  zero : Bool
  carry : Bool
  overflow : Bool
  deriving DecidableEq, Repr

namespace Flags

def clear : Flags := ⟨false, false, false, false⟩

instance : Inhabited Flags := ⟨clear⟩

/-- Bits outside the four flags are dropped. -/
def ofWord (w : Word) : Flags := ⟨w.bit 31, w.bit 30, w.bit 29, w.bit 28⟩

def toWord (f : Flags) : Word :=
  UInt32.ofNat (f.negative.toNat * 2 ^ 31 + f.zero.toNat * 2 ^ 30 +
    f.carry.toNat * 2 ^ 29 + f.overflow.toNat * 2 ^ 28)

def mask : Word := toWord ⟨true, true, true, true⟩

/-- No bit outside the mask is ever set. -/
theorem field_toWord (f : Flags) : f.toWord.field 0 28 = 0 := by
  obtain ⟨n, z, c, v⟩ := f
  cases n <;> cases z <;> cases c <;> cases v <;> decide

def test (f : Flags) (mask : Word) : Bool :=
  (mask.bit 31 && f.negative) || (mask.bit 30 && f.zero) ||
    (mask.bit 29 && f.carry) || (mask.bit 28 && f.overflow)

def put (f : Flags) (mask : Word) (on : Bool) : Flags where
  negative := if mask.bit 31 then on else f.negative
  zero := if mask.bit 30 then on else f.zero
  carry := if mask.bit 29 then on else f.carry
  overflow := if mask.bit 28 then on else f.overflow

theorem ofWord_toWord (f : Flags) : ofWord f.toWord = f := by
  obtain ⟨n, z, c, v⟩ := f
  cases n <;> cases z <;> cases c <;> cases v <;> decide

end Flags

/-- A change of some of the flags; the others are kept. -/
inductive FlagsUpdate where
  | keep
  | nz (negative zero : Bool)
  | nzc (negative zero carry : Bool)
  | nzcv (negative zero carry overflow : Bool)
  deriving DecidableEq, Repr

namespace FlagsUpdate

def logical (result : Word) : (carry : Option Bool) → FlagsUpdate
  | some c => nzc result.negative (result == 0) c
  | none => nz result.negative (result == 0)

def arithmetic (result : Word) (carry overflow : Bool) : FlagsUpdate :=
  nzcv result.negative (result == 0) carry overflow

def apply : FlagsUpdate → Flags → Flags
  | keep, f => f
  | nz n z, f => { f with negative := n, zero := z }
  | nzc n z c, f => { f with negative := n, zero := z, carry := c }
  | nzcv n z c v, _ => ⟨n, z, c, v⟩

end FlagsUpdate

end PagedMachine

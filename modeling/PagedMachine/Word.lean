/-!
# Machine words

A word is 32 bits. It is read as an unsigned number, as a signed number, as a
row of bit fields and as little-endian bytes. Fields are read by division and
remainder, so that statements about them are linear arithmetic.
-/

namespace PagedMachine

-- one reading of powers in every module, also where there are others to choose from
attribute [default_instance high, instance (high)] instPowNat

abbrev Word := UInt32

namespace Word

/-- The number held in the `len` bits from bit `low` up. -/
def field (w : Word) (low len : Nat) : Nat := w.toNat / 2 ^ low % 2 ^ len

def bit (w : Word) (i : Nat) : Bool := w.field i 1 == 1

def negative (w : Word) : Bool := w.bit 31

/-- The two's complement reading. -/
def signed (w : Word) : Int := if w.toNat < 2 ^ 31 then w.toNat else w.toNat - 2 ^ 32

def ofInt (n : Int) : Word := UInt32.ofInt n

/-- The low `bits` bits, read as a signed number and widened to a word. -/
def signExtend (w : Word) (bits : Nat) : Word :=
  ofInt ((w.field 0 bits : Int).bmod (2 ^ bits))

end Word

/-! ## Little-endian bytes -/

/-- The `n` low bytes of a number, least significant first. -/
def toBytes : (n : Nat) → Nat → List UInt8
  | 0, _ => []
  | n + 1, v => UInt8.ofNat v :: toBytes n (v / 256)

def ofBytes : List UInt8 → Nat
  | [] => 0
  | b :: bs => b.toNat + 256 * ofBytes bs

@[simp] theorem length_toBytes (n v : Nat) : (toBytes n v).length = n := by
  induction n generalizing v with
  | zero => rfl
  | succ n ih => simp [toBytes, ih]

theorem ofBytes_toBytes (n v : Nat) : ofBytes (toBytes n v) = v % 256 ^ n := by
  induction n generalizing v with
  | zero => simp [toBytes, ofBytes, Nat.mod_one]
  | succ n ih =>
    have byte : (UInt8.ofNat v).toNat = v % 256 := UInt8.toNat_ofNat'
    rw [toBytes, ofBytes, ih, byte, Nat.pow_succ', Nat.mod_mul]

theorem ofBytes_lt (bs : List UInt8) : ofBytes bs < 256 ^ bs.length := by
  induction bs with
  | nil => simp [ofBytes]
  | cons b bs ih =>
    have hb : b.toNat < 256 := b.toNat_lt
    simp only [ofBytes, List.length_cons, Nat.pow_succ']
    omega

end PagedMachine

import PagedMachine.Word

/-!
# Integer arithmetic on words

Sums with a carry, double-width products and quotients. Results are residues of
exact integers; the flags tell where the exact value did not fit.
-/

namespace PagedMachine

structure Sum where
  result : Word
  carry : Bool
  /-- The signed sum does not fit in a word. -/
  overflow : Bool
  deriving DecidableEq, Repr

/-- Overflow is the sign that two summands of one sign cannot give. A difference
is the sum with the complement, and its carry then says that nothing was borrowed. -/
def addWithCarry (a b : Word) (carry : Bool) : Sum :=
  let total := a.toNat + b.toNat + carry.toNat
  let result : Word := UInt32.ofNat total
  ⟨result, decide (2 ^ 32 ≤ total),
    a.negative == b.negative && result.negative != a.negative⟩

namespace Word

def mulHigh (a b : Word) : Word := UInt32.ofNat (a.toNat * b.toNat / 2 ^ 32)

def signedMulHigh (a b : Word) : Word := ofInt (a.signed * b.signed / 2 ^ 32)

def mulCarries (a b : Word) : Bool := decide (2 ^ 32 ≤ a.toNat * b.toNat)

def mulOverflows (a b : Word) : Bool := a.signed * b.signed != (a * b).signed

/-- The unsigned quotient; zero when the divisor is zero. -/
def quotient (a b : Word) : Word := if b = 0 then 0 else UInt32.ofNat (a.toNat / b.toNat)

/-- The signed quotient, toward zero; zero when the divisor is zero. -/
def signedQuotient (a b : Word) : Word := if b = 0 then 0 else ofInt (a.signed.tdiv b.signed)

/-- The one signed quotient that does not fit: the least number by minus one. -/
def quotientOverflows (a b : Word) : Bool := a.signed == -2 ^ 31 && b.signed == -1

end Word

end PagedMachine

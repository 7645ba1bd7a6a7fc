import PagedMachine.Word

/-!
# Counters

Event counts of 64 bits that stay at the largest value once they reach it.
-/

namespace PagedMachine

abbrev Counter := UInt64

namespace Counter

def add (c : Counter) (n : Nat) : Counter := UInt64.ofNat (min (c.toNat + n) (2 ^ 64 - 1))

def succ (c : Counter) : Counter := c.add 1

theorem toNat_add (c : Counter) (n : Nat) : (c.add n).toNat = min (c.toNat + n) (2 ^ 64 - 1) := by
  rw [add, UInt64.toNat_ofNat', Nat.mod_eq_of_lt]
  omega

end Counter

end PagedMachine

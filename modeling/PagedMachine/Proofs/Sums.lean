import PagedMachine.Arithmetic.Adder
import PagedMachine.Proofs.Readings

/-!
# Sums and differences

The adder is exact in both readings of a word: its carry is what the result lacks of the
unsigned sum, and it reports an overflow when the signed sum is not one of a word. A
difference is the sum with the complement, which is one less than the negative number.
-/

namespace PagedMachine

variable {a b : Word} {carry : Bool}

/-! ## Sums -/

theorem addWithCarry_exact (a b : Word) (carry : Bool) :
    (addWithCarry a b carry).result.toNat + 2 ^ 32 * (addWithCarry a b carry).carry.toNat =
      a.toNat + b.toNat + carry.toNat := by
  have ha := a.toNat_lt
  have hb := b.toNat_lt
  have hc := carry.toNat_le
  simp only [addWithCarry, UInt32.toNat_ofNat']
  by_cases hcarry : 2 ^ 32 ≤ a.toNat + b.toNat + carry.toNat
  · rw [decide_eq_true hcarry, Bool.toNat_true]
    omega
  · rw [decide_eq_false hcarry, Bool.toNat_false]
    omega

theorem carry_iff : (addWithCarry a b carry).carry = true ↔
    2 ^ 32 ≤ a.toNat + b.toNat + carry.toNat :=
  decide_eq_true_iff

/-- Summands of one sign overflow when the result is of the other; summands of two signs never
do. -/
theorem overflow_iff : (addWithCarry a b carry).overflow = true ↔
    ¬ Fits 32 (a.signed + b.signed + carry.toNat) := by
  have hexact := addWithCarry_exact a b carry
  have hresult := (addWithCarry a b carry).result.toNat_lt
  have ha := a.toNat_lt
  have hb := b.toNat_lt
  have hc := carry.toNat_le
  have hoverflow : (addWithCarry a b carry).overflow = true ↔
      (2 ^ 31 ≤ a.toNat ↔ 2 ^ 31 ≤ b.toNat) ∧
      ¬ (2 ^ 31 ≤ (addWithCarry a b carry).result.toNat ↔ 2 ^ 31 ≤ a.toNat) := by
    simp only [← Word.negative_iff, ← Bool.eq_iff_iff]
    change (a.negative == b.negative && (addWithCarry a b carry).result.negative != a.negative) =
      true ↔ _
    rw [Bool.and_eq_true, beq_iff_eq, bne_iff_ne]
  have hbit := (addWithCarry a b carry).carry.toNat_le
  rw [hoverflow, fits_word_iff, Word.signed, Word.signed]
  split <;> split <;> omega

/-! ## Differences -/

theorem result_difference (a b : Word) : (addWithCarry a (~~~b) true).result = a - b := by
  have hexact := addWithCarry_exact a (~~~b) true
  have hb := b.toNat_lt
  have hresult := (addWithCarry a (~~~b) true).result.toNat_lt
  rw [Word.toNat_complement, Bool.toNat_true] at hexact
  rw [← UInt32.toNat_inj, UInt32.toNat_sub]
  omega

theorem carry_difference_iff : (addWithCarry a (~~~b) true).carry = true ↔ b.toNat ≤ a.toNat := by
  have hb := b.toNat_lt
  rw [carry_iff, Word.toNat_complement, Bool.toNat_true]
  omega

theorem overflow_difference_iff :
    (addWithCarry a (~~~b) true).overflow = true ↔ ¬ Fits 32 (a.signed - b.signed) := by
  rw [overflow_iff, Word.signed_complement, Bool.toNat_true]
  have hdifference : a.signed + (-1 - b.signed) + (1 : Nat) = a.signed - b.signed := by omega
  rw [hdifference]

end PagedMachine

import PagedMachine.Word

/-!
# Readings of a word

A word is read as an unsigned number below `2 ^ 32` and as a signed number of 32 bits.
The two differ by `2 ^ 32` where the top bit is set, and the word is the residue of both.
-/

namespace PagedMachine

def Fits (bits : Nat) (n : Int) : Prop := -2 ^ (bits - 1) ≤ n ∧ n < 2 ^ (bits - 1)

instance (bits : Nat) (n : Int) : Decidable (Fits bits n) := inferInstanceAs (Decidable (_ ∧ _))

theorem fits_word_iff {n : Int} : Fits 32 n ↔ -2 ^ 31 ≤ n ∧ n < 2 ^ 31 := Iff.rfl

/-- There is one quotient that is too large. -/
theorem Fits.tdiv {bits : Nat} {a b : Int} (ha : Fits bits a) (hb : b ≠ 0)
    (hleast : ¬ (a = -2 ^ (bits - 1) ∧ b = -1)) : Fits bits (a.tdiv b) := by
  obtain ⟨hl, hr⟩ := ha
  have hsize : (a.tdiv b).natAbs = a.natAbs / b.natAbs := Int.natAbs_tdiv a b
  by_cases hone : b = 1
  · subst hone
    rw [Int.tdiv_one]
    exact ⟨hl, hr⟩
  by_cases hneg : b = -1
  · subst hneg
    rw [Int.tdiv_neg, Int.tdiv_one]
    exact ⟨by omega, by omega⟩
  · have htwo : 2 ≤ b.natAbs := by omega
    have hhalf : a.natAbs / b.natAbs ≤ a.natAbs / 2 := Nat.div_le_div_left htwo (by decide)
    have hpos : (0 : Int) < 2 ^ (bits - 1) := Int.pow_pos (by decide)
    exact ⟨by omega, by omega⟩

namespace Word

theorem toNat_ofInt (n : Int) : (ofInt n).toNat = (n % 2 ^ 32).toNat := by
  have hlt : (n % 2 ^ 32).toNat < 2 ^ 32 := by omega
  rw [ofInt, UInt32.ofInt, UInt32.toNat_ofNat', Nat.mod_eq_of_lt hlt]

theorem ofInt_signed (value : Word) : ofInt value.signed = value := by
  have hlt := value.toNat_lt
  rw [← UInt32.toNat_inj, toNat_ofInt, signed]
  split <;> omega

theorem signed_inj {a b : Word} : a.signed = b.signed ↔ a = b :=
  ⟨fun h => by rw [← ofInt_signed a, h, ofInt_signed], congrArg signed⟩

theorem neg_le_signed (value : Word) : -2 ^ 31 ≤ value.signed := by
  unfold signed
  split <;> omega

theorem signed_lt (value : Word) : value.signed < 2 ^ 31 := by
  have hlt := value.toNat_lt
  unfold signed
  split <;> omega

theorem natAbs_signed_le (value : Word) : value.signed.natAbs ≤ 2 ^ 31 := by
  have hl := value.neg_le_signed
  have hr := value.signed_lt
  omega

theorem signed_fits (value : Word) : Fits 32 value.signed := ⟨value.neg_le_signed, value.signed_lt⟩

theorem toNat_mul_lt (a b : Word) : a.toNat * b.toNat < 2 ^ 64 :=
  Nat.lt_of_lt_of_eq (Nat.mul_lt_mul'' a.toNat_lt b.toNat_lt) rfl

/-- Each factor has 31 bits besides its sign, so that a bit is left. -/
theorem signed_mul_bounds (a b : Word) :
    -2 ^ 62 ≤ a.signed * b.signed ∧ a.signed * b.signed ≤ 2 ^ 62 := by
  have hle : (a.signed * b.signed).natAbs ≤ 2 ^ 31 * 2 ^ 31 := by
    rw [Int.natAbs_mul]
    exact Nat.mul_le_mul a.natAbs_signed_le b.natAbs_signed_le
  omega

theorem signed_eq_zero {value : Word} : value.signed = 0 ↔ value = 0 := by
  have hlt := value.toNat_lt
  rw [← UInt32.toNat_inj, signed, UInt32.toNat_zero]
  split <;> omega

theorem signed_ofInt {n : Int} (hl : -2 ^ 31 ≤ n) (hr : n < 2 ^ 31) : (ofInt n).signed = n := by
  rw [signed, toNat_ofInt]
  split <;> omega

theorem negative_iff {value : Word} : value.negative = true ↔ 2 ^ 31 ≤ value.toNat := by
  have hlt := value.toNat_lt
  rw [negative, bit, field, beq_iff_eq]
  omega

theorem bit_ofNat_div (value : Word) (places : Nat) :
    Word.bit (UInt32.ofNat (value.toNat / 2 ^ places)) 0 = value.bit places := by
  have hlt : value.toNat / 2 ^ places < 2 ^ 32 :=
    Nat.lt_of_le_of_lt (Nat.div_le_self ..) value.toNat_lt
  rw [bit, bit, field, field, UInt32.toNat_ofNat', Nat.mod_eq_of_lt hlt, Nat.pow_zero, Nat.div_one]

theorem toNat_complement (a : Word) : (~~~a).toNat = 2 ^ 32 - 1 - a.toNat := UInt32.toNat_not a

theorem signed_complement (a : Word) : (~~~a).signed = -1 - a.signed := by
  have hlt := a.toNat_lt
  rw [signed, signed, toNat_complement]
  split <;> split <;> omega

end Word

end PagedMachine

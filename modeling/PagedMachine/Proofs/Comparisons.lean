import PagedMachine.Proofs.Results
import PagedMachine.Proofs.Sums

/-!
# Branches after a comparison

A comparison leaves the flags of a difference. The conditions read the order of its two
operands off these flags, as unsigned and as signed numbers.
-/

namespace PagedMachine

namespace Condition

/-- What the condition says about two words that were compared. -/
def Compares (c : Condition) (a b : Word) : Prop :=
  match c with
  | eq => a = b
  | ne => a ≠ b
  | cs => b.toNat ≤ a.toNat
  | cc => a.toNat < b.toNat
  | mi => (a - b).bit 31 = true
  | pl => (a - b).bit 31 = false
  | vs => ¬ Fits 32 (a.signed - b.signed)
  | vc => Fits 32 (a.signed - b.signed)
  | hi => b.toNat < a.toNat
  | ls => a.toNat ≤ b.toNat
  | ge => b.signed ≤ a.signed
  | lt => a.signed < b.signed
  | gt => b.signed < a.signed
  | le => a.signed ≤ b.signed
  | al => True

instance (c : Condition) (a b : Word) : Decidable (c.Compares a b) :=
  match c with
  | eq => inferInstanceAs (Decidable (a = b))
  | ne => inferInstanceAs (Decidable (a ≠ b))
  | cs => inferInstanceAs (Decidable (b.toNat ≤ a.toNat))
  | cc => inferInstanceAs (Decidable (a.toNat < b.toNat))
  | mi => inferInstanceAs (Decidable ((a - b).bit 31 = true))
  | pl => inferInstanceAs (Decidable ((a - b).bit 31 = false))
  | vs => inferInstanceAs (Decidable (¬ Fits 32 (a.signed - b.signed)))
  | vc => inferInstanceAs (Decidable (Fits 32 (a.signed - b.signed)))
  | hi => inferInstanceAs (Decidable (b.toNat < a.toNat))
  | ls => inferInstanceAs (Decidable (a.toNat ≤ b.toNat))
  | ge => inferInstanceAs (Decidable (b.signed ≤ a.signed))
  | lt => inferInstanceAs (Decidable (a.signed < b.signed))
  | gt => inferInstanceAs (Decidable (b.signed < a.signed))
  | le => inferInstanceAs (Decidable (a.signed ≤ b.signed))
  | al => inferInstanceAs (Decidable True)

end Condition

/-! ## The flags of a difference -/

namespace Flags

variable {a b : Word}

def compared (a b : Word) : Flags := (addWithCarry a (~~~b) true).flags

theorem compared_zero : (compared a b).zero = true ↔ a = b := by
  change ((addWithCarry a (~~~b) true).result == 0) = true ↔ a = b
  have ha := a.toNat_lt
  have hb := b.toNat_lt
  rw [result_difference, beq_iff_eq, ← UInt32.toNat_inj, ← UInt32.toNat_inj, UInt32.toNat_sub,
    UInt32.toNat_zero]
  omega

theorem compared_carry : (compared a b).carry = true ↔ b.toNat ≤ a.toNat := carry_difference_iff

theorem compared_overflow : (compared a b).overflow = true ↔ ¬ Fits 32 (a.signed - b.signed) :=
  overflow_difference_iff

theorem compared_negative : (compared a b).negative = (a - b).bit 31 :=
  congrArg Word.negative (result_difference a b)

/-- An overflow turns the sign of the result around. -/
theorem compared_sign : (compared a b).negative = (compared a b).overflow ↔
    b.signed ≤ a.signed := by
  have ha := a.toNat_lt
  have hb := b.toNat_lt
  have hnegative : (compared a b).negative = true ↔
      2 ^ 31 ≤ (2 ^ 32 - b.toNat + a.toNat) % 2 ^ 32 := by
    rw [compared_negative, ← UInt32.toNat_sub]
    exact Word.negative_iff
  rw [Bool.eq_iff_iff, hnegative, compared_overflow, fits_word_iff, Word.signed, Word.signed]
  split <;> split <;> omega

end Flags

/-- Every condition holds of the flags exactly when it holds of the operands. -/
theorem Condition.passes_compared (c : Condition) (a b : Word) :
    c.passes (Flags.compared a b) = true ↔ c.Compares a b := by
  have hzero : (Flags.compared a b).zero = true ↔ a.toNat = b.toNat :=
    Flags.compared_zero.trans UInt32.toNat_inj.symm
  have hsignedZero : (Flags.compared a b).zero = true ↔ a.signed = b.signed :=
    Flags.compared_zero.trans Word.signed_inj.symm
  cases c
    <;> simp only [passes, Compares, Bool.and_eq_true, Bool.or_eq_true, Bool.not_eq_true',
      Bool.eq_false_iff, beq_iff_eq, bne_iff_ne, ne_eq]
  case eq => exact Flags.compared_zero
  case ne => rw [Flags.compared_zero]
  case cs => exact Flags.compared_carry
  case cc => rw [Flags.compared_carry, Nat.not_le]
  case mi => rw [Flags.compared_negative]
  case pl => rw [Flags.compared_negative]
  case vs => exact Flags.compared_overflow
  case vc => rw [Flags.compared_overflow, not_not]
  case hi => rw [Flags.compared_carry, hzero]; omega
  case ls => rw [Flags.compared_carry, hzero]; omega
  case ge => exact Flags.compared_sign
  case lt => rw [Flags.compared_sign, Int.not_le]
  case gt => rw [Flags.compared_sign, hsignedZero]; omega
  case le => rw [Flags.compared_sign, hsignedZero]; omega

namespace Instruction

/-- After `a` was compared with `b`, or `b` was subtracted from `a` with the flags set, a branch is
taken exactly where its condition holds of `a` and `b`. That is so as long as the flags are kept. -/
theorem branches_compared (s : Registers) (rn : Register) (operand : Operand2) :
    let a := s.get rn
    let b := (operand.value s s.flags.carry).1
    ∃ f, Completes ⟨.cmp, .compare rn operand⟩ s (s.next f) ∧
      (∀ rd, Completes ⟨.sub, .dataProcessing true rd rn operand⟩ s ((s.set rd (a - b)).next f)) ∧
      ∀ (t : Registers) (o : Opcode) (condition : Condition) (target : BranchTarget), t.flags = f →
        o.unit = .branch →
        execute ⟨o, .branch condition target⟩ t =
          pure (if condition.Compares a b then .taken t o target else .next t .branchNotTaken) := by
  intro a b
  refine ⟨Flags.compared a b, completes_compared rfl, fun rd =>
    ?_, fun t o condition target hflags hunit => ?_⟩
  · rw [← result_difference a b]
    exact completes_sum rfl rd
  · rw [execute_branch hunit, hflags]
    simp only [condition.passes_compared]

end Instruction

end PagedMachine

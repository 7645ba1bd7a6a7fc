import Mathlib.Logic.Function.Iterate
import PagedMachine.Proofs.Readings
import PagedMachine.Proofs.Results

/-!
# Shifts as single steps

The barrel shifter shifts by any number of places at once. It does what as many single
steps do, each of which shifts by one place and leaves the bit that it moves out in the
carry. The logical instructions and the shifts leave the carry of the last step, and
keep the carry where there is no step.
-/

namespace PagedMachine

/-! ## Words -/

namespace Word

theorem bit_of_le {value : Word} {places : Nat} (h : 32 ≤ places) : value.bit places = false := by
  have hlt : value.toNat < 2 ^ places :=
    Nat.lt_of_lt_of_le value.toNat_lt (Nat.pow_le_pow_right (by decide) h)
  rw [bit, field, Nat.div_eq_of_lt hlt]
  rfl

theorem bit_ofNat_mul (value : Word) {places : Nat} (h : places ≤ 31) :
    Word.bit (UInt32.ofNat (value.toNat * 2 ^ places)) 31 = value.bit (31 - places) := by
  have hword : 2 ^ 32 = 2 ^ (32 - places) * 2 ^ places := (Nat.pow_sub_mul_pow 2 (by omega)).symm
  have htop : 2 ^ 31 = 2 ^ places * 2 ^ (31 - places) := by
    rw [Nat.mul_comm, Nat.pow_sub_mul_pow 2 h]
  have hrest : 2 ^ (32 - places) = 2 ^ (31 - places) * 2 := by rw [← Nat.pow_succ]; congr 1; omega
  rw [bit, bit, field, field, UInt32.toNat_ofNat', hword, Nat.mul_mod_mul_right, htop,
    ← Nat.div_div_eq_div_mul, Nat.mul_div_cancel _ (Nat.two_pow_pos places), hrest,
    Nat.mod_mul_right_div_self, Nat.pow_one, Nat.mod_mod]

theorem bit_zero_ofInt (n : Int) : (ofInt n).bit 0 = decide (n % 2 = 1) := by
  rw [bit, field, toNat_ofInt, Bool.eq_iff_iff, beq_iff_eq, decide_eq_true_iff]
  omega

theorem bit_eq_parity (value : Word) {places : Nat} (h : places ≤ 31) :
    value.bit places = decide (value.signed / 2 ^ places % 2 = 1) := by
  have hpow : (2 : Int) ^ 32 = 2 ^ places * (2 * 2 ^ (31 - places)) := by
    rw [← Int.pow_succ', ← Int.pow_add]
    congr 1
    omega
  have hpos : (2 : Int) ^ places ≠ 0 := Int.ne_of_gt (Int.pow_pos (by decide))
  -- the two readings differ by a multiple of `2 ^ 32`, which has no bit below
  have hparity : value.signed / 2 ^ places % 2 = (value.toNat / 2 ^ places : Int) % 2 := by
    rw [signed]
    split
    · rfl
    · rw [hpow, Int.sub_mul_ediv_left _ _ hpos, Int.sub_mul_emod_self_left]
  rw [hparity, bit, field, Bool.eq_iff_iff, beq_iff_eq, decide_eq_true_iff]
  norm_cast

theorem signed_div_of_le (value : Word) {places : Nat} (h : 32 ≤ places) :
    value.signed / 2 ^ places = if value.negative then -1 else 0 := by
  have hsize : (2 : Int) ^ 32 ≤ 2 ^ places := by
    exact_mod_cast Nat.pow_le_pow_right (by decide : 0 < 2) h
  have hlt := value.toNat_lt
  rw [signed]
  by_cases hsign : value.negative = true
  · have hle := negative_iff.mp hsign
    rw [if_neg (by omega), if_pos hsign, Int.ediv_eq_iff_of_pos (by omega)]
    omega
  · have hle : ¬ 2 ^ 31 ≤ value.toNat := fun h => hsign (negative_iff.mpr h)
    rw [if_pos (by omega), if_neg hsign]
    exact Int.ediv_eq_zero_of_lt (by omega) (by omega)

theorem signed_ofInt_div (value : Word) (places : Nat) :
    (ofInt (value.signed / 2 ^ places)).signed = value.signed / 2 ^ places := by
  have hpos : (0 : Int) < 2 ^ places := Int.pow_pos (by decide)
  have hsize : (value.signed / 2 ^ places).natAbs ≤ value.signed.natAbs :=
    Int.natAbs_ediv_le_natAbs ..
  have hl := value.neg_le_signed
  have hr := value.signed_lt
  by_cases hsign : 0 ≤ value.signed
  · have hnonneg : 0 ≤ value.signed / 2 ^ places := Int.ediv_nonneg hsign (Int.le_of_lt hpos)
    exact signed_ofInt (by omega) (by omega)
  · have hneg : value.signed / 2 ^ places < 0 := Int.ediv_neg_of_neg_of_pos (by omega) hpos
    exact signed_ofInt (by omega) (by omega)

end Word

/-! ## Values by arithmetic

One formula for each shift gives the value for every number of places.
-/

namespace ShiftKind

variable {value : Word} {carry : Bool} {n : Nat}

theorem lsl_value : (lsl.apply value n carry).1 = UInt32.ofNat (value.toNat * 2 ^ n) := by
  simp only [apply]
  by_cases hzero : n = 0
  · simp [hzero]
  · by_cases hlt : n < 32
    · simp [hzero, hlt]
    · obtain ⟨k, rfl⟩ : ∃ k, n = 32 + k := ⟨n - 32, by omega⟩
      rw [if_neg hzero, if_neg hlt, ← UInt32.toNat_inj, UInt32.toNat_ofNat', Nat.pow_add,
        Nat.mul_left_comm, Nat.mul_mod_right]
      rfl

theorem lsr_value : (lsr.apply value n carry).1 = UInt32.ofNat (value.toNat / 2 ^ n) := by
  simp only [apply]
  by_cases hzero : n = 0
  · simp [hzero]
  · by_cases hlt : n < 32
    · simp [hzero, hlt]
    · have hgone : value.toNat / 2 ^ n = 0 :=
        Nat.div_eq_of_lt
          (Nat.lt_of_lt_of_le value.toNat_lt (Nat.pow_le_pow_right (by decide) (by omega)))
      rw [if_neg hzero, if_neg hlt, hgone]
      rfl

theorem asr_value : (asr.apply value n carry).1 = Word.ofInt (value.signed / 2 ^ n) := by
  simp only [apply]
  by_cases hzero : n = 0
  · simp [hzero, Word.ofInt_signed]
  · by_cases hlt : n < 32
    · simp [hzero, hlt]
    · rw [if_neg hzero, if_neg hlt, Word.signed_div_of_le value (by omega)]
      cases value.negative <;> rfl

def rotated (value : Word) (places : Nat) : Word :=
  UInt32.ofNat (value.toNat / 2 ^ places + value.toNat % 2 ^ places * 2 ^ (32 - places))

theorem ror_value : (ror.apply value n carry).1 = rotated value (n % 32) := by
  simp only [apply]
  by_cases hzero : n = 0
  · simp [hzero, rotated]
  · rw [if_neg hzero]
    rfl

theorem toNat_rotated (value : Word) {places : Nat} (h : places < 32) :
    (rotated value places).toNat =
    value.toNat / 2 ^ places + value.toNat % 2 ^ places * 2 ^ (32 - places) := by
  have hword : 2 ^ 32 = 2 ^ places * 2 ^ (32 - places) := by
    rw [Nat.mul_comm, Nat.pow_sub_mul_pow 2 (by omega)]
  have hhigh : value.toNat / 2 ^ places < 2 ^ (32 - places) :=
    Nat.div_lt_of_lt_mul (Nat.lt_of_lt_of_eq value.toNat_lt hword)
  have hlow : value.toNat % 2 ^ places + 1 ≤ 2 ^ places := Nat.mod_lt _ (Nat.two_pow_pos places)
  have hlt :
      value.toNat / 2 ^ places + value.toNat % 2 ^ places * 2 ^ (32 - places) < 2 ^ 32 := calc
    _ < (value.toNat % 2 ^ places + 1) * 2 ^ (32 - places) := by rw [Nat.add_mul]; omega
    _ ≤ 2 ^ places * 2 ^ (32 - places) := Nat.mul_le_mul_right _ hlow
    _ = 2 ^ 32 := hword.symm
  rw [rotated, UInt32.toNat_ofNat', Nat.mod_eq_of_lt hlt]

theorem rotated_succ (value : Word) {places : Nat} (h : places < 32) :
    rotated value ((places + 1) % 32) = (ror.step (rotated value places)).1 := by
  have hword := value.toNat_lt
  simp only [step]
  rw [toNat_rotated value h]
  by_cases hlast : places = 31
  · subst hlast
    change UInt32.ofNat (value.toNat / 1 + value.toNat % 1 * 2 ^ 32) =
      UInt32.ofNat ((value.toNat / 2 ^ 31 + value.toNat % 2 ^ 31 * 2) / 2 +
        (value.toNat / 2 ^ 31 + value.toNat % 2 ^ 31 * 2) % 2 * 2 ^ 31)
    congr 1
    omega
  · have hnext : (places + 1) % 32 = places + 1 := Nat.mod_eq_of_lt (by omega)
    have htop : 2 ^ (32 - places) = 2 * 2 ^ (31 - places) := by rw [← Nat.pow_succ']; congr 1; omega
    have hall : 2 ^ places * 2 ^ (31 - places) = 2 ^ 31 := by
      rw [Nat.mul_comm, Nat.pow_sub_mul_pow 2 (by omega)]
    -- one more bit is in the part that goes to the top
    have hlow : value.toNat % 2 ^ (places + 1) =
        value.toNat % 2 ^ places + 2 ^ places * (value.toNat / 2 ^ places % 2) := by
          rw [Nat.pow_succ, Nat.mod_mul]
    have hhigh : value.toNat / 2 ^ (places + 1) = value.toNat / 2 ^ places / 2 := by
      rw [Nat.pow_succ, Nat.div_div_eq_div_mul]
    rw [hnext, rotated, show 32 - (places + 1) = 31 - places by omega, hlow, hhigh, htop,
      Nat.add_mul, Nat.mul_right_comm, hall, Nat.mul_left_comm _ 2]
    congr 1
    omega

/-! ## Carries

The carry of one more place is the bit that one more step moves out.
-/

theorem lsl_carry : (lsl.apply value (n + 1) carry).2 = (lsl.apply value n carry).1.bit 31 := by
  rw [lsl_value]
  simp only [apply, Nat.succ_ne_zero, if_false]
  by_cases hlt : n + 1 < 32
  · rw [if_pos hlt, Word.bit_ofNat_mul value (by omega), show 32 - (n + 1) = 31 - n by omega]
  · rw [if_neg hlt]
    by_cases hlast : n = 31
    · subst hlast
      rw [Word.bit_ofNat_mul value (Nat.le_refl 31)]
      rfl
    · have hgone : UInt32.ofNat (value.toNat * 2 ^ n) = 0 := by
        have hvalue : (lsl.apply value n carry).1 = 0 := by
          simp only [apply, show n ≠ 0 by omega, show ¬ n < 32 by omega, if_false]
        rwa [lsl_value] at hvalue
      rw [hgone, show (n + 1 == 32) = false by simpa using hlast]
      rfl

theorem lsr_carry : (lsr.apply value (n + 1) carry).2 = (lsr.apply value n carry).1.bit 0 := by
  rw [lsr_value, Word.bit_ofNat_div]
  simp only [apply, Nat.succ_ne_zero, if_false]
  by_cases hlt : n + 1 < 32
  · rw [if_pos hlt, Nat.add_sub_cancel]
  · rw [if_neg hlt]
    by_cases hlast : n = 31
    · subst hlast
      rfl
    · have hgone : value.bit n = false := Word.bit_of_le (by omega)
      rw [hgone, show (n + 1 == 32) = false by simpa using hlast]
      rfl

theorem asr_carry : (asr.apply value (n + 1) carry).2 = (asr.apply value n carry).1.bit 0 := by
  rw [asr_value, Word.bit_zero_ofInt]
  simp only [apply, Nat.succ_ne_zero, if_false]
  by_cases hlt : n + 1 < 32
  · rw [if_pos hlt, Nat.add_sub_cancel, Word.bit_eq_parity value (by omega)]
  · rw [if_neg hlt]
    by_cases hlast : n = 31
    · subst hlast
      exact Word.bit_eq_parity value (Nat.le_refl 31)
    · rw [Word.signed_div_of_le value (by omega)]
      cases value.negative <;> rfl

theorem negative_step_ror (value : Word) : (ror.step value).1.negative = (ror.step value).2 := by
  have hlt := value.toNat_lt
  simp only [step]
  rw [Bool.eq_iff_iff, Word.negative_iff, UInt32.toNat_ofNat', Word.bit, Word.field, beq_iff_eq]
  omega

/-! ## Steps -/

def repeated (kind : ShiftKind) (n : Nat) (x : Word × Bool) : Word × Bool :=
  (fun x => kind.step x.1)^[n] x

theorem apply_succ (kind : ShiftKind) (value : Word) (n : Nat) (carry : Bool) :
    kind.apply value (n + 1) carry = kind.step (kind.apply value n carry).1 := by
  cases kind with
  | lsl =>
    refine Prod.ext ?_ lsl_carry
    rw [lsl_value, lsl_value, step, ← UInt32.toNat_inj, UInt32.toNat_shiftLeft, UInt32.toNat_ofNat',
      UInt32.toNat_ofNat', Nat.pow_succ, ← Nat.mul_assoc]
    change _ = (value.toNat * 2 ^ n % 2 ^ 32) <<< 1 % 2 ^ 32
    rw [Nat.shiftLeft_eq, Nat.pow_one, Nat.mod_mul_mod]
  | lsr =>
    refine Prod.ext ?_ lsr_carry
    have hlt : value.toNat / 2 ^ n < 2 ^ 32 :=
      Nat.lt_of_le_of_lt (Nat.div_le_self ..) value.toNat_lt
    rw [lsr_value, lsr_value, step, ← UInt32.toNat_inj, UInt32.toNat_shiftRight,
      UInt32.toNat_ofNat',
      UInt32.toNat_ofNat', Nat.mod_eq_of_lt hlt, Nat.pow_succ, ← Nat.div_div_eq_div_mul]
    change _ = (value.toNat / 2 ^ n) >>> 1
    rw [Nat.shiftRight_eq_div_pow, Nat.pow_one]
    exact Nat.mod_eq_of_lt (Nat.lt_of_le_of_lt (Nat.div_le_self ..) hlt)
  | asr =>
    refine Prod.ext ?_ asr_carry
    have hpos : (0 : Int) ≤ 2 ^ n := Int.le_of_lt (Int.pow_pos (by decide))
    rw [asr_value, asr_value, step, Word.signed_ofInt_div, Int.ediv_ediv_of_nonneg hpos,
      Int.pow_succ]
  | ror =>
    have hvalue : (ror.apply value (n + 1) carry).1 = (ror.step (ror.apply value n carry).1).1 := by
      rw [ror_value, ror_value, ← rotated_succ value (Nat.mod_lt n (by decide)), Nat.mod_add_mod]
    -- rotations set the carry from the sign of the result, so the value decides both
    have hcarry :
        (ror.apply value (n + 1) carry).2 = (ror.apply value (n + 1) carry).1.negative := by
      simp only [apply, Nat.succ_ne_zero, if_false]
    refine Prod.ext hvalue ?_
    rw [hcarry, hvalue]
    exact negative_step_ror _

theorem apply_eq_repeated (kind : ShiftKind) (value : Word) (n : Nat) (carry : Bool) :
    kind.apply value n carry = kind.repeated n (value, carry) := by
  induction n with
  | zero => cases kind <;> rfl
  | succ n ih => rw [kind.apply_succ, ih, repeated, repeated, Function.iterate_succ_apply']

theorem apply_add (kind : ShiftKind) (value : Word) (m n : Nat) (carry : Bool) :
    kind.apply (kind.apply value m carry).1 n (kind.apply value m carry).2 =
    kind.apply value (m + n) carry := by
  rw [kind.apply_eq_repeated _ n, Prod.mk.eta, kind.apply_eq_repeated _ m, kind.apply_eq_repeated,
    repeated, repeated, repeated, ← Function.iterate_add_apply, Nat.add_comm n m]

end ShiftKind

/-! ## Instructions that shift -/

def ShiftAmount.places (s : Registers) : ShiftAmount → Nat
  | immediate amount => amount.toNat
  | register rs => (s.get rs).toNat % 256

def ShiftKind.opcode : ShiftKind → Opcode
  | lsl => .lsl
  | lsr => .lsr
  | asr => .asr
  | ror => .ror

/-- A second operand, shifted step by step, with the carry of the last step. Where there
is no step, that is the carry there was. -/
def Operand2.stepped (s : Registers) : Operand2 → Word × Bool
  | immediate value => (value, s.flags.carry)
  | shifted rm shift amount => shift.repeated (amount.places s) (s.get rm, s.flags.carry)

def Flags.logical (f : Flags) (result : Word) (carry : Bool) : Flags :=
  ⟨result.negative, result == 0, carry, f.overflow⟩

theorem FlagsUpdate.apply_logical (result : Word) (shifted : Option Bool) (f : Flags) :
    (logical result shifted).apply f = f.logical result (shifted.getD f.carry) := by
  cases shifted <;> rfl

theorem ShiftAmount.value_eq_places (amount : ShiftAmount) (s : Registers) :
    amount.value s = amount.places s := by
  cases amount with
  | immediate amount => rfl
  | register rs => rw [value, Word.field, Nat.pow_zero, Nat.div_one]; rfl

theorem Operand2.value_eq_stepped (operand : Operand2) (s : Registers) :
    (operand.value s s.flags.carry).1 = (operand.stepped s).1 := by
  cases operand with
  | immediate value => rfl
  | shifted rm shift amount =>
    simp only [value, stepped, ← shift.apply_eq_repeated, ← amount.value_eq_places]

theorem Operand2.carry_eq_stepped (operand : Operand2) (s : Registers) :
    (operand.value s s.flags.carry).2.getD s.flags.carry = (operand.stepped s).2 := by
  cases operand with
  | immediate value => rfl
  | shifted rm shift amount =>
    simp only [value, stepped, ← shift.apply_eq_repeated, ← amount.value_eq_places]
    by_cases hzero : amount.value s = 0
    · simp [hzero, ShiftKind.apply]
    · simp [hzero]

namespace Instruction

/-- The result goes to `rd`, N and Z are those of the result, C is the carry and V is kept. -/
def Leaves (i : Instruction) (s : Registers) (rd : Register) (result : Word)
    (carry : Bool) : Prop :=
  i.Completes s ((s.set rd result).next (s.flags.logical result carry))

variable {s : Registers} {o : Opcode} {rn : Register} {operand : Operand2} {result : Word}

theorem leaves_bitwise (h : (Sources.ofOperands s rn operand).arithmetic? o =
    some ((Sources.ofOperands s rn operand).logical result)) (rd : Register) :
    Leaves ⟨o, .dataProcessing true rd rn operand⟩ s rd result (operand.stepped s).2 := by
  have hcompletes := completes_arithmetic h rd
  rwa [FlagsUpdate.apply_logical, Sources.ofOperands, operand.carry_eq_stepped] at hcompletes

theorem completes_test (h : (Sources.ofOperands s rn operand).comparison? o =
    some ((Sources.ofOperands s rn operand).logical result).2) :
    Completes ⟨o, .compare rn operand⟩ s
      (s.next (s.flags.logical result (operand.stepped s).2)) := by
  have hcompletes := completes_comparison h
  rwa [Sources.logical, FlagsUpdate.apply_logical, Sources.ofOperands, operand.carry_eq_stepped]
    at hcompletes

theorem leaves_move (h : o = .mov ∧ result = (operand.stepped s).1 ∨
      o = .mvn ∧ result = ~~~(operand.stepped s).1)
    (rd : Register) : Leaves ⟨o, .move true rd operand⟩ s rd result (operand.stepped s).2 := by
  rw [← operand.value_eq_stepped] at h
  rw [Leaves, ← operand.carry_eq_stepped, ← FlagsUpdate.apply_logical]
  rcases h with ⟨rfl, rfl⟩ | ⟨rfl, rfl⟩
  · exact ⟨_, rfl, rfl⟩
  · exact ⟨_, rfl, rfl⟩

theorem leaves_shift (kind : ShiftKind) (s : Registers) (rd rn : Register) (amount : ShiftAmount) :
    let x := kind.repeated (amount.places s) (s.get rn, s.flags.carry)
    Leaves ⟨kind.opcode, .shift true rd rn amount⟩ s rd x.1 x.2 := by
  have hkind : ExecutionUnit.shiftKind? kind.opcode = some kind := by cases kind <;> rfl
  have hresult : kind.apply (s.get rn) (amount.value s) s.flags.carry =
      kind.repeated (amount.places s) (s.get rn, s.flags.carry) := by
    rw [kind.apply_eq_repeated, amount.value_eq_places]
  have hcompletes := completes_shift hkind hresult rd
  rwa [FlagsUpdate.apply_logical] at hcompletes

/-- Shifting by any number of places is that many single steps, so shifts by `m` and by `n` places
make one by `m + n`. The logical instructions work on the stepped operand, and they and the shifts
leave N and Z of the result, V as it was, and the carry of the last step. -/
theorem shifts_stepwise :
    (∀ (kind : ShiftKind) (value : Word) (n : Nat) (carry : Bool),
      kind.apply value n carry = kind.repeated n (value, carry)) ∧
    (∀ (kind : ShiftKind) (value : Word) (m n : Nat) (carry : Bool),
      kind.apply (kind.apply value m carry).1 n (kind.apply value m carry).2 =
      kind.apply value (m + n) carry) ∧ ∀ (s : Registers) (rd rn : Register) (operand : Operand2)
      (amount : ShiftAmount), let a := s.get rn
      let b := (operand.stepped s).1
      let c := (operand.stepped s).2
      Leaves ⟨.and, .dataProcessing true rd rn operand⟩ s rd (a &&& b) c ∧
      Leaves ⟨.orr, .dataProcessing true rd rn operand⟩ s rd (a ||| b) c ∧
      Leaves ⟨.eor, .dataProcessing true rd rn operand⟩ s rd (a ^^^ b) c ∧
      Leaves ⟨.bic, .dataProcessing true rd rn operand⟩ s rd (a &&& ~~~b) c ∧
      Leaves ⟨.mov, .move true rd operand⟩ s rd b c ∧
      Leaves ⟨.mvn, .move true rd operand⟩ s rd (~~~b) c ∧
      Completes ⟨.tst, .compare rn operand⟩ s (s.next (s.flags.logical (a &&& b) c)) ∧
      Completes ⟨.teq, .compare rn operand⟩ s (s.next (s.flags.logical (a ^^^ b) c)) ∧
      ∀ kind : ShiftKind,
        let x := kind.repeated (amount.places s) (a, s.flags.carry)
        Leaves ⟨kind.opcode, .shift true rd rn amount⟩ s rd x.1 x.2 := by
  refine ⟨ShiftKind.apply_eq_repeated, ShiftKind.apply_add, fun s rd rn operand amount => ?_⟩
  rw [← operand.value_eq_stepped]
  refine ⟨leaves_bitwise rfl rd, leaves_bitwise rfl rd, leaves_bitwise rfl rd,
    leaves_bitwise rfl rd, ?_, ?_,
    completes_test rfl, completes_test rfl, fun kind => leaves_shift kind s rd rn amount⟩
  · exact leaves_move (.inl ⟨rfl, operand.value_eq_stepped s⟩) rd
  · exact leaves_move (.inr ⟨rfl, congrArg _ (operand.value_eq_stepped s)⟩) rd

end Instruction

/-- After 32 places the word is what it was, with its top bit in the carry. -/
example : ShiftKind.ror.apply 0x80000001 64 false = (0x80000001, true) := by decide

end PagedMachine

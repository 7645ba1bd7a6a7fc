import Mathlib.Algebra.GroupWithZero.Nat
import PagedMachine.Proofs.Readings
import PagedMachine.Proofs.Results

/-!
# Products and quotients

Low and high word together hold the exact product, for either reading of the factors.
A quotient is exact with its remainder, and one signed quotient alone does not fit.
-/

namespace PagedMachine

namespace Word

/-! ## Products -/

theorem negative_iff_signed {value : Word} : value.negative = true ↔ value.signed < 0 := by
  have hlt := value.toNat_lt
  rw [negative_iff, signed]
  split <;> omega

theorem signed_emod (value : Word) : value.signed % 2 ^ 32 = value.toNat := by
  have hlt := value.toNat_lt
  unfold signed
  split <;> omega

theorem toNat_mulHigh (a b : Word) : (a.mulHigh b).toNat = a.toNat * b.toNat / 2 ^ 32 := by
  have hlt := toNat_mul_lt a b
  have hhigh : a.toNat * b.toNat / 2 ^ 32 < 2 ^ 32 := by omega
  rw [mulHigh, UInt32.toNat_ofNat', Nat.mod_eq_of_lt hhigh]

theorem signed_signedMulHigh (a b : Word) :
    (a.signedMulHigh b).signed = a.signed * b.signed / 2 ^ 32 := by
  have hbounds := signed_mul_bounds a b
  exact signed_ofInt (by omega) (by omega)

theorem toNat_mul (a b : Word) : (a * b).toNat = a.toNat * b.toNat % 2 ^ 32 := UInt32.toNat_mul a b

/-- The low word is the same for both readings. -/
theorem signed_mul_emod (a b : Word) : a.signed * b.signed % 2 ^ 32 = (a * b).toNat := by
  rw [Int.mul_emod, signed_emod, signed_emod, toNat_mul]
  norm_cast

theorem mul_eq_ofInt (a b : Word) : a * b = ofInt (a.signed * b.signed) := by
  rw [← UInt32.toNat_inj, toNat_ofInt, signed_mul_emod, Int.toNat_natCast]

theorem mul_exact (a b : Word) :
    (a * b).toNat + 2 ^ 32 * (a.mulHigh b).toNat = a.toNat * b.toNat := by
  rw [toNat_mul, toNat_mulHigh, Nat.mod_add_div]

theorem signed_mul_exact (a b : Word) :
    (a * b).toNat + 2 ^ 32 * (a.signedMulHigh b).signed = a.signed * b.signed := by
  rw [← signed_mul_emod, signed_signedMulHigh, Int.emod_add_mul_ediv]

theorem mulCarries_iff (a b : Word) : a.mulCarries b = true ↔ 2 ^ 32 ≤ a.toNat * b.toNat :=
  decide_eq_true_iff

theorem mulOverflows_iff (a b : Word) : a.mulOverflows b = true ↔
    ¬ Fits 32 (a.signed * b.signed) := by
  rw [mulOverflows, bne_iff_ne, not_iff_not, fits_word_iff]
  constructor
  · intro hlow
    rw [hlow]
    exact ⟨neg_le_signed _, signed_lt _⟩
  · rintro ⟨hl, hr⟩
    rw [mul_eq_ofInt, signed_ofInt hl hr]

/-! ## Quotients -/

/-- The quotient `q` of `a` by `b` toward zero: what remains has the sign of the dividend. -/
def Truncates (a b q : Int) : Prop :=
  ∃ r, a = q * b + r ∧ r.natAbs < b.natAbs ∧ (r = 0 ∨ r.sign = a.sign)

theorem truncates_tdiv (a : Int) {b : Int} (h : b ≠ 0) : Truncates a b (a.tdiv b) := by
  refine ⟨a.tmod b, (Int.tdiv_mul_add_tmod a b).symm, ?_, ?_⟩
  · rw [Int.natAbs_tmod]
    exact Nat.mod_lt _ (Int.natAbs_pos.mpr h)
  · by_cases hdvd : b ∣ a
    · exact .inl (Int.tmod_eq_zero_of_dvd hdvd)
    · right
      rw [Int.sign_tmod, if_neg hdvd]

theorem toNat_quotient {a b : Word} (h : b ≠ 0) : (a.quotient b).toNat = a.toNat / b.toNat := by
  have hlt : a.toNat / b.toNat < 2 ^ 32 := Nat.lt_of_le_of_lt (Nat.div_le_self ..) a.toNat_lt
  rw [quotient, if_neg h, UInt32.toNat_ofNat', Nat.mod_eq_of_lt hlt]

theorem quotient_exact {a b : Word} (h : b ≠ 0) :
    ∃ r < b.toNat, a.toNat = (a.quotient b).toNat * b.toNat + r := by
  have hpos : 0 < b.toNat := Nat.pos_of_ne_zero fun hzero => h (UInt32.toNat_inj.mp hzero)
  refine ⟨a.toNat % b.toNat, Nat.mod_lt _ hpos, ?_⟩
  rw [toNat_quotient h, Nat.mul_comm, Nat.div_add_mod]

theorem quotientOverflows_iff (a b : Word) :
    a.quotientOverflows b = true ↔ a.signed = -2 ^ 31 ∧ b.signed = -1 := by
  rw [quotientOverflows, Bool.and_eq_true, beq_iff_eq, beq_iff_eq]

theorem signed_signedQuotient {a b : Word} (h : b ≠ 0)
    (hfits : ¬ (a.signed = -2 ^ 31 ∧ b.signed = -1)) :
    (a.signedQuotient b).signed = a.signed.tdiv b.signed := by
  have hb : b.signed ≠ 0 := fun hzero => h (signed_eq_zero.mp hzero)
  obtain ⟨hl, hr⟩ := a.signed_fits.tdiv hb hfits
  rw [signedQuotient, if_neg h, signed_ofInt hl hr]

theorem signedQuotient_of_overflows {a b : Word} (h : a.signed = -2 ^ 31 ∧ b.signed = -1) :
    (a.signedQuotient b).signed = -2 ^ 31 := by
  have hb : b ≠ 0 := fun hzero => by
    rw [hzero] at h
    exact absurd h.2 (by decide)
  rw [signedQuotient, if_neg hb, h.1, h.2]
  rfl

end Word

/-! ## What the instructions leave -/

namespace Instruction

/-- The result is in `rd`. With the S bit, N and Z are read off it and C and V are as given. Without
it the flags are kept. -/
def Answers (o : Opcode) (s : Registers) (setFlags : Bool) (rd rn : Register) (operand : Operand2)
    (result : Word) (carry overflow : Prop) : Prop :=
  ∃ flags :
    Flags, Completes ⟨o, .dataProcessing setFlags rd rn operand⟩ s ((s.set rd result).next flags) ∧
    if setFlags then
      (flags.negative = true ↔ result.signed < 0) ∧ (flags.zero = true ↔ result = 0) ∧
        (flags.carry = true ↔ carry) ∧ (flags.overflow = true ↔ overflow)
    else flags = s.flags

section
variable {o : Opcode} {s : Registers} {cost : Cost}
    {result? : Sources → Opcode → Option (Word × FlagsUpdate)}
variable (hplan : ∀ i : Instruction, i.opcode = o →
      o.unit.plan? i s = ExecutionUnit.planResult i s cost result?)

include hplan in
theorem answers_of_result {rn : Register} {operand : Operand2} {result : Word}
    {carry overflow : Bool} {c v : Prop}
    (h : result? (Sources.ofOperands s rn operand) o =
      some (result, .arithmetic result carry overflow))
    (hc : carry = true ↔ c) (hv : overflow = true ↔ v) (setFlags : Bool) (rd : Register) :
    Answers o s setFlags rd rn operand result c v := by
  let update : FlagsUpdate := if setFlags then .arithmetic result carry overflow else .keep
  have hexecute : execute ⟨o, .dataProcessing setFlags rd rn operand⟩ s =
      pure { Effects.next s cost with writes := [(rd, result)], update := update } := by
    apply execute_of_done
    change o.unit.plan? _ s = _
    rw [hplan _ rfl, ExecutionUnit.planResult]
    simp only [h, Option.map_some, update]
  refine ⟨update.apply s.flags, ⟨_, hexecute, rfl⟩, ?_⟩
  cases setFlags with
  | false => rfl
  | true => exact ⟨Word.negative_iff_signed, beq_iff_eq, hc, hv⟩

end

theorem answers_product {o : Opcode} {s : Registers} {rn : Register} {operand : Operand2}
    {result : Word} {carry overflow : Bool} {c v : Prop} (ho : o.unit = .multiply)
    (h : (Sources.ofOperands s rn operand).product? o =
      some (result, .arithmetic result carry overflow))
    (hc : carry = true ↔ c) (hv : overflow = true ↔ v) (setFlags : Bool) (rd : Register) :
    Answers o s setFlags rd rn operand result c v :=
  answers_of_result (fun i _ => by rw [ho, ExecutionUnit.plan?]) h hc hv setFlags rd

theorem answers_quotient {o : Opcode} {s : Registers} {rn : Register} {operand : Operand2}
    {result : Word} {overflow : Bool} {v : Prop} (ho : o.unit = .divide)
    (h : (Sources.ofOperands s rn operand).quotient? o =
      some (result, .arithmetic result false overflow))
    (hv : overflow = true ↔ v) (setFlags : Bool) (rd : Register) :
    Answers o s setFlags rd rn operand result False v :=
  answers_of_result (fun i _ => by rw [ho, ExecutionUnit.plan?]) h
    (iff_of_eq Bool.false_eq_true) hv setFlags rd

/-- What is left of two operands by the three products: the words of the exact ones. -/
def Multiplies (s : Registers) (setFlags : Bool) (rd rn : Register) (operand : Operand2)
    (a b : Word) : Prop :=
  ∃ low high signedHigh : Word,
    Answers .mul s setFlags rd rn operand low (2 ^ 32 ≤ a.toNat * b.toNat)
      (¬ PagedMachine.Fits 32 (a.signed * b.signed)) ∧
    Answers .umulh s setFlags rd rn operand high False False ∧
    Answers .smulh s setFlags rd rn operand signedHigh False False ∧
    low.toNat + 2 ^ 32 * high.toNat = a.toNat * b.toNat ∧
    low.toNat + 2 ^ 32 * signedHigh.signed = a.signed * b.signed

/-- What is left by the two quotients. There is one signed quotient that is no word. -/
def Divides (s : Registers) (setFlags : Bool) (rd rn : Register) (operand : Operand2)
    (a b : Word) : Prop :=
  ∃ q q' : Word,
    Answers .udiv s setFlags rd rn operand q False False ∧
    Answers .sdiv s setFlags rd rn operand q' False (a.signed = -2 ^ 31 ∧ b.signed = -1) ∧
    if b = 0 then q = 0 ∧ q' = 0
    else
      (∃ r < b.toNat, a.toNat = q.toNat * b.toNat + r) ∧
        if a.signed = -2 ^ 31 ∧ b.signed = -1 then q'.signed = -2 ^ 31
        else Word.Truncates a.signed b.signed q'.signed

theorem multiplies (s : Registers) (setFlags : Bool) (rd rn : Register) (operand : Operand2) :
    Multiplies s setFlags rd rn operand (s.get rn) (operand.value s s.flags.carry).1 := by
  set x := Sources.ofOperands s rn operand
  have hclear : false = true ↔ False := iff_of_eq Bool.false_eq_true
  refine ⟨x.a * x.b, x.a.mulHigh x.b, x.a.signedMulHigh x.b, ?_, ?_, ?_, ?_, ?_⟩
  · exact answers_product rfl rfl (Word.mulCarries_iff _ _) (Word.mulOverflows_iff _ _) setFlags rd
  · exact answers_product rfl rfl hclear hclear setFlags rd
  · exact answers_product rfl rfl hclear hclear setFlags rd
  · exact Word.mul_exact x.a x.b
  · exact Word.signed_mul_exact x.a x.b

theorem divides (s : Registers) (setFlags : Bool) (rd rn : Register) (operand : Operand2) :
    Divides s setFlags rd rn operand (s.get rn) (operand.value s s.flags.carry).1 := by
  set x := Sources.ofOperands s rn operand
  have hclear : false = true ↔ False := iff_of_eq Bool.false_eq_true
  refine ⟨x.a.quotient x.b, x.a.signedQuotient x.b, ?_, ?_, ?_⟩
  · exact answers_quotient rfl rfl hclear setFlags rd
  · exact answers_quotient rfl rfl (Word.quotientOverflows_iff _ _) setFlags rd
  by_cases hzero : x.b = 0
  · exact (if_pos hzero).mpr ⟨if_pos hzero, if_pos hzero⟩
  · refine (if_neg hzero).mpr ⟨Word.quotient_exact hzero, ?_⟩
    by_cases hleast : x.a.signed = -2 ^ 31 ∧ x.b.signed = -1
    · exact (if_pos hleast).mpr (Word.signedQuotient_of_overflows hleast)
    · have hb : x.b.signed ≠ 0 := fun h => hzero (Word.signed_eq_zero.mp h)
      refine (if_neg hleast).mpr ?_
      rw [Word.signed_signedQuotient hzero hleast]
      exact Word.truncates_tdiv x.a.signed hb

/-- For all registers, whatever the form of the second operand. -/
theorem products_and_quotients_exact (s : Registers) (setFlags : Bool) (rd rn : Register)
    (operand : Operand2) :
    let a := s.get rn
    let b := (operand.value s s.flags.carry).1
    Multiplies s setFlags rd rn operand a b ∧ Divides s setFlags rd rn operand a b :=
  ⟨multiplies s setFlags rd rn operand, divides s setFlags rd rn operand⟩

end Instruction

end PagedMachine

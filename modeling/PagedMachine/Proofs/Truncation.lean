import PagedMachine.Proofs.InstructionFormat

/-!
# Values wider than their fields

An instruction built by hand may hold values that its fields do not. Its encoding is
that of the instruction whose values are reduced to their fields, so this is the one
that is read back, with every other field as it was. Only `nop` and `hlt` have no
field to reduce a payload to: their words are refused when any bit of it is left.
-/

namespace PagedMachine

/-! ## Reduced values -/

def ShiftAmount.reduced : ShiftAmount → ShiftAmount
  | .immediate amount => .immediate (UInt8.ofNat (amount.toNat % 2 ^ 5))
  | .register rs => .register rs

def Operand2.reduced (bits : Nat) : Operand2 → Operand2
  | .immediate value => .immediate (UInt32.ofNat (value.toNat % 2 ^ bits))
  | .shifted rm shift amount => .shifted rm shift amount.reduced

def MemoryOffset.reduced : MemoryOffset → MemoryOffset
  | .immediate value => .immediate (UInt16.ofNat (value.toNat % 2 ^ 12))
  | .register rm => .register rm

/-- A distance becomes the number of 20 bits in two's complement that differs from it
by a multiple of `2 ^ 20`. -/
def BranchTarget.reduced : BranchTarget → BranchTarget
  | .relative words => .relative (Int32.ofInt (words.toInt.bmod (2 ^ 20)))
  | .register rm => .register rm

def Operands.reduced : Operands → Operands
  | .control payload => .control (UInt32.ofNat (payload.toNat % 2 ^ 24))
  | .dataProcessing setFlags rd rn operand => .dataProcessing setFlags rd rn (operand.reduced 14)
  | .move setFlags rd operand => .move setFlags rd (operand.reduced 16)
  | .moveTop rd value => .moveTop rd value
  | .compare rn operand => .compare rn (operand.reduced 14)
  | .shift setFlags rd rn amount => .shift setFlags rd rn amount.reduced
  | .memory mode rt rn offset up => .memory mode rt rn offset.reduced up
  | .atomic rd rm rn => .atomic rd rm rn
  | .branch condition target => .branch condition target.reduced
  | .floatArith rd rn rm => .floatArith rd rn rm
  | .floatCompare rn rm => .floatCompare rn rm
  | .floatConvert rd rn => .floatConvert rd rn

def Instruction.reduced (i : Instruction) : Instruction := ⟨i.opcode, i.operands.reduced⟩

/-- A `nop` or `hlt` with a payload that shows in its word. -/
def Instruction.Stray (i : Instruction) : Prop :=
  (i.opcode = .nop ∨ i.opcode = .hlt) ∧ ∃ payload, i.operands = .control payload ∧
    payload.toNat % 2 ^ 24 ≠ 0

theorem Word.toNat_ofNat_mod {n bits : Nat} (h : bits ≤ 32) :
    (UInt32.ofNat (n % 2 ^ bits)).toNat = n % 2 ^ bits := by
  have hlt : n % 2 ^ bits < 2 ^ bits := Nat.mod_lt _ (Nat.two_pow_pos bits)
  have hle : 2 ^ bits ≤ 2 ^ 32 := Nat.pow_le_pow_right (by decide) h
  rw [UInt32.toNat_ofNat', Nat.mod_eq_of_lt (by omega)]

theorem BranchTarget.toInt_ofInt_bmod (n : Int) :
    (Int32.ofInt (n.bmod (2 ^ 20))).toInt = n.bmod (2 ^ 20) := by
  have hlow : -2 ^ 19 ≤ n.bmod (2 ^ 20) := Int.le_bmod (by decide)
  have hhigh : n.bmod (2 ^ 20) < 2 ^ 19 := Int.bmod_lt (by decide)
  exact Int32.toInt_ofInt_of_le (by omega) (by omega)

/-! ## The reduced value fits its field -/

theorem ShiftAmount.fits_reduced (amount : ShiftAmount) : amount.reduced.Fits := by
  cases amount with
  | immediate amount =>
    simp only [reduced, Fits]
    simp
    omega
  | register => trivial

theorem Operand2.fits_reduced {bits : Nat} (h : bits ≤ 32) (operand : Operand2) :
    (operand.reduced bits).Fits bits := by
  cases operand with
  | immediate value =>
    simp only [reduced, Fits]
    rw [Word.toNat_ofNat_mod h]
    exact Nat.mod_lt _ (Nat.two_pow_pos bits)
  | shifted _ _ amount => exact amount.fits_reduced

theorem MemoryOffset.fits_reduced (offset : MemoryOffset) : offset.reduced.Fits := by
  cases offset with
  | immediate value =>
    simp only [reduced, Fits]
    simp
    omega
  | register => trivial

/-- Reduced operands fit, but for the payload that `nop` and `hlt` have no field for. -/
theorem Instruction.fits_reduced {i : Instruction} (h : i.operands.Suit i.opcode)
    (hstray : ¬ i.Stray) : i.reduced.Fits := by
  obtain ⟨o, ops⟩ := i
  cases ops with
  | control payload =>
    have hvalue : (UInt32.ofNat (payload.toNat % 2 ^ 24)).toNat = payload.toNat % 2 ^ 24 :=
      Word.toNat_ofNat_mod (by decide)
    constructor
    · rw [hvalue]
      exact Nat.mod_lt _ (by decide)
    · -- only `swi` has a field for a payload; the others must not carry one
      by_cases hswi : o = .swi
      · exact .inl hswi
      · right
        have hquiet : o = .nop ∨ o = .hlt := by
          cases o <;> first | exact .inl rfl | exact .inr rfl | exact absurd rfl hswi | cases h
        have hzero : payload.toNat % 2 ^ 24 = 0 := by
          by_contra hne
          exact hstray ⟨hquiet, payload, rfl, hne⟩
        rw [hzero]
        rfl
  | dataProcessing _ _ _ operand => exact operand.fits_reduced (by decide)
  | move _ _ operand => exact operand.fits_reduced (by decide)
  | compare _ operand => exact operand.fits_reduced (by decide)
  | shift _ _ _ amount => exact amount.fits_reduced
  | memory _ _ _ offset _ => exact offset.fits_reduced
  | branch condition target =>
    cases target with
    | relative words =>
      have hvalue := BranchTarget.toInt_ofInt_bmod words.toInt
      change -2 ^ 19 ≤ (Int32.ofInt _).toInt ∧ (Int32.ofInt _).toInt < 2 ^ 19
      rw [hvalue]
      exact ⟨Int.le_bmod (by decide), Int.bmod_lt (by decide)⟩
    | register => trivial
  | moveTop | atomic | floatArith | floatCompare | floatConvert => trivial

theorem Operands.suit_reduced {ops : Operands} {o : Opcode} (h : ops.Suit o) :
    ops.reduced.Suit o := by
  cases ops with
  | branch condition target => cases target <;> exact h
  | _ => exact h

/-! ## The encoding does not see the difference -/

theorem Operand2.bits_reduced {bits : Nat} (h : bits ≤ 32) (operand : Operand2) :
    (operand.reduced bits).bits bits = operand.bits bits := by
  rcases operand with value | ⟨rm, shift, amount | rs⟩
  · simp only [reduced, Operand2.bits]
    rw [Word.toNat_ofNat_mod h, Nat.mod_mod]
  · simp only [reduced, ShiftAmount.reduced, Operand2.bits, ShiftAmount.operandBits]
    simp
  · rfl

theorem ShiftAmount.bits_reduced (amount : ShiftAmount) : amount.reduced.bits = amount.bits := by
  cases amount with
  | immediate amount =>
    simp only [reduced, bits]
    simp
  | register => rfl

theorem MemoryOffset.bits_reduced (offset : MemoryOffset) : offset.reduced.bits = offset.bits := by
  cases offset with
  | immediate value =>
    simp only [reduced, bits]
    simp
  | register => rfl

theorem BranchTarget.bits_reduced (target : BranchTarget) : target.reduced.bits = target.bits := by
  cases target with
  | relative words =>
    simp only [reduced, bits]
    rw [BranchTarget.toInt_ofInt_bmod, show (2 : Int) ^ 20 = ((2 ^ 20 : Nat) : Int) from rfl,
      Int.bmod_emod]
  | register => rfl

theorem Operands.bits_reduced (ops : Operands) : ops.reduced.bits = ops.bits := by
  cases ops with
  | control payload =>
    simp only [reduced, bits]
    rw [Word.toNat_ofNat_mod (by decide), Nat.mod_mod]
  | dataProcessing _ _ _ operand =>
    simp only [reduced, bits]
    rw [operand.bits_reduced (by decide)]
  | move _ _ operand =>
    simp only [reduced, bits]
    rw [operand.bits_reduced (by decide)]
  | compare _ operand =>
    simp only [reduced, bits]
    rw [operand.bits_reduced (by decide)]
  | shift _ _ _ amount =>
    simp only [reduced, bits]
    rw [amount.bits_reduced]
  | memory _ _ _ offset _ =>
    simp only [reduced, bits]
    rw [offset.bits_reduced]
  | branch _ target =>
    simp only [reduced, bits]
    rw [target.bits_reduced]
  | moveTop | atomic | floatArith | floatCompare | floatConvert => rfl

namespace Instruction

variable {i : Instruction}

theorem encode_reduced (i : Instruction) : i.reduced.encode = i.encode := by
  simp only [encode, reduced]
  rw [i.operands.bits_reduced]

theorem decode?_encode_of_wellFormed (h : i.WellFormed) : decode? i.encode = some i :=
  decode?_eq_some_iff.mpr ⟨h, rfl⟩

theorem decode?_encode_of_not_stray (h : i.operands.Suit i.opcode) (hstray : ¬ i.Stray) :
    decode? i.encode = some i.reduced := by
  apply decode?_eq_some_iff.mpr
  exact ⟨⟨Operands.suit_reduced h, fits_reduced h hstray⟩, i.encode_reduced⟩

/-- The payload is in the way: these words have reserved bits only. -/
theorem decode?_encode_of_stray (hstray : i.Stray) : decode? i.encode = none := by
  obtain ⟨o, ops⟩ := i
  obtain ⟨hquiet, payload, hops, hpayload⟩ := hstray
  obtain rfl : ops = .control payload := hops
  have hbyte : o.byte < 2 := by rcases hquiet with rfl | rfl <;> decide
  have hword : (encode ⟨o, .control payload⟩).toNat = o.byte * 2 ^ 24 + payload.toNat % 2 ^ 24 := by
    simp only [encode, Operands.bits, UInt32.toNat_ofNat']
    omega
  have hopcode : Opcode.ofByte? (encode ⟨o, .control payload⟩).opcodeByte = some o := by
    apply Opcode.ofByte?_eq_some_iff.mpr
    rw [Word.opcodeByte, Word.field, hword]
    omega
  have hpayload : (encode ⟨o, .control payload⟩).field 0 24 ≠ 0 := by
    rw [Word.field, hword]
    omega
  have hformat : o.format = .control := by rcases hquiet with rfl | rfl <;> rfl
  have hswi : o ≠ .swi := by rcases hquiet with rfl | rfl <;> decide
  simp only [decode?, hopcode, Option.bind_eq_bind, Option.bind_some, Operands.ofWord?, hformat,
    Operands.ofControl?]
  rw [if_neg (not_or.mpr ⟨hswi, hpayload⟩)]
  rfl

/-- Encoding reduces every value to its field and no value reaches another field: what is read back
has the same opcode, the same registers, flags and conditions, and the reduced values. The one
exception are `nop` and `hlt` with a payload, whose words are refused. What is well formed is read
back as it is. -/
theorem encode_truncates (h : i.operands.Suit i.opcode) :
    (¬ i.Stray → decode? i.encode = some i.reduced) ∧ (i.Stray → decode? i.encode = none) ∧
      (i.WellFormed → decode? i.encode = some i) :=
  ⟨decode?_encode_of_not_stray h, decode?_encode_of_stray, decode?_encode_of_wellFormed⟩

/-- A branch by too large a distance goes one word back, on the same condition. -/
theorem branch_truncated :
    decode? (encode ⟨.b, .branch .ne (.relative 0x7FFFFFFF)⟩) =
    some ⟨.b, .branch .ne (.relative (-1))⟩ := by
  have hstray : ¬ Stray ⟨.b, .branch .ne (.relative 0x7FFFFFFF)⟩ := by
    rintro ⟨h | h, -⟩ <;> cases h
  have hread :=
    (encode_truncates (i := ⟨.b, .branch .ne (.relative 0x7FFFFFFF)⟩) (.inl rfl)).1 hstray
  rw [hread]
  rfl

end Instruction

end PagedMachine

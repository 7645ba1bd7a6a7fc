import Mathlib.Tactic.Common
import Mathlib.Tactic.Linarith
import Mathlib.Tactic.Ring
import PagedMachine.Isa.Decoding

/-!
# The fields of an instruction word

An operand layout occupies a row of bit fields. Encoding adds the row up, and a
row whose numbers fit their fields is determined by its sum; so the word of an
instruction is the one that holds each number of its row in its place.
-/

namespace PagedMachine

/-! ## Rows of bit fields -/

namespace Word

theorem field_lt (w : Word) (low len : Nat) : w.field low len < 2 ^ len :=
  Nat.mod_lt _ (Nat.two_pow_pos len)

theorem field_append (w : Word) (low m n : Nat) :
    w.field low (m + n) = w.field (low + m) n * 2 ^ m + w.field low m := by
  simp only [field, Nat.pow_add, ← Nat.div_div_eq_div_mul, Nat.mod_mul]
  rw [Nat.mul_comm, Nat.add_comm]

theorem field_all (w : Word) : w.field 0 32 = w.toNat := by
  simp [field, Nat.mod_eq_of_lt w.toNat_lt]

theorem bit_eq_iff {w : Word} {i : Nat} {b : Bool} : w.bit i = b ↔ w.field i 1 = b.toNat := by
  have := w.field_lt i 1
  cases b <;> simp [bit]
  omega

/-- The fields from bit `low` up, given by length and number, hold these numbers. -/
def Holds (w : Word) (low : Nat) : List (Nat × Nat) → Prop
  | [] => True
  | (len, x) :: row => w.field low len = x ∧ w.Holds (low + len) row

end Word

def packed : List (Nat × Nat) → Nat
  | [] => 0
  | (len, x) :: row => packed row * 2 ^ len + x

def rowLength (row : List (Nat × Nat)) : Nat := (row.map Prod.fst).sum

theorem Word.holds_iff {w : Word} {row : List (Nat × Nat)} {low : Nat}
    (fits : ∀ f ∈ row, f.2 < 2 ^ f.1) :
    w.Holds low row ↔ w.field low (rowLength row) = packed row := by
  induction row generalizing low with
  | nil => simp [Holds, packed, rowLength, field, Nat.mod_one]
  | cons f row ih =>
    obtain ⟨len, x⟩ := f
    have hx : x < 2 ^ len := fits (len, x) List.mem_cons_self
    have hlow := w.field_lt low len
    have rest : w.Holds (low + len) row ↔ w.field (low + len) (rowLength row) = packed row :=
      ih fun g hg => fits g (List.mem_cons_of_mem _ hg)
    have split : rowLength ((len, x) :: row) = len + rowLength row := by simp [rowLength]
    rw [Holds, packed, rest, split, field_append]
    constructor
    · rintro ⟨h, hr⟩
      rw [h, hr]
    · -- the lowest field is the remainder, the others are the quotient
      intro h
      have hmod := congrArg (· % 2 ^ len) h
      have hdiv := congrArg (· / 2 ^ len) h
      simp only [Nat.mul_add_mod_self_right, Nat.mod_eq_of_lt hlow, Nat.mod_eq_of_lt hx] at hmod
      simp only [Nat.mul_comm _ (2 ^ len), Nat.mul_add_div (Nat.two_pow_pos len),
        Nat.div_eq_of_lt hlow, Nat.div_eq_of_lt hx, Nat.add_zero] at hdiv
      exact ⟨hmod, hdiv⟩

theorem packed_lt {row : List (Nat × Nat)} (fits : ∀ f ∈ row, f.2 < 2 ^ f.1) :
    packed row < 2 ^ rowLength row := by
  induction row with
  | nil => simp [packed]
  | cons f row ih =>
    obtain ⟨len, x⟩ := f
    have hx : x < 2 ^ len := fits (len, x) List.mem_cons_self
    have hr := ih fun g hg => fits g (List.mem_cons_of_mem _ hg)
    simp only [packed, rowLength, List.map_cons, List.sum_cons, Nat.pow_add] at hr ⊢
    nlinarith

theorem rowLength_append (r s : List (Nat × Nat)) :
    rowLength (r ++ s) = rowLength r + rowLength s := by
  simp [rowLength]

theorem packed_append (r s : List (Nat × Nat)) :
    packed (r ++ s) = packed s * 2 ^ rowLength r + packed r := by
  induction r with
  | nil => simp [packed, rowLength]
  | cons f r ih =>
    obtain ⟨len, x⟩ := f
    rw [List.cons_append, packed, ih, packed]
    simp only [rowLength, List.map_cons, List.sum_cons, Nat.pow_add]
    ring

theorem Word.holds_append {w : Word} {r s : List (Nat × Nat)} {low : Nat} :
    w.Holds low (r ++ s) ↔ w.Holds low r ∧ w.Holds (low + rowLength r) s := by
  induction r generalizing low with
  | nil => simp [Holds, rowLength]
  | cons f r ih =>
    simp only [List.cons_append, Holds, ih, rowLength, List.map_cons, List.sum_cons, and_assoc,
      Nat.add_assoc]

/-! ## The row of an operand layout -/

def Operand2.row : Operand2 → List (Nat × Nat)
  | .immediate value => [(14, value.toNat)]
  | .shifted rm shift (.immediate amount) =>
    [(2, 0), (5, amount.toNat), (1, 0), (2, shift.code), (4, rm.val)]
  | .shifted rm shift (.register rs) =>
    [(3, 0), (4, rs.val), (1, 1), (2, shift.code), (4, rm.val)]

def Operand2.isImmediate : Operand2 → Bool
  | .immediate _ => true
  | .shifted .. => false

/-- The low 24 bits of a word by layout, reserved bits as fields that hold zero. -/
def Operands.row : Operands → List (Nat × Nat)
  | .control payload => [(24, payload.toNat)]
  | .dataProcessing setFlags rd rn operand =>
    operand.row ++
      [(4, rn.val), (4, rd.val), (1, operand.isImmediate.toNat), (1, setFlags.toNat)]
  | .move setFlags rd (.immediate value) =>
    [(16, value.toNat), (2, 0), (4, rd.val), (1, 1), (1, setFlags.toNat)]
  | .move setFlags rd (.shifted rm kind amount) =>
    (Operand2.shifted rm kind amount).row ++
      [(4, 0), (4, rd.val), (1, 0), (1, setFlags.toNat)]
  | .moveTop rd value => [(16, value.toNat), (2, 0), (4, rd.val), (2, 0)]
  | .compare rn operand =>
    operand.row ++ [(4, rn.val), (4, 0), (1, operand.isImmediate.toNat), (1, 0)]
  | .shift setFlags rd rn (.immediate amount) =>
    [(5, amount.toNat), (9, 0), (4, rn.val), (4, rd.val), (1, 1), (1, setFlags.toNat)]
  | .shift setFlags rd rn (.register rs) =>
    [(10, 0), (4, rs.val), (4, rn.val), (4, rd.val), (1, 0), (1, setFlags.toNat)]
  | .memory mode rt rn (.immediate value) up =>
    [(12, value.toNat), (1, up.toNat), (1, 1), (4, rn.val), (4, rt.val), (2, mode.code)]
  | .memory mode rt rn (.register rm) up =>
    [(8, 0), (4, rm.val), (1, up.toNat), (1, 0), (4, rn.val), (4, rt.val), (2, mode.code)]
  | .atomic rd rm rn => [(10, 0), (4, rn.val), (4, rm.val), (4, rd.val), (2, 0)]
  | .branch condition (.relative words) =>
    [(20, (words.toInt % 2 ^ 20).toNat), (4, condition.code)]
  | .branch condition (.register rm) => [(16, 0), (4, rm.val), (4, condition.code)]
  | .floatArith rd rn rm => [(10, 0), (4, rm.val), (4, rn.val), (4, rd.val), (2, 0)]
  | .floatCompare rn rm => [(10, 0), (4, rm.val), (4, rn.val), (4, 0), (2, 0)]
  | .floatConvert rd rn => [(10, 0), (4, 0), (4, rn.val), (4, rd.val), (2, 0)]

theorem ShiftKind.code_lt (k : ShiftKind) : k.code < 4 := by cases k <;> decide

theorem AddressingMode.code_lt (m : AddressingMode) : m.code < 3 := by cases m <;> decide

theorem Operand2.rowLength_row (operand : Operand2) : rowLength operand.row = 14 := by
  rcases operand with _ | ⟨_, _, _ | _⟩ <;> rfl

theorem Operands.rowLength_row (ops : Operands) : rowLength ops.row = 24 := by
  rcases ops with _ | _ | ⟨_, _, _ | _⟩ | _ | _ | ⟨_, _, _, _ | _⟩ | ⟨_, _, _, _ | _, _⟩ | _ |
      ⟨_, _ | _⟩ | _ | _ | _ <;>
    simp only [Operands.row, rowLength_append, Operand2.rowLength_row] <;> rfl

theorem Operand2.fits_row {operand : Operand2} (fits : operand.Fits 14) :
    ∀ f ∈ operand.row, f.2 < 2 ^ f.1 := by
  rcases operand with value | ⟨rm, shift, amount | rs⟩
  · simpa [row, Fits] using fits
  all_goals
    have := shift.code_lt
    simp [row, Fits, ShiftAmount.Fits] at fits ⊢
    omega

theorem Operand2.packed_row {operand : Operand2} (fits : operand.Fits 14) :
    packed operand.row + operand.isImmediate.toNat * 2 ^ 22 = operand.bits 14 := by
  rcases operand with value | ⟨rm, shift, amount | rs⟩ <;>
    simp [Fits, ShiftAmount.Fits] at fits <;>
    simp [row, packed, isImmediate, bits, ShiftAmount.operandBits] <;> omega

theorem Instruction.fits_row {i : Instruction} (fits : i.Fits) :
    ∀ f ∈ i.operands.row, f.2 < 2 ^ f.1 := by
  obtain ⟨o, ops⟩ := i
  cases ops with
  | control payload => simpa [Operands.row] using fits.1
  | dataProcessing setFlags rd rn operand =>
    have hs := setFlags.toNat_lt
    have hi := operand.isImmediate.toNat_lt
    rw [Operands.row, List.forall_mem_append]
    exact ⟨Operand2.fits_row fits, by simp; omega⟩
  | move setFlags rd operand =>
    have hs := setFlags.toNat_lt
    rcases operand with value | ⟨rm, shift, amount⟩
    · simp [Operands.row, Fits, Operand2.Fits] at fits ⊢
      omega
    · have narrow : (Operand2.shifted rm shift amount).Fits 14 := fits
      rw [Operands.row, List.forall_mem_append]
      exact ⟨Operand2.fits_row narrow, by simp; omega⟩
  | moveTop rd value =>
    have hv := value.toNat_lt
    simp [Operands.row]
    omega
  | compare rn operand =>
    have hi := operand.isImmediate.toNat_lt
    rw [Operands.row, List.forall_mem_append]
    exact ⟨Operand2.fits_row fits, by simp; omega⟩
  | shift setFlags rd rn amount =>
    have hs := setFlags.toNat_lt
    cases amount <;> simp [Operands.row, Fits, ShiftAmount.Fits] at fits ⊢ <;> omega
  | memory mode rt rn offset up =>
    have hm := mode.code_lt
    have hu := up.toNat_lt
    cases offset <;> simp [Operands.row, Fits, MemoryOffset.Fits] at fits ⊢ <;> omega
  | branch condition target =>
    have hc := condition.code_lt
    cases target <;> simp [Operands.row, Fits] at fits ⊢ <;> omega
  | atomic | floatArith | floatCompare | floatConvert => simp [Operands.row]

theorem Instruction.packed_row {i : Instruction} (fits : i.Fits) :
    packed i.operands.row = i.operands.bits := by
  obtain ⟨o, ops⟩ := i
  cases ops with
  | control payload =>
    have hp := fits.1
    simp [Operands.row, packed, Operands.bits] at hp ⊢
    omega
  | dataProcessing setFlags rd rn operand =>
    have low := Operand2.packed_row fits
    simp [Operands.row, packed_append, Operand2.rowLength_row, packed, Operands.bits]
    omega
  | move setFlags rd operand =>
    rcases operand with value | ⟨rm, shift, amount⟩
    · simp [Operands.row, packed, Operands.bits, Operand2.bits, Fits, Operand2.Fits] at fits ⊢
      omega
    · have narrow : (Operand2.shifted rm shift amount).Fits 14 := fits
      have low := Operand2.packed_row narrow
      simp [Operands.row, packed_append, Operand2.rowLength_row, packed, Operands.bits,
        Operand2.isImmediate, Operand2.bits] at low ⊢
      omega
  | moveTop rd value =>
    simp [Operands.row, packed, Operands.bits]
    omega
  | compare rn operand =>
    have low := Operand2.packed_row fits
    simp [Operands.row, packed_append, Operand2.rowLength_row, packed, Operands.bits]
    omega
  | shift setFlags rd rn amount =>
    cases amount <;>
      simp [Operands.row, packed, Operands.bits, ShiftAmount.bits, Fits, ShiftAmount.Fits]
        at fits ⊢ <;> omega
  | memory mode rt rn offset up =>
    cases offset <;>
      simp [Operands.row, packed, Operands.bits, MemoryOffset.bits, Fits, MemoryOffset.Fits]
        at fits ⊢ <;> omega
  | branch condition target =>
    cases target <;> simp [Operands.row, packed, Operands.bits, BranchTarget.bits]
    · omega
  | atomic | floatArith | floatCompare | floatConvert =>
    simp [Operands.row, packed, Operands.bits]
    omega

/-! ## The word of an instruction -/

/-- The word of an instruction is the one that holds its opcode byte and its row. -/
theorem Instruction.encode_eq_iff {i : Instruction} {w : Word} (fits : i.Fits) :
    i.encode = w ↔ i.opcode.byte = w.opcodeByte ∧ w.Holds 0 i.operands.row := by
  have hbyte := i.opcode.byte_lt
  have total : packed (i.operands.row ++ [(8, i.opcode.byte)]) =
      i.opcode.byte * 2 ^ 24 + i.operands.bits := by
    simp [packed_append, Operands.rowLength_row, packed, packed_row fits]
  have bound : i.operands.bits < 2 ^ 24 := by
    have := packed_lt (fits_row fits)
    rwa [Operands.rowLength_row, packed_row fits] at this
  have holds : w.Holds 0 (i.operands.row ++ [(8, i.opcode.byte)]) ↔
      w.toNat = i.opcode.byte * 2 ^ 24 + i.operands.bits := by
    rw [Word.holds_iff, total, rowLength_append, Operands.rowLength_row, ← w.field_all]
    · rfl
    · rw [List.forall_mem_append]
      exact ⟨fits_row fits, by simp; omega⟩
  rw [Word.holds_append, Operands.rowLength_row] at holds
  rw [and_comm, eq_comm (a := i.opcode.byte)]
  simp only [Word.Holds, and_true, Nat.zero_add] at holds
  rw [Word.opcodeByte, holds, encode, eq_comm, ← UInt32.toNat_inj]
  simp
  omega

end PagedMachine

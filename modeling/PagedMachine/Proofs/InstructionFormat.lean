import Mathlib.Tactic.IntervalCases
import PagedMachine.Proofs.Layouts

/-!
# The instruction format

A word is accepted exactly when it is the encoding of a well-formed instruction,
and then of that one only. Decoding reads the row of fields of a layout one by
one, so for each layout it succeeds exactly on the words that hold its row.
-/

namespace PagedMachine

/-! ## Reading fields back -/

theorem Register.ofField_eq_iff {w : Word} {low : Nat} {r : Register} :
    Register.ofField w low = r ↔ w.field low 4 = r.val := by
  simp [Register.ofField, Fin.ext_iff]

theorem ShiftKind.ofCode_eq_iff {n : Nat} (h : n < 4) {k : ShiftKind} :
    ShiftKind.ofCode n = k ↔ n = k.code := by
  interval_cases n <;> cases k <;> simp [ofCode, code]

theorem AddressingMode.ofCode?_eq_some_iff {n : Nat} {m : AddressingMode} :
    AddressingMode.ofCode? n = some m ↔ n = m.code := by
  rcases n with _ | _ | _ | n <;> cases m <;> simp [ofCode?, code]

/-- A branch distance is read back from its 20 bits. -/
theorem distance_eq_iff {n : Nat} (h : n < 2 ^ 20) {words : Int32} :
    Int32.ofInt ((n : Int).bmod (2 ^ 20)) = words ↔
      (-2 ^ 19 ≤ words.toInt ∧ words.toInt < 2 ^ 19) ∧ n = (words.toInt % 2 ^ 20).toNat := by
  have hlow : -2 ^ 19 ≤ (n : Int).bmod (2 ^ 20) := Int.le_bmod (by decide)
  have hhigh : (n : Int).bmod (2 ^ 20) < 2 ^ 19 := Int.bmod_lt (by decide)
  have hmod : (n : Int).bmod (2 ^ 20) % 2 ^ 20 = n := by
    rw [show (2 : Int) ^ 20 = ((2 ^ 20 : Nat) : Int) from rfl, Int.bmod_emod]
    omega
  have hread : (Int32.ofInt ((n : Int).bmod (2 ^ 20))).toInt = (n : Int).bmod (2 ^ 20) :=
    Int32.toInt_ofInt_of_le (by omega) (by omega)
  rw [← Int32.toInt_inj, hread]
  constructor
  · intro e
    rw [← e]
    omega
  · rintro ⟨hr, e⟩
    omega

theorem Operand2.ofWord?_eq_some_iff {w : Word} {operand : Operand2} :
    Operand2.ofWord? w = some operand ↔
      operand.Fits 14 ∧ w.Holds 0 operand.row ∧ w.field 22 1 = operand.isImmediate.toNat := by
  have hvalue := w.field_lt 0 14
  have hamount := w.field_lt 2 5
  have hshift := w.field_lt 8 2
  have hr := w.field_lt 7 1
  have hi := w.field_lt 22 1
  rcases operand with value | ⟨rm, shift, amount | rs⟩ <;>
    simp only [ofWord?, Word.bit, beq_iff_eq, Fits, ShiftAmount.Fits, row, Word.Holds,
      isImmediate] <;>
    split_ifs <;>
    simp [← UInt32.toNat_inj, ← UInt8.toNat_inj, Register.ofField_eq_iff,
      ShiftKind.ofCode_eq_iff hshift] <;>
    omega

namespace Operands

variable {w : Word} {o : Opcode}

theorem ofControl?_eq_some_iff {payload : Word} :
    ofControl? o w = some (.control payload) ↔
      (payload.toNat < 2 ^ 24 ∧ (o = .swi ∨ payload = 0)) ∧ w.Holds 0 (row (.control payload)) := by
  have hp := w.field_lt 0 24
  by_cases hs : o = .swi <;>
    simp [ofControl?, hs, row, Word.Holds, ← UInt32.toNat_inj] <;> omega

theorem ofDataProcessing?_eq_some_iff {s : Bool} {rd rn : Register} {operand : Operand2} :
    ofDataProcessing? w = some (.dataProcessing s rd rn operand) ↔
      operand.Fits 14 ∧ w.Holds 0 (row (.dataProcessing s rd rn operand)) := by
  simp [ofDataProcessing?, row, Word.holds_append, Operand2.ofWord?_eq_some_iff,
    Operand2.rowLength_row, Word.Holds, Word.bit_eq_iff, Register.ofField_eq_iff]
  tauto

theorem ofSingleOperand?_move_iff (h : o.format = .singleOperand) {s : Bool} {rd : Register}
    {operand : Operand2} :
    ofSingleOperand? o w = some (.move s rd operand) ↔
      (o = .mov ∨ o = .mvn) ∧ operand.Fits 16 ∧ w.Holds 0 (row (.move s rd operand)) := by
  have hv := w.field_lt 0 16
  have hi := w.field_lt 22 1
  have ho : o = .mov ∨ o = .mvn ↔ o ≠ .movt := by
    cases o <;> simp [Opcode.format] at h ⊢
  rw [ho, ofSingleOperand?]
  by_cases hm : o = .movt
  · rw [if_pos hm]
    split_ifs <;> simp [hm]
  · rw [if_neg hm]
    rcases operand with value | ⟨rm, kind, amount⟩
    · simp only [Word.bit_eq_iff, Bool.toNat_true, row, Word.Holds]
      split_ifs <;>
        simp [Operand2.ofWord?_eq_some_iff, Operand2.isImmediate, Operand2.Fits, hm,
          Word.bit_eq_iff, Register.ofField_eq_iff, ← UInt32.toNat_inj] <;>
        omega
    · have same : (Operand2.shifted rm kind amount).Fits 16 ↔
          (Operand2.shifted rm kind amount).Fits 14 := Iff.rfl
      simp only [Word.bit_eq_iff, Bool.toNat_true, row, Word.holds_append, Word.Holds,
        Operand2.rowLength_row, same]
      split_ifs <;>
        simp [Operand2.ofWord?_eq_some_iff, Operand2.isImmediate, hm,
          Word.bit_eq_iff, Register.ofField_eq_iff] <;>
        grind

theorem ofSingleOperand?_moveTop_iff {rd : Register} {value : UInt16} :
    ofSingleOperand? o w = some (.moveTop rd value) ↔
      o = .movt ∧ w.Holds 0 (row (.moveTop rd value)) := by
  have hv := w.field_lt 0 16
  by_cases hm : o = .movt
  · simp [ofSingleOperand?, hm, row, Word.Holds, Register.ofField_eq_iff, ← UInt16.toNat_inj]
    omega
  · simp [ofSingleOperand?, hm]
    split_ifs <;> simp

theorem ofCompare?_eq_some_iff {rn : Register} {operand : Operand2} :
    ofCompare? w = some (.compare rn operand) ↔
      operand.Fits 14 ∧ w.Holds 0 (row (.compare rn operand)) := by
  simp [ofCompare?, row, Word.holds_append, Operand2.ofWord?_eq_some_iff,
    Operand2.rowLength_row, Word.Holds, Word.bit_eq_iff, Register.ofField_eq_iff]
  tauto

theorem ofShift?_eq_some_iff {s : Bool} {rd rn : Register} {amount : ShiftAmount} :
    ofShift? w = some (.shift s rd rn amount) ↔
      amount.Fits ∧ w.Holds 0 (row (.shift s rd rn amount)) := by
  have ha := w.field_lt 0 5
  have hi := w.field_lt 22 1
  cases amount <;>
    simp only [ofShift?, Word.bit_eq_iff, Bool.toNat_true, row, Word.Holds, ShiftAmount.Fits] <;>
    split_ifs <;>
    simp [Word.bit_eq_iff, Register.ofField_eq_iff, ← UInt8.toNat_inj] <;>
    omega

theorem ofMemory?_eq_some_iff {mode : AddressingMode} {rt rn : Register} {offset : MemoryOffset}
    {up : Bool} :
    ofMemory? w = some (.memory mode rt rn offset up) ↔
      offset.Fits ∧ w.Holds 0 (row (.memory mode rt rn offset up)) := by
  have ha := w.field_lt 0 12
  have hi := w.field_lt 13 1
  cases offset <;>
    simp only [ofMemory?, bind, Option.bind_eq_some_iff, AddressingMode.ofCode?_eq_some_iff,
      Word.bit_eq_iff, Bool.toNat_true, row, Word.Holds, MemoryOffset.Fits] <;>
    split_ifs <;>
    simp [Word.bit_eq_iff, Register.ofField_eq_iff, ← UInt16.toNat_inj] <;>
    omega

theorem ofAtomic?_eq_some_iff {rd rm rn : Register} :
    ofAtomic? w = some (.atomic rd rm rn) ↔ w.Holds 0 (row (.atomic rd rm rn)) := by
  simp [ofAtomic?, row, Word.Holds, Register.ofField_eq_iff]
  tauto

theorem ofBranch?_relative_iff {condition : Condition} {words : Int32} :
    ofBranch? o w = some (.branch condition (.relative words)) ↔
      (o = .b ∨ o = .bl) ∧ (-2 ^ 19 ≤ words.toInt ∧ words.toInt < 2 ^ 19) ∧
        w.Holds 0 (row (.branch condition (.relative words))) := by
  have hd := w.field_lt 0 20
  simp only [ofBranch?, bind, Option.bind_eq_some_iff, Condition.ofCode?_eq_some_iff, row,
    Word.Holds, Nat.zero_add]
  split_ifs with ho
  · simp only [Option.some.injEq, branch.injEq, BranchTarget.relative.injEq, distance_eq_iff hd, ho]
    grind
  all_goals simp [ho]

theorem ofBranch?_register_iff (h : o.format = .branch) {condition : Condition} {rm : Register} :
    ofBranch? o w = some (.branch condition (.register rm)) ↔
      (o = .bx ∨ o = .blx) ∧ w.Holds 0 (row (.branch condition (.register rm))) := by
  have ho : o = .bx ∨ o = .blx ↔ ¬(o = .b ∨ o = .bl) := by
    cases o <;> simp [Opcode.format] at h ⊢
  simp only [ho, ofBranch?, bind, Option.bind_eq_some_iff, Condition.ofCode?_eq_some_iff, row,
    Word.Holds]
  split_ifs <;> simp [*, Register.ofField_eq_iff]
  omega

theorem ofFloatingPoint?_arith_iff (h : o.format = .floatingPoint) {rd rn rm : Register} :
    ofFloatingPoint? o w = some (.floatArith rd rn rm) ↔
      Suit (.floatArith rd rn rm) o ∧ w.Holds 0 (row (.floatArith rd rn rm)) := by
  cases o <;> simp [Opcode.format] at h <;>
    simp [ofFloatingPoint?, Suit, row, Word.Holds, Register.ofField_eq_iff] <;> omega

theorem ofFloatingPoint?_compare_iff (h : o.format = .floatingPoint) {rn rm : Register} :
    ofFloatingPoint? o w = some (.floatCompare rn rm) ↔
      Suit (.floatCompare rn rm) o ∧ w.Holds 0 (row (.floatCompare rn rm)) := by
  cases o <;> simp [Opcode.format] at h <;>
    simp [ofFloatingPoint?, Suit, row, Word.Holds, Register.ofField_eq_iff]
  omega

theorem ofFloatingPoint?_convert_iff (h : o.format = .floatingPoint) {rd rn : Register} :
    ofFloatingPoint? o w = some (.floatConvert rd rn) ↔
      Suit (.floatConvert rd rn) o ∧ w.Holds 0 (row (.floatConvert rd rn)) := by
  cases o <;> simp [Opcode.format] at h <;>
    simp [ofFloatingPoint?, Suit, row, Word.Holds, Register.ofField_eq_iff] <;> omega

def format : Operands → Format
  | .control .. => .control
  | .dataProcessing .. => .dataProcessing
  | .move .. | .moveTop .. => .singleOperand
  | .compare .. => .compare
  | .shift .. => .shift
  | .memory .. => .memory
  | .atomic .. => .atomic
  | .branch .. => .branch
  | .floatArith .. | .floatCompare .. | .floatConvert .. => .floatingPoint

theorem Suit.format_eq {ops : Operands} (h : ops.Suit o) : o.format = ops.format := by
  cases ops with
  | control | dataProcessing | compare | shift | memory | atomic => exact h
  | move => rcases h with rfl | rfl <;> rfl
  | branch condition target => cases target <;> rcases h with rfl | rfl <;> rfl
  | floatArith => rcases h with rfl | rfl | rfl | rfl <;> rfl
  | floatConvert => rcases h with rfl | rfl <;> rfl
  | moveTop | floatCompare =>
    obtain rfl := h
    rfl

theorem format_of_ofWord? {ops : Operands} (h : ofWord? o w = some ops) :
    ops.format = o.format := by
  unfold ofWord? at h
  split at h <;> rename_i hf <;> rw [hf]
  · grind [ofControl?, format]
  · grind [ofDataProcessing?, format, Option.map_eq_some_iff]
  · grind [ofSingleOperand?, format, Option.map_eq_some_iff]
  · grind [ofCompare?, format, Option.map_eq_some_iff]
  · grind [ofShift?, format]
  · grind [ofMemory?, format, Option.bind_eq_some_iff]
  · grind [ofAtomic?, format]
  · grind [ofBranch?, format, Option.bind_eq_some_iff]
  · cases o <;> simp only [Opcode.format, reduceCtorEq] at hf <;>
      grind [ofFloatingPoint?, format]

/-- The operands read from a word are those of the layout and size that the
opcode takes whose row the word holds. -/
theorem ofWord?_eq_some_iff {ops : Operands} :
    ofWord? o w = some ops ↔ (Instruction.mk o ops).WellFormed ∧ w.Holds 0 ops.row := by
  have wellFormed : (Instruction.mk o ops).WellFormed ↔
      ops.Suit o ∧ (Instruction.mk o ops).Fits := ⟨fun h => ⟨h.suit, h.fits⟩, fun h => ⟨h.1, h.2⟩⟩
  by_cases h : o.format = ops.format
  · rw [wellFormed, ofWord?, h]
    cases ops with
    | control | dataProcessing | compare | shift | memory | atomic =>
      simp only [format] at h
      simp only [format, Suit, Instruction.Fits, h, true_and, ofControl?_eq_some_iff,
        ofDataProcessing?_eq_some_iff, ofCompare?_eq_some_iff, ofShift?_eq_some_iff,
        ofMemory?_eq_some_iff, ofAtomic?_eq_some_iff]
    | move => exact (ofSingleOperand?_move_iff h).trans and_assoc.symm
    | moveTop => simp only [format, Suit, Instruction.Fits, and_true, ofSingleOperand?_moveTop_iff]
    | branch condition target =>
      cases target with
      | relative words => exact ofBranch?_relative_iff.trans and_assoc.symm
      | register rm =>
        simp only [format, Suit, Instruction.Fits, and_true, ofBranch?_register_iff h]
    | floatArith | floatCompare | floatConvert =>
      simp only [format] at h
      simp only [format, Instruction.Fits, and_true, ofFloatingPoint?_arith_iff h,
        ofFloatingPoint?_compare_iff h, ofFloatingPoint?_convert_iff h]
  · exact iff_of_false (fun e => h (format_of_ofWord? e).symm) fun e => h e.1.suit.format_eq

end Operands

namespace Instruction

theorem decode?_eq_some_iff {w : Word} {i : Instruction} :
    decode? w = some i ↔ i.WellFormed ∧ i.encode = w := by
  obtain ⟨o, ops⟩ := i
  simp only [decode?, bind, Option.bind_eq_some_iff, Opcode.ofByte?_eq_some_iff,
    Operands.ofWord?_eq_some_iff, Option.some.injEq, Instruction.mk.injEq]
  constructor
  · rintro ⟨o', hbyte, ops', ⟨hwf, holds⟩, rfl, rfl⟩
    exact ⟨hwf, (encode_eq_iff hwf.fits).2 ⟨hbyte, holds⟩⟩
  · rintro ⟨hwf, hword⟩
    obtain ⟨hbyte, holds⟩ := (encode_eq_iff hwf.fits).1 hword
    exact ⟨o, hbyte, ops, ⟨hwf, holds⟩, rfl, rfl⟩

end Instruction

/-! ## Reserved bits and values -/

/-- The reserved bits of a second operand, as fields by lowest bit and length. -/
def Operand2.reserved (w : Word) : List (Nat × Nat) :=
  if w.bit 22 then [] else if w.bit 7 then [(0, 3)] else [(0, 2)]

def Opcode.reserved (o : Opcode) (w : Word) : List (Nat × Nat) :=
  match o.format with
  | .control => if o = .swi then [] else [(0, 24)]
  | .dataProcessing => Operand2.reserved w
  | .singleOperand =>
    if o = .movt then [(16, 2), (22, 2)]
    else if w.bit 22 then [(16, 2)]
    else (14, 4) :: Operand2.reserved w
  | .compare => (18, 4) :: (23, 1) :: Operand2.reserved w
  | .shift => if w.bit 22 then [(5, 9)] else [(0, 10)]
  | .memory => if w.bit 13 then [] else [(0, 8)]
  | .atomic => [(0, 10), (22, 2)]
  | .branch => if o = .b ∨ o = .bl then [] else [(0, 16)]
  | .floatingPoint =>
    match o with
    | .vcmpF32 => [(0, 10), (18, 4), (22, 2)]
    | .vcvtF32S32 | .vcvtS32F32 => [(0, 10), (10, 4), (22, 2)]
    | _ => [(0, 10), (22, 2)]

/-- The word has the opcode and nothing reserved: no reserved bit is set, and
neither its addressing mode nor its condition is the one value without meaning. -/
structure Word.Unreserved (w : Word) (o : Opcode) : Prop where
  opcode : o.byte = w.opcodeByte
  bits : ∀ f ∈ o.reserved w, w.field f.1 f.2 = 0
  mode : o.format = .memory → w.field 22 2 ≠ 3
  condition : o.format = .branch → w.field 20 4 ≠ 15

theorem Operand2.isSome_ofWord?_iff {w : Word} :
    (Operand2.ofWord? w).isSome ↔ ∀ f ∈ Operand2.reserved w, w.field f.1 f.2 = 0 := by
  unfold ofWord? reserved
  split_ifs <;> simp [*]

theorem AddressingMode.isSome_ofCode?_iff {n : Nat} (h : n < 4) :
    (AddressingMode.ofCode? n).isSome ↔ n ≠ 3 := by
  interval_cases n <;> simp [ofCode?]

theorem Condition.isSome_ofCode?_iff {n : Nat} (h : n < 16) : (Condition.ofCode? n).isSome ↔
    n ≠ 15 := by
  interval_cases n <;> decide

theorem Operands.isSome_ofWord?_iff {o : Opcode} {w : Word} :
    (ofWord? o w).isSome ↔ (∀ f ∈ o.reserved w, w.field f.1 f.2 = 0) ∧
      (o.format = .memory → w.field 22 2 ≠ 3) ∧ (o.format = .branch → w.field 20 4 ≠ 15) := by
  have hmode := AddressingMode.isSome_ofCode?_iff (w.field_lt 22 2)
  have hcond := Condition.isSome_ofCode?_iff (w.field_lt 20 4)
  have hop := Operand2.isSome_ofWord?_iff (w := w)
  unfold ofWord? Opcode.reserved
  split <;> rename_i hf <;>
    simp only [hf, reduceCtorEq, false_implies, true_implies, and_true, true_and]
  · unfold ofControl?
    split_ifs <;> simp_all
  · simp [ofDataProcessing?, hop]
  · unfold ofSingleOperand?
    split_ifs <;> simp_all [and_comm]
  · simp only [ofCompare?, Word.bit_eq_iff, Bool.toNat_false, List.forall_mem_cons, ← hop]
    split_ifs <;> simp_all [and_comm]
  · unfold ofShift?
    split_ifs <;> simp_all
  · simp only [ofMemory?, bind, ← hmode]
    cases AddressingMode.ofCode? (w.field 22 2) <;> simp only [Option.bind_none, Option.bind_some]
    · simp
    · split_ifs <;> simp_all
  · unfold ofAtomic?
    split_ifs <;> simp_all [and_comm]
  · simp only [ofBranch?, bind, ← hcond]
    cases Condition.ofCode? (w.field 20 4) <;> simp only [Option.bind_none, Option.bind_some]
    · simp
    · split_ifs <;> simp_all
  · cases o <;> simp only [Opcode.format, reduceCtorEq] at hf <;>
      simp only [ofFloatingPoint?, Register.ofField, List.forall_mem_cons] <;>
      split_ifs <;> simp_all [and_comm]

/-- A word is accepted exactly when it holds nothing reserved. -/
theorem Word.unreserved_iff {w : Word} {o : Opcode} :
    w.Unreserved o ↔ ∃ i, Instruction.decode? w = some i ∧ i.opcode = o := by
  constructor
  · intro h
    obtain ⟨ops, hops⟩ :=
      Option.isSome_iff_exists.1 (Operands.isSome_ofWord?_iff.2 ⟨h.bits, h.mode, h.condition⟩)
    refine ⟨⟨o, ops⟩, ?_, rfl⟩
    simp [Instruction.decode?, Opcode.ofByte?_eq_some_iff.2 h.opcode, hops]
  · rintro ⟨⟨o, ops⟩, hdec, rfl⟩
    obtain ⟨hwf, hword⟩ := Instruction.decode?_eq_some_iff.1 hdec
    obtain ⟨hbyte, holds⟩ := (Instruction.encode_eq_iff hwf.fits).1 hword
    have hops := Operands.isSome_ofWord?_iff.1
      (Option.isSome_iff_exists.2 ⟨ops, Operands.ofWord?_eq_some_iff.2 ⟨hwf, holds⟩⟩)
    exact ⟨hbyte, hops.1, hops.2.1, hops.2.2⟩

namespace Instruction

/-- The format is exact: a word is decoded to the well-formed instruction whose
encoding it is, it is refused and reported when there is none, and there is one
exactly when no reserved opcode, value or bit occurs in it. -/
theorem format_exact (w : Word) :
    (∀ i, decode? w = some i ↔ i.WellFormed ∧ i.encode = w) ∧
      (∀ pc, decodeAt w pc = .error (.invalidOpcode w pc) ↔
        ∀ i : Instruction, i.WellFormed → i.encode ≠ w) ∧
      (∀ i j : Instruction, i.WellFormed ∧ i.encode = w → j.WellFormed ∧ j.encode = w → i = j) ∧
      (∀ o, w.Unreserved o ↔ ∃ i, decode? w = some i ∧ i.opcode = o) := by
  refine ⟨fun i => decode?_eq_some_iff, fun pc => ?_, fun i j hi hj => ?_,
    fun o => Word.unreserved_iff⟩
  · have refused : decodeAt w pc = .error (.invalidOpcode w pc) ↔ decode? w = none := by
      unfold decodeAt
      cases decode? w <;> simp
    simp only [refused, Option.eq_none_iff_forall_ne_some, ne_eq, decode?_eq_some_iff, not_and]
  · exact Option.some.inj ((decode?_eq_some_iff.2 hi).symm.trans (decode?_eq_some_iff.2 hj))

end Instruction

end PagedMachine

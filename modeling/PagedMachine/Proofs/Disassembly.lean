import Mathlib.Data.List.Nodup
import PagedMachine.Proofs.InstructionFormat
import PagedMachine.Proofs.Lexemes

/-!
# Listings tell words apart

An instruction is written as a heading, which is its mnemonic with a suffix glued
to it, and its operands. No heading is made in two ways, and the heading ends
where the operands begin, so it gives the opcode away and with it the layout. In
each layout the operands are then read off from left to right.
-/

namespace PagedMachine

open Text

/-! ## Operands -/

/-- What stands in a line around the names. -/
def separators : List String := [" ", " #", ", ", ", #", ", [", "], ", "#", "-"]

theorem stops_separator {sep : String} (h : sep ∈ separators) (t : String) : Stops (sep ++ t) := by
  have hall : ∀ sep ∈ separators, Stops sep ∧ sep ≠ "" := by decide
  exact (hall sep h).1.append (hall sep h).2 t

theorem Register.isName_name (r : Register) : IsName r.name :=
  ⟨by revert r; decide, by revert r; decide⟩

theorem Register.name_inj {r q : Register} : r.name = q.name ↔ r = q := by
  revert r q
  decide

theorem ShiftKind.isName_mnemonic (k : ShiftKind) : IsName k.mnemonic := by
  cases k <;> exact ⟨by decide, by decide⟩

section

variable {s t : String} (hs : Stops s) (ht : Stops t)
include hs ht

theorem Register.name_append_eq_iff {r q : Register} : r.name ++ s = q.name ++ t ↔
    r = q ∧ s = t := by
  rw [r.isName_name.append_eq_iff q.isName_name hs ht, name_inj]

theorem ShiftKind.mnemonic_append_eq_iff {k l : ShiftKind} : k.mnemonic ++ s = l.mnemonic ++ t ↔
    k = l ∧ s = t := by
  rw [k.isName_mnemonic.append_eq_iff l.isName_mnemonic hs ht]
  cases k <;> cases l <;> simp [mnemonic]

/-- A sign can be told from the name behind it. -/
theorem sign_append_eq_iff {a b : String} (ha : IsName a) (hb : IsName b) {u v : Bool} :
    (if u then "" else "-") ++ (a ++ s) = (if v then "" else "-") ++ (b ++ t) ↔
    (a = b ∧ u = v) ∧ s = t := by
  have hnames := ha.append_eq_iff hb hs ht
  have hleft := ha.append_ne (s := s) (stops_separator (by decide : "-" ∈ separators) (b ++ t))
  have hright :=
    (hb.append_ne (s := t) (stops_separator (by decide : "-" ∈ separators) (a ++ s))).symm
  cases u <;> cases v <;> simp_all

theorem MemoryOffset.text_append_eq_iff {x y : MemoryOffset} {u v : Bool} :
    x.text u ++ s = y.text v ++ t ↔ (x = y ∧ u = v) ∧ s = t := by
  -- a number behind a hash is not a register with or without a sign
  have hmark (value : UInt16) (rm : Register) (u v : Bool) (s t : String) :
      "#" ++ ((if u then "" else "-") ++ (decimal value.toNat ++ s)) ≠ (if v then "" else "-") ++
      (rm.name ++ t) := by
    intro h
    cases v
    · simpa using congrArg (·.toList.head?) h
    · exact rm.isName_name.append_ne (stops_separator (by decide : "#" ∈ separators) _)
        (by simpa using h.symm)
  rcases x with value | rm <;> rcases y with value' | rm' <;>
    simp only [text, String.append_assoc, String.append_right_inj, reduceCtorEq, false_and,
      iff_false]
  · rw [sign_append_eq_iff hs ht (isName_decimal _) (isName_decimal _), decimal_inj,
      UInt16.toNat_inj, immediate.injEq]
  · exact hmark _ _ _ _ _ _
  · exact (hmark _ _ _ _ _ _).symm
  · rw [sign_append_eq_iff hs ht rm.isName_name rm'.isName_name, Register.name_inj, register.injEq]

end

theorem Register.name_sep_eq_iff {r q : Register} {sep s t : String} (h : sep ∈ separators) :
    r.name ++ (sep ++ s) = q.name ++ (sep ++ t) ↔ r = q ∧ s = t := by
  rw [name_append_eq_iff (stops_separator h s) (stops_separator h t), String.append_right_inj]

theorem ShiftAmount.text_inj {a b : ShiftAmount} : a.text = b.text ↔ a = b := by
  have hne (r : Register) (s : String) : r.name ≠ "#" ++ s :=
    r.isName_name.ne (stops_separator (by decide) s)
  cases a <;> cases b <;>
    simp [text, Register.name_inj, hne, (hne _ _).symm, decimal_inj, UInt8.toNat_inj]

theorem BranchTarget.text_inj {a b : BranchTarget} : a.text = b.text ↔ a = b := by
  have hne (r : Register) (s : String) : r.name ≠ "#" ++ s :=
    r.isName_name.ne (stops_separator (by decide) s)
  cases a <;> cases b <;>
    simp [text, Register.name_inj, hne, (hne _ _).symm, signedDecimal_inj, Int32.toInt_inj]

namespace Operand2

def shiftText (shift : ShiftKind) (amount : ShiftAmount) : String :=
  if shift = .lsl ∧ amount = .immediate 0 then ""
    else ", " ++ (shift.mnemonic ++ (" " ++ amount.text))

theorem text_shifted (rm : Register) (shift : ShiftKind) (amount : ShiftAmount) :
    (shifted rm shift amount).text = rm.name ++ shiftText shift amount := by
  have hhash (s : String) : " #" ++ s = " " ++ ("#" ++ s) := by rw [← String.append_assoc]; rfl
  cases amount with
  | immediate amount =>
    simp only [text, shiftText, ShiftAmount.immediate.injEq]
    split_ifs <;> simp [String.append_assoc, ShiftAmount.text, hhash]
  | register rs => simp [text, shiftText, ShiftAmount.text, String.append_assoc]

theorem stops_shiftText (shift : ShiftKind) (amount : ShiftAmount) :
    Stops (shiftText shift amount) := by
  unfold shiftText
  split_ifs
  · exact stops_empty
  · exact stops_separator (by decide) _

theorem shiftText_inj {k l : ShiftKind} {a b : ShiftAmount} : shiftText k a = shiftText l b ↔
    k = l ∧ a = b := by
  have hspace (t : String) : Stops (" " ++ t) := stops_separator (by decide) t
  have hwritten :
      ", " ++ (k.mnemonic ++ (" " ++ a.text)) = ", " ++ (l.mnemonic ++ (" " ++ b.text)) ↔
      k = l ∧ a = b := by
    rw [String.append_right_inj, ShiftKind.mnemonic_append_eq_iff (hspace _) (hspace _),
      String.append_right_inj, ShiftAmount.text_inj]
  unfold shiftText
  split_ifs with ha hb hb
  · simp [ha, hb]
  · exact iff_of_false (by simp) fun h => hb ⟨h.1 ▸ ha.1, h.2 ▸ ha.2⟩
  · exact iff_of_false (by simp) fun h => ha ⟨h.1 ▸ hb.1, h.2 ▸ hb.2⟩
  · exact hwritten

theorem text_inj {x y : Operand2} : x.text = y.text ↔ x = y := by
  have hne (value : Word) (rm : Register) (shift : ShiftKind) (amount : ShiftAmount) :
      (immediate value).text ≠ (shifted rm shift amount).text := by
    rw [text_shifted]
    exact (rm.isName_name.append_ne (stops_separator (by decide) _)).symm
  rcases x with value | ⟨rm, shift, amount⟩ <;> rcases y with value' | ⟨rm', shift', amount'⟩
  · simp [text, hex_inj, UInt32.toNat_inj]
  · simpa using hne value rm' shift' amount'
  · simpa using (hne value' rm shift amount).symm
  · rw [text_shifted, text_shifted,
      Register.name_append_eq_iff (stops_shiftText _ _) (stops_shiftText _ _),
      shiftText_inj, shifted.injEq]

end Operand2

/-! ## Headings -/

def Operands.suffix : Operands → String
  | .dataProcessing setFlags .. | .move setFlags .. | .shift setFlags .. =>
    Instruction.flagSuffix setFlags
  | .branch condition _ => condition.suffix
  | _ => ""

def Opcode.suffixes (o : Opcode) : List String :=
  match o.format with
  | .dataProcessing | .singleOperand | .shift => ["", "s"]
  | .branch => Condition.all.map (·.suffix)
  | _ => [""]

theorem Operands.Suit.suffix_mem {ops : Operands} {o : Opcode} (h : ops.Suit o) :
    ops.suffix ∈ o.suffixes := by
  have hflag (setFlags : Bool) : Instruction.flagSuffix setFlags ∈ ["", "s"] := by
    cases setFlags <;> decide
  have hcondition (c : Condition) : c.suffix ∈ Condition.all.map (·.suffix) := by cases c <;> decide
  rw [Opcode.suffixes, h.format_eq]
  cases ops with
  | dataProcessing | move | shift => exact hflag _
  | branch => exact hcondition _
  | _ => exact .head _

def headings : List (Opcode × String) := Opcode.all.flatMap fun o => o.suffixes.map (o, ·)

theorem nodup_headings : (headings.map fun h => h.1.mnemonic ++ h.2).Nodup := by
  decide +kernel

namespace Instruction

variable {i j : Instruction}

def heading (i : Instruction) : String := i.opcode.mnemonic ++ i.operands.suffix

theorem isName_heading (i : Instruction) : IsName i.heading := by
  have hmnemonic (o : Opcode) : IsName o.mnemonic := by cases o <;> exact ⟨by decide, by decide⟩
  have hflag (setFlags : Bool) : (flagSuffix setFlags).toList.all nameChar = true := by
    cases setFlags <;> decide
  have hcondition (condition : Condition) : condition.suffix.toList.all nameChar = true := by
    cases condition <;> decide
  refine (hmnemonic i.opcode).append ?_
  cases i.operands with
  | dataProcessing | move | shift => exact hflag _
  | branch => exact hcondition _
  | _ => simp [Operands.suffix]

theorem WellFormed.mem_headings (hi : i.WellFormed) : (i.opcode, i.operands.suffix) ∈ headings := by
  have hall (o : Opcode) : o ∈ Opcode.all := by cases o <;> decide
  exact List.mem_flatMap.mpr ⟨_, hall _, List.mem_map_of_mem hi.suit.suffix_mem⟩

/-- No heading is made in two ways: not by `b` with `ls`, nor by `bl` with `eq` or `s` behind
another mnemonic. -/
theorem WellFormed.heading_inj (hi : i.WellFormed) (hj : j.WellFormed) :
    i.heading = j.heading ↔ i.opcode = j.opcode ∧ i.operands.suffix = j.operands.suffix := by
  constructor
  · intro h
    exact Prod.ext_iff.mp
      (List.inj_on_of_nodup_map nodup_headings hi.mem_headings hj.mem_headings h)
  · intro h
    rw [heading, heading, h.1, h.2]

end Instruction

/-! ## From left to right -/

namespace AddressingMode

def opening : AddressingMode → String
  | offset | preIndexed => ", "
  | postIndexed => "], "

def closing : AddressingMode → String
  | offset => "]"
  | preIndexed => "]!"
  | postIndexed => ""

theorem opening_mem (m : AddressingMode) : m.opening ∈ separators := by
  cases m <;> decide

theorem stops_closing (m : AddressingMode) : Stops m.closing := by
  cases m <;> decide

end AddressingMode

namespace Instruction

variable {i j : Instruction}

def tail (i : Instruction) : String :=
  match i.operands with
  | .control payload => if i.opcode = .swi then " #" ++ hex payload.toNat else ""
  | .dataProcessing _ rd rn operand =>
    " " ++ (rd.name ++ (", " ++ (rn.name ++ (", " ++ operand.text))))
  | .move _ rd operand => " " ++ (rd.name ++ (", " ++ operand.text))
  | .moveTop rd value => " " ++ (rd.name ++ (", #" ++ hex value.toNat))
  | .compare rn operand => " " ++ (rn.name ++ (", " ++ operand.text))
  | .shift _ rd rn amount => " " ++ (rd.name ++ (", " ++ (rn.name ++ (", " ++ amount.text))))
  | .memory mode rt rn offset up =>
    " " ++ (rt.name ++ (", [" ++ (rn.name ++ (mode.opening ++ (offset.text up ++ mode.closing)))))
  | .atomic rd rm rn => " " ++ (rd.name ++ (", " ++ (rm.name ++ (", [" ++ (rn.name ++ "]")))))
  | .branch _ target => " " ++ target.text
  | .floatArith rd rn rm => " " ++ (rd.name ++ (", " ++ (rn.name ++ (", " ++ rm.name))))
  | .floatCompare rn rm => " " ++ (rn.name ++ (", " ++ rm.name))
  | .floatConvert rd rn => " " ++ (rd.name ++ (", " ++ rn.name))

theorem text_eq (i : Instruction) : i.text = i.heading ++ i.tail := by
  obtain ⟨o, ops⟩ := i
  cases ops with
  | control payload =>
    simp only [text, heading, tail, Operands.suffix]
    split_ifs <;> simp [String.append_assoc]
  | memory mode rt rn offset up =>
    cases mode
      <;> simp [text, heading, tail, Operands.suffix, AddressingMode.opening,
        AddressingMode.closing, String.append_assoc]
  | _ => simp [text, heading, tail, Operands.suffix, String.append_assoc]

theorem stops_tail (i : Instruction) : Stops i.tail := by
  unfold tail
  split
  · split_ifs
    · exact stops_separator (by decide) _
    · exact stops_empty
  all_goals exact stops_separator (by decide) _

end Instruction

/-- An opcode takes one layout only. -/
theorem Operands.Suit.alike {x y : Operands} {o : Opcode} (hx : x.Suit o) (hy : y.Suit o) :
    x.ctorIdx = y.ctorIdx := by
  have hformat : x.format = y.format := hx.format_eq.symm.trans hy.format_eq
  cases x <;> cases y <;> simp only [Operands.format, reduceCtorEq] at hformat
    <;> first | rfl | grind [Operands.Suit]

theorem MemoryOffset.place_inj {m n : AddressingMode} {x y : MemoryOffset} {u v : Bool} :
    m.opening ++ (x.text u ++ m.closing) = n.opening ++ (y.text v ++ n.closing) ↔
    m = n ∧ x = y ∧ u = v := by
  constructor
  · intro h
    have hhead := congrArg (·.toList.head?) h
    have hopening : m.opening = n.opening := by
      cases m <;> cases n <;> simp [AddressingMode.opening] at hhead ⊢
    rw [hopening, String.append_right_inj, text_append_eq_iff m.stops_closing n.stops_closing] at h
    refine ⟨?_, h.1⟩
    cases m <;> cases n <;> simp_all [AddressingMode.opening, AddressingMode.closing]
  · rintro ⟨rfl, rfl, rfl⟩
    rfl

theorem Condition.suffix_inj {c d : Condition} : c.suffix = d.suffix ↔ c = d := by
  cases c <;> cases d <;> simp [suffix]

namespace Instruction

variable {i j : Instruction}

theorem flagSuffix_inj {u v : Bool} : flagSuffix u = flagSuffix v ↔ u = v := by
  revert u v
  decide

/-- Behind one heading, the operands are read off from left to right. -/
theorem WellFormed.eq_of_tail (hi : i.WellFormed) (hj : j.WellFormed) (ho : i.opcode = j.opcode)
    (hsuffix : i.operands.suffix = j.operands.suffix) (htail : i.tail = j.tail) : i = j := by
  obtain ⟨o, x⟩ := i
  obtain ⟨p, y⟩ := j
  obtain rfl : o = p := ho
  have hfits := hi.fits
  have hfits' := hj.fits
  have halike := Operands.Suit.alike hi.suit hj.suit
  cases x <;> cases y <;> simp only [Operands.ctorIdx, reduceCtorEq] at halike <;>
    simp only [tail, Operands.suffix, String.append_right_inj] at htail hsuffix
  case control.control payload payload' =>
    simp only [Fits] at hfits hfits'
    split_ifs at htail with hswi
    · simpa [hex_inj, UInt32.toNat_inj] using htail
    · -- without a payload in the text there is none in the word
      rw [hfits.2.resolve_left hswi, hfits'.2.resolve_left hswi]
  case memory.memory mode rt rn offset up mode' rt' rn' offset' up' =>
    rw [Register.name_sep_eq_iff (by decide),
      Register.name_append_eq_iff (stops_separator mode.opening_mem _)
      (stops_separator mode'.opening_mem _), MemoryOffset.place_inj] at htail
    simpa [and_assoc, and_left_comm] using htail
  -- the other layouts are registers between separators, and one operand at the end
  all_goals
    simp (disch := decide) [Register.name_sep_eq_iff, Register.name_inj, Operand2.text_inj,
      ShiftAmount.text_inj, hex_inj, UInt16.toNat_inj, BranchTarget.text_inj, flagSuffix_inj,
      Condition.suffix_inj] at htail hsuffix ⊢
    grind

theorem WellFormed.text_inj (hi : i.WellFormed) (hj : j.WellFormed) : i.text = j.text ↔ i = j := by
  refine ⟨fun h => ?_, congrArg text⟩
  rw [text_eq, text_eq,
    i.isName_heading.append_eq_iff j.isName_heading i.stops_tail j.stops_tail] at h
  obtain ⟨hheading, htail⟩ := h
  obtain ⟨ho, hsuffix⟩ := (hi.heading_inj hj).mp hheading
  exact hi.eq_of_tail hj ho hsuffix htail

end Instruction

/-! ## Lines -/

namespace AssemblyLine

theorem ofWord_text_of_decode {w : Word} {i : Instruction} (h : Instruction.decode? w = some i)
    (address : Word) : (ofWord address w).text = i.text := by
  rw [ofWord, h]

theorem ofWord_text_of_invalid {w : Word} (h : Instruction.decode? w = none) (address : Word) :
    (ofWord address w).text = ".word" ++ (" " ++ (paddedHex w.toNat ++ " ; invalid")) := by
  rw [ofWord, h]
  simp only [← String.append_assoc]
  rfl

theorem ofWord_text_eq (a a' w : Word) : (ofWord a w).text = (ofWord a' w).text := by
  unfold ofWord
  split <;> rfl

/-- A directive starts with a dot, which no heading does. -/
theorem startsWith_directive_iff (address w : Word) :
    (ofWord address w).text.startsWith ".word" = true ↔ Instruction.decode? w = none := by
  rw [String.startsWith_string_iff]
  cases h : Instruction.decode? w with
  | none => simp [ofWord_text_of_invalid h]
  | some i =>
    rw [ofWord_text_of_decode h, Instruction.text_eq]
    refine iff_of_false ?_ (by simp)
    rintro ⟨t, ht⟩
    have hdot : i.heading ++ i.tail = ".word" ++ String.ofList t := by
      simp [← String.toList_inj, ← ht]
    exact i.isName_heading.append_ne (Stops.append (by decide) (by decide) _) hdot

/-- Two lines read alike only for one word, wherever they stand, and a line is a directive exactly
for a word that is no instruction. -/
theorem text_unambiguous (a a' w w' : Word) :
    ((ofWord a w).text = (ofWord a' w').text ↔ w = w') ∧
      ((ofWord a w).text.startsWith ".word" = true ↔ Instruction.decode? w = none) := by
  refine ⟨⟨fun h => ?_, ?_⟩, startsWith_directive_iff a w⟩
  · have hvalid : Instruction.decode? w = none ↔ Instruction.decode? w' = none := by
      rw [← startsWith_directive_iff a, h, startsWith_directive_iff]
    cases hw : Instruction.decode? w with
    | none =>
      rw [ofWord_text_of_invalid hw, ofWord_text_of_invalid (hvalid.mp hw)] at h
      simpa [paddedHex_inj, UInt32.toNat_inj] using h
    | some i =>
      obtain ⟨j, hw'⟩ := Option.ne_none_iff_exists'.mp fun e =>
        Option.some_ne_none i (hw.symm.trans (hvalid.mpr e))
      obtain ⟨hi, rfl⟩ := Instruction.decode?_eq_some_iff.mp hw
      obtain ⟨hj, rfl⟩ := Instruction.decode?_eq_some_iff.mp hw'
      rw [ofWord_text_of_decode hw, ofWord_text_of_decode hw', hi.text_inj hj] at h
      rw [h]
  · rintro rfl
    exact ofWord_text_eq a a' w

end AssemblyLine

end PagedMachine

import PagedMachine.Condition
import PagedMachine.Isa.Opcode
import PagedMachine.Register

/-!
# Instructions

An opcode with operands. The operands may be of any layout and hold values wider
than their fields; an instruction is well formed when the layout is that of its
opcode and every value fits.
-/

namespace PagedMachine

inductive ShiftKind where
  | lsl
  | lsr
  | asr
  | ror
  deriving DecidableEq, Repr

namespace ShiftKind

def all : List ShiftKind := [lsl, lsr, asr, ror]

def code : ShiftKind → Nat
  | lsl => 0
  | lsr => 1
  | asr => 2
  | ror => 3

def ofCode (code : Nat) : ShiftKind :=
  match code % 4 with
  | 0 => lsl
  | 1 => lsr
  | 2 => asr
  | _ => ror

def mnemonic : ShiftKind → String
  | lsl => "lsl"
  | lsr => "lsr"
  | asr => "asr"
  | ror => "ror"

end ShiftKind

inductive ShiftAmount where
  | immediate (amount : UInt8)
  /-- The low eight bits of a register. -/
  | register (rs : Register)
  deriving DecidableEq, Repr

inductive Operand2 where
  | immediate (value : Word)
  | shifted (rm : Register) (shift : ShiftKind) (amount : ShiftAmount)
  deriving DecidableEq, Repr

def Operand2.plain (rm : Register) : Operand2 := .shifted rm .lsl (.immediate 0)

inductive AddressingMode where
  /-- Accesses base plus or minus offset. -/
  | offset
  /-- Accesses base plus or minus offset and leaves that in the base register. -/
  | preIndexed
  /-- Accesses the base and leaves base plus or minus offset in its register. -/
  | postIndexed
  deriving DecidableEq, Repr

namespace AddressingMode

def code : AddressingMode → Nat
  | offset => 0
  | preIndexed => 1
  | postIndexed => 2

def name : AddressingMode → String
  | offset => "offset"
  | preIndexed => "pre"
  | postIndexed => "post"

def ofCode? : Nat → Option AddressingMode
  | 0 => some offset
  | 1 => some preIndexed
  | 2 => some postIndexed
  | _ => none

def writesBack : AddressingMode → Bool
  | offset => false
  | preIndexed | postIndexed => true

end AddressingMode

inductive MemoryOffset where
  | immediate (value : UInt16)
  | register (rm : Register)
  deriving DecidableEq, Repr

inductive BranchTarget where
  /-- A distance in words from the branch itself. -/
  | relative (words : Int32)
  /-- The address in a register. -/
  | register (rm : Register)
  deriving DecidableEq, Repr

/-- Operand fields, one constructor for each layout. -/
inductive Operands where
  | control (payload : Word)
  | dataProcessing (setFlags : Bool) (rd rn : Register) (operand : Operand2)
  | move (setFlags : Bool) (rd : Register) (operand : Operand2)
  | moveTop (rd : Register) (value : UInt16)
  | compare (rn : Register) (operand : Operand2)
  | shift (setFlags : Bool) (rd rn : Register) (amount : ShiftAmount)
  | memory (mode : AddressingMode) (rt rn : Register) (offset : MemoryOffset) (up : Bool)
  | atomic (rd rm rn : Register)
  | branch (condition : Condition) (target : BranchTarget)
  | floatArith (rd rn rm : Register)
  | floatCompare (rn rm : Register)
  | floatConvert (rd rn : Register)
  deriving DecidableEq, Repr

structure Instruction where
  opcode : Opcode
  operands : Operands
  deriving DecidableEq, Repr

def Instruction.format (i : Instruction) : Format := i.opcode.format

/-! ## Well-formed instructions -/

def ShiftAmount.Fits : ShiftAmount → Prop
  | immediate amount => amount.toNat < 2 ^ 5
  | register _ => True

def Operand2.Fits (bits : Nat) : Operand2 → Prop
  | immediate value => value.toNat < 2 ^ bits
  | shifted _ _ amount => amount.Fits

def MemoryOffset.Fits : MemoryOffset → Prop
  | immediate value => value.toNat < 2 ^ 12
  | register _ => True

/-- The operands are of the layout that the opcode takes. -/
def Operands.Suit : Operands → Opcode → Prop
  | .control _, o => o.format = .control
  | .dataProcessing .., o => o.format = .dataProcessing
  | .move .., o => o = .mov ∨ o = .mvn
  | .moveTop .., o => o = .movt
  | .compare .., o => o.format = .compare
  | .shift .., o => o.format = .shift
  | .memory .., o => o.format = .memory
  | .atomic .., o => o.format = .atomic
  | .branch _ (.relative _), o => o = .b ∨ o = .bl
  | .branch _ (.register _), o => o = .bx ∨ o = .blx
  | .floatArith .., o => o = .vaddF32 ∨ o = .vsubF32 ∨ o = .vmulF32 ∨ o = .vdivF32
  | .floatCompare .., o => o = .vcmpF32
  | .floatConvert .., o => o = .vcvtF32S32 ∨ o = .vcvtS32F32

/-- Every value fits its field; only `swi` has a payload. -/
def Instruction.Fits (i : Instruction) : Prop :=
  match i.operands with
  | .control payload => payload.toNat < 2 ^ 24 ∧ (i.opcode = .swi ∨ payload = 0)
  | .dataProcessing _ _ _ operand => operand.Fits 14
  | .move _ _ operand => operand.Fits 16
  | .compare _ operand => operand.Fits 14
  | .shift _ _ _ amount => amount.Fits
  | .memory _ _ _ offset _ => offset.Fits
  | .branch _ (.relative words) => -2 ^ 19 ≤ words.toInt ∧ words.toInt < 2 ^ 19
  | _ => True

structure Instruction.WellFormed (i : Instruction) : Prop where
  suit : i.operands.Suit i.opcode
  fits : i.Fits

end PagedMachine

/-!
# Opcodes

The top byte of an instruction word. Its high half selects the format, which
says how the operands are laid out.
-/

namespace PagedMachine

inductive Format where
  | control
  | dataProcessing
  | singleOperand
  | compare
  | shift
  | memory
  | atomic
  | branch
  | floatingPoint
  deriving DecidableEq, Repr

namespace Format

def all : List Format :=
  [control, dataProcessing, singleOperand, compare, shift, memory, atomic, branch, floatingPoint]

def number : Format → Nat
  | control => 0x0
  | dataProcessing => 0x1
  | singleOperand => 0x2
  | compare => 0x3
  | shift => 0x4
  | memory => 0x5
  | atomic => 0x6
  | branch => 0x7
  | floatingPoint => 0x8

def name : Format → String
  | control => "Control"
  | dataProcessing => "DataProcessing"
  | singleOperand => "SingleOperand"
  | compare => "Compare"
  | shift => "Shift"
  | memory => "Memory"
  | atomic => "Atomic"
  | branch => "Branch"
  | floatingPoint => "FloatingPoint"

def ofNumber? (n : Nat) : Option Format := all.find? (·.number == n)

/-- The numbers that no format has and no opcode may use. -/
def reserved (n : Nat) : Bool := 0x9 ≤ n && n ≤ 0xF

end Format

inductive Opcode where
  | nop
  | hlt
  | swi
  | add
  | adc
  | sub
  | sbc
  | rsb
  | rsc
  | and
  | orr
  | eor
  | bic
  | mul
  | umulh
  | smulh
  | udiv
  | sdiv
  | mov
  | mvn
  | movt
  | cmp
  | cmn
  | tst
  | teq
  | lsl
  | lsr
  | asr
  | ror
  | ldr
  | ldrh
  | ldrb
  | ldrsh
  | ldrsb
  | str
  | strh
  | strb
  | swp
  | swpb
  | b
  | bl
  | bx
  | blx
  | vaddF32
  | vsubF32
  | vmulF32
  | vdivF32
  | vcmpF32
  | vcvtF32S32
  | vcvtS32F32
  deriving DecidableEq, Repr

namespace Opcode

def all : List Opcode :=
  [nop, hlt, swi,
    add, adc, sub, sbc, rsb, rsc, and, orr, eor, bic, mul, umulh, smulh, udiv, sdiv,
    mov, mvn, movt,
    cmp, cmn, tst, teq,
    lsl, lsr, asr, ror,
    ldr, ldrh, ldrb, ldrsh, ldrsb, str, strh, strb,
    swp, swpb,
    b, bl, bx, blx,
    vaddF32, vsubF32, vmulF32, vdivF32, vcmpF32, vcvtF32S32, vcvtS32F32]

def byte : Opcode → Nat
  | nop => 0x00
  | hlt => 0x01
  | swi => 0x02
  | add => 0x10
  | adc => 0x11
  | sub => 0x12
  | sbc => 0x13
  | rsb => 0x14
  | rsc => 0x15
  | and => 0x16
  | orr => 0x17
  | eor => 0x18
  | bic => 0x19
  | mul => 0x1A
  | umulh => 0x1B
  | smulh => 0x1C
  | udiv => 0x1D
  | sdiv => 0x1E
  | mov => 0x20
  | mvn => 0x21
  | movt => 0x22
  | cmp => 0x30
  | cmn => 0x31
  | tst => 0x32
  | teq => 0x33
  | lsl => 0x40
  | lsr => 0x41
  | asr => 0x42
  | ror => 0x43
  | ldr => 0x50
  | ldrh => 0x51
  | ldrb => 0x52
  | ldrsh => 0x53
  | ldrsb => 0x54
  | str => 0x55
  | strh => 0x56
  | strb => 0x57
  | swp => 0x60
  | swpb => 0x61
  | b => 0x70
  | bl => 0x71
  | bx => 0x72
  | blx => 0x73
  | vaddF32 => 0x80
  | vsubF32 => 0x81
  | vmulF32 => 0x82
  | vdivF32 => 0x83
  | vcmpF32 => 0x84
  | vcvtF32S32 => 0x85
  | vcvtS32F32 => 0x86

def ofByte? (byte : Nat) : Option Opcode := all.find? (·.byte == byte)

theorem ofByte?_eq_some_iff {n : Nat} {o : Opcode} : ofByte? n = some o ↔ o.byte = n := by
  constructor
  · intro h
    simpa using List.find?_some h
  · intro h
    subst h
    cases o <;> rfl

theorem byte_lt (o : Opcode) : o.byte < 256 := by cases o <;> decide

def index (o : Opcode) : Nat := all.idxOf o

def format : Opcode → Format
  | nop | hlt | swi => .control
  | add | adc | sub | sbc | rsb | rsc | and | orr | eor | bic
  | mul | umulh | smulh | udiv | sdiv => .dataProcessing
  | mov | mvn | movt => .singleOperand
  | cmp | cmn | tst | teq => .compare
  | lsl | lsr | asr | ror => .shift
  | ldr | ldrh | ldrb | ldrsh | ldrsb | str | strh | strb => .memory
  | swp | swpb => .atomic
  | b | bl | bx | blx => .branch
  | vaddF32 | vsubF32 | vmulF32 | vdivF32 | vcmpF32 | vcvtF32S32 | vcvtS32F32 => .floatingPoint

theorem number_format (o : Opcode) : o.format.number = o.byte / 16 := by cases o <;> rfl

def mnemonic : Opcode → String
  | nop => "nop"
  | hlt => "hlt"
  | swi => "swi"
  | add => "add"
  | adc => "adc"
  | sub => "sub"
  | sbc => "sbc"
  | rsb => "rsb"
  | rsc => "rsc"
  | and => "and"
  | orr => "orr"
  | eor => "eor"
  | bic => "bic"
  | mul => "mul"
  | umulh => "umulh"
  | smulh => "smulh"
  | udiv => "udiv"
  | sdiv => "sdiv"
  | mov => "mov"
  | mvn => "mvn"
  | movt => "movt"
  | cmp => "cmp"
  | cmn => "cmn"
  | tst => "tst"
  | teq => "teq"
  | lsl => "lsl"
  | lsr => "lsr"
  | asr => "asr"
  | ror => "ror"
  | ldr => "ldr"
  | ldrh => "ldrh"
  | ldrb => "ldrb"
  | ldrsh => "ldrsh"
  | ldrsb => "ldrsb"
  | str => "str"
  | strh => "strh"
  | strb => "strb"
  | swp => "swp"
  | swpb => "swpb"
  | b => "b"
  | bl => "bl"
  | bx => "bx"
  | blx => "blx"
  | vaddF32 => "vadd_f32"
  | vsubF32 => "vsub_f32"
  | vmulF32 => "vmul_f32"
  | vdivF32 => "vdiv_f32"
  | vcmpF32 => "vcmp_f32"
  | vcvtF32S32 => "vcvt_f32_s32"
  | vcvtS32F32 => "vcvt_s32_f32"

end Opcode

end PagedMachine

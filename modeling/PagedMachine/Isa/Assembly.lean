import PagedMachine.Isa.Decoding

/-!
# Assembly text

One line for each word. A shift by nothing, the condition that always holds and
the sign of an added offset are not written.
-/

namespace PagedMachine

def Operand2.text : Operand2 → String
  | .immediate value => "#" ++ Text.hex value.toNat
  | .shifted rm shift (.immediate amount) =>
    if shift = .lsl ∧ amount = 0 then rm.name
    else rm.name ++ ", " ++ shift.mnemonic ++ " #" ++ Text.decimal amount.toNat
  | .shifted rm shift (.register rs) => rm.name ++ ", " ++ shift.mnemonic ++ " " ++ rs.name

def ShiftAmount.text : ShiftAmount → String
  | .immediate amount => "#" ++ Text.decimal amount.toNat
  | .register rs => rs.name

def MemoryOffset.text (up : Bool) : MemoryOffset → String
  | .immediate value => "#" ++ (if up then "" else "-") ++ Text.decimal value.toNat
  | .register rm => (if up then "" else "-") ++ rm.name

def BranchTarget.text : BranchTarget → String
  | .relative words => "#" ++ Text.signedDecimal (words.toInt * 4)
  | .register rm => rm.name

namespace Instruction

def flagSuffix (setFlags : Bool) : String := if setFlags then "s" else ""

def text (i : Instruction) : String :=
  let name := i.opcode.mnemonic
  match i.operands with
  | .control payload => if i.opcode = .swi then name ++ " #" ++ Text.hex payload.toNat else name
  | .dataProcessing setFlags rd rn operand =>
    name ++ flagSuffix setFlags ++ " " ++ rd.name ++ ", " ++ rn.name ++ ", " ++ operand.text
  | .move setFlags rd operand =>
    name ++ flagSuffix setFlags ++ " " ++ rd.name ++ ", " ++ operand.text
  | .moveTop rd value => name ++ " " ++ rd.name ++ ", #" ++ Text.hex value.toNat
  | .compare rn operand => name ++ " " ++ rn.name ++ ", " ++ operand.text
  | .shift setFlags rd rn amount =>
    name ++ flagSuffix setFlags ++ " " ++ rd.name ++ ", " ++ rn.name ++ ", " ++ amount.text
  | .memory mode rt rn offset up =>
    name ++ " " ++ rt.name ++ ", [" ++ rn.name ++
      match mode with
      | .offset => ", " ++ offset.text up ++ "]"
      | .preIndexed => ", " ++ offset.text up ++ "]!"
      | .postIndexed => "], " ++ offset.text up
  | .atomic rd rm rn => name ++ " " ++ rd.name ++ ", " ++ rm.name ++ ", [" ++ rn.name ++ "]"
  | .branch condition target => name ++ condition.suffix ++ " " ++ target.text
  | .floatArith rd rn rm => name ++ " " ++ rd.name ++ ", " ++ rn.name ++ ", " ++ rm.name
  | .floatCompare rn rm => name ++ " " ++ rn.name ++ ", " ++ rm.name
  | .floatConvert rd rn => name ++ " " ++ rd.name ++ ", " ++ rn.name

end Instruction

structure AssemblyLine where
  address : Word
  word : Word
  text : String
  valid : Bool
  deriving DecidableEq, Repr

namespace AssemblyLine

def ofWord (address w : Word) : AssemblyLine :=
  match Instruction.decode? w with
  | some i => ⟨address, w, i.text, true⟩
  | none => ⟨address, w, ".word " ++ Text.paddedHex w.toNat ++ " ; invalid", false⟩

def listing (base : Word) : List Word → List AssemblyLine
  | [] => []
  | w :: ws => ofWord base w :: listing (base + 4) ws

end AssemblyLine

end PagedMachine

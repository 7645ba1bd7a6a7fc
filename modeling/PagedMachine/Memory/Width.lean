import PagedMachine.Word

/-!
# Access widths
-/

namespace PagedMachine

inductive Width where
  | byte
  | half
  | word
  deriving DecidableEq, Repr

namespace Width

def name : Width → String
  | byte => "byte"
  | half => "half"
  | word => "word"

def bytes : Width → Nat
  | byte => 1
  | half => 2
  | word => 4

def mask (width : Width) : Word := UInt32.ofNat (256 ^ width.bytes - 1)

end Width

end PagedMachine

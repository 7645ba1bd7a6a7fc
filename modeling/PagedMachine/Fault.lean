import PagedMachine.Text
import PagedMachine.Word

/-!
# Faults

What can go wrong while the machine runs. A fault is a cause with its
circumstances; its kind has a stable code and a class under which it is counted.
-/

namespace PagedMachine

inductive Access where
  | read
  | write
  | execute
  deriving DecidableEq, Repr

def Access.name : Access → String
  | .read => "Read"
  | .write => "Write"
  | .execute => "Execute"

inductive PoolKind where
  | user
  | kernel
  | disk
  deriving DecidableEq, Repr

def PoolKind.name : PoolKind → String
  | .user => "user"
  | .kernel => "kernel"
  | .disk => "disk"

inductive FaultClass where
  | decode
  | memory
  | paging
  | resource
  | consistency
  | process
  deriving DecidableEq, Repr

def FaultClass.name : FaultClass → String
  | .decode => "Decode"
  | .memory => "Memory"
  | .paging => "Paging"
  | .resource => "Resource"
  | .consistency => "Consistency"
  | .process => "Process"

inductive FaultKind where
  | invalidOpcode
  | memoryOutOfBounds
  | writeToReadOnly
  | pageFault
  | protectionFault
  | resourceExhausted
  | consistencyFault
  | alreadyMapped
  | noProcess
  | unknownProcess
  deriving DecidableEq, Repr

namespace FaultKind

def all : List FaultKind :=
  [invalidOpcode, memoryOutOfBounds, writeToReadOnly, pageFault, protectionFault,
    resourceExhausted, consistencyFault, alreadyMapped, noProcess, unknownProcess]

def code : FaultKind → Nat
  | invalidOpcode => 0x01
  | memoryOutOfBounds => 0x02
  | writeToReadOnly => 0x03
  | pageFault => 0x04
  | protectionFault => 0x05
  | resourceExhausted => 0x06
  | consistencyFault => 0x07
  | alreadyMapped => 0x08
  | noProcess => 0x09
  | unknownProcess => 0x0A

def ofCode? (code : Nat) : Option FaultKind := all.find? (·.code == code)

theorem ofCode?_code (k : FaultKind) : ofCode? k.code = some k := by cases k <;> rfl

def name : FaultKind → String
  | invalidOpcode => "InvalidOpcode"
  | memoryOutOfBounds => "MemoryOutOfBounds"
  | writeToReadOnly => "WriteToReadOnly"
  | pageFault => "PageFault"
  | protectionFault => "ProtectionFault"
  | resourceExhausted => "ResourceExhausted"
  | consistencyFault => "ConsistencyFault"
  | alreadyMapped => "AlreadyMapped"
  | noProcess => "NoProcess"
  | unknownProcess => "UnknownProcess"

def faultClass : FaultKind → FaultClass
  | invalidOpcode => .decode
  | memoryOutOfBounds | writeToReadOnly => .memory
  | pageFault | protectionFault | alreadyMapped => .paging
  | resourceExhausted => .resource
  | consistencyFault => .consistency
  | noProcess | unknownProcess => .process

/-- Faults that the host can repair before the instruction is tried again, by
mapping a page, freeing memory or switching process. -/
def recoverable : FaultKind → Bool
  | pageFault | resourceExhausted | noProcess => true
  | _ => false

end FaultKind

inductive Fault where
  | invalidOpcode (word pc : Word)
  | memoryOutOfBounds (address : Word)
  | writeToReadOnly (address : Word)
  | pageFault (address : Word) (access : Access)
  | protectionFault (address : Word) (access : Access)
  | resourceExhausted (pool : PoolKind)
  | consistencyFault (pool : PoolKind) (page : Word)
  | alreadyMapped (vpage : Word)
  | noProcess
  | unknownProcess (pid : Word)
  deriving DecidableEq, Repr

namespace Fault

def kind : Fault → FaultKind
  | invalidOpcode .. => .invalidOpcode
  | memoryOutOfBounds .. => .memoryOutOfBounds
  | writeToReadOnly .. => .writeToReadOnly
  | pageFault .. => .pageFault
  | protectionFault .. => .protectionFault
  | resourceExhausted .. => .resourceExhausted
  | consistencyFault .. => .consistencyFault
  | alreadyMapped .. => .alreadyMapped
  | noProcess => .noProcess
  | unknownProcess .. => .unknownProcess

/-- The address that the fault is about; for a word that does not decode, where
it was fetched from. -/
def address? : Fault → Option Word
  | invalidOpcode _ pc => some pc
  | memoryOutOfBounds address => some address
  | writeToReadOnly address => some address
  | pageFault address _ => some address
  | protectionFault address _ => some address
  | _ => none

def message : Fault → String
  | invalidOpcode word pc =>
    "invalid opcode " ++ Text.paddedHex word.toNat ++ " at pc " ++ Text.paddedHex pc.toNat
  | memoryOutOfBounds address => "memory access out of bounds at " ++ Text.paddedHex address.toNat
  | writeToReadOnly address => "write to read-only memory at " ++ Text.paddedHex address.toNat
  | pageFault address access =>
    "unresolved page fault at " ++ Text.paddedHex address.toNat ++ " (" ++ access.name ++ ")"
  | protectionFault address access =>
    "protection fault at " ++ Text.paddedHex address.toNat ++ " (" ++ access.name ++ ")"
  | resourceExhausted pool => pool.name ++ " page pool exhausted"
  | consistencyFault pool page =>
    "page " ++ Text.decimal page.toNat ++ " released to " ++ pool.name ++
      " pool twice or out of range"
  | alreadyMapped vpage => "virtual page " ++ Text.hex vpage.toNat ++ " is already mapped"
  | noProcess => "no current process"
  | unknownProcess pid => "unknown process " ++ Text.decimal pid.toNat

end Fault

end PagedMachine

import PagedMachine.Fault
import PagedMachine.Memory.Width

/-!
# Byte stores

A row of bytes that begins at a base address. Every access names a span of
addresses and faults when the span leaves the store; words are little-endian.
-/

namespace PagedMachine

def writeSlice (bytes : Array UInt8) (offset : Nat) : List UInt8 → Array UInt8
  | [] => bytes
  | b :: bs => writeSlice (bytes.setIfInBounds offset b) (offset + 1) bs

structure ByteStore where
  base : Word
  bytes : Array UInt8
  deriving DecidableEq

namespace ByteStore

def zeroed (base : Word) (size : Nat) : ByteStore := ⟨base, Array.replicate size 0⟩

def ofBytes (base : Word) (bytes : List UInt8) : ByteStore := ⟨base, bytes.toArray⟩

/-- Sizes are words: of a longer row only the remainder can be reached. -/
def size (s : ByteStore) : Nat := s.bytes.size % 2 ^ 32

def span (s : ByteStore) (address : Word) (length : Nat) : Except Fault Nat :=
  if s.base ≤ address ∧ address.toNat - s.base.toNat + length ≤ s.size then
    .ok (address.toNat - s.base.toNat)
  else .error (.memoryOutOfBounds address)

def readBytes (s : ByteStore) (address : Word) (length : Nat) : Except Fault (List UInt8) :=
  (s.span address length).map fun offset => (s.bytes.extract offset (offset + length)).toList

def read (s : ByteStore) (address : Word) (width : Width) : Except Fault Word :=
  (s.readBytes address width.bytes).map fun bs => UInt32.ofNat (PagedMachine.ofBytes bs)

/-- Nothing is written unless all of it fits. -/
def writeBytes (address : Word) (bytes : List UInt8) : EStateM Fault ByteStore Unit := do
  let offset ← MonadExcept.ofExcept ((← get).span address bytes.length)
  modify fun s => { s with bytes := writeSlice s.bytes offset bytes }

/-- Bits of `value` above the width are not stored. -/
def write (address : Word) (width : Width) (value : Word) : EStateM Fault ByteStore Unit :=
  writeBytes address (toBytes width.bytes value.toNat)

end ByteStore

end PagedMachine

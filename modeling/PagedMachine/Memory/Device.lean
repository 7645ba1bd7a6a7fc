import PagedMachine.Memory.ByteStore

/-!
# Memory devices

RAM is counted in page frames and the disk in slots of one page. The disk begins
at address zero. A partial page at the end of a device is no frame and no slot.
-/

namespace PagedMachine

def pageShift : Nat := 12

def pageSize : Nat := 4096

def Word.page (address : Word) : Word := UInt32.ofNat (address.toNat / pageSize)

def Word.pageOffset (address : Word) : Nat := address.toNat % pageSize

/-- The first address of a page; numbers past the last page wrap. -/
def Word.pageAddress (page : Word) : Word := UInt32.ofNat (page.toNat * pageSize)

def zeroPage : List UInt8 := List.replicate pageSize 0

abbrev Ram := ByteStore

abbrev Rom := ByteStore

abbrev Disk := ByteStore

namespace Ram

def pageCount (ram : Ram) : Nat := ram.size / pageSize

/-- Where a frame begins; addresses wrap. -/
def frameAddress (ram : Ram) (frame : Word) : Word := ram.base + frame.pageAddress

def readFrame (ram : Ram) (frame : Word) : Except Fault (List UInt8) :=
  ram.readBytes (frameAddress ram frame) pageSize

def writeFrame (frame : Word) (page : List UInt8) : EStateM Fault Ram Unit := do
  ByteStore.writeBytes (frameAddress (← get) frame) page

def copyFrame (source target : Word) : EStateM Fault Ram Unit := do
  let page ← MonadExcept.ofExcept (readFrame (← get) source)
  writeFrame target page

end Ram

namespace Disk

/-- A zeroed disk; its size stops at the last address. -/
def zeroed (slots : Word) : Disk := ByteStore.zeroed 0 (min (slots.toNat * pageSize) (2 ^ 32 - 1))

def slotCount (disk : Disk) : Nat := disk.size / pageSize

def slotAddress (slot : Word) : Except Fault Word :=
  if slot.toNat * pageSize < 2 ^ 32 then .ok slot.pageAddress
  else .error (.memoryOutOfBounds 0xFFFFFFFF)

def readSlot (disk : Disk) (slot : Word) : Except Fault (List UInt8) := do
  disk.readBytes (← slotAddress slot) pageSize

def writeSlot (slot : Word) (page : List UInt8) : EStateM Fault Disk Unit := do
  ByteStore.writeBytes (← MonadExcept.ofExcept (slotAddress slot)) page

end Disk

end PagedMachine

import PagedMachine.Paging.Process
import PagedMachine.Paging.Translation

/-!
# The bus

Every access of the machine is one transfer: some bytes at an address, read or
exchanged. The region of the address decides who serves it: ROM, RAM, or the
page that the address is mapped to.
-/

namespace PagedMachine

structure Bus where
  memory : PagedMemory
  rom : Rom
  regions : RegionMap
  privilege : Privilege
  deriving DecidableEq

/-- An action on the bus. It may fault, and what it changed before stays changed. -/
abbrev OnBus (α : Type) := EStateM Fault Bus α

/-- One access. With `store` the value replaces what was there. -/
structure Transfer where
  address : Word
  width : Width
  access : Access
  store : Option Word
  deriving DecidableEq, Repr

namespace Transfer

def read (address : Word) (width : Width) : Transfer := ⟨address, width, .read, none⟩

def fetch (address : Word) : Transfer := ⟨address, .word, .execute, none⟩

/-- Both a plain store and a swap: the old value is answered in any case. -/
def write (address : Word) (width : Width) (value : Word) : Transfer :=
  ⟨address, width, .write, some value⟩

end Transfer

namespace Bus

/-- The region errors come before those of the page ranges. -/
def ofDevices (ram : Ram) (rom : Rom) (disk : Disk) (window : Word × Word) (ranges : PageRanges) :
    Except LayoutError Bus := do
  let regions ← RegionMap.ofRanges (rom.base, UInt32.ofNat rom.size)
    (ram.base, UInt32.ofNat ram.size) window
  let paging ← Paging.ofDevices ram disk ranges
  return ⟨⟨paging, ram⟩, rom, regions, .kernel⟩

def onMemory {α : Type} : Paged α → OnBus α :=
  focus fun ⟨memory, rom, regions, privilege⟩ =>
    (memory, fun memory => ⟨memory, rom, regions, privilege⟩)

def onRom {α : Type} : EStateM Fault Rom α → OnBus α :=
  focus fun ⟨memory, rom, regions, privilege⟩ =>
    (rom, fun rom => ⟨memory, rom, regions, privilege⟩)

def exchange (address : Word) (width : Width) (store : Option Word) : OnBus Word := do
  let old ← outcome ((← get).memory.ram.read address width)
  match store with
  | some value => onMemory (PagedMemory.onRam (ByteStore.write address width value))
  | none => pure ()
  return old

def translate (address : Word) (access : Access) : OnBus Word := do
  onMemory (PagedMemory.translate address access (← get).privilege)

def exchangeBytes (t : Transfer) (offset : Nat) : (count : Nat) → OnBus Nat
  | 0 => return 0
  | count + 1 => do
    let physical ← translate (t.address + UInt32.ofNat offset) t.access
    let store := t.store.map fun value => UInt32.ofNat (value.field (8 * offset) 8)
    let old ← exchange physical .byte store
    return old.toNat + 256 * (← exchangeBytes t (offset + 1) count)

/-- A transfer in the window. When it touches two pages, both are resolved
before any byte is exchanged. -/
def transferMapped (t : Transfer) : OnBus Word := do
  if crossesPage t.address t.width then
    let _ ← translate t.address t.access
    let _ ← translate (t.address + UInt32.ofNat (t.width.bytes - 1)) t.access
    return UInt32.ofNat (← exchangeBytes t 0 t.width.bytes)
  else
    exchange (← translate t.address t.access) t.width t.store

def transfer (t : Transfer) : OnBus Word := do
  match (← get).regions.regionOf? t.address with
  | none => throw (.memoryOutOfBounds t.address)
  | some region =>
    if region.holds t.address t.width then
      outcome (region.kind.permit t.access t.address)
      match region.kind with
      | .rom => outcome ((← get).rom.read t.address t.width)
      | .ram => exchange t.address t.width t.store
      | .mapped => transferMapped t
    else throw (.memoryOutOfBounds t.address)

def read (address : Word) (width : Width) : OnBus Word := transfer (.read address width)

def fetch (address : Word) : OnBus Word := transfer (.fetch address)

def write (address : Word) (width : Width) (value : Word) : OnBus Unit :=
  discard (transfer (.write address width value))

def swap (address : Word) (width : Width) (value : Word) : OnBus Word :=
  transfer (.write address width value)

/-- Stores one byte for the host, who may also burn ROM and write where no
program may. -/
def loadByte (address : Word) (byte : UInt8) : OnBus Unit := do
  match (← get).regions.regionOf? address with
  | none => throw (.memoryOutOfBounds address)
  | some region =>
    match region.kind with
    | .rom => onRom (ByteStore.writeBytes address [byte])
    | .ram => onMemory (PagedMemory.onRam (ByteStore.writeBytes address [byte]))
    | .mapped =>
      onMemory do
        let physical ← PagedMemory.translateHostWrite address
        PagedMemory.onRam (ByteStore.writeBytes physical [byte])

def loadBytes (address : Word) : List UInt8 → OnBus Unit
  | [] => return ()
  | b :: bs => do
    loadByte address b
    loadBytes (address + 1) bs

/-- Stores an image byte by byte, unless it runs past the last address. -/
def loadImage (base : Word) (image : List UInt8) : OnBus Unit :=
  if base.toNat + image.length ≤ 2 ^ 32 then loadBytes base image
  else throw (.memoryOutOfBounds 0xFFFFFFFF)

/-- Reads bytes one by one up to the first fault; addresses wrap. The bytes read
before a fault are answered too. -/
def readBytes (address : Word) : (length : Nat) → OnBus (List UInt8 × Except Fault Unit)
  | 0 => return ([], .ok ())
  | length + 1 => do
    match ← attempt (read address .byte) with
    | .error fault => return ([], .error fault)
    | .ok value =>
      let (bytes, result) ← readBytes (address + 1) length
      return (value.toNat.toUInt8 :: bytes, result)

def setPrivilege (privilege : Privilege) : OnBus Unit :=
  modify fun b => { b with privilege := privilege }

end Bus

end PagedMachine

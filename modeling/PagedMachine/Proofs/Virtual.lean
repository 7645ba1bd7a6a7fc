import Mathlib.Logic.Function.Basic
import PagedMachine.Proofs.Operations
import PagedMachine.Proofs.Tables

/-!
# Virtual memory without frames

The memory that programs are meant to see. A mapping names a page, a page has
contents, and there are as many pages as anybody asks for: no frames, no slots,
nothing is ever moved. Where the machine may run out of pages its operations
`claim` storage, which may be refused; then nothing has changed.
-/

namespace PagedMachine.Virtual

structure Mapping where
  page : Nat
  permissions : Permissions
  copyOnWrite : Bool
  deriving DecidableEq

abbrev Directory := Table Mapping

structure Memory where
  processes : Table Directory
  contents : Nat → Fin pageSize → UInt8
  /-- All pages in use have smaller names. -/
  nextPage : Nat
  current : Option Word
  nextPid : Word

def Directory.protectWritable (d : Directory) : Directory :=
  d.map fun m => if m.permissions.write then { m with copyOnWrite := true } else m

def offset (address : Word) : Fin pageSize := ⟨address.pageOffset, Nat.mod_lt _ (by decide)⟩

namespace Memory

def initial : Memory := ⟨.empty, fun _ _ => 0, 0, none, 1⟩

def currentDirectory (v : Memory) : Except Fault Directory :=
  match v.current with
  | none => .error .noProcess
  | some pid =>
    match v.processes.find? pid with
    | none => .error (.unknownProcess pid)
    | some d => .ok d

def mappingOf (v : Memory) (page : Word) : Except Fault Mapping := do
  Paging.checkPage page
  match (← v.currentDirectory).find? page with
  | some m => .ok m
  | none => .error (.pageFault page.pageAddress .read)

def find? (v : Memory) (page : Word) : Option Mapping :=
  match v.currentDirectory with
  | .ok d => d.find? page
  | .error _ => none

def mapping? (v : Memory) (pid page : Word) : Option Mapping :=
  (v.processes.find? pid).bind (·.find? page)

def mappingsOf (v : Memory) (page : Nat) : Nat :=
  v.processes.sum fun d => d.sum fun m => if m.page = page then 1 else 0

def changed (v : Memory) (pid : Word) (f : Directory → Directory) : Memory :=
  { v with processes := v.processes.update pid f }

def updateCurrent (f : Directory → Directory) (v : Memory) : Memory :=
  match v.current with
  | some pid => v.changed pid f
  | none => v

theorem updateCurrent_eq {v : Memory} {pid : Word} (hc : v.current = some pid)
    (f : Directory → Directory) : v.updateCurrent f = v.changed pid f := by
  simp only [updateCurrent, hc]

/-! ## Bytes -/

def byte? (v : Memory) (pid address : Word) : Option UInt8 :=
  (v.mapping? pid address.page).map fun m => v.contents m.page (offset address)

def storeByte (v : Memory) (page : Nat) (offset : Fin pageSize) (byte : UInt8) : Memory :=
  { v with contents := Function.update v.contents page (Function.update
      (v.contents page) offset byte) }

def storeAt (address : Word) (byte : UInt8) (v : Memory) : Memory :=
  match v.find? address.page with
  | some m => v.storeByte m.page (offset address) byte
  | none => v

def storePart (t : Transfer) (offset page : Nat) (v : Memory) : Memory :=
  match t.store with
  | some value =>
    v.storeByte page (Virtual.offset (t.address + UInt32.ofNat offset))
      (UInt8.ofNat (value.field (8 * offset) 8))
  | none => v

def exchangeBytes (t : Transfer) (v : Memory) (offset : Nat) : (count : Nat) → Nat × Memory
  | 0 => (0, v)
  | count + 1 =>
    let address := t.address + UInt32.ofNat offset
    match v.find? address.page with
    | none => (0, v)
    | some m =>
      let old := v.contents m.page (Virtual.offset address)
      let (rest, v) := exchangeBytes t (v.storePart t offset m.page) (offset + 1) count
      (old.toNat + 256 * rest, v)

theorem exchangeBytes_one {t : Transfer} {v : Memory} {offset : Nat} {m : Mapping}
    (hm : v.find? (t.address + UInt32.ofNat offset).page = some m) : v.exchangeBytes t offset 1 =
      ((v.contents m.page (Virtual.offset (t.address + UInt32.ofNat offset))).toNat,
        v.storePart t offset m.page) := by
  simp only [exchangeBytes, hm, Nat.mul_zero, Nat.add_zero]

theorem exchangeBytes_succ {t : Transfer} {v : Memory} {offset : Nat} {m : Mapping}
    (hm : v.find? (t.address + UInt32.ofNat offset).page = some m) (count : Nat) :
    v.exchangeBytes t offset (count + 1) =
      ((v.exchangeBytes t offset 1).1 +
        256 * ((v.exchangeBytes t offset 1).2.exchangeBytes t (offset + 1) count).1,
        ((v.exchangeBytes t offset 1).2.exchangeBytes t (offset + 1) count).2) := by
  rw [exchangeBytes_one hm]
  simp only [exchangeBytes, hm]

/-- An exchange changes contents and nothing else. -/
theorem exchangeBytes_eq (t : Transfer) (count : Nat) : ∀ (v : Memory) (offset : Nat),
    ∃ contents, (v.exchangeBytes t offset count).2 = { v with contents := contents } := by
  induction count with
  | zero => exact fun v _ => ⟨v.contents, rfl⟩
  | succ count ih =>
    intro v offset
    rw [exchangeBytes]
    dsimp only
    cases v.find? (t.address + UInt32.ofNat offset).page with
    | none => exact ⟨v.contents, rfl⟩
    | some m =>
      obtain ⟨contents, hrest⟩ := ih (v.storePart t offset m.page) (offset + 1)
      refine ⟨contents, hrest.trans ?_⟩
      unfold storePart
      cases t.store <;> rfl

theorem exchangeBytes_load {t : Transfer} (hs : t.store = none) (count : Nat) :
    ∀ (v : Memory) (offset : Nat),
    (v.exchangeBytes t offset count).2 = v := by
  induction count with
  | zero => exact fun _ _ => rfl
  | succ count ih =>
    intro v offset
    rw [exchangeBytes]
    dsimp only
    cases v.find? (t.address + UInt32.ofNat offset).page with
    | none => rfl
    | some m =>
      have hpart : v.storePart t offset m.page = v := by rw [storePart, hs]
      dsimp only
      rw [hpart]
      exact ih v (offset + 1)

theorem find?_exchangeBytes (t : Transfer) (v : Memory) (offset count : Nat) (page : Word) :
    (v.exchangeBytes t offset count).2.find? page = v.find? page := by
  obtain ⟨contents, he⟩ := exchangeBytes_eq t count v offset
  rw [he]
  rfl

theorem storeAt_eq (v : Memory) (address : Word) (byte : UInt8) :
    ∃ contents, v.storeAt address byte = { v with contents := contents } := by
  unfold storeAt
  cases v.find? address.page with
  | none => exact ⟨v.contents, rfl⟩
  | some m => exact ⟨_, rfl⟩

/-! ## Private pages -/

/-- The current process's `page`, mapped by `m`, becomes its own: it stays what it
is when nothing else maps it, else it becomes a copy. -/
def privatise (page : Word) (m : Mapping) (v : Memory) : Memory :=
  if 1 < v.mappingsOf m.page then
    { v.updateCurrent (·.update page fun m =>
        { m with page := v.nextPage, copyOnWrite := false }) with
      contents := Function.update v.contents v.nextPage (v.contents m.page)
      nextPage := v.nextPage + 1 }
  else v.updateCurrent (·.update page fun m => { m with copyOnWrite := false })

end Memory

open Behaviour

/-! ## Processes -/

def Memory.withProcess (v : Memory) (d : Directory) : Memory :=
  { v with processes := v.processes.insert v.nextPid d, nextPid := v.nextPid + 1 }

def addProcess (d : Directory) : Behaviour Memory Word :=
  modifyGet fun v => (v.nextPid, v.withProcess d)

def beginProcess : Behaviour Memory Word := do
  let pid ← addProcess .empty
  modify fun v => { v with current := some pid }
  return pid

def endProcess (pid : Word) : Behaviour Memory Unit := do
  if (← get).processes.contains pid then
    modify fun v =>
      { v with
        processes := v.processes.erase pid
        current := if v.current = some pid then none else v.current }
  else fault (.unknownProcess pid)

def switchProcess (pid : Word) : Behaviour Memory Unit := do
  if (← get).processes.contains pid then
    modify fun v => { v with current := some pid }
  else fault (.unknownProcess pid)

def forkProcess : Behaviour Memory Word := do
  let d ← result (← get).currentDirectory
  modify (·.updateCurrent (·.protectWritable))
  addProcess d.protectWritable

/-! ## Mappings -/

def addPage (page : Word) (permissions : Permissions) (copyOnWrite : Bool) :
    Behaviour Memory Unit := do
  result (Paging.checkPage page)
  if (← result (← get).currentDirectory).contains page then
    fault (.alreadyMapped page)
  claim
  modify fun v =>
    { v.updateCurrent (·.insert page ⟨v.nextPage, permissions, copyOnWrite⟩) with
      contents := Function.update v.contents v.nextPage fun _ => 0
      nextPage := v.nextPage + 1 }

def removePage (page : Word) : Behaviour Memory Unit := do
  let _ ← result ((← get).mappingOf page)
  modify (·.updateCurrent (·.erase page))

def removeAll : Behaviour Memory Unit := do
  let _ ← result (← get).currentDirectory
  modify (·.updateCurrent fun _ => .empty)

def sharedBy (copyOnWrite : Bool) (m : Mapping) : Mapping :=
  if copyOnWrite ∧ m.permissions.write then { m with copyOnWrite := true } else m

def sharePage (pid source target : Word) (copyOnWrite : Bool) : Behaviour Memory Unit := do
  result (Paging.checkPage source)
  result (Paging.checkPage target)
  if (← result (← get).currentDirectory).contains target then
    fault (.alreadyMapped target)
  match (← get).processes.find? pid with
  | none => fault (.unknownProcess pid)
  | some d =>
    match d.find? source with
    | none => fault (.pageFault source.pageAddress .read)
    | some m =>
      let shared := sharedBy copyOnWrite m
      modify (·.changed pid (·.insert source shared))
      modify (·.updateCurrent (·.insert target shared))

/-- There is nowhere to move a page to. -/
def pageOut (page : Word) : Behaviour Memory Unit := do
  let _ ← result ((← get).mappingOf page)
  claim

/-! ## Accesses -/

def lookup (page address : Word) (access : Access) : Behaviour Memory Mapping := do
  match (← result (← get).currentDirectory).find? page with
  | some m => return m
  | none => fault (.pageFault address access)

def materialise (page : Word) (m : Mapping) (access : Access) : Behaviour Memory Unit := do
  claim
  if access = .write ∧ m.copyOnWrite then modify (·.privatise page m)

def resolve (page address : Word) (access : Access) (privilege : Privilege) :
    Behaviour Memory Unit := do
  let m ← lookup page address access
  if m.permissions.allow access privilege then materialise page m access
  else fault (.protectionFault address access)

def resolveHostWrite (address : Word) : Behaviour Memory Unit := do
  materialise address.page (← lookup address.page address .write) .write

/-- All bytes are exchanged or none. -/
def transferMapped (t : Transfer) (privilege : Privilege) : Behaviour Memory Word := do
  resolve t.address.page t.address t.access privilege
  if crossesPage t.address t.width then
    let last := t.address + UInt32.ofNat (t.width.bytes - 1)
    resolve last.page last t.access privilege
    claim
  let old ← modifyGet fun v => v.exchangeBytes t 0 t.width.bytes
  return UInt32.ofNat old

def loadByteMapped (address : Word) (byte : UInt8) : Behaviour Memory Unit := do
  resolveHostWrite address
  modify (·.storeAt address byte)

def perform : PagingOperation → Behaviour Memory Answer
  | .beginProcess => .process <$> beginProcess
  | .endProcess pid => (fun _ => .done) <$> endProcess pid
  | .switchProcess pid => (fun _ => .done) <$> switchProcess pid
  | .forkProcess => .process <$> forkProcess
  | .addPage page permissions cow => (fun _ => .done) <$> addPage page permissions cow
  | .removePage page => (fun _ => .done) <$> removePage page
  | .removeAll => (fun _ => .done) <$> removeAll
  | .sharePage pid source target cow => (fun _ => .done) <$> sharePage pid source target cow
  | .pageOut page => (fun _ => .done) <$> pageOut page
  | .translate address access privilege =>
    (fun _ => .done) <$> resolve address.page address access privilege
  | .translatePage page access privilege => (fun _ => .done) <$> do
    result (Paging.checkPage page)
    resolve page page.pageAddress access privilege
  | .translateHostWrite address => (fun _ => .done) <$> resolveHostWrite address

/-! ## The bus -/

structure Bus where
  memory : Memory
  rom : Rom
  regions : RegionMap
  privilege : Privilege

namespace Bus

variable {α : Type}

def onMemory (x : Behaviour Memory α) : Behaviour Bus α :=
  ⟨fun b r b' => ∃ v, x.allows b.memory r v ∧ b' = { b with memory := v }⟩

def onRom (x : EStateM Fault Rom α) : Behaviour Bus α :=
  ⟨fun b r b' => ∃ rom, Yields x b.rom r rom ∧ b' = { b with rom := rom }⟩

/-- Physical memory is no part of this: what is found there is left open, and a
store there may change any page. -/
def physical (stores : Bool) : Behaviour Bus α :=
  ⟨fun b _ b' => b' = b ∨ stores ∧ ∃ contents,
    b' = { b with memory := { b.memory with contents := contents } }⟩

def transfer (t : Transfer) : Behaviour Bus Word := do
  match (← get).regions.regionOf? t.address with
  | none => fault (.memoryOutOfBounds t.address)
  | some region =>
    if region.holds t.address t.width then
      result (region.kind.permit t.access t.address)
      match region.kind with
      | .rom => result ((← get).rom.read t.address t.width)
      | .ram => physical t.store.isSome
      | .mapped => onMemory (transferMapped t (← get).privilege)
    else fault (.memoryOutOfBounds t.address)

def loadByte (address : Word) (byte : UInt8) : Behaviour Bus Unit := do
  match (← get).regions.regionOf? address with
  | none => fault (.memoryOutOfBounds address)
  | some region =>
    match region.kind with
    | .rom => onRom (ByteStore.writeBytes address [byte])
    | .ram => physical true
    | .mapped => onMemory (loadByteMapped address byte)

def loadBytes (address : Word) : List UInt8 → Behaviour Bus Unit
  | [] => return ()
  | b :: bs => do
    loadByte address b
    loadBytes (address + 1) bs

def loadImage (base : Word) (image : List UInt8) : Behaviour Bus Unit :=
  if base.toNat + image.length ≤ 2 ^ 32 then loadBytes base image
  else fault (.memoryOutOfBounds 0xFFFFFFFF)

def perform : Operation → Behaviour Bus Answer
  | .paging op => onMemory (Virtual.perform op)
  | .read address width => .value <$> transfer (.read address width)
  | .fetch address => .value <$> transfer (.fetch address)
  | .write address width value => (fun _ => .done) <$> transfer (.write address width value)
  | .swap address width value => .value <$> transfer (.write address width value)
  | .loadImage base image => (fun _ => .done) <$> loadImage base image
  | .setPrivilege privilege => do
    modify fun b => { b with privilege := privilege }
    return .done

end Bus

end PagedMachine.Virtual

import PagedMachine.Counter
import PagedMachine.Focus
import PagedMachine.Memory.Region
import PagedMachine.Paging.Directory
import PagedMachine.Paging.Pool

/-!
# Paged memory

The state of virtual memory: RAM, whose frames hold pages, the disk, whose slots
hold pages that were moved out, and the books about them. A location is counted
once for each mapping of it, over the directories of all processes.
-/

namespace PagedMachine

/-- The frames of the two frame pools, ends included. -/
structure PageRanges where
  userLow : Word
  userHigh : Word
  kernelLow : Word
  kernelHigh : Word
  deriving DecidableEq, Repr

structure PagingCounters where
  pageFaults : Counter
  protectionFaults : Counter
  pageIns : Counter
  pageOuts : Counter
  copies : Counter
  evictions : Counter
  deriving DecidableEq, Repr

def PagingCounters.zero : PagingCounters := ⟨0, 0, 0, 0, 0, 0⟩

structure Paging where
  disk : Disk
  userPool : Pool
  kernelPool : Pool
  diskPool : Pool
  frameRefs : Table Nat
  slotRefs : Table Nat
  /-- Counted frames, the longest resident first. -/
  resident : List Word
  processes : Table Directory
  current : Option Word
  nextPid : Word
  counters : PagingCounters
  deriving DecidableEq

structure PagedMemory extends Paging where
  ram : Ram
  deriving DecidableEq

/-- An action on paged memory. It may fault, and what it changed before stays changed. -/
abbrev Paged (α : Type) := EStateM Fault PagedMemory α

namespace Paging

def checkRange (pool : PoolKind) (low high : Word) (ramPages : Nat) : Except LayoutError Unit :=
  if high < low then .error (.invertedPageRange pool low high)
  else if ramPages ≤ high.toNat then .error (.pageRangeOutOfRam pool low high ramPages)
  else .ok ()

def ofDevices (ram : Ram) (disk : Disk) (ranges : PageRanges) : Except LayoutError Paging := do
  if ram.base.pageOffset ≠ 0 then
    throw (.unalignedBase .ram ram.base)
  checkRange .user ranges.userLow ranges.userHigh (Ram.pageCount ram)
  checkRange .kernel ranges.kernelLow ranges.kernelHigh (Ram.pageCount ram)
  if ranges.userLow ≤ ranges.kernelHigh ∧ ranges.kernelLow ≤ ranges.userHigh then
    throw .overlappingPageRanges
  let slots := Disk.slotCount disk
  return {
    disk := disk
    userPool := .ofRange .user ranges.userLow ranges.userHigh
    kernelPool := .ofRange .kernel ranges.kernelLow ranges.kernelHigh
    diskPool :=
      if slots = 0 then .ofRange .disk 1 0 else .ofRange .disk 0 (UInt32.ofNat (slots - 1))
    frameRefs := .empty
    slotRefs := .empty
    resident := []
    processes := .empty
    current := none
    nextPid := 1
    counters := .zero }

def pool (p : Paging) : PoolKind → Pool
  | .user => p.userPool
  | .kernel => p.kernelPool
  | .disk => p.diskPool

def setPool (p : Paging) (kind : PoolKind) (pool : Pool) : Paging :=
  match kind with
  | .user => { p with userPool := pool }
  | .kernel => { p with kernelPool := pool }
  | .disk => { p with diskPool := pool }

def framePool (p : Paging) (frame : Word) : PoolKind :=
  if p.userPool.owns frame then .user else .kernel

def refs (p : Paging) : Location → Nat
  | .frame frame => (p.frameRefs.find? frame).getD 0
  | .slot slot => (p.slotRefs.find? slot).getD 0

def currentDirectory (p : Paging) : Except Fault Directory :=
  match p.current with
  | none => .error .noProcess
  | some pid =>
    match p.processes.find? pid with
    | none => .error (.unknownProcess pid)
    | some d => .ok d

def mapping? (p : Paging) (page : Word) : Option Mapping :=
  match p.currentDirectory with
  | .ok d => d.find? page
  | .error _ => none

def checkPage (page : Word) : Except Fault Unit :=
  if page ≤ maxPage then .ok () else .error (.memoryOutOfBounds page)

def mappingOf (p : Paging) (page : Word) : Except Fault Mapping := do
  checkPage page
  match (← p.currentDirectory).find? page with
  | some m => .ok m
  | none => .error (.pageFault page.pageAddress .read)

def referenceCount (p : Paging) (page : Word) : Except Fault Nat :=
  (p.mappingOf page).map fun m => p.refs m.location

end Paging

namespace PagedMemory

def onRam {α : Type} : EStateM Fault Ram α → Paged α :=
  focus fun ⟨paging, ram⟩ => (ram, fun ram => ⟨paging, ram⟩)

def onDisk {α : Type} : EStateM Fault Disk α → Paged α :=
  focus fun m => (m.disk, fun disk => { m with disk := disk })

def onPool {α : Type} (kind : PoolKind) : EStateM Fault Pool α → Paged α :=
  focus fun m => (m.pool kind, fun pool => { m with toPaging := m.setPool kind pool })

def tally (f : PagingCounters → PagingCounters) : Paged Unit :=
  modify fun m => { m with counters := f m.counters }

def updateCurrent (f : Directory → Directory) : Paged Unit := do
  let _ ← outcome (← get).currentDirectory
  modify fun m =>
    match m.current with
    | some pid => { m with processes := m.processes.update pid f }
    | none => m

end PagedMemory

end PagedMachine

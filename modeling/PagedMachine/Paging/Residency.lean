import PagedMachine.Paging.Memory

/-!
# Residency

How pages move between frames and slots. A pool with no free frame gives up its
longest resident frame to the disk. Every mapping of a page follows it, in
every process.
-/

namespace PagedMachine.PagedMemory

def maxRefs : Nat := 2 ^ 32 - 1

def repoint (source target : Location) : Paged Unit :=
  modify fun m => { m with processes := m.processes.map (·.repoint source target) }

/-- A frame becomes resident, after all others. -/
def track (frame : Word) (count : Nat) : Paged Unit :=
  modify fun m =>
    { m with frameRefs := m.frameRefs.insert frame count, resident := m.resident ++ [frame] }

def retain (location : Location) : Paged Unit :=
  modify fun m =>
    let count := min (m.refs location + 1) maxRefs
    match location with
    | .frame frame => { m with frameRefs := m.frameRefs.insert frame count }
    | .slot slot => { m with slotRefs := m.slotRefs.insert slot count }

/-- One mapping less; the last one gives the page back to its pool. -/
def release (location : Location) : Paged Unit := do
  let m ← get
  match location with
  | .frame frame =>
    let pool := m.framePool frame
    match m.frameRefs.find? frame with
    | none => throw (.consistencyFault pool frame)
    | some count =>
      if 1 < count then
        set { m with frameRefs := m.frameRefs.insert frame (count - 1) }
      else
        set { m with
          frameRefs := m.frameRefs.erase frame
          resident := m.resident.filter (· != frame) }
        onPool pool (Pool.release frame)
  | .slot slot =>
    match m.slotRefs.find? slot with
    | none => throw (.consistencyFault .disk slot)
    | some count =>
      if 1 < count then
        set { m with slotRefs := m.slotRefs.insert slot (count - 1) }
      else
        set { m with slotRefs := m.slotRefs.erase slot }
        onPool .disk (Pool.release slot)

/-- Releases all, also after a fault; of several faults the first is reported. -/
def releaseAll : List Location → Paged Unit
  | [] => pure ()
  | location :: rest => do
    let first ← attempt (release location)
    let others ← attempt (releaseAll rest)
    outcome (first *> others)

def evict (frame : Word) : Paged Unit := do
  let pool := (← get).framePool frame
  match (← get).frameRefs.find? frame with
  | none => throw (.consistencyFault pool frame)
  | some count =>
    let page ← outcome (Ram.readFrame (← get).ram frame)
    let slot ← onPool .disk Pool.allocate
    onDisk (Disk.writeSlot slot page)
    modify fun m =>
      { m with
        frameRefs := m.frameRefs.erase frame
        resident := m.resident.filter (· != frame)
        slotRefs := m.slotRefs.insert slot count }
    repoint (.frame frame) (.slot slot)
    onPool pool (Pool.release frame)
    tally fun c => { c with pageOuts := c.pageOuts.succ }

/-- The frame that `pool` gives up next; never the one that is pinned. -/
def victim? (m : PagedMemory) (pool : PoolKind) (pinned : Option Word) : Option Word :=
  m.resident.find? fun frame => some frame != pinned && m.framePool frame == pool

def takeFrame (pool : PoolKind) (pinned : Option Word) : Paged Word := do
  if ((← get).pool pool).free.isEmpty then
    match victim? (← get) pool pinned with
    | none => throw (.resourceExhausted pool)
    | some frame =>
      evict frame
      tally fun c => { c with evictions := c.evictions.succ }
  onPool pool Pool.allocate

def pageIn (slot : Word) (pool : PoolKind) : Paged Word := do
  let page ← outcome (Disk.readSlot (← get).disk slot)
  let frame ← takeFrame pool none
  onRam (Ram.writeFrame frame page)
  match (← get).slotRefs.find? slot with
  | none => throw (.consistencyFault .disk slot)
  | some count =>
    modify fun m => { m with slotRefs := m.slotRefs.erase slot }
    onPool .disk (Pool.release slot)
    repoint (.slot slot) (.frame frame)
    track frame count
    tally fun c => { c with pageIns := c.pageIns.succ }
    return frame

/-- A private frame for the current process's `page`, which is in `frame`: the
frame itself when nothing else maps it, else a copy. -/
def privatise (page frame : Word) : Paged Word := do
  let target ← if 1 < (← get).refs (.frame frame) then do
      let copy ← takeFrame ((← get).framePool frame) (some frame)
      onRam (Ram.copyFrame frame copy)
      track copy 1
      release (.frame frame)
      tally fun c => { c with copies := c.copies.succ }
      pure copy
    else pure frame
  updateCurrent (·.update page fun m =>
    { m with location := .frame target, copyOnWrite := false })
  return target

/-- The frame that holds a mapped page, made private first for a store. -/
def materialise (page : Word) (m : Mapping) (access : Access) : Paged Word := do
  let frame ← match m.location with
    | .frame frame => pure frame
    | .slot slot => pageIn slot m.permissions.pool
  if access = .write ∧ m.copyOnWrite then privatise page frame else return frame

/-- Moves a page of the current process to the disk, unless it is there. -/
def pageOut (page : Word) : Paged Unit := do
  match (← outcome ((← get).mappingOf page)).location with
  | .frame frame => evict frame
  | .slot _ => pure ()

end PagedMachine.PagedMemory

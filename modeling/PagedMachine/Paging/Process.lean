import PagedMachine.Paging.Residency

/-!
# Processes and their mappings

A process is a directory under a number. A fork shares every page with the new
process; a page may also be shared alone. What is writable on both sides is
copied at the first store.
-/

namespace PagedMachine.PagedMemory

/-- Gives a directory the next number. Numbers wrap and leave out zero. -/
def addProcess (d : Directory) : Paged Word :=
  modifyGet fun m =>
    (m.nextPid, { m with
      processes := m.processes.insert m.nextPid d
      nextPid := if m.nextPid + 1 = 0 then 1 else m.nextPid + 1 })

def beginProcess : Paged Word := do
  let pid ← addProcess .empty
  modify fun m => { m with current := some pid }
  return pid

def endProcess (pid : Word) : Paged Unit := do
  match (← get).processes.find? pid with
  | none => throw (.unknownProcess pid)
  | some d =>
    modify fun m =>
      { m with
        processes := m.processes.erase pid
        current := if m.current = some pid then none else m.current }
    releaseAll d.locations

def switchProcess (pid : Word) : Paged Unit := do
  if (← get).processes.contains pid then
    modify fun m => { m with current := some pid }
  else throw (.unknownProcess pid)

def forkProcess : Paged Word := do
  updateCurrent (·.protectWritable)
  let child ← outcome (← get).currentDirectory
  child.locations.forM retain
  addProcess child

def addPage (page : Word) (permissions : Permissions) (copyOnWrite : Bool) : Paged Word := do
  outcome (Paging.checkPage page)
  if (← outcome (← get).currentDirectory).contains page then
    throw (.alreadyMapped page)
  let frame ← takeFrame permissions.pool none
  onRam (Ram.writeFrame frame zeroPage)
  track frame 1
  updateCurrent (·.insert page ⟨.frame frame, permissions, copyOnWrite⟩)
  return frame

def removePage (page : Word) : Paged Unit := do
  let m ← outcome ((← get).mappingOf page)
  updateCurrent (·.erase page)
  release m.location

/-- Unmaps every page of the current process, which lives on. -/
def removeAll : Paged Unit := do
  let d ← outcome (← get).currentDirectory
  updateCurrent fun _ => .empty
  releaseAll d.locations

/-- Maps page `source` of process `pid` as page `target` of the current process. -/
def sharePage (pid source target : Word) (copyOnWrite : Bool) : Paged Unit := do
  outcome (Paging.checkPage source)
  outcome (Paging.checkPage target)
  if (← outcome (← get).currentDirectory).contains target then
    throw (.alreadyMapped target)
  match (← get).processes.find? pid with
  | none => throw (.unknownProcess pid)
  | some d =>
    match d.find? source with
    | none => throw (.pageFault source.pageAddress .read)
    | some m =>
      let shared :=
        if copyOnWrite ∧ m.permissions.write then { m with copyOnWrite := true } else m
      modify fun m => { m with processes := m.processes.update pid (·.insert source shared) }
      retain shared.location
      updateCurrent (·.insert target shared)

end PagedMachine.PagedMemory

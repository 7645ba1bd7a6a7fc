import PagedMachine.Paging.Residency

/-!
# Translation

From virtual to physical addresses. A translation checks the page's permissions,
brings the page in from the disk and, for a store, makes it private.
-/

namespace PagedMachine.PagedMemory

def lookup (page address : Word) (access : Access) : Paged Mapping := do
  match (← outcome (← get).currentDirectory).find? page with
  | some m => return m
  | none =>
    tally fun c => { c with pageFaults := c.pageFaults.succ }
    throw (.pageFault address access)

def resolve (page address : Word) (access : Access) (privilege : Privilege) : Paged Word := do
  let m ← lookup page address access
  if m.permissions.allow access privilege then
    materialise page m access
  else
    tally fun c => { c with protectionFaults := c.protectionFaults.succ }
    throw (.protectionFault address access)

def physical (frame : Word) (offset : Nat) : Paged Word :=
  return Ram.frameAddress (← get).ram frame + UInt32.ofNat offset

def translate (address : Word) (access : Access) (privilege : Privilege) : Paged Word := do
  physical (← resolve address.page address access privilege) address.pageOffset

/-- A store by the host, to which no permission is denied. -/
def translateHostWrite (address : Word) : Paged Word := do
  let m ← lookup address.page address .write
  physical (← materialise address.page m .write) address.pageOffset

def translatePage (page : Word) (access : Access) (privilege : Privilege) : Paged Word := do
  outcome (Paging.checkPage page)
  resolve page page.pageAddress access privilege

end PagedMachine.PagedMemory

import PagedMachine.Fault
import PagedMachine.Memory.Device

/-!
# Address regions

The three ranges of addresses that the bus serves, and the errors of a layout
that cannot be served.
-/

namespace PagedMachine

inductive RegionKind where
  /-- Read-only memory. -/
  | rom
  /-- Physical memory. -/
  | ram
  /-- The window of virtual addresses. -/
  | mapped
  deriving DecidableEq, Repr

def RegionKind.name : RegionKind → String
  | rom => "rom"
  | ram => "ram"
  | mapped => "mapped"

inductive LayoutError where
  | pageRangeOutOfRam (pool : PoolKind) (low high : Word) (ramPages : Nat)
  | invertedPageRange (pool : PoolKind) (low high : Word)
  | overlappingPageRanges
  | overlappingRegions (first second : RegionKind)
  | regionWraps (region : RegionKind)
  | unalignedBase (region : RegionKind) (base : Word)
  | invalidSize (region : RegionKind) (size : Word)
  deriving DecidableEq, Repr

def LayoutError.name : LayoutError → String
  | pageRangeOutOfRam .. => "PageRangeOutOfRam"
  | invertedPageRange .. => "InvertedPageRange"
  | overlappingPageRanges => "OverlappingPageRanges"
  | overlappingRegions .. => "OverlappingRegions"
  | regionWraps .. => "RegionWraps"
  | unalignedBase .. => "UnalignedBase"
  | invalidSize .. => "InvalidSize"

def LayoutError.message : LayoutError → String
  | pageRangeOutOfRam pool low high ramPages =>
    pool.name ++ " page range " ++ Text.decimal low.toNat ++ "..=" ++ Text.decimal high.toNat ++
      " exceeds the " ++ Text.decimal ramPages ++ " RAM pages"
  | invertedPageRange pool low high =>
    pool.name ++ " page range " ++ Text.decimal low.toNat ++ "..=" ++ Text.decimal high.toNat ++
      " is inverted"
  | overlappingPageRanges => "user and kernel page ranges overlap"
  | overlappingRegions first second =>
    "bus regions " ++ first.name ++ " and " ++ second.name ++ " overlap"
  | regionWraps region => "bus region " ++ region.name ++ " wraps the 32-bit address space"
  | unalignedBase region base =>
    region.name ++ " base " ++ Text.paddedHex base.toNat ++ " is not page aligned"
  | invalidSize region size => region.name ++ " has invalid size " ++ Text.hex size.toNat

/-- The addresses from `first` to `last`, both included. -/
structure Region where
  kind : RegionKind
  first : Word
  last : Word
  deriving DecidableEq, Repr

namespace Region

def ofSize (kind : RegionKind) (start size : Word) : Except LayoutError Region :=
  if size = 0 then .error (.invalidSize kind size)
  else if start.toNat + size.toNat ≤ 2 ^ 32 then .ok ⟨kind, start, start + (size - 1)⟩
  else .error (.regionWraps kind)

def contains (r : Region) (address : Word) : Bool := r.first ≤ address && address ≤ r.last

def holds (r : Region) (address : Word) (width : Width) : Bool :=
  r.contains address && width.bytes - 1 ≤ r.last.toNat - address.toNat

def overlaps (r s : Region) : Bool := r.first ≤ s.last && s.first ≤ r.last

end Region

def crossesPage (address : Word) (width : Width) : Bool :=
  pageSize < address.pageOffset + width.bytes

/-- Read-only memory is never written; the window checks its pages later. -/
def RegionKind.permit (kind : RegionKind) (access : Access) (address : Word) :
    Except Fault Unit :=
  match kind, access with
  | rom, .write => .error (.writeToReadOnly address)
  | _, _ => .ok ()

/-- Regions in ascending order of their first addresses. -/
structure RegionMap where
  regions : List Region
  deriving DecidableEq, Repr

namespace RegionMap

/-- The first of two neighbours that share an address, and the second. -/
def overlap? : List Region → Option (Region × Region)
  | r :: s :: rest => if r.overlaps s then some (r, s) else overlap? (s :: rest)
  | _ => none

def ofRanges (rom ram mapped : Word × Word) : Except LayoutError RegionMap := do
  let rom ← Region.ofSize .rom rom.1 rom.2
  let ram ← Region.ofSize .ram ram.1 ram.2
  let mapped ← Region.ofSize .mapped mapped.1 mapped.2
  let regions := [rom, ram, mapped].mergeSort fun r s => r.first ≤ s.first
  match overlap? regions with
  | some (r, s) => .error (.overlappingRegions r.kind s.kind)
  | none => .ok ⟨regions⟩

def regionOf? (m : RegionMap) (address : Word) : Option Region :=
  m.regions.find? (·.contains address)

def find? (m : RegionMap) (kind : RegionKind) : Option Region :=
  m.regions.find? (·.kind == kind)

end RegionMap

end PagedMachine

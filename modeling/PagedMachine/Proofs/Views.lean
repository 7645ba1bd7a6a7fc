import PagedMachine.Proofs.Runs

/-!
# What processes find

The byte that a process finds at an address is in the frame or slot of its page.
It is the byte of virtual memory.
-/

namespace PagedMachine

namespace PagedMemory

def mappingIn? (m : PagedMemory) (pid page : Word) : Option Mapping :=
  (m.processes.find? pid).bind (·.find? page)

theorem mappingIn?_some {m : PagedMemory} {pid page : Word} {mp : Mapping} :
    m.mappingIn? pid page = some mp ↔
    ∃ d, m.processes.find? pid = some d ∧ d.find? page = some mp := Option.bind_eq_some_iff

section
variable {m m' : PagedMemory} {pid page : Word} {d : Directory} {mp : Mapping}

theorem mappingIn?_congr (hp : m'.processes = m.processes) (q page : Word) :
    m'.mappingIn? q page = m.mappingIn? q page := by
  rw [mappingIn?, mappingIn?, hp]

theorem mappingIn?_changed {f : Directory → Directory}
    (hp : m'.processes = m.processes.update pid f)
    (hd : m.processes.find? pid = some d) (q page : Word) :
    m'.mappingIn? q page = if q = pid then (f d).find? page else m.mappingIn? q page := by
  rw [mappingIn?, hp, Table.find?_update]
  by_cases hq : q = pid
  · subst hq
    rw [if_pos rfl, if_pos rfl, hd]
    rfl
  · rw [if_neg hq, if_neg hq]
    rfl

theorem mappingIn?_update {f : Directory → Directory} (hp : m'.processes = m.processes.update pid f)
    (hd : m.processes.find? pid = some d) {new : Mapping}
    (hf : ∀ page', (f d).find? page' = if page' = page then some new else d.find? page')
    (q page' : Word) : m'.mappingIn? q page' =
      if q = pid ∧ page' = page then some new else m.mappingIn? q page' := by
  rw [mappingIn?_changed hp hd]
  by_cases hq : q = pid
  · subst hq
    rw [if_pos rfl, hf, mappingIn?, hd]
    by_cases hpage : page' = page <;> simp [hpage]
  · rw [if_neg hq, if_neg fun h => hq h.1]

theorem find?_update_own (hmp : d.find? page = some mp) (frame page' : Word) :
    Table.find? (d.update page (own frame)) page' =
      if page' = page then some (own frame mp) else d.find? page' := by
  rw [Table.find?_update]
  by_cases hpage : page' = page
  · rw [if_pos hpage, if_pos hpage, hpage, hmp]
    rfl
  · rw [if_neg hpage, if_neg hpage]

end

/-- The byte that a process finds at an address, wherever its page is. -/
def byte? (m : PagedMemory) (pid address : Word) : Option UInt8 :=
  (m.mappingIn? pid address.page).map fun mp => m.byteAt mp.location address.pageOffset

def exposes (m : PagedMemory) (address q a : Word) : Bool :=
  match m.mapping? address.page, m.mappingIn? q a.page with
  | some mp, some mp' =>
    !mp.copyOnWrite && mp'.location == mp.location && a.pageOffset == address.pageOffset
  | _, _ => false

namespace RepresentedBy

variable {name : Location → Nat} {m : PagedMemory} {v : Virtual.Memory}

theorem mappingIn? (h : RepresentedBy name m v) (pid page : Word) :
    v.mapping? pid page = (m.mappingIn? pid page).map (·.rename name) := by
  rw [Virtual.Memory.mapping?, h.find?_processes, PagedMemory.mappingIn?]
  cases m.processes.find? pid with
  | none => rfl
  | some d => exact Table.find?_map ..

theorem mappingsOf_mappingIn {pid page : Word} {mp : Mapping}
    (hm : m.mappingIn? pid page = some mp) : m.mappingsOf mp.location ≠ 0 := by
  obtain ⟨d, hd, hm⟩ := mappingIn?_some.mp hm
  exact mappingsOf_ne_zero hd hm

theorem byte? (h : RepresentedBy name m v) (pid address : Word) :
    v.byte? pid address = m.byte? pid address := by
  rw [Virtual.Memory.byte?, h.mappingIn?, PagedMemory.byte?, Option.map_map]
  exact Option.map_congr fun mp hm =>
    h.contents _ (mappingsOf_mappingIn hm) (Virtual.offset address)

theorem isFresh (h : RepresentedBy name m v) : v.Fresh := by
  intro pid page mp hm
  rw [h.mappingIn?] at hm
  obtain ⟨mp', hm', rfl⟩ := Option.map_eq_some_iff.mp hm
  exact h.fresh _ (mappingsOf_mappingIn hm')

theorem exposes (h : RepresentedBy name m v) (address q a : Word) :
    v.exposes address q a = m.exposes address q a := by
  rw [Virtual.Memory.exposes, PagedMemory.exposes, h.find?, h.mappingIn?]
  cases hm : m.mapping? address.page with
  | none => rfl
  | some mp =>
    cases hm' : m.mappingIn? q a.page with
    | none => rfl
    | some mp' =>
      obtain ⟨pid, d, hc, hd, hmp⟩ := mapping?_some.mp hm
      have hname : name mp'.location = name mp.location ↔ mp'.location = mp.location :=
        ⟨h.distinct _ _ (mappingsOf_mappingIn hm') (mappingsOf_ne_zero hd hmp), congrArg name⟩
      have hoffset : Virtual.offset a = Virtual.offset address ↔
          a.pageOffset = address.pageOffset := Fin.ext_iff
      simp only [Option.map_some, Mapping.rename, Bool.beq_eq_decide_eq, hname, hoffset]

end RepresentedBy

namespace Represents

variable {m : PagedMemory} {v : Virtual.Memory} (hv : Represents m v)
include hv

theorem byte? (pid address : Word) : v.byte? pid address = m.byte? pid address := by
  obtain ⟨name, hv⟩ := hv
  exact hv.byte? pid address

theorem isFresh : v.Fresh := by
  obtain ⟨name, hv⟩ := hv
  exact hv.isFresh

theorem exposes (address q a : Word) : v.exposes address q a = m.exposes address q a := by
  obtain ⟨name, hv⟩ := hv
  exact hv.exposes address q a

theorem current : v.current = m.current := by
  obtain ⟨name, hv⟩ := hv
  exact hv.current

theorem find?_next (h : Consistent m) : v.processes.find? v.nextPid = none := by
  obtain ⟨name, hv⟩ := hv
  rw [hv.find?_processes, hv.nextPid, find?_nextPid h.fresh]
  rfl

end Represents

end PagedMemory

/-! ## Regions -/

def Bus.Serves (b : Bus) (kind : RegionKind) (address : Word) : Prop :=
  ∃ region, b.regions.regionOf? address = some region ∧ region.kind = kind

end PagedMachine

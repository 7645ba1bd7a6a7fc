import PagedMachine.Proofs.Behaviour
import PagedMachine.Proofs.Books

/-!
# Consistent paged memory

The devices and pools fit each other, the books agree with the directories, the
current process is alive and the next number is above all numbers in use. No
operation faults for any other reason than its arguments and a lack of pages.
-/

namespace PagedMachine

namespace PagedMemory

/-- The pools lie within the devices, and the two frame pools apart from each other. -/
structure Layout (m : PagedMemory) : Prop where
  kind : ∀ k, (m.pool k).kind = k
  apart : ∀ frame, m.userPool.owns frame → ¬ m.kernelPool.owns frame
  inhabited : ∀ k, k ≠ .disk → ∃ frame, (m.pool k).owns frame
  frames : ∀ k frame, k ≠ .disk → (m.pool k).owns frame → frame.toNat < Ram.pageCount m.ram
  slots : ∀ slot, m.diskPool.owns slot → slot.toNat < Disk.slotCount m.disk
  ram : m.ram.base.toNat + m.ram.size ≤ 2 ^ 32
  disk : m.disk.base = 0

structure SameExtent (m m' : PagedMemory) : Prop where
  range : m'.range = m.range
  ramBase : m'.ram.base = m.ram.base
  ramSize : m'.ram.size = m.ram.size
  diskBase : m'.disk.base = m.disk.base
  diskSize : m'.disk.size = m.disk.size

theorem SameExtent.refl (m : PagedMemory) : SameExtent m m := ⟨rfl, rfl, rfl, rfl, rfl⟩

theorem SameExtent.trans {m m' m'' : PagedMemory} (h : SameExtent m m') (h' : SameExtent m' m'') :
    SameExtent m m'' :=
  ⟨h'.range.trans h.range, h'.ramBase.trans h.ramBase, h'.ramSize.trans h.ramSize,
    h'.diskBase.trans h.diskBase, h'.diskSize.trans h.diskSize⟩

namespace Layout

variable {m m' : PagedMemory}

theorem of_sameExtent (h : Layout m) (e : SameExtent m m') : Layout m' := by
  have owns := Paging.owns_pool_of_range e.range
  refine ⟨fun k => ?_, fun f hu hk => ?_, fun k hk => ?_, fun k f hk hf => ?_, fun s hs =>
    ?_, ?_, ?_⟩
  · have hk := congrFun e.range k
    simp only [Paging.range, Prod.mk.injEq] at hk
    rw [hk.1, h.kind]
  · exact h.apart f ((owns .user f).symm.trans hu) ((owns .kernel f).symm.trans hk)
  · obtain ⟨f, hf⟩ := h.inhabited k hk
    exact ⟨f, (owns k f).trans hf⟩
  · have := h.frames k f hk ((owns k f).symm.trans hf)
    rwa [Ram.pageCount_congr e.ramSize]
  · have := h.slots s ((owns .disk s).symm.trans hs)
    rwa [Disk.slotCount, e.diskSize]
  · rw [e.ramBase, e.ramSize]; exact h.ram
  · rw [e.diskBase]; exact h.disk

theorem frame_lt (h : Layout m) {frame : Word} (ho : m.owns (.frame frame)) :
    frame.toNat < Ram.pageCount m.ram :=
  h.frames (m.framePool frame) frame (m.framePool_ne_disk frame) ho

theorem slot_lt (h : Layout m) {slot : Word} (ho : m.owns (.slot slot)) :
    slot.toNat < Disk.slotCount m.disk :=
  h.slots slot ho

theorem framePool_of_owns (h : Layout m) {k : PoolKind} (hk : k ≠ .disk) {frame : Word}
    (ho : (m.pool k).owns frame) : m.framePool frame = k := by
  cases k with
  | user => exact if_pos ho
  | kernel => exact if_neg fun hu => h.apart frame hu ho
  | disk => exact absurd rfl hk

end Layout

structure Consistent (m : PagedMemory) : Prop where
  layout : Layout m
  books : Books m.toPaging m.mappingsOf
  current : ∀ pid, m.current = some pid → m.processes.contains pid
  fresh : ∀ pid, m.processes.contains pid → pid < m.nextPid

/-- The same processes with other directories, and books that agree with these. -/
theorem Consistent.of_books {m m' : PagedMemory} (h : Consistent m) (e : SameExtent m m')
    (books : Books m'.toPaging m'.mappingsOf) (current : m'.current = m.current)
    (nextPid : m'.nextPid = m.nextPid)
    (processes : ∀ pid, m'.processes.contains pid = m.processes.contains pid) : Consistent m' where
  layout := h.layout.of_sameExtent e
  books := books
  current pid hp := by
    rw [processes]
    exact h.current pid (current ▸ hp)
  fresh pid hp := by
    rw [processes] at hp
    exact nextPid ▸ h.fresh pid hp

/-! ## The current process -/

def changed (m : PagedMemory) (pid : Word) (f : Directory → Directory) : PagedMemory :=
  { m with processes := m.processes.update pid f }

theorem sameExtent_changed (m : PagedMemory) (pid : Word) (f : Directory → Directory) :
    SameExtent m (m.changed pid f) :=
  ⟨rfl, rfl, rfl, rfl, rfl⟩

section
variable {m : PagedMemory} {pid page : Word} {d : Directory}

theorem currentDirectory_ok : m.currentDirectory = .ok d ↔
    ∃ pid, m.current = some pid ∧ m.processes.find? pid = some d := by
  rw [Paging.currentDirectory]
  cases m.current with
  | none => simp
  | some pid => cases hd : m.processes.find? pid <;> simp [hd]

theorem checkPage_error {e : Fault} (he : Paging.checkPage page = .error e) :
    e = .memoryOutOfBounds page := by
  unfold Paging.checkPage at he
  split at he
  · cases he
  · exact (Except.error.inj he).symm

/-! No lookup faults for want of pages. -/

theorem checkPage_kind : ∀ e, Paging.checkPage page = .error e → e.kind ≠ .resourceExhausted := by
  intro e he
  rw [checkPage_error he]
  nofun

theorem currentDirectory_kind : ∀ e, m.currentDirectory = .error e →
    e.kind ≠ .resourceExhausted := by
  intro e he
  unfold Paging.currentDirectory at he
  split at he
  · cases he
    nofun
  · split at he
    · cases he
      nofun
    · cases he

theorem mappingOf_kind : ∀ e, m.mappingOf page = .error e → e.kind ≠ .resourceExhausted := by
  intro e he
  rw [Paging.mappingOf] at he
  cases hcheck : Paging.checkPage page with
  | error e' =>
    rw [hcheck] at he
    cases he
    exact checkPage_kind e hcheck
  | ok _ =>
    cases hcur : m.currentDirectory with
    | error e' =>
      rw [hcheck, hcur] at he
      cases he
      exact currentDirectory_kind e hcur
    | ok d =>
      cases hf : d.find? page with
      | none =>
        simp only [hcheck, hcur, bind, Except.bind, hf] at he
        cases he
        nofun
      | some mp => simp [hcheck, hcur, bind, Except.bind, hf] at he

theorem updateCurrent_run (hc : m.current = some pid) (hd : m.processes.find? pid = some d)
    (f : Directory → Directory) : (updateCurrent f).run m = .ok () (m.changed pid f) := by
  rw [updateCurrent, get_bind, bind_ok (outcome_ok (currentDirectory_ok.mpr ⟨pid, hc, hd⟩) m)]
  change EStateM.Result.ok () _ = _
  simp only [hc, changed]

theorem find?_changed (hd : m.processes.find? pid = some d) (f : Directory → Directory) :
    (m.changed pid f).processes.find? pid = some (f d) := by
  rw [changed, Table.find?_update, if_pos rfl, hd, Option.map_some]

theorem updateCurrent_error {e : Fault} (he : m.currentDirectory = .error e)
    (f : Directory → Directory) : (updateCurrent f).run m = .error e m := by
  rw [updateCurrent, get_bind, bind_error (outcome_error he m)]

theorem mapping?_eq (hc : m.current = some pid) (hd : m.processes.find? pid = some d)
    (page : Word) : m.mapping? page = d.find? page := by
  rw [Paging.mapping?, currentDirectory_ok.mpr ⟨pid, hc, hd⟩]

end

/-! ## Contents -/

def byteAt (m : PagedMemory) : Location → Nat → UInt8
  | .frame frame, offset => m.ram.byte (frame.toNat * pageSize + offset)
  | .slot slot, offset => m.disk.byte (slot.toNat * pageSize + offset)

section
variable {m : PagedMemory} (h : Consistent m) {page : List UInt8} (hp : page.length = pageSize)
include h hp

theorem Consistent.byteAt_storeFrame {frame : Word} (ho : m.owns (.frame frame)) (l : Location)
    {o : Nat} (hlt : o < pageSize) :
    { m with ram := m.ram.patch (frame.toNat * pageSize) page }.byteAt l o =
      if l = .frame frame then page.getD o 0 else m.byteAt l o := by
  cases l with
  | slot t => rw [if_neg nofun]; rfl
  | frame g =>
    simp only [Location.frame.injEq]
    exact ByteStore.byte_patch_page (Ram.lt_of_pageCount (h.layout.frame_lt ho)) hp hlt g

theorem Consistent.byteAt_storeSlot {slot : Word} (ho : m.owns (.slot slot)) (l : Location)
    {o : Nat} (hlt : o < pageSize) :
    { m with disk := m.disk.patch (slot.toNat * pageSize) page }.byteAt l o =
      if l = .slot slot then page.getD o 0 else m.byteAt l o := by
  cases l with
  | frame g => rw [if_neg nofun]; rfl
  | slot t =>
    simp only [Location.slot.injEq]
    exact ByteStore.byte_patch_page (Disk.lt_of_slotCount (h.layout.slot_lt ho)) hp hlt t

end

def pageAt (m : PagedMemory) : Location → List UInt8
  | .frame frame => m.ram.slice (frame.toNat * pageSize) pageSize
  | .slot slot => m.disk.slice (slot.toNat * pageSize) pageSize

theorem length_pageAt (m : PagedMemory) (l : Location) : (m.pageAt l).length = pageSize := by
  cases l <;> exact ByteStore.length_slice _ _ _

theorem getD_pageAt (m : PagedMemory) (l : Location) {offset : Nat} (ho : offset < pageSize) :
    (m.pageAt l).getD offset 0 = m.byteAt l offset := by
  cases l <;> exact ByteStore.getD_slice _ _ ho

end PagedMemory

end PagedMachine

import PagedMachine.Proofs.Runs

/-!
# Exact books

Along every run of paged memory the counts are the numbers of mappings, the pools
hold what is not mapped, and the queue holds the frames that are. So no operation
ever finds the books at fault, and a page is free again when its last mapping is
gone and not before.
-/

namespace PagedMachine

namespace PagedMemory

/-- The books say of every frame and slot what the directories say. -/
structure ExactBooks (m : PagedMemory) : Prop where
  frames : ∀ frame, m.frameRefs.find? frame =
    if m.mappingsOf (.frame frame) = 0 then none else some (m.mappingsOf (.frame frame))
  slots : ∀ slot, m.slotRefs.find? slot =
    if m.mappingsOf (.slot slot) = 0 then none else some (m.mappingsOf (.slot slot))
  user : ∀ frame, m.userPool.owns frame → (m.userPool.isFree frame ↔ m.frameRefs.find? frame = none)
  kernel : ∀ frame, m.kernelPool.owns frame →
    (m.kernelPool.isFree frame ↔ m.frameRefs.find? frame = none)
  disk : ∀ slot, m.diskPool.owns slot → (m.diskPool.isFree slot ↔ m.slotRefs.find? slot = none)
  once : m.resident.Nodup
  queue : ∀ frame, frame ∈ m.resident ↔ m.frameRefs.contains frame
  current : ∀ pid, m.current = some pid → m.processes.contains pid

def Released (l : Location) (m m' : PagedMemory) : Prop := ¬ m.isFree l ∧ m'.isFree l

def LastGone (l : Location) (m m' : PagedMemory) : Prop := m.mappingsOf l ≠ 0 ∧ m'.mappingsOf l = 0

variable {m m' : PagedMemory}

theorem Consistent.isFree_frame (h : Consistent m) (kind : PoolKind) (hk : kind ≠ .disk)
    {frame : Word} (ho : (m.pool kind).owns frame) : (m.pool kind).isFree frame ↔
    m.frameRefs.find? frame = none := by
  have hpool := h.layout.framePool_of_owns hk ho
  subst hpool
  have hcount : m.frameRefs.find? frame = if m.mappingsOf (.frame frame) = 0 then none else _ :=
    h.books.counted (.frame frame)
  refine (h.books.free (.frame frame) ho).trans ?_
  rw [hcount]
  split <;> simp [*]

theorem Consistent.exactBooks (h : Consistent m) : ExactBooks m where
  frames frame := h.books.counted (.frame frame)
  slots slot := h.books.counted (.slot slot)
  user frame ho := h.isFree_frame .user nofun ho
  kernel frame ho := h.isFree_frame .kernel nofun ho
  disk slot ho := by
    have hcount : m.slotRefs.find? slot = if m.mappingsOf (.slot slot) = 0 then none else _ :=
      h.books.counted (.slot slot)
    refine (h.books.free (.slot slot) ho).trans ?_
    rw [hcount]
    split <;> simp [*]
  once := h.books.nodup
  queue frame := by
    have hcount : m.frameRefs.find? frame = if m.mappingsOf (.frame frame) = 0 then none else _ :=
      h.books.counted (.frame frame)
    rw [h.books.queued, Table.contains, hcount]
    split <;> simp [*]
  current := h.current

theorem Consistent.released_iff (h : Consistent m) (h' : Consistent m')
    (hrange : m'.range = m.range) {l : Location} (ho : m.owns l) : Released l m m' ↔
    LastGone l m m' := by
  have ho' : m'.owns l := by rwa [Paging.owns_of_range hrange]
  rw [Released, LastGone, h.books.free l ho, h'.books.free l ho']

structure KeepsBooks (m : PagedMemory) (e : Event PagedMemory PagingOperation Answer) : Prop where
  exact : ExactBooks e.state
  sound : ∀ pool page, e.answer ≠ .error (.consistencyFault pool page)
  released : ∀ l, m.owns l → (Released l m e.state ↔ LastGone l m e.state)

/-- The books are exact when a memory is new and after every operation of a run. -/
theorem books_exact {ram : Ram} {disk : Disk} {ranges : PageRanges} {p : Paging} {m : PagedMemory}
    {es : List (Event PagedMemory PagingOperation Answer)}
    (hp : Paging.ofDevices ram disk ranges = .ok p)
    (hdisk : disk.base = 0) (hram : ram.base.toNat + ram.size ≤ 2 ^ 32)
    (hrun : Run PagingOperation.Step ⟨p, ram⟩ es m) (hpids : creations es < 2 ^ 32 - 1)
    (hcounts : ∀ e ∈ es, WithinCounts e.state) :
    ExactBooks ⟨p, ram⟩ ∧ Along KeepsBooks ⟨p, ram⟩ es := by
  obtain ⟨hfits, rfl⟩ := Paging.ofDevices_ok hp
  have hstart : Consistent ⟨Paging.unmapped disk ranges, ram⟩ :=
    consistent_unmapped hfits hram hdisk
  have hrepresents := represents_unmapped disk ranges ram
  refine ⟨hstart.exactBooks, ?_⟩
  have hbudget : (Paging.unmapped disk ranges).nextPid.toNat + creations es < 2 ^ 32 := by
    change 1 + creations es < 2 ^ 32
    omega
  refine Run.along (fun m => m.nextPid.toNat) (I := fun m => Consistent m ∧ ∃ v,
    Represents m v) ?_ es
    ⟨hstart, _, hrepresents⟩ hbudget hcounts hrun
  rintro op m r m' ⟨h, v, hv⟩ hstep hwithin hpid
  obtain ⟨v', -, hfollows, hnumber, hfault⟩ := h.step hv hstep hwithin hpid
  refine ⟨⟨hfollows.consistent, v', hfollows.represents⟩, hnumber,
    hfollows.consistent.exactBooks, ?_, ?_⟩
  · rintro pool page rfl
    exact (hfault _ rfl).1 rfl
  · exact fun l ho => h.released_iff hfollows.consistent hfollows.extent.range ho

end PagedMemory

open TwoReaders (ram) in
theorem LastSlot.books_exact_throughout : PagedMemory.ExactBooks (start disk ram) ∧
    Along PagedMemory.KeepsBooks (start disk ram) (parting disk ram) :=
  PagedMemory.books_exact (ofDevices rfl TwoReaders.size_ram disk) rfl ram_fits.1
    (run_parting rfl slotCount_disk ram_fits.1 ram_fits.2)
      (by decide : 2 < 2 ^ 32 - 1) withinCounts_parting

end PagedMachine

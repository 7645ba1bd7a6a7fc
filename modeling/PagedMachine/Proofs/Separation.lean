import PagedMachine.Proofs.Refusals

/-!
# Kernel memory apart from user memory

The pool of a frame is chosen in three ways: by the permissions of a new page, by
those of whichever mapping a page is brought in for, and by the frame that is
copied. They agree because all mappings of a frame or slot have the same
permissions. So kernel pages are in kernel frames, other pages are in user frames,
and no user program is granted an address in a kernel frame.
-/

namespace PagedMachine

namespace PagedMemory

variable {m m' : PagedMemory} {v : Virtual.Memory} {page address frame frame' physical : Word}
    {access : Access}

def InFrame (ram : Ram) (frame physical : Word) : Prop :=
  ∃ offset < pageSize, physical.toNat = ram.base.toNat + (frame.toNat * pageSize + offset)

theorem InFrame.unique {ram : Ram} (h : InFrame ram frame physical)
    (h' : InFrame ram frame' physical) : frame = frame' := by
  obtain ⟨o, ho, he⟩ := h
  obtain ⟨o', ho', he'⟩ := h'
  unfold pageSize at *
  exact UInt32.toNat_inj.mp (by omega)

theorem Layout.inFrame (h : Layout m) (howns : m.userPool.owns frame = true) (address : Word) :
    InFrame m.ram frame (Ram.frameAddress m.ram frame + UInt32.ofNat address.pageOffset) :=
  have hoffset : address.pageOffset < pageSize := Nat.mod_lt _ (by decide)
  ⟨address.pageOffset, hoffset,
    Ram.toNat_frameAddress_add h.ram (h.frames .user frame nofun howns) hoffset⟩

/-- A page that is in a frame is in one of its pool. -/
theorem Housed.owns (hm : Housed m) (h : Consistent m) {mp : Mapping} (hmp : Maps m.processes mp)
    (hl : mp.location = .frame frame) : (m.pool mp.permissions.pool).owns frame = true := by
  have howns : (m.pool (m.framePool frame)).owns frame = true :=
    h.books.owned (.frame frame) (hl ▸ mappingsOf_of_maps hmp)
  rwa [hm.resident mp frame hmp hl] at howns

theorem pool_of_allow_user {p : Permissions} (h : p.allow access .user = true) :
    p.pool = .user := by
  cases hk : p.kernel with
  | false => exact if_neg (by simp [hk])
  | true => simp [Permissions.allow, hk] at h

/-- What a user program is granted is in a user frame. -/
theorem Housed.of_grants (hm : Housed m) (h : Consistent m) (hv : Represents m v)
    (hholds : Holds m page frame) (hg : v.Grants page access .user) :
    m.userPool.owns frame = true := by
  obtain ⟨mp, hmp, hl⟩ := hholds
  obtain ⟨mv, hmv, hallow, -⟩ := hg
  obtain ⟨mv', hmv', hperm, -⟩ := hv.find? hmp
  obtain rfl : mv = mv' := Option.some.inj (hmv.symm.trans hmv')
  have howns := hm.owns h (maps_of_mapping? hmp) hl
  rwa [pool_of_allow_user (hperm ▸ hallow)] at howns

theorem Consistent.translate_user (h : Consistent m) (hv : Represents m v) (hm : Housed m)
    (hstep : Yields (PagedMemory.translate address access .user) m (.ok physical) m') :
    ∃ frame, m'.userPool.owns frame = true ∧
      physical = Ram.frameAddress m'.ram frame + UInt32.ofNat address.pageOffset ∧
      SameExtent m m' := by
  rcases h.translate hv address access .user with
    ⟨a, _, m₁, v₁, hrun, -, hfollows, ⟨frame, hholds, ha⟩, hg⟩ | ⟨e, _, _, hrun, -⟩
  · obtain ⟨ha', rfl⟩ := hstep.eq_of_ok hrun
    obtain rfl := Except.ok.inj ha'
    have hm' : Housed m' := by
      obtain ⟨_, hresolve⟩ := yields_of_physical hstep
      exact h.housed_resolve hv hm hresolve
    exact ⟨frame, hm'.of_grants hfollows.consistent hfollows.represents hholds hg, ha,
      hfollows.extent⟩
  · cases (hstep.eq_of_error hrun).1

/-! ## In every run -/

/-- User pages and kernel pages share no frame, and no user program gets hold of a kernel frame. -/
structure Separated (ram : Ram) (ranges : PageRanges) (m : PagedMemory) : Prop where
  agree : ∀ mp mp', Maps m.processes mp → Maps m.processes mp' → mp.location = mp'.location →
    mp.permissions = mp'.permissions
  kernel : ∀ mp frame, Maps m.processes mp → mp.location = .frame frame →
    mp.permissions.kernel = true →
    ranges.kernelLow ≤ frame ∧ frame ≤ ranges.kernelHigh
  user : ∀ mp frame, Maps m.processes mp → mp.location = .frame frame →
    mp.permissions.kernel = false →
    ranges.userLow ≤ frame ∧ frame ≤ ranges.userHigh
  granted :
    ∀ address access physical m', Yields (translate address access .user) m (.ok physical) m' →
    ∀ frame, ranges.kernelLow ≤ frame → frame ≤ ranges.kernelHigh → ¬ InFrame ram frame physical

section
variable {ram : Ram} {disk : Disk} {ranges : PageRanges} {p : Paging}
    {es : List (Event PagedMemory PagingOperation Answer)}
  (hp : Paging.ofDevices ram disk ranges = .ok p) (hdisk : disk.base = 0)
  (hram : ram.base.toNat + ram.size ≤ 2 ^ 32) (hrun : Run PagingOperation.Step ⟨p, ram⟩ es m)
  (hpids : creations es < 2 ^ 32 - 1) (hcounts : ∀ e ∈ es, WithinCounts e.state)
include hp hdisk hram hrun hpids hcounts

theorem sameExtent_of_run : SameExtent ⟨p, ram⟩ m := by
  obtain ⟨hfits, rfl⟩ := Paging.ofDevices_ok hp
  have hkeeps := hrun.preserves (fun m => m.nextPid.toNat)
    (I := fun m => Consistent m ∧ (∃ v, Represents m v) ∧
      SameExtent ⟨Paging.unmapped disk ranges, ram⟩ m)
    (F := fun e => WithinCounts e.state) fun op m r m' ⟨h, ⟨v, hv⟩, he⟩ hstep hwithin hpid => by
      obtain ⟨v', -, hfollows, hnumber, -⟩ := h.step hv hstep hwithin hpid
      exact ⟨⟨hfollows.consistent, ⟨v', hfollows.represents⟩, he.trans hfollows.extent⟩, hnumber⟩
  have hbudget : (Paging.unmapped disk ranges).nextPid.toNat + creations es < 2 ^ 32 := by
    change 1 + creations es < 2 ^ 32
    omega
  exact (hkeeps ⟨consistent_unmapped hfits hram hdisk, ⟨_, represents_unmapped disk ranges ram⟩,
    .refl _⟩ hbudget hcounts).1.2.2

/-- In every state that a run reaches, kernel memory is apart from user memory. -/
theorem kernel_memory_apart : Separated ram ranges m := by
  obtain ⟨h, ⟨v, hv⟩, hm⟩ := housed_of_run hp hdisk hram hrun hpids hcounts
  have hextent := sameExtent_of_run hp hdisk hram hrun hpids hcounts
  obtain ⟨-, rfl⟩ := Paging.ofDevices_ok hp
  -- the pools still own what the ranges gave them
  have huser : ∀ frame, m.userPool.owns frame = true ↔
      ranges.userLow ≤ frame ∧ frame ≤ ranges.userHigh := by
    intro frame
    rw [show m.userPool.owns frame = _ from Paging.owns_pool_of_range hextent.range .user frame]
    exact Bool.and_eq_true_iff.trans (and_congr decide_eq_true_iff decide_eq_true_iff)
  have hkernel : ∀ frame, m.kernelPool.owns frame = true ↔
      ranges.kernelLow ≤ frame ∧ frame ≤ ranges.kernelHigh := by
    intro frame
    rw [show m.kernelPool.owns frame = _ from Paging.owns_pool_of_range hextent.range .kernel frame]
    exact Bool.and_eq_true_iff.trans (and_congr decide_eq_true_iff decide_eq_true_iff)
  refine ⟨hm.agree, fun mp frame hmp hl hk => ?_, fun mp frame hmp hl hk => ?_, ?_⟩
  · have howns := hm.owns h hmp hl
    rw [Permissions.pool, if_pos hk] at howns
    exact (hkernel frame).mp howns
  · have howns := hm.owns h hmp hl
    rw [Permissions.pool, if_neg (by simp [hk])] at howns
    exact (huser frame).mp howns
  · intro address access physical m' hstep frame hlow hhigh hin
    obtain ⟨g, hg, rfl, hextent'⟩ := h.translate_user hv hm hstep
    have hlayout := h.layout.of_sameExtent hextent'
    have hin' := hlayout.inFrame hg address
    rw [InFrame, hextent'.ramBase, hextent.ramBase] at hin'
    obtain rfl := hin.unique hin'
    have hkernel' := Paging.owns_pool_of_range hextent'.range .kernel frame
    exact hlayout.apart frame hg (hkernel'.trans ((hkernel frame).mpr ⟨hlow, hhigh⟩))

end

end PagedMemory

/-! ## A kernel page

A process with one user page and one kernel page, on the machine of the two readers.
-/

namespace KernelPage

open PagedMemory TwoReaders

def kernelDirectory : Directory :=
  (Table.empty.insert 0x400 ⟨.frame 0, .readWrite, false⟩).insert 0x401
    ⟨.frame 6, .kernelOnly .readWrite, false⟩

section
variable (disk : Disk) (ram : Ram)

def guarded : PagedMemory :=
  { mappedAs disk ram .readWrite with
    kernelPool :=
      { (Pool.ofRange .kernel 6 7) with free := (Pool.ofRange .kernel 6 7).free.erase 6 }
    frameRefs := (Table.empty.insert 0 1).insert 6 1
    resident := [0, 6]
    processes := Table.empty.insert 1 kernelDirectory
    ram := (ram.patch 0 zeroPage).patch (6 * pageSize) zeroPage }

def guardedEvents : List (Event PagedMemory PagingOperation Answer) :=
  [⟨.beginProcess, .ok (.process 1), begun disk ram⟩,
    ⟨.addPage 0x400 .readWrite false, .ok .done, mappedAs disk ram .readWrite⟩,
    ⟨.addPage 0x401 (.kernelOnly .readWrite) false, .ok .done, guarded disk ram⟩]

theorem step_addKernelPage (hram : ram.base.toNat + ram.size ≤ 2 ^ 32)
    (hcount : 6 < Ram.pageCount ram) :
    (PagingOperation.addPage 0x401 (.kernelOnly .readWrite) false).Step
      (mappedAs disk ram .readWrite) (.ok .done) (guarded disk ram) := by
  have hextent : (ram.patch 0 zeroPage).size = ram.size := ByteStore.size_patch ..
  have hwrite : (Ram.writeFrame 6 zeroPage).run (ram.patch 0 zeroPage) =
      .ok () ((ram.patch 0 zeroPage).patch (6 * pageSize) zeroPage) :=
    Ram.writeFrame_ok (by rwa [ByteStore.base_patch, hextent])
      (by rwa [Ram.pageCount_patch]) length_zeroPage
  have htake :
      (takeFrame (Permissions.kernelOnly .readWrite).pool none).run (mappedAs disk ram .readWrite) =
      .ok 6 ((mappedAs disk ram .readWrite).handOut 6) := rfl
  have hadd : (addPage 0x401 (.kernelOnly .readWrite) false).run (mappedAs disk ram .readWrite) =
      .ok 6 (guarded disk ram) :=
    (addPage_run (d := Table.empty.insert 0x400 ⟨.frame 0, .readWrite, false⟩) rfl rfl rfl).trans
      (newPage_run htake hwrite rfl rfl)
  exact map_ok hadd

theorem guarded_run (hram : ram.base.toNat + ram.size ≤ 2 ^ 32) (hcount : 6 < Ram.pageCount ram) :
    Run PagingOperation.Step (start disk ram) (guardedEvents disk ram) (guarded disk ram) :=
  .next rfl (.next (step_addPageAs disk ram rfl hram (Nat.zero_lt_of_lt hcount))
    (.next (step_addKernelPage disk ram hram hcount) (.done _)))

theorem guarded_withinCounts : ∀ e ∈ guardedEvents disk ram, WithinCounts e.state := by
  intro e he
  apply withinCounts_of_size
  simp only [guardedEvents, List.mem_cons, List.not_mem_nil, or_false] at he
  rcases he with rfl | rfl | rfl
  · exact Nat.zero_le _
  · exact (by decide : 1 ≤ maxRefs)
  · exact (by decide : 2 ≤ maxRefs)

end

theorem pages_in_ram : 6 < Ram.pageCount ram := by
  rw [Ram.pageCount, size_ram]
  decide

theorem kernel_page_apart : Separated ram ranges (guarded disk ram) :=
  kernel_memory_apart (ofDevices rfl size_ram disk) rfl ram_fits.1
    (guarded_run disk ram ram_fits.1 pages_in_ram)
    (by decide : 1 < 2 ^ 32 - 1) (guarded_withinCounts disk ram)

end KernelPage

end PagedMachine

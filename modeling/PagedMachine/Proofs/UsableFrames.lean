import PagedMachine.Proofs.Runs
import PagedMachine.Proofs.Stability

/-!
# Usable frames

A RAM may be so near the end of the address space that its frames wrap past the last
address, and it is accepted all the same: its pages are counted, and their addresses
are not looked at. The frames up to the last address are usable, those past it are
not, to the last byte; no two share an address. A new page can be had exactly if the
frame whose turn it is does not wrap.
-/

namespace PagedMachine

namespace Ram

variable {ram ram' : Ram} {frame g : Word}

/-- The frame begins before the end of the address space. -/
def InReach (ram : Ram) (frame : Word) : Prop := ram.base.toNat + frame.toNat * pageSize < 2 ^ 32

instance (ram : Ram) (frame : Word) : Decidable (ram.InReach frame) :=
  inferInstanceAs (Decidable (_ < _))

def Usable (ram : Ram) (frame : Word) : Prop := ∀ offset < pageSize,
  (∃ value, ram.read (frameAddress ram frame + UInt32.ofNat offset) .byte = .ok value) ∧
    ∀ value, ∃ ram',
    (ByteStore.write (frameAddress ram frame + UInt32.ofNat offset) .byte value).run ram =
    .ok () ram'

def Unusable (ram : Ram) (frame : Word) : Prop := ∀ offset < pageSize,
  ram.read (frameAddress ram frame + UInt32.ofNat offset) .byte =
      .error (.memoryOutOfBounds (frameAddress ram frame + UInt32.ofNat offset)) ∧
    ∀ value, (ByteStore.write (frameAddress ram frame + UInt32.ofNat offset) .byte value).run ram =
      .error (.memoryOutOfBounds (frameAddress ram frame + UInt32.ofNat offset)) ram

/-! ## Addresses of a RAM that begins at a page -/

theorem frames_apart (hf : frame.toNat < pageCount ram) (hg : g.toNat < pageCount ram)
    (hne : frame ≠ g) {i j : Nat} (hi : i < pageSize) (hj : j < pageSize) :
    frameAddress ram frame + UInt32.ofNat i ≠ frameAddress ram g + UInt32.ofNat j := by
  intro heq
  have haddress := congrArg UInt32.toNat heq
  rw [toNat_frameAddress_mod hf, toNat_frameAddress_mod hg] at haddress
  have hfend := lt_of_pageCount hf
  have hgend := lt_of_pageCount hg
  have hsize := ram.size_lt
  have hnumber : frame.toNat ≠ g.toNat := fun e => hne (UInt32.toNat_inj.mp e)
  unfold pageSize at *
  omega

section
variable (hbase : ram.base.pageOffset = 0) (hf : frame.toNat < pageCount ram) {offset : Nat}
    (ho : offset < pageSize)
include hbase hf ho

theorem toNat_frameAddress_of_inReach (hreach : ram.InReach frame) :
    (frameAddress ram frame + UInt32.ofNat offset).toNat =
    ram.base.toNat + (frame.toNat * pageSize + offset) := by
  have hlt : ram.base.toNat + (frame.toNat * pageSize + offset) < 2 ^ 32 := by
    -- the frame begins at a page, so it also ends before the last address
    obtain ⟨q, hq⟩ : pageSize ∣ ram.base.toNat + frame.toNat * pageSize :=
      Nat.dvd_add (Nat.dvd_of_mod_eq_zero hbase) (Nat.dvd_mul_left ..)
    unfold InReach at hreach
    rw [← Nat.add_assoc]
    rw [hq] at hreach ⊢
    clear hq
    unfold pageSize at *
    omega
  rw [toNat_frameAddress_mod hf, Nat.mod_eq_of_lt hlt]

/-- What wraps ends up below the RAM. -/
theorem frameAddress_lt_base (hreach : ¬ ram.InReach frame) :
    (frameAddress ram frame + UInt32.ofNat offset).toNat < ram.base.toNat := by
  rw [toNat_frameAddress_mod hf]
  have hend := lt_of_pageCount hf
  have hsize := ram.size_lt
  have hlast := ram.base.toNat_lt
  have haligned : ram.base.toNat % pageSize = 0 := hbase
  unfold InReach at hreach
  unfold pageSize at *
  omega

theorem span_error_of_not_inReach (hreach : ¬ ram.InReach frame) (length : Nat) :
    ram.span (frameAddress ram frame + UInt32.ofNat offset) length =
      .error (.memoryOutOfBounds (frameAddress ram frame + UInt32.ofNat offset)) := by
  have hbelow := frameAddress_lt_base hbase hf ho hreach
  exact if_neg fun hspan => Nat.not_le.mpr hbelow (UInt32.le_iff_toNat_le.mp hspan.1)

end

section
variable (hbase : ram.base.pageOffset = 0) (hf : frame.toNat < pageCount ram)
include hbase hf

theorem usable_of_inReach (hreach : ram.InReach frame) : ram.Usable frame := by
  intro offset ho
  have haddress := toNat_frameAddress_of_inReach hbase hf ho hreach
  have hfits : frame.toNat * pageSize + offset + Width.byte.bytes ≤ ram.size := by
    have hend := lt_of_pageCount hf
    have hone : Width.byte.bytes = 1 := rfl
    omega
  exact ⟨⟨_, ByteStore.read_ok haddress hfits⟩, fun value =>
    ⟨_, ByteStore.write_ok haddress hfits value⟩⟩

theorem unusable_of_not_inReach (hreach : ¬ ram.InReach frame) : ram.Unusable frame := by
  intro offset ho
  have hspan := span_error_of_not_inReach hbase hf ho hreach
  constructor
  · rw [ByteStore.read, ByteStore.readBytes, hspan]
    rfl
  · exact fun value => ByteStore.writeBytes_run_error (hspan _)

theorem writeFrame_of_inReach (hreach : ram.InReach frame) {page : List UInt8}
    (hp : page.length = pageSize) :
    (writeFrame frame page).run ram = .ok () (ram.patch (frame.toNat * pageSize) page) := by
  have haddress := toNat_frameAddress_of_inReach hbase hf (by decide : 0 < pageSize) hreach
  have hend := lt_of_pageCount hf
  exact ByteStore.writeBytes_ok (by simpa using haddress) (by omega)

theorem writeFrame_of_not_inReach (hreach : ¬ ram.InReach frame) (page : List UInt8) :
    (writeFrame frame page).run ram = .error (.memoryOutOfBounds (frameAddress ram frame)) ram := by
  have hspan := span_error_of_not_inReach hbase hf (by decide : 0 < pageSize) hreach page.length
  have hzero : frameAddress ram frame + UInt32.ofNat 0 = frameAddress ram frame := UInt32.add_zero _
  exact ByteStore.writeBytes_run_error (hzero ▸ hspan)

end

end Ram

/-! ## The first free frame -/

theorem Table.le_of_keys {α : Type} {t : Table α} {key first : Word} {rest : List Word}
    (h : t.keys = first :: rest) (hkey : t.contains key) : first ≤ key := by
  have hsorted : t.keys.Pairwise (· < ·) := List.pairwise_map.mpr t.sorted
  have hmem := mem_keys.mpr hkey
  rw [h] at hsorted hmem
  rcases List.mem_cons.mp hmem with rfl | hmem
  · exact UInt32.le_refl _
  · exact UInt32.le_of_lt ((List.pairwise_cons.mp hsorted).1 key hmem)

theorem Permissions.pool_cases (p : Permissions) : p.pool = .user ∨ p.pool = .kernel := by
  unfold pool
  split
  · exact .inr rfl
  · exact .inl rfl

/-! ## Pools and RAM along a run -/

namespace PagedMemory

variable {ram : Ram} {disk : Disk} {ranges : PageRanges} {p : Paging} {m : PagedMemory}

/-- The pools and the RAM are where they were, and only its own pages are free in a pool. -/
structure Bounded (p : Paging) (ram : Ram) (m : PagedMemory) : Prop where
  range : m.range = p.range
  base : m.ram.base = ram.base
  size : m.ram.size = ram.size
  pooled : ∀ kind page, (m.pool kind).isFree page → (m.pool kind).owns page

theorem Bounded.same (h : Bounded p ram m) {m' : PagedMemory}
    (hpool : ∀ kind, m'.pool kind = m.pool kind) (hram : m'.ram = m.ram) : Bounded p ram m' where
  range := by
    rw [← h.range]
    funext kind
    rw [Paging.range, Paging.range, hpool]
  base := hram ▸ h.base
  size := hram ▸ h.size
  pooled kind := hpool kind ▸ h.pooled kind

theorem stable_bounded (p : Paging) (ram : Ram) : Stable (Bounded p ram) where
  ram _ _ h hbase hsize := ⟨h.range, hbase.trans h.base, hsize.trans h.size, h.pooled⟩
  disk _ _ h _ _ := h.same (fun kind => by cases kind <;> rfl) rfl
  pool m kind pool h hpool := by
    obtain ⟨free, rfl, hfree⟩ := hpool
    have hpools := Paging.pool_setPool m.toPaging kind
    refine ⟨?_, h.base, h.size, fun k page hp => ?_⟩
    · rw [← h.range]
      funext k
      simp only [Paging.range, hpools]
      split
      · rename_i hk; rw [hk]
      · rfl
    · simp only [hpools] at hp ⊢
      split at hp
      · rename_i hk
        rw [if_pos hk]
        exact (hfree page hp).elim (h.pooled kind page) id
      · rename_i hk
        rw [if_neg hk]
        exact h.pooled k page hp
  books _ _ _ _ _ h := h.same (fun kind => by cases kind <;> rfl) rfl
  processes _ _ _ h _ := h.same (fun kind => by cases kind <;> rfl) rfl

theorem Bounded.run {es : List (Event PagedMemory PagingOperation Answer)} {m' : PagedMemory}
    (hrun : Run PagingOperation.Step m es m') (h : Bounded p ram m) : Bounded p ram m' := by
  refine hrun.keeps (fun op m r m' hm hstep => ?_) h
  refine (stable_bounded p ram).step (fun m d hm => ?_) m r m' hm hstep
  exact hm.same (fun kind => by cases kind <;> rfl) rfl

theorem bounded_unmapped (disk : Disk) (ranges : PageRanges) (ram : Ram) :
    Bounded (Paging.unmapped disk ranges) ram ⟨Paging.unmapped disk ranges, ram⟩ :=
  ⟨rfl, rfl, rfl, fun kind page => (Paging.isFree_pool_unmapped disk ranges kind page).mp⟩

/-- A free frame of the pool that pages come from is one that the memory was given. -/
theorem Bounded.owns_of_isFree (h : Bounded p ram m) {permissions : Permissions} {frame : Word}
    (hfree : (m.pool permissions.pool).isFree frame) : p.userPool.owns frame ∨
    p.kernelPool.owns frame := by
  have howns := h.pooled _ _ hfree
  rw [Paging.owns_pool_of_range h.range] at howns
  rcases permissions.pool_cases with hk | hk
  · rw [hk] at howns
    exact .inl howns
  · rw [hk] at howns
    exact .inr howns

/-! ## A new page -/

theorem takeFrame_run_first {kind : PoolKind} (pinned : Option Word) {first : Word}
    {rest : List Word} (hkeys : (m.pool kind).free.keys = first :: rest) :
    (takeFrame kind pinned).run m = .ok first
      { m with toPaging :=
        m.setPool kind { m.pool kind with free := (m.pool kind).free.erase first } } := by
  rw [takeFrame_eq, bind_ok (makeRoom_run_free pinned ⟨first, Pool.isFree_of_keys hkeys⟩)]
  exact onPool_allocate_ok hkeys

/-- The new page gets the first free frame, if that is in reach. -/
theorem addPage_first {pid page first : Word} {rest : List Word} {permissions : Permissions}
    (copyOnWrite : Bool) (hbase :
      m.ram.base.pageOffset = 0) (hfirst : first.toNat < Ram.pageCount m.ram)
      (hc : m.current = some pid)
    (hd : m.processes.find? pid = some .empty) (hpage : page ≤ maxPage)
    (hkeys : (m.pool permissions.pool).free.keys = first :: rest) :
    if m.ram.InReach first then ∃ m', (addPage page permissions copyOnWrite).run m = .ok first m'
    else ∃ m', (addPage page permissions copyOnWrite).run m =
      .error (.memoryOutOfBounds (Ram.frameAddress m.ram first)) m' := by
  have hcheck : Paging.checkPage page = .ok () := if_pos hpage
  have hadd :
      (addPage page permissions copyOnWrite).run m = (newPage page permissions copyOnWrite).run m :=
    addPage_run hcheck (currentDirectory_ok.mpr ⟨pid, hc, hd⟩) rfl
  rw [hadd, newPage, bind_ok (takeFrame_run_first none hkeys)]
  split
  · rename_i hreach
    have hwrite := Ram.writeFrame_of_inReach hbase hfirst hreach length_zeroPage
    rw [bind_ok (onRam_ok (by exact hwrite)), track, modify_bind]
    have hc' : ∀ pool, (m.setPool permissions.pool pool).current = some pid :=
      fun _ => (Paging.current_setPool ..).trans hc
    have hd' : ∀ pool, (m.setPool permissions.pool pool).processes.find? pid = some .empty :=
      fun _ => (congrArg (·.find? pid) (Paging.processes_setPool ..)).trans hd
    exact ⟨_, bind_ok (updateCurrent_run (hc' _) (hd' _) _)⟩
  · rename_i hreach
    exact ⟨_, bind_error (focus_error (Ram.writeFrame_of_not_inReach hbase hfirst hreach zeroPage))⟩

theorem ofDevices_aligned (hp : Paging.ofDevices ram disk ranges = .ok p) :
    ram.base.pageOffset = 0 := by
  by_contra hbase
  unfold Paging.ofDevices at hp
  rw [if_pos hbase] at hp
  cases hp

theorem frame_lt_of_ofDevices (hp : Paging.ofDevices ram disk ranges = .ok p) {frame : Word}
    (ho : p.userPool.owns frame ∨ p.kernelPool.owns frame) : frame.toNat < Ram.pageCount ram := by
  obtain ⟨hfits, rfl⟩ := Paging.ofDevices_ok hp
  rcases ho with ho | ho
  · exact Nat.lt_of_le_of_lt (owns_iff.mp ho).2 hfits.userEnd
  · exact Nat.lt_of_le_of_lt (owns_iff.mp ho).2 hfits.kernelEnd

/-- The frames of an accepted memory are usable as far as the address space reaches. After any run a
process with nothing mapped gets a new page exactly if the first free frame is one of these. -/
theorem frames_usable_in_reach (hp : Paging.ofDevices ram disk ranges = .ok p) :
    (∀ frame, p.userPool.owns frame ∨ p.kernelPool.owns frame →
      if ram.InReach frame then ram.Usable frame else ram.Unusable frame) ∧
    (∀ frame g, p.userPool.owns frame ∨ p.kernelPool.owns frame → p.userPool.owns g ∨
      p.kernelPool.owns g → frame ≠ g → ∀ i < pageSize, ∀ j < pageSize,
        Ram.frameAddress ram frame + UInt32.ofNat i ≠ Ram.frameAddress ram g + UInt32.ofNat j) ∧
    ∀ es m pid page permissions copyOnWrite, Run PagingOperation.Step ⟨p, ram⟩ es m →
      m.current = some pid → m.processes.find? pid = some .empty → page ≤ maxPage →
      m.HasFree permissions.pool → ∃ first, (m.pool permissions.pool).isFree first ∧
      (∀ g, (m.pool permissions.pool).isFree g → first ≤ g) ∧
          if ram.InReach first then ∃ m',
          (addPage page permissions copyOnWrite).run m = .ok first m'
          else ∃ m', (addPage page permissions copyOnWrite).run m =
            .error (.memoryOutOfBounds (Ram.frameAddress ram first)) m' := by
  have hbase := ofDevices_aligned hp
  have hframe : ∀ frame, p.userPool.owns frame ∨ p.kernelPool.owns frame →
      frame.toNat < Ram.pageCount ram :=
    fun _ => frame_lt_of_ofDevices hp
  refine ⟨fun frame ho => ?_, fun frame g hf hg hne i hi j hj => ?_, ?_⟩
  · split
    · exact Ram.usable_of_inReach hbase (hframe frame ho) ‹_›
    · exact Ram.unusable_of_not_inReach hbase (hframe frame ho) ‹_›
  · exact Ram.frames_apart (hframe frame hf) (hframe g hg) hne hi hj
  · intro es m pid page permissions copyOnWrite hrun hc hd hpage hfree
    have hb : Bounded p ram m := by
      obtain ⟨-, rfl⟩ := Paging.ofDevices_ok hp
      exact (bounded_unmapped disk ranges ram).run hrun
    -- the free frame that comes first is the lowest one, and it is the one that is handed out
    obtain ⟨first, rest, hkeys⟩ := hfree.keys
    have hfirst : (m.pool permissions.pool).isFree first := Pool.isFree_of_keys hkeys
    refine ⟨first, hfirst, fun g hg => Table.le_of_keys hkeys hg, ?_⟩
    have hbound : first.toNat < Ram.pageCount m.ram := by
      rw [Ram.pageCount_congr hb.size]
      exact hframe first (hb.owns_of_isFree hfirst)
    have haddress : Ram.frameAddress m.ram first = Ram.frameAddress ram first := by
      rw [Ram.frameAddress, Ram.frameAddress, hb.base]
    have hreach : m.ram.InReach first ↔ ram.InReach first := by
      rw [Ram.InReach, Ram.InReach, hb.base]
    have hadd := addPage_first copyOnWrite (hb.base ▸ hbase) hbound hc hd hpage hkeys
    rwa [haddress, if_congr hreach rfl rfl] at hadd

end PagedMemory

/-! ## A RAM that wraps

Four frames, of which the first is the last page of the address space.
-/

namespace WrappingRam

open PagedMemory

def ram : Ram := .zeroed 0xFFFFF000 16384

def ranges : PageRanges := ⟨0, 1, 2, 3⟩

def start : PagedMemory := ⟨Paging.unmapped TwoReaders.disk ranges, ram⟩

theorem size_ram : ByteStore.size ram = 16384 := ByteStore.size_zeroed 0xFFFFF000 (by decide)

theorem ofDevices :
    Paging.ofDevices ram TwoReaders.disk ranges = .ok (Paging.unmapped TwoReaders.disk ranges) := by
  unfold Paging.ofDevices Ram.pageCount
  rw [size_ram]
  rfl

theorem run (m : PagedMemory) :
    Run PagingOperation.Step m [⟨.beginProcess, .ok (.process m.nextPid), m.begunNext⟩]
      m.begunNext :=
  .next (map_ok beginProcess_begunNext) (.done _)

theorem pool_begunNext (m : PagedMemory) (kind : PoolKind) : m.begunNext.pool kind = m.pool kind :=
  by cases kind <;> rfl

theorem isFree_iff (kind : PoolKind) (page : Word) :
    (start.begunNext.pool kind).isFree page ↔ (start.pool kind).owns page := by
  rw [pool_begunNext]
  exact Paging.isFree_pool_unmapped TwoReaders.disk ranges kind page

theorem inReach : ram.InReach 0 ∧ ¬ ram.InReach 2 := by decide

/-- The first frame of the user pages is in reach, the first of the kernel pages is not. -/
theorem first_frame_usable : ram.Usable 0 ∧ ram.Unusable 2 ∧
    (∃ m', (addPage 1 .readWrite false).run start.begunNext = .ok 0 m') ∧
    ∃ m', (addPage 1 Permissions.readWrite.kernelOnly false).run start.begunNext =
      .error (.memoryOutOfBounds 0x1000) m' := by
  obtain ⟨husable, -, hadd⟩ := frames_usable_in_reach ofDevices
  have hmapped : start.begunNext.processes.find? 1 = some .empty := rfl
  have hadd := fun permissions hfree =>
    hadd _ _ 1 1 permissions false (run start) rfl hmapped (by decide) hfree
  have hzero : (start.begunNext.pool .user).isFree 0 := (isFree_iff .user 0).mpr rfl
  have htwo : (start.begunNext.pool .kernel).isFree 2 := (isFree_iff .kernel 2).mpr rfl
  have huser := husable 0 (.inl rfl)
  have hkernel := husable 2 (.inr rfl)
  rw [if_pos inReach.1] at huser
  rw [if_neg inReach.2] at hkernel
  refine ⟨huser, hkernel, ?_, ?_⟩
  · obtain ⟨first, -, hleast, hfound⟩ := hadd .readWrite ⟨0, hzero⟩
    obtain rfl : first = 0 := UInt32.le_zero_iff.mp (hleast 0 hzero)
    rwa [if_pos inReach.1] at hfound
  · obtain ⟨first, hfirst, hleast, hfound⟩ := hadd Permissions.readWrite.kernelOnly ⟨2, htwo⟩
    have hlow : 2 ≤ first :=
      UInt32.le_iff_toNat_le.mpr (owns_iff.mp ((isFree_iff .kernel first).mp hfirst)).1
    obtain rfl : first = 2 := UInt32.le_antisymm (hleast 2 htwo) hlow
    rwa [if_neg inReach.2] at hfound

/-- What is admitted need not be usable: no byte of the third frame can be read. -/
theorem not_usable : ¬ ∀ (ram : Ram) (disk : Disk) (ranges : PageRanges) (p : Paging),
    Paging.ofDevices ram disk ranges = .ok p → ∀ frame, p.userPool.owns frame ∨
    p.kernelPool.owns frame → ram.Usable frame := by
  intro hall
  obtain ⟨⟨value, hread⟩, -⟩ := hall ram _ ranges _ ofDevices 2 (.inr rfl) 0 (by decide)
  have hframe : (2 : Word).toNat < ram.pageCount := by rw [Ram.pageCount, size_ram]; decide
  have hreach : ¬ ram.InReach 2 := by decide
  have hunusable := Ram.unusable_of_not_inReach rfl hframe hreach 0 (by decide)
  cases hread.symm.trans hunusable.1

end WrappingRam

end PagedMachine

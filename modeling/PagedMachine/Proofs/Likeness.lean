import PagedMachine.Proofs.Soundness

/-!
# Memories that look alike

Two memories look alike to user programs when they differ only in the bytes of kernel
frames and of slots that no user page is in. The books are the same in both, so a
page that moves in one of them moves in the other, from and to the same places. As
long as only user pages move, what is secret before is secret after, and a slot that
a user page has moved to is filled alike in both.
-/

namespace PagedMachine

namespace ByteStore

variable {secret secret' : Word → Prop} {s t : ByteStore}

/-- The stores differ at most in the bytes of secret pages. -/
structure Alike (secret : Word → Prop) (s t : ByteStore) : Prop where
  base : t.base = s.base
  length : t.bytes.size = s.bytes.size
  bytes : ∀ i, (∀ n : Word, secret n → i / pageSize ≠ n.toNat) → t.byte i = s.byte i

namespace Alike

theorem size (h : Alike secret s t) : t.size = s.size := by
  rw [ByteStore.size, ByteStore.size, h.length]

theorem mono (h : Alike secret s t) (hs : ∀ n, secret n → secret' n) : Alike secret' s t :=
  ⟨h.base, h.length, fun i hi => h.bytes i fun n hn => hi n (hs n hn)⟩

theorem byte_page (h : Alike secret s t) {n : Word} (hn : ¬ secret n) {o : Nat}
    (ho : o < pageSize) : t.byte (n.toNat * pageSize + o) = s.byte (n.toNat * pageSize + o) := by
  refine h.bytes _ fun k hk hkn => hn ?_
  have hkn : k = n := by
    apply UInt32.toNat_inj.mp
    rw [← hkn, Nat.mul_comm, Nat.mul_add_div (by decide), Nat.div_eq_of_lt ho, Nat.add_zero]
  exact hkn ▸ hk

theorem slice_page (h : Alike secret s t) {n : Word} (hn : ¬ secret n) {o length : Nat}
    (ho : o + length ≤ pageSize) :
    t.slice (n.toNat * pageSize + o) length = s.slice (n.toNat * pageSize + o) length := by
  refine List.map_congr_left fun i hi => ?_
  rw [List.mem_range] at hi
  rw [Nat.add_assoc]
  exact h.byte_page hn (by omega)

theorem slice_whole (h : Alike secret s t) {n : Word} (hn : ¬ secret n) :
    t.slice (n.toNat * pageSize) pageSize = s.slice (n.toNat * pageSize) pageSize := by
  have hslice := h.slice_page (o := 0) hn (Nat.le_of_eq (Nat.zero_add pageSize))
  rwa [Nat.add_zero] at hslice

theorem patch (h : Alike secret s t) {offset : Nat} {bs : List UInt8}
    (hfit : offset + bs.length ≤ s.size) :
    Alike secret (s.patch offset bs) (t.patch offset bs) where
  base := h.base
  length := by rw [ByteStore.patch, ByteStore.patch, size_writeSlice, size_writeSlice, h.length]
  bytes i hi := by
    rw [byte_patch (h.size ▸ hfit), byte_patch hfit]
    split
    · rfl
    · exact h.bytes i hi

theorem patch_page (h : Alike secret s t) {n : Word} {page : List UInt8}
    (hp : page.length = pageSize) (hfit : n.toNat * pageSize + pageSize ≤ s.size) :
    Alike (fun k => secret k ∧ k ≠ n) (s.patch (n.toNat * pageSize) page)
    (t.patch (n.toNat * pageSize) page) where
  base := h.base
  length := (h.patch (hp ▸ hfit)).length
  bytes i hi := by
    -- what was written as a whole is no secret any more
    rw [byte_patch (by rw [h.size, hp]; exact hfit), byte_patch (by rw [hp]; exact hfit), hp]
    split
    · rfl
    · rename_i hout
      refine h.bytes i fun k hk hik => hi k ⟨hk, fun hkn => hout ?_⟩ hik
      have := Nat.div_add_mod i pageSize
      have := Nat.mod_lt i (show 0 < pageSize by decide)
      rw [← hkn, ← hik, Nat.mul_comm]
      omega

end Alike

end ByteStore

/-! ## Other bytes under the same books -/

namespace Paging

variable (p : Paging) (disk : Disk) (l : Location) (count : Nat)

theorem pool_with_disk (kind : PoolKind) :
    ({ p with disk := disk } : Paging).pool kind = p.pool kind := by
  cases kind <;> rfl

theorem setFree_with_disk (f : Table Unit → Table Unit) :
    ({ p with disk := disk } : Paging).setFree l f = { p.setFree l f with disk := disk } := by
  have hhome : ({ p with disk := disk } : Paging).home l = p.home l := by cases l <;> rfl
  rw [setFree, setFree, hhome, pool_with_disk]
  cases p.home l <;> rfl

theorem occupy_with_disk :
    ({ p with disk := disk } : Paging).occupy l count = { p.occupy l count with disk := disk } := by
  cases l <;> simp only [occupy, setFree_with_disk]

theorem vacate_with_disk :
    ({ p with disk := disk } : Paging).vacate l = { p.vacate l with disk := disk } := by
  cases l <;> simp only [vacate, setFree_with_disk]

theorem recount_with_disk :
    ({ p with disk := disk } : Paging).recount l count =
    { p.recount l count with disk := disk } := by
  cases l <;> rfl

end Paging

namespace PagedMemory

variable {m m' m₀ m₁ m₂ : PagedMemory} {pid page frame slot copy : Word} {disk : Disk} {ram : Ram}

def withBytes (m : PagedMemory) (disk : Disk) (ram : Ram) : PagedMemory :=
  { m with disk := disk, ram := ram }

theorem movedOut_withBytes (disk' disk'' : Disk) :
    (m.withBytes disk ram).movedOut frame slot disk' =
    (m.movedOut frame slot disk'').withBytes disk' ram := by
  have hrefs : (m.withBytes disk ram).refs (.frame frame) = m.refs (.frame frame) := rfl
  rw [movedOut, movedOut, hrefs]
  simp only [withBytes, Paging.occupy_with_disk, Paging.vacate_with_disk]

theorem movedIn_withBytes (ram' ram'' : Ram) :
    (m.withBytes disk ram).movedIn slot frame ram' =
    (m.movedIn slot frame ram'').withBytes disk ram' := by
  have hrefs : (m.withBytes disk ram).refs (.slot slot) = m.refs (.slot slot) := rfl
  rw [movedIn, movedIn, hrefs]
  simp only [withBytes, Paging.occupy_with_disk, Paging.vacate_with_disk]

theorem ownCopy_withBytes (ram' ram'' : Ram) :
    (m.withBytes disk ram).ownCopy pid page frame copy ram' =
    (m.ownCopy pid page frame copy ram'').withBytes disk ram' := by
  have hrefs : (m.withBytes disk ram).refs (.frame frame) = m.refs (.frame frame) := rfl
  rw [ownCopy, ownCopy, hrefs]
  simp only [withBytes, Paging.occupy_with_disk, Paging.recount_with_disk]

/-! ## What is secret -/

def SecretSlot (m : PagedMemory) (slot : Word) : Prop :=
  m.diskPool.owns slot = true ∧
    ∀ mp, Maps m.processes mp → mp.location = .slot slot → mp.permissions.kernel = true

/-- The memories differ at most in the bytes of kernel frames and of slots where no user page is. -/
structure Alike (m₁ m₂ : PagedMemory) : Prop where
  books : m₂ = m₁.withBytes m₂.disk m₂.ram
  ram : ByteStore.Alike (fun frame => m₁.kernelPool.owns frame = true) m₁.ram m₂.ram
  disk : ByteStore.Alike m₁.SecretSlot m₁.disk m₂.disk

theorem alike_withBytes
    (hram : ByteStore.Alike (fun frame => m.kernelPool.owns frame = true) m.ram ram)
    (hdisk : ByteStore.Alike m.SecretSlot m.disk disk) : Alike m (m.withBytes disk ram) :=
  ⟨rfl, hram, hdisk⟩

theorem secretSlot_of_submap (hrange : m'.range = m.range)
    (hmaps : ∀ mp, Maps m'.processes mp → mp.location = .slot slot →
      ∃ mp₀, Maps m.processes mp₀ ∧ mp₀.location = .slot slot ∧ mp₀.permissions = mp.permissions)
    (h : m.SecretSlot slot) : m'.SecretSlot slot := by
  refine ⟨(Paging.owns_pool_of_range hrange .disk slot).trans h.1, fun mp hmp hl => ?_⟩
  obtain ⟨mp₀, hmp₀, hl₀, hperm⟩ := hmaps mp hmp hl
  exact hperm ▸ h.2 mp₀ hmp₀ hl₀

theorem Relocates.secretSlot {source target : Location} (hr : Relocates source target m m')
    (hne : .slot slot ≠ target) (h : m.SecretSlot slot) : m'.SecretSlot slot := by
  -- what is in the slot was there before, unless it has just moved there
  refine secretSlot_of_submap hr.extent.range (fun mp hmp hl => ?_) h
  obtain ⟨mp₀, hmp₀, hperm, ⟨-, ht⟩ | ⟨hsame, -⟩⟩ := hr.maps_back hmp
  · exact absurd (hl.symm.trans ht) hne
  · exact ⟨mp₀, hmp₀, hsame.trans hl, hperm⟩

theorem not_secretSlot {mp : Mapping} (hmp : Maps m.processes mp) (hl : mp.location = .slot slot)
    (huser : mp.permissions.kernel = false) : ¬ m.SecretSlot slot := by
  intro h
  rw [h.2 mp hmp hl] at huser
  cases huser

theorem kernelPool_owns_of_range (hrange : m'.range = m.range)
    (h : m.kernelPool.owns frame = true) : m'.kernelPool.owns frame = true :=
  (Paging.owns_pool_of_range hrange .kernel frame).trans h

theorem secretSlot_own {d : Directory} {mp : Mapping} {target : Word} (hrange : m'.range = m.range)
    (hp : m'.processes = m.processes.update pid (·.update page (own target)))
    (hd : m.processes.find? pid = some d) (hm : d.find? page = some mp) (hs : m.SecretSlot slot) :
    m'.SecretSlot slot := by
  refine secretSlot_of_submap hrange (fun mp' hmp' hl => ?_) hs
  rw [hp] at hmp'
  rcases maps_update_own hd hm hmp' with hold | rfl
  · exact ⟨mp', hold, hl, rfl⟩
  · cases hl

namespace Alike

variable (h : Alike m₁ m₂)
include h

theorem exists_withBytes : ∃ disk ram, m₂ = m₁.withBytes disk ram := ⟨_, _, h.books⟩

theorem processes : m₂.processes = m₁.processes := congrArg (·.processes) h.books

theorem current : m₂.current = m₁.current := congrArg (·.current) h.books

theorem mappingsOf (l : Location) : m₂.mappingsOf l = m₁.mappingsOf l :=
  congrArg (·.mappingsOf l) h.books

theorem framePool (frame : Word) : m₂.framePool frame = m₁.framePool frame :=
  congrArg (·.framePool frame) h.books

theorem pool (kind : PoolKind) : m₂.pool kind = m₁.pool kind := by
  obtain ⟨disk, ram, rfl⟩ := h.exists_withBytes
  exact Paging.pool_with_disk ..

theorem pageAt_frame (hframe : ¬ m₁.kernelPool.owns frame = true) :
    m₂.pageAt (.frame frame) = m₁.pageAt (.frame frame) := by
  rw [pageAt, pageAt, h.ram.slice_whole hframe]

theorem pageAt_slot (hslot : ¬ m₁.SecretSlot slot) :
    m₂.pageAt (.slot slot) = m₁.pageAt (.slot slot) := by
  rw [pageAt, pageAt, h.disk.slice_whole hslot]

theorem movedOut {disk₁ disk₂ : Disk}
    (hdisk : ByteStore.Alike (fun k => m₁.SecretSlot k ∧ k ≠ slot) disk₁ disk₂)
    (hr : Relocates (.frame frame) (.slot slot) m₁ (m₁.movedOut frame slot disk₁)) :
    Alike (m₁.movedOut frame slot disk₁) (m₂.movedOut frame slot disk₂) := by
  obtain ⟨disk, ram, rfl⟩ := h.exists_withBytes
  rw [movedOut_withBytes _ disk₁]
  refine alike_withBytes (h.ram.mono fun f => kernelPool_owns_of_range hr.extent.range)
    (hdisk.mono fun k hk => ?_)
  exact hr.secretSlot (fun e => hk.2 (Location.slot.inj e)) hk.1

theorem evicted (hframe : ¬ m₁.kernelPool.owns frame = true)
    (hfit : slot.toNat * pageSize + pageSize ≤ m₁.disk.size)
    (hr : Relocates (.frame frame) (.slot slot) m₁ (m₁.evicted frame slot)) :
    Alike (m₁.evicted frame slot) (m₂.evicted frame slot) := by
  have hdisk := h.disk.patch_page (length_pageAt m₁ (.frame frame)) hfit
  rw [PagedMemory.evicted, PagedMemory.evicted, h.pageAt_frame hframe]
  exact h.movedOut hdisk hr

theorem movedIn {ram₁ ram₂ : Ram}
    (hram : ByteStore.Alike (fun frame => m₁.kernelPool.owns frame = true) ram₁ ram₂)
    (hr : Relocates (.slot slot) (.frame frame) m₁ (m₁.movedIn slot frame ram₁)) :
    Alike (m₁.movedIn slot frame ram₁) (m₂.movedIn slot frame ram₂) := by
  obtain ⟨disk, ram, rfl⟩ := h.exists_withBytes
  rw [movedIn_withBytes _ ram₁]
  refine alike_withBytes (hram.mono fun f => kernelPool_owns_of_range hr.extent.range) ?_
  have hdisk : (m₁.movedIn slot frame ram₁).disk = m₁.disk := by
    simp [PagedMemory.movedIn, Paging.occupy, Paging.vacate, Paging.setFree]
  rw [hdisk]
  exact h.disk.mono fun k => hr.secretSlot fun he => by cases he

theorem broughtIn {n₁ n₂ : PagedMemory} (hn : Alike n₁ n₂) (hslot : ¬ m₁.SecretSlot slot)
    (hfit : frame.toNat * pageSize + pageSize ≤ n₁.ram.size)
    (hr : Relocates (.slot slot) (.frame frame) n₁ (m₁.broughtIn n₁ slot frame)) :
    Alike (m₁.broughtIn n₁ slot frame) (m₂.broughtIn n₂ slot frame) := by
  -- the slot was read before there was room for its page
  rw [PagedMemory.broughtIn, PagedMemory.broughtIn, h.pageAt_slot hslot]
  exact hn.movedIn (hn.ram.patch (by rwa [length_pageAt])) hr

theorem owned {d : Directory} {mp : Mapping} (hd : m₁.processes.find? pid = some d)
    (hm : d.find? page = some mp) {ram₁ ram₂ : Ram} (hb : ram₁.base = m₁.ram.base)
    (hs : ram₁.size = m₁.ram.size)
    (hram : ByteStore.Alike (fun frame => m₁.kernelPool.owns frame = true) ram₁ ram₂) :
    Alike (m₁.ownCopy pid page frame copy ram₁) (m₂.ownCopy pid page frame copy ram₂) := by
  have hrange : (m₁.ownCopy pid page frame copy ram₁).range = m₁.range :=
    (sameExtent_ownCopy hb hs).range
  have hdisk : (m₁.ownCopy pid page frame copy ram₁).disk = m₁.disk := by
    simp [PagedMemory.ownCopy, Paging.occupy, Paging.recount, Paging.setFree]
  obtain ⟨disk, ram, rfl⟩ := h.exists_withBytes
  rw [ownCopy_withBytes _ ram₁]
  refine alike_withBytes (hram.mono fun f => kernelPool_owns_of_range hrange) ?_
  rw [hdisk]
  exact h.disk.mono fun k => secretSlot_own hrange processes_ownCopy hd hm

theorem ownCopy {d : Directory} {mp : Mapping} (hd : m₁.processes.find? pid = some d)
    (hm : d.find? page = some mp) (hframe : ¬ m₁.kernelPool.owns frame = true)
    (hfit : copy.toNat * pageSize + pageSize ≤ m₁.ram.size) :
    Alike (m₁.ownCopy pid page frame copy (m₁.ram.patch (copy.toNat * pageSize)
      (m₁.pageAt (.frame frame))))
      (m₂.ownCopy pid page frame copy (m₂.ram.patch (copy.toNat * pageSize)
        (m₂.pageAt (.frame frame)))) := by
  rw [h.pageAt_frame hframe]
  exact h.owned hd hm (ByteStore.base_patch ..) (ByteStore.size_patch ..)
    (h.ram.patch (by rwa [length_pageAt]))

theorem patch_ram {offset : Nat} {bytes : List UInt8} (hfit : offset + bytes.length ≤ m₁.ram.size) :
    Alike { m₁ with ram := m₁.ram.patch offset bytes }
    { m₂ with ram := m₂.ram.patch offset bytes } := by
  have hram := h.ram.patch hfit
  have hdisk := h.disk
  obtain ⟨disk, ram, rfl⟩ := h.exists_withBytes
  exact ⟨rfl, hram, hdisk⟩

theorem ownInPlace {d : Directory} {mp : Mapping} (hd : m₁.processes.find? pid = some d)
    (hm : d.find? page = some mp) (frame : Word) :
    Alike (m₁.changed pid (·.update page (own frame)))
    (m₂.changed pid (·.update page (own frame))) := by
  obtain ⟨disk, ram, rfl⟩ := h.exists_withBytes
  have hdisk : ∀ k, m₁.SecretSlot k → (m₁.changed pid (·.update page (own frame))).SecretSlot k :=
    fun k => secretSlot_own rfl rfl hd hm
  exact ⟨rfl, h.ram, h.disk.mono hdisk⟩

end Alike

end PagedMemory

end PagedMachine

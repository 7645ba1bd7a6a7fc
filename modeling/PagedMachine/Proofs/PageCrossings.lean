import PagedMachine.Proofs.Atomicity
import PagedMachine.Proofs.Refusals
import PagedMachine.Proofs.Soundness

/-!
# Accesses that cross a page

Such an access resolves both pages before the first byte. It is served from there,
unless the first page is stranded by then: moved out for the sake of the second,
with no frame and no slot left to bring it back. A page-in cannot do that, since it
frees the slot it reads. Only a copy of the second page can.
-/

namespace PagedMachine

namespace PagedMemory

open Virtual (Granted firstPage lastPage)

variable {m m' m₁ m₂ : PagedMemory} {v : Virtual.Memory} {pid page address physical frame : Word}
    {d : Directory} {mp : Mapping} {t : Transfer} {access : Access} {privilege : Privilege}

/-! ## What a resolution leaves in place -/

theorem Holds.changed_own (hc : m.current = some pid) (hd : m.processes.find? pid = some d)
    (hm : d.find? page = some mp) (hl : mp.location = .frame frame) {page' frame' : Word}
    (h : Holds m page' frame') :
    Holds (m.changed pid (·.update page (own frame))) page' frame' := by
  obtain ⟨mp', hm', hl'⟩ := h
  rw [mapping?_eq hc hd] at hm'
  have hfind : (m.changed pid (·.update page (own frame))).mapping? page' =
      if page' = page then (d.find? page').map (own frame) else d.find? page' := by
    rw [mapping?_eq (by exact hc) (find?_changed hd _), Table.find?_update]
  by_cases hp : page' = page
  · subst hp
    obtain rfl : mp = mp' := Option.some.inj (hm.symm.trans hm')
    rw [if_pos rfl, hm] at hfind
    exact ⟨_, hfind, hl.symm.trans hl'⟩
  · rw [if_neg hp, hm'] at hfind
    exact ⟨_, hfind, hl'⟩

/-- Without a copy a slot is free afterwards, or no page has left its frame. -/
theorem Consistent.held_of_translate (h : Consistent m) (hv : Represents m v)
    (hm : m.mapping? address.page = some mp) (hcopies : ¬ m.Copies mp access)
    (hstep : Yields (PagedMemory.translate address access privilege) m (.ok physical) m') :
    m'.HasFree .disk ∨ ∀ page frame, Holds m page frame → Holds m' page frame := by
  obtain ⟨r, hresolve⟩ := yields_of_physical hstep
  replace hresolve := hresolve.of_run (bind_ok (lookup_run hm address access)).symm
  split at hresolve
  case isFalse => exact .inr fun _ _ hholds => hresolve.of_throw.2 ▸ hholds
  rw [materialise_eq] at hresolve
  -- bringing the page in may take a frame, but then it frees the slot that the page had
  rcases h.bringIn hv hm with ⟨-, frame, m₁, hrun, hfollows, hm₁, hmaps, hstay⟩ | ⟨hrun, -⟩
  · have hmaterialise := hresolve.of_run (bind_ok hrun).symm
    have hstay' : m₁.HasFree .disk ∨ m₁ = m := hstay.symm.imp And.right And.left
    by_cases hstore : access = .write ∧ mp.copyOnWrite = true
    · rw [if_pos hstore] at hmaterialise
      have hone : ¬ 1 < m₁.refs (.frame frame) := by
        rw [hfollows.consistent.refs_eq, hmaps, ← h.refs_eq]
        exact fun hshared => hcopies ⟨hstore.1, hstore.2, hshared⟩
      obtain ⟨pid, d, hc, hd, hmd⟩ := mapping?_some.mp hm₁
      obtain ⟨-, rfl⟩ := hmaterialise.eq_of_ok (privatise_run_ownInPlace hone hc hd)
      refine hstay'.imp id ?_
      rintro rfl page' frame' hholds
      exact hholds.changed_own hc hd hmd rfl
    · rw [if_neg hstore] at hmaterialise
      obtain ⟨-, rfl⟩ := hmaterialise.of_pure
      refine hstay'.imp id ?_
      rintro rfl page' frame' hholds
      exact hholds
  · obtain ⟨-, rfl⟩ := hresolve.eq_of_error (bind_error hrun)
    exact .inr fun _ _ => id

/-- Only a copy of another page strands one that was in its frame. -/
theorem Consistent.copies_of_stranded (h : Consistent m) (hv : Represents m v)
    (hholds : Holds m page frame)
    (hstep : Yields (PagedMemory.translate address access privilege) m (.ok physical) m')
    (hm' : m'.mapping? page = some mp) (hs : m'.Stranded mp) :
    ∃ last, m.mapping? address.page = some last ∧ m.Copies last access := by
  cases hm : m.mapping? address.page with
  | none =>
    obtain ⟨counters, hrun⟩ := lookup_unmapped hm address access
    cases (hstep.eq_of_error (bind_error (bind_error hrun))).1
  | some last =>
    refine ⟨last, rfl, by_contra fun hcopies => ?_⟩
    rcases h.held_of_translate hv hm hcopies hstep with hdisk | hheld
    · exact hs.2.2 hdisk
    · exact hs.not_holds hm' frame (hheld page frame hholds)

/-! ## Both pages resolved -/

/-- Once both pages are resolved, the access is served exactly if the first one is not stranded. -/
theorem Consistent.crossing_exact (h : Consistent m) (hv : Represents m v)
    (hcross : crossesPage t.address t.width = true) {first last : Word}
    (hfirst : Yields (PagedMemory.translate t.address t.access privilege) m (.ok first) m₁)
    (hlast : Yields
      (PagedMemory.translate (t.address + UInt32.ofNat (t.width.bytes - 1)) t.access privilege) m₁
      (.ok last) m₂) :
    ∃ mp, m₂.mapping? t.address.page = some mp ∧
      (¬ m₂.Stranded mp →
        ∃ old m₃, Yields (PagedMemory.transferMapped t privilege) m (.ok old) m₃) ∧
      (m₂.Stranded mp →
        Yields (PagedMemory.transferMapped t privilege) m (.error (.resourceExhausted .disk)) m₂ ∧
        t.access = .write ∧ ∃ second, m₁.mapping? (lastPage t) = some second ∧
        m₁.Copies second .write) := by
  have hrun : ∀ {r m₃},
      Yields (UInt32.ofNat <$> PagedMemory.exchangeBytes t privilege 0 t.width.bytes) m₂ r m₃ →
      Yields (PagedMemory.transferMapped t privilege) m r m₃ := by
    intro r m₃ hbytes
    rw [PagedMemory.transferMapped, if_pos hcross]
    exact hfirst.bind_ok (hlast.bind_ok hbytes)
  rcases h.translate hv t.address t.access privilege with
    ⟨_, c₁, m₁', v₁, hrun₁, hb₁, h₁, ⟨frame₁, hholds₁, -⟩, hg₁⟩ | ⟨e, _, _, hrun₁, -⟩
  case inr => cases (hfirst.eq_of_error hrun₁).1
  obtain ⟨-, rfl⟩ := hfirst.eq_of_ok hrun₁
  rcases h₁.consistent.translate h₁.represents
    (t.address + UInt32.ofNat (t.width.bytes - 1)) t.access privilege with
    ⟨_, c₂, m₂', v₂, hrun₂, hb₂, h₂, ⟨frame₂, hholds₂, -⟩, hg₂⟩ | ⟨e, _, _, hrun₂, -⟩
  case inr => cases (hlast.eq_of_error hrun₂).1
  obtain ⟨-, rfl⟩ := hlast.eq_of_ok hrun₂
  have hg : Granted v₂ t privilege := ⟨hg₁.privatised (Virtual.resolve_privatised hb₂).1, hg₂⟩
  obtain ⟨mp, hmp, -⟩ := h₂.represents.mapping_of_grants hg.1
  refine ⟨mp, hmp, fun hnot => ?_, fun hs => ?_⟩
  · rcases h₂.consistent.exchangeBytes_exact h₂.represents hg ⟨frame₂, hholds₂⟩ hmp with
      ⟨-, m₃, hbytes, -⟩ | ⟨-, hs⟩
    · exact ⟨_, m₃, hrun (map_ok hbytes)⟩
    · exact absurd hs hnot
  · rcases h₂.consistent.exchangeBytes_exact h₂.represents hg ⟨frame₂, hholds₂⟩ hmp with
      ⟨hnot, -⟩ | ⟨hbytes, -⟩
    · exact absurd hs hnot
    · obtain ⟨second, hsecond, hcopies⟩ :=
        h₁.consistent.copies_of_stranded h₁.represents hholds₁ hlast hmp hs
      have hwrite : t.access = .write := hcopies.1
      exact ⟨hrun (map_error hbytes), hwrite, second, hsecond, hwrite ▸ hcopies⟩

end PagedMemory

namespace Bus

open Virtual (lastPage)

variable {b b' b₁ b₂ : Bus} {v : Virtual.Bus} {t : Transfer} {region : Region} {first last : Word}

theorem Represents.crossing_exact (hr : Represents b v)
    (hregion : b.regions.regionOf? t.address = some region)
    (hk : region.kind = .mapped) (hholds : region.holds t.address t.width = true)
    (hcross : crossesPage t.address t.width = true)
    (hfirst : Yields (translate t.address t.access) b (.ok first) b₁)
    (hlast : Yields (translate (t.address + UInt32.ofNat (t.width.bytes - 1)) t.access) b₁
      (.ok last) b₂) :
    ∃ mp, b₂.memory.mapping? t.address.page = some mp ∧
      (¬ b₂.memory.Stranded mp → ∃ old b₃, Yields (transfer t) b (.ok old) b₃) ∧
      (b₂.memory.Stranded mp → Yields (transfer t) b (.error (.resourceExhausted .disk)) b₂ ∧
        t.access = .write ∧ ∃ second, b₁.memory.mapping? (lastPage t) = some second ∧
        b₁.memory.Copies second .write) := by
  obtain ⟨m₁, hone, rfl⟩ := yields_onMemory (hfirst.of_run (isOnMemory_translate _ _ b).symm)
  obtain ⟨m₂, htwo, rfl⟩ :=
    yields_onMemory (hlast.of_run (isOnMemory_translate _ _ { b with memory := m₁ }).symm)
  obtain ⟨mp, hmp, hserved, hrefused⟩ := hr.consistent.crossing_exact hr.memory hcross hone htwo
  have hrun := transfer_run_mapped hregion hk hholds
  refine ⟨mp, hmp, fun hnot => ?_, fun hs => ?_⟩
  · obtain ⟨old, m₃, hdone⟩ := hserved hnot
    exact ⟨old, _, hrun.trans (onMemory_ok hdone)⟩
  · obtain ⟨hfault, hwhy⟩ := hrefused hs
    exact ⟨hrun.trans (onMemory_error hfault), hwhy⟩

section
variable {ram : Ram} {rom : Rom} {disk : Disk} {window : Word × Word} {ranges : PageRanges}
  {es : List (Event Bus HostOperation Answer)}

/-- In every state of a run an access across two pages, both resolved, is served exactly if the
first one is not stranded by then. If it is, the access is a store, for which the second page was
copied, and nothing else happens. -/
theorem crossings_served (hb : Bus.ofDevices ram rom disk window ranges = .ok b)
    (hdisk : disk.base = 0) (hrun : Run HostOperation.Step b es b')
    (hpids : creations es < 2 ^ 32 - 1)
    (hcounts : ∀ e ∈ es, PagedMemory.WithinCounts e.state.memory)
    (hregion : b'.regions.regionOf? t.address = some region) (hk : region.kind = .mapped)
    (hholds : region.holds t.address t.width = true) (hcross : crossesPage t.address t.width = true)
    (hfirst : Yields (translate t.address t.access) b' (.ok first) b₁)
    (hlast : Yields (translate (t.address + UInt32.ofNat (t.width.bytes - 1)) t.access) b₁
      (.ok last) b₂) :
    ∃ mp, b₂.memory.mapping? t.address.page = some mp ∧
      (¬ b₂.memory.Stranded mp → ∃ old b₃, Yields (transfer t) b' (.ok old) b₃) ∧
      (b₂.memory.Stranded mp → Yields (transfer t) b' (.error (.resourceExhausted .disk)) b₂ ∧
        t.access = .write ∧ ∃ second, b₁.memory.mapping? (lastPage t) = some second ∧
        b₁.memory.Copies second .write) := by
  obtain ⟨v, hr⟩ := represents_of_run hb hdisk hrun hpids hcounts
  exact hr.crossing_exact hregion hk hholds hcross hfirst hlast

end

end Bus

/-! ## A first page that is stranded

The process has the second of its pages under a flag at another address as well. A store
across the first two copies the second, and the first goes to the slot.
-/

namespace LastSlot

open PagedMemory
open TwoReaders (bus ram rom window regions)

section
variable (disk : Disk) (ram : Ram)

def directory (first : Location) : Directory :=
  (((Table.empty.insert 0x400 ⟨first, .readWrite, false⟩).insert 0x401 ⟨.frame 1, .readWrite,
    true⟩).insert 0x402 ⟨.frame 1, .readWrite, true⟩).insert 0x403 ⟨.frame 2, .readWrite, false⟩

def shared : PagedMemory :=
  holding disk (zeroed ram) .empty (((Table.empty.insert 0 1).insert 1 2).insert 2 1) [0, 1, 2]
    (directory (.frame 0))

def events : List (Event PagedMemory PagingOperation Answer) :=
  filling disk ram ++ [⟨.sharePage 1 0x401 0x402 true, .ok .done, shared disk ram⟩]

theorem run (hram : ram.base.toNat + ram.size ≤ 2 ^ 32) (hcount : 2 < Ram.pageCount ram) :
    Run PagingOperation.Step (start disk ram) (events disk ram) (shared disk ram) :=
  (run_filling disk ram hram hcount).append (.next rfl (.done _))

theorem withinCounts : ∀ e ∈ events disk ram, WithinCounts e.state := by
  intro e he
  rcases List.mem_append.mp he with he | he
  · exact withinCounts_filling disk ram e he
  · rw [List.mem_singleton.mp he]
    exact withinCounts_of_size (by decide : 4 ≤ maxRefs)

def movedOut : PagedMemory where
  disk := disk.patch ((0 : Word).toNat * pageSize) ((shared disk ram).pageAt (.frame 0))
  userPool := ⟨.user, 0, 2, Table.empty.insert 0 ()⟩
  kernelPool := .ofRange .kernel 3 3
  diskPool := { (start disk ram).diskPool with free := (start disk ram).diskPool.free.erase 0 }
  frameRefs := (Table.empty.insert 1 2).insert 2 1
  slotRefs := Table.empty.insert 0 1
  resident := [1, 2]
  processes := Table.empty.insert 1 (directory (.slot 0))
  current := some 1
  nextPid := 2
  counters := ⟨0, 0, 0, 1, 0, 1⟩
  ram := zeroed ram

def copied : PagedMemory :=
  (movedOut disk ram).ownCopy 1 0x401 1 0
    ((zeroed ram).patch ((0 : Word).toNat * pageSize)
      ((zeroed ram).slice ((1 : Word).toNat * pageSize) pageSize))

variable {disk : Disk} {ram : Ram}

theorem takeFrame_shared (h : Consistent (shared disk ram)) (hslots : Disk.slotCount disk = 1) :
    (takeFrame .user (some 1)).run (shared disk ram) = .ok 0 ((movedOut disk ram).handOut 0) := by
  have hfull : ¬ (shared disk ram).HasFree .user := full_iff.mp rfl
  have hfound : (directory (.frame 0)).find? 0x400 = some ⟨.frame 0, .readWrite, false⟩ := rfl
  have hmapped : (shared disk ram).mappingsOf (.frame 0) ≠ 0 :=
    mappingsOf_ne_zero
      (show (shared disk ram).processes.find? 1 = some (directory (.frame 0)) from rfl) hfound
  have hkeys : (shared disk ram).diskPool.free.keys = [0] := by
    rw [show (shared disk ram).diskPool = (start disk ram).diskPool from rfl, diskPool_start hslots]
    rfl
  have hmoved : { (shared disk ram).evicted 0 0 with
      counters := { ((shared disk ram).evicted 0 0).counters with evictions := 1 } } =
      movedOut disk ram := rfl
  have hvictim : (shared disk ram).victim? .user (some 1) = some 0 := rfl
  have hroom := (makeRoom_run_some hfull hvictim).trans (bind_ok (h.evict_ok hmapped hkeys).1)
  rw [takeFrame_eq, bind_ok hroom]
  change (onPool .user Pool.allocate).run { (shared disk ram).evicted 0 0 with
      counters := { ((shared disk ram).evicted 0 0).counters with evictions := 1 } } = _
  rw [hmoved]
  rfl

theorem translate_resident (disk : Disk) (ram : Ram) :
    (∃ physical, Yields (translate 0x400FFE .write .kernel) (shared disk ram) (.ok physical)
      (shared disk ram)) ∧ (∃ physical, Yields (translate 0x400FFE .read .kernel) (shared disk ram)
      (.ok physical) (shared disk ram)) ∧ ∃ physical, Yields (translate 0x401001 .read .kernel)
      (shared disk ram) (.ok physical) (shared disk ram) :=
  ⟨⟨_, rfl⟩, ⟨_, rfl⟩, ⟨_, rfl⟩⟩

theorem translate_copies (h : Consistent (shared disk ram)) (hslots : Disk.slotCount disk = 1)
    (hram : ram.base.toNat + ram.size ≤ 2 ^ 32) (hcount : 2 < Ram.pageCount ram) : ∃ physical,
      Yields (translate 0x401001 .write .kernel) (shared disk ram) (.ok physical)
      (copied disk ram) := by
  have hcopy : (Ram.copyFrame 1 0).run (zeroed ram) = .ok () _ :=
    Ram.copyFrame_ok (by rwa [base_zeroed, size_zeroed]) (lt_pageCount_zeroed hcount (by decide))
      (lt_pageCount_zeroed hcount (by decide))
  have hshared : 1 < (shared disk ram).refs (.frame 1) := (by decide : 1 < 2)
  have hcounted : (movedOut disk ram).count? (.frame 1) = some 2 := rfl
  have hd : (movedOut disk ram).processes.find? 1 = some (directory (.slot 0)) := rfl
  have hprivate :=
    privatise_run_ownCopy 0x401 hshared (takeFrame_shared h hslots) hcopy hcounted (by decide)
    (by decide) rfl hd
  have hlookup : (lookup 0x401 0x401001 .write).run (shared disk ram) =
      .ok ⟨.frame 1, .readWrite, true⟩ (shared disk ram) := rfl
  exact ⟨_, (bind_ok ((bind_ok hlookup).trans hprivate)).trans (physical_run _ 0 _)⟩

theorem mapping_copied : (copied disk ram).mapping? 0x400 = some ⟨.slot 0, .readWrite, false⟩ := rfl

theorem stranded (hslots : Disk.slotCount disk = 1) :
    (copied disk ram).Stranded ⟨.slot 0, .readWrite, false⟩ := by
  have huser : (copied disk ram).userPool.free = .empty := rfl
  have hdisk : (copied disk ram).diskPool =
      { (start disk ram).diskPool with free := (start disk ram).diskPool.free.erase 0 } := rfl
  refine ⟨⟨0, rfl⟩, full_iff.mp ?_, full_iff.mp ?_⟩
  · exact congrArg Table.size huser
  · change (copied disk ram).diskPool.freeCount = 0
    rw [hdisk, diskPool_start hslots]
    rfl

end

def hostEvents : List (Event Bus HostOperation Answer) :=
  Bus.hosted ((bus (start disk ram)).pagingEvents (events disk ram))

theorem host_run :
    Run HostOperation.Step (bus (start disk ram)) hostEvents (bus (shared disk ram)) :=
  Bus.run_hosted
    (Bus.run_pagingEvents (b := bus (start disk ram)) (run disk ram ram_fits.1 ram_fits.2))

theorem host_withinCounts : ∀ e ∈ hostEvents, WithinCounts e.state.memory := by
  intro e he
  obtain ⟨e', he', rfl⟩ := List.mem_map.mp he
  obtain ⟨e'', he'', rfl⟩ := List.mem_map.mp he'
  exact withinCounts disk ram e'' he''

theorem translate_onBus {m m' : PagedMemory} {address physical : Word} {access : Access}
    (h : Yields (translate address access .kernel) m (.ok physical) m') :
    Yields (Bus.translate address access) (bus m) (.ok physical) (bus m') :=
  Bus.onMemory_ok (b := bus m) h

theorem regionOf_bus (m : PagedMemory) :
    (bus m).regions.regionOf? 0x400FFE = some ⟨.mapped, 0x400000, 0x7FFFFF⟩ := rfl

/-- It is not so that every access whose pages are both resolved is served. -/
theorem store_refused : ¬ ∀ (ram : Ram) (rom : Rom) (disk : Disk) (window : Word × Word)
    (ranges : PageRanges) (b b' b₁ b₂ : Bus) (es : List (Event Bus HostOperation Answer))
    (t : Transfer) (region : Region) (first last : Word),
    Bus.ofDevices ram rom disk window ranges = .ok b → disk.base = 0 →
    Run HostOperation.Step b es b' → creations es < 2 ^ 32 - 1 →
    (∀ e ∈ es, WithinCounts e.state.memory) → b'.regions.regionOf? t.address = some region →
    region.kind = .mapped → region.holds t.address t.width = true →
    crossesPage t.address t.width = true →
    Yields (Bus.translate t.address t.access) b' (.ok first) b₁ →
    Yields (Bus.translate (t.address + UInt32.ofNat (t.width.bytes - 1)) t.access) b₁
      (.ok last) b₂ → ∃ old b₃, Yields (Bus.transfer t) b' (.ok old) b₃ := by
  intro hserves
  obtain ⟨v, hr⟩ :=
    Bus.represents_of_run bus_ofDevices rfl host_run (by decide : 1 < 2 ^ 32 - 1) host_withinCounts
  obtain ⟨⟨first, hone⟩, -⟩ := translate_resident disk ram
  obtain ⟨last, htwo⟩ := translate_copies hr.consistent slotCount_disk ram_fits.1 ram_fits.2
  have hfirst : Yields (Bus.translate 0x400FFE .write) (bus (shared disk ram)) (.ok first)
      (bus (shared disk ram)) :=
    translate_onBus hone
  have hlast : Yields (Bus.translate 0x401001 .write) (bus (shared disk ram)) (.ok last)
      (bus (copied disk ram)) :=
    translate_onBus htwo
  obtain ⟨mp, hmp, -, hrefused⟩ :=
    hr.crossing_exact (t := .write 0x400FFE .word 0x11223344)
      (regionOf_bus _) rfl rfl rfl hfirst hlast
  obtain rfl : ⟨.slot 0, .readWrite, false⟩ = mp := Option.some.inj (mapping_copied.symm.trans hmp)
  obtain ⟨old, b₃, hserved⟩ :=
    hserves ram rom disk window ranges _ _ _ _ _ (.write 0x400FFE .word 0x11223344) _ _ _
    bus_ofDevices rfl host_run
      (by decide : 1 < 2 ^ 32 - 1) host_withinCounts rfl rfl rfl rfl hfirst hlast
  cases (hserved.unique (hrefused (stranded slotCount_disk)).1).1

theorem load_served :
    ∃ old b, Yields (Bus.transfer (.read 0x400FFE .word)) (bus (shared disk ram)) (.ok old) b := by
  obtain ⟨-, ⟨first, hone⟩, last, htwo⟩ := translate_resident disk ram
  have hfirst : Yields (Bus.translate 0x400FFE .read) (bus (shared disk ram)) (.ok first)
      (bus (shared disk ram)) :=
    translate_onBus hone
  have hlast : Yields (Bus.translate 0x401001 .read) (bus (shared disk ram)) (.ok last)
      (bus (shared disk ram)) :=
    translate_onBus htwo
  obtain ⟨mp, -, hserved, hrefused⟩ :=
    Bus.crossings_served bus_ofDevices rfl host_run (by decide : 1 < 2 ^ 32 - 1)
    host_withinCounts (t := .read 0x400FFE .word) (regionOf_bus _) rfl rfl rfl hfirst hlast
  exact hserved fun hs => nomatch (hrefused hs).2.1

end LastSlot

end PagedMachine

import PagedMachine.Proofs.Guards
import PagedMachine.Proofs.Initial

/-!
# Stores in place

A store through a flagged mapping has its frame to itself. A store through one that
is not flagged reaches the page where it is, and all who map it there see it, those
with a flag as well. No one else maps it unless the mapping itself took part in a share
without a flag, whatever became of other pages.
-/

namespace PagedMachine.PagedMemory

variable {m m' : PagedMemory} {pid page frame address : Word} {mp : Mapping} {access : Access}
    {privilege : Privilege}

/-- Where a store to a page lands, and who maps that frame then. -/
structure Lands (pid page frame : Word) (mp : Mapping) (m m' : PagedMemory) : Prop where
  mapped : m'.mappingIn? pid page = some (own frame mp)
  duplicated : mp.copyOnWrite → m'.Alone pid page (.frame frame)
  inPlace : ¬ mp.copyOnWrite → ∀ q page' flag,
    (∃ mp', m'.mappingIn? q page' = some mp' ∧ mp'.location = .frame frame ∧
      mp'.copyOnWrite = flag) ↔
      ∃ mp', m.mappingIn? q page' = some mp' ∧ mp'.location = mp.location ∧ mp'.copyOnWrite = flag

theorem Shifts.lands {place : Location → Location} (h : Shifts place m m') (hcovered : Covered m)
    (hm : m.mappingIn? pid page = some mp) (hplace : place mp.location = .frame frame)
    (hflag : ¬ mp.copyOnWrite) : Lands pid page frame mp m m' where
  mapped := by
    rw [h.mapping hm, own, placed, hplace, ← Bool.eq_false_iff.mpr hflag]
  duplicated hf := absurd hf hflag
  inPlace _ q page' flag := by
    constructor
    · rintro ⟨mp', hm', hl, hf⟩
      rw [h.mappings] at hm'
      obtain ⟨mp₀, hm₀, rfl⟩ := Option.map_eq_some_iff.mp hm'
      have hl₀ :=
        h.apart _ _ (hcovered.refs_of_mappingIn hm₀) (hcovered.refs_of_mappingIn hm)
          (hl.trans hplace.symm)
      exact ⟨mp₀, hm₀, hl₀, hf⟩
    · rintro ⟨mp₀, hm₀, hl, hf⟩
      exact ⟨placed place mp₀, h.mapping hm₀, (congrArg place hl).trans hplace, hf⟩

theorem Takes.lands {place : Location → Location} {m₀ : PagedMemory}
    (h : Takes pid page frame (own frame (placed place mp)) m₀ m') (hflag : mp.copyOnWrite) :
    Lands pid page frame mp m m' where
  mapped := h.self
  duplicated _ := h.alone_new
  inPlace hf := absurd hflag hf

theorem allow_of_resolve (hm : m.mapping? page = some mp)
    (hstep : Yields (resolve page address access privilege) m (.ok frame) m') :
    mp.permissions.allow access privilege := by
  have hstep := hstep.of_run (bind_ok (lookup_run hm address access)).symm
  split at hstep
  · assumption
  · cases (hstep.eq_of_error rfl).1

theorem Covered.lands_of_resolve (h : Covered m)
    (hstep : Yields (PagedMemory.resolve page address .write privilege) m (.ok frame) m') :
    ∃ pid mp, m.current = some pid ∧ m.mappingIn? pid page = some mp ∧
      Lands pid page frame mp m m' ∧ ∀ exempt, m.Guarded exempt → ¬ exempt pid page →
      m'.Alone pid page (.frame frame) := by
  have hsettles := h.resolve hstep
  cases hsettles with
  | moved hshifts hfound =>
    obtain ⟨pid, mp, hc, hm, hplace, hnot⟩ := hfound frame rfl
    have hflag : ¬ mp.copyOnWrite := fun hf => hnot ⟨rfl, hf⟩
    -- the store was allowed, so a mapping that is not flagged is open
    have hwrite := Bool.and_eq_true_iff.mp (allow_of_resolve (mapping?_iff.mpr ⟨pid, hc, hm⟩) hstep)
    refine ⟨pid, mp, hc, hm, hshifts.lands h hm hplace hflag, fun exempt hg hnot => ?_⟩
    exact hplace ▸ hshifts.guarded h exempt hg pid page _ (hshifts.mapping hm)
      ⟨hwrite.1, hflag⟩ hnot
  | taken hshifts hc hm hflag htakes =>
    exact ⟨_, _, hc, hm, htakes.lands hflag, fun _ _ _ => htakes.alone_new⟩

/-! ## Runs -/

theorem guarded_of_empty (h : m.processes = .empty) (exempt : Word → Word → Prop) :
    m.Guarded exempt := by
  intro pid page mp hm
  rw [mappingIn?, h] at hm
  cases hm

/-- A store through a flagged mapping lands in a frame that nothing else maps. One through another
mapping lands where the page is, for all who map it and with their flags; these are none unless this
mapping was itself shared without a flag and has been open since. -/
theorem flagged_pages_duplicated {ram : Ram} {disk : Disk} {ranges : PageRanges} {p : Paging}
    {physical : Word} {es : List (Event PagedMemory PagingOperation Answer)}
    (hp : Paging.ofDevices ram disk ranges = .ok p)
    (hdisk : disk.base = 0) (hram : ram.base.toNat + ram.size ≤ 2 ^ 32)
    (hrun : Run PagingOperation.Step ⟨p, ram⟩ es m) (hcounts : ∀ e ∈ es, WithinCounts e.state)
    (hstep : Yields (translate address .write privilege) m (.ok physical) m') :
    ∃ pid mp frame, m.current = some pid ∧ m.mappingIn? pid address.page = some mp ∧
      physical = Ram.frameAddress m'.ram frame + UInt32.ofNat address.pageOffset ∧
      Lands pid address.page frame mp m m' ∧
      (¬ SharedOpenly es pid address.page → m'.Alone pid address.page (.frame frame)) := by
  obtain ⟨hfits, rfl⟩ := Paging.ofDevices_ok hp
  obtain ⟨h, hguarded⟩ :=
    Covered.run hrun [] (consistent_unmapped hfits hram hdisk).covered
      (guarded_of_empty rfl _) hcounts
  rcases hstep.of_bind with ⟨frame, m₁, hresolve, hphysical⟩ | ⟨e, he, -⟩
  case inr => cases he
  obtain ⟨heq, rfl⟩ := hphysical.eq_of_ok (physical_run m₁ frame address.pageOffset)
  obtain ⟨pid, mp, hc, hm, hlands, halone⟩ := h.lands_of_resolve hresolve
  exact ⟨pid, mp, frame, hc, hm, Except.ok.inj heq, hlands, halone _ hguarded⟩

end PagedMachine.PagedMemory

/-! ## An open page shared

A process shares its writable page without a flag, then forks. The other process
still stores to the page where it is, though parent and child rely on their flags.
-/

namespace PagedMachine.OpenShare

open PagedMemory TwoReaders

def page (flag : Bool) : Directory := Table.empty.insert 0x400 ⟨.frame 0, .readWrite, flag⟩

section
variable (disk : Disk) (ram : Ram)

def forkedWritable : PagedMemory :=
  { mappedAs disk ram .readWrite with
    frameRefs := Table.empty.insert 0 2
    processes := (Table.empty.insert 1 (page true)).insert 2 (page true)
    nextPid := 3 }

def forkedEvents : List (Event PagedMemory PagingOperation Answer) :=
  [⟨.beginProcess, .ok (.process 1), begun disk ram⟩,
    ⟨.addPage 0x400 .readWrite false, .ok .done, mappedAs disk ram .readWrite⟩,
    ⟨.forkProcess, .ok (.process 2), forkedWritable disk ram⟩]

theorem forked_run (hram : ram.base.toNat + ram.size ≤ 2 ^ 32) (hcount : 0 < Ram.pageCount ram) :
    Run PagingOperation.Step (start disk ram) (forkedEvents disk ram) (forkedWritable disk ram) :=
  .next rfl (.next (step_addPageAs disk ram rfl hram hcount) (.next rfl (.done _)))

theorem forked_withinCounts : ∀ e ∈ forkedEvents disk ram, WithinCounts e.state := by
  intro e he
  apply withinCounts_of_size
  simp only [forkedEvents, List.mem_cons, List.not_mem_nil, or_false] at he
  rcases he with rfl | rfl | rfl
  · exact Nat.zero_le _
  · exact (by decide : 1 ≤ maxRefs)
  · exact (by decide : 2 ≤ maxRefs)

theorem translate_copies (hram : ram.base.toNat + ram.size ≤ 2 ^ 32)
    (hcount : 1 < Ram.pageCount ram) : ∃ physical m', Yields (translate 0x400000 .write .user)
    (forkedWritable disk ram) (.ok physical) m' := by
  have hextent : (ram.patch 0 zeroPage).size = ram.size := ByteStore.size_patch ..
  have hlt : ∀ frame : Word, frame.toNat ≤ 1 →
      frame.toNat < Ram.pageCount (ram.patch 0 zeroPage) := by
    intro frame hle
    rw [Ram.pageCount_patch]
    exact Nat.lt_of_le_of_lt hle hcount
  have hcopy : (Ram.copyFrame 0 1).run (ram.patch 0 zeroPage) = .ok () _ :=
    Ram.copyFrame_ok (by rwa [ByteStore.base_patch, hextent]) (hlt 0 (Nat.zero_le 1))
      (hlt 1 (Nat.le_refl 1))
  have htake : (takeFrame .user (some 0)).run (forkedWritable disk ram) =
      .ok 1 ((forkedWritable disk ram).handOut 1) := rfl
  have hshared : 1 < (forkedWritable disk ram).refs (.frame 0) := (by decide : 1 < 2)
  have hcounted : (forkedWritable disk ram).count? (.frame 0) = some 2 := rfl
  have hd : (forkedWritable disk ram).processes.find? 1 = some (page true) := rfl
  have hprivate :=
    privatise_run_ownCopy 0x400 hshared htake hcopy hcounted (by decide) (by decide) rfl hd
  have hlookup : (lookup 0x400 0x400000 .write).run (forkedWritable disk ram) =
      .ok ⟨.frame 0, .readWrite, true⟩ (forkedWritable disk ram) := rfl
  exact ⟨_, _, (bind_ok ((bind_ok hlookup).trans hprivate)).trans (physical_run _ 1 _)⟩

end

section
variable (disk : Disk) (ram : Ram)

def shared : PagedMemory :=
  { mappedAs disk ram .readWrite with
    frameRefs := Table.empty.insert 0 2
    processes := (Table.empty.insert 1 (page false)).insert 2 (page false)
    current := some 2
    nextPid := 3 }

def relied : PagedMemory :=
  { shared disk ram with
    frameRefs := Table.empty.insert 0 3
    processes := ((Table.empty.insert 1 (page true)).insert 2 (page false)).insert 3 (page true)
    nextPid := 4 }

def reliedEvents : List (Event PagedMemory PagingOperation Answer) :=
  [⟨.beginProcess, .ok (.process 1), begun disk ram⟩,
    ⟨.addPage 0x400 .readWrite false, .ok .done, mappedAs disk ram .readWrite⟩,
    ⟨.beginProcess, .ok (.process 2),
      { mappedAs disk ram .readWrite with
        processes := (Table.empty.insert 1 (page false)).insert 2 .empty, current :=
          some 2, nextPid := 3 }⟩,
    ⟨.sharePage 1 0x400 0x400 false, .ok .done, shared disk ram⟩,
    ⟨.switchProcess 1, .ok .done, { shared disk ram with current := some 1 }⟩,
    ⟨.forkProcess, .ok (.process 3), { relied disk ram with current := some 1 }⟩,
    ⟨.switchProcess 2, .ok .done, relied disk ram⟩]

theorem relied_run (hram : ram.base.toNat + ram.size ≤ 2 ^ 32) (hcount : 0 < Ram.pageCount ram) :
    Run PagingOperation.Step (start disk ram) (reliedEvents disk ram) (relied disk ram) :=
  .next rfl (.next (step_addPageAs disk ram rfl hram hcount)
    (.next rfl (.next rfl (.next rfl (.next rfl (.next rfl (.done _)))))))

theorem translate_inPlace :
    ∃ physical, Yields (translate 0x400000 .write .user) (relied disk ram) (.ok physical)
      (relied disk ram) := ⟨_, rfl⟩

def aside : PagedMemory :=
  (relied disk ram).added 2 0x401 1 ⟨.frame 1, .readWrite, false⟩
    ((ram.patch 0 zeroPage).patch 4096 zeroPage)

def asideEvents : List (Event PagedMemory PagingOperation Answer) :=
  reliedEvents disk ram ++ [⟨.addPage 0x401 .readWrite false, .ok .done, aside disk ram⟩]

theorem aside_run (hram : ram.base.toNat + ram.size ≤ 2 ^ 32) (hcount : 1 < Ram.pageCount ram) :
    Run PagingOperation.Step (start disk ram) (asideEvents disk ram) (aside disk ram) := by
  have hadd : (PagingOperation.addPage 0x401 .readWrite false).Step (relied disk ram) (.ok .done)
      (aside disk ram) := by
    have htake :
        (takeFrame .user none).run (relied disk ram) = .ok 1 ((relied disk ram).handOut 1) := rfl
    refine step_addPageTo rfl rfl rfl rfl rfl htake ?_ ?_ rfl
    · change (ram.patch 0 zeroPage).base.toNat + (ram.patch 0 zeroPage).size ≤ 2 ^ 32
      rwa [ByteStore.base_patch, ByteStore.size_patch]
    · change 1 < Ram.pageCount (ram.patch 0 zeroPage)
      rwa [Ram.pageCount_patch]
  exact (relied_run disk ram hram (Nat.lt_trans Nat.one_pos hcount)).append (.next hadd (.done _))

theorem aside_withinCounts : ∀ e ∈ asideEvents disk ram, WithinCounts e.state := by
  intro e he
  apply withinCounts_of_size
  simp only [asideEvents, reliedEvents, List.cons_append, List.nil_append, List.mem_cons,
    List.not_mem_nil, or_false] at he
  rcases he with rfl | rfl | rfl | rfl | rfl | rfl | rfl | rfl
  · exact Nat.zero_le _
  · exact (by decide : 1 ≤ maxRefs)
  · exact (by decide : 1 ≤ maxRefs)
  · exact (by decide : 2 ≤ maxRefs)
  · exact (by decide : 2 ≤ maxRefs)
  · exact (by decide : 3 ≤ maxRefs)
  · exact (by decide : 3 ≤ maxRefs)
  · exact (by decide : 4 ≤ maxRefs)

theorem aside_not_shared : ¬ SharedOpenly (asideEvents disk ram) 2 0x401 := by
  rintro ⟨front, e, back, hes, ⟨q, source, target, hop, -, hparty⟩, -⟩
  have he : e ∈ asideEvents disk ram := hes ▸ List.mem_append_right front List.mem_cons_self
  simp only [asideEvents, reliedEvents, List.cons_append, List.nil_append, List.mem_cons,
    List.not_mem_nil, or_false] at he
  rcases he with rfl | rfl | rfl | rfl | rfl | rfl | rfl | rfl <;> cases hop
  -- the one share was of another page
  rcases hparty with ⟨-, hpage⟩ | ⟨-, hpage⟩ <;> exact absurd hpage (by decide)

theorem translate_aside :
    ∃ physical, Yields (translate 0x401000 .write .user) (aside disk ram) (.ok physical)
      (aside disk ram) := ⟨_, rfl⟩

end

/-- It is not so that a frame that is stored to has no flagged mapping but that of the store. -/
theorem flagged_page_stored_to : ¬ ∀ (ram : Ram) (disk : Disk) (ranges : PageRanges) (p : Paging)
    (es : List (Event PagedMemory PagingOperation Answer)) (m m' : PagedMemory)
    (address physical pid frame : Word) (privilege : Privilege)
    (mp : Mapping), Paging.ofDevices ram disk ranges = .ok p →
    Run PagingOperation.Step ⟨p, ram⟩ es m →
    Yields (translate address .write privilege) m (.ok physical) m' →
    m'.current = some pid → m'.mappingIn? pid address.page = some mp → mp.location = .frame frame →
    ∀ q page' mp', m'.mappingIn? q page' = some mp' → mp'.copyOnWrite →
      mp'.location = .frame frame → q = pid ∧ page' = address.page := by
  intro hduplicated
  obtain ⟨physical, hstep⟩ := translate_inPlace disk ram
  have hsame :=
    (hduplicated ram disk ranges _ _ _ _ 0x400000 physical 2 0 .user ⟨.frame 0, .readWrite, false⟩
      (ofDevices rfl size_ram disk) (relied_run disk ram ram_fits.1 ram_fits.2) hstep rfl rfl rfl
      1 0x400 ⟨.frame 0, .readWrite, true⟩ rfl rfl rfl).1
  exact absurd hsame (by decide)

/-- A store to a flagged page, and one to a page that was never shared in a run that shares another
one openly. -/
theorem store_alone :
    (∃ physical m' frame, Yields (translate 0x400000 .write .user) (forkedWritable disk ram)
      (.ok physical) m' ∧ m'.Alone 1 0x400 (.frame frame)) ∧
    ∃ physical frame, Yields (translate 0x401000 .write .user) (aside disk ram) (.ok physical)
      (aside disk ram) ∧ (aside disk ram).Alone 2 0x401 (.frame frame) := by
  have hp := ofDevices rfl size_ram disk
  have hcount : 1 < Ram.pageCount ram := by rw [Ram.pageCount, size_ram]; decide
  constructor
  · obtain ⟨physical, m', hstep⟩ := translate_copies disk ram ram_fits.1 hcount
    obtain ⟨pid, mp, frame, hc, hm, -, hlands, -⟩ := flagged_pages_duplicated hp rfl ram_fits.1
      (forked_run disk ram ram_fits.1 ram_fits.2) (forked_withinCounts disk ram) hstep
    obtain rfl : 1 = pid := Option.some.inj hc
    obtain rfl : ⟨.frame 0, .readWrite, true⟩ = mp := Option.some.inj hm
    exact ⟨physical, m', frame, hstep, hlands.duplicated rfl⟩
  · obtain ⟨physical, hstep⟩ := translate_aside disk ram
    obtain ⟨pid, mp, frame, hc, -, -, -, halone⟩ := flagged_pages_duplicated hp rfl ram_fits.1
      (aside_run disk ram ram_fits.1 hcount) (aside_withinCounts disk ram) hstep
    obtain rfl : 2 = pid := Option.some.inj hc
    exact ⟨physical, frame, hstep, halone (aside_not_shared disk ram)⟩

end PagedMachine.OpenShare

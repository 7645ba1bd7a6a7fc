import PagedMachine.Proofs.Housing
import PagedMachine.Proofs.Runs

/-!
# Refusals

When a translation and the mapping of a new page are refused, and with which fault.
That can be told from the state before them: a page-in frees the slot it reads, so
a copy that follows it is short of nothing but a second frame.
-/

namespace PagedMachine

def fault? {σ α : Type} (x : EStateM Fault σ α) (s : σ) : Option Fault :=
  match x.run s with
  | .ok _ _ => none
  | .error e _ => some e

section
variable {σ α β : Type} {x : EStateM Fault σ α} {f : α → EStateM Fault σ β} {s s' : σ} {a : α}
    {e : Fault}

theorem fault?_ok (h : x.run s = .ok a s') : fault? x s = none := by rw [fault?, h]

theorem fault?_error (h : x.run s = .error e s') : fault? x s = some e := by rw [fault?, h]

theorem fault?_eq_some (h : fault? x s = some e) : ∃ s', x.run s = .error e s' := by
  unfold fault? at h
  split at h
  · cases h
  · rename_i e' s' hx
    exact ⟨s', Option.some.inj h ▸ hx⟩

theorem fault?_bind_ok (h : x.run s = .ok a s') : fault? (x >>= f) s = fault? (f a) s' := by
  rw [fault?, bind_ok h, fault?]

theorem fault?_bind_error (h : x.run s = .error e s') : fault? (x >>= f) s = some e :=
  fault?_error (bind_error h)

theorem fault?_get_bind (f : σ → EStateM Fault σ β) (s : σ) :
    fault? (get >>= f) s = fault? (f s) s := rfl

/-- What comes last and never fails does not count. -/
theorem fault?_bind_total (hf : ∀ a s, fault? (f a) s = none) :
    fault? (x >>= f) s = fault? x s := by
  cases h : x.run s with
  | ok a s' => rw [fault?_bind_ok h, hf, fault?_ok h]
  | error e s' => rw [fault?_bind_error h, fault?_error h]

end

namespace PagedMemory

variable {m m' : PagedMemory} {v : Virtual.Memory} {page frame : Word} {mp : Mapping}
    {access : Access}

/-! ## What is said of refusals -/

def Full (m : PagedMemory) (kind : PoolKind) : Prop := (m.pool kind).freeCount = 0

instance (m : PagedMemory) (kind : PoolKind) : Decidable (m.Full kind) :=
  inferInstanceAs (Decidable (_ = _))

def Denied (p : Permissions) (access : Access) (privilege : Privilege) : Prop :=
  access = .write ∧ p.write = false ∨ access = .execute ∧ p.execute = false ∨
    privilege = .user ∧ p.kernel = true

instance (p : Permissions) (access : Access) (privilege : Privilege) :
    Decidable (Denied p access privilege) :=
  inferInstanceAs (Decidable (_ ∨ _ ∨ _))

def Copies (m : PagedMemory) (mp : Mapping) (access : Access) : Prop :=
  access = .write ∧ mp.copyOnWrite = true ∧ 1 < m.refs mp.location

instance (m : PagedMemory) (mp : Mapping) (access : Access) : Decidable (m.Copies mp access) :=
  inferInstanceAs (Decidable (_ ∧ _ ∧ _))

def OnDisk : Location → Bool
  | .frame _ => false
  | .slot _ => true

/-- The pool that is used up when an allowed access cannot be served. -/
def shortage? (m : PagedMemory) (mp : Mapping) (access : Access) : Option PoolKind :=
  let pool := m.pool mp.permissions.pool
  if m.Full mp.permissions.pool ∧ m.Full .disk ∧
      (OnDisk mp.location ∨ ¬ OnDisk mp.location ∧ m.Copies mp access ∧ pool.low < pool.high)
      then some .disk
  else if m.Copies mp access ∧ pool.low = pool.high then some mp.permissions.pool
  else none

def translationFault? (m : PagedMemory) (address : Word) (access : Access) (privilege : Privilege) :
    Option Fault :=
  match m.current with
  | none => some .noProcess
  | some _ =>
    match m.mapping? address.page with
    | none => some (.pageFault address access)
    | some mp =>
      if Denied mp.permissions access privilege then some (.protectionFault address access)
      else (m.shortage? mp access).map .resourceExhausted

def mappingFault? (m : PagedMemory) (page : Word) (permissions : Permissions) : Option Fault :=
  if maxPage < page then some (.memoryOutOfBounds page)
  else
    match m.current with
    | none => some .noProcess
    | some _ =>
      if (m.mapping? page).isSome then some (.alreadyMapped page)
      else if m.Full permissions.pool ∧ m.Full .disk then some (.resourceExhausted .disk)
      else none

/-! ## Frames that can be had -/

theorem full_iff {kind : PoolKind} : m.Full kind ↔ ¬ m.HasFree kind := by
  constructor
  · rintro hfull ⟨page, hp⟩
    have hkeys := Table.mem_keys.mpr hp
    simp only [Full, Pool.freeCount, Table.size, List.length_eq_zero_iff] at hfull
    simp [Table.keys, hfull] at hkeys
  · intro hfree
    have hkeys := keys_of_not_hasFree hfree
    simpa [Full, Pool.freeCount, Table.size, Table.keys] using hkeys

/-- A pool has no frame but this one exactly if it has only one. -/
theorem onlyPinned_iff {kind : PoolKind} (ho : (m.pool kind).owns frame) :
    m.OnlyPinned kind (some frame) ↔ (m.pool kind).low = (m.pool kind).high := by
  obtain ⟨hlow, hhigh⟩ := owns_iff.mp ho
  constructor
  · intro honly
    have hl := honly (m.pool kind).low (owns_iff.mpr ⟨Nat.le_refl _, by omega⟩)
    have hh := honly (m.pool kind).high (owns_iff.mpr ⟨by omega, Nat.le_refl _⟩)
    exact Option.some.inj (hl.symm.trans hh)
  · intro hone g hg
    obtain ⟨hlow', hhigh'⟩ := owns_iff.mp hg
    rw [hone] at hlow hlow'
    exact congrArg some (UInt32.toNat_inj.mp (by omega))

/-- What is lacking for a copy of a shared page of the pool. -/
theorem Consistent.lacks_iff (h : Consistent m) {kind e : PoolKind}
    (hpool : m.framePool frame = kind) (hf : m.mappingsOf (.frame frame) ≠ 0) :
    m.Lacks kind (some frame) e ↔ e = kind ∧ (m.pool kind).low = (m.pool kind).high ∨
        e = .disk ∧ (m.pool kind).low < (m.pool kind).high ∧ ¬ m.HasFree kind ∧
        ¬ m.HasFree .disk := by
  have ho : (m.pool kind).owns frame := hpool ▸ h.books.owned _ hf
  have honly := onlyPinned_iff ho
  obtain ⟨hlow, hhigh⟩ := owns_iff.mp ho
  have hlt : (m.pool kind).low < (m.pool kind).high ↔ ¬ m.OnlyPinned kind (some frame) := by
    rw [honly, UInt32.lt_iff_toNat_lt, ← UInt32.toNat_inj]
    omega
  have hfull : m.OnlyPinned kind (some frame) → ¬ m.HasFree kind := by
    rintro hpinned ⟨g, hg⟩
    obtain rfl := Option.some.inj (hpinned g (h.books.pooled _ _ hg))
    have hfree : m.isFree (.frame frame) := by rwa [← hpool] at hg
    exact hf (h.mappingsOf_of_isFree hfree)
  rw [Lacks, hlt, ← honly]
  constructor
  · rintro ⟨hnone, hfew | ⟨he, hspare, hdisk⟩⟩
    · exact .inl hfew
    · exact .inr ⟨he, hspare, hnone, hdisk⟩
  · rintro (⟨he, hpinned⟩ | ⟨he, hspare, hnone, hdisk⟩)
    · exact ⟨hfull hpinned, .inl ⟨he, hpinned⟩⟩
    · exact ⟨hnone, .inr ⟨he, hspare, hdisk⟩⟩

/-! ## Translations -/

theorem denied_iff {p : Permissions} {privilege : Privilege} : Denied p access privilege ↔
    ¬ p.allow access privilege = true := by
  unfold Denied Permissions.allow
  cases access <;> cases privilege <;> simp [or_iff_not_imp_left]

theorem stranded_iff : m.Stranded mp ↔
    OnDisk mp.location = true ∧ m.Full mp.permissions.pool ∧ m.Full .disk := by
  rw [Stranded, full_iff, full_iff]
  cases mp.location <;> simp [OnDisk]

/-- A shortage is one of a page on the disk or one of the copy. -/
theorem shortage?_eq_none (hstranded : ¬ m.Stranded mp) (hcopies : ¬ m.Copies mp access) :
    m.shortage? mp access = none := by
  rw [stranded_iff] at hstranded
  unfold shortage?
  rw [if_neg, if_neg fun hone => hcopies hone.1]
  rintro ⟨hpool, hdisk, hon | ⟨-, hcopy, -⟩⟩
  · exact hstranded ⟨hon, hpool, hdisk⟩
  · exact hcopies hcopy

theorem shortage?_of_stranded (hstranded : m.Stranded mp) : m.shortage? mp access = some .disk := by
  obtain ⟨hon, hpool, hdisk⟩ := stranded_iff.mp hstranded
  exact if_pos ⟨hpool, hdisk, .inl hon⟩

theorem shortage?_eq_some_iff (hstranded : ¬ m.Stranded mp) (hcopies : m.Copies mp access)
    {e : PoolKind} :
    m.shortage? mp access = some e ↔
      e = mp.permissions.pool ∧
      (m.pool mp.permissions.pool).low = (m.pool mp.permissions.pool).high ∨
        e = .disk ∧ (m.pool mp.permissions.pool).low < (m.pool mp.permissions.pool).high ∧
          ¬ OnDisk mp.location = true ∧ m.Full mp.permissions.pool ∧ m.Full .disk := by
  rw [stranded_iff] at hstranded
  unfold shortage?
  dsimp only
  split
  · rename_i hslots
    obtain ⟨hpool, hdisk, hon | ⟨hon, -, hlt⟩⟩ := hslots
    · exact absurd ⟨hon, hpool, hdisk⟩ hstranded
    · constructor
      · rintro ⟨⟩
        exact .inr ⟨rfl, hlt, hon, hpool, hdisk⟩
      · rintro (⟨-, hone⟩ | ⟨rfl, -⟩)
        · exact absurd hone (UInt32.ne_of_lt hlt)
        · rfl
  · rename_i hslots
    split
    · rename_i hone
      constructor
      · rintro ⟨⟩
        exact .inl ⟨rfl, hone.2⟩
      · rintro (⟨rfl, -⟩ | ⟨-, hlt, -⟩)
        · rfl
        · exact absurd hone.2 (UInt32.ne_of_lt hlt)
    · rename_i hone
      have hmany : ¬ (m.pool mp.permissions.pool).low = (m.pool mp.permissions.pool).high :=
        fun he => hone ⟨hcopies, he⟩
      refine ⟨nofun, ?_⟩
      rintro (⟨-, he⟩ | ⟨-, hlt, hon, hpool, hdisk⟩)
      · exact absurd he hmany
      · exact absurd ⟨hpool, hdisk, .inr ⟨hon, hcopies, hlt⟩⟩ hslots

/-- For a copy it is told before the page-in what will be lacking after it. -/
theorem Consistent.shortage?_of_copies (h' : Consistent m') (hrange : m'.range = m.range)
    (hstranded : ¬ m.Stranded mp) (hcopies : m.Copies mp access)
    (hpool : m'.framePool frame = mp.permissions.pool) (hf : m'.mappingsOf (.frame frame) ≠ 0)
    (hstay : m' = m ∧ mp.location = .frame frame ∨ (∃ slot, mp.location = .slot slot) ∧
      m'.HasFree .disk) (e : PoolKind) : m.shortage? mp access = some e ↔
      m'.Lacks mp.permissions.pool (some frame) e := by
  have hends : (m'.pool mp.permissions.pool).low = (m.pool mp.permissions.pool).low ∧
      (m'.pool mp.permissions.pool).high = (m.pool mp.permissions.pool).high := by
    have hk := congrFun hrange mp.permissions.pool
    simp only [Paging.range, Prod.mk.injEq] at hk
    exact hk.2
  rw [h'.lacks_iff hpool hf, hends.1, hends.2, shortage?_eq_some_iff hstranded hcopies, full_iff,
    full_iff]
  rcases hstay with ⟨rfl, hl⟩ | ⟨⟨slot, hl⟩, hdisk⟩
  · simp [hl, OnDisk]
  · simp [hl, OnDisk, hdisk]

theorem Consistent.fault?_materialise (h : Consistent m) (hv : Represents m v) (hm : Housed m)
    (hmp : m.mapping? page = some mp) (access : Access) :
    fault? (PagedMemory.materialise page mp access) m =
    (m.shortage? mp access).map .resourceExhausted := by
  rw [materialise_eq]
  rcases h.bringIn hv hmp with ⟨hnot, frame, m₁, hrun, hfollows, hmp₁, hmaps, hstay⟩
    | ⟨hrun, hstranded⟩
  -- The copy is made in the state after the page-in, but the shortage is one of the state before.
  · rw [fault?_bind_ok hrun]
    have h₁ := hfollows.consistent
    obtain ⟨pid, d, hc, hd, hmd⟩ := mapping?_some.mp hmp₁
    by_cases hstore : access = .write ∧ mp.copyOnWrite = true
    · rw [if_pos hstore]
      by_cases hshared : 1 < m₁.mappingsOf (.frame frame)
      · have hpool : m₁.framePool frame = mp.permissions.pool :=
          (h.housed_bringIn hm hmp (show Yields _ m (.ok frame) m₁ from hrun)).resident
            { mp with location := .frame frame } frame (maps_of_mapping? hmp₁) rfl
        have hcopies : m.Copies mp access := ⟨hstore.1, hstore.2, by rwa [h.refs_eq, ← hmaps]⟩
        have hshort :=
          h₁.shortage?_of_copies hfollows.extent.range hnot hcopies hpool (by omega) hstay
        rw [← hpool] at hshort
        rcases h₁.privatise_shared hc hd hmd rfl hshared with ⟨hnone, copy, m₂, -, -, -, hcopy⟩
          | ⟨e, hcopy, hlacks⟩
        · rw [fault?_ok hcopy, Option.eq_none_iff_forall_ne_some.mpr fun e he =>
            hnone e ((hshort e).mp he)]
          rfl
        · rw [fault?_error hcopy, (hshort e).mpr hlacks]
          rfl
      · have halone : ¬ m.Copies mp access :=
          fun hcopies => hshared (by rw [hmaps, ← h.refs_eq]; exact hcopies.2.2)
        rw [fault?_ok (privatise_run_ownInPlace (by rwa [h₁.refs_eq]) hc hd),
          shortage?_eq_none hnot halone]
        rfl
    · have halone : ¬ m.Copies mp access := fun hcopies => hstore ⟨hcopies.1, hcopies.2.1⟩
      rw [if_neg hstore, shortage?_eq_none hnot halone]
      rfl
  · rw [fault?_bind_error hrun, shortage?_of_stranded hstranded]
    rfl

theorem currentDirectory_of_none (hc : m.current = none) :
    m.currentDirectory = .error .noProcess := by
  rw [Paging.currentDirectory, hc]

theorem Consistent.currentDirectory_of_some (h : Consistent m) {pid : Word}
    (hc : m.current = some pid) :
    ∃ d, m.processes.find? pid = some d ∧ m.currentDirectory = .ok d := by
  obtain ⟨d, hd⟩ := Table.contains_iff.mp (h.current pid hc)
  exact ⟨d, hd, currentDirectory_ok.mpr ⟨pid, hc, hd⟩⟩

theorem Consistent.fault?_translate (h : Consistent m) (hv : Represents m v) (hm : Housed m)
    (address : Word) (access : Access) (privilege : Privilege) :
    fault? (PagedMemory.translate address access privilege) m =
    m.translationFault? address access privilege := by
  rw [PagedMemory.translate, fault?_bind_total fun _ _ => rfl, PagedMemory.resolve,
    translationFault?]
  cases hmp : m.mapping? address.page with
  | none =>
    obtain ⟨counters, hrun⟩ := lookup_unmapped hmp address access
    rw [fault?_bind_error hrun]
    cases hc : m.current with
    | none => rw [currentDirectory_of_none hc]
    | some pid =>
      obtain ⟨d, -, hcur⟩ := h.currentDirectory_of_some hc
      rw [hcur]
  | some mp =>
    obtain ⟨pid, d, hc, -, -⟩ := mapping?_some.mp hmp
    rw [fault?_bind_ok (lookup_run hmp address access), hc]
    by_cases hdenied : Denied mp.permissions access privilege
    · rw [if_neg (denied_iff.mp hdenied)]
      exact (if_pos hdenied).symm
    · rw [if_pos (not_not.mp (denied_iff.not.mp hdenied)), h.fault?_materialise hv hm hmp access]
      exact (if_neg hdenied).symm

/-! ## New pages -/

theorem Consistent.fault?_newPage (h : Consistent m) {pid : Word} {d : Directory}
    (hc : m.current = some pid) (hd : m.processes.find? pid = some d) (hm : d.find? page = none)
    (permissions : Permissions) (copyOnWrite : Bool) :
    fault? (newPage page permissions copyOnWrite) m =
      if m.Full permissions.pool ∧ m.Full .disk then some (.resourceExhausted .disk) else none := by
  have hlacks : ∀ e, m.Lacks permissions.pool none e ↔
      e = .disk ∧ m.Full permissions.pool ∧ m.Full .disk := by
    intro e
    rw [h.lacks_none_iff (pool_ne_disk permissions), full_iff, full_iff]
  rcases h.newPage_exact hc hd hm permissions copyOnWrite with ⟨hnone, frame, m₀, -, -, -, hrun⟩
    | ⟨e, hrun, he⟩
  · rw [fault?_ok hrun, if_neg fun hfull => hnone .disk ((hlacks .disk).mpr ⟨rfl, hfull⟩)]
  · obtain ⟨rfl, hfull⟩ := (hlacks e).mp he
    rw [fault?_error hrun, if_pos hfull]

theorem Consistent.fault?_addPage (h : Consistent m) (page : Word) (permissions : Permissions)
    (copyOnWrite : Bool) : fault? (PagedMemory.addPage page permissions copyOnWrite) m =
    m.mappingFault? page permissions := by
  rw [PagedMemory.addPage, mappingFault?]
  by_cases hbound : maxPage < page
  · have hcheck : Paging.checkPage page = .error (.memoryOutOfBounds page) :=
      if_neg (UInt32.not_le.mpr hbound)
    rw [if_pos hbound, fault?_bind_error (outcome_error hcheck m)]
  · have hcheck : Paging.checkPage page = .ok () := if_pos (UInt32.not_lt.mp hbound)
    rw [if_neg hbound, fault?_bind_ok (outcome_ok hcheck m), fault?_get_bind]
    cases hc : m.current with
    | none => exact fault?_bind_error (outcome_error (currentDirectory_of_none hc) m)
    | some pid =>
      obtain ⟨d, hd, hcur⟩ := h.currentDirectory_of_some hc
      rw [fault?_bind_ok (outcome_ok hcur m)]
      dsimp only
      rw [mapping?_eq hc hd]
      cases hm : d.find? page with
      | some mp =>
        have hmapped : d.contains page = true := Table.contains_iff.mpr ⟨mp, hm⟩
        rw [if_pos hmapped]
        rfl
      | none =>
        have hmapped : ¬ d.contains page = true :=
          Bool.eq_false_iff.mp (Table.contains_eq_false.mpr hm)
        rw [if_neg hmapped]
        exact h.fault?_newPage hc hd hm permissions copyOnWrite

/-! ## Runs -/

section
variable {ram : Ram} {disk : Disk} {ranges : PageRanges} {p : Paging}
    {es : List (Event PagedMemory PagingOperation Answer)}
  (hp : Paging.ofDevices ram disk ranges = .ok p) (hdisk : disk.base = 0)
  (hram : ram.base.toNat + ram.size ≤ 2 ^ 32) (hrun : Run PagingOperation.Step ⟨p, ram⟩ es m)
  (hpids : creations es < 2 ^ 32 - 1) (hcounts : ∀ e ∈ es, WithinCounts e.state)
include hp hdisk hram hrun hpids hcounts

/-- A run from a memory that was accepted ends in one that is consistent, with every page in its
pool. -/
theorem housed_of_run : Consistent m ∧ (∃ v, Represents m v) ∧ Housed m := by
  obtain ⟨hfits, rfl⟩ := Paging.ofDevices_ok hp
  have hstart : Consistent ⟨Paging.unmapped disk ranges, ram⟩ :=
    consistent_unmapped hfits hram hdisk
  have hhoused : Housed ⟨Paging.unmapped disk ranges, ram⟩ := housed_of_empty rfl
  have hkeeps :=
    hrun.preserves (fun m => m.nextPid.toNat)
    (I := fun m => Consistent m ∧ (∃ v, Represents m v) ∧ Housed m)
    (F := fun e => WithinCounts e.state) fun op m r m' ⟨h, ⟨v, hv⟩, hm⟩ hstep hwithin hpid => by
      obtain ⟨v', -, hfollows, hnumber, -⟩ := h.step hv hstep hwithin hpid
      exact ⟨⟨hfollows.consistent, ⟨v', hfollows.represents⟩, h.housed_step hv hm hstep⟩, hnumber⟩
  have hbudget : (Paging.unmapped disk ranges).nextPid.toNat + creations es < 2 ^ 32 := by
    change 1 + creations es < 2 ^ 32
    omega
  exact (hkeeps ⟨hstart, ⟨_, represents_unmapped disk ranges ram⟩, hhoused⟩ hbudget hcounts).1

/-- In every state of a run it is known when a translation and a new page are refused. -/
theorem refusals_exact :
    (∀ address access privilege,
      fault? (PagedMemory.translate address access privilege) m =
      m.translationFault? address access privilege) ∧ ∀ page permissions copyOnWrite,
      fault? (PagedMemory.addPage page permissions copyOnWrite) m =
      m.mappingFault? page permissions := by
  obtain ⟨h, ⟨v, hv⟩, hm⟩ := housed_of_run hp hdisk hram hrun hpids hcounts
  exact ⟨h.fault?_translate hv hm, h.fault?_addPage⟩

end

end PagedMemory

/-! ## Too few frames

One frame for user pages and no disk: a process has its only page there, and a fork
of it.
-/

namespace OneFrame

open PagedMemory

def ranges : PageRanges := ⟨0, 0, 1, 1⟩

def disk : Disk := .zeroed 0

def directory (copyOnWrite : Bool) : Directory :=
  Table.empty.insert 0x400 ⟨.frame 0, .readWrite, copyOnWrite⟩

section
variable (ram : Ram)

def start : PagedMemory := ⟨Paging.unmapped disk ranges, ram⟩

def begun : PagedMemory :=
  { start ram with processes := Table.empty.insert 1 .empty, current := some 1, nextPid := 2 }

def mapped : PagedMemory :=
  { begun ram with
    userPool := { (Pool.ofRange .user 0 0) with free := (Pool.ofRange .user 0 0).free.erase 0 }
    frameRefs := Table.empty.insert 0 1
    resident := [0]
    processes := Table.empty.insert 1 (directory false)
    ram := ram.patch 0 zeroPage }

def forked : PagedMemory :=
  { mapped ram with
    frameRefs := Table.empty.insert 0 2
    processes := (Table.empty.insert 1 (directory true)).insert 2 (directory true)
    nextPid := 3 }

def events : List (Event PagedMemory PagingOperation Answer) :=
  [⟨.beginProcess, .ok (.process 1), begun ram⟩,
    ⟨.addPage 0x400 .readWrite false, .ok .done, mapped ram⟩,
    ⟨.forkProcess, .ok (.process 2), forked ram⟩]

theorem step_addPage (hram : ram.base.toNat + ram.size ≤ 2 ^ 32) (hcount : 0 < Ram.pageCount ram) :
    (PagingOperation.addPage 0x400 .readWrite false).Step (begun ram) (.ok .done) (mapped ram) := by
  have hwrite : (Ram.writeFrame 0 zeroPage).run ram = .ok () (ram.patch 0 zeroPage) :=
    Ram.writeFrame_ok hram hcount length_zeroPage
  have htake : (takeFrame Permissions.readWrite.pool none).run (begun ram) =
      .ok 0 ((begun ram).handOut 0) := rfl
  have hadd : (addPage 0x400 .readWrite false).run (begun ram) = .ok 0 (mapped ram) :=
    (addPage_run (d := .empty) rfl rfl rfl).trans (newPage_run htake hwrite rfl rfl)
  exact map_ok hadd

theorem run (hram : ram.base.toNat + ram.size ≤ 2 ^ 32) (hcount : 0 < Ram.pageCount ram) :
    Run PagingOperation.Step (start ram) (events ram) (forked ram) :=
  .next rfl (.next (step_addPage ram hram hcount) (.next rfl (.done _)))

theorem withinCounts : ∀ e ∈ events ram, WithinCounts e.state := by
  intro e he
  apply withinCounts_of_size
  simp only [events, List.mem_cons, List.not_mem_nil, or_false] at he
  rcases he with rfl | rfl | rfl
  · exact Nat.zero_le _
  · exact (by decide : 1 ≤ maxRefs)
  · exact (by decide : 2 ≤ maxRefs)

end

theorem ofDevices {ram : Ram} (hbase : ram.base.pageOffset = 0) (hsize : ram.size = 32768) :
    Paging.ofDevices ram disk ranges = .ok (Paging.unmapped disk ranges) := by
  unfold Paging.ofDevices Ram.pageCount
  rw [hsize, hbase]
  rfl

/-- There is no copy of the page, and no other page. -/
theorem refused : fault? (translate 0x400000 .write .user)
    (forked TwoReaders.ram) = some (.resourceExhausted .user) ∧
    fault? (translate 0x400000 .read .user) (forked TwoReaders.ram) = none ∧
    fault? (addPage 0x401 .readOnly false)
    (forked TwoReaders.ram) = some (.resourceExhausted .disk) := by
  obtain ⟨htranslate, hadd⟩ :=
    refusals_exact (ofDevices rfl TwoReaders.size_ram) rfl TwoReaders.ram_fits.1
    (run TwoReaders.ram TwoReaders.ram_fits.1 TwoReaders.ram_fits.2) (by decide : 2 < 2 ^ 32 - 1)
    (withinCounts TwoReaders.ram)
  rw [htranslate, htranslate, hadd]
  exact ⟨rfl, rfl, rfl⟩

end OneFrame

end PagedMachine

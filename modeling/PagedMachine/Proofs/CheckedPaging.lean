import PagedMachine.Proofs.Checks
import PagedMachine.Proofs.Operations
import PagedMachine.Proofs.Solvency

/-!
# Checked paging

Paged memory with its slices and sums checked. A slice has to lie in its store and
to be as long as the row of bytes on the other side. A span that was found leaves
no choice in that, in any memory. The sum of a frame's address and an offset is
another matter: it needs a frame that lies in RAM, which every resolved page has.
-/

namespace PagedMachine

open Checked

/-! ## Slices -/

namespace ByteStore

def checkedReadBytes (s : ByteStore) (address : Word) (length : Nat) :
    Except Trap (List UInt8) := do
  let offset ← result (s.span address (length % 2 ^ 32))
  if offset + length % 2 ^ 32 ≤ s.bytes.size ∧ length % 2 ^ 32 = length then
    return (s.bytes.extract offset (offset + length)).toList
  else throw .outOfRange

def checkedRead (s : ByteStore) (address : Word) (width : Width) : Except Trap Word :=
  (s.checkedReadBytes address width.bytes).map fun bs => UInt32.ofNat (PagedMachine.ofBytes bs)

def checkedWriteBytes (address : Word) (bytes : List UInt8) : Checked ByteStore Unit := do
  let s ← get
  let offset ← outcome (result (s.span address (bytes.length % 2 ^ 32)))
  require (offset + bytes.length % 2 ^ 32 ≤ s.bytes.size ∧ bytes.length % 2 ^ 32 = bytes.length)
  modify fun s => { s with bytes := writeSlice s.bytes offset bytes }

def checkedWrite (address : Word) (width : Width) (value : Word) : Checked ByteStore Unit := do
  require (width.bytes ≤ (toBytes 4 value.toNat).length)
  checkedWriteBytes address ((toBytes 4 value.toNat).take width.bytes)

variable {s : ByteStore} {address : Word}

theorem span_le {length offset : Nat} (h : s.span address length = .ok offset) :
    offset + length ≤ s.bytes.size := by
  unfold span at h
  split at h
  · rename_i hspan
    obtain rfl := Except.ok.inj h
    exact Nat.le_trans hspan.2 s.size_le
  · cases h

theorem checkedReadBytes_eq {length : Nat} (hlength : length < 2 ^ 32) :
    s.checkedReadBytes address length = result (s.readBytes address length) := by
  unfold checkedReadBytes readBytes
  rw [Nat.mod_eq_of_lt hlength]
  cases hspan : s.span address length with
  | error e => rfl
  | ok offset => exact if_pos ⟨span_le hspan, rfl⟩

theorem checkedRead_eq (s : ByteStore) (address : Word) (width : Width) :
    s.checkedRead address width = result (s.read address width) := by
  have hlength : width.bytes < 2 ^ 32 := by cases width <;> decide
  rw [checkedRead, read, checkedReadBytes_eq hlength]
  cases s.readBytes address width.bytes <;> rfl

theorem passes_writeBytes {bytes : List UInt8} (hlength : bytes.length < 2 ^ 32) (s : ByteStore) :
    Passes (checkedWriteBytes address bytes) (writeBytes address bytes) s := by
  unfold checkedWriteBytes writeBytes
  rw [Nat.mod_eq_of_lt hlength]
  refine passes_get_bind ?_
  cases hspan : s.span address bytes.length with
  | error e => rfl
  | ok offset => exact passes_require ⟨span_le hspan, rfl⟩ (passes_modify _ s)

theorem take_toBytes (n k v : Nat) (h : n ≤ k) : (toBytes k v).take n = toBytes n v := by
  induction k generalizing n v with
  | zero =>
    obtain rfl : n = 0 := Nat.le_zero.mp h
    rfl
  | succ k ih =>
    cases n with
    | zero => rfl
    | succ n => exact congrArg _ (ih n (v / 256) (Nat.le_of_succ_le_succ h))

theorem passes_write (address : Word) (width : Width) (value : Word) (s : ByteStore) :
    Passes (checkedWrite address width value) (write address width value) s := by
  have hwidth := width.bytes_le_four
  refine passes_require (by rwa [length_toBytes]) ?_
  rw [take_toBytes _ _ _ hwidth]
  exact passes_writeBytes (by rw [length_toBytes]; omega) s

end ByteStore

namespace Ram

def checkedReadFrame (ram : Ram) (frame : Word) : Except Trap (List UInt8) :=
  ram.checkedReadBytes (frameAddress ram frame) pageSize

def checkedWriteFrame (frame : Word) (page : List UInt8) : Checked Ram Unit := do
  ByteStore.checkedWriteBytes (frameAddress (← get) frame) page

def checkedCopyFrame (source target : Word) : Checked Ram Unit := do
  let page ← MonadExcept.ofExcept (checkedReadFrame (← get) source)
  checkedWriteFrame target page

theorem checkedReadFrame_eq (ram : Ram) (frame : Word) :
    checkedReadFrame ram frame = result (readFrame ram frame) :=
  ByteStore.checkedReadBytes_eq (by decide)

theorem passes_writeFrame (frame : Word) {page : List UInt8} (hpage : page.length = pageSize)
    (ram : Ram) : Passes (checkedWriteFrame frame page) (writeFrame frame page) ram :=
  passes_get_bind (ByteStore.passes_writeBytes (hpage ▸ by decide) ram)

theorem passes_copyFrame (source target : Word) (ram : Ram) :
    Passes (checkedCopyFrame source target) (copyFrame source target) ram := by
  refine passes_get_bind ((passes_ofExcept (checkedReadFrame_eq ram source) ram).bind ?_)
  intro page ram' hread
  cases hpage : readFrame ram source with
  | error e =>
    rw [hpage] at hread
    cases hread
  | ok page' =>
    obtain ⟨hsame, -⟩ := hread.eq_of_ok (ofExcept_ok hpage ram)
    obtain rfl := Except.ok.inj hsame
    exact passes_writeFrame target (ByteStore.length_of_readBytes hpage) ram'

end Ram

namespace Disk

def checkedReadSlot (disk : Disk) (slot : Word) : Except Trap (List UInt8) := do
  disk.checkedReadBytes (← result (slotAddress slot)) pageSize

def checkedWriteSlot (slot : Word) (page : List UInt8) : Checked Disk Unit := do
  ByteStore.checkedWriteBytes (← MonadExcept.ofExcept (result (slotAddress slot))) page

theorem checkedReadSlot_eq (disk : Disk) (slot : Word) :
    checkedReadSlot disk slot = result (readSlot disk slot) := by
  unfold checkedReadSlot readSlot
  cases slotAddress slot with
  | error e => rfl
  | ok address => exact ByteStore.checkedReadBytes_eq (by decide)

theorem passes_writeSlot (slot : Word) {page : List UInt8} (hpage : page.length = pageSize)
    (disk : Disk) : Passes (checkedWriteSlot slot page) (writeSlot slot page) disk :=
  (passes_ofExcept rfl disk).bind fun _ disk' _ =>
    ByteStore.passes_writeBytes (hpage ▸ by decide) disk'

end Disk

/-! ## Pages on the move -/

namespace PagedMemory

variable {m : PagedMemory} {α : Type}

def checkedOnRam (c : Checked Ram α) : Checked PagedMemory α :=
  focus (fun ⟨paging, ram⟩ => (ram, fun ram => ⟨paging, ram⟩)) c

def checkedOnDisk (c : Checked Disk α) : Checked PagedMemory α :=
  focus (fun m : PagedMemory => (m.disk, fun disk => { m with disk := disk })) c

theorem passes_onRam {c : Checked Ram α} {x : EStateM Fault Ram α} (h : Passes c x m.ram) :
    Passes (checkedOnRam c) (onRam x) m :=
  Passes.focus h

theorem passes_onDisk {c : Checked Disk α} {x : EStateM Fault Disk α} (h : Passes c x m.disk) :
    Passes (checkedOnDisk c) (onDisk x) m :=
  Passes.focus h

def checkedEvict (frame : Word) : Checked PagedMemory Unit := do
  let pool := (← get).framePool frame
  match (← get).frameRefs.find? frame with
  | none => throw (.fault (.consistencyFault pool frame))
  | some count =>
    let page ← outcome (Ram.checkedReadFrame (← get).ram frame)
    let slot ← lift (onPool .disk Pool.allocate)
    checkedOnDisk (Disk.checkedWriteSlot slot page)
    lift do
      modify fun m =>
        { m with
          frameRefs := m.frameRefs.erase frame
          resident := m.resident.filter (· != frame)
          slotRefs := m.slotRefs.insert slot count }
      repoint (.frame frame) (.slot slot)
      onPool pool (Pool.release frame)
      tally fun c => { c with pageOuts := c.pageOuts.succ }

def checkedTakeFrame (pool : PoolKind) (pinned : Option Word) : Checked PagedMemory Word := do
  if ((← get).pool pool).free.isEmpty then
    match victim? (← get) pool pinned with
    | none => throw (.fault (.resourceExhausted pool))
    | some frame =>
      checkedEvict frame
      lift (tally fun c => { c with evictions := c.evictions.succ })
  lift (onPool pool Pool.allocate)

def checkedPageIn (slot : Word) (pool : PoolKind) : Checked PagedMemory Word := do
  let page ← outcome (Disk.checkedReadSlot (← get).disk slot)
  let frame ← checkedTakeFrame pool none
  checkedOnRam (Ram.checkedWriteFrame frame page)
  lift do
    match (← get).slotRefs.find? slot with
    | none => throw (.consistencyFault .disk slot)
    | some count =>
      modify fun m => { m with slotRefs := m.slotRefs.erase slot }
      onPool .disk (Pool.release slot)
      repoint (.slot slot) (.frame frame)
      track frame count
      tally fun c => { c with pageIns := c.pageIns.succ }
      return frame

def checkedPrivatise (page frame : Word) : Checked PagedMemory Word := do
  let target ← if 1 < (← get).refs (.frame frame) then do
      let copy ← checkedTakeFrame ((← get).framePool frame) (some frame)
      checkedOnRam (Ram.checkedCopyFrame frame copy)
      lift (track copy 1)
      lift (release (.frame frame))
      lift (tally fun c => { c with copies := c.copies.succ })
      pure copy
    else pure frame
  lift (updateCurrent (·.update page fun m =>
    { m with location := .frame target, copyOnWrite := false }))
  return target

def checkedMaterialise (page : Word) (mp : Mapping) (access : Access) :
    Checked PagedMemory Word := do
  let frame ← match mp.location with
    | .frame frame => pure frame
    | .slot slot => checkedPageIn slot mp.permissions.pool
  if access = .write ∧ mp.copyOnWrite then checkedPrivatise page frame else return frame

def checkedPageOut (page : Word) : Checked PagedMemory Unit := do
  match (← lift do outcome ((← get).mappingOf page)).location with
  | .frame frame => checkedEvict frame
  | .slot _ => pure ()

def checkedAddPage (page : Word) (permissions : Permissions) (copyOnWrite : Bool) :
    Checked PagedMemory Word := do
  lift (outcome (Paging.checkPage page))
  if (← lift (outcome (← get).currentDirectory)).contains page then
    throw (.fault (.alreadyMapped page))
  let frame ← checkedTakeFrame permissions.pool none
  checkedOnRam (Ram.checkedWriteFrame frame zeroPage)
  lift (track frame 1)
  lift (updateCurrent (·.insert page ⟨.frame frame, permissions, copyOnWrite⟩))
  return frame

theorem passes_evict (frame : Word) (m : PagedMemory) :
    Passes (checkedEvict frame) (evict frame) m := by
  refine passes_get_bind (passes_get_bind ?_)
  cases m.frameRefs.find? frame with
  | none => exact passes_throw _ m
  | some count =>
    refine passes_get_bind ((passes_outcome (Ram.checkedReadFrame_eq m.ram frame) m).bind ?_)
    intro page m₁ hread
    have hpage : page.length = pageSize := ByteStore.length_of_readBytes hread.of_outcome.1.symm
    refine (passes_lift _ m₁).bind fun slot m₂ _ => ?_
    exact (passes_onDisk (Disk.passes_writeSlot slot hpage m₂.disk)).bind fun _ m₃ _ =>
      passes_lift _ m₃

theorem passes_takeFrame (pool : PoolKind) (pinned : Option Word) (m : PagedMemory) :
    Passes (checkedTakeFrame pool pinned) (takeFrame pool pinned) m := by
  refine passes_get_bind ?_
  by_cases hempty : (m.pool pool).free.isEmpty = true
  · simp only [hempty, if_true]
    refine passes_get_bind ?_
    cases victim? m pool pinned with
    | none => exact passes_throw_bind _ _ _ m
    | some frame =>
      refine (passes_evict frame m).bind fun _ m₁ _ => ?_
      exact (passes_lift _ m₁).bind fun _ m₂ _ => passes_lift _ m₂
  · simp only [hempty]
    exact passes_lift _ m

theorem passes_pageIn (slot : Word) (pool : PoolKind) (m : PagedMemory) :
    Passes (checkedPageIn slot pool) (pageIn slot pool) m := by
  refine passes_get_bind ((passes_outcome (Disk.checkedReadSlot_eq m.disk slot) m).bind ?_)
  intro page m₁ hread
  have hpage : page.length = pageSize := Disk.length_of_readSlot hread.of_outcome.1.symm
  refine (passes_takeFrame pool none m₁).bind fun frame m₂ _ => ?_
  exact (passes_onRam (Ram.passes_writeFrame frame hpage m₂.ram)).bind fun _ m₃ _ =>
    passes_lift _ m₃

theorem passes_privatise (page frame : Word) (m : PagedMemory) :
    Passes (checkedPrivatise page frame) (privatise page frame) m := by
  let own := fun target =>
    updateCurrent (·.update page fun m =>
      { m with location := .frame target, copyOnWrite := false })
  have hrest :
      ∀ target m', Passes (lift (own target) >>= fun _ => pure target) (own target >>= fun _ =>
        pure target) m' :=
    fun target m' => (passes_lift _ m').bind fun _ m'' _ => passes_pure target m''
  refine passes_get_bind (passes_of_ite (fun _ => passes_get_bind ?_) fun _ => hrest frame m)
  refine (passes_takeFrame _ _ m).bind fun copy m₁ _ => ?_
  refine (passes_onRam (Ram.passes_copyFrame frame copy m₁.ram)).bind fun _ m₂ _ => ?_
  refine (passes_lift _ m₂).bind fun _ m₃ _ => (passes_lift _ m₃).bind fun _ m₄ _ => ?_
  exact (passes_lift _ m₄).bind fun _ m₅ _ => hrest copy m₅

theorem passes_materialise (page : Word) (mp : Mapping) (access : Access) (m : PagedMemory) :
    Passes (checkedMaterialise page mp access) (materialise page mp access) m := by
  rw [materialise_eq]
  unfold checkedMaterialise bringIn
  have hrest : ∀ frame m₁, Passes
      (if access = .write ∧ mp.copyOnWrite then checkedPrivatise page frame else pure frame)
      (if access = .write ∧ mp.copyOnWrite then privatise page frame else pure frame) m₁ :=
        fun frame m₁ =>
    passes_of_ite (fun _ => passes_privatise page frame m₁) fun _ => passes_pure frame m₁
  cases mp.location with
  | frame frame => exact hrest frame m
  | slot slot => exact (passes_pageIn slot _ m).bind fun frame m₁ _ => hrest frame m₁

theorem passes_pageOut (page : Word) (m : PagedMemory) :
    Passes (checkedPageOut page) (pageOut page) m := by
  refine (passes_lift (do outcome ((← get).mappingOf page)) m).bind fun mp m₁ _ => ?_
  cases mp.location with
  | frame frame => exact passes_evict frame m₁
  | slot slot => exact passes_pure () m₁

theorem passes_addPage (page : Word) (permissions : Permissions) (copyOnWrite : Bool)
    (m : PagedMemory) : Passes (checkedAddPage page permissions copyOnWrite)
    (addPage page permissions copyOnWrite) m := by
  unfold checkedAddPage addPage
  refine (passes_lift _ m).bind fun _ m₁ _ => ?_
  refine passes_get_bind ((passes_lift _ m₁).bind fun d m₂ _ => ?_)
  refine passes_of_ite (fun _ => passes_throw_bind _ _ _ m₂) fun _ => ?_
  refine (passes_takeFrame _ _ m₂).bind fun frame m₃ _ => ?_
  refine (passes_onRam (Ram.passes_writeFrame frame (List.length_replicate ..) m₃.ram)).bind
    fun _ m₄ _ => ?_
  exact (passes_lift _ m₄).bind fun _ m₅ _ => (passes_lift _ m₅).bind fun _ m₆ _ =>
    passes_pure frame m₆

/-! ## Translations -/

def checkedResolve (page address : Word) (access : Access) (privilege : Privilege) :
    Checked PagedMemory Word := do
  let m ← lift (lookup page address access)
  if m.permissions.allow access privilege then
    checkedMaterialise page m access
  else
    lift (tally fun c => { c with protectionFaults := c.protectionFaults.succ })
    throw (.fault (.protectionFault address access))

def checkedPhysical (frame : Word) (offset : Nat) : Checked PagedMemory Word := do
  let start := Ram.frameAddress (← get).ram frame
  return UInt32.ofNat (← defined (unsigned? 32 (start.toNat + offset)))

def checkedTranslate (address : Word) (access : Access) (privilege : Privilege) :
    Checked PagedMemory Word := do
  checkedPhysical (← checkedResolve address.page address access privilege) address.pageOffset

def checkedTranslateHostWrite (address : Word) : Checked PagedMemory Word := do
  let m ← lift (lookup address.page address .write)
  checkedPhysical (← checkedMaterialise address.page m .write) address.pageOffset

def checkedTranslatePage (page : Word) (access : Access) (privilege : Privilege) :
    Checked PagedMemory Word := do
  lift (outcome (Paging.checkPage page))
  checkedResolve page page.pageAddress access privilege

theorem passes_resolve (page address : Word) (access : Access) (privilege : Privilege)
    (m : PagedMemory) : Passes (checkedResolve page address access privilege)
    (resolve page address access privilege) m := by
  refine (passes_lift _ m).bind fun mp m₁ _ => ?_
  refine passes_of_ite (fun _ => passes_materialise page mp access m₁) fun _ => ?_
  exact (passes_lift _ m₁).bind fun _ m₂ _ => passes_throw _ m₂

theorem passes_translatePage (page : Word) (access : Access) (privilege : Privilege)
    (m : PagedMemory) :
    Passes (checkedTranslatePage page access privilege) (translatePage page access privilege) m :=
  (passes_lift _ m).bind fun _ m₁ _ => passes_resolve page _ access privilege m₁

/-- The frame of a page of the current process lies in RAM, and RAM does not wrap. -/
theorem Consistent.passes_physical {page frame : Word} {offset : Nat} (h : Consistent m)
    (hholds : Holds m page frame) (hoffset : offset < pageSize) :
    Passes (checkedPhysical frame offset) (physical frame offset) m := by
  obtain ⟨mp, hm, hl⟩ := hholds
  obtain ⟨pid, d, hc, hd, hmp⟩ := mapping?_some.mp hm
  have hf : m.mappingsOf (.frame frame) ≠ 0 := hl ▸ mappingsOf_ne_zero hd hmp
  have hlt := h.layout.frame_lt (h.books.owned _ hf)
  have hram := h.layout.ram
  have hfits := Ram.lt_of_pageCount hlt
  have hstart := Ram.toNat_frameAddress hram hlt
  have hsum : (Ram.frameAddress m.ram frame).toNat + offset < 2 ^ 32 := by omega
  refine passes_get_checked (passes_defined (unsigned?_of_lt (by norm_cast) hsum) ?_)
  have hexact : UInt32.ofNat ((Ram.frameAddress m.ram frame).toNat + offset) =
      Ram.frameAddress m.ram frame + UInt32.ofNat offset := by
    rw [UInt32.ofNat_add, UInt32.ofNat_toNat]
  rw [hexact]
  rfl

theorem pageOffset_lt (address : Word) : address.pageOffset < pageSize := Nat.mod_lt _ (by decide)

theorem Consistent.passes_translate {v : Virtual.Memory} (h : Consistent m) (hv : Represents m v)
    (address : Word) (access : Access) (privilege : Privilege) :
    Passes (checkedTranslate address access privilege)
    (PagedMemory.translate address access privilege) m := by
  refine (passes_resolve _ _ access privilege m).bind fun frame m' hresolve => ?_
  -- what was resolved is a page of the current process, with its frame in the memory that is left
  rcases h.resolve hv address.page address access privilege with
    ⟨frame', _, m₁, v₁, hrun, -, hfollows, hholds, -⟩ | ⟨e, m₁, v₁, hrun, -⟩
  · obtain ⟨hframe, rfl⟩ := hresolve.eq_of_ok hrun
    obtain rfl := Except.ok.inj hframe
    exact hfollows.consistent.passes_physical hholds (pageOffset_lt address)
  · cases (hresolve.eq_of_error hrun).1

theorem Consistent.passes_translateHostWrite {v : Virtual.Memory} (h : Consistent m)
    (hv : Represents m v) (address : Word) :
    Passes (checkedTranslateHostWrite address) (PagedMemory.translateHostWrite address) m := by
  refine (passes_lift _ m).bind fun mp m₁ hlookup => ?_
  refine (passes_materialise _ mp .write m₁).bind fun frame m₂ hmake => ?_
  rcases h.lookup hv address.page address .write with
    ⟨mp', mv, _, v₁, hrun, -, -, rfl, rfl, hm, hmv, -⟩ | ⟨e, _, _, hrun, -⟩
  · obtain ⟨hmp, rfl⟩ := hlookup.eq_of_ok hrun
    obtain rfl := Except.ok.inj hmp
    rcases h.materialise hv hm hmv .write with ⟨frame', _, _, _, hrun, -, hfollows, hready⟩
      | ⟨e, _, _, hrun, -⟩
    · obtain ⟨hframe, rfl⟩ := hmake.eq_of_ok hrun
      obtain rfl := Except.ok.inj hframe
      exact hfollows.consistent.passes_physical hready.holds (pageOffset_lt address)
    · cases (hmake.eq_of_error hrun).1
  · cases (hlookup.eq_of_error hrun).1

end PagedMemory

/-! ## Operations -/

open PagedMemory in
def PagingOperation.checked : PagingOperation → Checked PagedMemory Answer
  | addPage page permissions cow => (fun _ => .done) <$> checkedAddPage page permissions cow
  | pageOut page => (fun _ => .done) <$> checkedPageOut page
  | translate address access privilege =>
    (fun _ => .done) <$> checkedTranslate address access privilege
  | translatePage page access privilege =>
    (fun _ => .done) <$> checkedTranslatePage page access privilege
  | translateHostWrite address => (fun _ => .done) <$> checkedTranslateHostWrite address
  | op => lift op.perform

theorem PagedMemory.Consistent.passes_perform {m : PagedMemory} {v : Virtual.Memory}
    (h : Consistent m) (hv : Represents m v) (op : PagingOperation) :
    Passes op.checked op.perform m := by
  cases op with
  | addPage page permissions cow => exact (passes_addPage page permissions cow m).map _
  | pageOut page => exact (passes_pageOut page m).map _
  | translate address access privilege =>
    exact (h.passes_translate hv address access privilege).map _
  | translatePage page access privilege =>
    exact (passes_translatePage page access privilege m).map _
  | translateHostWrite address => exact (h.passes_translateHostWrite hv address).map _
  | beginProcess | endProcess | switchProcess | forkProcess | removePage | removeAll | sharePage =>
    rfl

end PagedMachine

import PagedMachine.Proofs.Behaviour
import PagedMachine.Proofs.Consistency

/-!
# Pages on the move

An eviction and a page-in move one page, with all its mappings, to a location
that nothing is mapped to (`Relocates`). Between two consistent states that is
all they do, so whatever a program can see stays as it is. Both end early only
for want of a frame or a slot, and then nothing has moved.
-/

namespace PagedMachine

theorem Table.mem_keys {α : Type} {t : Table α} {key : Word} : key ∈ t.keys ↔
    t.contains key = true := by
  rw [contains_iff, keys, List.mem_map]
  constructor
  · rintro ⟨⟨k, v⟩, h, rfl⟩
    exact ⟨v, mem_entries.mp h⟩
  · rintro ⟨v, h⟩
    exact ⟨(key, v), mem_entries.mpr h, rfl⟩

theorem Pool.isFree_of_keys {p : Pool} {page : Word} {rest : List Word}
    (h : p.free.keys = page :: rest) : p.isFree page :=
  Table.mem_keys.mp (h ▸ List.mem_cons_self)

/-! ## Mappings that follow their page -/

theorem Directory.mappingsOf_repoint (d : Directory) {source target : Location}
    (hne : source ≠ target) (l : Location) :
    (d.repoint source target).mappingsOf l =
      if l = source then 0
      else if l = target then d.mappingsOf source + d.mappingsOf target else d.mappingsOf l := by
  simp only [mappingsOf_eq_sum, repoint, Table.sum_map]
  split
  · rename_i hl
    rw [Table.sum_eq_zero_iff]
    intro page m _
    by_cases hm : m.location = source <;> simp [hm, hl, hne.symm]
  · rename_i hs
    split
    · rename_i hl
      rw [← Table.sum_add]
      refine Table.sum_congr fun page m _ => ?_
      by_cases hm : m.location = source <;> simp [hm, hl, hne]
    · rename_i ht
      refine Table.sum_congr fun page m _ => ?_
      by_cases hm : m.location = source <;> simp [hm, Ne.symm hs, Ne.symm ht]

theorem Paging.mappingsOf_repoint {p q : Paging} {source target : Location}
    (hq : q.processes = p.processes.map (·.repoint source target)) (hne : source ≠ target)
    (ht : p.mappingsOf target = 0) :
    q.mappingsOf =
    Function.update (Function.update p.mappingsOf target (p.mappingsOf source)) source 0 := by
  funext l
  simp only [Function.update_apply, mappingsOf, hq, Table.sum_map, Function.comp_def,
    Directory.mappingsOf_repoint _ hne] at ht ⊢
  split
  · exact Table.sum_eq_zero_iff.mpr fun _ _ _ => rfl
  · split
    · rw [Table.sum_add, ht, Nat.add_zero]
    · rfl

namespace PagedMemory

/-- One page moves, and its mappings with it; nothing else that a program sees changes. -/
structure Relocates (source target : Location) (m m' : PagedMemory) : Prop where
  unused : m.mappingsOf target = 0
  used : m.mappingsOf source ≠ 0
  processes : m'.processes = m.processes.map (·.repoint source target)
  moved : ∀ o < pageSize, m'.byteAt target o = m.byteAt source o
  kept : ∀ l, l ≠ target → m.mappingsOf l ≠ 0 → ∀ o < pageSize, m'.byteAt l o = m.byteAt l o
  current : m'.current = m.current
  nextPid : m'.nextPid = m.nextPid
  extent : SameExtent m m'
  books :
    Books m'.toPaging
      (Function.update (Function.update m.mappingsOf target (m.mappingsOf source)) source 0)

namespace Relocates

variable {m m' : PagedMemory} {source target l : Location}

theorem source_ne_target (h : Relocates source target m m') : source ≠ target :=
  fun e => h.used (e ▸ h.unused)

theorem mappingsOf (h : Relocates source target m m') :
    m'.mappingsOf =
    Function.update (Function.update m.mappingsOf target (m.mappingsOf source)) source 0 :=
  Paging.mappingsOf_repoint h.processes h.source_ne_target h.unused

theorem mappingsOf_source (h : Relocates source target m m') : m'.mappingsOf source = 0 := by
  rw [h.mappingsOf, Function.update_self]

theorem mappingsOf_target (h : Relocates source target m m') :
    m'.mappingsOf target = m.mappingsOf source := by
  rw [h.mappingsOf, Function.update_of_ne h.source_ne_target.symm, Function.update_self]

theorem mappingsOf_of_ne (h : Relocates source target m m') (hs : l ≠ source)
    (hl : m.mappingsOf l ≠ 0) : m'.mappingsOf l = m.mappingsOf l := by
  have ht : l ≠ target := fun e => hl (e ▸ h.unused)
  rw [h.mappingsOf, Function.update_of_ne hs, Function.update_of_ne ht]

theorem consistent (h : Relocates source target m m') (hm : Consistent m) : Consistent m' where
  layout := hm.layout.of_sameExtent h.extent
  books := h.mappingsOf ▸ h.books
  current pid hp := by
    rw [h.processes, Table.contains_map]
    exact hm.current pid (h.current ▸ hp)
  fresh pid hp := by
    rw [h.processes, Table.contains_map] at hp
    exact h.nextPid ▸ hm.fresh pid hp

/-- Where a page has moved to there was a location to be mapped. -/
theorem owns_target (h : Relocates source target m m') (hm : Consistent m) : m.owns target := by
  have hmapped : m'.mappingsOf target ≠ 0 := h.mappingsOf_target ▸ h.used
  rw [← Paging.owns_of_range h.extent.range]
  exact (h.consistent hm).books.owned target hmapped

end Relocates

/-! ## Devices and pools -/

section
variable {m m' : PagedMemory} {kind : PoolKind} {page : Word} {α : Type} {a : α}

theorem onRam_ok {x : EStateM Fault Ram α} {ram : Ram} (h : x.run m.ram = .ok a ram) :
    (onRam x).run m = .ok a { m with ram := ram } := by
  rw [onRam, focus_ok h]

theorem yields_onRam {x : EStateM Fault Ram α} {r : Except Fault α}
    (hstep : Yields (onRam x) m r m') :
    ∃ ram, Yields x m.ram r ram ∧ m' = { m with ram := ram } := by
  obtain ⟨r₁, ram, hx⟩ := yields_exists x m.ram
  have hrun : Yields (onRam x) m r₁ { m with ram := ram } := by
    cases r₁ with
    | ok a => exact onRam_ok hx
    | error e => exact focus_error hx
  obtain ⟨rfl, rfl⟩ := hstep.unique hrun
  exact ⟨ram, hx, rfl⟩

theorem onDisk_ok {x : EStateM Fault Disk α} {disk : Disk} (h : x.run m.disk = .ok a disk) :
    (onDisk x).run m = .ok a { m with disk := disk } := by
  rw [onDisk, focus_ok h]

theorem onPool_allocate_ok {rest : List Word} (h : (m.pool kind).free.keys = page :: rest) :
    (onPool kind Pool.allocate).run m = .ok page
      { m with toPaging := m.setPool kind { m.pool kind with free := (m.pool kind).free.erase page }
        } := by
  refine focus_ok ?_
  show Pool.allocate.run (m.pool kind) = _
  rw [Pool.allocate, get_bind]
  simp only [h]
  rfl

theorem onPool_allocate_error (h : (m.pool kind).free.keys = []) :
    (onPool kind Pool.allocate).run m = .error (.resourceExhausted (m.pool kind).kind) m := by
  have hp : Pool.allocate.run (m.pool kind) =
      .error (.resourceExhausted (m.pool kind).kind) (m.pool kind) := by
    rw [Pool.allocate, get_bind]
    simp only [h]
    rfl
  have e : m.setPool kind (m.pool kind) = m.toPaging := by cases kind <;> rfl
  rw [onPool, focus_error hp]
  simp only [e]

theorem onPool_release_ok (ho : (m.pool kind).owns page) (hf : (m.pool kind).isFree page = false) :
    (onPool kind (Pool.release page)).run m = .ok ()
      { m with toPaging :=
        m.setPool kind { m.pool kind with free := (m.pool kind).free.insert page () } } := by
  refine focus_ok ?_
  show (Pool.release page).run (m.pool kind) = _
  rw [Pool.release, get_bind, if_pos ⟨ho, by simp [hf]⟩]
  rfl

end

/-! ## Eviction -/

section
variable {m : PagedMemory} {frame slot : Word}

theorem Consistent.isFree_eq_false (h : Consistent m) {l : Location} (hl : m.mappingsOf l ≠ 0) :
    m.isFree l = false :=
  Bool.eq_false_iff.mpr fun hf => hl ((h.books.free l (h.books.owned l hl)).mp hf)

theorem Consistent.mappingsOf_of_isFree (h : Consistent m) {l : Location} (hl : m.isFree l) :
    m.mappingsOf l = 0 :=
  (h.books.free l (h.books.pooled _ _ hl)).mp hl

theorem Consistent.count?_eq (h : Consistent m) {l : Location} (hl : m.mappingsOf l ≠ 0) :
    m.count? l = some (m.mappingsOf l) := by
  rw [h.books.counted, if_neg hl]

theorem Consistent.refs_eq (h : Consistent m) (l : Location) : m.refs l = m.mappingsOf l := by
  rw [Paging.refs_eq, h.books.counted]
  split <;> simp_all

def movedOut (m : PagedMemory) (frame slot : Word) (disk : Disk) : PagedMemory :=
  { (m.toPaging.occupy (.slot slot) (m.refs (.frame frame))).vacate (.frame frame) with
    disk := disk
    processes := m.processes.map (·.repoint (.frame frame) (.slot slot))
    counters := { m.counters with pageOuts := m.counters.pageOuts.succ }
    ram := m.ram }

theorem byteAt_movedOut (disk : Disk) (l : Location) (o : Nat) :
    (m.movedOut frame slot disk).byteAt l o = { m with disk := disk }.byteAt l o := by
  cases l <;> rfl

theorem sameExtent_movedOut {disk : Disk} (hb : disk.base = m.disk.base)
    (hs : disk.size = m.disk.size) : SameExtent m (m.movedOut frame slot disk) where
  range :=
    ((m.occupy (.slot slot) _).range_vacate (.frame frame)).trans (m.range_occupy (.slot slot) _)
  ramBase := rfl
  ramSize := rfl
  diskBase := hb
  diskSize := hs

theorem evict_run {count : Nat} {rest : List Word} {page : List UInt8} {disk : Disk}
    (hc : m.count? (.frame frame) = some count) (hs : m.diskPool.free.keys = slot :: rest)
    (hread : Ram.readFrame m.ram frame = .ok page)
    (hwrite : (Disk.writeSlot slot page).run m.disk = .ok () disk)
    (ho : m.owns (.frame frame)) (hn : m.isFree (.frame frame) = false) :
    (evict frame).run m = .ok () (m.movedOut frame slot disk) := by
  have hcount : m.frameRefs.find? frame = some count := hc
  change (m.pool (m.framePool frame)).owns frame = true at ho
  change (m.pool (m.framePool frame)).isFree frame = false at hn
  rw [movedOut, Paging.refs_eq, hc, evict, get_bind, get_bind]
  simp only [hcount, Option.getD_some]
  rw [get_bind, bind_ok (outcome_ok hread m), bind_ok (onPool_allocate_ok (by exact hs))]
  rw [bind_ok (onDisk_ok (by exact hwrite)), modify_bind, repoint, modify_bind]
  rcases m.framePool_eq frame with hp | hp
  all_goals
    rw [hp] at ho hn ⊢
    rw [bind_ok (onPool_release_ok (by exact ho) (by exact hn))]
    simp only [Paging.vacate, Paging.setFree, Paging.home]
    rw [show (m.toPaging.occupy (.slot slot) count).framePool frame =
      m.framePool frame from rfl, hp]
    rfl

theorem Consistent.readFrame (h : Consistent m) (ho : m.owns (.frame frame)) :
    Ram.readFrame m.ram frame = .ok (m.pageAt (.frame frame)) :=
  Ram.readFrame_ok h.layout.ram (h.layout.frame_lt ho)

theorem Consistent.copyFrame (h : Consistent m) {copy : Word} (ho : m.owns (.frame frame))
    (hc : m.owns (.frame copy)) : (Ram.copyFrame frame copy).run m.ram = .ok ()
    (m.ram.patch (copy.toNat * pageSize) (m.pageAt (.frame frame))) :=
  Ram.copyFrame_ok h.layout.ram (h.layout.frame_lt ho) (h.layout.frame_lt hc)

theorem Consistent.readSlot (h : Consistent m) (ho : m.owns (.slot slot)) :
    Disk.readSlot m.disk slot = .ok (m.pageAt (.slot slot)) :=
  Disk.readSlot_ok h.layout.disk (h.layout.slot_lt ho)

def evicted (m : PagedMemory) (frame slot : Word) : PagedMemory :=
  m.movedOut frame slot (m.disk.patch (slot.toNat * pageSize) (m.pageAt (.frame frame)))

theorem Consistent.evict_ok (h : Consistent m) (hf : m.mappingsOf (.frame frame) ≠ 0)
    {rest : List Word} (hs : m.diskPool.free.keys = slot :: rest) :
    (evict frame).run m = .ok () (m.evicted frame slot) ∧ Relocates (.frame frame)
    (.slot slot) m (m.evicted frame slot) := by
  have hfree : m.isFree (.slot slot) := Pool.isFree_of_keys hs
  have hslot : m.owns (.slot slot) := h.books.pooled _ _ hfree
  have howns : m.owns (.frame frame) := h.books.owned _ hf
  refine ⟨evict_run (h.count?_eq hf) hs (h.readFrame howns)
    (Disk.writeSlot_ok h.layout.disk (h.layout.slot_lt hslot) (length_pageAt m (.frame frame)))
    howns (h.isFree_eq_false hf), ?_⟩
  have bytes := h.byteAt_storeSlot (length_pageAt m (.frame frame)) hslot
  refine ⟨h.mappingsOf_of_isFree hfree, hf, rfl, fun o ho => ?_, fun l hl _ o ho =>
    ?_, ?_, ?_, ?_, ?_⟩
  · rw [evicted, byteAt_movedOut, bytes _ ho, if_pos rfl, getD_pageAt m _ ho]
  · rw [evicted, byteAt_movedOut, bytes _ ho, if_neg hl]
  · simp [evicted, movedOut, Paging.vacate, Paging.occupy, Paging.setFree]
  · simp [evicted, movedOut, Paging.vacate, Paging.occupy, Paging.setFree]
  · exact sameExtent_movedOut (ByteStore.base_patch ..) (ByteStore.size_patch ..)
  · rw [evicted, movedOut, h.refs_eq]
    have hne : Function.update m.mappingsOf (.slot slot) (m.mappingsOf (.frame frame))
        (.frame frame) ≠ 0 := by
      rwa [Function.update_of_ne (by simp)]
    exact ((h.books.occupy hfree hf).vacate hne).frame _ _ _ _ _

theorem Consistent.evict_full (h : Consistent m) (hf : m.mappingsOf (.frame frame) ≠ 0)
    (hs : m.diskPool.free.keys = []) :
    (evict frame).run m = .error (.resourceExhausted .disk) m := by
  have hcount : m.frameRefs.find? frame = some (m.mappingsOf (.frame frame)) := h.count?_eq hf
  have hread := h.readFrame (h.books.owned _ hf)
  rw [evict, get_bind, get_bind]
  simp only [hcount]
  rw [get_bind, bind_ok (outcome_ok hread m), bind_error (onPool_allocate_error (by exact hs))]
  exact congrArg (fun k => EStateM.Result.error (Fault.resourceExhausted k) m) (h.layout.kind .disk)

def HasFree (m : PagedMemory) (kind : PoolKind) : Prop := ∃ page, (m.pool kind).isFree page

/-- Nothing is free, and a frame pool has no frame but the one that is wanted. -/
def Exhausted (m : PagedMemory) (kind : PoolKind) : Prop :=
  ¬ m.HasFree kind ∧ (kind ≠ .disk → ∃ frame, ∀ g, (m.pool kind).owns g → g = frame)

theorem exhausted_disk (h : ¬ m.HasFree .disk) : m.Exhausted .disk := ⟨h, fun hne => absurd rfl hne⟩

theorem keys_of_not_hasFree {kind : PoolKind} (h : ¬ m.HasFree kind) :
    (m.pool kind).free.keys = [] :=
  List.eq_nil_iff_forall_not_mem.mpr fun page hp => h ⟨page, Table.mem_keys.mp hp⟩

theorem Consistent.evict (h : Consistent m) (hf : m.mappingsOf (.frame frame) ≠ 0) :
    (∃ slot m', (PagedMemory.evict frame).run m = .ok () m' ∧ Relocates (.frame frame)
      (.slot slot) m m') ∨
      (m.Exhausted .disk ∧
        (PagedMemory.evict frame).run m = .error (.resourceExhausted .disk) m) := by
  cases hk : m.diskPool.free.keys with
  | cons slot rest => exact .inl ⟨slot, _, h.evict_ok hf hk⟩
  | nil =>
    refine .inr ⟨exhausted_disk fun ⟨page, hp⟩ => ?_, h.evict_full hf hk⟩
    exact List.ne_nil_of_mem (Table.mem_keys.mpr hp) hk

/-! ## Room for a page -/

/-- At most one page has moved out, and it was not in the pinned frame. -/
def MadeRoom (pinned : Option Word) (m m' : PagedMemory) : Prop :=
  m' = m ∨ ∃ frame slot, some frame ≠ pinned ∧ Relocates (.frame frame) (.slot slot) m m'

def handOut (m : PagedMemory) (frame : Word) : PagedMemory :=
  { m with toPaging := m.setFree (.frame frame) (·.erase frame) }

theorem Consistent.hasFree_of_mappingsOf (h : Consistent m) {l : Location} (ho : m.owns l)
    (hl : m.mappingsOf l = 0) : m.HasFree (m.home l) :=
  ⟨l.number, (h.books.free l ho).mpr hl⟩

/-- A page leaves a free location behind and takes one that was free. -/
theorem Relocates.hasFree_source {m' : PagedMemory} {source target : Location}
    (hr : Relocates source target m m') (h : Consistent m) : m'.HasFree (m.home source) := by
  have howns : m'.owns source := by
    rw [Paging.owns_of_range hr.extent.range]
    exact h.books.owned _ hr.used
  rw [← Paging.home_of_range hr.extent.range source]
  exact (hr.consistent h).hasFree_of_mappingsOf howns hr.mappingsOf_source

theorem Relocates.hasFree_target {m' : PagedMemory} {source target : Location}
    (hr : Relocates source target m m') (h : Consistent m) : m.HasFree (m.home target) :=
  h.hasFree_of_mappingsOf (hr.owns_target h) hr.unused

theorem Consistent.framePool_of_isFree (h : Consistent m) {kind : PoolKind} (hk : kind ≠ .disk)
    {page : Word} (hp : (m.pool kind).isFree page) : m.framePool page = kind :=
  h.layout.framePool_of_owns hk (h.books.pooled kind page hp)

theorem Consistent.allocate_ok (h : Consistent m) {kind : PoolKind} (hk : kind ≠ .disk)
    {rest : List Word} (hkeys : (m.pool kind).free.keys = frame :: rest) :
    m.framePool frame = kind ∧ m.isFree (.frame frame) ∧
      (onPool kind Pool.allocate).run m = .ok frame (m.handOut frame) := by
  have hfree := Pool.isFree_of_keys hkeys
  have hpool := h.framePool_of_isFree hk hfree
  subst hpool
  exact ⟨rfl, hfree, onPool_allocate_ok hkeys⟩

theorem HasFree.keys {kind : PoolKind} (hf : m.HasFree kind) :
    ∃ page rest, (m.pool kind).free.keys = page :: rest := by
  cases hkeys : (m.pool kind).free.keys with
  | nil =>
    obtain ⟨page, hp⟩ := hf
    exact absurd hkeys (List.ne_nil_of_mem (Table.mem_keys.mpr hp))
  | cons page rest => exact ⟨page, rest, rfl⟩

theorem Consistent.allocate (h : Consistent m) {kind : PoolKind} (hk : kind ≠ .disk)
    (hf : m.HasFree kind) :
    ∃ frame, m.framePool frame = kind ∧ m.isFree (.frame frame) ∧
      (onPool kind Pool.allocate).run m = .ok frame (m.handOut frame) := by
  obtain ⟨frame, rest, hkeys⟩ := hf.keys
  exact ⟨frame, h.allocate_ok hk hkeys⟩

theorem isEmpty_eq_true {kind : PoolKind} (hf : ¬ m.HasFree kind) :
    (m.pool kind).free.isEmpty = true := by
  have := keys_of_not_hasFree hf
  simpa [Table.keys, Table.isEmpty] using this

theorem isEmpty_eq_false {kind : PoolKind} (hf : m.HasFree kind) :
    (m.pool kind).free.isEmpty = false := by
  obtain ⟨page, hp⟩ := hf
  have := List.ne_nil_of_mem (Table.mem_keys.mpr hp)
  simpa [Table.keys, Table.isEmpty] using this

theorem Consistent.victim?_some (h : Consistent m) {kind : PoolKind} {pinned : Option Word}
    {frame : Word} (hv : m.victim? kind pinned = some frame) :
    m.mappingsOf (.frame frame) ≠ 0 ∧ some frame ≠ pinned ∧ m.framePool frame = kind := by
  have hp := List.find?_some hv
  simp only [Bool.and_eq_true, bne_iff_ne, beq_iff_eq] at hp
  exact ⟨(h.books.queued frame).mp (List.mem_of_find?_eq_some hv), hp⟩

/-- A pool without a free frame has one to give up, unless its only one is pinned. -/
theorem Consistent.victim?_none (h : Consistent m) {kind : PoolKind} {pinned : Option Word}
    (hk : kind ≠ .disk) (hf : ¬ m.HasFree kind) (hv : m.victim? kind pinned = none) {frame : Word}
    (ho : (m.pool kind).owns frame) : pinned = some frame := by
  have hpool := h.layout.framePool_of_owns hk ho
  subst hpool
  have hmapped : m.mappingsOf (.frame frame) ≠ 0 :=
    fun hz => hf (h.hasFree_of_mappingsOf (l := .frame frame) ho hz)
  have := List.find?_eq_none.mp hv frame ((h.books.queued frame).mpr hmapped)
  simp only [beq_self_eq_true, Bool.and_true, bne_iff_ne, ne_eq, Decidable.not_not] at this
  exact this.symm

end

section
variable {m m' : PagedMemory} {pinned : Option Word} {frame slot : Word}

theorem Relocates.with_counters {source target : Location} (h : Relocates source target m m')
    (counters : PagingCounters) : Relocates source target m { m' with counters := counters } where
  unused := h.unused
  used := h.used
  processes := h.processes
  moved := h.moved
  kept := h.kept
  current := h.current
  nextPid := h.nextPid
  extent :=
    ⟨h.extent.range, h.extent.ramBase, h.extent.ramSize, h.extent.diskBase, h.extent.diskSize⟩
  books := h.books.frame _ _ _ _ _

theorem MadeRoom.consistent (h : MadeRoom pinned m m') (hm : Consistent m) : Consistent m' := by
  rcases h with rfl | ⟨_, _, _, hr⟩
  · exact hm
  · exact hr.consistent hm

theorem MadeRoom.extent (h : MadeRoom pinned m m') : SameExtent m m' := by
  rcases h with rfl | ⟨_, _, _, hr⟩
  · exact .refl m'
  · exact hr.extent

def OnlyPinned (m : PagedMemory) (kind : PoolKind) (pinned : Option Word) : Prop :=
  ∀ frame, (m.pool kind).owns frame → pinned = some frame

/-- No frame can be had: there is none but the pinned one, or no slot to move another to. -/
def Lacks (m : PagedMemory) (kind : PoolKind) (pinned : Option Word) (e : PoolKind) : Prop :=
  ¬ m.HasFree kind ∧
    (e = kind ∧ m.OnlyPinned kind pinned ∨ e = .disk ∧ ¬ m.OnlyPinned kind pinned ∧
      ¬ m.HasFree .disk)

theorem Consistent.not_onlyPinned_none (h : Consistent m) {kind : PoolKind} (hk : kind ≠ .disk) :
    ¬ m.OnlyPinned kind none := by
  intro honly
  obtain ⟨frame, ho⟩ := h.layout.inhabited kind hk
  cases honly frame ho

theorem Consistent.lacks_none_iff (h : Consistent m) {kind e : PoolKind} (hk : kind ≠ .disk) :
    m.Lacks kind none e ↔ e = .disk ∧ ¬ m.HasFree kind ∧ ¬ m.HasFree .disk := by
  simp only [Lacks, h.not_onlyPinned_none hk, and_false, not_false_eq_true, true_and, false_or]
  exact and_left_comm

theorem Consistent.exhausted_of_lacks (h : Consistent m) {kind e : PoolKind} (hk : kind ≠ .disk)
    (hlacks : m.Lacks kind pinned e) : m.Exhausted e := by
  obtain ⟨hf, ⟨rfl, honly⟩ | ⟨rfl, -, hdisk⟩⟩ := hlacks
  · obtain ⟨frame, ho⟩ := h.layout.inhabited e hk
    exact ⟨hf, fun _ =>
      ⟨frame, fun g hg => Option.some.inj ((honly g hg).symm.trans (honly frame ho))⟩⟩
  · exact exhausted_disk hdisk

def makeRoom (kind : PoolKind) (pinned : Option Word) : Paged Unit := do
  if ((← get).pool kind).free.isEmpty then
    match victim? (← get) kind pinned with
    | none => throw (.resourceExhausted kind)
    | some frame =>
      evict frame
      tally fun c => { c with evictions := c.evictions.succ }

theorem takeFrame_eq (kind : PoolKind) (pinned : Option Word) :
    PagedMemory.takeFrame kind pinned = makeRoom kind pinned >>= fun _ =>
      onPool kind Pool.allocate := by
  unfold PagedMemory.takeFrame makeRoom
  rw [bind_assoc]
  refine bind_congr fun m => ?_
  split
  · rw [bind_assoc]
    refine bind_congr fun m => ?_
    cases m.victim? kind pinned with
    | none => rfl
    | some frame => exact (bind_assoc (evict frame) _ _).symm
  · rfl

theorem makeRoom_run_free {kind : PoolKind} (pinned : Option Word) (hf : m.HasFree kind) :
    (makeRoom kind pinned).run m = .ok () m := by
  rw [makeRoom, get_bind, if_neg (by simp [isEmpty_eq_false hf])]
  rfl

theorem makeRoom_run_none {kind : PoolKind} (hf : ¬ m.HasFree kind)
    (hv : m.victim? kind pinned = none) :
    (makeRoom kind pinned).run m = .error (.resourceExhausted kind) m := by
  rw [makeRoom, get_bind, if_pos (isEmpty_eq_true hf), get_bind, hv]
  rfl

theorem makeRoom_run_some {kind : PoolKind} (hf : ¬ m.HasFree kind)
    (hv : m.victim? kind pinned = some frame) :
    (makeRoom kind pinned).run m =
      (evict frame >>= fun _ => tally fun c => { c with evictions := c.evictions.succ }).run m := by
  rw [makeRoom, get_bind, if_pos (isEmpty_eq_true hf), get_bind, hv]

/-- The pool has a free frame afterwards, exactly if nothing is lacking. -/
theorem Consistent.makeRoom_exact (h : Consistent m) {kind : PoolKind} (hk : kind ≠ .disk)
    (pinned : Option Word) :
    ((∀ e, ¬ m.Lacks kind pinned e) ∧ ∃ m₀, MadeRoom pinned m m₀ ∧ m₀.HasFree kind ∧
        (makeRoom kind pinned).run m = .ok () m₀) ∨
      ∃ e, (makeRoom kind pinned).run m = .error (.resourceExhausted e) m ∧
        m.Lacks kind pinned e := by
  by_cases hf : m.HasFree kind
  · exact .inl ⟨fun e he => he.1 hf, m, .inl rfl, hf, makeRoom_run_free pinned hf⟩
  · cases hv : m.victim? kind pinned with
    | none =>
      exact .inr ⟨kind, makeRoom_run_none hf hv, hf,
        .inl ⟨rfl, fun frame ho => h.victim?_none hk hf hv ho⟩⟩
    | some out =>
      obtain ⟨hmapped, hpin, hpool⟩ := h.victim?_some hv
      have hspare : ¬ m.OnlyPinned kind pinned := by
        intro honly
        have ho : (m.pool (m.framePool out)).owns out := h.books.owned _ hmapped
        exact hpin (honly out (hpool ▸ ho)).symm
      rcases h.evict hmapped with ⟨slot, m₁, hrun, hr⟩ | ⟨hdisk, hrun⟩
      · have hm₀ := hr.with_counters { m₁.counters with evictions := m₁.counters.evictions.succ }
        refine .inl ⟨?_, _, .inr ⟨out, slot, hpin, hm₀⟩, hpool ▸ hm₀.hasFree_source h, ?_⟩
        · rintro e ⟨-, ⟨-, honly⟩ | ⟨-, -, hnone⟩⟩
          · exact hspare honly
          · exact hnone (hm₀.hasFree_target h)
        · rw [makeRoom_run_some hf hv, bind_ok hrun]
          rfl
      · exact .inr
          ⟨.disk, by rw [makeRoom_run_some hf hv, bind_error hrun], hf, .inr ⟨rfl, hspare, hdisk.1⟩⟩

/-- A free frame of a pool, exactly if nothing is lacking. -/
theorem Consistent.takeFrame_exact (h : Consistent m) {kind : PoolKind} (hk : kind ≠ .disk)
    (pinned : Option Word) :
    ((∀ e, ¬ m.Lacks kind pinned e) ∧ ∃ frame m₀, MadeRoom pinned m m₀ ∧ m₀.framePool frame = kind ∧
        m₀.isFree (.frame frame) ∧
        (PagedMemory.takeFrame kind pinned).run m = .ok frame (m₀.handOut frame)) ∨
      ∃ e, (PagedMemory.takeFrame kind pinned).run m = .error (.resourceExhausted e) m ∧
        m.Lacks kind pinned e := by
  rw [takeFrame_eq]
  rcases h.makeRoom_exact hk pinned with ⟨hnone, m₀, hroom, hf, hrun⟩ | ⟨e, hrun, hlacks⟩
  · obtain ⟨frame, hpool, hfree, halloc⟩ := (hroom.consistent h).allocate hk hf
    exact .inl ⟨hnone, frame, m₀, hroom, hpool, hfree, (bind_ok hrun).trans halloc⟩
  · exact .inr ⟨e, bind_error hrun, hlacks⟩

theorem MadeRoom.mappingsOf (h : MadeRoom pinned m m') {l : Location} (hl : m.mappingsOf l ≠ 0)
    (hp : ∀ frame, l = .frame frame → some frame = pinned) : m'.mappingsOf l = m.mappingsOf l := by
  rcases h with rfl | ⟨out, slot, hne, hr⟩
  · rfl
  · exact hr.mappingsOf_of_ne (fun e => hne (hp out e)) hl

theorem MadeRoom.byteAt (h : MadeRoom pinned m m') {l : Location} (hl : m.mappingsOf l ≠ 0)
    {o : Nat} (ho : o < pageSize) : m'.byteAt l o = m.byteAt l o := by
  rcases h with rfl | ⟨out, slot, hne, hr⟩
  · rfl
  · exact hr.kept l (fun e => hl (e ▸ hr.unused)) hl o ho

theorem track_run_handOut (m : PagedMemory) (frame : Word) (ram : Ram) (count : Nat) :
    (track frame count).run { m.handOut frame with ram := ram } =
      .ok () { m with toPaging := m.occupy (.frame frame) count, ram := ram } := by
  change EStateM.Result.ok () _ = _
  simp [handOut, Paging.occupy, Paging.setFree]

/-! ## Page-in -/

def movedIn (m : PagedMemory) (slot frame : Word) (ram : Ram) : PagedMemory :=
  { (m.toPaging.occupy (.frame frame) (m.refs (.slot slot))).vacate (.slot slot) with
    processes := m.processes.map (·.repoint (.slot slot) (.frame frame))
    counters := { m.counters with pageIns := m.counters.pageIns.succ }
    ram := ram }

theorem byteAt_movedIn (ram : Ram) (l : Location) (o : Nat) :
    (m.movedIn slot frame ram).byteAt l o = { m with ram := ram }.byteAt l o := by
  rcases m.framePool_eq frame with hp | hp <;> cases l
  all_goals simp [movedIn, Paging.occupy, Paging.vacate, Paging.setFree, PagedMemory.byteAt]

theorem sameExtent_movedIn {ram : Ram} (hb : ram.base = m.ram.base) (hs : ram.size = m.ram.size) :
    SameExtent m (m.movedIn slot frame ram) where
  range :=
    ((m.occupy (.frame frame) _).range_vacate (.slot slot)).trans (m.range_occupy (.frame frame) _)
  ramBase := hb
  ramSize := hs
  diskBase := by simp [movedIn, Paging.occupy, Paging.vacate, Paging.setFree]
  diskSize := by simp [movedIn, Paging.occupy, Paging.vacate, Paging.setFree]

theorem pageIn_run {kind : PoolKind} {count : Nat} {page : List UInt8} {ram : Ram}
    (hread : Disk.readSlot m.disk slot = .ok page)
    (htake : (PagedMemory.takeFrame kind none).run m = .ok frame (m'.handOut frame))
    (hwrite : (Ram.writeFrame frame page).run m'.ram = .ok () ram)
    (hc : m'.count? (.slot slot) = some count) (ho : m'.owns (.slot slot))
    (hn : m'.isFree (.slot slot) = false) :
    (PagedMemory.pageIn slot kind).run m = .ok frame (m'.movedIn slot frame ram) := by
  rw [movedIn, Paging.refs_eq, hc, PagedMemory.pageIn, get_bind, bind_ok (outcome_ok hread m),
    bind_ok htake, bind_ok (onRam_ok (by exact hwrite)), get_bind]
  have hcount : (m'.handOut frame).slotRefs.find? slot = some count := by
    simpa [handOut, Paging.setFree, Paging.count?] using hc
  simp only [hcount, Option.getD_some]
  rcases m'.framePool_eq frame with hp | hp
  all_goals
    simp only [handOut, Paging.setFree, Paging.home, hp, modify_bind]
    rw [bind_ok (onPool_release_ok (by exact ho) (by exact hn)), repoint, modify_bind, track,
      modify_bind, tally, modify_bind]
    simp only [Paging.occupy, Paging.vacate, Paging.setFree, Paging.home, hp]
    rfl

def broughtIn (m m₀ : PagedMemory) (slot frame : Word) : PagedMemory :=
  m₀.movedIn slot frame (m₀.ram.patch (frame.toNat * pageSize) (m.pageAt (.slot slot)))

theorem Consistent.pageIn_ok (h : Consistent m) (hs : m.mappingsOf (.slot slot) ≠ 0)
    {kind : PoolKind} {m₀ : PagedMemory} (hroom : MadeRoom none m m₀)
    (hfree : m₀.isFree (.frame frame))
    (htake : (PagedMemory.takeFrame kind none).run m = .ok frame (m₀.handOut frame)) :
    (PagedMemory.pageIn slot kind).run m = .ok frame (m.broughtIn m₀ slot frame) ∧
      Relocates (.slot slot) (.frame frame) m₀ (m.broughtIn m₀ slot frame) := by
  have hread := h.readSlot (h.books.owned _ hs)
  have hc := hroom.consistent h
  have hmaps := hroom.mappingsOf hs (by simp)
  have hs₀ : m₀.mappingsOf (.slot slot) ≠ 0 := hmaps ▸ hs
  have howns := hc.books.pooled _ _ hfree
  have hwrite :=
    Ram.writeFrame_ok hc.layout.ram (hc.layout.frame_lt howns) (length_pageAt m (.slot slot))
  have bytes := hc.byteAt_storeFrame (length_pageAt m (.slot slot)) howns
  refine ⟨pageIn_run hread htake hwrite (hc.count?_eq hs₀) (hc.books.owned _ hs₀)
    (hc.isFree_eq_false hs₀), ?_⟩
  refine ⟨hc.mappingsOf_of_isFree hfree, hs₀, rfl, fun o ho => ?_, fun l hl _ o ho =>
    ?_, ?_, ?_, ?_, ?_⟩
  · rw [broughtIn, byteAt_movedIn, bytes _ ho, if_pos rfl, getD_pageAt m _ ho, hroom.byteAt hs ho]
  · rw [broughtIn, byteAt_movedIn, bytes _ ho, if_neg hl]
  · simp [broughtIn, movedIn, Paging.vacate, Paging.occupy, Paging.setFree]
  · simp [broughtIn, movedIn, Paging.vacate, Paging.occupy, Paging.setFree]
  · exact sameExtent_movedIn (ByteStore.base_patch ..) (ByteStore.size_patch ..)
  · rw [broughtIn, movedIn, hc.refs_eq]
    have hne : Function.update m₀.mappingsOf (.frame frame) (m₀.mappingsOf (.slot slot))
        (.slot slot) ≠ 0 := by
      rwa [Function.update_of_ne (by simp)]
    exact ((hc.books.occupy hfree hs₀).vacate hne).frame _ _ _ _ _

theorem Consistent.pageIn_error (h : Consistent m) (hs : m.mappingsOf (.slot slot) ≠ 0)
    {kind : PoolKind} {e : Fault} (htake : (PagedMemory.takeFrame kind none).run m = .error e m) :
    (PagedMemory.pageIn slot kind).run m = .error e m := by
  rw [PagedMemory.pageIn, get_bind, bind_ok (outcome_ok (h.readSlot (h.books.owned _ hs)) m),
    bind_error htake]

/-- A frame with the page of a slot, exactly if a frame or a slot is free. -/
theorem Consistent.pageIn_exact (h : Consistent m) (hs : m.mappingsOf (.slot slot) ≠ 0)
    {kind : PoolKind} (hk : kind ≠ .disk) :
    (¬ (¬ m.HasFree kind ∧ ¬ m.HasFree .disk) ∧ ∃ frame m₀ m', MadeRoom none m m₀ ∧
        Relocates (.slot slot) (.frame frame) m₀ m' ∧ m'.framePool frame = kind ∧
        (PagedMemory.pageIn slot kind).run m = .ok frame m') ∨
      ((PagedMemory.pageIn slot kind).run m = .error (.resourceExhausted .disk) m ∧
        ¬ m.HasFree kind ∧ ¬ m.HasFree .disk) := by
  rcases h.takeFrame_exact hk none with ⟨hnone, frame, m₀, hroom, hpool, hfree, htake⟩
    | ⟨e, htake, hlacks⟩
  · obtain ⟨hrun, hr⟩ := h.pageIn_ok hs hroom hfree htake
    refine .inl ⟨fun hlacks => hnone .disk ((h.lacks_none_iff hk).mpr ⟨rfl, hlacks⟩), frame, m₀, _,
      hroom, hr, (Paging.home_of_range hr.extent.range (.frame frame)).trans hpool, hrun⟩
  · obtain ⟨rfl, hnone⟩ := (h.lacks_none_iff hk).mp hlacks
    exact .inr ⟨h.pageIn_error hs htake, hnone⟩

end

end PagedMemory

end PagedMachine

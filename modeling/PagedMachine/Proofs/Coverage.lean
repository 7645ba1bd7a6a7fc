import PagedMachine.Proofs.Housing
import PagedMachine.Proofs.Views

/-!
# Counts that are never too small

The numbers of processes wrap, and a process whose number is given away again leaves
its counts behind. From then on the books may count too many mappings, but never too
few: what is mapped is not free, and a page that is counted once is mapped at most
once. So pages may be moved, and one made private, whatever the numbers are.
-/

namespace PagedMachine.PagedMemory

variable {m m' m'' m₀ : PagedMemory} {n : Location → Nat} {place place' : Location → Location}
    {l : Location} {pid page frame slot : Word} {d : Directory} {mp : Mapping} {kind : PoolKind}
    {pinned : Option Word}

/-- The books agree among themselves and count every mapping, perhaps more. -/
structure Covered (m : PagedMemory) : Prop where
  layout : Layout m
  books : Books m.toPaging m.refs
  covers : ∀ l, m.mappingsOf l ≤ m.refs l

def Alone (m : PagedMemory) (pid page : Word) (l : Location) : Prop :=
  ∀ q page' mp, m.mappingIn? q page' = some mp → mp.location = l → q = pid ∧ page' = page

theorem refs_of_books (h : Books m.toPaging n) : m.refs = n := by
  funext l
  rw [Paging.refs_eq, h.counted]
  split <;> simp_all

theorem covered_of_books (hlayout : Layout m) (hbooks : Books m.toPaging n)
    (hcovers : ∀ l, m.mappingsOf l ≤ n l) : Covered m := by
  obtain rfl := refs_of_books hbooks
  exact ⟨hlayout, hbooks, hcovers⟩

theorem Consistent.covered (h : Consistent m) : Covered m :=
  covered_of_books h.layout h.books fun _ => Nat.le_refl _

namespace Covered

variable (h : Covered m)
include h

theorem count?_eq (hl : m.refs l ≠ 0) : m.count? l = some (m.refs l) := by
  rw [h.books.counted, if_neg hl]

theorem isFree_eq_false (hl : m.refs l ≠ 0) : m.isFree l = false :=
  Bool.eq_false_iff.mpr fun hf => hl ((h.books.free l (h.books.owned l hl)).mp hf)

theorem refs_of_isFree (hf : m.isFree l) : m.refs l = 0 :=
  (h.books.free l (h.books.pooled _ _ hf)).mp hf

theorem mappingsOf_of_refs (hl : m.refs l = 0) : m.mappingsOf l = 0 :=
  Nat.le_zero.mp (hl ▸ h.covers l)

theorem refs_of_mappingIn (hm : m.mappingIn? pid page = some mp) : m.refs mp.location ≠ 0 := by
  intro hz
  obtain ⟨d, hd, hmp⟩ := mappingIn?_some.mp hm
  exact mappingsOf_ne_zero hd hmp (h.mappingsOf_of_refs hz)

theorem alone (hone : ¬ 1 < m.refs l) (hm : m.mappingIn? pid page = some mp)
    (hl : mp.location = l) : m.Alone pid page l := by
  intro q page' mp' hm' hl'
  by_contra hne
  obtain ⟨d, hd, hmp⟩ := mappingIn?_some.mp hm
  obtain ⟨d', hd', hmp'⟩ := mappingIn?_some.mp hm'
  have hboth := Table.add_le_sum_sum hd hmp hd' hmp' hne fun mp => if mp.location = l then 1 else 0
  have hsum : m.mappingsOf l = m.processes.sum (·.sum fun mp => if mp.location = l then 1 else 0) :=
    Table.sum_congr fun _ d _ => d.mappingsOf_eq_sum l
  rw [if_pos hl, if_pos hl'] at hboth
  exact hone (Nat.le_trans hboth (Nat.le_trans (Nat.le_of_eq hsum.symm) (h.covers l)))

theorem alone_of_unused (hl : m.refs l = 0) : m.Alone pid page l :=
  fun _ _ _ hm hm' => absurd hl (hm' ▸ h.refs_of_mappingIn hm)

theorem with_counters (counters : PagingCounters) : Covered { m with counters := counters } :=
  covered_of_books (h.layout.of_sameExtent ⟨rfl, rfl, rfl, rfl, rfl⟩)
    (h.books.frame _ _ _ _ _) h.covers

end Covered

/-! ## Pages that are put elsewhere -/

def placed (place : Location → Location) (mp : Mapping) : Mapping :=
  { mp with location := place mp.location }

/-- Every page is where it has been put, with all its mappings and its count, and no two are
together that were apart. -/
structure Shifts (place : Location → Location) (m m' : PagedMemory) : Prop where
  covered : Covered m'
  mappings : ∀ pid page, m'.mappingIn? pid page = (m.mappingIn? pid page).map (placed place)
  live : ∀ pid, m'.processes.contains pid = m.processes.contains pid
  apart : ∀ k l, m.refs k ≠ 0 → m.refs l ≠ 0 → place k = place l → k = l
  refs : ∀ l, m.refs l ≠ 0 → m'.refs (place l) = m.refs l
  current : m'.current = m.current
  extent : SameExtent m m'

theorem Shifts.refl (h : Covered m) : Shifts id m m :=
  ⟨h, fun _ _ => Option.map_id'.symm, fun _ => rfl, fun _ _ _ _ => id, fun _ _ => rfl, rfl, .refl m⟩

theorem Shifts.trans (h : Shifts place m m') (h' : Shifts place' m' m'') :
    Shifts (place' ∘ place) m m'' where
  covered := h'.covered
  mappings pid page := by
    rw [h'.mappings, h.mappings, Option.map_map]
    rfl
  live pid := (h'.live pid).trans (h.live pid)
  apart k l hk hl he := h.apart k l hk hl (h'.apart _ _ (h.refs k hk ▸ hk) (h.refs l hl ▸ hl) he)
  refs l hl := (h'.refs _ (h.refs l hl ▸ hl)).trans (h.refs l hl)
  current := h'.current.trans h.current
  extent := h.extent.trans h'.extent

theorem Shifts.with_counters (h : Shifts place m m') (counters : PagingCounters) :
    Shifts place m { m' with counters := counters } where
  covered := h.covered.with_counters counters
  mappings := h.mappings
  live := h.live
  apart := h.apart
  refs := h.refs
  current := h.current
  extent :=
    ⟨h.extent.range, h.extent.ramBase, h.extent.ramSize, h.extent.diskBase, h.extent.diskSize⟩

theorem Shifts.mapping (h : Shifts place m m') (hm : m.mappingIn? pid page = some mp) :
    m'.mappingIn? pid page = some (placed place mp) := by
  rw [h.mappings, hm]
  rfl

theorem Covered.shifts (h : Covered m) {source target : Location} (hused : m.refs source ≠ 0)
    (hunused : m.refs target = 0)
    (hprocesses : m'.processes = m.processes.map (·.repoint source target))
    (hcurrent : m'.current = m.current) (hextent : SameExtent m m')
    (hbooks : Books m'.toPaging
      (Function.update (Function.update m.refs target (m.refs source)) source 0)) :
    Shifts (Function.update id source target) m m' := by
  have hne : source ≠ target := fun e => hused (e ▸ hunused)
  have hmaps := Paging.mappingsOf_repoint hprocesses hne (h.mappingsOf_of_refs hunused)
  have hrefs := refs_of_books hbooks
  refine ⟨covered_of_books (h.layout.of_sameExtent hextent) hbooks fun l => ?_, fun q page =>
    ?_, fun q => ?_, ?_, ?_,
    hcurrent, hextent⟩
  · simp only [hmaps, Function.update_apply]
    split
    · exact Nat.le_refl 0
    · split
      · exact h.covers source
      · exact h.covers l
  · rw [mappingIn?, hprocesses, Table.find?_map, mappingIn?]
    cases m.processes.find? q with
    | none => rfl
    | some d =>
      rw [Option.map_some, Option.bind_some, Option.bind_some, Directory.repoint, Table.find?_map]
      refine Option.map_congr fun mp _ => ?_
      by_cases hl : mp.location = source <;> simp [placed, hl]
  · rw [hprocesses, Table.contains_map]
  · -- the target was not counted, so no counted page is put where another one is
    intro k l hk hl he
    have hkt : k ≠ target := fun e => hk (e ▸ hunused)
    have hlt : l ≠ target := fun e => hl (e ▸ hunused)
    simp only [Function.update_apply, id_eq] at he
    split at he <;> split at he <;> simp_all
  · intro l hl
    have hlt : l ≠ target := fun e => hl (e ▸ hunused)
    rw [hrefs]
    by_cases hls : l = source
    · subst hls
      rw [Function.update_self, Function.update_of_ne hlt.symm, Function.update_self]
    · rw [Function.update_of_ne hls, id_eq, Function.update_of_ne hls, Function.update_of_ne hlt]

def Stays (pinned : Option Word) (place : Location → Location) : Prop :=
  ∀ l, (∀ frame, l = .frame frame → some frame = pinned) → place l = l

theorem stays_id (pinned : Option Word) : Stays pinned id := fun _ _ => rfl

/-! ## Room for a page -/

theorem Covered.evict (h : Covered m) (hf : m.refs (.frame frame) ≠ 0) {r : Except Fault Unit}
    (hstep : Yields (PagedMemory.evict frame) m r m') :
    ∃ place, Shifts place m m' ∧ ∀ l, l ≠ .frame frame → place l = l := by
  have howns := h.books.owned _ hf
  have hcount := h.count?_eq hf
  have hread := Ram.readFrame_ok h.layout.ram (h.layout.frame_lt howns)
  cases hs : m.diskPool.free.keys with
  | nil =>
    have hrun :
        (PagedMemory.evict frame).run m = .error (.resourceExhausted (m.pool .disk).kind) m := by
      have hcount : m.frameRefs.find? frame = some (m.refs (.frame frame)) := hcount
      rw [PagedMemory.evict, get_bind, get_bind]
      simp only [hcount]
      rw [get_bind, bind_ok (outcome_ok hread m), bind_error (onPool_allocate_error (by exact hs))]
    obtain ⟨-, rfl⟩ := hstep.eq_of_error hrun
    exact ⟨id, .refl h, fun _ _ => rfl⟩
  | cons slot rest =>
    have hfree : m.isFree (.slot slot) := Pool.isFree_of_keys hs
    have hslot := h.layout.slot_lt (h.books.pooled _ _ hfree)
    have hwrite := Disk.writeSlot_ok h.layout.disk hslot (length_pageAt m (.frame frame))
    have hrun := evict_run hcount hs hread hwrite howns (h.isFree_eq_false hf)
    obtain ⟨-, rfl⟩ := hstep.eq_of_ok hrun
    have hne : Function.update m.refs (.slot slot) (m.refs (.frame frame)) (.frame frame) ≠ 0 := by
      rwa [Function.update_of_ne (by simp)]
    refine ⟨_, h.shifts hf (h.refs_of_isFree hfree) rfl ?_ ?_ ?_, fun l hl =>
      Function.update_of_ne hl _ _⟩
    · simp [movedOut, Paging.vacate, Paging.occupy, Paging.setFree]
    · exact sameExtent_movedOut (ByteStore.base_patch ..) (ByteStore.size_patch ..)
    · exact ((h.books.occupy hfree hf).vacate hne).frame _ _ _ _ _

theorem Covered.makeRoom (h : Covered m) {r : Except Fault Unit}
    (hstep : Yields (makeRoom kind pinned) m r m') :
    ∃ place, Shifts place m m' ∧ Stays pinned place := by
  by_cases hfree : m.HasFree kind
  · obtain ⟨-, rfl⟩ := hstep.eq_of_ok (makeRoom_run_free pinned hfree)
    exact ⟨id, .refl h, stays_id pinned⟩
  · cases hv : m.victim? kind pinned with
    | none =>
      obtain ⟨-, rfl⟩ := hstep.eq_of_error (makeRoom_run_none hfree hv)
      exact ⟨id, .refl h, stays_id pinned⟩
    | some out =>
      have hout := List.find?_some hv
      rw [Bool.and_eq_true, bne_iff_ne] at hout
      -- what is queued is counted, and the victim is not the pinned frame
      have hcounted := (h.books.queued out).mp (List.mem_of_find?_eq_some hv)
      have hstays : ∀ place : Location → Location, (∀ l, l ≠ .frame out → place l = l) →
          Stays pinned place :=
        fun place hplace l hl => hplace l fun e => hout.1 (hl out e)
      rcases (hstep.of_run (makeRoom_run_some hfree hv).symm).of_bind with
        ⟨_, m₁, hevict, htally⟩ | ⟨e, -, hevict⟩
      · obtain ⟨-, rfl⟩ := htally.eq_of_ok rfl
        obtain ⟨place, hshifts, hplace⟩ := h.evict hcounted hevict
        exact ⟨place, hshifts.with_counters _, hstays place hplace⟩
      · obtain ⟨place, hshifts, hplace⟩ := h.evict hcounted hevict
        exact ⟨place, hshifts, hstays place hplace⟩

theorem Covered.takeFrame (h : Covered m) (hk : kind ≠ .disk) {r : Except Fault Word}
    (hstep : Yields (PagedMemory.takeFrame kind pinned) m r m') :
    ∃ place m₀, Shifts place m m₀ ∧ Stays pinned place ∧
      ((∃ e, r = .error e ∧ m' = m₀) ∨ ∃ frame, r = .ok frame ∧ m' = m₀.handOut frame ∧
        m₀.isFree (.frame frame)) := by
  rw [takeFrame_eq] at hstep
  rcases hstep.of_bind with ⟨_, m₀, hroom, htake⟩ | ⟨e, rfl, hroom⟩
  · obtain ⟨place, hshifts, hstays⟩ := h.makeRoom hroom
    refine ⟨place, m₀, hshifts, hstays, ?_⟩
    cases hkeys : (m₀.pool kind).free.keys with
    | nil =>
      obtain ⟨rfl, rfl⟩ := htake.eq_of_error (onPool_allocate_error hkeys)
      exact .inl ⟨_, rfl, rfl⟩
    | cons frame rest =>
      have hfree := Pool.isFree_of_keys hkeys
      obtain rfl :=
        hshifts.covered.layout.framePool_of_owns hk (hshifts.covered.books.pooled kind frame hfree)
      obtain ⟨rfl, rfl⟩ := htake.eq_of_ok (onPool_allocate_ok hkeys)
      exact .inr ⟨frame, rfl, rfl, hfree⟩
  · obtain ⟨place, hshifts, hstays⟩ := h.makeRoom hroom
    exact ⟨place, m', hshifts, hstays, .inl ⟨e, rfl, rfl⟩⟩

/-! ## Pages that are brought in -/

theorem Covered.pageIn (h : Covered m) (hs : m.refs (.slot slot) ≠ 0) (hk : kind ≠ .disk)
    {r : Except Fault Word} (hstep : Yields (PagedMemory.pageIn slot kind) m r m') :
    ∃ place, Shifts place m m' ∧ ∀ frame, r = .ok frame → place (.slot slot) = .frame frame := by
  have hread : Disk.readSlot m.disk slot = .ok (m.pageAt (.slot slot)) :=
    Disk.readSlot_ok h.layout.disk (h.layout.slot_lt (h.books.owned _ hs))
  obtain ⟨r₀, m₁, htake⟩ := yields_exists (PagedMemory.takeFrame kind none) m
  obtain ⟨place, m₀, hshifts, hstays, ⟨e, rfl, rfl⟩ | ⟨frame, rfl, rfl, hfree⟩⟩ :=
    h.takeFrame hk htake
  · have hrun : (PagedMemory.pageIn slot kind).run m = .error e m₁ := by
      rw [PagedMemory.pageIn, get_bind, bind_ok (outcome_ok hread m), bind_error htake]
    obtain ⟨rfl, rfl⟩ := hstep.eq_of_error hrun
    exact ⟨place, hshifts, fun _ he => by cases he⟩
  · have h₀ := hshifts.covered
    -- room was made without moving the page, which is in no frame
    have hslot : place (.slot slot) = .slot slot := hstays _ fun _ he => by cases he
    have hs₀ : m₀.refs (.slot slot) ≠ 0 := hslot ▸ hshifts.refs _ hs ▸ hs
    have hwrite := Ram.writeFrame_ok h₀.layout.ram (h₀.layout.frame_lt (h₀.books.pooled _ _ hfree))
      (length_pageAt m (.slot slot))
    have hrun :=
      pageIn_run hread htake hwrite (h₀.count?_eq hs₀) (h₀.books.owned _ hs₀)
        (h₀.isFree_eq_false hs₀)
    obtain ⟨rfl, rfl⟩ := hstep.eq_of_ok hrun
    have hne : Function.update m₀.refs (.frame frame) (m₀.refs (.slot slot)) (.slot slot) ≠ 0 := by
      rwa [Function.update_of_ne (by simp)]
    have hin :
        Shifts (Function.update id (.slot slot) (.frame frame)) m₀ (m.broughtIn m₀ slot frame) := by
      refine h₀.shifts hs₀ (h₀.refs_of_isFree hfree) rfl ?_ ?_ ?_
      · simp [broughtIn, movedIn, Paging.vacate, Paging.occupy, Paging.setFree]
      · exact sameExtent_movedIn (ByteStore.base_patch ..) (ByteStore.size_patch ..)
      · exact ((h₀.books.occupy hfree hs₀).vacate hne).frame _ _ _ _ _
    refine ⟨_, hshifts.trans hin, fun target he => ?_⟩
    rw [← Except.ok.inj he, Function.comp_apply, hslot, Function.update_self]

theorem Covered.bringIn (h : Covered m) (hm : m.mappingIn? pid page = some mp)
    {r : Except Fault Word} (hstep : Yields (PagedMemory.bringIn mp) m r m') :
    ∃ place, Shifts place m m' ∧ ∀ frame, r = .ok frame → place mp.location = .frame frame := by
  unfold PagedMemory.bringIn at hstep
  have hcounted := h.refs_of_mappingIn hm
  cases hl : mp.location with
  | frame frame =>
    rw [hl] at hstep
    obtain ⟨rfl, rfl⟩ := hstep.of_pure
    exact ⟨id, .refl h, fun _ he => congrArg Location.frame (Except.ok.inj he)⟩
  | slot slot =>
    rw [hl] at hstep hcounted
    exact h.pageIn hcounted (pool_ne_disk mp.permissions) hstep

/-! ## Private pages -/

theorem location_placed (place : Location → Location) (mp : Mapping) :
    (placed place mp).location = place mp.location := rfl

/-- One mapping becomes a new one, of a frame that no other mapping has. -/
structure Takes (pid page frame : Word) (new : Mapping) (m m' : PagedMemory) : Prop where
  covered : Covered m'
  located : new.location = .frame frame
  self : m'.mappingIn? pid page = some new
  others : ∀ q page', ¬ (q = pid ∧ page' = page) → m'.mappingIn? q page' = m.mappingIn? q page'
  alone : m.Alone pid page (.frame frame)
  extent : SameExtent m m'

theorem takes_of_update {f : Directory → Directory} {new : Mapping} (hcovered : Covered m')
    (hextent : SameExtent m m') (hp : m'.processes = m.processes.update pid f)
    (hd : m.processes.find? pid = some d)
    (hf : ∀ page', (f d).find? page' = if page' = page then some new else d.find? page')
    (hl : new.location = .frame frame) (halone : m.Alone pid page (.frame frame)) :
    Takes pid page frame new m m' where
  covered := hcovered
  located := hl
  self := (mappingIn?_update hp hd hf pid page).trans (if_pos ⟨rfl, rfl⟩)
  others q page' hne := (mappingIn?_update hp hd hf q page').trans (if_neg hne)
  alone := halone
  extent := hextent

section
variable (h : Covered m) (hm : m.mappingIn? pid page = some mp) (hl : mp.location = .frame frame)
include h hm hl

theorem Covered.takes_copy {copy : Word} (hshared : 1 < m.refs (.frame frame))
    (hfree : m.isFree (.frame copy)) {ram : Ram} (hb : ram.base = m.ram.base)
    (hs : ram.size = m.ram.size) :
    Takes pid page copy (own copy mp) m (m.ownCopy pid page frame copy ram) := by
  have hunused := h.refs_of_isFree hfree
  have hfc : Location.frame frame ≠ .frame copy := fun e => by rw [e] at hshared; omega
  have hextent : SameExtent m (m.ownCopy pid page frame copy ram) := sameExtent_ownCopy hb hs
  obtain ⟨d, hd, hmp⟩ := mappingIn?_some.mp hm
  have hmaps := mappingsOf_ownCopy hd hmp hl (h.mappingsOf_of_refs hunused) ram
  have hne : Function.update m.refs (.frame copy) 1 (.frame frame) ≠ 0 := by
    rw [Function.update_of_ne hfc]
    omega
  have hrest : m.refs (.frame frame) - 1 ≠ 0 := by omega
  have hbooks : Books (m.ownCopy pid page frame copy ram).toPaging _ :=
    ((h.books.occupy hfree Nat.one_ne_zero).recount hne hrest).frame _ _ _ _ _
  refine takes_of_update (covered_of_books (h.layout.of_sameExtent hextent) hbooks fun l =>
    ?_) hextent
    processes_ownCopy hd (find?_update_own hmp copy) rfl (h.alone_of_unused hunused)
  have := h.covers l
  have := h.covers (.frame frame)
  simp only [hmaps, Function.update_apply]
  split
  · omega
  · split
    · exact Nat.le_refl 1
    · assumption

theorem Covered.takes_inPlace (hone : ¬ 1 < m.refs (.frame frame)) :
    Takes pid page frame (own frame mp) m (m.changed pid (·.update page (own frame))) := by
  obtain ⟨d, hd, hmp⟩ := mappingIn?_some.mp hm
  have hmaps : (m.changed pid (·.update page (own frame))).mappingsOf = m.mappingsOf :=
    mappingsOf_changed_eq hd (mappingsOf_update_own hmp hl)
  have hbooks : Books (m.changed pid (·.update page (own frame))).toPaging m.refs :=
    h.books.frame _ _ _ _ _
  have hextent := sameExtent_changed m pid (·.update page (own frame))
  refine takes_of_update (f := (·.update page (own frame)))
    (covered_of_books (h.layout.of_sameExtent hextent) hbooks fun l => ?_) hextent rfl hd
    (find?_update_own hmp frame) rfl (h.alone hone hm hl)
  rw [hmaps]
  exact h.covers l

theorem Covered.privatise (hc : m.current = some pid) {r : Except Fault Word}
    (hstep : Yields (PagedMemory.privatise page frame) m r m') : ∃ place m₀, Shifts place m m₀ ∧
      ((∃ e, r = .error e ∧ m' = m₀) ∨
        ∃ target, r = .ok target ∧ Takes pid page target (own target (placed place mp)) m₀ m') := by
  have hcounted : m.refs (.frame frame) ≠ 0 := hl ▸ h.refs_of_mappingIn hm
  by_cases hshared : 1 < m.refs (.frame frame)
  · obtain ⟨r₀, m₁, htake⟩ :=
      yields_exists (PagedMemory.takeFrame (m.framePool frame) (some frame)) m
    obtain ⟨place, m₀, hshifts, hstays, ⟨e, rfl, rfl⟩ | ⟨copy, rfl, rfl, hfree⟩⟩ :=
      h.takeFrame (m.framePool_ne_disk frame) htake
    · have hrun : (PagedMemory.privatise page frame).run m = .error e m₁ := by
        rw [PagedMemory.privatise, get_bind, if_pos hshared, get_bind, bind_error htake]
      obtain ⟨rfl, rfl⟩ := hstep.eq_of_error hrun
      exact ⟨place, m', hshifts, .inl ⟨e, rfl, rfl⟩⟩
    · have h₀ := hshifts.covered
      -- the page is pinned while there is made room for its copy
      have hframe : place (.frame frame) = .frame frame :=
        hstays _ fun _ he => congrArg some (Location.frame.inj he).symm
      have hrefs : m₀.refs (.frame frame) = m.refs (.frame frame) := by
        have hsame := hshifts.refs _ hcounted
        rwa [hframe] at hsame
      rw [← hrefs] at hcounted
      have hne : frame ≠ copy :=
        fun e => by rw [e] at hcounted; exact hcounted (h₀.refs_of_isFree hfree)
      have hm₀ := hshifts.mapping hm
      obtain ⟨d₀, hd₀, -⟩ := mappingIn?_some.mp hm₀
      have hcopy :=
        Ram.copyFrame_ok h₀.layout.ram (h₀.layout.frame_lt (h₀.books.owned (.frame frame) hcounted))
        (h₀.layout.frame_lt (h₀.books.pooled _ _ hfree))
      have hrun :=
        privatise_run_ownCopy page hshared htake hcopy (h₀.count?_eq hcounted) (hrefs ▸ hshared) hne
        (hshifts.current.trans hc) hd₀
      obtain ⟨rfl, rfl⟩ := hstep.eq_of_ok hrun
      refine ⟨place, m₀, hshifts,
        .inr ⟨copy, rfl, h₀.takes_copy hm₀ ?_ (hrefs ▸ hshared) hfree ?_ ?_⟩⟩
      · rw [location_placed, hl, hframe]
      · exact ByteStore.base_patch ..
      · exact ByteStore.size_patch ..
  · obtain ⟨d, hd, -⟩ := mappingIn?_some.mp hm
    obtain ⟨rfl, rfl⟩ := hstep.eq_of_ok (privatise_run_ownInPlace hshared hc hd)
    exact ⟨id, m, .refl h, .inr ⟨frame, rfl, h.takes_inPlace hm hl hshared⟩⟩

end

/-! ## Accesses -/

theorem mapping?_iff : m.mapping? page = some mp ↔
    ∃ pid, m.current = some pid ∧ m.mappingIn? pid page = some mp := by
  simp only [mapping?_some, mappingIn?_some]
  exact exists_congr fun _ => exists_and_left

/-- How an access to a page of the current process may end: pages may have been put elsewhere, and
for a store a flagged page gets a frame to itself. -/
inductive Settles (page : Word) (access : Access) (m : PagedMemory) : Except Fault Word →
    PagedMemory → Prop
  | moved {place : Location → Location} {r : Except Fault Word} {m' : PagedMemory}
      (hshifts : Shifts place m m')
      (hfound : ∀ frame, r = .ok frame →
        ∃ pid mp, m.current = some pid ∧ m.mappingIn? pid page = some mp ∧
        place mp.location = .frame frame ∧ ¬ (access = .write ∧ mp.copyOnWrite)) :
      Settles page access m r m'
  | taken {place : Location → Location} {m₀ m' : PagedMemory} {pid frame : Word} {mp : Mapping}
      (hshifts : Shifts place m m₀) (hcurrent : m.current = some pid)
      (hmapped : m.mappingIn? pid page = some mp) (hflagged : mp.copyOnWrite)
      (htakes : Takes pid page frame (own frame (placed place mp)) m₀ m') :
      Settles page access m (.ok frame) m'

variable {access : Access} {privilege : Privilege} {address : Word} {r : Except Fault Word}

theorem Covered.materialise (h : Covered m) (hm : m.mapping? page = some mp)
    (hstep : Yields (PagedMemory.materialise page mp access) m r m') :
    Settles page access m r m' := by
  obtain ⟨pid, hc, hmapped⟩ := mapping?_iff.mp hm
  rw [materialise_eq] at hstep
  rcases hstep.of_bind with ⟨frame, m₁, hin, hstep⟩ | ⟨e, rfl, hin⟩
  · obtain ⟨place, hshifts, hplace⟩ := h.bringIn hmapped hin
    have hl := hplace frame rfl
    split at hstep
    · rename_i hstore
      obtain ⟨place', m₀, hshifts', ⟨e, rfl, rfl⟩ | ⟨target, rfl, htakes⟩⟩ :=
        hshifts.covered.privatise (hshifts.mapping hmapped) hl (hshifts.current.trans hc) hstep
      · exact .moved (hshifts.trans hshifts') fun _ he => by cases he
      · exact .taken (hshifts.trans hshifts') hc hmapped hstore.2 htakes
    · rename_i hstore
      obtain ⟨rfl, rfl⟩ := hstep.of_pure
      exact .moved hshifts fun frame' he => ⟨pid, mp, hc, hmapped, Except.ok.inj he ▸ hl, hstore⟩
  · obtain ⟨place, hshifts, -⟩ := h.bringIn hmapped hin
    exact .moved hshifts fun _ he => by cases he

theorem Covered.resolve (h : Covered m)
    (hstep : Yields (PagedMemory.resolve page address access privilege) m r m') :
    Settles page access m r m' := by
  cases hm : m.mapping? page with
  | none =>
    obtain ⟨counters, hrun⟩ := lookup_unmapped hm address access
    obtain ⟨rfl, rfl⟩ := hstep.eq_of_error (bind_error hrun)
    exact .moved ((Shifts.refl h).with_counters counters) fun _ he => by cases he
  | some mp =>
    have hstep := hstep.of_run (bind_ok (lookup_run hm address access)).symm
    split at hstep
    · exact h.materialise hm hstep
    · obtain ⟨rfl, rfl⟩ := hstep.eq_of_error rfl
      exact .moved ((Shifts.refl h).with_counters _) fun _ he => by cases he

theorem Covered.translateHostWrite (h : Covered m)
    (hstep : Yields (PagedMemory.translateHostWrite address) m r m') :
    ∃ r', Settles address.page .write m r' m' := by
  cases hm : m.mapping? address.page with
  | none =>
    obtain ⟨counters, hrun⟩ := lookup_unmapped hm address .write
    obtain ⟨rfl, rfl⟩ := hstep.eq_of_error (bind_error hrun)
    exact ⟨_, .moved ((Shifts.refl h).with_counters counters) (r := .error (.noProcess)) fun _ he =>
      by cases he⟩
  | some mp =>
    have hrun : (PagedMemory.translateHostWrite address).run m =
        (PagedMemory.materialise address.page mp .write >>= fun frame =>
          physical frame address.pageOffset).run m := by
      rw [PagedMemory.translateHostWrite, bind_ok (lookup_run hm address .write)]
    obtain ⟨r', hstep⟩ := yields_of_physical (hstep.of_run hrun.symm)
    exact ⟨r', h.materialise hm hstep⟩

end PagedMachine.PagedMemory

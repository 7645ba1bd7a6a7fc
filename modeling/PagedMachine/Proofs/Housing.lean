import PagedMachine.Proofs.Mappings
import PagedMachine.Proofs.Operations

/-!
# Pages in their pools

A page that is in a frame is in one of the pool that its permissions ask for. All
mappings of a frame or slot have the same permissions, so it stays that way when
the page comes back from the disk, whichever of them is used.
-/

namespace PagedMachine.PagedMemory

variable {m m' m'' : PagedMemory} {v : Virtual.Memory} {t : Table Directory}
    {pid page frame slot : Word} {d : Directory} {mp : Mapping}

/-! ## Mappings of all processes -/

def Maps (t : Table Directory) (mp : Mapping) : Prop :=
  ∃ pid d page, t.find? pid = some d ∧ d.find? page = some mp

theorem maps_update {f : Directory → Directory} (h : Maps (t.update pid f) mp) :
    Maps t mp ∨ ∃ d page, t.find? pid = some d ∧ (f d).find? page = some mp := by
  obtain ⟨q, d, page, hd, hm⟩ := h
  rw [Table.find?_update] at hd
  split at hd
  · rename_i hq
    obtain ⟨d₀, hd₀, rfl⟩ := Option.map_eq_some_iff.mp hd
    exact .inr ⟨d₀, page, hq ▸ hd₀, hm⟩
  · exact .inl ⟨q, d, page, hd, hm⟩

theorem maps_insert (h : Maps (t.insert pid d) mp) :
    Maps t mp ∨ ∃ page, d.find? page = some mp := by
  obtain ⟨q, d', page, hd, hm⟩ := h
  rw [Table.find?_insert] at hd
  split at hd
  · obtain rfl := Option.some.inj hd
    exact .inr ⟨page, hm⟩
  · exact .inl ⟨q, d', page, hd, hm⟩

theorem maps_erase (h : Maps (t.erase pid) mp) : Maps t mp := by
  obtain ⟨q, d, page, hd, hm⟩ := h
  rw [Table.find?_erase] at hd
  split at hd
  · cases hd
  · exact ⟨q, d, page, hd, hm⟩

theorem maps_repoint {source target : Location} (h : Maps (t.map (·.repoint source target)) mp) :
    ∃ mp₀, Maps t mp₀ ∧ mp =
      if mp₀.location = source then { mp₀ with location := target } else mp₀ := by
  obtain ⟨q, d, page, hd, hm⟩ := h
  rw [Table.find?_map] at hd
  obtain ⟨d₀, hd₀, rfl⟩ := Option.map_eq_some_iff.mp hd
  rw [Directory.repoint, Table.find?_map] at hm
  obtain ⟨mp₀, hm₀, rfl⟩ := Option.map_eq_some_iff.mp hm
  exact ⟨mp₀, ⟨q, d₀, page, hd₀, hm₀⟩, rfl⟩

theorem maps_of_mapping? (hm : m.mapping? page = some mp) : Maps m.processes mp := by
  obtain ⟨pid, d, -, hd, hmp⟩ := mapping?_some.mp hm
  exact ⟨pid, d, page, hd, hmp⟩

theorem mappingsOf_of_maps (h : Maps m.processes mp) : m.mappingsOf mp.location ≠ 0 := by
  obtain ⟨pid, d, page, hd, hm⟩ := h
  exact mappingsOf_ne_zero hd hm

/-! ## Housed pages -/

/-- Every page is in a frame of its pool or on the disk, with the same permissions for all who have
it. -/
structure Housed (m : PagedMemory) : Prop where
  resident : ∀ mp frame, Maps m.processes mp → mp.location = .frame frame →
    m.framePool frame = mp.permissions.pool
  agree : ∀ mp mp', Maps m.processes mp → Maps m.processes mp' → mp.location = mp'.location →
    mp.permissions = mp'.permissions

theorem housed_of_empty (h : m.processes = .empty) : Housed m := by
  have hnone : ∀ mp, ¬ Maps m.processes mp := by
    rintro mp ⟨pid, d, page, hd, -⟩
    rw [h] at hd
    cases hd
  exact ⟨fun mp _ hmp => absurd hmp (hnone mp), fun mp _ hmp => absurd hmp (hnone mp)⟩

def Had (m : PagedMemory) (mp : Mapping) : Prop :=
  ∃ flag, Maps m.processes { mp with copyOnWrite := flag }

theorem had_of_maps (h : Maps m.processes mp) : m.Had mp := ⟨mp.copyOnWrite, h⟩

theorem framePool_of_range (h : m'.range = m.range) (frame : Word) :
    m'.framePool frame = m.framePool frame :=
  Paging.home_of_range h (.frame frame)

/-- What is newly mapped is mapped to one unused frame, from the right pool. -/
theorem Housed.filled (h : Housed m) (hrange : m'.range = m.range) {permissions : Permissions}
    (hunused : m.mappingsOf (.frame frame) = 0) (hpool : m.framePool frame = permissions.pool)
    (hmaps : ∀ mp, Maps m'.processes mp → m.Had mp ∨
      mp.location = .frame frame ∧ mp.permissions = permissions) : Housed m' where
  resident mp g hmp hl := by
    rw [framePool_of_range hrange]
    rcases hmaps mp hmp with ⟨flag, hmp₀⟩ | ⟨hg, rfl⟩
    · exact h.resident { mp with copyOnWrite := flag } g hmp₀ hl
    · obtain rfl := Location.frame.inj (hl.symm.trans hg)
      exact hpool
  agree mp mp' hmp hmp' hl := by
    have hold : ∀ mp, m.Had mp → mp.location ≠ .frame frame := by
      rintro mp ⟨flag, hmp⟩ hframe
      exact mappingsOf_of_maps hmp (hframe ▸ hunused)
    rcases hmaps mp hmp with ⟨flag, hmp₀⟩ | ⟨hg, hp⟩
    · rcases hmaps mp' hmp' with ⟨flag', hmp₀'⟩ | ⟨hg', -⟩
      · exact h.agree { mp with copyOnWrite := flag } { mp' with copyOnWrite := flag' } hmp₀
          hmp₀' hl
      · exact absurd (hl.trans hg') (hold mp ⟨flag, hmp₀⟩)
    · rcases hmaps mp' hmp' with hhad' | ⟨-, hp'⟩
      · exact absurd (hl.symm.trans hg) (hold mp' hhad')
      · exact hp.trans hp'.symm

theorem Housed.with_counters (h : Housed m) (counters : PagingCounters) :
    Housed { m with counters := counters } :=
  ⟨h.resident, h.agree⟩

/-- The mappings are some of those before, perhaps with other flags. -/
structure Inherits (m m' : PagedMemory) : Prop where
  range : m'.range = m.range
  maps : ∀ mp, Maps m'.processes mp → m.Had mp

theorem Inherits.refl (m : PagedMemory) : Inherits m m := ⟨rfl, fun _ => had_of_maps⟩

theorem Inherits.housed (h : Inherits m m') (hm : Housed m) : Housed m' where
  resident mp frame hmp hl := by
    obtain ⟨flag, hmp₀⟩ := h.maps mp hmp
    rw [framePool_of_range h.range]
    exact hm.resident { mp with copyOnWrite := flag } frame hmp₀ hl
  agree mp mp' hmp hmp' hl := by
    obtain ⟨flag, hmp₀⟩ := h.maps mp hmp
    obtain ⟨flag', hmp₀'⟩ := h.maps mp' hmp'
    exact hm.agree { mp with copyOnWrite := flag } { mp' with copyOnWrite := flag' } hmp₀ hmp₀' hl

theorem Inherits.same (h : Inherits m m') (hp : m''.processes = m'.processes)
    (hr : m''.range = m'.range) : Inherits m m'' :=
  ⟨hr.trans h.range, fun mp hmp => h.maps mp (hp ▸ hmp)⟩

theorem Inherits.changed (h : Inherits m m') (pid : Word) {f : Directory → Directory}
    (hf : ∀ d page mp, m'.processes.find? pid = some d → (f d).find? page = some mp → m.Had mp) :
    Inherits m (m'.changed pid f) := by
  refine ⟨h.range, fun mp hmp => ?_⟩
  rcases maps_update hmp with hold | ⟨d, page, hd, hm⟩
  · exact h.maps mp hold
  · exact hf d page mp hd hm

theorem Inherits.changed_insert (h : Inherits m m') (pid page : Word) (hmp : m.Had mp) :
    Inherits m (m'.changed pid (·.insert page mp)) := by
  refine h.changed pid fun d q mp' hd hm => ?_
  rw [Table.find?_insert] at hm
  split at hm
  · obtain rfl := Option.some.inj hm
    exact hmp
  · exact h.maps mp' ⟨pid, d, q, hd, hm⟩

/-! ## Pages that move -/

/-- A mapping after a page has moved is one that moved with it, or as it was and elsewhere. -/
theorem Relocates.maps_back {source target : Location} (hr : Relocates source target m m')
    (hmp : Maps m'.processes mp) :
    ∃ mp₀, Maps m.processes mp₀ ∧ mp₀.permissions = mp.permissions ∧
      (mp₀.location = source ∧ mp.location = target ∨
        mp₀.location = mp.location ∧ mp.location ≠ target) := by
  rw [hr.processes] at hmp
  obtain ⟨mp₀, hmp₀, rfl⟩ := maps_repoint hmp
  by_cases hl : mp₀.location = source
  · rw [if_pos hl]
    exact ⟨mp₀, hmp₀, rfl, .inl ⟨hl, rfl⟩⟩
  · rw [if_neg hl]
    refine ⟨mp₀, hmp₀, rfl, .inr ⟨rfl, fun ht => ?_⟩⟩
    exact mappingsOf_of_maps hmp₀ (ht ▸ hr.unused)

/-- Those that are together afterwards moved together, or both stayed. -/
theorem Relocates.agree {source target : Location} (hr : Relocates source target m m')
    (h : ∀ mp mp', Maps m.processes mp → Maps m.processes mp' → mp.location = mp'.location →
      mp.permissions = mp'.permissions) {mp' : Mapping} (hmp : Maps m'.processes mp)
      (hmp' : Maps m'.processes mp') (hl : mp.location = mp'.location) :
    mp.permissions = mp'.permissions := by
  obtain ⟨mp₀, hmp₀, hperm, hfrom⟩ := hr.maps_back hmp
  obtain ⟨mp₀', hmp₀', hperm', hfrom'⟩ := hr.maps_back hmp'
  rw [← hperm, ← hperm']
  apply h mp₀ mp₀' hmp₀ hmp₀'
  rcases hfrom with ⟨hs, ht⟩ | ⟨hsame, hne⟩
  · rcases hfrom' with ⟨hs', -⟩ | ⟨-, hne'⟩
    · exact hs.trans hs'.symm
    · exact absurd (hl.symm.trans ht) hne'
  · rcases hfrom' with ⟨-, ht'⟩ | ⟨hsame', -⟩
    · exact absurd (hl.trans ht') hne
    · exact hsame.trans (hl.trans hsame'.symm)

theorem Housed.movedOut (h : Housed m) (hr : Relocates (.frame frame) (.slot slot) m m') :
    Housed m' := by
  refine ⟨fun mp g hmp hl => ?_, fun _ _ => hr.agree h.agree⟩
  obtain ⟨mp₀, hmp₀, hperm, ⟨-, hs⟩ | ⟨hsame, -⟩⟩ := hr.maps_back hmp
  · cases hl.symm.trans hs
  · rw [framePool_of_range hr.extent.range, ← hperm]
    exact h.resident mp₀ g hmp₀ (hsame.trans hl)

theorem Housed.madeRoom {pinned : Option Word} (h : Housed m) (hroom : MadeRoom pinned m m') :
    Housed m' := by
  rcases hroom with rfl | ⟨frame, slot, -, hr⟩
  · exact h
  · exact h.movedOut hr

/-- One mapping of the slot says for all of them which pool is the right one. -/
theorem Housed.movedIn (h : Housed m) (hr : Relocates (.slot slot) (.frame frame) m m')
    (hmp : Maps m.processes mp) (hl : mp.location = .slot slot)
    (hpool : m'.framePool frame = mp.permissions.pool) : Housed m' := by
  refine ⟨fun mp' g hmp' hl' => ?_, fun _ _ => hr.agree h.agree⟩
  obtain ⟨mp₀, hmp₀, hperm, ⟨hs, ht⟩ | ⟨hsame, -⟩⟩ := hr.maps_back hmp'
  · obtain rfl := Location.frame.inj (hl'.symm.trans ht)
    rw [hpool, ← hperm, h.agree mp mp₀ hmp hmp₀ (hl.trans hs.symm)]
  · rw [framePool_of_range hr.extent.range, ← hperm]
    exact h.resident mp₀ g hmp₀ (hsame.trans hl')

/-! ## Operations that fill no frame -/

theorem SameOutsideBooks.inherits (h : SameOutsideBooks m m') (hi : Inherits m'' m) :
    Inherits m'' m' :=
  hi.same h.processes h.range

theorem beginProcess_inherits {r : Except Fault Word}
    (hstep : Yields PagedMemory.beginProcess m r m') : Inherits m m' := by
  obtain ⟨-, rfl⟩ := hstep.eq_of_ok rfl
  refine ⟨rfl, fun mp hmp => ?_⟩
  rcases maps_insert hmp with hold | ⟨page, hm⟩
  · exact had_of_maps hold
  · cases hm

theorem Consistent.endProcess_inherits (h : Consistent m) {r : Except Fault Unit}
    (hstep : Yields (PagedMemory.endProcess pid) m r m') : Inherits m m' := by
  have hstep := hstep.of_get_bind
  cases hd : m.processes.find? pid with
  | none =>
    rw [hd] at hstep
    obtain ⟨-, rfl⟩ := hstep.of_throw
    exact .refl _
  | some d =>
    rw [hd] at hstep
    have hbooks : Books (m.withoutProcess pid).toPaging m.mappingsOf := h.books.frame _ _ _ _ _
    obtain ⟨m₂, hrun, -, hsame⟩ := releaseAll_run d.locations hbooks (mappingsOf_le hd)
    obtain ⟨-, rfl⟩ := hstep.eq_of_ok hrun
    exact hsame.inherits ⟨rfl, fun mp hmp => had_of_maps (maps_erase hmp)⟩

theorem switchProcess_inherits {r : Except Fault Unit}
    (hstep : Yields (PagedMemory.switchProcess pid) m r m') : Inherits m m' := by
  have hstep := hstep.of_get_bind
  split at hstep
  · obtain ⟨-, rfl⟩ := hstep.eq_of_ok rfl
    exact (Inherits.refl m).same rfl rfl
  · obtain ⟨-, rfl⟩ := hstep.of_throw
    exact .refl _

theorem had_of_protectWritable (hd : m.processes.find? pid = some d)
    (hm : d.protectWritable.find? page = some mp) : m.Had mp := by
  rw [Directory.protectWritable, Table.find?_map] at hm
  obtain ⟨mp₀, hm₀, rfl⟩ := Option.map_eq_some_iff.mp hm
  refine ⟨mp₀.copyOnWrite, ?_⟩
  split <;> exact ⟨pid, d, page, hd, hm₀⟩

theorem forkProcess_inherits {r : Except Fault Word}
    (hstep : Yields PagedMemory.forkProcess m r m') : Inherits m m' := by
  cases hcur : m.currentDirectory with
  | error e =>
    obtain ⟨-, rfl⟩ := hstep.eq_of_error (bind_error (updateCurrent_error hcur _))
    exact .refl _
  | ok d =>
    obtain ⟨pid, hc, hd⟩ := currentDirectory_ok.mp hcur
    obtain ⟨m₂, hretain, hsame⟩ :=
      retainAll_total d.protectWritable.locations (m.changed pid (·.protectWritable))
    obtain ⟨-, rfl⟩ := hstep.eq_of_ok ((forkProcess_run hc hd hretain).trans rfl)
    have hparent : Inherits m m₂ :=
      hsame.inherits <| (Inherits.refl m).changed pid fun d' page mp hd' hm =>
      had_of_protectWritable hd' hm
    refine ⟨hparent.range, fun mp hmp => ?_⟩
    rcases maps_insert hmp with hold | ⟨page, hm⟩
    · exact hparent.maps mp hold
    · exact had_of_protectWritable hd hm

theorem Consistent.removePage_inherits (h : Consistent m) {r : Except Fault Unit}
    (hstep : Yields (PagedMemory.removePage page) m r m') : Inherits m m' := by
  rcases hstep.of_get_bind.of_outcome_bind with ⟨mp, hmp, hstep⟩ | ⟨-, rfl⟩
  · obtain ⟨pid, d, hc, hd, hm⟩ := mappingOf_ok hmp
    have hbooks : Books (m.changed pid (·.erase page)).toPaging m.mappingsOf :=
      h.books.frame _ _ _ _ _
    obtain ⟨m₂, hrun, -, hsame⟩ := release_run hbooks (mappingsOf_ne_zero hd hm)
    obtain ⟨-, rfl⟩ := hstep.eq_of_ok ((bind_ok (updateCurrent_run hc hd _)).trans hrun)
    refine hsame.inherits ((Inherits.refl m).changed pid fun d' q mp' hd' hm' => ?_)
    rw [Table.find?_erase] at hm'
    split at hm'
    · cases hm'
    · exact had_of_maps ⟨pid, d', q, hd', hm'⟩
  · exact .refl _

theorem Consistent.removeAll_inherits (h : Consistent m) {r : Except Fault Unit}
    (hstep : Yields PagedMemory.removeAll m r m') : Inherits m m' := by
  rcases hstep.of_get_bind.of_outcome_bind with ⟨d, hcur, hstep⟩ | ⟨-, rfl⟩
  · obtain ⟨pid, hc, hd⟩ := currentDirectory_ok.mp hcur
    have hbooks : Books (m.changed pid fun _ => .empty).toPaging m.mappingsOf :=
      h.books.frame _ _ _ _ _
    obtain ⟨m₂, hrun, -, hsame⟩ := releaseAll_run d.locations hbooks (mappingsOf_le hd)
    obtain ⟨-, rfl⟩ := hstep.eq_of_ok ((bind_ok (updateCurrent_run hc hd _)).trans hrun)
    exact hsame.inherits ((Inherits.refl m).changed pid fun _ _ _ _ hm => by cases hm)
  · exact .refl _

theorem had_sharedBy (copyOnWrite : Bool) (hmp : Maps m.processes mp) :
    m.Had (sharedBy copyOnWrite mp) := by
  refine ⟨mp.copyOnWrite, ?_⟩
  unfold sharedBy
  split <;> exact hmp

theorem updateCurrent_cases {f : Directory → Directory} {r : Except Fault Unit}
    (hstep : Yields (updateCurrent f) m r m') : m' = m ∨ ∃ pid, m' = m.changed pid f := by
  cases hcur : m.currentDirectory with
  | error e => exact .inl (hstep.eq_of_error (updateCurrent_error hcur f)).2
  | ok d =>
    obtain ⟨pid, hc, hd⟩ := currentDirectory_ok.mp hcur
    exact .inr ⟨pid, (hstep.eq_of_ok (updateCurrent_run hc hd f)).2⟩

/-- A share that is refused does nothing. -/
theorem sharePage_cases {q source target : Word} {copyOnWrite : Bool} {r : Except Fault Unit}
    (hshare : Yields (PagedMemory.sharePage q source target copyOnWrite) m r m') : m' = m ∨
      ∃ cur dc d mp, m.current = some cur ∧ m.processes.find? cur = some dc ∧
        dc.find? target = none ∧ m.processes.find? q = some d ∧ d.find? source = some mp ∧
        Yields (do
          retain (sharedBy copyOnWrite mp).location
          updateCurrent (·.insert target (sharedBy copyOnWrite mp)))
          (m.changed q (·.insert source (sharedBy copyOnWrite mp))) r m' := by
  -- all that can be refused is checked before anything changes
  rcases hshare.of_outcome_bind with ⟨_, hsource, hstep⟩ | ⟨-, rfl⟩
  case inr => exact .inl rfl
  rcases hstep.of_outcome_bind with ⟨_, htarget, hstep⟩ | ⟨-, rfl⟩
  case inr => exact .inl rfl
  rcases hstep.of_get_bind.of_outcome_bind with ⟨dc, hcur, hstep⟩ | ⟨-, rfl⟩
  case inr => exact .inl rfl
  obtain ⟨cur, hc, hdc⟩ := currentDirectory_ok.mp hcur
  cases ht : dc.contains target with
  | true =>
    rw [ht, if_pos rfl] at hstep
    exact .inl (hstep.eq_of_error rfl).2
  | false =>
    rw [ht, if_neg Bool.false_ne_true] at hstep
    have hstep := hstep.of_get_bind
    cases hd : m.processes.find? q with
    | none =>
      rw [hd] at hstep
      exact .inl hstep.of_throw.2
    | some d =>
      rw [hd] at hstep
      cases hm : d.find? source with
      | none =>
        dsimp only at hstep
        rw [hm] at hstep
        exact .inl hstep.of_throw.2
      | some mp =>
        refine .inr ⟨cur, dc, d, mp, hc, hdc, Table.contains_eq_false.mp ht, rfl, hm,
          hshare.of_run ?_⟩
        exact (sharePage_run copyOnWrite hsource htarget hc hdc ht hd hm).symm

theorem sharePage_inherits {q source target : Word} {copyOnWrite : Bool} {r : Except Fault Unit}
    (hstep : Yields (PagedMemory.sharePage q source target copyOnWrite) m r m') :
    Inherits m m' := by
  rcases sharePage_cases hstep with rfl | ⟨-, -, d, mp, -, -, -, hd, hm, hstep⟩
  · exact .refl _
  · have hshared := had_sharedBy copyOnWrite ⟨q, d, source, hd, hm⟩
    obtain ⟨m₂, hretain, hsame⟩ :=
      retain_total (m.changed q (·.insert source (sharedBy copyOnWrite mp)))
        (sharedBy copyOnWrite mp).location
    have hcounted : Inherits m m₂ :=
      hsame.inherits ((Inherits.refl m).changed_insert q source hshared)
    have hinsert : Yields (updateCurrent (·.insert target (sharedBy copyOnWrite mp))) m₂ r m' :=
      hstep.of_run
        (bind_ok (f := fun _ =>
          updateCurrent (·.insert target (sharedBy copyOnWrite mp))) hretain).symm
    rcases updateCurrent_cases hinsert with rfl | ⟨cur, rfl⟩
    · exact hcounted
    · exact hcounted.changed_insert cur target hshared

/-! ## Operations that fill a frame -/

theorem Consistent.housed_addPage (h : Consistent m) (hm : Housed m) {permissions : Permissions}
    {copyOnWrite : Bool} {r : Except Fault Word}
    (hadd : Yields (PagedMemory.addPage page permissions copyOnWrite) m r m') : Housed m' := by
  rcases hadd.of_outcome_bind with ⟨-, -, hstep⟩ | ⟨-, rfl⟩
  case inr => exact hm
  rcases hstep.of_get_bind.of_outcome_bind with ⟨d, hcur, hstep⟩ | ⟨-, rfl⟩
  case inr => exact hm
  obtain ⟨pid, hc, hd⟩ := currentDirectory_ok.mp hcur
  cases hmapped : d.contains page with
  | true =>
    rw [hmapped, if_pos rfl] at hstep
    obtain ⟨-, rfl⟩ := hstep.eq_of_error rfl
    exact hm
  | false =>
    rw [hmapped, if_neg Bool.false_ne_true] at hstep
    have hnew : Yields (newPage page permissions copyOnWrite) m r m' := hstep
    rcases h.newPage_exact hc hd (Table.contains_eq_false.mp hmapped) permissions copyOnWrite with
      ⟨-, frame, m₀, hroom, hpool, hfree, hrun⟩ | ⟨e, hrun, -⟩
    · obtain ⟨-, rfl⟩ := hnew.eq_of_ok hrun
      have hunused := (hroom.consistent h).mappingsOf_of_isFree hfree
      refine (hm.madeRoom hroom).filled (m₀.range_occupy (.frame frame) 1) hunused hpool
        fun mp hmp => ?_
      rw [processes_added] at hmp
      rcases maps_update hmp with hold | ⟨d₀, q, hd₀, hq⟩
      · exact .inl (had_of_maps hold)
      · rw [Table.find?_insert] at hq
        split at hq
        · obtain rfl := Option.some.inj hq
          exact .inr ⟨rfl, rfl⟩
        · exact .inl (had_of_maps ⟨pid, d₀, q, hd₀, hq⟩)
    · obtain ⟨-, rfl⟩ := hnew.eq_of_error hrun
      exact hm

theorem Consistent.housed_bringIn (h : Consistent m) (hm : Housed m)
    (hmp : m.mapping? page = some mp) {r : Except Fault Word}
    (hstep : Yields (PagedMemory.bringIn mp) m r m') : Housed m' := by
  obtain ⟨pid, d, -, hd, hmp⟩ := mapping?_some.mp hmp
  unfold PagedMemory.bringIn at hstep
  cases hl : mp.location with
  | frame frame =>
    rw [hl] at hstep
    obtain ⟨-, rfl⟩ := hstep.of_pure
    exact hm
  | slot slot =>
    rw [hl] at hstep
    have hs : m.mappingsOf (.slot slot) ≠ 0 := hl ▸ mappingsOf_ne_zero hd hmp
    rcases h.pageIn_exact hs (pool_ne_disk mp.permissions) with
      ⟨-, frame, m₀, m₁, hroom, hr, hpool, hrun⟩ | ⟨hrun, -⟩
    · obtain ⟨-, rfl⟩ := hstep.eq_of_ok hrun
      obtain ⟨d₀, hd₀, hm₀⟩ := hroom.find? hd hmp (by simp [hl])
      exact (hm.madeRoom hroom).movedIn hr ⟨pid, d₀, page, hd₀, hm₀⟩ hl hpool
    · obtain ⟨-, rfl⟩ := hstep.eq_of_error hrun
      exact hm

/-- A mapping of the page that becomes private keeps its permissions. -/
theorem maps_update_own {target : Word} (hd : m.processes.find? pid = some d)
    (hmp : d.find? page = some mp) {mp' : Mapping}
    (h : Maps (m.processes.update pid (·.update page (own target))) mp') :
    Maps m.processes mp' ∨ mp' = own target mp := by
  rcases maps_update h with hold | ⟨d', q, hd', hq⟩
  · exact .inl hold
  · obtain rfl : d = d' := Option.some.inj (hd.symm.trans hd')
    rw [Table.find?_update] at hq
    split at hq
    · rename_i hqp
      rw [hqp, hmp] at hq
      exact .inr (Option.some.inj hq).symm
    · exact .inl ⟨pid, d, q, hd, hq⟩

theorem Consistent.housed_privatise (h : Consistent m) (hm : Housed m) (hc : m.current = some pid)
    (hd : m.processes.find? pid = some d) (hmp : d.find? page = some mp)
    (hl : mp.location = .frame frame) {r : Except Fault Word}
    (hstep : Yields (PagedMemory.privatise page frame) m r m') : Housed m' := by
  have hpool := hm.resident mp frame ⟨pid, d, page, hd, hmp⟩ hl
  by_cases hshared : 1 < m.mappingsOf (.frame frame)
  · rcases h.privatise_shared hc hd hmp hl hshared with ⟨-, copy, m₀, hroom, hcopy, hfree, hrun⟩
      | ⟨e, hrun, -⟩
    · obtain ⟨-, rfl⟩ := hstep.eq_of_ok hrun
      obtain ⟨d₀, hd₀, hm₀⟩ := hroom.find?_pinned hd hmp hl
      have hunused := (hroom.consistent h).mappingsOf_of_isFree hfree
      refine (hm.madeRoom hroom).filled
        (sameExtent_ownCopy (ByteStore.base_patch ..) (ByteStore.size_patch ..)).range hunused
        (hcopy.trans hpool) fun mp' hmp' => ?_
      rw [processes_ownCopy] at hmp'
      rcases maps_update_own hd₀ hm₀ hmp' with hold | rfl
      · exact .inl (had_of_maps hold)
      · exact .inr ⟨rfl, rfl⟩
    · obtain ⟨-, rfl⟩ := hstep.eq_of_error hrun
      exact hm
  · obtain ⟨-, rfl⟩ := hstep.eq_of_ok (privatise_run_ownInPlace (by rwa [h.refs_eq]) hc hd)
    have hinherits : Inherits m (m.changed pid (·.update page (own frame))) := by
      refine ⟨rfl, fun mp' hmp' => ?_⟩
      rcases maps_update_own hd hmp hmp' with hold | rfl
      · exact had_of_maps hold
      · exact ⟨mp.copyOnWrite, pid, d, page, hd, by rw [hmp, own, ← hl]⟩
    exact hinherits.housed hm

theorem Consistent.housed_materialise (h : Consistent m) (hv : Represents m v) (hm : Housed m)
    (hmp : m.mapping? page = some mp) {access : Access} {r : Except Fault Word}
    (hstep : Yields (PagedMemory.materialise page mp access) m r m') : Housed m' := by
  rw [materialise_eq] at hstep
  rcases hstep.of_bind with ⟨frame, m₁, hin, hstep⟩ | ⟨e, -, hin⟩
  · have h₁ := h.housed_bringIn hm hmp hin
    split at hstep
    · rcases h.bringIn hv hmp with ⟨-, frame', m₂, hrun, hfollows, hmp₂, -⟩ | ⟨hrun, -⟩
      · obtain ⟨hframe, rfl⟩ := hin.eq_of_ok hrun
        obtain rfl := Except.ok.inj hframe
        obtain ⟨pid, d, hc, hd, hmp₂⟩ := mapping?_some.mp hmp₂
        exact hfollows.consistent.housed_privatise h₁ hc hd hmp₂ rfl hstep
      · cases (hin.eq_of_error hrun).1
    · obtain ⟨-, rfl⟩ := hstep.of_pure
      exact h₁
  · exact h.housed_bringIn hm hmp hin

theorem Consistent.housed_resolve (h : Consistent m) (hv : Represents m v) (hm : Housed m)
    {address : Word} {access : Access} {privilege : Privilege} {r : Except Fault Word}
    (hstep : Yields (PagedMemory.resolve page address access privilege) m r m') : Housed m' := by
  cases hmp : m.mapping? page with
  | none =>
    obtain ⟨counters, hrun⟩ := lookup_unmapped hmp address access
    obtain ⟨-, rfl⟩ := hstep.eq_of_error (bind_error hrun)
    exact hm.with_counters counters
  | some mp =>
    have hstep := hstep.of_run (bind_ok (lookup_run hmp address access)).symm
    split at hstep
    · exact h.housed_materialise hv hm hmp hstep
    · obtain ⟨-, rfl⟩ := hstep.eq_of_error rfl
      exact hm.with_counters _

theorem Consistent.housed_pageOut (h : Consistent m) (hm : Housed m) {r : Except Fault Unit}
    (hstep : Yields (PagedMemory.pageOut page) m r m') : Housed m' := by
  rcases hstep.of_get_bind.of_outcome_bind with ⟨mp, hmp, hstep⟩ | ⟨-, rfl⟩
  case inr => exact hm
  obtain ⟨pid, d, hc, hd, hmp⟩ := mappingOf_ok hmp
  cases hl : mp.location with
  | slot slot =>
    rw [hl] at hstep
    obtain ⟨-, rfl⟩ := hstep.of_pure
    exact hm
  | frame frame =>
    rw [hl] at hstep
    rcases h.evict (hl ▸ mappingsOf_ne_zero hd hmp) with ⟨slot, m₁, hrun, hr⟩ | ⟨-, hrun⟩
    · obtain ⟨-, rfl⟩ := hstep.eq_of_ok hrun
      exact hm.movedOut hr
    · obtain ⟨-, rfl⟩ := hstep.eq_of_error hrun
      exact hm

/-- A physical address is found after all that can change. -/
theorem yields_of_physical {x : Paged Word} {offset : Nat} {r : Except Fault Word}
    (hstep : Yields (x >>= fun frame => physical frame offset) m r m') :
    ∃ r', Yields x m r' m' := by
  rcases hstep.of_bind with ⟨frame, m₁, hx, hphysical⟩ | ⟨e, -, hx⟩
  · obtain ⟨-, rfl⟩ := hphysical.eq_of_ok (physical_run m₁ frame offset)
    exact ⟨_, hx⟩
  · exact ⟨_, hx⟩

theorem Consistent.housed_translateHostWrite (h : Consistent m) (hv : Represents m v)
    (hm : Housed m) {address : Word} {r : Except Fault Word}
    (hstep : Yields (PagedMemory.translateHostWrite address) m r m') : Housed m' := by
  cases hmp : m.mapping? address.page with
  | none =>
    obtain ⟨counters, hrun⟩ := lookup_unmapped hmp address .write
    obtain ⟨-, rfl⟩ := hstep.eq_of_error (bind_error hrun)
    exact hm.with_counters counters
  | some mp =>
    have hrun : (PagedMemory.translateHostWrite address).run m =
        (PagedMemory.materialise address.page mp .write >>= fun frame =>
          physical frame address.pageOffset).run m := by
      rw [PagedMemory.translateHostWrite, bind_ok (lookup_run hmp address .write)]
    obtain ⟨_, hstep⟩ := yields_of_physical (hstep.of_run hrun.symm)
    exact h.housed_materialise hv hm hmp hstep

/-- Every operation keeps the pages in their pools. -/
theorem Consistent.housed_step (h : Consistent m) (hv : Represents m v) (hm : Housed m)
    {op : PagingOperation} {r : Except Fault Answer} (hstep : Yields op.perform m r m') :
    Housed m' := by
  cases op
  all_goals obtain ⟨_, -, hstep⟩ := hstep.of_map
  case beginProcess => exact (beginProcess_inherits hstep).housed hm
  case endProcess => exact (h.endProcess_inherits hstep).housed hm
  case switchProcess => exact (switchProcess_inherits hstep).housed hm
  case forkProcess => exact (forkProcess_inherits hstep).housed hm
  case addPage => exact h.housed_addPage hm hstep
  case removePage => exact (h.removePage_inherits hstep).housed hm
  case removeAll => exact (h.removeAll_inherits hstep).housed hm
  case sharePage => exact (sharePage_inherits hstep).housed hm
  case pageOut => exact h.housed_pageOut hm hstep
  case translate =>
    obtain ⟨_, hstep⟩ := yields_of_physical hstep
    exact h.housed_resolve hv hm hstep
  case translatePage =>
    rcases hstep.of_outcome_bind with ⟨-, -, hstep⟩ | ⟨-, rfl⟩
    · exact h.housed_resolve hv hm hstep
    · exact hm
  case translateHostWrite => exact h.housed_translateHostWrite hv hm hstep

end PagedMachine.PagedMemory

import PagedMachine.Proofs.Runs
import PagedMachine.Proofs.Solvency

/-!
# Frames that get lost

Three things are done with a frame that was taken: a page is brought into it, copied to
it, or zeroed in it. Each of them loses it if the RAM of the call refuses, and nothing
else does. So what is free and what is counted are together always the frames of the
ranges but for one at most for each call that answers that memory is out of bounds.
-/

namespace PagedMachine

namespace PagedMemory

variable {m m' m₀ : PagedMemory} {n : Location → Nat} {pid page frame slot : Word} {d : Directory}
    {mp : Mapping} {kind : PoolKind}

/-! ## Pages that are brought in -/

theorem Solvent.pageIn (h : Solvent m) (hs : m.refs (.slot slot) ≠ 0) (hk : kind ≠ .disk)
    {r : Except Fault Word} (hstep : Yields (PagedMemory.pageIn slot kind) m r m') :
    Accounts m r m' ∧ ∀ frame, r = .ok frame → m'.current = m.current ∧ ∀ pid d page mp,
    m.processes.find? pid = some d → d.find? page = some mp → mp.location = .slot slot →
          ∃ d', m'.processes.find? pid = some d' ∧
            d'.find? page = some { mp with location := .frame frame } := by
  rcases hstep.of_get_bind.of_outcome_bind with ⟨bytes, hread, hrest⟩ | ⟨⟨e, -, rfl⟩, rfl⟩
  case inr => exact ⟨.kept (.refl h), nofun⟩
  rcases hrest.of_bind with ⟨frame, m₁, htake, hrest⟩ | ⟨e, rfl, htake⟩
  case inr =>
    obtain ⟨m₀, hclears, ⟨_, -, rfl⟩ | ⟨_, hr, -⟩⟩ := h.takeFrame hk htake
    · exact ⟨.kept hclears.spends, nofun⟩
    · cases hr
  obtain ⟨m₀, hclears, ⟨_, hr, -⟩ | ⟨_, hr, rfl, hfree⟩⟩ := h.takeFrame hk htake
  · cases hr
  obtain rfl := Except.ok.inj hr
  have h₀ := hclears.spends.solvent
  rcases hrest.of_bind with ⟨_, m₂, hwrite, -⟩ | ⟨e, rfl, hwrite⟩
  case inr => exact ⟨hclears.writeFrame_refused hfree (Disk.length_of_readSlot hread) hwrite, nofun⟩
  obtain ⟨ram, hwrite, -⟩ := yields_onRam hwrite
  -- room was made without moving the page, which is in no frame
  have hslot : m₀.refs (.slot slot) = m.refs (.slot slot) := hclears.refs _ (by simp) hs
  have hs₀ : m₀.refs (.slot slot) ≠ 0 := hslot ▸ hs
  have hrun := pageIn_run hread htake hwrite (Paging.count?_of_refs hs₀) (h₀.ledger.owned _ hs₀)
    (h₀.ledger.isFree_eq_false hs₀)
  obtain ⟨rfl, rfl⟩ := hstep.eq_of_ok hrun
  obtain ⟨hb, hsize⟩ := Ram.extent_of_writeFrame hwrite
  have hmoves : Moves (.slot slot) (.frame frame) m₀ (m₀.movedIn slot frame ram) := by
    refine h₀.moves hs₀ hfree (fun l => ?_) ?_ (sameExtent_movedIn hb hsize) rfl ?_
    · cases l <;> rfl
    · exact (h₀.drops_move hs₀ hfree).frame _ _ _ _ _
    · simp [movedIn, Paging.vacate, Paging.occupy, Paging.setFree]
  refine ⟨.kept (hclears.spends.trans hmoves.spends), fun frame' hr => ?_⟩
  obtain rfl := Except.ok.inj hr
  refine ⟨hmoves.current.trans hclears.current, fun pid d page mp hd hm hl => ?_⟩
  obtain ⟨d₀, hd₀, -, hmapped⟩ := hclears.directories hd
  have hm₀ := hmapped page mp hm (by simp [hl])
  refine ⟨d₀.repoint (.slot slot) (.frame frame), ?_, find?_repoint_self hm₀ hl⟩
  rw [hmoves.processes, Table.find?_map, hd₀]
  rfl

theorem Solvent.bringIn (h : Solvent m) (hm : m.mapping? page = some mp) {r : Except Fault Word}
    (hstep : Yields (PagedMemory.bringIn mp) m r m') : Accounts m r m' ∧ ∀ frame, r = .ok frame →
      ∃ mp', m'.mapping? page = some mp' ∧ mp'.location = .frame frame := by
  obtain ⟨pid, d, hc, hd, hmp⟩ := mapping?_some.mp hm
  have hcounted := h.refs_of_mapping hd hmp
  unfold PagedMemory.bringIn at hstep
  cases hl : mp.location with
  | frame frame =>
    rw [hl] at hstep
    obtain ⟨rfl, rfl⟩ := hstep.of_pure
    exact ⟨.kept (.refl h), fun _ he => ⟨mp, hm, hl.trans (congrArg _ (Except.ok.inj he))⟩⟩
  | slot slot =>
    rw [hl] at hstep hcounted
    obtain ⟨haccounts, hfollows⟩ := h.pageIn hcounted (pool_ne_disk mp.permissions) hstep
    refine ⟨haccounts, fun frame hr => ?_⟩
    obtain ⟨hcurrent, hmapped⟩ := hfollows frame hr
    obtain ⟨d', hd', hm'⟩ := hmapped pid d page mp hd hmp hl
    exact ⟨_, mapping?_some.mpr ⟨pid, d', hcurrent.trans hc, hd', hm'⟩, rfl⟩

/-! ## Private pages -/

theorem Solvent.changed (h : Solvent m) (f : Directory → Directory)
    (hd : m.processes.find? pid = some d) (hmaps : ∀ l, (f d).mappingsOf l = d.mappingsOf l) :
    Spends [] m (m.changed pid f) := by
  refine h.spends (sameExtent_changed m pid f) ((Paging.Drops.refl h.ledger).frame _ _ _ _ _)
    fun l => ?_
  rw [mappingsOf_changed_eq hd hmaps]
  exact h.covers l

theorem Solvent.ownCopy (h : Solvent m) {copy : Word} (hd : m.processes.find? pid = some d)
    (hm : d.find? page = some mp) (hl : mp.location = .frame frame)
    (hshared : 1 < m.refs (.frame frame)) (hfree : m.isFree (.frame copy)) {ram : Ram}
    (hb : ram.base = m.ram.base) (hs : ram.size = m.ram.size) :
    Spends [] m (m.ownCopy pid page frame copy ram) := by
  have hunused := h.ledger.free _ hfree
  have hfc : Location.frame frame ≠ .frame copy := fun e => by rw [e] at hshared; omega
  have hcopied := h.covers (.frame copy)
  rw [hunused] at hcopied
  have hmaps := mappingsOf_ownCopy hd hm hl (Nat.le_zero.mp hcopied) ram
  have hoccupy := Paging.Drops.occupy h.ledger hfree Nat.one_ne_zero
  have hnonzero : (m.occupy (.frame copy) 1).refs (.frame frame) ≠ 0 := by
    rw [Paging.refs_occupy, if_neg hfc]; omega
  have hcount : m.refs (.frame frame) - 1 ≠ 0 := by omega
  have hdrops := hoccupy.trans (Paging.Drops.recount hoccupy.ledger hnonzero hcount)
  refine h.spends (sameExtent_ownCopy hb hs) (hdrops.frame _ _ _ _ _) fun l => ?_
  have hrefs : (m.ownCopy pid page frame copy ram).refs =
      ((m.occupy (.frame copy) 1).recount (.frame frame) (m.refs (.frame frame) - 1)).refs := by
    refine refs_of_toPaging fun l => ?_
    cases l <;> rfl
  have hcovers := h.covers l
  have hframe := h.covers (.frame frame)
  rw [hrefs, Paging.refs_recount, Paging.refs_occupy, hmaps, Function.update_apply,
    Function.update_apply]
  split
  · omega
  · split
    · exact Nat.le_refl 1
    · exact hcovers

theorem Solvent.privatise (h : Solvent m) (hm : m.mapping? page = some mp)
    (hl : mp.location = .frame frame) {r : Except Fault Word}
    (hstep : Yields (PagedMemory.privatise page frame) m r m') : Accounts m r m' := by
  obtain ⟨pid, d, hc, hd, hmp⟩ := mapping?_some.mp hm
  by_cases hshared : 1 < m.refs (.frame frame)
  · obtain ⟨r₀, m₁, htake⟩ :=
      yields_exists (PagedMemory.takeFrame (m.framePool frame) (some frame)) m
    obtain ⟨m₀, hclears, ⟨e, rfl, rfl⟩ | ⟨copy, rfl, rfl, hfree⟩⟩ :=
      h.takeFrame (m.framePool_ne_disk frame) htake
    · have hrun : (PagedMemory.privatise page frame).run m = .error e m₁ := by
        rw [PagedMemory.privatise, get_bind, if_pos hshared, get_bind, bind_error htake]
      obtain ⟨rfl, rfl⟩ := hstep.eq_of_error hrun
      exact .kept hclears.spends
    have h₀ := hclears.spends.solvent
    -- the page is pinned while there is made room for its copy
    have hrefs : m₀.refs (.frame frame) = m.refs (.frame frame) :=
      hclears.refs _ (fun _ he => congrArg some (Location.frame.inj he).symm) (by omega)
    have hframe : m.owns (.frame frame) := h.ledger.owned _ (by omega)
    obtain ⟨r₁, m₂, hcopy⟩ := yields_exists (onRam (Ram.copyFrame frame copy)) (m₀.handOut copy)
    cases r₁ with
    | error e =>
      have hrun : (PagedMemory.privatise page frame).run m = .error e m₂ := by
        rw [PagedMemory.privatise, get_bind, if_pos hshared, get_bind, bind_ok htake,
          bind_error hcopy]
      obtain ⟨rfl, rfl⟩ := hstep.eq_of_error hrun
      refine hclears.accounts hfree hcopy (fun _ _ _ => Ram.extent_of_copyFrame) fun _ _ hx => ?_
      obtain ⟨he, hsource | htarget⟩ := Ram.copyFrame_error hx
      · exact ⟨he, frame, hframe, hsource⟩
      · exact ⟨he, copy, hclears.owns hfree, htarget⟩
    | ok _ =>
      obtain ⟨ram, hcopy, -⟩ := yields_onRam hcopy
      obtain ⟨hb, hs⟩ := Ram.extent_of_copyFrame hcopy
      obtain ⟨d₀, hd₀, -, hmapped⟩ := hclears.directories hd
      have hm₀ :=
        hmapped page mp hmp fun _ he => congrArg some (Location.frame.inj (he.symm.trans hl))
      have hne : frame ≠ copy := fun e => by
        have hunused := h₀.ledger.free _ hfree
        rw [← e] at hunused
        omega
      have hrun :=
        privatise_run_ownCopy page hshared htake hcopy (Paging.count?_of_refs (by omega))
          (hrefs ▸ hshared) hne (hclears.current.trans hc) hd₀
      obtain ⟨rfl, rfl⟩ := hstep.eq_of_ok hrun
      exact .kept (hclears.spends.trans (h₀.ownCopy hd₀ hm₀ hl (hrefs ▸ hshared) hfree hb hs))
  · obtain ⟨rfl, rfl⟩ := hstep.eq_of_ok (privatise_run_ownInPlace hshared hc hd)
    exact .kept (h.changed _ hd (mappingsOf_update_own hmp hl))

/-! ## Accesses and new pages -/

section
variable (h : Solvent m)
include h

theorem Solvent.materialise (hm : m.mapping? page = some mp) {access : Access}
    {r : Except Fault Word} (hstep : Yields (PagedMemory.materialise page mp access) m r m') :
    Accounts m r m' := by
  rw [materialise_eq] at hstep
  rcases hstep.of_bind with ⟨frame, m₁, hin, hstep⟩ | ⟨e, rfl, hin⟩
  · obtain ⟨haccounts, hmapped⟩ := h.bringIn hm hin
    have hspends := haccounts.kept_of_ok
    split at hstep
    · obtain ⟨mp', hm', hl⟩ := hmapped frame rfl
      exact (hspends.solvent.privatise hm' hl hstep).after hspends
    · obtain ⟨rfl, rfl⟩ := hstep.of_pure
      exact .kept hspends
  · exact (h.bringIn hm hin).1

theorem Solvent.resolve {address : Word} {access : Access} {privilege : Privilege}
    {r : Except Fault Word}
    (hstep : Yields (PagedMemory.resolve page address access privilege) m r m') :
    Accounts m r m' := by
  cases hm : m.mapping? page with
  | none =>
    obtain ⟨counters, hrun⟩ := lookup_unmapped hm address access
    obtain ⟨rfl, rfl⟩ := hstep.eq_of_error (bind_error hrun)
    exact .kept ((Spends.refl h).with_counters counters)
  | some mp =>
    have hstep := hstep.of_run (bind_ok (lookup_run hm address access)).symm
    split at hstep
    · exact h.materialise hm hstep
    · obtain ⟨rfl, rfl⟩ := hstep.eq_of_error rfl
      exact .kept ((Spends.refl h).with_counters _)

theorem Solvent.translateHostWrite {address : Word} {r : Except Fault Word}
    (hstep : Yields (PagedMemory.translateHostWrite address) m r m') : Accounts m r m' := by
  cases hm : m.mapping? address.page with
  | none =>
    obtain ⟨counters, hrun⟩ := lookup_unmapped hm address .write
    obtain ⟨rfl, rfl⟩ := hstep.eq_of_error (bind_error hrun)
    exact .kept ((Spends.refl h).with_counters counters)
  | some mp =>
    have hrun : (PagedMemory.translateHostWrite address).run m =
        (PagedMemory.materialise address.page mp .write >>= fun frame =>
          physical frame address.pageOffset).run m := by
      rw [PagedMemory.translateHostWrite, bind_ok (lookup_run hm address .write)]
    exact .of_bind_pure (fun _ _ => h.materialise hm) (fun _ _ => ⟨_, rfl⟩) (hstep.of_run hrun.symm)

theorem Solvent.newPage (hc : m.current = some pid) (hd : m.processes.find? pid = some d)
    (hm : d.find? page = none) {permissions : Permissions} {copyOnWrite : Bool}
    {r : Except Fault Word} (hstep : Yields (newPage page permissions copyOnWrite) m r m') :
    Accounts m r m' := by
  rcases hstep.of_bind with ⟨frame, m₁, htake, hrest⟩ | ⟨e, rfl, htake⟩
  case inr =>
    obtain ⟨m₀, hclears, ⟨_, -, rfl⟩ | ⟨_, hr, -⟩⟩ := h.takeFrame (pool_ne_disk permissions) htake
    · exact .kept hclears.spends
    · cases hr
  obtain ⟨m₀, hclears, ⟨_, hr, -⟩ | ⟨_, hr, rfl, hfree⟩⟩ :=
    h.takeFrame (pool_ne_disk permissions) htake
  · cases hr
  obtain rfl := Except.ok.inj hr
  rcases hrest.of_bind with ⟨_, m₂, hwrite, -⟩ | ⟨e, rfl, hwrite⟩
  case inr => exact hclears.writeFrame_refused hfree length_zeroPage hwrite
  obtain ⟨ram, hwrite, -⟩ := yields_onRam hwrite
  obtain ⟨hb, hs⟩ := Ram.extent_of_writeFrame hwrite
  obtain ⟨d₀, hd₀, hunmapped, -⟩ := hclears.directories hd
  obtain ⟨-, rfl⟩ := hstep.eq_of_ok (newPage_run htake hwrite (hclears.current.trans hc) hd₀)
  have h₀ := hclears.spends.solvent
  have hunused := h₀.covers (.frame frame)
  rw [h₀.ledger.free _ hfree] at hunused
  have hplaced : (Mapping.mk (.frame frame) permissions copyOnWrite).location = .frame frame := rfl
  have hmaps := mappingsOf_added hd₀ (hunmapped page hm) hplaced (Nat.le_zero.mp hunused) ram
  have hdrops := (Paging.Drops.occupy h₀.ledger hfree Nat.one_ne_zero).frame
  refine .kept
    (hclears.spends.trans (h₀.spends (sameExtent_added hb hs) (hdrops _ _ _ _ _) fun l => ?_))
  -- the new frame is counted once and mapped once; all others are as before
  have hrefs : (m₀.added pid page frame ⟨.frame frame, permissions, copyOnWrite⟩ ram).refs =
      (m₀.occupy (.frame frame) 1).refs := by
    refine refs_of_toPaging fun l => ?_
    cases l <;> rfl
  rw [hrefs, Paging.refs_occupy, hmaps, Function.update_apply]
  split
  · exact Nat.le_refl 1
  · exact h₀.covers l

theorem Solvent.addPage {permissions : Permissions} {copyOnWrite : Bool} {r : Except Fault Word}
    (hstep : Yields (PagedMemory.addPage page permissions copyOnWrite) m r m') :
    Accounts m r m' := by
  rcases hstep.of_outcome_bind with ⟨-, -, hrest⟩ | ⟨-, rfl⟩
  case inr => exact .kept (.refl h)
  rcases hrest.of_get_bind.of_outcome_bind with ⟨d, hcur, hrest⟩ | ⟨-, rfl⟩
  case inr => exact .kept (.refl h)
  obtain ⟨pid, hc, hd⟩ := currentDirectory_ok.mp hcur
  cases hmapped : d.contains page with
  | true =>
    rw [hmapped, if_pos rfl] at hrest
    obtain ⟨-, rfl⟩ := hrest.eq_of_error rfl
    exact .kept (.refl h)
  | false =>
    rw [hmapped, if_neg Bool.false_ne_true] at hrest
    exact h.newPage hc hd (Table.contains_eq_false.mp hmapped) hrest

theorem Solvent.pageOut {r : Except Fault Unit} (hstep : Yields (PagedMemory.pageOut page) m r m') :
    Spends [] m m' := by
  rcases hstep.of_get_bind.of_outcome_bind with ⟨mp, -, hstep⟩ | ⟨-, rfl⟩
  case inr => exact .refl h
  cases hl : mp.location with
  | slot slot =>
    rw [hl] at hstep
    obtain ⟨-, rfl⟩ := hstep.of_pure
    exact .refl h
  | frame frame =>
    rw [hl] at hstep
    rcases h.evict hstep with rfl | ⟨slot, hmoves, -⟩
    · exact .refl h
    · exact hmoves.spends

end

/-! ## Every call -/

/-- No frame was lost since then, and this is how often each location is counted. -/
structure Tallies (p q : Paging) (n : Location → Nat) : Prop where
  drops : Paging.Drops [] p q
  refs : q.refs = n

theorem bookkeeping_tallies (p : Paging) : Bookkeeping (Tallies p) where
  counted h hl := by
    obtain ⟨hdrops, rfl⟩ := h
    exact Paging.count?_of_refs hl
  owned h hl := by
    obtain ⟨hdrops, rfl⟩ := h
    exact hdrops.ledger.owned _ hl
  taken h hl := by
    obtain ⟨hdrops, rfl⟩ := h
    exact hdrops.ledger.isFree_eq_false hl
  vacate h hl := by
    obtain ⟨hdrops, rfl⟩ := h
    refine ⟨hdrops.trans (.vacate hdrops.ledger hl), funext fun k => ?_⟩
    rw [Paging.refs_vacate, Function.update_apply]
  recount h hl hc := by
    obtain ⟨hdrops, rfl⟩ := h
    refine ⟨hdrops.trans (.recount hdrops.ledger hl hc), funext fun k => ?_⟩
    rw [Paging.refs_recount, Function.update_apply]
  frame h _ _ _ _ _ := by
    obtain ⟨hdrops, rfl⟩ := h
    refine ⟨hdrops.frame _ _ _ _ _, funext fun k => ?_⟩
    cases k <;> rfl

theorem Solvent.tallies (h : Solvent m) : Covers (Tallies m.toPaging) m.refs m :=
  ⟨⟨.refl h.ledger, rfl⟩, h.covers⟩

theorem Covers.spends (hcovers : Covers (Tallies m.toPaging) n m') (h : Solvent m)
    (hextent : SameExtent m m') : Spends [] m m' := by
  obtain ⟨⟨hdrops, rfl⟩, hcovers⟩ := hcovers
  exact h.spends hextent hdrops hcovers

end PagedMemory

open PagedMemory

def PagingOperation.takesFrame : PagingOperation → Bool
  | addPage .. | translate .. | translatePage .. | translateHostWrite .. => true
  | _ => false

namespace PagedMemory

variable {m m' : PagedMemory}

theorem Solvent.step (h : Solvent m) {op : PagingOperation} {r : Except Fault Answer}
    (hstep : op.Step m r m') (hcounts : WithinCounts m') :
    Accounts m r m' ∧ (op.takesFrame = false → Spends [] m m') := by
  have hkept : Spends [] m m' → Accounts m r m' ∧ (op.takesFrame = false → Spends [] m m') :=
    fun hspends => ⟨.kept hspends, fun _ => hspends⟩
  have hB := bookkeeping_tallies m.toPaging
  have hcovers := h.tallies
  cases op
  all_goals obtain ⟨r', rfl, hrun⟩ := hstep.of_map
  case beginProcess =>
    obtain ⟨rfl, hcovers⟩ := hB.beginProcess hcovers hrun
    exact hkept (hcovers.spends h ⟨rfl, rfl, rfl, rfl, rfl⟩)
  case endProcess =>
    rcases hB.endProcess hcovers hrun with rfl | ⟨n, hsame, hcovers⟩
    · exact hkept (.refl h)
    · exact hkept (hcovers.spends h ((sameExtent_withoutProcess m _).trans hsame.extent))
  case switchProcess =>
    obtain ⟨rfl | rfl, hcovers⟩ := hB.switchProcess hcovers hrun
    · exact hkept (.refl h)
    · exact hkept (hcovers.spends h ⟨rfl, rfl, rfl, rfl, rfl⟩)
  case forkProcess =>
    rcases hB.forkProcess hcovers hrun with rfl | ⟨pid, d, m₂, n, -, -, hsame, rfl, hcovers⟩
    · exact hkept (.refl h)
    · have hextent :=
        ((sameExtent_changed m pid _).trans hsame.extent).trans
          (sameExtent_numbered m₂ d.protectWritable)
      exact hkept ((hcovers hcounts).spends h hextent)
  case addPage => exact ⟨(h.addPage hrun).map, nofun⟩
  case removePage =>
    rcases hB.removePage hcovers hrun with rfl | ⟨pid, d, n, -, hsame, hcovers⟩
    · exact hkept (.refl h)
    · exact hkept (hcovers.spends h ((sameExtent_changed m pid _).trans hsame.extent))
  case removeAll =>
    rcases hB.removeAll hcovers hrun with rfl | ⟨pid, d, n, -, hsame, hcovers⟩
    · exact hkept (.refl h)
    · exact hkept (hcovers.spends h ((sameExtent_changed m pid _).trans hsame.extent))
  case sharePage =>
    rcases hB.sharePage hcovers hrun with
      rfl | ⟨cur, d, mp, d', m₂, n, -, -, -, -, hsame, -, rfl, hcovers⟩
    · exact hkept (.refl h)
    · have hextent := (sameExtent_changed m _ _).trans hsame.extent
      exact hkept ((hcovers hcounts).spends h (hextent.trans (sameExtent_changed m₂ cur _)))
  case pageOut => exact hkept (h.pageOut hrun)
  case translate =>
    exact ⟨Accounts.map (.of_bind_pure (fun _ _ => h.resolve) (fun _ _ => ⟨_, rfl⟩) hrun), nofun⟩
  case translatePage =>
    rcases hrun.of_outcome_bind with ⟨-, -, hresolve⟩ | ⟨-, rfl⟩
    · exact ⟨(h.resolve hresolve).map, nofun⟩
    · exact hkept (.refl h)
  case translateHostWrite => exact ⟨(h.translateHostWrite hrun).map, nofun⟩

theorem Solvent.with_ram (h : Solvent m) (ram : Ram) : Solvent { m with ram := ram } :=
  ⟨h.apart, h.slots, h.base, h.ledger, h.covers⟩

theorem solvent_unmapped {ram : Ram} {disk : Disk} {ranges : PageRanges}
    (hfits : Paging.Fits ram ranges) (hdisk : disk.base = 0) :
    Solvent ⟨Paging.unmapped disk ranges, ram⟩ := by
  have hbooks := Paging.books_unmapped disk ranges
  refine ⟨fun frame hu hk => ?_, fun slot hs =>
    ?_, hdisk, ⟨fun l => ?_, fun l _ => ?_, fun l hl => ?_, hbooks.pooled⟩,
    fun l => Nat.zero_le _⟩
  · obtain ⟨hu₁, hu₂⟩ := owns_iff.mp hu
    obtain ⟨hk₁, hk₂⟩ := owns_iff.mp hk
    exact hfits.apart ⟨UInt32.le_iff_toNat_le.mpr (Nat.le_trans hu₁ hk₂),
      UInt32.le_iff_toNat_le.mpr (Nat.le_trans hk₁ hu₂)⟩
  · exact slot_lt_unmapped hs
  · cases l <;> nofun
  · cases l <;> rfl
  · cases l <;> exact absurd rfl hl

/-! ## Runs of calls -/

end PagedMemory

structure Call where
  operation : PagingOperation
  ram : Ram

def Call.Step (c : Call) (m : PagedMemory) (r : Except Fault Answer) (m' : PagedMemory) : Prop :=
  c.operation.Step { m with ram := c.ram } r m'

def Event.outOfBounds {σ ω : Type} (e : Event σ ω Answer) : Bool :=
  match e.answer with
  | .error (.memoryOutOfBounds _) => true
  | _ => false

def PageRanges.frames (ranges : PageRanges) : Nat :=
  (ranges.userHigh.toNat + 1 - ranges.userLow.toNat) +
    (ranges.kernelHigh.toNat + 1 - ranges.kernelLow.toNat)

namespace PagedMemory

variable {m m' : PagedMemory} {es : List (Event PagedMemory Call Answer)}

/-- No frame is lost; or one is that was taken by the call, whose RAM does not hold all the frames,
and this is the answer. -/
def Balanced (m : PagedMemory) (e : Event PagedMemory Call Answer) : Prop :=
  (∀ f, e.state.Lost f ↔ m.Lost f) ∧ e.state.accounted = m.accounted ∨
    ∃ frame out, e.operation.operation.takesFrame ∧ e.outOfBounds ∧ m.owns (.frame out) ∧
      ¬ e.operation.ram.Holds out ∧
      ¬ m.Lost frame ∧ (∀ f, e.state.Lost f ↔ m.Lost f ∨ f = frame) ∧
        e.state.accounted + 1 = m.accounted

theorem Spends.balanced {e : Event PagedMemory Call Answer} {ram : Ram}
    (h : Spends [] { m with ram := ram } e.state) :
    Balanced m e := by
  refine .inl ⟨fun f => ?_, h.drops.accounted⟩
  rw [h.drops.lost]
  simp

theorem Solvent.call (h : Solvent m) {c : Call} {r : Except Fault Answer} (hstep : c.Step m r m')
    (hcounts : WithinCounts m') : Balanced m ⟨c, r, m'⟩ ∧ Solvent m' ∧ ∃ gone,
    Paging.Drops gone m.toPaging m'.toPaging ∧ gone.length =
    if (⟨c, r, m'⟩ : Event PagedMemory Call Answer).outOfBounds ∧ gone ≠ [] then 1 else 0 := by
  obtain ⟨haccounts, htakes⟩ := (h.with_ram c.ram).step hstep hcounts
  cases haccounts with
  | kept hspends => exact ⟨hspends.balanced, hspends.solvent, [], hspends.drops, by simp⟩
  | lost frame out address hspends howns hout hr =>
    have hlost : (⟨c, r, m'⟩ : Event PagedMemory Call Answer).outOfBounds := by rw [hr]; rfl
    have hdrops := hspends.drops
    refine ⟨?_, hspends.solvent, [frame], hdrops, by simp [hlost]⟩
    cases htake : c.operation.takesFrame with
    | false => exact (htakes htake).balanced
    | true =>
      refine .inr ⟨frame, out, htake, hlost, howns, hout, hdrops.fresh frame List.mem_cons_self,
        fun f => ?_, hdrops.accounted⟩
      rw [hdrops.lost, List.mem_singleton]

theorem Solvent.calls (hrun : Run Call.Step m es m') : Solvent m →
    (∀ e ∈ es, WithinCounts e.state) → Along Balanced m es ∧ ∃ gone,
    Paging.Drops gone m.toPaging m'.toPaging ∧ gone.length ≤ es.countP Event.outOfBounds := by
  induction hrun with
  | done m => exact fun h _ => ⟨trivial, [], .refl h.ledger, Nat.zero_le _⟩
  | @next m m₁ _ c r rest hstep _ ih =>
    intro h hcounts
    obtain ⟨hbalanced, h₁, gone, hdrops, hlength⟩ := h.call hstep (hcounts _ List.mem_cons_self)
    obtain ⟨halong, gone', hdrops', hlength'⟩ :=
      ih h₁ fun e he => hcounts e (List.mem_cons_of_mem _ he)
    refine ⟨⟨hbalanced, halong⟩, gone ++ gone', hdrops.trans hdrops', ?_⟩
    rw [List.length_append, List.countP_cons, hlength]
    split <;> split <;> simp_all <;> omega

/-- Whatever RAM each call is handed: after a run the frames that are free or counted are all but
the lost ones, which are not more than the calls that were told that memory is out of bounds. Each
call loses at most one, and none if its RAM holds all frames. -/
theorem frames_lost_out_of_bounds {ram : Ram} {disk : Disk} {ranges : PageRanges} {p : Paging}
    (hp : Paging.ofDevices ram disk ranges = .ok p) (hdisk : disk.base = 0)
    (hrun : Run Call.Step ⟨p, ram⟩ es m) (hcounts : ∀ e ∈ es, WithinCounts e.state) :
    Along Balanced ⟨p, ram⟩ es ∧ ∃ lost :
    List Word, lost.Nodup ∧ (∀ frame, frame ∈ lost ↔ m.Lost frame) ∧
        lost.length ≤ es.countP Event.outOfBounds ∧ m.accounted + lost.length = ranges.frames := by
  obtain ⟨hfits, rfl⟩ := Paging.ofDevices_ok hp
  obtain ⟨halong, gone, hdrops, hlength⟩ :=
    Solvent.calls hrun (solvent_unmapped hfits hdisk) hcounts
  refine ⟨halong, gone, hdrops.nodup, fun frame => ?_, hlength, hdrops.accounted.trans ?_⟩
  · rw [hdrops.lost]
    exact ⟨.inr, fun h => h.resolve_left (Paging.not_lost_unmapped disk ranges frame)⟩
  · exact Paging.accounted_unmapped disk ranges

end PagedMemory

/-! ## A RAM without frames

A new page is asked for, with a RAM that is too small for any.
-/

namespace EmptyRam

open PagedMemory

def ram : Ram := .zeroed 0x10000000 0

theorem span_ram :
    ram.span (Ram.frameAddress ram 0) zeroPage.length = .error (.memoryOutOfBounds 0x10000000) := by
  rw [length_zeroPage]
  rfl

section
variable (disk : Disk) (before : Ram)

def refused : PagedMemory := { (TwoReaders.begun disk before).handOut 0 with ram := ram }

def events : List (Event PagedMemory Call Answer) :=
  [⟨⟨.beginProcess, before⟩, .ok (.process 1), TwoReaders.begun disk before⟩,
    ⟨⟨.addPage 1 .readWrite false, ram⟩, .error (.memoryOutOfBounds 0x10000000),
      refused disk before⟩]

theorem step_addPage : (PagingOperation.addPage 1 .readWrite false).Step
    { TwoReaders.begun disk before with ram := ram }
    (.error (.memoryOutOfBounds 0x10000000)) (refused disk before) := by
  have htake : (takeFrame Permissions.readWrite.pool none).run
      { TwoReaders.begun disk before with ram := ram } =
      .ok 0 (refused disk before) := rfl
  have hwrite :
      (Ram.writeFrame 0 zeroPage).run ram = .error (.memoryOutOfBounds 0x10000000) ram := by
    rw [Ram.writeFrame, get_bind, ByteStore.writeBytes_run_error span_ram]
  have hfill : (onRam (Ram.writeFrame 0 zeroPage)).run (refused disk before) =
      .error (.memoryOutOfBounds 0x10000000) (refused disk before) := focus_error hwrite
  have hadd : (addPage 1 .readWrite false).run { TwoReaders.begun disk before with ram := ram } =
      .error (.memoryOutOfBounds 0x10000000) (refused disk before) :=
    (addPage_run (d := .empty) rfl rfl rfl).trans ((bind_ok htake).trans (bind_error hfill))
  exact map_error hadd

theorem run :
    Run Call.Step (TwoReaders.start disk before) (events disk before) (refused disk before) :=
  .next (TwoReaders.step_begin disk before) (.next (step_addPage disk before) (.done _))

theorem withinCounts : ∀ e ∈ events disk before, WithinCounts e.state := by
  intro e he l
  simp only [events, List.mem_cons, List.not_mem_nil, or_false] at he
  rcases he with rfl | rfl
  · exact Nat.zero_le _
  · exact Nat.zero_le _

theorem lost_refused : (refused disk before).Lost 0 := ⟨rfl, rfl, rfl⟩

end

/-- Of the eight frames the first is lost, and no other. -/
theorem first_frame_lost : ∃ lost : List Word, (0 : Word) ∈ lost ∧ lost.length ≤ 1 ∧
    (refused TwoReaders.disk TwoReaders.ram).accounted + lost.length = 8 := by
  have hp := TwoReaders.ofDevices rfl TwoReaders.size_ram TwoReaders.disk
  have hrun := run TwoReaders.disk TwoReaders.ram
  have hcounts := withinCounts TwoReaders.disk TwoReaders.ram
  obtain ⟨-, lost, -, hlost, hlength, hsum⟩ := frames_lost_out_of_bounds hp rfl hrun hcounts
  exact ⟨lost, (hlost 0).mpr (lost_refused TwoReaders.disk TwoReaders.ram), hlength, hsum⟩

/-- It is not so that every frame is free or counted after every call. -/
theorem not_free_or_counted : ¬ ∀ (ram : Ram) (disk : Disk) (ranges : PageRanges) (p : Paging)
    (es : List (Event PagedMemory Call Answer)) (m : PagedMemory),
    Paging.ofDevices ram disk ranges = .ok p → Run Call.Step ⟨p, ram⟩ es m →
    ∀ frame, m.owns (.frame frame) → m.isFree (.frame frame) ∨ m.refs (.frame frame) ≠ 0 := by
  intro hall
  obtain ⟨howns, hfree, hrefs⟩ := lost_refused TwoReaders.disk TwoReaders.ram
  have hrun := run TwoReaders.disk TwoReaders.ram
  rcases hall _ _ _ _ _ _
    (TwoReaders.ofDevices rfl TwoReaders.size_ram TwoReaders.disk) hrun 0 howns with h | h
  · cases h.symm.trans hfree
  · exact h hrefs

end EmptyRam

end PagedMachine

import PagedMachine.Proofs.Accounting
import PagedMachine.Proofs.ArrivalOrder
import PagedMachine.Proofs.Guards
import PagedMachine.Proofs.PageCrossings

/-!
# Turnover of frames

Over any run, a pool that has to give a frame up gives up the one that has been
resident longest, and no other leaves unless its page is moved out on request or is
mapped no more. An access to a page that is in a frame, and needs no copy, moves
nothing, and neither do forks, shares and switches; frames that stay keep their order.
-/

namespace PagedMachine

/-- The page, if it is mapped, is in a frame, and a store to it needs no copy. -/
def PagedMemory.Settled (m : PagedMemory) (page : Word) (access : Access) : Prop :=
  ∀ mp, m.mapping? page = some mp → ∃ frame, mp.location = .frame frame ∧
    (access = .write → mp.copyOnWrite = true → m.refs (.frame frame) ≤ 1)

namespace PagingOperation

def Settled (m : PagedMemory) : PagingOperation → Prop
  | translate address access _ => m.Settled address.page access
  | translatePage page access _ => m.Settled page access
  | translateHostWrite address => m.Settled address.page .write
  | _ => False

def onlyMaps : PagingOperation → Bool
  | beginProcess | switchProcess _ | forkProcess | sharePage .. => true
  | _ => false

end PagingOperation

/-! ## Settled pages -/

def Same (c c' : Chronicle) : Prop :=
  c'.history = c.history ∧ c'.memory.resident = c.memory.resident

theorem ofQueue_same (c : Chronicle) (history : List Incident) : PagedMemory.OfQueue fun m =>
    Same c ⟨m, history⟩ where
  other h hqueue _ := ⟨h.1, hqueue.trans h.2⟩

namespace Narrated

variable {c c' : Chronicle} {page : Word} {access : Access} {r : Except Fault Word}

theorem same_materialise {mp : Mapping} (hs : c.memory.Settled page access)
    (hm : c.memory.mapping? page = some mp) (hstep : Yields (materialise page mp access) c r c') :
    Same c c' := by
  obtain ⟨frame, hl, hone⟩ := hs mp hm
  have hframe : bringIn mp = pure frame := by
    unfold bringIn
    rw [hl]
  rw [materialise, hframe, pure_bind] at hstep
  split at hstep
  · rename_i hstore
    have hstep := hstep.of_get_bind
    dsimp only at hstep
    rw [if_neg (Nat.not_lt.mpr (hone hstore.1 hstore.2)), pure_bind] at hstep
    refine Keeps.bind ?_ (fun _ => keeps_pure _) c r c' ⟨rfl, rfl⟩ hstep
    exact keeps_silently fun history => (ofQueue_same c history).updateCurrent _
  · exact hstep.of_pure.2 ▸ ⟨rfl, rfl⟩

theorem same_resolve {address : Word} {privilege : Privilege} (hs : c.memory.Settled page access)
    (hstep : Yields (resolve page address access privilege) c r c') : Same c c' := by
  refine of_lookup_bind (ofQueue_same c) ⟨rfl, rfl⟩ (fun mp hm hrest => ?_) hstep
  split at hrest
  · exact same_materialise hs hm hrest
  · refine Keeps.bind ?_ (fun _ => keeps_throw _) c r c' ⟨rfl, rfl⟩ hrest
    exact keeps_silently fun history => (ofQueue_same c history).tally fun _ => rfl

end Narrated

/-! ## Steps -/

namespace PagingOperation

open PagedMemory Narrated

variable {op : PagingOperation} {c c' : Chronicle} {r : Except Fault Answer}

theorem Told.same_of_settled (hs : op.Settled c.memory) (hstep : op.Told c r c') : Same c c' := by
  cases op with
  | translate address access privilege =>
    obtain ⟨r₁, -, htranslate⟩ := Yields.of_map hstep
    exact of_physical_bind (same_resolve hs) htranslate
  | translatePage page access privilege =>
    obtain ⟨r₁, -, htranslate⟩ := Yields.of_map hstep
    rcases Yields.of_outcome_bind htranslate with ⟨_, -, hresolve⟩ | ⟨-, rfl⟩
    · exact same_resolve hs hresolve
    · exact ⟨rfl, rfl⟩
  | translateHostWrite address =>
    obtain ⟨r₁, -, htranslate⟩ := Yields.of_map hstep
    exact of_lookup_bind (ofQueue_same c) ⟨rfl, rfl⟩
      (fun mp hm hrest => of_physical_bind (same_materialise hs hm) hrest) htranslate
  | _ => cases hs

theorem Told.departures (h : op.needsFrame = false) (hstep : op.Told c r c') :
    c'.history = c.history ∧ c'.memory.resident.Sublist c.memory.resident := by
  rw [Told, narrated_eq_silently h] at hstep
  obtain ⟨m, hm, rfl⟩ := yields_silently hstep
  exact ⟨rfl, ((ofRemaining_sublist _ _).perform h _ r m ⟨List.Sublist.refl _, rfl⟩ hm).1⟩

theorem Told.same_of_onlyMaps (h : op.onlyMaps = true) (hstep : op.Told c r c') : Same c c' := by
  have hsame := ofQueue_same c
  cases op with
  | beginProcess =>
    exact keeps_silently (fun history => (hsame history).beginProcess.map _) c r c' ⟨rfl, rfl⟩ hstep
  | switchProcess pid =>
    exact keeps_silently (fun history => ((hsame history).switchProcess pid).map _) c r c'
      ⟨rfl, rfl⟩ hstep
  | forkProcess =>
    exact keeps_silently (fun history => (hsame history).forkProcess.map _) c r c' ⟨rfl, rfl⟩ hstep
  | sharePage pid source target cow =>
    exact keeps_silently (fun history =>
      ((hsame history).sharePage pid source target cow).map _) c r c' ⟨rfl, rfl⟩ hstep
  | _ => cases h

end PagingOperation

/-! ## Frames that leave -/

def GivenUpSince (c c' : Chronicle) (frame : Word) : Prop :=
  ∃ news, c'.history = news ++ c.history ∧ ∃ before after pool copied,
    .eviction before after pool copied frame ∈ news

/-- It is the page of this frame that the operation moves to the disk. -/
def PagingOperation.MovesOut (m : PagedMemory) (frame : Word) (op : PagingOperation) : Prop :=
  ∃ page mp, op = .pageOut page ∧ m.mapping? page = some mp ∧ mp.location = .frame frame

def Forsaken (frame : Word) (m m' : PagedMemory) : Prop :=
  ∀ pid page mp, m.mappingIn? pid page = some mp → mp.location = .frame frame →
    m'.mappingIn? pid page = none

theorem Leads.givenUp {frame : Word} {queue : List Word} {earlier : List Incident} :
    ∀ {news : List Incident} {queue' : List Word}, Leads queue news queue' →
      InTurn (news ++ earlier) → frame ∈ queue → frame ∉ queue' → ∃ before after pool copied,
      .eviction before after pool copied frame ∈ news := by
  intro news
  induction news with
  | nil =>
    intro queue' hleads _ hin hout
    exact absurd (hleads ▸ hin) hout
  | cons i news ih =>
    rintro _ ⟨rfl, hleads⟩ ⟨hturn, hturns⟩ hin hout
    by_cases hbefore : frame ∈ i.before.resident
    · -- it was there before the incident and is not after it
      cases i with
      | arrival before after g =>
        have hqueued : after.resident = before.resident ++ [g] := hturn.queued
        exact absurd (hqueued ▸ List.mem_append_left [g] hbefore) hout
      | eviction before after pool copied g =>
        have hleft : after.resident = before.resident.filter (· != g) := hturn.left
        have hg : frame = g := by
          by_contra hne
          exact hout (hleft ▸ List.mem_filter.mpr ⟨hbefore, bne_iff_ne.mpr hne⟩)
        subst hg
        exact ⟨before, after, pool, copied, List.mem_cons_self⟩
    · obtain ⟨before, after, pool, copied, hi⟩ := ih hleads hturns hin hbefore
      exact ⟨before, after, pool, copied, List.mem_cons_of_mem _ hi⟩

namespace PagedMemory

variable {m m' : PagedMemory} {frame : Word}

theorem Consistent.forsaken (h' : Consistent m') (hfewer : Fewer m m')
    (hout : frame ∉ m'.resident) : Forsaken frame m m' := by
  intro pid page mp hm hl
  cases hm' : m'.mappingIn? pid page with
  | none => rfl
  | some mp' =>
    obtain rfl : mp = mp' := Option.some.inj (hm.symm.trans (hfewer pid page mp' hm'))
    obtain ⟨d, hd, hmp⟩ := mappingIn?_some.mp hm'
    exact absurd ((h'.books.queued frame).mpr (hl ▸ mappingsOf_ne_zero hd hmp)) hout

theorem Consistent.movesOut (h : Consistent m) {page : Word} {r : Except Fault Unit}
    (hstep : Yields (PagedMemory.pageOut page) m r m') (hin : frame ∈ m.resident)
    (hout : frame ∉ m'.resident) : (PagingOperation.pageOut page).MovesOut m frame := by
  rcases hstep.of_get_bind.of_outcome_bind with ⟨mp, hmp, hstep⟩ | ⟨-, rfl⟩
  case inr => exact absurd hin hout
  obtain ⟨pid, d, hc, hd, hm⟩ := mappingOf_ok hmp
  cases hl : mp.location with
  | slot slot =>
    rw [hl] at hstep
    exact absurd (hstep.of_pure.2 ▸ hin) hout
  | frame out =>
    rw [hl] at hstep
    rcases h.evict_leaves (hl ▸ mappingsOf_ne_zero hd hm) hstep with ⟨-, -, rfl⟩ | ⟨-, hqueue, -⟩
    · exact absurd hin hout
    · have hframe : frame = out := by
        by_contra hne
        exact hout (hqueue ▸ List.mem_filter.mpr ⟨hin, bne_iff_ne.mpr hne⟩)
      exact ⟨page, mp, rfl, mapping?_some.mpr ⟨pid, d, hc, hd, hm⟩, hframe ▸ hl⟩

end PagedMemory

open PagedMemory in
/-- A frame leaves for the sake of another one, or on request, or with its last mapping. -/
theorem PagingOperation.Told.left {op : PagingOperation} {c c' : Chronicle}
    {r : Except Fault Answer} {frame : Word} (hneeds : op.needsFrame = false)
    (hstep : op.Told c r c') (h : Consistent c.memory) (h' : Consistent c'.memory)
    (hin : frame ∈ c.memory.resident) (hout : frame ∉ c'.memory.resident) :
    op.MovesOut c.memory frame ∨ Forsaken frame c.memory c'.memory := by
  have hreal := op.tells c r c' hstep
  cases op with
  | endProcess pid =>
    obtain ⟨r₁, -, hend⟩ := hreal.of_map
    exact .inr (h'.forsaken (h.covered.endProcess hend).2 hout)
  | removePage page =>
    obtain ⟨r₁, -, hremove⟩ := hreal.of_map
    exact .inr (h'.forsaken (h.covered.removePage hremove).2 hout)
  | removeAll =>
    obtain ⟨r₁, -, hremove⟩ := hreal.of_map
    exact .inr (h'.forsaken (h.covered.removeAll hremove).2 hout)
  | pageOut page =>
    obtain ⟨r₁, -, hmove⟩ := hreal.of_map
    exact .inl (h.movesOut hmove hin hout)
  | beginProcess | switchProcess | forkProcess | sharePage =>
    have hsame := hstep.same_of_onlyMaps rfl
    exact absurd (hsame.2 ▸ hin) hout
  | addPage | translate | translatePage | translateHostWrite => cases hneeds

/-! ## Runs -/

structure Turnover (c : Chronicle) (e : Event Chronicle PagingOperation Answer) : Prop where
  /-- The queue holds the counted frames, in the order in which they last became resident. -/
  counted : ∀ frame, frame ∈ e.state.memory.resident ↔ e.state.memory.frameRefs.contains frame
  order : InOrder e.state.history e.state.memory.resident
  since : c.history <:+ e.state.history
  /-- Frames that stay, and have not left and come back, keep their order. -/
  kept : ∀ f g, f ∈ c.memory.resident → g ∈ c.memory.resident → f ∈ e.state.memory.resident →
    g ∈ e.state.memory.resident → stamp e.state.history f = stamp c.history f →
    stamp e.state.history g = stamp c.history g →
    ([f, g].Sublist e.state.memory.resident ↔ [f, g].Sublist c.memory.resident)
  settled : e.operation.Settled c.memory → Same c e.state
  onlyMaps : e.operation.onlyMaps = true → Same c e.state
  departures : e.operation.needsFrame = false →
    e.state.history = c.history ∧ e.state.memory.resident.Sublist c.memory.resident
  /-- While a frame is needed, none comes or goes without an incident. -/
  noted : e.operation.needsFrame = true →
    ∃ news, e.state.history = news ++ c.history ∧
      Leads c.memory.resident news e.state.memory.resident
  /-- A page that stays mapped leaves its frame only if that is given up, or on request. -/
  left : ∀ frame ∈ c.memory.resident, frame ∉ e.state.memory.resident →
    GivenUpSince c e.state frame ∨ e.operation.MovesOut c.memory frame ∨
    Forsaken frame c.memory e.state.memory

namespace PagedMemory

open PagingOperation in
theorem Consistent.turnover {past : List Incident} {c c' : Chronicle} {op : PagingOperation}
    {r : Except Fault Answer} {v : Virtual.Memory} (h : Consistent c.memory)
    (hv : Represents c.memory v) (h' : Consistent c'.memory)
    (hc : Orderly past c) (hstep : op.Told c r c') : Turnover c ⟨op, r, c'⟩ := by
  have hc' : Orderly c.history c' := hc.step h hv hstep
  refine ⟨h'.exactBooks.queue, hc'.order, hc'.since, fun f g hf hg hf' hg' hsf hsg => ?_,
    fun hs => hstep.same_of_settled hs, fun hs => hstep.same_of_onlyMaps hs, fun hs =>
      hstep.departures hs,
    fun hneeds => (hc.noted.step h hv hneeds hstep).noted, fun frame hin hout => ?_⟩
  · rw [hc'.order.sublist_iff hf' hg', hc.order.sublist_iff hf hg, hsf, hsg]
  · cases hneeds : op.needsFrame with
    | true =>
      obtain ⟨news, hnews, hleads⟩ := (hc.noted.step h hv hneeds hstep).noted
      exact .inl ⟨news, hnews, hleads.givenUp (hnews ▸ hc'.turns) hin hout⟩
    | false => exact .inr (hstep.left hneeds h h' hin hout)

/-- Every run of paging operations has its narration, in which frames come and go in turn: a pool
gives a frame up only when it has none free, and then the one that has been resident longest, whose
page goes to the disk. Every such eviction is counted, and a page that stays mapped leaves its frame
in no other way, unless it is asked for. -/
theorem first_in_first_out {ram : Ram} {disk : Disk} {ranges : PageRanges} {p : Paging}
    {m : PagedMemory} {es : List (Event PagedMemory PagingOperation Answer)}
    (hp : Paging.ofDevices ram disk ranges = .ok p)
    (hdisk : disk.base = 0) (hram : ram.base.toNat + ram.size ≤ 2 ^ 32)
    (hrun : Run PagingOperation.Step ⟨p, ram⟩ es m) (hpids : creations es < 2 ^ 32 - 1)
    (hcounts : ∀ e ∈ es, WithinCounts e.state) :
    ∃ told history, Run PagingOperation.Told ⟨⟨p, ram⟩, []⟩ told ⟨m, history⟩ ∧
      told.map Event.untold = es ∧ InTurn history ∧
      m.counters.evictions.toNat = min (evictions history) (2 ^ 64 - 1) ∧
      Along Turnover ⟨⟨p, ram⟩, []⟩ told := by
  obtain ⟨hfits, rfl⟩ := Paging.ofDevices_ok hp
  have hstart : Consistent ⟨Paging.unmapped disk ranges, ram⟩ :=
    consistent_unmapped hfits hram hdisk
  have hrepresents := represents_unmapped disk ranges ram
  have horderly : Orderly [] ⟨⟨Paging.unmapped disk ranges, ram⟩, []⟩ :=
    ⟨List.suffix_refl _, ⟨fun _ hf => absurd hf List.not_mem_nil, .nil⟩, trivial, rfl⟩
  obtain ⟨told, history, htold, rfl⟩ := hrun.told []
  rw [creations_untold] at hpids
  have hbudget : (Paging.unmapped disk ranges).nextPid.toNat + creations told < 2 ^ 32 := by
    change 1 + creations told < 2 ^ 32
    omega
  have hwithin : ∀ e ∈ told, WithinCounts e.state.memory :=
    fun e he => hcounts _ (List.mem_map_of_mem he)
  let I := fun c : Chronicle => Consistent c.memory ∧ (∃ v, Represents c.memory v) ∧ Orderly [] c
  have hstep : ∀ op c r c', I c → op.Told c r c' → WithinCounts c'.memory →
      c.memory.nextPid.toNat + created r < 2 ^ 32 →
      I c' ∧ c'.memory.nextPid.toNat = c.memory.nextPid.toNat + created r ∧
        Turnover c ⟨op, r, c'⟩ := by
    rintro op c r c' ⟨h, ⟨v, hv⟩, hc⟩ hstep hwithin hpid
    obtain ⟨v', -, hfollows, hnumber, -⟩ := h.step hv (op.tells c r c' hstep) hwithin hpid
    have hc' := hc.step h hv hstep
    exact ⟨⟨hfollows.consistent, ⟨v', hfollows.represents⟩,
      ⟨List.nil_suffix, hc'.order, hc'.turns, hc'.tallied⟩⟩,
      hnumber, h.turnover hv hfollows.consistent hc hstep⟩
  have hinit : I ⟨⟨Paging.unmapped disk ranges, ram⟩, []⟩ := ⟨hstart, ⟨_, hrepresents⟩, horderly⟩
  have hkept : I ⟨m, history⟩ := by
    refine (htold.preserves (fun c => c.memory.nextPid.toNat) (F := fun e =>
      WithinCounts e.state.memory)
      (fun op c r c' hI hs hw hn => ?_) hinit hbudget hwithin).1
    exact ⟨(hstep op c r c' hI hs hw hn).1, (hstep op c r c' hI hs hw hn).2.1⟩
  exact ⟨told, history, htold, rfl, hkept.2.2.turns, hkept.2.2.tallied,
    Run.along (fun c => c.memory.nextPid.toNat) hstep told hinit hbudget hwithin htold⟩

end PagedMemory

namespace LastSlot

open PagedMemory
open TwoReaders (ram)

def copying : List (Event PagedMemory PagingOperation Answer) :=
  events disk ram ++ [⟨.translate 0x401001 .write .kernel, .ok .done, copied disk ram⟩]

theorem run_copying : Run PagingOperation.Step (start disk ram) copying (copied disk ram) := by
  obtain ⟨v, hr⟩ :=
    Bus.represents_of_run bus_ofDevices rfl host_run (by decide : 1 < 2 ^ 32 - 1) host_withinCounts
  obtain ⟨physical, hcopy⟩ := translate_copies hr.consistent slotCount_disk ram_fits.1 ram_fits.2
  have hlast :
      (PagingOperation.translate 0x401001 .write .kernel).Step (shared disk ram) (.ok .done)
        (copied disk ram) :=
    map_ok hcopy
  exact (run disk ram ram_fits.1 ram_fits.2).append (.next hlast (.done _))

theorem withinCounts_copying : ∀ e ∈ copying, WithinCounts e.state := by
  intro e he
  rcases List.mem_append.mp he with he | he
  · exact withinCounts disk ram e he
  · rw [List.mem_singleton.mp he]
    exact withinCounts_of_size (by decide : 4 ≤ maxRefs)

/-- The one eviction was in turn: the first frame of the queue was given up, and came back behind
the others. -/
theorem oldest_given_up :
    (shared disk ram).resident = [0, 1, 2] ∧ (copied disk ram).resident = [1, 2, 0] ∧
    ∃ told history, Run PagingOperation.Told ⟨start disk ram, []⟩ told ⟨copied disk ram, history⟩ ∧
      told.map Event.untold = copying ∧ InTurn history ∧ evictions history = 1 ∧
      Along Turnover ⟨start disk ram, []⟩ told := by
  obtain ⟨told, history, hrun, hevents, hturns, hcount, halong⟩ := first_in_first_out
    (ofDevices rfl TwoReaders.size_ram disk) rfl ram_fits.1 run_copying
      (by decide : 1 < 2 ^ 32 - 1) withinCounts_copying
  have hone : (copied disk ram).counters.evictions.toNat = 1 := rfl
  rw [hone] at hcount
  exact ⟨rfl, rfl, told, history, hrun, hevents, hturns, by omega, halong⟩

end LastSlot

end PagedMachine

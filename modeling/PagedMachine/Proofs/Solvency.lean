import PagedMachine.Proofs.Bookkeeping
import PagedMachine.Proofs.Ledger
import PagedMachine.Proofs.Stability

/-!
# Solvent memory

Every call may be handed another RAM, and the RAM may refuse. A page that is moved out
is read before it is given a slot, so then nothing is lost. But a frame is taken for a
page before the page is written to it, and counted only after that: if the RAM does not
hold the frame, or a page that is to be copied, the frame is lost.
-/

namespace PagedMachine

theorem ByteStore.length_of_readBytes {s : ByteStore} {address : Word} {length : Nat}
    {bytes : List UInt8} (h : s.readBytes address length = .ok bytes) : bytes.length = length := by
  unfold readBytes span at h
  split at h
  · rename_i hspan
    have hle := s.size_le
    obtain rfl := Except.ok.inj h
    rw [Array.length_toList, Array.size_extract]
    omega
  · cases h

namespace Ram

variable {ram ram' : Ram} {frame source target : Word} {page : List UInt8} {e : Fault}

def Holds (ram : Ram) (frame : Word) : Prop :=
  ∃ offset, ram.span (frameAddress ram frame) pageSize = .ok offset

theorem holds_of_extent (hb : ram'.base = ram.base) (hs : ram'.size = ram.size) : ram'.Holds frame ↔
    ram.Holds frame := by
  rw [Holds, Holds, frameAddress, frameAddress, ByteStore.span, ByteStore.span, hb, hs]

theorem writeFrame_error (hp : page.length = pageSize)
    (h : Yields (writeFrame frame page) ram (.error e) ram') :
    (∃ address, e = .memoryOutOfBounds address) ∧ ¬ ram.Holds frame := by
  have h := h.of_get_bind
  refine ⟨⟨_, ByteStore.error_of_writeBytes h⟩, fun ⟨offset, hspan⟩ => ?_⟩
  rw [← hp] at hspan
  cases (h.eq_of_ok (ByteStore.writeBytes_run_ok hspan)).1

/-- A copy fails if the RAM does not hold one of the two frames. -/
theorem copyFrame_error (h : Yields (copyFrame source target) ram (.error e) ram') :
    (∃ address, e = .memoryOutOfBounds address) ∧ (¬ ram.Holds source ∨ ¬ ram.Holds target) := by
  have h := h.of_get_bind
  cases hread : readFrame ram source with
  | error e' =>
    rw [hread] at h
    obtain ⟨he, -⟩ := h.eq_of_error (bind_error (show (MonadExcept.ofExcept (.error e') :
      EStateM Fault Ram (List UInt8)).run ram = .error e' ram from rfl))
    obtain rfl := Except.error.inj he
    unfold readFrame ByteStore.readBytes at hread
    cases hspan : ram.span (frameAddress ram source) pageSize with
    | ok offset =>
      rw [hspan] at hread
      cases hread
    | error e' =>
      rw [hspan] at hread
      obtain rfl := Except.error.inj hread
      exact ⟨⟨_, ByteStore.span_error hspan⟩, .inl fun ⟨offset, hok⟩ =>
        nomatch hspan.symm.trans hok⟩
  | ok page =>
    have hwrite : Yields (writeFrame target page) ram (.error e) ram' :=
      h.of_run (bind_ok (ofExcept_ok hread ram)).symm
    obtain ⟨he, hout⟩ := writeFrame_error (ByteStore.length_of_readBytes hread) hwrite
    exact ⟨he, .inr hout⟩

end Ram

theorem Disk.length_of_readSlot {disk : Disk} {slot : Word} {page : List UInt8}
    (h : readSlot disk slot = .ok page) : page.length = pageSize := by
  unfold readSlot at h
  cases haddress : slotAddress slot with
  | error e =>
    rw [haddress] at h
    cases h
  | ok address =>
    rw [haddress] at h
    exact ByteStore.length_of_readBytes h

namespace PagedMemory

variable {m m' m'' m₀ : PagedMemory} {n : Location → Nat} {source target l : Location}
    {pid page frame slot : Word} {d : Directory} {mp : Mapping} {kind : PoolKind}
    {pinned : Option Word} {gone gone' : List Word} {α β : Type}

/-! ## What a call may do -/

/-- The pools are apart, the slots lie on the disk, nothing that is free is counted, and no mapping
is left out. -/
structure Solvent (m : PagedMemory) : Prop where
  apart : ∀ frame, m.userPool.owns frame → ¬ m.kernelPool.owns frame
  slots : ∀ slot, m.diskPool.owns slot → slot.toNat < Disk.slotCount m.disk
  base : m.disk.base = 0
  ledger : Paging.Ledger m.toPaging
  covers : ∀ l, m.mappingsOf l ≤ m.refs l

theorem Solvent.of_sameExtent (h : Solvent m) (hextent : SameExtent m m')
    (hledger : Paging.Ledger m'.toPaging) (hcovers : ∀ l, m'.mappingsOf l ≤ m'.refs l) :
    Solvent m' where
  apart frame := by
    have hu := Paging.owns_pool_of_range hextent.range .user frame
    have hk := Paging.owns_pool_of_range hextent.range .kernel frame
    simp only [Paging.pool] at hu hk
    rw [hu, hk]
    exact h.apart frame
  slots slot := by
    have hs := Paging.owns_pool_of_range hextent.range .disk slot
    simp only [Paging.pool] at hs
    rw [hs, Disk.slotCount, hextent.diskSize]
    exact h.slots slot
  base := hextent.diskBase.trans h.base
  ledger := hledger
  covers := hcovers

theorem Solvent.framePool_of_owns (h : Solvent m) (hk : kind ≠ .disk)
    (ho : (m.pool kind).owns frame) : m.framePool frame = kind := by
  cases kind with
  | user => exact if_pos ho
  | kernel => exact if_neg fun hu => h.apart frame hu ho
  | disk => exact absurd rfl hk

theorem Solvent.refs_of_mapping (h : Solvent m) (hd : m.processes.find? pid = some d)
    (hm : d.find? page = some mp) : m.refs mp.location ≠ 0 := by
  have hmapped : m.mappingsOf mp.location ≠ 0 := mappingsOf_ne_zero hd hm
  have hcovers := h.covers mp.location
  omega

structure Spends (gone : List Word) (m m' : PagedMemory) : Prop where
  solvent : Solvent m'
  drops : Paging.Drops gone m.toPaging m'.toPaging
  extent : SameExtent m m'

theorem Spends.refl (h : Solvent m) : Spends [] m m := ⟨h, .refl h.ledger, .refl m⟩

theorem Spends.trans (h : Spends gone m m') (h' : Spends gone' m' m'') :
    Spends (gone ++ gone') m m'' :=
  ⟨h'.solvent, h.drops.trans h'.drops, h.extent.trans h'.extent⟩

theorem Solvent.spends (h : Solvent m) (hextent : SameExtent m m')
    (hdrops : Paging.Drops gone m.toPaging m'.toPaging)
    (hcovers : ∀ l, m'.mappingsOf l ≤ m'.refs l) : Spends gone m m' :=
  ⟨h.of_sameExtent hextent hdrops.ledger hcovers, hdrops, hextent⟩

theorem Spends.with_counters (h : Spends gone m m') (counters : PagingCounters) :
    Spends gone m { m' with counters := counters } where
  solvent := ⟨h.solvent.apart, h.solvent.slots, h.solvent.base,
    (h.drops.frame m'.disk m'.processes m'.current m'.nextPid counters).ledger, h.solvent.covers⟩
  drops := h.drops.frame _ _ _ _ _
  extent :=
    ⟨h.extent.range, h.extent.ramBase, h.extent.ramSize, h.extent.diskBase, h.extent.diskSize⟩

/-- No frame is lost, or one is because the RAM does not hold a frame, and this is the answer. -/
inductive Accounts (m : PagedMemory) (r : Except Fault α) (m' : PagedMemory) : Prop
  | kept (h : Spends [] m m')
  | lost (frame out address : Word) (h : Spends [frame] m m') (howns : m.owns (.frame out))
      (hout : ¬ m.ram.Holds out)
      (hr : r = .error (.memoryOutOfBounds address))

theorem Accounts.kept_of_ok {a : α} (h : Accounts m (.ok a) m') : Spends [] m m' := by
  cases h with
  | kept h => exact h
  | lost frame out address h howns hout hr => cases hr

theorem Accounts.after {r : Except Fault α} (h : Accounts m r m'') (h' : Spends [] m' m) :
    Accounts m' r m'' := by
  cases h with
  | kept h => exact .kept (h'.trans h)
  | lost frame out address h howns hout hr =>
    rw [Paging.owns_of_range h'.extent.range] at howns
    rw [Ram.holds_of_extent h'.extent.ramBase h'.extent.ramSize] at hout
    exact .lost frame out address (h'.trans h) howns hout hr

theorem Accounts.error {e : Fault} (h : Accounts m (.error e : Except Fault α) m') :
    Accounts m (.error e : Except Fault β) m' := by
  cases h with
  | kept h => exact .kept h
  | lost frame out address h howns hout hr =>
    obtain rfl := Except.error.inj hr
    exact .lost frame out address h howns hout rfl

theorem Accounts.map {r : Except Fault α} {g : α → β} (h : Accounts m r m') :
    Accounts m (r.map g) m' := by
  cases r with
  | ok a => exact .kept h.kept_of_ok
  | error e => exact h.error

/-- What comes last and changes nothing does not matter. -/
theorem Accounts.of_bind_pure {x : Paged α} {f : α → Paged β} {r : Except Fault β}
    (hx : ∀ r m', Yields x m r m' → Accounts m r m') (hf : ∀ a m, ∃ b, (f a).run m = .ok b m)
    (hstep : Yields (x >>= f) m r m') : Accounts m r m' := by
  rcases hstep.of_bind with ⟨a, m₁, hfirst, hlast⟩ | ⟨e, rfl, hfirst⟩
  · obtain ⟨b, hb⟩ := hf a m₁
    obtain ⟨-, rfl⟩ := hlast.eq_of_ok hb
    exact .kept (hx _ _ hfirst).kept_of_ok
  · exact (hx _ _ hfirst).error

/-! ## Pages on the move -/

structure Moves (source target : Location) (m m' : PagedMemory) : Prop where
  spends : Spends [] m m'
  unused : m.refs target = 0
  processes : m'.processes = m.processes.map (·.repoint source target)
  refs : m'.refs = Function.update (Function.update m.refs target (m.refs source)) source 0
  current : m'.current = m.current

theorem refs_of_toPaging {p : Paging} (h : ∀ l, m.count? l = p.count? l) : m.refs = p.refs := by
  funext l
  rw [Paging.refs_eq, h, Paging.refs_eq]

theorem Solvent.moves (h : Solvent m) (hs : m.refs source ≠ 0) (ht : m.isFree target)
    {q : PagedMemory}
    (hcount : ∀ l, q.count? l = ((m.occupy target (m.refs source)).vacate source).count? l)
    (hdrops : Paging.Drops [] m.toPaging q.toPaging) (hextent : SameExtent m q)
    (hprocesses : q.processes = m.processes.map (·.repoint source target))
    (hcurrent : q.current = m.current) : Moves source target m q := by
  have hunused : m.refs target = 0 := h.ledger.free target ht
  have hne : source ≠ target := fun e => hs (e ▸ hunused)
  have hrefs :
      q.refs = Function.update (Function.update m.refs target (m.refs source)) source 0 := by
    rw [refs_of_toPaging hcount]
    funext k
    rw [Paging.refs_vacate, Paging.refs_occupy, Function.update_apply, Function.update_apply]
  have hmapped := h.covers target
  have hmaps := Paging.mappingsOf_repoint hprocesses hne (by omega)
  refine ⟨h.spends hextent hdrops fun k => ?_, hunused, hprocesses, hrefs, hcurrent⟩
  rw [hmaps, hrefs, Function.update_apply, Function.update_apply, Function.update_apply,
    Function.update_apply]
  split
  · exact Nat.le_refl 0
  · split
    · exact h.covers source
    · exact h.covers k

theorem Solvent.drops_move (h : Solvent m) (hs : m.refs source ≠ 0) (ht : m.isFree target) :
    Paging.Drops [] m.toPaging ((m.occupy target (m.refs source)).vacate source) := by
  have hoccupy := Paging.Drops.occupy h.ledger ht hs
  have hne : source ≠ target := fun e => hs (e ▸ h.ledger.free target ht)
  refine hoccupy.trans (Paging.Drops.vacate hoccupy.ledger ?_)
  rwa [Paging.refs_occupy, if_neg hne]

theorem Solvent.evict (h : Solvent m) {r : Except Fault Unit}
    (hstep : Yields (PagedMemory.evict frame) m r m') :
    m' = m ∨ ∃ slot, Moves (.frame frame) (.slot slot) m m' ∧ m'.ram = m.ram := by
  have hstep' := hstep.of_get_bind.of_get_bind
  cases hc : m.frameRefs.find? frame with
  | none =>
    rw [hc] at hstep'
    exact .inl hstep'.of_throw.2
  | some count =>
    rw [hc] at hstep'
    rcases hstep'.of_get_bind.of_outcome_bind with ⟨page, hread, -⟩ | ⟨-, rfl⟩
    case inr => exact .inl rfl
    have hcount : m.count? (.frame frame) = some count := hc
    -- a page is read before a slot is asked for; without one nothing has changed
    cases hkeys : m.diskPool.free.keys with
    | nil =>
      have hrun :
          (PagedMemory.evict frame).run m = .error (.resourceExhausted (m.pool .disk).kind) m := by
        rw [PagedMemory.evict, get_bind, get_bind]
        simp only [hc]
        rw [get_bind, bind_ok (outcome_ok hread m),
          bind_error (onPool_allocate_error (by exact hkeys))]
      exact .inl (hstep.eq_of_error hrun).2
    | cons slot rest =>
      have hused : m.refs (.frame frame) ≠ 0 := by
        rw [Paging.refs_eq, hcount, Option.getD_some]
        exact fun e => h.ledger.counted _ (e ▸ hcount)
      have hfree : m.isFree (.slot slot) := Pool.isFree_of_keys hkeys
      have hslot := h.slots slot (h.ledger.pooled .disk slot hfree)
      have hwrite := Disk.writeSlot_ok h.base hslot (ByteStore.length_of_readBytes hread)
      have hrun :=
        evict_run hcount hkeys hread hwrite (h.ledger.owned _ hused)
          (h.ledger.isFree_eq_false hused)
      obtain ⟨-, rfl⟩ := hstep.eq_of_ok hrun
      refine .inr ⟨slot, h.moves hused hfree (fun l => ?_) ?_ ?_ rfl ?_, rfl⟩
      · cases l <;> rfl
      · exact (h.drops_move hused hfree).frame _ _ _ _ _
      · exact sameExtent_movedOut (ByteStore.base_patch ..) (ByteStore.size_patch ..)
      · simp [movedOut, Paging.vacate, Paging.occupy, Paging.setFree]

/-- What happens to a pinned page and to pages on the disk when there is made room: nothing. -/
structure Clears (pinned : Option Word) (m m₀ : PagedMemory) : Prop where
  spends : Spends [] m m₀
  ram : m₀.ram = m.ram
  current : m₀.current = m.current
  directories : ∀ {pid d}, m.processes.find? pid = some d → ∃ d₀, m₀.processes.find? pid = some d₀ ∧
    (∀ page, d.find? page = none → d₀.find? page = none) ∧
    ∀ page mp, d.find? page = some mp →
      (∀ frame, mp.location = .frame frame → some frame = pinned) →
      d₀.find? page = some mp
  refs : ∀ l, (∀ frame, l = .frame frame → some frame = pinned) → m.refs l ≠ 0 →
    m₀.refs l = m.refs l

theorem Clears.refl (h : Solvent m) : Clears pinned m m :=
  ⟨.refl h, rfl, rfl, fun {_ d} hd => ⟨d, hd, fun _ => id, fun _ _ hm _ => hm⟩, fun _ _ _ => rfl⟩

theorem Clears.with_counters (h : Clears pinned m m₀) (counters : PagingCounters) :
    Clears pinned m { m₀ with counters := counters } :=
  ⟨h.spends.with_counters counters, h.ram, h.current, h.directories, h.refs⟩

theorem Moves.clears (h : Moves (.frame frame) (.slot slot) m m') (hram : m'.ram = m.ram)
    (hne : some frame ≠ pinned) : Clears pinned m m' := by
  refine ⟨h.spends, hram, h.current, fun {pid d} hd => ?_, fun l hl hused => ?_⟩
  · refine ⟨d.repoint (.frame frame) (.slot slot), ?_, fun page hm => ?_, fun page mp hm hl => ?_⟩
    · rw [h.processes, Table.find?_map, hd]
      rfl
    · rw [Directory.repoint, Table.find?_map, hm]
      rfl
    · exact find?_repoint_of_ne hm fun e => hne (hl frame e)
  · have hsource : l ≠ .frame frame := fun e => hne (hl frame e)
    have htarget : l ≠ .slot slot := fun e => hused (e ▸ h.unused)
    rw [h.refs, Function.update_of_ne hsource, Function.update_of_ne htarget]

theorem Solvent.makeRoom (h : Solvent m) {r : Except Fault Unit}
    (hstep : Yields (makeRoom kind pinned) m r m') : Clears pinned m m' := by
  by_cases hfree : m.HasFree kind
  · obtain ⟨-, rfl⟩ := hstep.eq_of_ok (makeRoom_run_free pinned hfree)
    exact .refl h
  · cases hv : m.victim? kind pinned with
    | none =>
      obtain ⟨-, rfl⟩ := hstep.eq_of_error (makeRoom_run_none hfree hv)
      exact .refl h
    | some out =>
      have hout := List.find?_some hv
      rw [Bool.and_eq_true, bne_iff_ne] at hout
      have hevict : ∀ r m₁, Yields (PagedMemory.evict out) m r m₁ → Clears pinned m m₁ := by
        intro r m₁ hstep
        rcases h.evict hstep with rfl | ⟨slot, hmoves, hram⟩
        · exact .refl h
        · exact hmoves.clears hram hout.1
      rcases (hstep.of_run (makeRoom_run_some hfree hv).symm).of_bind with
        ⟨_, m₁, hrun, htally⟩ | ⟨e, -, hrun⟩
      · obtain ⟨-, rfl⟩ := htally.eq_of_ok rfl
        exact (hevict _ _ hrun).with_counters _
      · exact hevict _ _ hrun

/-- The frame that is handed out is not counted yet. -/
theorem Solvent.takeFrame (h : Solvent m) (hk : kind ≠ .disk) {r : Except Fault Word}
    (hstep : Yields (PagedMemory.takeFrame kind pinned) m r m') : ∃ m₀, Clears pinned m m₀ ∧
      ((∃ e, r = .error e ∧ m' = m₀) ∨ ∃ frame, r = .ok frame ∧ m' = m₀.handOut frame ∧
        m₀.isFree (.frame frame)) := by
  rw [takeFrame_eq] at hstep
  rcases hstep.of_bind with ⟨_, m₀, hroom, htake⟩ | ⟨e, rfl, hroom⟩
  · have hclears := h.makeRoom hroom
    refine ⟨m₀, hclears, ?_⟩
    cases hkeys : (m₀.pool kind).free.keys with
    | nil =>
      obtain ⟨rfl, rfl⟩ := htake.eq_of_error (onPool_allocate_error hkeys)
      exact .inl ⟨_, rfl, rfl⟩
    | cons frame rest =>
      have hfree := Pool.isFree_of_keys hkeys
      have h₀ := hclears.spends.solvent
      obtain rfl := h₀.framePool_of_owns hk (h₀.ledger.pooled kind frame hfree)
      obtain ⟨rfl, rfl⟩ := htake.eq_of_ok (onPool_allocate_ok hkeys)
      exact .inr ⟨frame, rfl, rfl, hfree⟩
  · exact ⟨m', h.makeRoom hroom, .inl ⟨e, rfl, rfl⟩⟩

/-- A frame is handed out, and then the RAM is refused. -/
theorem Clears.loses (h : Clears pinned m m₀) (hfree : m₀.isFree (.frame frame)) {ram : Ram}
    (hb : ram.base = m.ram.base) (hs : ram.size = m.ram.size) :
    Spends [frame] m { m₀.handOut frame with ram := ram } := by
  have h₀ := h.spends.solvent
  have hextent : SameExtent m₀ { m₀.handOut frame with ram := ram } :=
    ⟨m₀.range_setFree _ _, hb.trans h.spends.extent.ramBase.symm,
      hs.trans h.spends.extent.ramSize.symm,
      by simp [handOut, Paging.setFree], by simp [handOut, Paging.setFree]⟩
  refine h.spends.trans (h₀.spends hextent (.handOut h₀.ledger hfree) fun l => ?_)
  have hcount : ∀ l, (m₀.handOut frame).count? l = m₀.count? l := by
    intro l
    cases l <;> simp [handOut, Paging.setFree, Paging.count?]
  have hrefs : (m₀.handOut frame).refs = m₀.refs := refs_of_toPaging hcount
  have hmaps : (m₀.handOut frame).mappingsOf l = m₀.mappingsOf l := by
    rw [Paging.mappingsOf, Paging.mappingsOf, handOut, Paging.setFree, Paging.processes_setPool]
  change (m₀.handOut frame).mappingsOf l ≤ (m₀.handOut frame).refs l
  rw [hmaps, hrefs]
  exact h₀.covers l

/-- The device refuses what is done to the frame, of which it does not hold one that is needed for
it. -/
theorem Clears.accounts (h : Clears pinned m m₀) (hfree : m₀.isFree (.frame frame))
    {x : EStateM Fault Ram Unit} {e : Fault}
    (hx : Yields (onRam x) (m₀.handOut frame) (.error e) m')
    (hextent : ∀ ram r ram', Yields x ram r ram' → ram'.base = ram.base ∧ ram'.size = ram.size)
    (herror : ∀ e ram', Yields x m.ram (.error e) ram' →
      (∃ address, e = .memoryOutOfBounds address) ∧
      ∃ out, m.owns (.frame out) ∧ ¬ m.ram.Holds out) : Accounts m (.error e :
        Except Fault α) m' := by
  obtain ⟨ram, hrefused, rfl⟩ := yields_onRam hx
  change Yields x m₀.ram _ _ at hrefused
  rw [h.ram] at hrefused
  obtain ⟨⟨address, rfl⟩, out, howns, hout⟩ := herror _ _ hrefused
  obtain ⟨hb, hs⟩ := hextent _ _ _ hrefused
  exact .lost frame out address (h.loses hfree hb hs) howns hout rfl

theorem Clears.owns (h : Clears pinned m m₀) (hfree : m₀.isFree (.frame frame)) :
    m.owns (.frame frame) := by
  rw [← Paging.owns_of_range h.spends.extent.range]
  exact h.spends.solvent.ledger.pooled _ _ hfree

theorem Clears.writeFrame_refused (h : Clears pinned m m₀) (hfree : m₀.isFree (.frame frame))
    {bytes : List UInt8} (hp : bytes.length = pageSize) {e : Fault}
    (hx : Yields (onRam (Ram.writeFrame frame bytes)) (m₀.handOut frame) (.error e) m') :
    Accounts m (.error e : Except Fault α) m' :=
  h.accounts hfree hx (fun _ _ _ => Ram.extent_of_writeFrame) fun _ _ hwrite =>
    (Ram.writeFrame_error hp hwrite).imp_right fun hout => ⟨frame, h.owns hfree, hout⟩

end PagedMemory

end PagedMachine

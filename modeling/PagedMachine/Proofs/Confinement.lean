import PagedMachine.Proofs.Views

/-!
# Isolation of stores

As long as pages are shared by forks and guarded shares only, a store in the window
changes the bytes that it addresses, for the current process, and no other byte of
any process. So a child keeps each byte that its parent had at the fork until it
stores another one there itself or gives up the page.
-/

namespace PagedMachine

variable {op : Operation} {r : Except Fault Answer}

def Flagged (e : Event Bus Operation Answer) : Prop :=
  ∀ pid source target, e.operation = .paging (.sharePage pid source target false) → ¬ e.answer.isOk

/-! ## Virtual memory -/

namespace Virtual.Bus

variable {v v' : Bus}

/-- Writable pages stay guarded, unless a page is shared without a flag. -/
theorem perform_guarded (h : (perform op).allows v r v') (hf : v.memory.Fresh)
    (hop : ∀ pid source target, op = .paging (.sharePage pid source target false) → ¬ r.isOk)
    (hg : v.memory.Guarded) : v'.memory.Guarded := by
  rcases perform_allows h with ⟨p, rfl, hp⟩ | ⟨hw, -⟩
  · rcases Virtual.perform_allows hp with ⟨a, rfl, he⟩ | ⟨e, rfl, -, hv⟩
    · refine he.guarded hf ?_ hg
      rintro ⟨pid, source, target, rfl⟩
      exact hop pid source target rfl rfl
    · rwa [hv]
  · exact hw.guarded hf hg

section
variable {address value : Word} {width : Width} {region : Region}

theorem perform_write (hop : op = .write address width value ∨ op = .swap address width value)
    (h : (perform op).allows v r v') :
    ∃ r₀, r.isOk = r₀.isOk ∧ (transfer (.write address width value)).allows v r₀ v' := by
  rcases hop with rfl | rfl
  all_goals
    obtain ⟨r₀, rfl, hx⟩ := Behaviour.allows_map.mp h
    exact ⟨r₀, isOk_map r₀, hx⟩

/-- A store in the window shows at its own addresses, for its own process. -/
theorem write_isolated {r : Except Fault Word} (hf : v.memory.Fresh) (hg : v.memory.Guarded)
    (hr : v.regions.regionOf? address = some region) (hk : region.kind = .mapped)
    (h : (transfer (.write address width value)).allows v r v') (q a : Word) : v'.memory.byte? q a =
      if r.isOk ∧ v.memory.current = some q ∧ (a - address).toNat < width.bytes
      then some (value.byte (a - address).toNat) else v.memory.byte? q a := by
  rcases transfer_window hr hk h with ⟨e, rfl, rfl⟩ | ⟨m, hm, rfl⟩
  · rw [if_neg (by simp [Except.isOk, Except.toBool])]
  · exact transferMapped_isolated hf hg rfl rfl hm q a

/-- A store outside of RAM leaves every byte that it does not address for the current process. -/
theorem write_spares {r : Except Fault Word} (hf : v.memory.Fresh) (hg : v.memory.Guarded)
    {q a : Word} (hram : ∀ region, v.regions.regionOf? address = some region → region.kind ≠ .ram)
    (hq : r.isOk → v.memory.current = some q → width.bytes ≤ (a - address).toNat)
    (h : (transfer (.write address width value)).allows v r v') :
    v'.memory.byte? q a = v.memory.byte? q a := by
  by_cases hw : ∃ region, v.regions.regionOf? address = some region ∧ region.kind = .mapped
  · obtain ⟨region, hr, hk⟩ := hw
    rw [write_isolated hf hg hr hk h, if_neg fun hh =>
      absurd hh.2.2 (Nat.not_lt.mpr (hq hh.1 hh.2.1))]
  · rw [transfer_outside (fun region hr =>
      ⟨fun hk => hw ⟨region, hr, hk⟩, fun hk => absurd hk (hram region hr)⟩) h]

end

end Virtual.Bus

/-! ## The bus -/

/-- Process `q` does not give up the page of `a`, and neither it nor the host stores anything at
`a`. -/
def Spares (q a : Word) (b : Bus) (e : Event Bus Operation Answer) : Prop :=
  match e.operation with
  | .paging op => ¬ Virtual.Unmaps b.memory.current q a.page op
  | .write address width _ | .swap address width _ =>
    ¬ b.Serves .ram address ∧
      (e.answer.isOk → b.memory.current = some q → width.bytes ≤ (a - address).toNat)
  | .loadImage _ _ => False
  | _ => True

structure Confined (b : Bus) (e : Event Bus Operation Answer) : Prop where
  stores : ∀ address width value, e.operation = .write address width value ∨
    e.operation = .swap address width value →
    b.Serves .mapped address → ∀ q a, e.state.memory.byte? q a =
      if e.answer.isOk ∧ b.memory.current = some q ∧ (a - address).toNat < width.bytes then
        some (value.byte (a - address).toNat)
      else b.memory.byte? q a
  spared : ∀ q a, Spares q a b e → ∀ x, b.memory.byte? q a = some x →
    e.state.memory.byte? q a = some x
  forked : ∀ child, e.operation = .paging .forkProcess → e.answer = .ok (.process child) →
    ∃ parent, b.memory.current = some parent ∧ ∀ a,
    e.state.memory.byte? child a = b.memory.byte? parent a

namespace Bus.Represents

variable {b b' : Bus} {v v' : Virtual.Bus}

theorem spared (hr : Represents b v) (hg : v.memory.Guarded) (hspec : Virtual.Bus.Step op v r v')
    {q a : Word} (hs : Spares q a b ⟨op, r, b'⟩) {x : UInt8} (hx : v.memory.byte? q a = some x) :
    v'.memory.byte? q a = some x := by
  have hf := hr.memory.isFresh
  -- a swap stores as a write does, so one argument covers the two
  have hstore : ∀ {address width value}, ¬ b.Serves .ram address ∧
      (r.isOk → b.memory.current = some q → width.bytes ≤ (a - address).toNat) →
      op = .write address width value ∨ op = .swap address width value →
      v'.memory.byte? q a = v.memory.byte? q a := by
    intro address width value hs hop
    obtain ⟨r₀, hok, h⟩ := Virtual.Bus.perform_write hop hspec
    apply Virtual.Bus.write_spares hf hg ?_ ?_ h
    · exact fun region hregion hk => hs.1 ⟨region, hr.regions ▸ hregion, hk⟩
    · rw [← hok, hr.memory.current]
      exact hs.2
  cases op with
  | paging p =>
    obtain ⟨m, hm, rfl⟩ := hspec
    have hun : ¬ Virtual.Unmaps v.memory.current q a.page p := hr.memory.current ▸ hs
    rcases Virtual.perform_allows hm with ⟨_, -, he⟩ | ⟨e, -, -, rfl⟩
    · exact he.byte? hf (hr.memory.find?_next hr.consistent) hun hx
    · exact hx
  | read address width =>
    obtain ⟨r₀, -, h⟩ := Behaviour.allows_map.mp hspec
    exact (Virtual.Bus.transfer_load rfl hf h q a).trans hx
  | fetch address =>
    obtain ⟨r₀, -, h⟩ := Behaviour.allows_map.mp hspec
    exact (Virtual.Bus.transfer_load rfl hf h q a).trans hx
  | write address width value => exact (hstore hs (.inl rfl)).trans hx
  | swap address width value => exact (hstore hs (.inr rfl)).trans hx
  | loadImage base image => exact hs.elim
  | setPrivilege privilege =>
    obtain ⟨-, rfl⟩ := Behaviour.allows_modify_bind.mp hspec
    exact hx

theorem confined (hr : Represents b v) (hg : v.memory.Guarded) (hspec : Virtual.Bus.Step op v r v')
    (hr' : Represents b' v') : Confined b ⟨op, r, b'⟩ where
  stores address width value hop hw q a := by
    obtain ⟨region, hregion, hk⟩ := hw
    rw [← hr.memory.byte?, ← hr'.memory.byte?, ← hr.memory.current]
    obtain ⟨r₀, hok, h⟩ := Virtual.Bus.perform_write hop hspec
    rw [hok]
    exact Virtual.Bus.write_isolated hr.memory.isFresh hg (hr.regions ▸ hregion) hk h q a
  spared q a hs x hx := by
    rw [← hr.memory.byte?] at hx
    rw [← hr'.memory.byte?]
    exact hr.spared hg hspec hs hx
  forked child hop hans := by
    subst hop hans
    obtain ⟨m, hm, rfl⟩ := hspec
    rcases Virtual.perform_allows hm with ⟨a, ha, he⟩ | ⟨e, he, -⟩
    · cases ha
      obtain ⟨parent, hc, hbytes⟩ := he.byte?_child
      refine ⟨parent, hr.memory.current ▸ hc, fun a => ?_⟩
      rw [← hr.memory.byte?, ← hr'.memory.byte?]
      exact hbytes a
    · cases he

end Bus.Represents

theorem Virtual.guarded_initial : Virtual.Memory.initial.Guarded := nofun

section
variable {ram : Ram} {rom : Rom} {disk : Disk} {window : Word × Word} {ranges : PageRanges}
    {b b' : Bus} {es : List (Event Bus Operation Answer)}
    (hb : Bus.ofDevices ram rom disk window ranges = .ok b)
  (hdisk : disk.base = 0) (hrun : Run Operation.Step b es b') (hpids : creations es < 2 ^ 32 - 1)
  (hcounts : ∀ e ∈ es, PagedMemory.WithinCounts e.state.memory) (hflagged : ∀ e ∈ es, Flagged e)
include hb hdisk hrun hpids hcounts hflagged

/-- Writable pages stay guarded along a run that shares no page without a flag. -/
theorem Bus.along_guarded {P : Bus → Event Bus Operation Answer → Prop}
    (hP : ∀ {op r b b' v v'}, Represents b v → v.memory.Guarded → Virtual.Bus.Step op v r v' →
      Represents b' v' → P b ⟨op, r, b'⟩) : Along P b es := by
  obtain ⟨h, hbudget⟩ := represents_initial hb hdisk
  have hbudget : b.memory.nextPid.toNat + creations es < 2 ^ 32 := by omega
  refine Run.along (fun b => b.memory.nextPid.toNat)
    (I := fun b => ∃ v, Represents b v ∧ v.memory.Guarded)
    (F := fun e => PagedMemory.WithinCounts e.state.memory ∧ Flagged e) ?_ es
    ⟨_, h, Virtual.guarded_initial⟩ hbudget (fun e he => ⟨hcounts e he, hflagged e he⟩) hrun
  rintro op b r b' ⟨v, hr, hg⟩ hstep ⟨hwithin, hflagged⟩ hpid
  obtain ⟨v', hspec, hr', hnumber, -⟩ := hr.step hstep hwithin hpid
  have hg' := Virtual.Bus.perform_guarded hspec hr.memory.isFresh hflagged hg
  exact ⟨⟨v', hr', hg'⟩, hnumber, hP hr hg hspec hr'⟩

/-- In a run that shares pages by forks and guarded shares only, no store is seen but where it was
made, and a child keeps what it was given. -/
theorem Bus.stores_isolated : Along Confined b es ∧ ∀ es₁ es₂ child s s',
    es = es₁ ++ ⟨.paging .forkProcess, .ok (.process child), s'⟩ :: es₂ →
    Run Operation.Step b es₁ s → ∃ parent, s.memory.current = some parent ∧ ∀ a x,
    Along (Spares child a) s' es₂ → s.memory.byte? parent a = some x →
    b'.memory.byte? child a = some x := by
  have hall : Along Confined b es :=
    along_guarded hb hdisk hrun hpids hcounts hflagged fun hr hg hspec hr' =>
      hr.confined hg hspec hr'
  refine ⟨hall, ?_⟩
  rintro es₁ es₂ child s s' rfl hfirst
  have hrest := hall.of_append hfirst
  obtain ⟨parent, hc, hbytes⟩ := hrest.1.forked child rfl rfl
  refine ⟨parent, hc, fun a x hspares hx => ?_⟩
  cases hfirst.of_append hrun with
  | next _ hlast =>
    -- the child starts with its parent's bytes and keeps each
    refine hlast.carry (J := fun s => s.memory.byte? child a = some x) ?_ ((hbytes a).trans hx)
    exact Along.imp (fun s e hs hkeep hx => hkeep.spared child a hs x hx) es₂ hspares hrest.2

end

theorem TwoReaders.flagged : ∀ e ∈ busEvents, Flagged e := by
  rintro e he pid source target hop
  simp only [busEvents, Bus.pagingEvents, events, eventsBefore, List.cons_append, List.nil_append,
    List.map_cons, List.map_nil, List.mem_cons, List.not_mem_nil, or_false] at he
  rcases he with rfl | rfl | rfl <;> cases hop

namespace LastSlot

open TwoReaders (ram bus)

theorem flagged_storing : ∀ e ∈ storing, Flagged e := by
  rintro e he pid source target hop
  simp only [storing, Bus.pagingEvents, forking, filling, List.cons_append, List.nil_append,
    List.map_cons, List.map_nil, List.mem_cons, List.not_mem_nil, or_false] at he
  rcases he with rfl | rfl | rfl | rfl | rfl | rfl | rfl | rfl <;> cases hop

/-- The child stores at one address of its own. -/
theorem spares_storing {a : Word} (ha : a ≠ 0x400020) : Along (Spares 2 a) (bus (forked disk ram))
    [⟨.write 0x400010 .byte 0xAA, .ok .done, bus (parted disk ram true 1 parentStored)⟩,
      ⟨.paging (.switchProcess 2), .ok .done, bus (parted disk ram true 2 parentStored)⟩,
      ⟨.swap 0x400020 .byte 0xBB, .ok (.value (UInt32.ofNat (ofBytes (parentStored.slice 0x20 1)))),
        bus (parted disk ram false 2 bothStored)⟩] := by
  have hwindow : ∀ {m : PagedMemory} {address : Word},
      TwoReaders.regions.regionOf? address = some ⟨.mapped, 0x400000, 0x7FFFFF⟩ →
      ¬ (bus m).Serves .ram address := by
    rintro m address hregion ⟨region, hr, hk⟩
    obtain rfl := Option.some.inj (hregion.symm.trans hr)
    cases hk
  refine ⟨⟨hwindow rfl, fun _ hc => ?_⟩, ?_, ⟨hwindow rfl, fun _ _ => ?_⟩, trivial⟩
  · exact absurd (Option.some.inj hc) (by decide : (1 : Word) ≠ 2)
  · exact id
  · have hne : (a - 0x400020).toNat ≠ 0 := by
      intro hz
      apply ha
      have hzero : a - 0x400020 = 0 := UInt32.toNat_inj.mp hz
      rw [← UInt32.sub_add_cancel a 0x400020, hzero, UInt32.zero_add]
    exact Nat.one_le_iff_ne_zero.mpr hne

/-- The child reads on what was there, and the parent what it stored. -/
theorem isolated : Along Confined (bus (start disk ram)) storing ∧
    (∀ a x, a ≠ 0x400020 → (full disk ram).byte? 1 a = some x →
      (parted disk ram false 2 bothStored).byte? 2 a = some x) ∧
    (parted disk ram true 1 parentStored).byte? 1 0x400010 = some 0xAA := by
  obtain ⟨hall, hforked⟩ :=
    Bus.stores_isolated bus_ofDevices rfl run_storing (by decide : 2 < 2 ^ 32 - 1)
    withinCounts_storing flagged_storing
  have hfirst : Run Operation.Step (bus (start disk ram)) _ (bus (full disk ram)) :=
    Bus.run_pagingEvents (b := bus (start disk ram)) (run_filling disk ram ram_fits.1 ram_fits.2)
  obtain ⟨parent, hc, hbytes⟩ := hforked _ _ 2 _ (bus (forked disk ram)) rfl hfirst
  obtain rfl : 1 = parent := Option.some.inj hc
  refine ⟨hall, fun a x ha => hbytes a x (spares_storing ha), ?_⟩
  have hfork : Run Operation.Step (bus (start disk ram)) _ (bus (forked disk ram)) :=
    Bus.run_pagingEvents (b := bus (start disk ram)) (run_forking ram_fits.1 ram_fits.2)
  have hstore :=
    (hall.of_append hfork).1.stores 0x400010 .byte 0xAA (.inl rfl) ⟨_, rfl, rfl⟩ 1 0x400010
  exact hstore.trans (if_pos ⟨rfl, rfl, by decide⟩)

end LastSlot

end PagedMachine

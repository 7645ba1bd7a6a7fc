import PagedMachine.Proofs.HostRuns

/-!
# Accesses are all or nothing

An access that faults may have moved pages between frames and slots, and may have
made pages private, but nobody finds another byte anywhere. Two pages are both
resolved before the first byte is exchanged, and from then on nothing can fault
that did not fault before.
-/

namespace PagedMachine

/-! ## What an access leaves alone -/

namespace Bus

variable {b b' : Bus} {v : Virtual.Bus} {t : Transfer}

structure Undisturbed (b b' : Bus) : Prop where
  rom : b'.rom = b.rom
  bytes : ∀ q a, b'.memory.byte? q a = b.memory.byte? q a

theorem Undisturbed.trans {b'' : Bus} (h : Undisturbed b b') (h' : Undisturbed b' b'') :
    Undisturbed b b'' :=
  ⟨h'.rom.trans h.rom, fun q a => (h'.bytes q a).trans (h.bytes q a)⟩

theorem IsOnMemory.frame {α : Type} {y : OnBus α} {x : Privilege → Paged α} {r : Except Fault α}
    (hy : IsOnMemory y x) (h : Yields y b r b') : ∃ m, b' = { b with memory := m } := by
  obtain ⟨m, -, hb'⟩ := yields_onMemory (h.of_run (hy b).symm)
  exact ⟨m, hb'⟩

/-- Who serves a transfer that changes anything. -/
theorem transfer_cases {r : Except Fault Word} (h : Yields (transfer t) b r b') :
    b' = b ∨ ∃ region, b.regions.regionOf? t.address = some region ∧
      (region.kind = .ram ∧ Yields (exchange t.address t.width t.store) b r b' ∨
        region.kind = .mapped ∧ Yields (transferMapped t) b r b') := by
  unfold transfer at h
  replace h := h.of_get_bind
  cases hregion : b.regions.regionOf? t.address with
  | none =>
    rw [hregion] at h
    exact .inl h.of_throw.2
  | some region =>
    rw [hregion] at h
    dsimp only at h
    split at h
    · rcases h.of_bind with ⟨_, b₁, hpermit, hserve⟩ | ⟨e, -, hpermit⟩
      · obtain rfl := hpermit.of_outcome.2
        cases hk : region.kind with
        | rom =>
          rw [hk] at hserve
          -- ROM is only read
          replace hserve := hserve.of_get_bind
          exact .inl hserve.of_outcome.2
        | ram =>
          rw [hk] at hserve
          exact .inr ⟨region, rfl, .inl ⟨hk, hserve⟩⟩
        | mapped =>
          rw [hk] at hserve
          exact .inr ⟨region, rfl, .inr ⟨hk, hserve⟩⟩
      · exact .inl hpermit.of_outcome.2
    · exact .inl h.of_throw.2

theorem transfer_rom {region : Region} (hregion : b.regions.regionOf? t.address = some region)
    (hk : region.kind = .rom) (hholds : region.holds t.address t.width = true)
    (hpermit : region.kind.permit t.access t.address = .ok ()) :
    Yields (transfer t) b (b.rom.read t.address t.width) b := by
  apply (yields_outcome (b.rom.read t.address t.width) b).of_run
  rw [transfer, get_bind, hregion]
  dsimp only
  rw [if_pos hholds, bind_ok (outcome_ok hpermit b), hk]
  rfl

theorem onRam_error {address : Word} {bytes : List UInt8} {e : Fault}
    (h : Yields (onMemory (PagedMemory.onRam (ByteStore.writeBytes address bytes))) b
      (.error e) b') : b' = b := by
  cases hspan : b.memory.ram.span address bytes.length with
  | ok offset =>
    have hok :
        Yields (onMemory (PagedMemory.onRam (ByteStore.writeBytes address bytes))) b (.ok ()) _ :=
      onMemory_ok (PagedMemory.onRam_ok (ByteStore.writeBytes_run_ok hspan))
    cases (h.unique hok).1
  | error e' =>
    have hfault : Yields (onMemory (PagedMemory.onRam (ByteStore.writeBytes address bytes))) b
        (.error e') b :=
      onMemory_error (focus_error (ByteStore.writeBytes_run_error hspan))
    exact (h.unique hfault).2

/-- RAM is read before it is written, and written as a whole. -/
theorem exchange_error {address : Word} {width : Width} {store : Option Word} {e : Fault}
    (h : Yields (exchange address width store) b (.error e) b') : b' = b := by
  unfold exchange at h
  replace h := h.of_get_bind
  rcases h.of_bind with ⟨old, b₁, hread, hrest⟩ | ⟨_, -, hread⟩
  · obtain rfl := hread.of_outcome.2
    clear h
    cases store with
    | none => cases (Yields.of_pure hrest).1
    | some value =>
      replace hrest :
          Yields (onMemory (PagedMemory.onRam (ByteStore.write address width value)) >>=
            fun _ => pure old) b₁ (.error e) b' := hrest
      rcases hrest.of_bind with ⟨_, b₂, -, hdone⟩ | ⟨e', -, hwrite⟩
      · cases hdone.of_pure.1
      · exact onRam_error hwrite
  · exact hread.of_outcome.2

/-- What a transfer changes is in paged memory. -/
theorem transfer_frame {r : Except Fault Word} (h : Yields (transfer t) b r b') :
    ∃ m, b' = { b with memory := m } := by
  rcases transfer_cases h with rfl | ⟨region, -, ⟨-, h⟩ | ⟨-, h⟩⟩
  · exact ⟨_, rfl⟩
  · exact (isOnMemory_exchange _ _ _).frame h
  · exact (isOnMemory_transferMapped t).frame h

theorem transfer_error_outside {e : Fault} (h : Yields (transfer t) b (.error e) b')
    (hw : ¬ b.Serves .mapped t.address) : b' = b := by
  rcases transfer_cases h with rfl | ⟨region, hregion, ⟨-, h⟩ | ⟨hk, -⟩⟩
  · rfl
  · exact exchange_error h
  · exact absurd ⟨region, hregion, hk⟩ hw

/-- A transfer that faults, or stores nothing, disturbs nothing. -/
theorem Represents.transfer_undisturbed (hr : Represents b v) {r : Except Fault Word}
    (h : Yields (transfer t) b r b') (hr₀ : (∃ e, r = .error e) ∨ t.store = none) :
    Undisturbed b b' ∧ ∃ v', Represents b' v' := by
  obtain ⟨r₁, b₁, v', hx, hy, hr', -⟩ := mirrors_transfer hr t
  obtain ⟨rfl, rfl⟩ := h.unique hx
  refine ⟨⟨?_, ?_⟩, v', hr'⟩
  · obtain ⟨m, rfl⟩ := transfer_frame h
    rfl
  · intro q a
    by_cases hw : b.Serves .mapped t.address
    · rw [← hr.memory.byte?, ← hr'.memory.byte?]
      obtain ⟨region, hregion, hk⟩ := hw
      rcases hr₀ with ⟨e, rfl⟩ | hs
      · rcases Virtual.Bus.transfer_window (hr.regions ▸ hregion) hk hy with
          ⟨_, -, rfl⟩ | ⟨m, hm, rfl⟩
        · rfl
        · obtain ⟨v₁, hp, ⟨_, -, -, rfl⟩ | ⟨-, hok, -⟩⟩ := Virtual.transferMapped_allows hm
          · exact (hp.unseen hr.memory.isFresh).bytes q a
          · cases hok
      · exact Virtual.Bus.transfer_load hs hr.memory.isFresh hy q a
    · rcases hr₀ with ⟨e, rfl⟩ | hs
      · rw [transfer_error_outside h hw]
      · rw [← hr.memory.byte?, ← hr'.memory.byte?]
        exact Virtual.Bus.transfer_load hs hr.memory.isFresh hy q a

end Bus

/-! ## Accesses in a run -/

def Operation.transfer? : Operation → Option Transfer
  | read address width => some (.read address width)
  | fetch address => some (.fetch address)
  | write address width value | swap address width value => some (.write address width value)
  | _ => none

theorem Operation.step_error {op : Operation} {t : Transfer} (ht : op.transfer? = some t)
    {b b' : Bus} {e : Fault} (h : Operation.Step op b (.error e) b') :
    Yields (Bus.transfer t) b (.error e) b' := by
  have hmap : ∀ {α β : Type} {x : OnBus α} {g : α → β}, Yields (g <$> x) b (.error e) b' →
      Yields x b (.error e) b' := by
    intro α β x g h
    obtain ⟨r, hr, hx⟩ := h.of_map
    cases r with
    | ok a => cases hr
    | error e' =>
      cases hr
      exact hx
  cases op with
  | read | fetch | swap =>
    cases ht
    exact hmap h
  | write =>
    cases ht
    exact hmap (hmap h)
  | _ => cases ht

section
variable {ram : Ram} {rom : Rom} {disk : Disk} {window : Word × Word} {ranges : PageRanges}
    {b b' b'' : Bus} {es : List (Event Bus HostOperation Answer)}

/-- In every state of a run an access that faults has changed no byte of ROM and none that a process
finds, and outside of the window nothing at all. -/
theorem Bus.accesses_atomic (hb : Bus.ofDevices ram rom disk window ranges = .ok b)
    (hdisk : disk.base = 0) (hrun : Run HostOperation.Step b es b')
    (hpids : creations es < 2 ^ 32 - 1)
    (hcounts : ∀ e ∈ es, PagedMemory.WithinCounts e.state.memory) {op : Operation} {t : Transfer}
    (ht : op.transfer? = some t) {e : Fault} (hstep : Operation.Step op b' (.error e) b'') :
    b''.rom = b'.rom ∧ (∀ q a, b''.memory.byte? q a = b'.memory.byte? q a) ∧
      (¬ b'.Serves .mapped t.address → b'' = b') := by
  obtain ⟨v, hr⟩ := represents_of_run hb hdisk hrun hpids hcounts
  have htransfer := Operation.step_error ht hstep
  obtain ⟨hsame, -⟩ := hr.transfer_undisturbed htransfer (.inl ⟨e, rfl⟩)
  exact ⟨hsame.rom, hsame.bytes, transfer_error_outside htransfer⟩

end

/-! ## One writer

A process with one writable page, whose neighbour is not mapped.
-/

namespace OneWriter

open PagedMemory TwoReaders

def owning : Bus := bus (mappedAs disk ram .readWrite)

def events : List (Event Bus HostOperation Answer) :=
  [⟨.bus (.paging .beginProcess), .ok (.process 1), bus (begun disk ram)⟩,
    ⟨.bus (.paging (.addPage 0x400 .readWrite false)), .ok .done, owning⟩]

theorem run : Run HostOperation.Step (bus (start disk ram)) events owning := by
  have hadd : (PagingOperation.addPage 0x400 .readWrite false).Step (begun disk ram) (.ok .done)
      (mappedAs disk ram .readWrite) := step_addPageAs disk ram rfl ram_fits.1 ram_fits.2
  refine .next ?_ (.next ?_ (.done _))
  · exact Bus.onMemory_ok (b := bus (start disk ram)) (step_begin disk ram)
  · exact Bus.onMemory_ok (b := bus (begun disk ram)) hadd

theorem withinCounts : ∀ e ∈ events, WithinCounts e.state.memory := by
  intro e he
  apply withinCounts_of_size
  simp only [events, List.mem_cons, List.not_mem_nil, or_false] at he
  rcases he with rfl | rfl
  · exact Nat.zero_le _
  · exact (by decide : 1 ≤ maxRefs)

/-- A store across the end of the page faults at the neighbour. -/
theorem step_write (disk : Disk) (ram : Ram) :
    ∃ b, Operation.Step (.write 0x400FFE .word 0xFFFFFFFF)
    (bus (mappedAs disk ram .readWrite)) (.error (.pageFault 0x401001 .write)) b := ⟨_, rfl⟩

theorem atomic :
    ∃ b, Operation.Step (.write 0x400FFE .word 0xFFFFFFFF) owning
      (.error (.pageFault 0x401001 .write)) b ∧ b.rom = owning.rom ∧
      (∀ q a, b.memory.byte? q a = owning.memory.byte? q a) ∧
      (¬ owning.Serves .mapped 0x400FFE → b = owning) := by
  obtain ⟨b, hstep⟩ := step_write disk ram
  exact ⟨b, hstep,
    Bus.accesses_atomic bus_ofDevices rfl run (by decide : 1 < 2 ^ 32 - 1) withinCounts rfl hstep⟩

end OneWriter

end PagedMachine

import PagedMachine.Proofs.Twins

/-!
# User programs and kernel memory

A user program learns nothing about kernel memory and does nothing to it, as long as
it keeps to addresses that the RAM region does not serve. Two machines that look
alike give it the same answers and look alike again, and on each of them every kernel
page stays where it is, with the bytes it has.
-/

namespace PagedMachine

namespace Bus

open PagedMemory (KernelKept)

variable {α β : Type} {b b₁ b₂ c₁ c₂ : Bus} {m₁ m₂ : PagedMemory} {t : Transfer}

/-! ## Two machines in step -/

/-- The machines differ at most in the bytes of kernel frames and of slots where no user page is. -/
structure Alike (b₁ b₂ : Bus) : Prop where
  memory : PagedMemory.Alike b₁.memory b₂.memory
  rom : b₂.rom = b₁.rom
  regions : b₂.regions = b₁.regions
  privilege : b₂.privilege = b₁.privilege

theorem Alike.eq (h : Alike b₁ b₂) : b₂ = { b₁ with memory := b₂.memory } := by
  rw [← h.rom, ← h.regions, ← h.privilege]

def Concurs (y : OnBus α) (b₁ b₂ : Bus) : Prop :=
  ∃ r m₁ m₂, Yields y b₁ r { b₁ with memory := m₁ } ∧ Yields y b₂ r { b₂ with memory := m₂ } ∧
    PagedMemory.Twins m₁ m₂ ∧ KernelKept b₁.memory m₁ ∧ KernelKept b₂.memory m₂

theorem Concurs.of_run {x y : OnBus α} (h : Concurs y b₁ b₂) (h₁ : x.run b₁ = y.run b₁)
    (h₂ : x.run b₂ = y.run b₂) : Concurs x b₁ b₂ := by
  obtain ⟨r, m₁, m₂, hy₁, hy₂, hm⟩ := h
  exact ⟨r, m₁, m₂, hy₁.of_run h₁, hy₂.of_run h₂, hm⟩

theorem Concurs.map {x : OnBus α} (h : Concurs x b₁ b₂) (g : α → β) : Concurs (g <$> x) b₁ b₂ := by
  obtain ⟨r, m₁, m₂, hx₁, hx₂, hm⟩ := h
  exact ⟨r.map g, m₁, m₂, hx₁.map g, hx₂.map g, hm⟩

theorem concurs_onMemory {x : Paged α} (h : PagedMemory.Concurs x b₁.memory b₂.memory) :
    Concurs (onMemory x) b₁ b₂ := by
  obtain ⟨r, m₁, m₂, hx₁, hx₂, hm⟩ := h
  refine ⟨r, m₁, m₂, ?_, ?_, hm⟩
  · cases r with
    | ok a => exact onMemory_ok hx₁
    | error e => exact onMemory_error hx₁
  · cases r with
    | ok a => exact onMemory_ok hx₂
    | error e => exact onMemory_error hx₂

theorem concurs_outcome (h : PagedMemory.Twins b₁.memory b₂.memory) (r : Except Fault α) :
    Concurs (outcome r) b₁ b₂ :=
  ⟨r, _, _, yields_outcome r b₁, yields_outcome r b₂, h, .refl _, .refl _⟩

section
variable {region : Region} (hregion : b.regions.regionOf? t.address = some region)
include hregion

theorem transfer_overrun (hholds : ¬ region.holds t.address t.width = true) :
    (transfer t).run b = (throw (.memoryOutOfBounds t.address) : OnBus Word).run b := by
  rw [transfer, get_bind, hregion]
  dsimp only
  rw [if_neg hholds]

theorem transfer_held (hholds : region.holds t.address t.width = true) : (transfer t).run b =
    (outcome (region.kind.permit t.access t.address) >>= fun _ =>
      match region.kind with
      | .rom => get >>= fun b => outcome (b.rom.read t.address t.width)
      | .ram => exchange t.address t.width t.store
      | .mapped => transferMapped t).run b := by
  rw [transfer, get_bind, hregion]
  exact congrArg (fun x : OnBus Word => x.run b) (if_pos hholds)

end

theorem concurs_transfer (h : PagedMemory.Twins b.memory m₂) (huser : b.privilege = .user)
    (hout : ¬ b.Serves .ram t.address) : Concurs (transfer t) b { b with memory := m₂ } := by
  have hfault : ∀ e : Fault, Concurs (throw e : OnBus Word) b { b with memory := m₂ } :=
    fun e => concurs_outcome h (.error e)
  cases hregion : b.regions.regionOf? t.address with
  | none =>
    refine (hfault (.memoryOutOfBounds t.address)).of_run ?_ ?_
    · rw [transfer, get_bind, hregion]
    · rw [transfer, get_bind, hregion]
  | some region =>
    by_cases hholds : region.holds t.address t.width = true
    · refine Concurs.of_run ?_ (transfer_held hregion hholds)
        (transfer_held (by exact hregion) hholds)
      cases hpermit : region.kind.permit t.access t.address with
      | error e =>
        exact (hfault e).of_run (bind_error (outcome_error rfl b))
          (bind_error (outcome_error rfl _))
      | ok _ =>
        refine Concurs.of_run ?_ (bind_ok (outcome_ok rfl b)) (bind_ok (outcome_ok rfl _))
        cases hk : region.kind with
        | rom =>
          exact (concurs_outcome h (b.rom.read t.address t.width)).of_run (get_bind _ b)
            (get_bind _ _)
        | ram => exact absurd ⟨region, hregion, hk⟩ hout
        | mapped =>
          refine Concurs.of_run ?_ (isOnMemory_transferMapped t b) (isOnMemory_transferMapped t _)
          exact huser ▸ concurs_onMemory (h.transferMapped t)
    · exact (hfault _).of_run (transfer_overrun hregion hholds)
        (transfer_overrun (by exact hregion) hholds)

theorem concurs_perform {op : Operation} (ht : op.transfer? = some t)
    (h : Concurs (transfer t) b₁ b₂) : Concurs op.perform b₁ b₂ := by
  cases op with
  | read | fetch | swap =>
    cases ht
    exact h.map _
  | write =>
    cases ht
    exact (h.map _).map _
  | _ => cases ht

/-! ## In every run -/

/-- A host brought the bus here, from devices that were accepted and within the bounds of the
books. -/
def Reached (b : Bus) : Prop :=
  ∃ ram rom disk window ranges start es, Bus.ofDevices ram rom disk window ranges = .ok start ∧
    disk.base = 0 ∧
    Run HostOperation.Step start es b ∧ creations es < 2 ^ 32 - 1 ∧ ∀ e ∈ es,
      PagedMemory.WithinCounts e.state.memory

theorem Reached.sound (h : Reached b) : b.Sound := by
  obtain ⟨ram, rom, disk, window, ranges, start, es, hb, hdisk, hrun, hpids, hcounts⟩ := h
  exact sound_of_run hb hdisk hrun hpids hcounts

def Outside (b : Bus) (op : Operation) : Prop :=
  ∃ t, op.transfer? = some t ∧ ¬ b.Serves .ram t.address

theorem Outside.of_regions {op : Operation} (h : b.Outside op) (hregions : c₁.regions = b.regions) :
    c₁.Outside op := by
  unfold Outside Serves at *
  rwa [hregions]

theorem concurs_access {op : Operation} {r₁ r₂ : Except Fault Answer} (h : Alike b₁ b₂)
    (hs₁ : b₁.Sound) (hs₂ : b₂.Sound) (huser : b₁.privilege = .user) (hop : b₁.Outside op)
    (hstep₁ : op.Step b₁ r₁ c₁) (hstep₂ : op.Step b₂ r₂ c₂) :
    (r₁ = r₂ ∧ Alike c₁ c₂) ∧ (c₁.Sound ∧ c₂.Sound) ∧
    (c₁.regions = b₁.regions ∧ c₁.privilege = b₁.privilege) ∧
      KernelKept b₁.memory c₁.memory ∧ KernelKept b₂.memory c₂.memory := by
  obtain ⟨t, ht, hout⟩ := hop
  have hconcurs : Concurs (transfer t) b₁ b₂ :=
    h.eq ▸ concurs_transfer ⟨h.memory, hs₁, hs₂⟩ huser hout
  obtain ⟨r, m₁, m₂, hx₁, hx₂, hm, hk₁, hk₂⟩ := concurs_perform ht hconcurs
  obtain ⟨rfl, rfl⟩ := hstep₁.unique hx₁
  obtain ⟨rfl, rfl⟩ := hstep₂.unique hx₂
  exact ⟨⟨rfl, hm.alike, h.rom, h.regions, h.privilege⟩, ⟨hm.sound₁, hm.sound₂⟩, ⟨rfl, rfl⟩,
    hk₁, hk₂⟩

/-- The accesses have the same answers in both runs, and no kernel page changes in either. -/
theorem concurs_accesses {es : List (Event Bus Operation Answer)}
    (hrun₁ : Run Operation.Step b₁ es c₁) :
    ∀ {b₂ c₂ : Bus} {fs : List (Event Bus Operation Answer)}, Alike b₁ b₂ → b₁.Sound → b₂.Sound →
      b₁.privilege = .user → (∀ e ∈ es, b₁.Outside e.operation) → Run Operation.Step b₂ fs c₂ →
      fs.map (·.operation) = es.map (·.operation) →
      List.Forall₂ (fun e f => e.answer = f.answer ∧ Alike e.state f.state) es fs ∧
        Along (fun b e => KernelKept b.memory e.state.memory) b₁ es ∧
        Along (fun b e => KernelKept b.memory e.state.memory) b₂ fs := by
  induction hrun₁ with
  | done =>
    intro b₂ c₂ fs _ _ _ _ _ _ hops
    obtain rfl := List.map_eq_nil_iff.mp hops
    exact ⟨.nil, trivial, trivial⟩
  | @next b₁ b₁' _ op r es hfirst₁ _ ih =>
    intro b₂ c₂ fs h hs₁ hs₂ huser hout hrun₂ hops
    cases hrun₂ with
    | done => cases hops
    | @next _ b₂' _ op₂ r₂ fs hfirst₂ hrest₂ =>
      obtain ⟨rfl, hrestOps⟩ := List.cons.inj hops
      -- both machines take one step, after which they are alike and at the same privilege again
      obtain ⟨hsame, ⟨hs₁', hs₂'⟩, ⟨hregions, hprivilege⟩, hk₁, hk₂⟩ :=
        concurs_access h hs₁ hs₂ huser (hout _ List.mem_cons_self) hfirst₁ hfirst₂
      have hout' : ∀ e ∈ es, b₁'.Outside e.operation :=
        fun e he => (hout e (List.mem_cons_of_mem _ he)).of_regions hregions
      obtain ⟨hrest, halong₁, halong₂⟩ :=
        ih hsame.2 hs₁' hs₂' (hprivilege.trans huser) hout' hrest₂ hrestOps
      exact ⟨.cons hsame hrest, ⟨hk₁, halong₁⟩, ⟨hk₂, halong₂⟩⟩

/-- Every operation has an answer, so every list of them has a run. -/
theorem exists_run (ops : List Operation) :
    ∀ b, ∃ es c, Run Operation.Step b es c ∧ es.map (·.operation) = ops := by
  induction ops with
  | nil => exact fun b => ⟨[], b, .done b, rfl⟩
  | cons op ops ih =>
    intro b
    obtain ⟨r, b', hstep⟩ := yields_exists op.perform b
    obtain ⟨es, c, hrun, hops⟩ := ih b'
    exact ⟨⟨op, r, b'⟩ :: es, c, .next hstep hrun, congrArg (op :: ·) hops⟩

/-- Two machines that look alike to a user program give it the same answers, access by access, and
look alike after each. In neither does a kernel page move or change. -/
theorem user_noninterference (h₁ : Reached b₁) (h₂ : Reached b₂) (h : Alike b₁ b₂)
    (huser : b₁.privilege = .user) {es fs : List (Event Bus Operation Answer)}
    (hout : ∀ e ∈ es, b₁.Outside e.operation) (hrun₁ : Run Operation.Step b₁ es c₁)
    (hrun₂ : Run Operation.Step b₂ fs c₂) (hops : fs.map (·.operation) = es.map (·.operation)) :
    List.Forall₂ (fun e f => e.answer = f.answer ∧ Alike e.state f.state) es fs ∧
      Along (fun b e => KernelKept b.memory e.state.memory) b₁ es ∧
      Along (fun b e => KernelKept b.memory e.state.memory) b₂ fs :=
  concurs_accesses hrun₁ h h₁.sound h₂.sound huser hout hrun₂ hops

end Bus

/-! ## A secret

Two machines with a kernel page. On one of them the host has stored a byte there.
-/

namespace KernelPage

open PagedMemory TwoReaders

def asUser (m : PagedMemory) : Bus := { bus m with privilege := .user }

def told (m : PagedMemory) : PagedMemory := { m with ram := m.ram.patch (6 * pageSize) [1] }

def enterUser (m : PagedMemory) : Event Bus HostOperation Answer :=
  ⟨.bus (.setPrivilege .user), .ok .done, asUser m⟩

def quietEvents : List (Event Bus HostOperation Answer) :=
  Bus.hosted ((bus (start disk ram)).pagingEvents (guardedEvents disk ram)) ++
    [enterUser (guarded disk ram)]

def toldEvents : List (Event Bus HostOperation Answer) :=
  Bus.hosted ((bus (start disk ram)).pagingEvents (guardedEvents disk ram)) ++
    [⟨.store 0x10006000 [1], .ok .done, bus (told (guarded disk ram))⟩,
      enterUser (told (guarded disk ram))]

theorem hosted_run : Run HostOperation.Step (bus (start disk ram))
    (Bus.hosted ((bus (start disk ram)).pagingEvents (guardedEvents disk ram)))
    (bus (guarded disk ram)) :=
  Bus.run_hosted
    (Bus.run_pagingEvents (b := bus (start disk ram))
      (guarded_run disk ram ram_fits.1 pages_in_ram))

section
variable {m : PagedMemory} (hfits : 7 * pageSize ≤ m.ram.size)
include hfits

theorem step_tell (hbase : m.ram.base = 0x10000000) :
    (HostOperation.store 0x10006000 [1]).Step (bus m) (.ok .done) (bus (told m)) := by
  have hstore :
      (ByteStore.writeBytes 0x10006000 [1]).run m.ram = .ok () (m.ram.patch (6 * pageSize) [1]) :=
    ByteStore.writeBytes_ok (by rw [hbase]; rfl) (Nat.le_trans (by decide) hfits)
  exact map_ok (Bus.onMemory_ok (b := bus m) (onRam_ok hstore))

theorem byte_told (i : Nat) : (told m).ram.byte i =
    if 6 * pageSize ≤ i ∧ i < 6 * pageSize + 1 then [1].getD (i - 6 * pageSize) 0
    else m.ram.byte i :=
  ByteStore.byte_patch (Nat.le_trans (by decide) hfits) i

theorem byteAt_told : (told m).byteAt (.frame 6) 0 = 1 := by
  have hfirst : (told m).byteAt (.frame 6) 0 = (told m).ram.byte (6 * pageSize) := rfl
  rw [hfirst, byte_told hfits, if_pos (by decide), Nat.sub_self]
  rfl

theorem alike_told (howns : m.kernelPool.owns 6 = true) :
    Bus.Alike (asUser m) (asUser (told m)) where
  memory := by
    refine ⟨rfl, ⟨rfl, size_writeSlice .., fun i hi => ?_⟩, ⟨rfl, rfl, fun _ _ => rfl⟩⟩
    have hkernel : i / pageSize ≠ 6 := hi 6 howns
    refine (byte_told hfits i).trans (if_neg ?_)
    unfold pageSize at *
    omega
  rom := rfl
  regions := rfl
  privilege := rfl

end

theorem guarded_fits : 7 * pageSize ≤ ByteStore.size (guarded disk ram).ram := by
  rw [guarded, ByteStore.size_patch, ByteStore.size_patch, size_ram]
  decide

theorem byte_guarded : (guarded disk ram).ram.byte ((6 : Word).toNat * pageSize + 0) = 0 := by
  have hfits : (6 : Word).toNat * pageSize + pageSize ≤ ByteStore.size (ram.patch 0 zeroPage) := by
    rw [ByteStore.size_patch, size_ram]
    decide
  have hbyte := ByteStore.byte_patch_page hfits length_zeroPage (show 0 < pageSize by decide) 6
  rw [if_pos rfl, getD_zeroPage (by decide)] at hbyte
  exact hbyte

theorem quiet_run :
    Run HostOperation.Step (bus (start disk ram)) quietEvents (asUser (guarded disk ram)) :=
  hosted_run.append (.next rfl (.done _))

theorem told_run :
    Run HostOperation.Step (bus (start disk ram)) toldEvents (asUser (told (guarded disk ram))) :=
  hosted_run.append (.next (step_tell guarded_fits rfl) (.next rfl (.done _)))

theorem mappings_guarded (l : Location) : (guarded disk ram).mappingsOf l ≤ maxRefs :=
  Nat.le_trans (Paging.mappingsOf_le_size _ l) (by decide : 2 ≤ maxRefs)

theorem hosted_withinCounts {last : List (Event Bus HostOperation Answer)}
    (hlast : ∀ e ∈ last, WithinCounts e.state.memory) :
    ∀ e ∈ Bus.hosted ((bus (start disk ram)).pagingEvents (guardedEvents disk ram)) ++ last,
    WithinCounts e.state.memory :=
  List.forall_mem_append.mpr
    ⟨List.forall_mem_map.mpr (List.forall_mem_map.mpr (guarded_withinCounts disk ram)), hlast⟩

theorem quiet_reached : Bus.Reached (asUser (guarded disk ram)) := by
  refine ⟨ram, rom, disk, window, ranges, _, quietEvents, bus_ofDevices, rfl, quiet_run,
    (by decide : 1 < 2 ^ 32 - 1), ?_⟩
  refine hosted_withinCounts fun e he => ?_
  obtain rfl := List.mem_singleton.mp he
  exact mappings_guarded

theorem told_reached : Bus.Reached (asUser (told (guarded disk ram))) := by
  refine ⟨ram, rom, disk, window, ranges, _, toldEvents, bus_ofDevices, rfl, told_run,
    (by decide : 1 < 2 ^ 32 - 1), ?_⟩
  refine hosted_withinCounts fun e he => ?_
  rcases List.mem_pair.mp he with rfl | rfl
  · exact mappings_guarded
  · exact mappings_guarded

def probe : List Operation :=
  [.write 0x400000 .word 7, .read 0x401000 .byte, .swap 0x400000 .byte 1, .fetch 0x401000]

theorem probe_outside : ∀ op ∈ probe, Bus.Outside (asUser (guarded disk ram)) op := by
  have hwindow : ∀ address, (regions.regionOf? address).map (·.kind) = some .mapped →
      ¬ Bus.Serves (asUser (guarded disk ram)) .ram address := by
    rintro address h ⟨region, hregion, hk⟩
    rw [show regions.regionOf? address = some region from hregion, Option.map_some, hk] at h
    cases h
  intro op hop
  simp only [probe, List.mem_cons, List.not_mem_nil, or_false] at hop
  rcases hop with rfl | rfl | rfl | rfl
  all_goals exact ⟨_, rfl, hwindow _ (by decide)⟩

/-- The bytes of the kernel page differ, but the program is answered alike, and the kernel page
stays as it is. -/
theorem secret_kept : byteAt (guarded disk ram) (.frame 6) 0 ≠ byteAt (told (guarded disk ram))
    (.frame 6) 0 ∧ ∃ es fs c₁ c₂, es.map (·.operation) = probe ∧ fs.map (·.operation) = probe ∧
      Run Operation.Step (asUser (guarded disk ram)) es c₁ ∧
      Run Operation.Step (asUser (told (guarded disk ram))) fs c₂ ∧
      List.Forall₂ (fun e f => e.answer = f.answer ∧ Bus.Alike e.state f.state) es fs ∧
      Along (fun b e => KernelKept b.memory e.state.memory) (asUser (guarded disk ram)) es ∧
      Along (fun b e => KernelKept b.memory e.state.memory)
      (asUser (told (guarded disk ram))) fs := by
  refine ⟨?_, ?_⟩
  · have hzero : byteAt (guarded disk ram) (.frame 6) 0 = 0 := byte_guarded
    rw [hzero, byteAt_told guarded_fits]
    decide
  · obtain ⟨es, c₁, hrun₁, hes⟩ := Bus.exists_run probe (asUser (guarded disk ram))
    obtain ⟨fs, c₂, hrun₂, hfs⟩ := Bus.exists_run probe (asUser (told (guarded disk ram)))
    have hout : ∀ e ∈ es, Bus.Outside (asUser (guarded disk ram)) e.operation :=
      fun e he => probe_outside _ (hes ▸ List.mem_map_of_mem he)
    exact ⟨es, fs, c₁, c₂, hes, hfs, hrun₁, hrun₂,
      Bus.user_noninterference quiet_reached told_reached
      (alike_told guarded_fits rfl) rfl hout hrun₁ hrun₂ (hfs.trans hes.symm)⟩

end KernelPage

end PagedMachine

import PagedMachine.Proofs.MachineRuns

/-!
# Steps that fault

A step that faults commits nothing: the same step can be tried again from what a
program sees as the same state. Only the fault is counted and kept.
-/

namespace PagedMachine

def ExecutionCounters.faults (c : ExecutionCounters) : FaultClass → Counter
  | .decode => c.decode
  | .memory => c.memory
  | .paging => c.paging
  | .resource => c.resource
  | .consistency => c.consistency
  | .process => c.process

theorem ExecutionCounters.faults_record (c : ExecutionCounters) (f : Fault) (k : FaultClass) :
    (c.record f).faults k = if k = f.kind.faultClass then (c.faults k).succ else c.faults k := by
  unfold record
  cases f.kind.faultClass <;> cases k <;> rfl

theorem ExecutionCounters.record_frame (c : ExecutionCounters) (f : Fault) :
    (c.record f).instructions = c.instructions ∧ (c.record f).cycles = c.cycles ∧
      (c.record f).lastFault = some f := by
  unfold record
  cases f.kind.faultClass <;> exact ⟨rfl, rfl, rfl⟩

/-- From one machine to the other there is the fault and nothing else that shows. -/
structure Machine.FaultsTo (m : Machine) (f : Fault) (m' : Machine) : Prop where
  registers : m'.registers = m.registers
  rom : m'.bus.rom = m.bus.rom
  bytes : ∀ q a, m'.bus.memory.byte? q a = m.bus.memory.byte? q a
  instructions : m'.counters.instructions = m.counters.instructions
  cycles : m'.counters.cycles = m.counters.cycles
  /-- One more under its class, unless the counter is full. -/
  counted : ∀ k, (m'.counters.faults k).toNat =
    if k = f.kind.faultClass then min ((m.counters.faults k).toNat + 1) (2 ^ 64 - 1)
    else (m.counters.faults k).toNat
  last : m'.counters.lastFault = some f
  runState : m'.runState = .faulted f

theorem Machine.step_fault {m m' : Machine} {v : Virtual.Bus} (hr : m.bus.Represents v) {f : Fault}
    (h : m.step = (.fault f, m')) : m.FaultsTo f m' := by
  rcases step_cases m with hstep | ⟨b', ⟨e, -, hstep⟩ | ⟨f', hx, hstep⟩⟩
  · rw [hstep] at h
    cases h
  · rw [hstep] at h
    exact absurd (congrArg Prod.fst h) (retire_ne_fault _ _ f)
  · rw [hstep] at h
    cases h
    have hsame := hr.executeNext_undisturbed hx
    obtain ⟨hinstructions, hcycles, hlast⟩ := m.counters.record_frame f
    refine ⟨rfl, hsame.rom, hsame.bytes, hinstructions, hcycles, fun k => ?_, hlast, rfl⟩
    dsimp only
    rw [ExecutionCounters.faults_record]
    split
    · exact Counter.toNat_add _ 1
    · rfl

/-- In every state of a run a step that faults commits nothing. -/
theorem Machine.faulting_step_commits_nothing {config : Configuration} {ram : Ram} {rom : Rom}
    {disk : Disk} {m m' m'' : Machine} {es : List (Event Machine MachineOperation Answer)}
    (hm : ofDevices config ram rom disk = .ok m) (hdisk : disk.base = 0)
    (hrun : Run MachineOperation.Step m es m')
    (hpids : config.creations + creations es < 2 ^ 32 - 1)
    (hcounts : ∀ e ∈ es, PagedMemory.WithinCounts e.state.bus.memory) {f : Fault}
    (hstep : m'.step = (.fault f, m'')) : m'.FaultsTo f m'' := by
  obtain ⟨v, hr⟩ := represents_of_run hm hdisk hrun hpids hcounts
  exact step_fault hr hstep

/-! ## A torn store

`str x0, [x1], #4` in ROM, on a machine whose process has one writable page, with
the address two bytes before the end of it.
-/

namespace TornStore

open PagedMemory TwoReaders

def program : Rom := .ofBytes 0 [0x04, 0x70, 0x80, 0x55]

def layout : RegionMap :=
  ⟨[⟨.rom, 0, 3⟩, ⟨.mapped, 0x400000, 0x7FFFFF⟩, ⟨.ram, 0x10000000, 0x10007FFF⟩]⟩

def configuration : Configuration := ⟨window, ranges, 0, none, .kernel, true⟩

def machine (m : PagedMemory) (s : Registers) : Machine :=
  ⟨configuration, s, .running, ⟨m, program, layout, .kernel⟩, .zero⟩

def atReset : Registers := { Registers.zero with pc := 0x55807004 }

def atStore : Registers := { Registers.zero with pc := 0 }

def x0 : Register := ⟨0, by decide⟩

def x1 : Register := ⟨1, by decide⟩

def ready : Machine := machine (mappedAs disk TwoReaders.ram .readWrite) (atStore.set x1 0x400FFE)

def events : List (Event Machine MachineOperation Answer) :=
  [⟨.host (.bus (.paging (.addPage 0x400 .readWrite false))), .ok .done,
      machine (mappedAs disk TwoReaders.ram .readWrite) atReset⟩,
    ⟨.setPc 0, .ok .done, machine (mappedAs disk TwoReaders.ram .readWrite) atStore⟩,
    ⟨.setRegister x1 0x400FFE, .ok .done, ready⟩]

theorem ofRanges : RegionMap.ofRanges (program.base, UInt32.ofNat program.size)
    (TwoReaders.ram.base, UInt32.ofNat TwoReaders.ram.size) window = .ok layout := by
  rw [size_ram]
  exact ofRanges_below 4 (by decide) (by decide)

theorem program_word : program.read 0 .word = .ok 0x55807004 := rfl

theorem regionOf_zero : layout.regionOf? 0 = some ⟨.rom, 0, 3⟩ := rfl

theorem holds_zero : (⟨.rom, 0, 3⟩ : Region).holds 0 .word = true := rfl

/-- The word of such a ROM can be fetched, and read. -/
theorem transfer_first {m : PagedMemory} {rom : Rom} {privilege : Privilege} {t : Transfer}
    {w : Word} (hword : rom.read 0 .word = .ok w) (haddress : t.address = 0)
    (hwidth : t.width = .word) (hpermit : RegionKind.permit .rom t.access t.address = .ok ()) :
    Yields (Bus.transfer t) ⟨m, rom, layout, privilege⟩ (.ok w) ⟨m, rom, layout, privilege⟩ := by
  rw [← hword, ← haddress, ← hwidth]
  have hregion : layout.regionOf? t.address = some ⟨.rom, 0, 3⟩ := haddress ▸ regionOf_zero
  have hholds : (⟨.rom, 0, 3⟩ : Region).holds t.address t.width = true := by
    rw [haddress, hwidth]
    exact holds_zero
  exact Bus.transfer_rom hregion rfl hholds hpermit

theorem begin_ok (disk : Disk) (ram : Ram) :
    beginProcess (start disk ram) = .ok 1 (begun disk ram) := rfl

theorem ofDevices : Machine.ofDevices configuration TwoReaders.ram program disk =
    .ok (machine (begun disk TwoReaders.ram) atReset) := by
  have hreset : Machine.reset (machine (begun disk TwoReaders.ram) .zero) =
      machine (begun disk TwoReaders.ram) atReset := by
    have hread : Bus.read 0 .word ⟨begun disk TwoReaders.ram, program, layout, .kernel⟩ =
        .ok 0x55807004 ⟨begun disk TwoReaders.ram, program, layout, .kernel⟩ :=
      transfer_first program_word rfl rfl rfl
    unfold Machine.reset
    simp only [machine, configuration, hread, atReset]
  have hbuilt := Machine.ofDevices_of_begin configuration
    (bus_ofDevices_of_layout ofRanges) rfl (begin_ok disk TwoReaders.ram)
  exact hbuilt.trans (congrArg Except.ok hreset)

theorem run :
    Run MachineOperation.Step (machine (begun disk TwoReaders.ram) atReset) events ready := by
  have hadd :
      (PagingOperation.addPage 0x400 .readWrite false).Step (begun disk TwoReaders.ram) (.ok .done)
      (mappedAs disk TwoReaders.ram .readWrite) :=
        step_addPageAs disk TwoReaders.ram rfl ram_fits.1 ram_fits.2
  refine .next ?_ (.next ?_ (.next ?_ (.done _)))
  · exact Machine.onBus_run (m := machine (begun disk TwoReaders.ram) atReset)
      (Bus.onMemory_ok (b := ⟨begun disk TwoReaders.ram, program, layout, .kernel⟩) hadd)
  · rfl
  · rfl

theorem withinCounts : ∀ e ∈ events, WithinCounts e.state.bus.memory := by
  intro e he
  apply withinCounts_of_size
  simp only [events, List.mem_cons, List.not_mem_nil, or_false] at he
  rcases he with rfl | rfl | rfl <;> exact (by decide : 1 ≤ maxRefs)

def store : Instruction := ⟨.str, .memory .postIndexed x0 x1 (.immediate 4) true⟩

def afterStore (s : Registers) : Effects :=
  { Effects.next s .store with writes := [(x1, s.get x1 + 4)] }

theorem decode_store : Instruction.decodeAt 0x55807004 0 = .ok store := rfl

theorem plan_store (s : Registers) : store.opcode.unit.plan? store s =
    some (.access (.write (s.get x1) .word (s.get x0)) fun _ => afterStore s) := rfl

theorem execute_store (s : Registers) : store.execute s =
    (fun _ => afterStore s) <$> Bus.transfer (.write (s.get x1) .word (s.get x0)) := rfl

/-- The instruction is found, and ends as its store does. -/
theorem executeNext_store {m : PagedMemory} {privilege : Privilege} {s : Registers}
    {r : Except Fault Word} {b : Bus} {address value : Word} (hpc : s.pc = 0)
    (haddress : s.get x1 = address) (hvalue : s.get x0 = value)
    (h : Yields (Bus.transfer (.write address .word value)) ⟨m, program, layout, privilege⟩ r b) :
    Yields (executeNext s) ⟨m, program, layout, privilege⟩ (r.map fun _ => afterStore s) b := by
  have hfetch : Yields (Bus.fetch 0) ⟨m, program, layout, privilege⟩ (.ok 0x55807004)
      ⟨m, program, layout, privilege⟩ := transfer_first program_word rfl rfl rfl
  have hdecode :=
    yields_outcome (Instruction.decodeAt 0x55807004 0) (⟨m, program, layout, privilege⟩ : Bus)
  rw [decode_store] at hdecode
  unfold executeNext
  rw [hpc]
  refine hfetch.bind_ok (hdecode.bind_ok ?_)
  rw [execute_store, haddress, hvalue]
  exact h.map _

theorem execute_torn (disk : Disk) (ram : Ram) : ∃ b, Yields (executeNext (atStore.set x1 0x400FFE))
    ⟨mappedAs disk ram .readWrite, program, layout, .kernel⟩
    (.error (.pageFault 0x401001 .write)) b := by
  obtain ⟨b, hstore⟩ : ∃ b, Yields (Bus.transfer (.write 0x400FFE .word 0))
      ⟨mappedAs disk ram .readWrite, program, layout, .kernel⟩
        (.error (.pageFault 0x401001 .write)) b := ⟨_, rfl⟩
  have hnext := executeNext_store (s := atStore.set x1 0x400FFE) rfl rfl rfl hstore
  exact ⟨b, hnext⟩

/-- Neither the bytes of the first page nor the base register have changed. -/
theorem commits_nothing : ∃ m, ready.step = (.fault (.pageFault 0x401001 .write), m) ∧
    ready.FaultsTo (.pageFault 0x401001 .write) m := by
  obtain ⟨b, hx⟩ := execute_torn disk TwoReaders.ram
  have hstep := Machine.step_error (m := ready) nofun hx
  exact ⟨_, hstep,
    Machine.faulting_step_commits_nothing ofDevices rfl run (by decide : 1 + 0 < 2 ^ 32 - 1)
    withinCounts hstep⟩

end TornStore

end PagedMachine

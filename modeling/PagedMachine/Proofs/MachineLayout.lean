import PagedMachine.Proofs.Endurance
import PagedMachine.Proofs.MachineRuns

/-!
# The layout of a machine

Whatever a host does with a machine, its configuration stays, and so do the regions
of its bus and the places of its devices. So the regions are those that the window
and the places of RAM and ROM gave when the machine was made.
-/

namespace PagedMachine

def PagedMemory.RamAt (base : Word) (size : Nat) (m : PagedMemory) : Prop :=
  m.ram.base = base ∧ m.ram.size = size

theorem PagedMemory.stable_ramAt (base : Word) (size : Nat) : Stable (RamAt base size) where
  ram _ _ h hbase hsize := ⟨hbase.trans h.1, hsize.trans h.2⟩
  disk _ _ h _ _ := h
  pool _ _ _ h _ := h
  books _ _ _ _ _ h := h
  processes _ _ _ h _ := h

theorem Bus.keeps_executeNext {I : PagedMemory → Prop} (hI : PagedMemory.Enduring I) {b₀ : Bus}
    (s : Registers) : Keeps (Within I b₀) (executeNext s) := by
  refine (keeps_transfer hI _).bind fun w => (keeps_outcome _).bind fun i => ?_
  unfold Instruction.execute ExecutionUnit.run
  split
  · rename_i plan _
    cases plan with
    | done e => exact keeps_pure e
    | access t effects => exact (keeps_transfer hI t).map effects
  · exact keeps_throw _

namespace Machine

def Laid (m : Machine) : Prop :=
  RegionMap.ofRanges (m.bus.rom.base, UInt32.ofNat m.bus.rom.size)
    (m.bus.memory.ram.base, UInt32.ofNat m.bus.memory.ram.size) m.config.window = .ok m.bus.regions

structure Within (m₀ m : Machine) : Prop where
  config : m.config = m₀.config
  bus : Bus.Within (PagedMemory.RamAt m₀.bus.memory.ram.base m₀.bus.memory.ram.size) m₀.bus m.bus

variable {m₀ m m' : Machine}

theorem Within.refl (m : Machine) : Within m m := ⟨rfl, ⟨rfl, rfl⟩, rfl, rfl, rfl⟩

theorem Within.laid (h : Within m₀ m) (hm₀ : m₀.Laid) : m.Laid := by
  unfold Laid
  rw [h.config, h.bus.romBase, h.bus.romSize, h.bus.memory.1, h.bus.memory.2, h.bus.regions]
  exact hm₀

theorem keeps_onBus {α : Type} {x : OnBus α}
    (hx : Keeps
      (Bus.Within (PagedMemory.RamAt m₀.bus.memory.ram.base m₀.bus.memory.ram.size) m₀.bus) x) :
    Keeps (Within m₀) (onBus x) :=
  keeps_focus_of fun m r b h hstep => ⟨h.config, hx m.bus r b h.bus hstep⟩

theorem retire_config (m : Machine) (e : Effects) : (retire m e).2.config = m.config := by
  unfold retire
  dsimp only
  split
  · rfl
  · rfl
  · split <;> rfl

theorem Within.step (h : Within m₀ m) : Within m₀ m.step.2 := by
  have hbus : ∀ {r b'}, Yields (executeNext m.registers) m.bus r b' → Bus.Within _ m₀.bus b' :=
    fun hx =>
      Bus.keeps_executeNext (PagedMemory.stable_ramAt _ _).enduring m.registers m.bus _ _ h.bus hx
  rcases step_cases m with hstep | ⟨b', ⟨e, hx, hstep⟩ | ⟨f, hx, hstep⟩⟩
  · rwa [hstep]
  · rw [hstep]
    refine ⟨(retire_config _ e).trans h.config, ?_⟩
    rw [retire_bus]
    exact hbus hx
  · rw [hstep]
    exact ⟨h.config, hbus hx⟩

theorem Within.steps (h : Within m₀ m) (budget : Nat) : Within m₀ (steps budget m).2 :=
  steps_preserve (fun _ => Within.step) budget h

theorem Within.reset (h : Within m₀ m) : Within m₀ m.reset := by
  have hI := PagedMemory.stable_ramAt m₀.bus.memory.ram.base m₀.bus.memory.ram.size
  have hbus : Bus.Within _ m₀.bus { m.bus with privilege := m.config.privilege } :=
    ⟨h.bus.memory, h.bus.regions, h.bus.romBase, h.bus.romSize⟩
  have hread :=
    fun r b' => Bus.keeps_transfer hI.enduring (.read m.config.resetVector .word) _ r b' hbus
  unfold Machine.reset
  dsimp only
  split <;> rename_i hx
  · exact ⟨h.config, hread (.ok _) _ hx⟩
  · exact ⟨h.config, hread (.error _) _ hx⟩

theorem keeps_change {f : Machine → Machine} (hf : ∀ m, Within m₀ m → Within m₀ (f m)) :
    Keeps (Within m₀) (MachineOperation.change f) :=
  (keeps_modify hf).bind fun _ => keeps_pure _

theorem keeps_within (op : MachineOperation) : Keeps (Within m₀) op.perform := by
  have hI := PagedMemory.stable_ramAt m₀.bus.memory.ram.base m₀.bus.memory.ram.size
  cases op with
  | host op => exact keeps_onBus (Bus.keeps_host hI.enduring fun _ _ => hI.step fun _ _ h => h)
  | step => exact keeps_change fun _ => Within.step
  | run budget => exact keeps_change fun _ h => h.steps budget
  | reset => exact keeps_change fun _ => Within.reset
  | loadProgram base words =>
    refine Keeps.map ((keeps_onBus (Bus.keeps_loadImage hI.enduring base _)).bind fun _ => ?_) _
    exact keeps_modify fun _ h => ⟨h.config, h.bus⟩
  | setRegister | setPc | setFlags | setFlag => exact keeps_change fun _ h => ⟨h.config, h.bus⟩

theorem laid_initial {config : Configuration} {ram : Ram} {rom : Rom} {disk : Disk}
    (hm : ofDevices config ram rom disk = .ok m) : m.Laid := by
  unfold ofDevices at hm
  cases hbus : Bus.ofDevices ram rom disk config.window config.ranges with
  | error e =>
    rw [hbus] at hm
    cases hm
  | ok b =>
    rw [hbus] at hm
    obtain rfl := Except.ok.inj hm
    obtain ⟨regions, hregions, -, rfl⟩ := Bus.ofDevices_ok hbus
    have hbegin : PagedMemory.beginProcess ⟨Paging.unmapped disk config.ranges, ram⟩ = .ok _ _ :=
      PagedMemory.beginProcess_begunNext
    have hbegun : ∀ memory : PagedMemory, memory.ram = ram →
        (reset ⟨config, .zero, .running, ⟨memory, rom, regions, .kernel⟩, .zero⟩).Laid := by
      rintro memory rfl
      exact (Within.refl _).reset.laid hregions
    rw [hbegin]
    dsimp only
    split
    · exact hbegun _ rfl
    · exact hbegun _ rfl

/-- A host brought the machine here, from devices that were accepted and within the bounds of the
books. -/
def Reached (m : Machine) : Prop :=
  ∃ config ram rom disk start es, ofDevices config ram rom disk = .ok start ∧ disk.base = 0 ∧
    Run MachineOperation.Step start es m ∧ config.creations + creations es < 2 ^ 32 - 1 ∧
    ∀ e ∈ es, PagedMemory.WithinCounts e.state.bus.memory

theorem Reached.represents (h : m.Reached) : ∃ v, m.bus.Represents v := by
  obtain ⟨config, ram, rom, disk, start, es, hm, hdisk, hrun, hpids, hcounts⟩ := h
  exact represents_of_run hm hdisk hrun hpids hcounts

theorem Reached.laid (h : m.Reached) : m.Laid := by
  obtain ⟨config, ram, rom, disk, start, es, hm, hdisk, hrun, -⟩ := h
  exact (hrun.keeps (fun op m r m' => keeps_within op m r m') (.refl start)).laid (laid_initial hm)

end Machine

end PagedMachine

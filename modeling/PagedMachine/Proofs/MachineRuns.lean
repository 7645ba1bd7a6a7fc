import PagedMachine.Machine.Basic
import PagedMachine.Proofs.Atomicity

/-!
# Runs of the machine

A step of the machine is a fetch and at most one more transfer, then a commitment
that leaves the bus alone. So whatever a host does with a machine, the bus keeps
representing one over virtual memory.
-/

namespace PagedMachine

/-! ## What executing does to the bus -/

section
variable {b b' : Bus} {v : Virtual.Bus} {s : Registers}

theorem Plan.run_cases {plan : Plan} {r : Except Fault Effects} (h : Yields plan.run b r b') :
    (∃ e, r = .ok e ∧ b' = b) ∨ ∃ t r₁ effects, Yields (Bus.transfer t) b r₁ b' ∧
    r = r₁.map effects := by
  cases plan with
  | done e =>
    obtain ⟨rfl, rfl⟩ := Yields.of_pure h
    exact .inl ⟨e, rfl, rfl⟩
  | access t effects =>
    obtain ⟨r₁, rfl, hx⟩ := Yields.of_map (g := effects) h
    exact .inr ⟨t, r₁, effects, hx, rfl⟩

theorem Instruction.execute_cases {i : Instruction} {r : Except Fault Effects}
    (h : Yields (i.execute s) b r b') : b' = b ∨ ∃ t r₁ effects, Yields (Bus.transfer t) b r₁ b' ∧
    r = r₁.map effects := by
  unfold execute ExecutionUnit.run at h
  split at h
  · rcases Plan.run_cases h with ⟨_, -, hb⟩ | haccess
    · exact .inl hb
    · exact .inr haccess
  · exact .inl h.of_throw.2

/-- A fetch, and then nothing or one transfer, which faults when executing does. -/
theorem executeNext_cases {r : Except Fault Effects} (h : Yields (executeNext s) b r b') :
    (∃ e, r = .error e ∧ Yields (Bus.fetch s.pc) b (.error e) b') ∨
      ∃ w b₁, Yields (Bus.fetch s.pc) b (.ok w) b₁ ∧
        (b' = b₁ ∨ ∃ t r₁ effects, Yields (Bus.transfer t) b₁ r₁ b' ∧ r = r₁.map effects) := by
  rcases h.of_bind with ⟨w, b₁, hfetch, hrest⟩ | ⟨e, hr, hfetch⟩
  · refine .inr ⟨w, b₁, hfetch, ?_⟩
    rcases hrest.of_bind with ⟨i, b₂, hdecode, hexecute⟩ | ⟨e, -, hdecode⟩
    · obtain ⟨-, rfl⟩ := hdecode.of_outcome
      exact Instruction.execute_cases hexecute
    · exact .inl hdecode.of_outcome.2
  · exact .inl ⟨e, hr, hfetch⟩

end

/-- What is represented stays so, and no process is made. -/
def Bus.Kept (b b' : Bus) : Prop :=
  (∃ v', Represents b' v') ∧ b'.memory.nextPid = b.memory.nextPid

namespace Bus

variable {b b' b'' : Bus} {v : Virtual.Bus}

theorem Kept.trans (h : Kept b b') (h' : Kept b' b'') : Kept b b'' := ⟨h'.1, h'.2.trans h.2⟩

theorem Represents.transfer_kept (hr : Represents b v) {t : Transfer} {r : Except Fault Word}
    (h : Yields (transfer t) b r b') : Kept b b' := by
  obtain ⟨r₁, b₁, v', hx, hy, hr', -⟩ := mirrors_transfer hr t
  obtain ⟨rfl, rfl⟩ := h.unique hx
  refine ⟨⟨v', hr'⟩, ?_⟩
  rw [← hr'.memory.nextPid, ← hr.memory.nextPid, (Virtual.Bus.transfer_allows hy).1.nextPid]

theorem Represents.executeNext_kept (hr : Represents b v) {s : Registers} {r : Except Fault Effects}
    (h : Yields (executeNext s) b r b') : Kept b b' := by
  rcases executeNext_cases h with ⟨e, -, hfetch⟩ | ⟨w, b₁, hfetch, rfl | ⟨t, r₁, effects, ht, -⟩⟩
  · exact hr.transfer_kept hfetch
  · exact hr.transfer_kept hfetch
  · have hkept := hr.transfer_kept hfetch
    obtain ⟨v₁, hr₁⟩ := hkept.1
    exact hkept.trans (hr₁.transfer_kept ht)

/-- An instruction that faults, in its fetch or in its transfer, disturbs nothing. -/
theorem Represents.executeNext_undisturbed (hr : Represents b v) {s : Registers} {e : Fault}
    (h : Yields (executeNext s) b (.error e) b') : Undisturbed b b' := by
  rcases executeNext_cases h with ⟨_, -, hfetch⟩ | ⟨w, b₁, hfetch, rfl | ⟨t, r₁, effects, ht, hr₁⟩⟩
  · exact (hr.transfer_undisturbed hfetch (.inr rfl)).1
  · exact (hr.transfer_undisturbed hfetch (.inr rfl)).1
  · obtain ⟨hfetched, v₁, hv₁⟩ := hr.transfer_undisturbed hfetch (.inr rfl)
    cases r₁ with
    | ok w => cases hr₁
    | error e' => exact hfetched.trans (hv₁.transfer_undisturbed ht (.inl ⟨e', rfl⟩)).1

end Bus

/-! ## Steps -/

namespace Machine

variable {m m' : Machine} {out : StepOutcome}

theorem onBus_run {α : Type} {x : OnBus α} {r : Except Fault α} {b' : Bus}
    (h : Yields x m.bus r b') : Yields (onBus x) m r { m with bus := b' } := by
  cases r with
  | ok a => exact focus_ok (s := m) h
  | error e => exact focus_error (s := m) h

theorem step_ok {e : Effects} {b' : Bus} (hrunning : m.runState ≠ .halted)
    (h : Yields (executeNext m.registers) m.bus (.ok e) b') :
    m.step = retire { m with bus := b' } e := by
  have hrun : onBus (executeNext m.registers) m = .ok e { m with bus := b' } := onBus_run h
  rw [step, if_neg hrunning, hrun]

theorem step_error {f : Fault} {b' : Bus} (hrunning : m.runState ≠ .halted)
    (h : Yields (executeNext m.registers) m.bus (.error f) b') :
    m.step = (.fault f,
      { m with bus := b', counters := m.counters.record f, runState := .faulted f }) := by
  have hrun : onBus (executeNext m.registers) m = .error f { m with bus := b' } := onBus_run h
  rw [step, if_neg hrunning, hrun]

/-- Everything a step can do. -/
theorem step_cases (m : Machine) :
    m.step = (.halted, m) ∨ ∃ b',
      (∃ e, Yields (executeNext m.registers) m.bus (.ok e) b' ∧
        m.step = retire { m with bus := b' } e) ∨
        ∃ f, Yields (executeNext m.registers) m.bus (.error f) b' ∧ m.step =
          (.fault f,
            { m with bus := b', counters := m.counters.record f, runState := .faulted f }) := by
  by_cases hhalted : m.runState = .halted
  · exact .inl (by rw [step, if_pos hhalted])
  · obtain ⟨r, b', h⟩ := yields_exists (executeNext m.registers) m.bus
    cases r with
    | ok e => exact .inr ⟨b', .inl ⟨e, h, step_ok hhalted h⟩⟩
    | error f => exact .inr ⟨b', .inr ⟨f, h, step_error hhalted h⟩⟩

theorem retire_bus (m : Machine) (e : Effects) : (retire m e).2.bus = m.bus := by
  unfold retire
  dsimp only
  split
  · rfl
  · rfl
  · split <;> rfl

theorem retire_ne_fault (m : Machine) (e : Effects) (f : Fault) : (retire m e).1 ≠ .fault f := by
  unfold retire
  dsimp only
  split
  · nofun
  · nofun
  · split <;> nofun

theorem step_kept {v : Virtual.Bus} (hr : m.bus.Represents v) : m.bus.Kept m.step.2.bus := by
  rcases step_cases m with h | ⟨b', ⟨e, hx, h⟩ | ⟨f, hx, h⟩⟩
  · rw [h]
    exact ⟨⟨v, hr⟩, rfl⟩
  · rw [h, retire_bus]
    exact hr.executeNext_kept hx
  · rw [h]
    exact hr.executeNext_kept hx

/-- What each step preserves is there at the end of the steps. -/
theorem steps_preserve {P : Machine → Prop} (hP : ∀ m, P m → P m.step.2) (budget : Nat) :
    ∀ {m : Machine}, P m → P (steps budget m).2 := by
  induction budget with
  | zero =>
    intro m h
    unfold steps
    split
    · exact h
    · exact h
  | succ budget ih =>
    intro m h
    have hstep := hP m h
    unfold steps
    split
    · exact h
    · dsimp only
      split <;> rename_i hout <;> rw [hout] at hstep
      · exact ih hstep
      · exact hstep
      · exact hstep
      · exact hstep

theorem steps_kept (budget : Nat) {v : Virtual.Bus} (hr : m.bus.Represents v) :
    m.bus.Kept (steps budget m).2.bus := by
  refine steps_preserve (P := fun m' => m.bus.Kept m'.bus) (fun m' h => ?_) budget ⟨⟨v, hr⟩, rfl⟩
  obtain ⟨v', hr'⟩ := h.1
  exact h.trans (step_kept hr')

theorem reset_kept {v : Virtual.Bus} (hr : m.bus.Represents v) : m.bus.Kept m.reset.bus := by
  have hr₀ : Bus.Represents { m.bus with privilege := m.config.privilege }
      { v with privilege := m.config.privilege } :=
    ⟨hr.consistent, hr.memory, hr.rom, hr.regions, rfl⟩
  unfold reset
  dsimp only
  split <;> rename_i hread
  · exact hr₀.transfer_kept (t := .read m.config.resetVector .word) (r := .ok _) hread
  · exact hr₀.transfer_kept (t := .read m.config.resetVector .word) (r := .error _) hread

theorem loadProgram_kept {v : Virtual.Bus} (hr : m.bus.Represents v) {base : Word}
    {words : List Word} {r : Except Fault Unit} (h : Yields (loadProgram base words) m r m') :
    m.bus.Kept m'.bus := by
  have himage : ∀ {image r b'}, Yields (Bus.loadImage base image) m.bus r b' → m.bus.Kept b' := by
    intro image r b' h
    obtain ⟨r₁, b₁, v', hx, hy, hr', -⟩ := Bus.mirrors_loadImage hr base image
    obtain ⟨rfl, rfl⟩ := h.unique hx
    refine ⟨⟨v', hr'⟩, ?_⟩
    rw [← hr'.memory.nextPid, ← hr.memory.nextPid, (Virtual.Bus.loadImage_allows hy).nextPid]
  obtain ⟨r₁, b', hload⟩ :=
    yields_exists (Bus.loadImage base (words.flatMap fun w => toBytes 4 w.toNat)) m.bus
  have hrun := onBus_run (m := m) hload
  cases r₁ with
  | ok u =>
    have hdone : Yields (loadProgram base words) m (.ok ())
        { m with bus := b', registers := { m.registers with pc := base }, runState := .running } :=
      Yields.bind_ok (r := .ok ()) hrun rfl
    rw [(h.unique hdone).2]
    exact himage hload
  | error e =>
    have hdone : Yields (loadProgram base words) m (.error e) { m with bus := b' } :=
      Yields.bind_error hrun
    rw [(h.unique hdone).2]
    exact himage hload

end Machine

/-! ## Operations of the host -/

inductive MachineOperation where
  | host (op : HostOperation)
  | step
  | run (budget : Nat)
  | reset
  | loadProgram (base : Word) (words : List Word)
  | setRegister (r : Register) (value : Word)
  | setPc (value : Word)
  | setFlags (value : Word)
  | setFlag (mask : Word) (on : Bool)
  deriving DecidableEq, Repr

namespace MachineOperation

def change (f : Machine → Machine) : EStateM Fault Machine Answer := do
  modify f
  return .done

def perform : MachineOperation → EStateM Fault Machine Answer
  | host op => Machine.onBus op.perform
  | step => change fun m => m.step.2
  | run budget => change fun m => (m.run budget).2
  | reset => change Machine.reset
  | loadProgram base words => (fun _ => .done) <$> Machine.loadProgram base words
  | setRegister r value => change fun m => { m with registers := m.registers.set r value }
  | setPc value => change fun m => { m with registers := { m.registers with pc := value } }
  | setFlags value => change fun m =>
    { m with registers := { m.registers with flags := .ofWord value } }
  | setFlag mask on =>
    change fun m =>
      { m with registers := { m.registers with flags := m.registers.flags.put mask on } }

def Step (op : MachineOperation) (m : Machine) (r : Except Fault Answer) (m' : Machine) : Prop :=
  Yields op.perform m r m'

end MachineOperation

def Configuration.creations (config : Configuration) : Nat := if config.initialProcess then 1 else 0

theorem Bus.Represents.begin_kept {b : Bus} {v : Virtual.Bus} (hr : Represents b v)
    (hpid : b.memory.nextPid.toNat = 1) :
    ∃ pid m, PagedMemory.beginProcess b.memory = .ok pid m ∧
      (∃ v', Represents { b with memory := m } v') ∧
      m.nextPid.toNat = 2 := by
  have hlt : b.memory.nextPid.toNat + 1 < 2 ^ 32 := by omega
  have hrun : PagedMemory.beginProcess.run b.memory =
      .ok b.memory.nextPid
        { b.memory.withProcess .empty with current := some b.memory.nextPid } := by
    rw [PagedMemory.beginProcess, bind_ok (PagedMemory.addProcess_run hlt .empty), modify_bind]
    rfl
  rcases hr.consistent.beginProcess hr.memory (fun _ _ _ => hlt) with
    ⟨pid, q, m, w, hx, -, hfollows, -⟩ | ⟨e, m, w, hx, -⟩
  · refine ⟨pid, m, hx, ⟨_, hr.follows hfollows⟩, ?_⟩
    obtain ⟨-, rfl⟩ := EStateM.Result.ok.inj (hx.symm.trans hrun)
    change (b.memory.nextPid + 1).toNat = 2
    rw [UInt32.toNat_add, hpid]
    rfl
  · cases hx.symm.trans hrun

namespace Machine

variable {m m' : Machine} {r : Except Fault Answer}

theorem step_preserves {op : MachineOperation} (hI : ∃ v, m.bus.Represents v)
    (hstep : op.Step m r m') (hcounts : PagedMemory.WithinCounts m'.bus.memory)
    (hpid : m.bus.memory.nextPid.toNat + created r < 2 ^ 32) :
    (∃ v, m'.bus.Represents v) ∧
    m'.bus.memory.nextPid.toNat = m.bus.memory.nextPid.toNat + created r := by
  obtain ⟨v, hr⟩ := hI
  -- but for the calls that create a process, nothing is created and the bus is kept
  have hkept : ∀ {r : Except Fault Answer} {m' : Machine}, created r = 0 → m.bus.Kept m'.bus →
      (∃ v, m'.bus.Represents v) ∧
      m'.bus.memory.nextPid.toNat = m.bus.memory.nextPid.toNat + created r := by
    intro r m' hc h
    exact ⟨h.1, by rw [h.2, hc]; rfl⟩
  have hchange : ∀ {f : Machine → Machine}, Yields (MachineOperation.change f) m r m' →
      m.bus.Kept (f m).bus →
      (∃ v, m'.bus.Represents v) ∧
        m'.bus.memory.nextPid.toNat = m.bus.memory.nextPid.toNat + created r := by
    intro f h hk
    obtain ⟨rfl, rfl⟩ := h.eq_of_ok rfl
    exact hkept rfl hk
  cases op with
  | host op =>
    obtain ⟨r₁, b', hop⟩ := yields_exists op.perform m.bus
    obtain ⟨rfl, rfl⟩ := hstep.unique (onBus_run hop)
    exact hr.hostStep hop hcounts hpid
  | step => exact hchange hstep (step_kept hr)
  | run budget => exact hchange hstep (steps_kept budget hr)
  | reset => exact hchange hstep (reset_kept hr)
  | loadProgram base words =>
    obtain ⟨r₁, rfl, h⟩ := Yields.of_map hstep
    refine hkept ?_ (loadProgram_kept hr h)
    cases r₁ <;> rfl
  | setRegister | setPc | setFlags | setFlag => exact hchange hstep ⟨⟨v, hr⟩, rfl⟩

section
variable (config : Configuration) {ram : Ram} {rom : Rom} {disk : Disk} {b : Bus}
  (hbus : Bus.ofDevices ram rom disk config.window config.ranges = .ok b)
include hbus

theorem ofDevices_of_bus (hprocess : config.initialProcess = false) :
    ofDevices config ram rom disk = .ok (reset ⟨config, .zero, .running, b, .zero⟩) := by
  unfold ofDevices
  rw [hbus, hprocess]
  rfl

theorem ofDevices_of_begin {pid : Word} {memory : PagedMemory}
    (hprocess : config.initialProcess = true)
    (hbegin : PagedMemory.beginProcess b.memory = .ok pid memory) :
    ofDevices config ram rom disk =
      .ok (reset ⟨config, .zero, .running, { b with memory := memory }, .zero⟩) := by
  unfold ofDevices
  rw [hbus, hprocess]
  simp only [bind, Except.bind, pure, Except.pure, if_true, hbegin]

end

theorem represents_initial {config : Configuration} {ram : Ram} {rom : Rom} {disk : Disk}
    (hm : ofDevices config ram rom disk = .ok m) (hdisk : disk.base = 0) :
    (∃ v, m.bus.Represents v) ∧ m.bus.memory.nextPid.toNat = 1 + config.creations := by
  unfold ofDevices at hm
  cases hbus : Bus.ofDevices ram rom disk config.window config.ranges with
  | error e =>
    rw [hbus] at hm
    cases hm
  | ok b =>
    rw [hbus] at hm
    obtain ⟨hr, hfirst⟩ := Bus.represents_initial hbus hdisk
    obtain ⟨pid, memory, hbegin, ⟨w, hbegun⟩, hsecond⟩ := hr.begin_kept hfirst
    obtain rfl := Except.ok.inj hm
    rw [hbegin, Configuration.creations]
    dsimp only
    cases config.initialProcess with
    | true =>
      have hkept :=
        reset_kept (m := ⟨config, .zero, .running, { b with memory := memory }, .zero⟩) hbegun
      exact ⟨hkept.1, (congrArg UInt32.toNat hkept.2).trans hsecond⟩
    | false =>
      have hkept := reset_kept (m := ⟨config, .zero, .running, b, .zero⟩) hr
      exact ⟨hkept.1, (congrArg UInt32.toNat hkept.2).trans hfirst⟩

/-- A run from a machine that was accepted ends in one whose bus represents virtual memory. -/
theorem represents_of_run {config : Configuration} {ram : Ram} {rom : Rom} {disk : Disk}
    {es : List (Event Machine MachineOperation Answer)} (hm : ofDevices config ram rom disk = .ok m)
    (hdisk : disk.base = 0) (hrun : Run MachineOperation.Step m es m')
    (hpids : config.creations + creations es < 2 ^ 32 - 1)
    (hcounts : ∀ e ∈ es, PagedMemory.WithinCounts e.state.bus.memory) :
    ∃ v, m'.bus.Represents v := by
  obtain ⟨hr, hfirst⟩ := represents_initial hm hdisk
  have h :=
    hrun.preserves (fun m => m.bus.memory.nextPid.toNat) (I := fun m => ∃ v, m.bus.Represents v)
    (F := fun e => PagedMemory.WithinCounts e.state.bus.memory)
    (fun op m r m' hI hstep hcounts hpid => step_preserves hI hstep hcounts hpid)
  exact (h hr (by omega) hcounts).1

end Machine

end PagedMachine

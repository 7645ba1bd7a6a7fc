import PagedMachine.Proofs.Endurance
import PagedMachine.Proofs.Housing

/-!
# Sound memory under a host

A memory is sound if it is consistent, stands for virtual memory and has every page
in its pool. The single steps of an access keep it sound, so every operation of the
bus does, and no store of the host into RAM can end it.
-/

namespace PagedMachine

namespace PagedMemory

variable {m m' : PagedMemory}

structure Sound (m : PagedMemory) : Prop where
  consistent : Consistent m
  represents : ∃ v, Represents m v
  housed : Housed m

theorem Sound.with_ram (h : Sound m) {ram : Ram} (hbase : ram.base = m.ram.base)
    (hsize : ram.size = m.ram.size) : Sound { m with ram := ram } := by
  obtain ⟨v, hv⟩ := h.represents
  obtain ⟨contents, hv'⟩ := hv.with_ram ram
  exact ⟨h.consistent.with_ram hbase hsize, ⟨_, hv'⟩, h.housed.resident, h.housed.agree⟩

theorem Sound.with_counters (h : Sound m) (f : PagingCounters → PagingCounters) :
    Sound { m with counters := f m.counters } := by
  obtain ⟨v, hv⟩ := h.represents
  have hfollows := h.consistent.follows_tally hv f
  exact ⟨hfollows.consistent, ⟨v, hfollows.represents⟩, h.housed.with_counters _⟩

theorem Sound.movedOut {frame slot : Word} (h : Sound m)
    (hr : Relocates (.frame frame) (.slot slot) m m') : Sound m' := by
  obtain ⟨v, hv⟩ := h.represents
  have hfollows := hr.follows h.consistent hv
  exact ⟨hfollows.consistent, ⟨v, hfollows.represents⟩, h.housed.movedOut hr⟩

theorem Sound.movedIn {frame slot : Word} {mp : Mapping} (h : Sound m)
    (hr : Relocates (.slot slot) (.frame frame) m m')
    (hmp : Maps m.processes mp) (hl : mp.location = .slot slot)
    (hpool : m'.framePool frame = mp.permissions.pool) : Sound m' := by
  obtain ⟨v, hv⟩ := h.represents
  have hfollows := hr.follows h.consistent hv
  exact ⟨hfollows.consistent, ⟨v, hfollows.represents⟩, h.housed.movedIn hr hmp hl hpool⟩

theorem Sound.privatise {pid page frame : Word} {d : Directory} {mp : Mapping} (h : Sound m)
    (hc : m.current = some pid) (hd : m.processes.find? pid = some d) (hmp : d.find? page = some mp)
    (hl : mp.location = .frame frame) {r : Except Fault Word}
    (hstep : Yields (PagedMemory.privatise page frame) m r m') : Sound m' := by
  obtain ⟨v, hv⟩ := h.represents
  have hm' := h.consistent.housed_privatise h.housed hc hd hmp hl hstep
  obtain ⟨mv, hmv, -⟩ := hv.find? (mapping?_some.mpr ⟨pid, d, hc, hd, hmp⟩)
  rcases h.consistent.privatise hv hc hd hmp hl hmv with
    ⟨target, m₁, hrun, hfollows, -⟩ | ⟨e, hrun, -⟩
  · obtain ⟨-, rfl⟩ := hstep.eq_of_ok hrun
    exact ⟨hfollows.consistent, ⟨_, hfollows.represents⟩, hm'⟩
  · obtain ⟨-, rfl⟩ := hstep.eq_of_error hrun
    exact h

theorem Sound.of_agrees {α β : Type} {x : Paged α} {y : Behaviour Virtual.Memory β}
    {v : Virtual.Memory} {Q : α → β → PagedMemory → Virtual.Memory → Prop} {r : Except Fault α}
    (hagrees : Agrees x y m v Q) (hstep : Yields x m r m') (hm' : Housed m') : Sound m' := by
  rcases hagrees with ⟨a, c, m₁, v₁, hrun, -, hfollows, -⟩ | ⟨e, m₁, v₁, hrun, -, hfollows, -⟩
  · obtain ⟨-, rfl⟩ := hstep.eq_of_ok hrun
    exact ⟨hfollows.consistent, ⟨v₁, hfollows.represents⟩, hm'⟩
  · obtain ⟨-, rfl⟩ := hstep.eq_of_error hrun
    exact ⟨hfollows.consistent, ⟨v₁, hfollows.represents⟩, hm'⟩

theorem enduring_sound : Enduring Sound where
  translate address access privilege := by
    rintro m r m' ⟨h, ⟨v, hv⟩, hm⟩ hstep
    refine .of_agrees (h.translate hv address access privilege) hstep ?_
    obtain ⟨_, hresolve⟩ := yields_of_physical hstep
    exact h.housed_resolve hv hm hresolve
  translateHostWrite address := by
    rintro m r m' ⟨h, ⟨v, hv⟩, hm⟩ hstep
    exact .of_agrees (h.translateHostWrite hv address) hstep
      (h.housed_translateHostWrite hv hm hstep)
  writeBytes address bytes := by
    intro m r m' h hstep
    obtain ⟨ram, hx, rfl⟩ := yields_onRam hstep
    obtain ⟨hbase, hsize⟩ := ByteStore.extent_of_writeBytes hx
    exact h.with_ram hbase hsize

end PagedMemory

/-! ## The bus -/

namespace Bus

variable {b b' : Bus}

def Sound (b : Bus) : Prop := b.memory.Sound

/-- No operation but those on processes and mappings needs more than a sound memory. -/
theorem keeps_sound_host {op : HostOperation} (hop : ∀ op', op ≠ .bus (.paging op')) :
    Keeps Sound op.perform := by
  intro b r b' h hstep
  have hkeeps : Keeps (Within PagedMemory.Sound b) op.perform :=
    keeps_host PagedMemory.enduring_sound fun op' he => absurd he (hop op')
  exact (hkeeps b r b' ⟨h, rfl, rfl, rfl⟩ hstep).memory

variable {op : HostOperation} {r : Except Fault Answer}

theorem Sound.hostStep (h : Sound b) (hstep : op.Step b r b')
    (hcounts : PagedMemory.WithinCounts b'.memory)
    (hpid : b.memory.nextPid.toNat + created r < 2 ^ 32) :
    Sound b' ∧ b'.memory.nextPid.toNat = b.memory.nextPid.toNat + created r := by
  obtain ⟨v, hv⟩ := h.represents
  have hr : Represents b ⟨v, b.rom, b.regions, b.privilege⟩ := ⟨h.consistent, hv, rfl, rfl, rfl⟩
  obtain ⟨⟨v', hr'⟩, hnumber⟩ := hr.hostStep hstep hcounts hpid
  refine ⟨?_, hnumber⟩
  by_cases hop : ∃ op', op = .bus (.paging op')
  · obtain ⟨op', rfl⟩ := hop
    obtain ⟨m, hm, rfl⟩ := yields_onMemory hstep
    exact ⟨hr'.consistent, ⟨_, hr'.memory⟩, h.consistent.housed_step hv h.housed hm⟩
  · exact keeps_sound_host (fun op' he => hop ⟨op', he⟩) b r b' h hstep

/-- A run from a bus that was accepted ends with sound memory. -/
theorem sound_of_run {ram : Ram} {rom : Rom} {disk : Disk} {window : Word × Word}
    {ranges : PageRanges} {es : List (Event Bus HostOperation Answer)}
    (hb : Bus.ofDevices ram rom disk window ranges = .ok b)
    (hdisk : disk.base = 0) (hrun : Run HostOperation.Step b es b')
    (hpids : creations es < 2 ^ 32 - 1)
    (hcounts : ∀ e ∈ es, PagedMemory.WithinCounts e.state.memory) : Sound b' := by
  obtain ⟨hr, hfirst⟩ := represents_initial hb hdisk
  have hhoused : PagedMemory.Housed b.memory := by
    obtain ⟨_, -, -, rfl⟩ := ofDevices_ok hb
    exact PagedMemory.housed_of_empty rfl
  have h := hrun.preserves (fun b => b.memory.nextPid.toNat) (I := Sound)
    (F := fun e => PagedMemory.WithinCounts e.state.memory)
    (fun op s r s' h hstep hcounts hpid => h.hostStep hstep hcounts hpid)
  exact (h ⟨hr.consistent, ⟨_, hr.memory⟩, hhoused⟩ (by omega) hcounts).1

end Bus

end PagedMachine

import Mathlib.Data.List.Forall2
import PagedMachine.Proofs.BusEffects
import PagedMachine.Proofs.BusOperations
import PagedMachine.Proofs.Initial

/-!
# Runs

A run of any length is followed by one of virtual memory, operation by operation,
as long as there are numbers for the processes and counts for the mappings.
What every operation preserves holds along the run.
-/

namespace PagedMachine

def PagingOperation.Step (op : PagingOperation) (m : PagedMemory) (r : Except Fault Answer)
    (m' : PagedMemory) : Prop :=
  Yields op.perform m r m'

def Operation.Step (op : Operation) (b : Bus) (r : Except Fault Answer) (b' : Bus) : Prop :=
  Yields op.perform b r b'

def Virtual.Bus.Step (op : Operation) (v : Virtual.Bus) (r : Except Fault Answer)
    (v' : Virtual.Bus) : Prop :=
  (Virtual.Bus.perform op).allows v r v'

def creations {σ ω : Type} : List (Event σ ω Answer) → Nat
  | [] => 0
  | e :: es => created e.answer + creations es

/-! ## Any machine -/

section
variable {σ τ ω : Type} {step : ω → σ → Except Fault Answer → σ → Prop}
    {spec : ω → τ → Except Fault Answer → τ → Prop}
  {R : σ → τ → Prop} {I : σ → Prop} {F : Event σ ω Answer → Prop} (number : σ → Nat)

/-- Steps of one machine are steps of the other. The next number grows with the processes. -/
theorem Run.lockstep {M : Event σ ω Answer → Event τ ω Answer → Prop}
    (hstep : ∀ op s r s' t, R s t → step op s r s' → F ⟨op, r, s'⟩ → number s + created r < 2 ^ 32 →
      ∃ t', spec op t r t' ∧ R s' t' ∧ M ⟨op, r, s'⟩ ⟨op, r, t'⟩ ∧ number s' = number s + created r)
    (es : List (Event σ ω Answer)) : ∀ {s : σ} {t : τ} {s' : σ}, R s t →
    number s + creations es < 2 ^ 32 → (∀ e ∈ es, F e) → Run step s es s' →
    ∃ fs t', Run spec t fs t' ∧ List.Forall₂ M es fs := by
  induction es with
  | nil =>
    intro s t s' _ _ _ _
    exact ⟨[], t, .done t, .nil⟩
  | cons e es ih =>
    intro s t s' hR hn hfine hrun
    cases hrun with
    | @next _ s₁ _ op r _ hfirst hrest =>
      have hcount : creations (⟨op, r, s₁⟩ :: es) = created r + creations es := rfl
      obtain ⟨t₁, hspec, hR₁, hM, hnumber⟩ :=
        hstep op s r s₁ t hR hfirst (hfine _ List.mem_cons_self) (by omega)
      obtain ⟨fs, t', hrun', hmatch⟩ :=
        ih hR₁ (by omega) (fun e he => hfine e (List.mem_cons_of_mem _ he)) hrest
      exact ⟨⟨op, r, t₁⟩ :: fs, t', .next hspec hrun', .cons hM hmatch⟩

/-- What holds first and is preserved holds along the run, and so does what each step does under
it. -/
theorem Run.along {P : σ → Event σ ω Answer → Prop}
    (hstep : ∀ op s r s', I s → step op s r s' → F ⟨op, r, s'⟩ → number s + created r < 2 ^ 32 →
      I s' ∧ number s' = number s + created r ∧ P s ⟨op, r, s'⟩)
    (es : List (Event σ ω Answer)) : ∀ {s s' : σ}, I s → number s + creations es < 2 ^ 32 →
      (∀ e ∈ es, F e) → Run step s es s' → Along P s es := by
  induction es with
  | nil => exact fun _ _ _ _ => trivial
  | cons e es ih =>
    intro s s' hI hn hfine hrun
    cases hrun with
    | @next _ s₁ _ op r _ hfirst hrest =>
      have hcount : creations (⟨op, r, s₁⟩ :: es) = created r + creations es := rfl
      obtain ⟨hI₁, hnumber, hP⟩ := hstep op s r s₁ hI hfirst (hfine _ List.mem_cons_self) (by omega)
      have hn₁ : number s₁ + creations es < 2 ^ 32 := by omega
      exact ⟨hP, ih hI₁ hn₁ (fun e he => hfine e (List.mem_cons_of_mem _ he)) hrest⟩

variable {s t u : σ} {es fs : List (Event σ ω Answer)}

theorem Run.append (h : Run step s es t) (h' : Run step t fs u) : Run step s (es ++ fs) u := by
  induction h with
  | done => exact h'
  | next hfirst _ ih => exact .next hfirst (ih h')

theorem Along.of_append {P : σ → Event σ ω Answer → Prop} (h : Run step s es t)
    (ha : Along P s (es ++ fs)) : Along P t fs := by
  induction h with
  | done => exact ha
  | next _ _ ih => exact ih ha.2

theorem Run.of_append (h : Run step s es t) (hrun : Run step s (es ++ fs) u) : Run step t fs u := by
  induction h with
  | done => exact hrun
  | next _ _ ih =>
    cases hrun with
    | next _ hrest => exact ih hrest

/-- What each step of a run carries on is there at its end. -/
theorem Run.carry {J : σ → Prop} (h : Run step s es t)
    (hstep : Along (fun s e => J s → J e.state) s es) (hs : J s) : J t := by
  induction h with
  | done => exact hs
  | next _ _ ih => exact ih hstep.2 (hstep.1 hs)

end

theorem Along.imp {σ ω : Type} {P Q R : σ → Event σ ω Answer → Prop}
    (h : ∀ s e, P s e → Q s e → R s e) (es : List (Event σ ω Answer)) :
    ∀ {s : σ}, Along P s es → Along Q s es → Along R s es := by
  induction es with
  | nil => exact fun _ _ => trivial
  | cons e es ih => exact fun hp hq => ⟨h _ e hp.1 hq.1, ih hp.2 hq.2⟩

/-- What holds first and is preserved holds at the end of the run. -/
theorem Run.preserves {σ ω : Type} {step : ω → σ → Except Fault Answer → σ → Prop} {I : σ → Prop}
    {F : Event σ ω Answer → Prop} (number : σ → Nat)
    (hstep : ∀ op s r s', I s → step op s r s' → F ⟨op, r, s'⟩ → number s + created r < 2 ^ 32 →
      I s' ∧ number s' = number s + created r)
    {es : List (Event σ ω Answer)} {s s' : σ} (hrun : Run step s es s') :
    I s → number s + creations es < 2 ^ 32 → (∀ e ∈ es, F e) →
    I s' ∧ number s' = number s + creations es := by
  induction hrun with
  | done s => exact fun hI _ _ => ⟨hI, rfl⟩
  | @next s s₁ s' op r es hfirst _ ih =>
    intro hI hn hfine
    have hcount : creations (⟨op, r, s₁⟩ :: es) = created r + creations es := rfl
    obtain ⟨hI₁, hnumber⟩ := hstep op s r s₁ hI hfirst (hfine _ List.mem_cons_self) (by omega)
    obtain ⟨hI', hnumber'⟩ := ih hI₁ (by omega) fun e he => hfine e (List.mem_cons_of_mem _ he)
    exact ⟨hI', by omega⟩

/-! ## Paged memory -/

namespace PagedMemory

variable {m m' : PagedMemory} {v v' : Virtual.Memory} {op : PagingOperation}
    {r : Except Fault Answer}

theorem toNat_add_created {n n' : Word} {r : Except Fault Answer}
    (h : n' = n + UInt32.ofNat (created r)) (hlt : n.toNat + created r < 2 ^ 32) :
    n'.toNat = n.toNat + created r := by
  rw [h, UInt32.toNat_add, UInt32.toNat_ofNat', Nat.mod_eq_of_lt (a := created r) (by omega),
    Nat.mod_eq_of_lt hlt]

theorem nextPid_of_allows (h : (Virtual.perform op).allows v r v') :
    v'.nextPid = v.nextPid + UInt32.ofNat (created r) := by
  rcases Virtual.perform_allows h with ⟨a, rfl, heffect⟩ | ⟨e, rfl, -, rfl⟩
  · exact heffect.nextPid
  · exact (UInt32.add_zero _).symm

theorem Represents.nextPid (hv : Represents m v) : v.nextPid = m.nextPid := by
  obtain ⟨name, hv⟩ := hv
  exact hv.nextPid

/-- One step within bounds is a step of virtual memory, and never a fault of the books. -/
theorem Consistent.step (h : Consistent m) (hv : Represents m v) (hstep : op.Step m r m')
    (hcounts : WithinCounts m') (hpid : m.nextPid.toNat + created r < 2 ^ 32) :
    ∃ v', (Virtual.perform op).allows v r v' ∧ Follows m m' v' ∧
      m'.nextPid.toNat = m.nextPid.toNat + created r ∧ ∀ e, r = .error e →
      Virtual.Ordinary e ∧ m'.Justified e := by
  have hbound : ∀ r₁ m₁, Yields op.perform m r₁ m₁ → WithinBounds m r₁ m₁ := by
    intro r₁ m₁ h₁
    obtain ⟨rfl, rfl⟩ := hstep.unique h₁
    exact ⟨hcounts, hpid⟩
  have hpids : ∀ {v'}, (Virtual.perform op).allows v r v' → Represents m' v' →
      m'.nextPid.toNat = m.nextPid.toNat + created r := by
    intro v' hb hv'
    apply toNat_add_created _ hpid
    rw [← hv'.nextPid, ← hv.nextPid, nextPid_of_allows hb]
  rcases h.perform hv op hbound with ⟨a, _, m₁, v', hrun, hb, hfollows, rfl⟩
    | ⟨e, m₁, v', hrun, hb, hfollows, he⟩
  · obtain ⟨rfl, rfl⟩ := hstep.eq_of_ok hrun
    exact ⟨v', hb, hfollows, hpids hb hfollows.represents, nofun⟩
  · obtain ⟨rfl, rfl⟩ := hstep.eq_of_error hrun
    refine ⟨v', hb, hfollows, hpids hb hfollows.represents, ?_⟩
    rintro _ ⟨⟩
    rcases Virtual.perform_allows hb with ⟨a, ha, -⟩ | ⟨e', he', hordinary, -⟩
    · cases ha
    · exact ⟨Except.error.inj he' ▸ hordinary, he⟩

end PagedMemory

/-! ## The bus -/

namespace Bus

variable {b b' : Bus} {v v' : Virtual.Bus} {op : Operation} {r : Except Fault Answer}

theorem Represents.step (hr : Represents b v) (hstep : op.Step b r b')
    (hcounts : PagedMemory.WithinCounts b'.memory)
    (hpid : b.memory.nextPid.toNat + created r < 2 ^ 32) :
    ∃ v', Virtual.Bus.Step op v r v' ∧ Represents b' v' ∧
      b'.memory.nextPid.toNat = b.memory.nextPid.toNat + created r ∧ ∀ e, r = .error e →
      b'.memory.Justified e := by
  have hbound : ∀ r₁ b₁, Yields op.perform b r₁ b₁ → WithinBounds b r₁ b₁ := by
    intro r₁ b₁ h₁
    obtain ⟨rfl, rfl⟩ := hstep.unique h₁
    exact ⟨hcounts, hpid⟩
  obtain ⟨r₁, b₁, v', hx, hy, hr', he⟩ := mirrors_perform hr op hbound
  obtain ⟨rfl, rfl⟩ := hstep.unique hx
  refine ⟨v', hy, hr', ?_, he⟩
  apply PagedMemory.toNat_add_created _ hpid
  rw [← hr'.memory.nextPid, ← hr.memory.nextPid]
  rcases Virtual.Bus.perform_allows hy with ⟨p, -, hp⟩ | ⟨hw, hc⟩
  · exact PagedMemory.nextPid_of_allows hp
  · rw [hw.nextPid, hc]
    exact (UInt32.add_zero _).symm

/-- A bus that was accepted represents virtual memory with nothing mapped. -/
theorem represents_initial {ram : Ram} {rom : Rom} {disk : Disk} {window : Word × Word}
    {ranges : PageRanges} (hb : Bus.ofDevices ram rom disk window ranges = .ok b)
    (hdisk : disk.base = 0) : Represents b ⟨.initial, rom, b.regions, .kernel⟩ ∧
    b.memory.nextPid.toNat = 1 := by
  obtain ⟨regions, hregions, hfits, rfl⟩ := Bus.ofDevices_ok hb
  have hram := RegionMap.ram_fits hregions
  rw [UInt32.toNat_ofNat', Nat.mod_eq_of_lt ram.size_lt] at hram
  have hconsistent := PagedMemory.consistent_unmapped hfits hram hdisk
  exact ⟨⟨hconsistent, PagedMemory.represents_unmapped disk ranges ram, rfl, rfl, rfl⟩, rfl⟩

def pagingEvents (b : Bus) (es : List (Event PagedMemory PagingOperation Answer)) :
    List (Event Bus Operation Answer) :=
  es.map fun e => ⟨.paging e.operation, e.answer, { b with memory := e.state }⟩

theorem run_pagingEvents {m m' : PagedMemory} {es : List (Event PagedMemory PagingOperation Answer)}
    (h : Run PagingOperation.Step m es m') :
    Run Operation.Step { b with memory := m } (b.pagingEvents es) { b with memory := m' } := by
  induction h with
  | done => exact .done _
  | @next m m₁ _ op r _ hstep _ ih =>
    refine .next ?_ ih
    cases r with
    | ok a => exact onMemory_ok (b := { b with memory := m }) hstep
    | error e => exact onMemory_error (b := { b with memory := m }) hstep

end Bus

/-! ## Two readers

A run that leaves two processes with one page, which neither may write, on a machine
with eight frames.
-/

namespace TwoReaders

open PagedMemory

def ram : Ram := .zeroed 0x10000000 32768

def rom : Rom := .zeroed 0 4096

def disk : Disk := .zeroed 4

def window : Word × Word := (0x400000, 0x400000)

def ranges : PageRanges := ⟨0, 5, 6, 7⟩

def regions : RegionMap :=
  ⟨[⟨.rom, 0, 0xFFF⟩, ⟨.mapped, 0x400000, 0x7FFFFF⟩, ⟨.ram, 0x10000000, 0x10007FFF⟩]⟩

def directory : Directory := Table.empty.insert 0x400 ⟨.frame 0, .readOnly, false⟩

section
variable (disk : Disk) (ram : Ram)

def start : PagedMemory := ⟨Paging.unmapped disk ranges, ram⟩

def begun : PagedMemory :=
  { start disk ram with processes := Table.empty.insert 1 .empty, current := some 1, nextPid := 2 }

def mapped : PagedMemory :=
  { begun disk ram with
    userPool := { (Pool.ofRange .user 0 5) with free := (Pool.ofRange .user 0 5).free.erase 0 }
    frameRefs := Table.empty.insert 0 1
    resident := [0]
    processes := Table.empty.insert 1 directory
    ram := ram.patch 0 zeroPage }

def forked : PagedMemory :=
  { mapped disk ram with
    frameRefs := Table.empty.insert 0 2
    processes := (Table.empty.insert 1 directory).insert 2 directory
    nextPid := 3 }

def eventsBefore : List (Event PagedMemory PagingOperation Answer) :=
  [⟨.beginProcess, .ok (.process 1), begun disk ram⟩,
    ⟨.addPage 0x400 .readOnly false, .ok .done, mapped disk ram⟩]

def events : List (Event PagedMemory PagingOperation Answer) :=
  eventsBefore disk ram ++ [⟨.forkProcess, .ok (.process 2), forked disk ram⟩]

def mappedAs (permissions : Permissions) : PagedMemory :=
  { mapped disk ram with processes := Table.empty.insert 1 (Table.empty.insert 0x400
      ⟨.frame 0, permissions, false⟩) }

theorem step_addPageTo {m m' : PagedMemory} {d : Directory} {pid page frame : Word}
    (hcheck : Paging.checkPage page = .ok ()) (hcur : m.currentDirectory = .ok d)
    (hd : m.processes.find? pid = some d) (hc : m.current = some pid)
    (hfree : d.contains page = false)
    (htake : (takeFrame .user none).run m = .ok frame (m.handOut frame))
    (hram : m.ram.base.toNat + m.ram.size ≤ 2 ^ 32) (hframe : frame.toNat < Ram.pageCount m.ram)
    (hm' : m.added pid page frame ⟨.frame frame, .readWrite, false⟩
      (m.ram.patch (frame.toNat * pageSize) zeroPage) = m') :
    (PagingOperation.addPage page .readWrite false).Step m (.ok .done) m' := by
  subst hm'
  exact map_ok ((addPage_run hcheck hcur hfree).trans
    (newPage_run htake (Ram.writeFrame_ok hram hframe length_zeroPage) hc hd))

theorem step_addPageAs {permissions : Permissions} (hpool : permissions.pool = .user)
    (hram : ram.base.toNat + ram.size ≤ 2 ^ 32) (hcount : 0 < Ram.pageCount ram) :
    (PagingOperation.addPage 0x400 permissions false).Step (begun disk ram) (.ok .done)
    (mappedAs disk ram permissions) := by
  have hwrite : (Ram.writeFrame 0 zeroPage).run ram = .ok () (ram.patch 0 zeroPage) :=
    Ram.writeFrame_ok hram hcount length_zeroPage
  have htake : (takeFrame permissions.pool none).run (begun disk ram) =
      .ok 0 ((begun disk ram).handOut 0) := by
    rw [hpool]
    rfl
  have hadd : (addPage 0x400 permissions false).run (begun disk ram) = .ok 0
      (mappedAs disk ram permissions) :=
    (addPage_run (d := .empty) rfl rfl rfl).trans (newPage_run htake hwrite rfl rfl)
  exact map_ok hadd

theorem step_addPage (hram : ram.base.toNat + ram.size ≤ 2 ^ 32) (hcount : 0 < Ram.pageCount ram) :
    (PagingOperation.addPage 0x400 .readOnly false).Step
      (begun disk ram) (.ok .done) (mapped disk ram) :=
  step_addPageAs disk ram rfl hram hcount

theorem step_begin :
    PagingOperation.beginProcess.Step (start disk ram) (.ok (.process 1)) (begun disk ram) := rfl

theorem run_before (hram : ram.base.toNat + ram.size ≤ 2 ^ 32) (hcount : 0 < Ram.pageCount ram) :
    Run PagingOperation.Step (start disk ram) (eventsBefore disk ram) (mapped disk ram) :=
  .next (step_begin disk ram) (.next (step_addPage disk ram hram hcount) (.done _))

theorem run (hram : ram.base.toNat + ram.size ≤ 2 ^ 32) (hcount : 0 < Ram.pageCount ram) :
    Run PagingOperation.Step (start disk ram) (events disk ram) (forked disk ram) :=
  .next (step_begin disk ram) (.next (step_addPage disk ram hram hcount) (.next rfl (.done _)))

theorem withinCounts : ∀ e ∈ events disk ram, WithinCounts e.state := by
  intro e he
  apply withinCounts_of_size
  simp only [events, eventsBefore, List.cons_append, List.nil_append, List.mem_cons,
    List.not_mem_nil, or_false] at he
  rcases he with rfl | rfl | rfl
  · exact Nat.zero_le _
  · exact (by decide : 1 ≤ maxRefs)
  · exact (by decide : 2 ≤ maxRefs)

end

theorem size_ram : ByteStore.size ram = 32768 := ByteStore.size_zeroed 0x10000000 (by decide)

theorem size_rom : ByteStore.size rom = 4096 := ByteStore.size_zeroed 0 (by decide)

theorem ram_fits : ram.base.toNat + ByteStore.size ram ≤ 2 ^ 32 ∧ 0 < Ram.pageCount ram := by
  rw [Ram.pageCount, size_ram]
  decide

/-- A ROM that ends below the window lies in front of it, and RAM behind it. -/
theorem ofRanges_below (size : Word) (hsize : size ≠ 0) (hbelow : size - 1 < 0x400000) :
    RegionMap.ofRanges (0, size) (0x10000000, 32768) window = .ok
      ⟨[⟨.rom, 0, size - 1⟩, ⟨.mapped, 0x400000, 0x7FFFFF⟩, ⟨.ram, 0x10000000, 0x10007FFF⟩]⟩ := by
  have hrom : Region.ofSize .rom 0 size = .ok ⟨.rom, 0, size - 1⟩ := by
    have hfit : (0 : Word).toNat + size.toNat ≤ 2 ^ 32 := by
      have := size.toNat_lt
      rw [show (0 : Word).toNat = 0 from rfl]
      omega
    rw [Region.ofSize, if_neg hsize, if_pos hfit, UInt32.zero_add]
  have hram : Region.ofSize .ram 0x10000000 32768 = .ok ⟨.ram, 0x10000000, 0x10007FFF⟩ := rfl
  have hmapped : Region.ofSize .mapped 0x400000 0x400000 =
      .ok ⟨.mapped, 0x400000, 0x7FFFFF⟩ := rfl
  have hsorted : [⟨.rom, 0, size - 1⟩, ⟨.ram, 0x10000000, 0x10007FFF⟩,
      ⟨.mapped, 0x400000, 0x7FFFFF⟩].mergeSort (fun r s : Region => r.first ≤ s.first) =
      [⟨.rom, 0, size - 1⟩, ⟨.mapped, 0x400000, 0x7FFFFF⟩, ⟨.ram, 0x10000000, 0x10007FFF⟩] := by
    simp [List.mergeSort, List.MergeSort.Internal.splitInTwo]
  have hdisjoint : RegionMap.overlap? [⟨.rom, 0, size - 1⟩, ⟨.mapped, 0x400000, 0x7FFFFF⟩,
      ⟨.ram, 0x10000000, 0x10007FFF⟩] = none := by
    have hover : Region.overlaps ⟨.rom, 0, size - 1⟩ ⟨.mapped, 0x400000, 0x7FFFFF⟩ = false := by
      simp [Region.overlaps, UInt32.not_le.mpr hbelow]
    rw [RegionMap.overlap?, hover]
    rfl
  rw [RegionMap.ofRanges, hrom, hram, window, hmapped]
  simp only [bind, Except.bind, hsorted, hdisjoint]

theorem ofRanges : RegionMap.ofRanges (rom.base, UInt32.ofNat rom.size)
    (ram.base, UInt32.ofNat ram.size) window = .ok regions := by
  rw [size_rom, size_ram]
  exact ofRanges_below 4096 (by decide) (by decide)

theorem ofDevices {ram : Ram} (hbase : ram.base.pageOffset = 0) (hsize : ram.size = 32768)
    (disk : Disk) : Paging.ofDevices ram disk ranges = .ok (Paging.unmapped disk ranges) := by
  unfold Paging.ofDevices Ram.pageCount
  rw [hsize, hbase]
  rfl

def bus (m : PagedMemory) : Bus := ⟨m, rom, regions, .kernel⟩

def busEvents : List (Event Bus Operation Answer) :=
  (bus (start disk ram)).pagingEvents (events disk ram)

theorem bus_run : Run Operation.Step (bus (start disk ram)) busEvents (bus (forked disk ram)) :=
  Bus.run_pagingEvents (b := bus (start disk ram)) (run disk ram ram_fits.1 ram_fits.2)

theorem bus_withinCounts : ∀ e ∈ busEvents, WithinCounts e.state.memory := by
  intro e he
  obtain ⟨e', he', rfl⟩ := List.mem_map.mp he
  exact withinCounts disk ram e' he'

theorem bus_ofDevices_of_layout {rom : Rom} {layout : RegionMap}
    (hlaid : RegionMap.ofRanges (rom.base, UInt32.ofNat rom.size)
      (ram.base, UInt32.ofNat ram.size) window = .ok layout) :
    Bus.ofDevices ram rom disk window ranges = .ok ⟨start disk ram, rom, layout, .kernel⟩ := by
  rw [Bus.ofDevices, hlaid, ofDevices rfl size_ram]
  rfl

theorem bus_ofDevices : Bus.ofDevices ram rom disk window ranges = .ok (bus (start disk ram)) :=
  bus_ofDevices_of_layout ofRanges

end TwoReaders

/-! ## The last slot

Three frames for user pages and one slot. A process with a page in each frame forks. For
its first store then it copies a page, and another page, which both have, goes to the slot.
-/

namespace LastSlot

open PagedMemory
open TwoReaders (ram rom window regions bus)

def ranges : PageRanges := ⟨0, 2, 3, 3⟩

def disk : Disk := .zeroed 1

section
variable (disk : Disk) (ram : Ram)

def start : PagedMemory := ⟨Paging.unmapped disk ranges, ram⟩

def holding (free : Table Unit) (refs : Table Nat) (resident : List Word) (d : Directory) :
    PagedMemory :=
  { start disk ram with
    userPool := ⟨.user, 0, 2, free⟩
    frameRefs := refs
    resident := resident
    processes := Table.empty.insert 1 d
    current := some 1
    nextPid := 2 }

def begun : PagedMemory :=
  holding disk ram (((Table.empty.insert 0 ()).insert 1 ()).insert 2 ()) .empty [] .empty

def one : PagedMemory :=
  holding disk (ram.patch 0 zeroPage) ((Table.empty.insert 1 ()).insert 2 ())
    (Table.empty.insert 0 1) [0]
    (Table.empty.insert 0x400 ⟨.frame 0, .readWrite, false⟩)

def two : PagedMemory :=
  holding disk ((ram.patch 0 zeroPage).patch 4096 zeroPage) (Table.empty.insert 2 ())
    ((Table.empty.insert 0 1).insert 1 1) [0, 1]
    ((Table.empty.insert 0x400 ⟨.frame 0, .readWrite, false⟩).insert 0x401
      ⟨.frame 1, .readWrite, false⟩)

def zeroed : Ram := ((ram.patch 0 zeroPage).patch 4096 zeroPage).patch 8192 zeroPage

theorem size_zeroed : (zeroed ram).size = ram.size := by
  rw [zeroed, ByteStore.size_patch, ByteStore.size_patch, ByteStore.size_patch]

theorem base_zeroed : (zeroed ram).base = ram.base := by
  rw [zeroed, ByteStore.base_patch, ByteStore.base_patch, ByteStore.base_patch]

theorem lt_pageCount_zeroed {ram : Ram} (hcount : 2 < Ram.pageCount ram) {frame : Word}
    (hle : frame.toNat ≤ 2) : frame.toNat < Ram.pageCount (zeroed ram) := by
  rw [Ram.pageCount, size_zeroed]
  exact Nat.lt_of_le_of_lt hle hcount

def full : PagedMemory :=
  holding disk (zeroed ram) .empty (((Table.empty.insert 0 1).insert 1 1).insert 2 1) [0, 1, 2]
    (((Table.empty.insert 0x400 ⟨.frame 0, .readWrite, false⟩).insert 0x401 ⟨.frame 1, .readWrite,
      false⟩).insert 0x403 ⟨.frame 2, .readWrite, false⟩)

def filling : List (Event PagedMemory PagingOperation Answer) :=
  [⟨.beginProcess, .ok (.process 1), begun disk ram⟩,
    ⟨.addPage 0x400 .readWrite false, .ok .done, one disk ram⟩,
    ⟨.addPage 0x401 .readWrite false, .ok .done, two disk ram⟩,
    ⟨.addPage 0x403 .readWrite false, .ok .done, full disk ram⟩]

theorem run_filling (hram : ram.base.toNat + ram.size ≤ 2 ^ 32) (hcount : 2 < Ram.pageCount ram) :
    Run PagingOperation.Step (start disk ram) (filling disk ram) (full disk ram) := by
  have hone : (PagingOperation.addPage 0x400 .readWrite false).Step (begun disk ram) (.ok .done)
      (one disk ram) :=
    TwoReaders.step_addPageTo rfl rfl rfl rfl rfl rfl hram (Nat.lt_trans (by decide) hcount) rfl
  have htwo : (PagingOperation.addPage 0x401 .readWrite false).Step (one disk ram) (.ok .done)
      (two disk ram) := by
    refine TwoReaders.step_addPageTo rfl rfl rfl rfl rfl rfl ?_ ?_ rfl
    · rwa [one, holding, start, ByteStore.base_patch, ByteStore.size_patch]
    · rw [one, holding, start, Ram.pageCount_patch]
      exact Nat.lt_trans (by decide) hcount
  have hfull : (PagingOperation.addPage 0x403 .readWrite false).Step (two disk ram) (.ok .done)
      (full disk ram) := by
    refine TwoReaders.step_addPageTo rfl rfl rfl rfl rfl rfl ?_ ?_ rfl
    · rwa [two, holding, start, ByteStore.base_patch, ByteStore.base_patch, ByteStore.size_patch,
        ByteStore.size_patch]
    · rwa [two, holding, start, Ram.pageCount_patch, Ram.pageCount_patch]
  exact .next rfl (.next hone (.next htwo (.next hfull (.done _))))

theorem withinCounts_filling : ∀ e ∈ filling disk ram, WithinCounts e.state := by
  intro e he
  apply withinCounts_of_size
  simp only [filling, List.mem_cons, List.not_mem_nil, or_false] at he
  rcases he with rfl | rfl | rfl | rfl
  · exact Nat.zero_le _
  · exact (by decide : 1 ≤ maxRefs)
  · exact (by decide : 2 ≤ maxRefs)
  · exact (by decide : 3 ≤ maxRefs)

def guarded (first second : Location) (flag : Bool) : Directory :=
  ((Table.empty.insert 0x400 ⟨first, .readWrite, flag⟩).insert 0x401
    ⟨second, .readWrite, true⟩).insert 0x403 ⟨.frame 2, .readWrite, true⟩

def forked : PagedMemory :=
  { full disk ram with
    frameRefs := ((Table.empty.insert 0 2).insert 1 2).insert 2 2
    processes := (Table.empty.insert 1 (guarded (.frame 0) (.frame 1) true)).insert 2
      (guarded (.frame 0) (.frame 1) true)
    nextPid := 3 }

def vacated : PagedMemory where
  disk := disk.patch ((0 : Word).toNat * pageSize) ((forked disk ram).pageAt (.frame 1))
  userPool := ⟨.user, 0, 2, Table.empty.insert 1 ()⟩
  kernelPool := .ofRange .kernel 3 3
  diskPool := { (start disk ram).diskPool with free := (start disk ram).diskPool.free.erase 0 }
  frameRefs := (Table.empty.insert 0 2).insert 2 2
  slotRefs := Table.empty.insert 0 2
  resident := [0, 2]
  processes := (Table.empty.insert 1 (guarded (.frame 0) (.slot 0) true)).insert 2
    (guarded (.frame 0) (.slot 0) true)
  current := some 1
  nextPid := 3
  counters := ⟨0, 0, 0, 1, 0, 1⟩
  ram := zeroed ram

def firstCopied : Ram :=
  (zeroed ram).patch ((1 : Word).toNat * pageSize)
    ((zeroed ram).slice ((0 : Word).toNat * pageSize) pageSize)

theorem size_firstCopied : (firstCopied ram).size = ram.size :=
  (ByteStore.size_patch ..).trans (size_zeroed ram)

theorem base_firstCopied : (firstCopied ram).base = ram.base :=
  (ByteStore.base_patch ..).trans (base_zeroed ram)

/-- The parent has a copy of the first page, and the child the page itself, with or without a
flag. -/
def parted (flag : Bool) (current : Word) (bytes : Ram) : PagedMemory where
  disk := (vacated disk ram).disk
  userPool := ⟨.user, 0, 2, .empty⟩
  kernelPool := .ofRange .kernel 3 3
  diskPool := (vacated disk ram).diskPool
  frameRefs := ((Table.empty.insert 0 1).insert 2 2).insert 1 1
  slotRefs := Table.empty.insert 0 2
  resident := [0, 2, 1]
  processes := (Table.empty.insert 1 (guarded (.frame 1) (.slot 0) false)).insert 2
    (guarded (.frame 0) (.slot 0) flag)
  current := some current
  nextPid := 3
  counters := ⟨0, 0, 0, 1, 1, 1⟩
  ram := bytes

def bereft : PagedMemory where
  disk := (vacated disk ram).disk
  userPool := ⟨.user, 0, 2, Table.empty.insert 0 ()⟩
  kernelPool := .ofRange .kernel 3 3
  diskPool := (vacated disk ram).diskPool
  frameRefs := (Table.empty.insert 2 1).insert 1 1
  slotRefs := Table.empty.insert 0 1
  resident := [2, 1]
  processes := Table.empty.insert 1 (guarded (.frame 1) (.slot 0) false)
  current := none
  nextPid := 3
  counters := ⟨0, 0, 0, 1, 1, 1⟩
  ram := firstCopied ram

def forking : List (Event PagedMemory PagingOperation Answer) :=
  filling disk ram ++ [⟨.forkProcess, .ok (.process 2), forked disk ram⟩]

def parting : List (Event PagedMemory PagingOperation Answer) :=
  forking disk ram ++
    [⟨.translate 0x400010 .write .kernel, .ok .done, parted disk ram true 1 (firstCopied ram)⟩,
      ⟨.switchProcess 2, .ok .done, parted disk ram true 2 (firstCopied ram)⟩,
      ⟨.translate 0x400020 .write .kernel, .ok .done, parted disk ram false 2 (firstCopied ram)⟩,
      ⟨.endProcess 2, .ok .done, bereft disk ram⟩]

variable {disk : Disk} {ram : Ram}

theorem diskPool_start (hslots : Disk.slotCount disk = 1) :
    (start disk ram).diskPool = .ofRange .disk 0 0 := by
  change (if Disk.slotCount disk = 0 then _
    else Pool.ofRange .disk 0 (UInt32.ofNat (Disk.slotCount disk - 1))) = _
  rw [hslots]
  rfl

theorem run_forking (hram : ram.base.toNat + ram.size ≤ 2 ^ 32) (hcount : 2 < Ram.pageCount ram) :
    Run PagingOperation.Step (start disk ram) (forking disk ram) (forked disk ram) :=
  (run_filling disk ram hram hcount).append (.next rfl (.done _))

section
variable (hdisk : disk.base = 0) (hslots : Disk.slotCount disk = 1)
    (hram : ram.base.toNat + ram.size ≤ 2 ^ 32) (hcount : 2 < Ram.pageCount ram)
include hdisk hslots hram hcount

theorem takeFrame_forked :
    (takeFrame .user (some 0)).run (forked disk ram) = .ok 1 ((vacated disk ram).handOut 1) := by
  have hfull : ¬ (forked disk ram).HasFree .user := fun ⟨_, hf⟩ => nomatch hf
  have hvictim : (forked disk ram).victim? .user (some 0) = some 1 := rfl
  have hcounted : (forked disk ram).count? (.frame 1) = some 2 := rfl
  have hkeys : (forked disk ram).diskPool.free.keys = [0] := by
    rw [show (forked disk ram).diskPool = (start disk ram).diskPool from rfl, diskPool_start hslots]
    rfl
  have hread : Ram.readFrame (zeroed ram) 1 = .ok ((forked disk ram).pageAt (.frame 1)) := by
    refine Ram.readFrame_ok ?_ (lt_pageCount_zeroed hcount (by decide))
    rwa [base_zeroed, size_zeroed]
  have hwrite : (Disk.writeSlot 0 ((forked disk ram).pageAt (.frame 1))).run disk = .ok () _ :=
    Disk.writeSlot_ok hdisk (by rw [hslots]; decide) (length_pageAt (forked disk ram) (.frame 1))
  have hevict := evict_run hcounted hkeys hread hwrite rfl rfl
  rw [takeFrame_eq, bind_ok ((makeRoom_run_some hfull hvictim).trans (bind_ok hevict))]
  rfl

theorem translate_parts : Yields (translate 0x400010 .write .kernel) (forked disk ram)
    (.ok (Ram.frameAddress (firstCopied ram) 1 + UInt32.ofNat (0x400010 : Word).pageOffset))
    (parted disk ram true 1 (firstCopied ram)) := by
  have hcopy : (Ram.copyFrame 0 1).run (zeroed ram) = .ok () (firstCopied ram) := by
    refine Ram.copyFrame_ok ?_ (lt_pageCount_zeroed hcount (by decide))
      (lt_pageCount_zeroed hcount (by decide))
    rwa [base_zeroed, size_zeroed]
  have hshared : 1 < (forked disk ram).refs (.frame 0) := (by decide : 1 < 2)
  have hcounted : (vacated disk ram).count? (.frame 0) = some 2 := rfl
  have hd : (vacated disk ram).processes.find? 1 = some (guarded (.frame 0) (.slot 0) true) := rfl
  have hprivate :=
    privatise_run_ownCopy 0x400 hshared (takeFrame_forked hdisk hslots hram hcount) hcopy hcounted
    (by decide) (by decide) rfl hd
  have hparted : (vacated disk ram).ownCopy 1 0x400 0 1 (firstCopied ram) =
      parted disk ram true 1 (firstCopied ram) :=
    rfl
  rw [hparted] at hprivate
  have hlookup : (lookup 0x400 0x400010 .write).run (forked disk ram) =
      .ok ⟨.frame 0, .readWrite, true⟩ (forked disk ram) := rfl
  have hresolve : (resolve 0x400 0x400010 .write .kernel).run (forked disk ram) =
      .ok 1 (parted disk ram true 1 (firstCopied ram)) := (bind_ok hlookup).trans hprivate
  exact (bind_ok hresolve).trans (physical_run (parted disk ram true 1 (firstCopied ram)) 1 _)

theorem run_parting :
    Run PagingOperation.Step (start disk ram) (parting disk ram) (bereft disk ram) := by
  have hstore :
      (PagingOperation.translate 0x400010 .write .kernel).Step (forked disk ram) (.ok .done)
      (parted disk ram true 1 (firstCopied ram)) :=
        map_ok (translate_parts hdisk hslots hram hcount)
  exact (run_forking hram hcount).append
    (.next hstore (.next rfl (.next rfl (.next rfl (.done _)))))

end

theorem withinCounts_forking : ∀ e ∈ forking disk ram, WithinCounts e.state := by
  intro e he
  rcases List.mem_append.mp he with he | he
  · exact withinCounts_filling disk ram e he
  · rw [List.mem_singleton.mp he]
    exact withinCounts_of_size (by decide : 6 ≤ maxRefs)

theorem withinCounts_parted (flag : Bool) (current : Word) (bytes : Ram) :
    WithinCounts (parted disk ram flag current bytes) :=
  withinCounts_of_size (by decide : 6 ≤ maxRefs)

theorem withinCounts_parting : ∀ e ∈ parting disk ram, WithinCounts e.state := by
  intro e he
  rcases List.mem_append.mp he with he | he
  · exact withinCounts_forking e he
  simp only [List.mem_cons, List.not_mem_nil, or_false] at he
  rcases he with rfl | rfl | rfl | rfl
  · exact withinCounts_parted _ _ _
  · exact withinCounts_parted _ _ _
  · exact withinCounts_parted _ _ _
  · exact withinCounts_of_size (by decide : 3 ≤ maxRefs)

end

theorem slotCount_disk : Disk.slotCount disk = 1 := by
  have hdisk : disk = ByteStore.zeroed 0 4096 :=
    congrArg (ByteStore.zeroed 0)
      (by decide : min ((1 : Word).toNat * pageSize) (2 ^ 32 - 1) = 4096)
  rw [Disk.slotCount, hdisk, ByteStore.size_zeroed 0 (by decide)]
  rfl

theorem ram_fits : ram.base.toNat + ByteStore.size ram ≤ 2 ^ 32 ∧ 2 < Ram.pageCount ram := by
  rw [Ram.pageCount, TwoReaders.size_ram]
  decide

theorem ofDevices {ram : Ram} (hbase : ram.base.pageOffset = 0) (hsize : ram.size = 32768)
    (disk : Disk) : Paging.ofDevices ram disk ranges = .ok (Paging.unmapped disk ranges) := by
  unfold Paging.ofDevices Ram.pageCount
  rw [hsize, hbase]
  rfl

theorem bus_ofDevices : Bus.ofDevices ram rom disk window ranges = .ok (bus (start disk ram)) := by
  rw [Bus.ofDevices, TwoReaders.ofRanges, ofDevices rfl TwoReaders.size_ram]
  rfl

/-! ### The stores -/

def parentStored : Ram := (firstCopied ram).patch 0x1010 [0xAA]

def bothStored : Ram := parentStored.patch 0x20 [0xBB]

def storing : List (Event Bus Operation Answer) :=
  (bus (start disk ram)).pagingEvents (forking disk ram) ++
    [⟨.write 0x400010 .byte 0xAA, .ok .done, bus (parted disk ram true 1 parentStored)⟩,
      ⟨.paging (.switchProcess 2), .ok .done, bus (parted disk ram true 2 parentStored)⟩,
      ⟨.swap 0x400020 .byte 0xBB, .ok (.value (UInt32.ofNat (ofBytes (parentStored.slice 0x20 1)))),
        bus (parted disk ram false 2 bothStored)⟩]

theorem ram_parted (flag : Bool) (current : Word) {bytes : Ram} (hbase : bytes.base = ram.base)
    (hsize : bytes.size = ram.size) :
    (parted disk ram flag current bytes).ram.base.toNat +
    (parted disk ram flag current bytes).ram.size ≤ 2 ^ 32 ∧
      2 < Ram.pageCount (parted disk ram flag current bytes).ram := by
  have hcount := Ram.pageCount_congr hsize
  change bytes.base.toNat + bytes.size ≤ 2 ^ 32 ∧ 2 < Ram.pageCount bytes
  rw [hcount, hbase, hsize]
  exact ram_fits

theorem step_parentStores : Operation.Step (.write 0x400010 .byte 0xAA) (bus (forked disk ram))
    (.ok .done) (bus (parted disk ram true 1 parentStored)) := by
  have hcopied := ram_parted true 1 (base_firstCopied ram) (size_firstCopied ram)
  have htranslate : Yields (translate 0x400010 .write .kernel) (forked disk ram) _
      (parted disk ram true 1 (firstCopied ram)) :=
    translate_parts rfl slotCount_disk ram_fits.1 ram_fits.2
  have htransfer :=
    Bus.transfer_byte (b := bus (forked disk ram)) (parted disk ram true 1 (firstCopied ram))
      0x400010 0xAA 1 0x1010 rfl rfl rfl rfl (by decide) (by decide) hcopied.1
      (Nat.lt_trans (by decide) hcopied.2) htranslate
  have hstored :
      (firstCopied ram).patch 0x1010 (toBytes 1 (0xAA : Word).toNat) = parentStored := rfl
  have hstate : ({ parted disk ram true 1 (firstCopied ram) with
      ram :=
        (parted disk ram true 1 (firstCopied ram)).ram.patch 0x1010
          (toBytes 1 (0xAA : Word).toNat) } : PagedMemory) =
      parted disk ram true 1 parentStored := congrArg (parted disk ram true 1) hstored
  rw [hstate] at htransfer
  rw [Operation.Step, Bus.perform_write]
  exact map_ok htransfer

theorem translate_child (bytes : Ram) :
    Yields (translate 0x400020 .write .kernel) (parted disk ram true 2 bytes)
    (.ok (Ram.frameAddress bytes 0 + UInt32.ofNat (0x400020 : Word).pageOffset))
    (parted disk ram false 2 bytes) := rfl

theorem step_childSwaps :
    Operation.Step (.swap 0x400020 .byte 0xBB) (bus (parted disk ram true 2 parentStored))
    (.ok (.value (UInt32.ofNat (ofBytes (parentStored.slice 0x20 1)))))
    (bus (parted disk ram false 2 bothStored)) := by
  have hbase : parentStored.base = ram.base :=
    (ByteStore.base_patch ..).trans (base_firstCopied ram)
  have hsize : parentStored.size = ram.size :=
    (ByteStore.size_patch ..).trans (size_firstCopied ram)
  have hstored := ram_parted false 2 hbase hsize
  have htransfer :=
    Bus.transfer_byte (b := bus (parted disk ram true 2 parentStored))
      (parted disk ram false 2 parentStored) 0x400020 0xBB 0 0x20 rfl rfl rfl rfl (by decide)
      (by decide) hstored.1 (Nat.lt_trans (by decide) hstored.2) (translate_child parentStored)
  exact map_ok htransfer

theorem run_storing :
    Run Operation.Step (bus (start disk ram)) storing
      (bus (parted disk ram false 2 bothStored)) := by
  have hfork : Run Operation.Step (bus (start disk ram)) _ (bus (forked disk ram)) :=
    Bus.run_pagingEvents (b := bus (start disk ram)) (run_forking ram_fits.1 ram_fits.2)
  exact hfork.append (.next step_parentStores (.next rfl (.next step_childSwaps (.done _))))

theorem withinCounts_storing : ∀ e ∈ storing, WithinCounts e.state.memory := by
  intro e he
  rcases List.mem_append.mp he with he | he
  · obtain ⟨e', he', rfl⟩ := List.mem_map.mp he
    exact withinCounts_forking e' he'
  simp only [List.mem_cons, List.not_mem_nil, or_false] at he
  rcases he with rfl | rfl | rfl
  all_goals exact withinCounts_parted _ _ _

end LastSlot

end PagedMachine

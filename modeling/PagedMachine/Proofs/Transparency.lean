import PagedMachine.Proofs.Runs

/-!
# Paging is invisible

Whatever is done on the bus, a program finds the pages, permissions, flags, shares
and bytes of virtual memory, in which nothing is ever moved. The one thing that
shows is want of pages, and it shows only when a pool is exhausted. A store to RAM
by its physical address is outside of this: the bytes that it may change are left
open, and nothing else is.
-/

namespace PagedMachine

structure Matches (e : Event Bus Operation Answer) (f : Event Virtual.Bus Operation Answer) :
    Prop where
  operation : f.operation = e.operation
  answer : f.answer = e.answer
  represents : e.state.Represents f.state
  exhausted : ∀ pool, e.answer = .error (.resourceExhausted pool) → e.state.memory.Exhausted pool

/-- Every run of a bus that was accepted is, step by step, a run of virtual memory. -/
theorem Bus.paging_invisible {ram : Ram} {rom : Rom} {disk : Disk} {window : Word × Word}
    {ranges : PageRanges} {b b' : Bus} {es : List (Event Bus Operation Answer)}
    (hb : Bus.ofDevices ram rom disk window ranges = .ok b)
    (hdisk : disk.base = 0) (hrun : Run Operation.Step b es b') (hpids : creations es < 2 ^ 32 - 1)
    (hcounts : ∀ e ∈ es, PagedMemory.WithinCounts e.state.memory) :
    ∃ fs v, Run Virtual.Bus.Step ⟨.initial, rom, b.regions, .kernel⟩ fs v ∧
      List.Forall₂ Matches es fs := by
  obtain ⟨h, hbudget⟩ := Bus.represents_initial hb hdisk
  have hbudget : b.memory.nextPid.toNat + creations es < 2 ^ 32 := by omega
  refine Run.lockstep (fun b => b.memory.nextPid.toNat)
    (R := Bus.Represents) ?_ es h hbudget hcounts hrun
  intro op b r b' v hr hstep hwithin hpid
  obtain ⟨v', hspec, hr', hnumber, hfault⟩ := hr.step hstep hwithin hpid
  exact ⟨v', hspec, hr', ⟨rfl, rfl, hr', fun pool he => hfault _ he pool rfl⟩, hnumber⟩

theorem LastSlot.invisible : ∃ fs v,
    Run Virtual.Bus.Step ⟨.initial, TwoReaders.rom, TwoReaders.regions, .kernel⟩ fs v ∧
    List.Forall₂ Matches storing fs :=
  Bus.paging_invisible bus_ofDevices rfl run_storing
    (by decide : 2 < 2 ^ 32 - 1) withinCounts_storing

end PagedMachine

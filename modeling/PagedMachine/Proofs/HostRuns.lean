import PagedMachine.Proofs.Views

/-!
# Runs under a host

A host has the operations of the bus, and it may store into the RAM device itself,
by physical address, whatever page is there. A bus that was accepted still
represents one over virtual memory after any such run.
-/

namespace PagedMachine

inductive HostOperation where
  | bus (op : Operation)
  /-- A store into the RAM device. -/
  | store (address : Word) (bytes : List UInt8)
  deriving DecidableEq, Repr

def HostOperation.perform : HostOperation → OnBus Answer
  | bus op => op.perform
  | store address bytes => do
    Bus.onMemory (PagedMemory.onRam (ByteStore.writeBytes address bytes))
    return .done

def HostOperation.Step (op : HostOperation) (b : Bus) (r : Except Fault Answer) (b' : Bus) : Prop :=
  Yields op.perform b r b'

namespace Bus

variable {b b' : Bus} {v : Virtual.Bus} {op : HostOperation} {r : Except Fault Answer}

def hosted (es : List (Event Bus Operation Answer)) : List (Event Bus HostOperation Answer) :=
  es.map fun e => ⟨.bus e.operation, e.answer, e.state⟩

theorem run_hosted {es : List (Event Bus Operation Answer)} (h : Run Operation.Step b es b') :
    Run HostOperation.Step b (hosted es) b' := by
  induction h with
  | done => exact .done _
  | next hstep _ ih => exact .next hstep ih

theorem Represents.hostStep (hr : Represents b v) (hstep : op.Step b r b')
    (hcounts : PagedMemory.WithinCounts b'.memory)
    (hpid : b.memory.nextPid.toNat + created r < 2 ^ 32) :
    (∃ v', Represents b' v') ∧ b'.memory.nextPid.toNat = b.memory.nextPid.toNat + created r := by
  cases op with
  | bus op =>
    obtain ⟨v', -, hr', hnumber, -⟩ := hr.step hstep hcounts hpid
    exact ⟨⟨v', hr'⟩, hnumber⟩
  | store address bytes =>
    obtain ⟨r₁, b₁, v', hx, hy, hr', -⟩ := mirrors_physical hr address bytes Answer.done
    obtain ⟨rfl, rfl⟩ := hstep.unique hx
    have hmade : created r = 0 := by
      rcases hstep.of_bind with ⟨_, _, -, hdone⟩ | ⟨e, rfl, -⟩
      · obtain ⟨rfl, -⟩ := hdone.of_pure
        rfl
      · rfl
    have hpids : v'.memory.nextPid = v.memory.nextPid := by
      rcases hy with rfl | ⟨-, contents, rfl⟩
      · rfl
      · rfl
    rw [hmade, ← hr'.memory.nextPid, ← hr.memory.nextPid, hpids]
    exact ⟨⟨v', hr'⟩, rfl⟩

/-- A run from a bus that was accepted ends in one that represents virtual memory. -/
theorem represents_of_run {ram : Ram} {rom : Rom} {disk : Disk} {window : Word × Word}
    {ranges : PageRanges} {es : List (Event Bus HostOperation Answer)}
    (hb : Bus.ofDevices ram rom disk window ranges = .ok b)
    (hdisk : disk.base = 0) (hrun : Run HostOperation.Step b es b')
    (hpids : creations es < 2 ^ 32 - 1)
    (hcounts : ∀ e ∈ es, PagedMemory.WithinCounts e.state.memory) : ∃ v, Represents b' v := by
  obtain ⟨hr, hfirst⟩ := represents_initial hb hdisk
  have h := hrun.preserves (fun b => b.memory.nextPid.toNat) (I := fun b => ∃ v, Represents b v)
    (F := fun e => PagedMemory.WithinCounts e.state.memory)
    (fun op s r s' ⟨v, hr⟩ hstep hcounts hpid => hr.hostStep hstep hcounts hpid)
  exact (h ⟨_, hr⟩ (by omega) hcounts).1

end Bus

end PagedMachine

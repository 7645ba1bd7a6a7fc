import PagedMachine.Proofs.Mappings
import PagedMachine.Proofs.Transfer

/-!
# Every operation of paged memory

Whatever is asked of a consistent memory, it does what virtual memory may do and
is consistent again, as long as pages can still be counted and processes still
be numbered.
-/

namespace PagedMachine

def WithinBounds (m : PagedMemory) (r : Except Fault Answer) (m' : PagedMemory) : Prop :=
  PagedMemory.WithinCounts m' ∧ m.nextPid.toNat + created r < 2 ^ 32

namespace PagedMemory

variable {m m' : PagedMemory} {v : Virtual.Memory}

theorem Consistent.perform (h : Consistent m) (hv : Represents m v) (op : PagingOperation)
    (hbound : ∀ r m', Yields op.perform m r m' → WithinBounds m r m') :
    Agrees op.perform (Virtual.perform op) m v fun a c _ _ => a = c := by
  cases op with
  | beginProcess =>
    have hpid : ∀ pid m', PagedMemory.beginProcess.run m = .ok pid m' →
        m.nextPid.toNat + 1 < 2 ^ 32 :=
      fun pid m' hrun => (hbound (.ok (.process pid)) m' (map_ok hrun)).2
    exact (h.beginProcess hv hpid).map _ _ fun _ _ _ _ he => congrArg _ he
  | endProcess pid => exact (h.endProcess hv pid).map _ _ fun _ _ _ _ _ => rfl
  | switchProcess pid => exact (h.switchProcess hv pid).map _ _ fun _ _ _ _ _ => rfl
  | forkProcess =>
    have hpid : ∀ q m', PagedMemory.forkProcess.run m = .ok q m' →
        WithinCounts m' ∧ m.nextPid.toNat + 1 < 2 ^ 32 := by
      exact fun q m' hrun => hbound (.ok (.process q)) m' (map_ok hrun)
    exact (h.forkProcess hv hpid).map _ _ fun _ _ _ _ he => congrArg _ he
  | addPage page permissions cow =>
    exact (h.addPage hv page permissions cow).map _ _ fun _ _ _ _ _ => rfl
  | removePage page => exact (h.removePage hv page).map _ _ fun _ _ _ _ _ => rfl
  | removeAll => exact (h.removeAll hv).map _ _ fun _ _ _ _ _ => rfl
  | sharePage pid source target cow =>
    have hcounts : ∀ m', (PagedMemory.sharePage pid source target cow).run m = .ok () m' →
        WithinCounts m' :=
      fun m' hrun => (hbound (.ok .done) m' (map_ok hrun)).1
    exact (h.sharePage hv pid source target cow hcounts).map _ _ fun _ _ _ _ _ => rfl
  | pageOut page => exact (h.pageOut hv page).map _ _ fun _ _ _ _ _ => rfl
  | translate address access privilege =>
    exact (h.translate hv address access privilege).map _ _ fun _ _ _ _ _ => rfl
  | translatePage page access privilege =>
    exact (h.translatePage hv page access privilege).map _ _ fun _ _ _ _ _ => rfl
  | translateHostWrite address =>
    exact (h.translateHostWrite hv address).map _ _ fun _ _ _ _ _ => rfl

end PagedMemory

end PagedMachine

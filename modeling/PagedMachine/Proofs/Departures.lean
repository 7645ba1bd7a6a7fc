import PagedMachine.Proofs.Stability

/-!
# The queue between arrivals

Only the operations that need a frame put one into the queue or make a pool give
one up. The others leave the queue as it is, or take frames out of it, and none
of them counts as an eviction.
-/

namespace PagedMachine

def PagingOperation.needsFrame : PagingOperation → Bool
  | addPage .. | translate .. | translatePage .. | translateHostWrite .. => true
  | _ => false

namespace PagedMemory

/-- What can be told from the queue and the number of evictions. -/
structure OfQueue (I : PagedMemory → Prop) : Prop where
  other : ∀ {m m'}, I m → m'.resident = m.resident →
    m'.counters.evictions = m.counters.evictions → I m'

structure OfRemaining (I : PagedMemory → Prop) : Prop extends OfQueue I where
  leave : ∀ m frame, I m → I { m with resident := m.resident.filter (· != frame) }

namespace OfQueue

variable {I : PagedMemory → Prop} (hI : OfQueue I)
include hI

theorem onRam {α : Type} (x : EStateM Fault Ram α) : Keeps I (onRam x) :=
  keeps_focus_of fun _ _ _ hm _ => hI.other hm rfl rfl

theorem onDisk {α : Type} (x : EStateM Fault Disk α) : Keeps I (onDisk x) :=
  keeps_focus_of fun _ _ _ hm _ => hI.other hm rfl rfl

theorem onPool {α : Type} (kind : PoolKind) (x : EStateM Fault Pool α) : Keeps I (onPool kind x) :=
  keeps_focus_of fun m _ pool hm _ =>
    hI.other hm (m.resident_setPool kind pool) (by simp only [Paging.counters_setPool])

theorem tally {f : PagingCounters → PagingCounters} (hf : ∀ c, (f c).evictions = c.evictions) :
    Keeps I (tally f) :=
  keeps_modify fun _ hm => hI.other hm rfl (hf _)

theorem repoint (source target : Location) : Keeps I (repoint source target) :=
  keeps_modify fun _ hm => hI.other hm rfl rfl

theorem updateCurrent (f : Directory → Directory) : Keeps I (updateCurrent f) := by
  refine keeps_get_bind fun _ _ => (keeps_outcome _).bind fun _ => keeps_modify fun m hm => ?_
  split
  · exact hI.other hm rfl rfl
  · exact hm

theorem retain (l : Location) : Keeps I (retain l) := by
  refine keeps_modify fun m hm => ?_
  cases l <;> exact hI.other hm rfl rfl

theorem retainAll (ls : List Location) : Keeps I (ls.forM PagedMemory.retain) := by
  induction ls with
  | nil => exact keeps_pure _
  | cons l ls ih => exact (hI.retain l).bind fun _ => ih

theorem addProcess (d : Directory) : Keeps I (addProcess d) := by
  intro m r m' hm hstep
  obtain ⟨-, rfl⟩ := hstep.eq_of_ok (addProcess_numbered d)
  exact hI.other hm rfl rfl

theorem lookup (page address : Word) (access : Access) : Keeps I (lookup page address access) := by
  refine keeps_get_bind fun _ _ => (keeps_outcome _).bind fun d => ?_
  split
  · exact keeps_pure _
  · exact .bind (hI.tally fun _ => rfl) fun _ => keeps_throw _

/-! ## Operations -/

theorem beginProcess : Keeps I beginProcess :=
  (hI.addProcess _).bind fun _ => .bind (keeps_modify fun _ hm => hI.other hm rfl rfl) fun _ =>
    keeps_pure _

theorem switchProcess (pid : Word) : Keeps I (switchProcess pid) := by
  refine keeps_get_bind fun _ _ => ?_
  split
  · exact keeps_modify fun _ hm => hI.other hm rfl rfl
  · exact keeps_throw _

theorem forkProcess : Keeps I forkProcess :=
  (hI.updateCurrent _).bind fun _ => keeps_get_bind fun _ _ => (keeps_outcome _).bind fun _ =>
    (hI.retainAll _).bind fun _ => hI.addProcess _

theorem sharePage (pid source target : Word) (copyOnWrite : Bool) :
    Keeps I (sharePage pid source target copyOnWrite) := by
  refine (keeps_outcome _).bind fun _ => (keeps_outcome _).bind fun _ => keeps_get_bind fun _ _ =>
    (keeps_outcome _).bind fun d => ?_
  split
  · exact keeps_throw_bind _ _
  · refine keeps_get_bind fun _ _ => ?_
    split
    · exact keeps_throw _
    · split
      · exact keeps_throw _
      · exact .bind (keeps_modify fun _ hm => hI.other hm rfl rfl) fun _ =>
          (hI.retain _).bind fun _ =>
          hI.updateCurrent _

end OfQueue

namespace OfRemaining

variable {I : PagedMemory → Prop} (hI : OfRemaining I)
include hI

theorem release (l : Location) : Keeps I (release l) := by
  refine keeps_get_bind fun m hm => ?_
  cases l with
  | frame frame =>
    dsimp only
    split
    · exact keeps_throw _
    · split
      · exact keeps_set (hI.other hm rfl rfl)
      · exact .bind (keeps_set (hI.other (hI.leave m frame hm) rfl rfl)) fun _ => hI.onPool _ _
  | slot slot =>
    dsimp only
    split
    · exact keeps_throw _
    · split
      · exact keeps_set (hI.other hm rfl rfl)
      · exact .bind (keeps_set (hI.other hm rfl rfl)) fun _ => hI.onPool _ _

theorem releaseAll (ls : List Location) : Keeps I (releaseAll ls) := by
  induction ls with
  | nil => exact keeps_pure _
  | cons l ls ih =>
    exact (keeps_attempt (hI.release l)).bind fun _ => (keeps_attempt ih).bind fun _ =>
      keeps_outcome _

theorem evict (frame : Word) : Keeps I (evict frame) := by
  refine keeps_get_bind fun _ _ => keeps_get_bind fun _ _ => ?_
  split
  · exact keeps_throw _
  · exact keeps_get_bind fun _ _ => (keeps_outcome _).bind fun _ => (hI.onPool _ _).bind fun _ =>
      (hI.onDisk _).bind fun _ =>
        .bind (keeps_modify fun m hm => hI.other (hI.leave m frame hm) rfl rfl) fun _ =>
      (hI.repoint _ _).bind fun _ => (hI.onPool _ _).bind fun _ => hI.tally fun _ => rfl

/-! ## Operations -/

theorem endProcess (pid : Word) : Keeps I (endProcess pid) := by
  refine keeps_get_bind fun _ _ => ?_
  split
  · exact keeps_throw _
  · exact .bind (keeps_modify fun _ hm => hI.other hm rfl rfl) fun _ => hI.releaseAll _

theorem removePage (page : Word) : Keeps I (removePage page) :=
  keeps_get_bind fun _ _ => (keeps_outcome _).bind fun _ => (hI.updateCurrent _).bind fun _ =>
    hI.release _

theorem removeAll : Keeps I removeAll :=
  keeps_get_bind fun _ _ => (keeps_outcome _).bind fun _ => (hI.updateCurrent _).bind fun _ =>
    hI.releaseAll _

theorem pageOut (page : Word) : Keeps I (pageOut page) := by
  refine keeps_get_bind fun _ _ => (keeps_outcome _).bind fun _ => ?_
  split
  · exact hI.evict _
  · exact keeps_pure _

theorem perform {op : PagingOperation} (h : op.needsFrame = false) : Keeps I op.perform := by
  cases op with
  | beginProcess => exact hI.beginProcess.map _
  | endProcess pid => exact (hI.endProcess pid).map _
  | switchProcess pid => exact (hI.switchProcess pid).map _
  | forkProcess => exact hI.forkProcess.map _
  | removePage page => exact (hI.removePage page).map _
  | removeAll => exact hI.removeAll.map _
  | sharePage pid source target cow => exact (hI.sharePage pid source target cow).map _
  | pageOut page => exact (hI.pageOut page).map _
  | addPage | translate | translatePage | translateHostWrite => cases h

end OfRemaining

end PagedMemory

end PagedMachine

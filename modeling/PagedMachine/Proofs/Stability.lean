import PagedMachine.Proofs.Mappings
import PagedMachine.Proofs.Operations

/-!
# What no operation ends

Every operation is put together from a few kinds of change: a device is written in
place, the free pages of a pool change, something is counted, or directories change.
What outlives each of these outlives every operation, whatever its answer is.
-/

namespace PagedMachine

/-- What is done to a part keeps what holds of the whole. -/
theorem keeps_focus_of {σ τ α : Type} {I : σ → Prop} {split : σ → τ × (τ → σ)}
    {y : EStateM Fault τ α} (h : ∀ s r t, I s → Yields y (split s).1 r t → I ((split s).2 t)) :
    Keeps I (focus split y) := by
  intro s r s' hs hstep
  obtain ⟨r₁, t, hy⟩ := yields_exists y (split s).1
  cases r₁ with
  | ok a => exact (hstep.eq_of_ok (focus_ok hy)).2 ▸ h s _ t hs hy
  | error e => exact (hstep.eq_of_error (focus_error hy)).2 ▸ h s _ t hs hy

theorem Yields.of_ofExcept {σ α : Type} {s s' : σ} {x r : Except Fault α}
    (h : Yields (MonadExcept.ofExcept x : EStateM Fault σ α) s r s') : s' = s := by
  cases x with
  | ok a => exact (h.eq_of_ok (ofExcept_ok rfl s)).2
  | error e => exact (h.eq_of_error rfl).2

/-! ## Devices and pools -/

theorem Ram.extent_of_writeFrame {ram ram' : Ram} {frame : Word} {page : List UInt8}
    {r : Except Fault Unit} (h : Yields (writeFrame frame page) ram r ram') :
    ram'.base = ram.base ∧ ram'.size = ram.size :=
  ByteStore.extent_of_writeBytes h.of_get_bind

theorem Ram.extent_of_copyFrame {ram ram' : Ram} {source target : Word} {r : Except Fault Unit}
    (h : Yields (copyFrame source target) ram r ram') :
    ram'.base = ram.base ∧ ram'.size = ram.size := by
  rcases (Yields.of_get_bind h).of_bind with ⟨page, ram₁, hread, hwrite⟩ | ⟨e, -, hread⟩
  · obtain rfl := hread.of_ofExcept
    exact extent_of_writeFrame hwrite
  · obtain rfl := hread.of_ofExcept
    exact ⟨rfl, rfl⟩

theorem Disk.extent_of_writeSlot {disk disk' : Disk} {slot : Word} {page : List UInt8}
    {r : Except Fault Unit} (h : Yields (writeSlot slot page) disk r disk') :
    disk'.base = disk.base ∧ disk'.size = disk.size := by
  rcases h.of_bind with ⟨address, disk₁, haddress, hwrite⟩ | ⟨e, -, haddress⟩
  · obtain rfl := haddress.of_ofExcept
    exact ByteStore.extent_of_writeBytes hwrite
  · obtain rfl := haddress.of_ofExcept
    exact ⟨rfl, rfl⟩

namespace Pool

variable {p p' : Pool} {page : Word}

def Refits (p p' : Pool) : Prop :=
  ∃ free, p' = { p with free := free } ∧ ∀ page, free.contains page → p.isFree page ∨ p.owns page

theorem refits_allocate {r : Except Fault Word} (h : Yields allocate p r p') : p.Refits p' := by
  have h := h.of_get_bind
  split at h
  · obtain ⟨-, rfl⟩ := h.of_throw
    exact ⟨p'.free, rfl, fun _ => .inl⟩
  · obtain ⟨-, rfl⟩ := h.eq_of_ok rfl
    refine ⟨_, rfl, fun page hp => .inl ?_⟩
    rw [Table.contains_erase, Bool.and_eq_true] at hp
    exact hp.2

theorem refits_release {r : Except Fault Unit} (h : Yields (release page) p r p') :
    p.Refits p' := by
  have h := h.of_get_bind
  split at h
  · rename_i howns
    obtain ⟨-, rfl⟩ := h.eq_of_ok rfl
    refine ⟨_, rfl, fun page' hp => ?_⟩
    rw [Table.contains_insert, Bool.or_eq_true, decide_eq_true_eq] at hp
    exact hp.elim (fun e => .inr (e ▸ howns.1)) .inl
  · obtain ⟨-, rfl⟩ := h.of_throw
    exact ⟨p'.free, rfl, fun _ => .inl⟩

end Pool

namespace PagedMemory

structure Stable (I : PagedMemory → Prop) : Prop where
  ram : ∀ m ram, I m → ram.base = m.ram.base → ram.size = m.ram.size → I { m with ram := ram }
  disk : ∀ m disk, I m → disk.base = m.disk.base → disk.size = m.disk.size →
    I { m with disk := disk }
  pool : ∀ m kind pool, I m → (m.pool kind).Refits pool →
    I { m with toPaging := m.setPool kind pool }
  books : ∀ m frameRefs slotRefs resident counters, I m →
    I { m with frameRefs, slotRefs, resident, counters }
  processes : ∀ m processes current, I m →
    (∀ pid, processes.contains pid → m.processes.contains pid) →
    I { m with processes, current }

namespace Stable

variable {I : PagedMemory → Prop} (hI : Stable I)
include hI

theorem writeFrame (frame : Word) (page : List UInt8) :
    Keeps I (onRam (Ram.writeFrame frame page)) :=
  keeps_focus_of fun m _ ram hm h =>
    hI.ram m ram hm (Ram.extent_of_writeFrame h).1 (Ram.extent_of_writeFrame h).2

theorem copyFrame (source target : Word) : Keeps I (onRam (Ram.copyFrame source target)) :=
  keeps_focus_of fun m _ ram hm h =>
    hI.ram m ram hm (Ram.extent_of_copyFrame h).1 (Ram.extent_of_copyFrame h).2

theorem writeSlot (slot : Word) (page : List UInt8) : Keeps I (onDisk (Disk.writeSlot slot page)) :=
  keeps_focus_of fun m _ disk hm h =>
    hI.disk m disk hm (Disk.extent_of_writeSlot h).1 (Disk.extent_of_writeSlot h).2

theorem allocate (kind : PoolKind) : Keeps I (onPool kind Pool.allocate) :=
  keeps_focus_of fun m _ pool hm h => hI.pool m kind pool hm (Pool.refits_allocate h)

theorem releasePage (kind : PoolKind) (page : Word) : Keeps I (onPool kind (Pool.release page)) :=
  keeps_focus_of fun m _ pool hm h => hI.pool m kind pool hm (Pool.refits_release h)

theorem tally (f : PagingCounters → PagingCounters) : Keeps I (tally f) :=
  keeps_modify fun m hm => hI.books m _ _ _ _ hm

/-! ## Counts and directories -/

theorem repoint (source target : Location) : Keeps I (repoint source target) :=
  keeps_modify fun m hm => hI.processes m _ _ hm fun pid hp => by rwa [Table.contains_map] at hp

theorem track (frame : Word) (count : Nat) : Keeps I (track frame count) :=
  keeps_modify fun m hm => hI.books m _ _ _ _ hm

theorem retain (l : Location) : Keeps I (retain l) := by
  refine keeps_modify fun m hm => ?_
  cases l <;> exact hI.books m _ _ _ _ hm

theorem retainAll (ls : List Location) : Keeps I (ls.forM PagedMemory.retain) := by
  induction ls with
  | nil => exact keeps_pure _
  | cons l ls ih => exact (hI.retain l).bind fun _ => ih

theorem updateCurrent (f : Directory → Directory) : Keeps I (updateCurrent f) := by
  refine keeps_get_bind fun _ _ => (keeps_outcome _).bind fun _ => keeps_modify fun m hm => ?_
  split
  · exact hI.processes m _ _ hm fun pid hp => by rwa [Table.contains_update] at hp
  · exact hm

theorem release (l : Location) : Keeps I (release l) := by
  refine keeps_get_bind fun m hm => ?_
  cases l
  all_goals
    dsimp only
    split
    · exact keeps_throw _
    · split
      · exact keeps_set (hI.books m _ _ _ _ hm)
      · exact (keeps_set (hI.books m _ _ _ _ hm)).bind fun _ => hI.releasePage _ _

theorem releaseAll (ls : List Location) : Keeps I (releaseAll ls) := by
  induction ls with
  | nil => exact keeps_pure _
  | cons l ls ih =>
    exact (keeps_attempt (hI.release l)).bind fun _ => (keeps_attempt ih).bind fun _ =>
      keeps_outcome _

/-! ## Pages on the move -/

theorem evict (frame : Word) : Keeps I (evict frame) := by
  refine keeps_get_bind fun _ _ => keeps_get_bind fun _ _ => ?_
  split
  · exact keeps_throw _
  · exact keeps_get_bind fun _ _ => (keeps_outcome _).bind fun _ => (hI.allocate _).bind fun _ =>
      (hI.writeSlot _ _).bind fun _ =>
        (keeps_modify fun m hm => hI.books m _ _ _ _ hm).bind fun _ =>
      (hI.repoint _ _).bind fun _ => (hI.releasePage _ _).bind fun _ => hI.tally _

theorem takeFrame (kind : PoolKind) (pinned : Option Word) : Keeps I (takeFrame kind pinned) := by
  rw [takeFrame_eq]
  refine Keeps.bind ?_ fun _ => hI.allocate _
  refine keeps_get_bind fun _ _ => ?_
  split
  · refine keeps_get_bind fun _ _ => ?_
    split
    · exact keeps_throw _
    · exact (hI.evict _).bind fun _ => hI.tally _
  · exact keeps_pure _

theorem pageIn (slot : Word) (kind : PoolKind) : Keeps I (pageIn slot kind) := by
  refine keeps_get_bind fun _ _ => (keeps_outcome _).bind fun _ => (hI.takeFrame _ _).bind fun _ =>
    (hI.writeFrame _ _).bind fun _ => keeps_get_bind fun _ _ => ?_
  split
  · exact keeps_throw _
  · exact (keeps_modify fun m hm => hI.books m _ _ _ _ hm).bind fun _ =>
      (hI.releasePage _ _).bind fun _ =>
      (hI.repoint _ _).bind fun _ => (hI.track _ _).bind fun _ => (hI.tally _).bind fun _ =>
        keeps_pure _

theorem privatise (page frame : Word) : Keeps I (privatise page frame) := by
  have hown : ∀ target,
      Keeps I (do PagedMemory.updateCurrent (·.update page (own target)); return target) :=
    fun _ => (hI.updateCurrent _).bind fun _ => keeps_pure _
  refine keeps_get_bind fun _ _ => ?_
  dsimp only
  split
  · exact keeps_get_bind fun _ _ => (hI.takeFrame _ _).bind fun _ =>
      (hI.copyFrame _ _).bind fun _ =>
      (hI.track _ _).bind fun _ => (hI.release _).bind fun _ => (hI.tally _).bind fun _ =>
        (keeps_pure _).bind hown
  · exact (keeps_pure _).bind hown

/-! ## Operations -/

theorem materialise (page : Word) (mp : Mapping) (access : Access) :
    Keeps I (materialise page mp access) := by
  rw [materialise_eq]
  refine Keeps.bind ?_ fun frame => ?_
  · unfold bringIn
    split
    · exact keeps_pure _
    · exact hI.pageIn _ _
  · split
    · exact hI.privatise _ _
    · exact keeps_pure _

theorem lookup (page address : Word) (access : Access) : Keeps I (lookup page address access) := by
  refine keeps_get_bind fun _ _ => (keeps_outcome _).bind fun d => ?_
  split
  · exact keeps_pure _
  · exact (hI.tally _).bind fun _ => keeps_throw _

theorem resolve (page address : Word) (access : Access) (privilege : Privilege) :
    Keeps I (resolve page address access privilege) := by
  refine (hI.lookup _ _ _).bind fun mp => ?_
  split
  · exact hI.materialise _ _ _
  · exact (hI.tally _).bind fun _ => keeps_throw _

omit hI in
theorem physical (frame : Word) (offset : Nat) : Keeps I (physical frame offset) :=
  keeps_get_bind fun _ _ => keeps_pure _

theorem endProcess (pid : Word) : Keeps I (endProcess pid) := by
  refine keeps_get_bind fun _ _ => ?_
  split
  · exact keeps_throw _
  · refine (keeps_modify fun m hm => hI.processes m _ _ hm fun q hq => ?_).bind fun _ =>
      hI.releaseAll _
    rw [Table.contains_erase, Bool.and_eq_true] at hq
    exact hq.2

theorem switchProcess (pid : Word) : Keeps I (switchProcess pid) := by
  refine keeps_get_bind fun _ _ => ?_
  split
  · exact keeps_modify fun m hm => hI.processes m _ _ hm fun _ => id
  · exact keeps_throw _

theorem addPage (page : Word) (permissions : Permissions) (copyOnWrite : Bool) :
    Keeps I (addPage page permissions copyOnWrite) := by
  refine (keeps_outcome _).bind fun _ => keeps_get_bind fun _ _ =>
    (keeps_outcome _).bind fun d => ?_
  split
  · exact keeps_throw_bind _ _
  · exact (hI.takeFrame _ _).bind fun _ => (hI.writeFrame _ _).bind fun _ =>
      (hI.track _ _).bind fun _ =>
      (hI.updateCurrent _).bind fun _ => keeps_pure _

theorem removePage (page : Word) : Keeps I (removePage page) :=
  keeps_get_bind fun _ _ => (keeps_outcome _).bind fun _ => (hI.updateCurrent _).bind fun _ =>
    hI.release _

theorem removeAll : Keeps I removeAll :=
  keeps_get_bind fun _ _ => (keeps_outcome _).bind fun _ => (hI.updateCurrent _).bind fun _ =>
    hI.releaseAll _

theorem pageOut (page : Word) : Keeps I (pageOut page) := by
  refine keeps_get_bind fun _ _ => (keeps_outcome _).bind fun _ => ?_
  split
  · exact hI.evict _
  · exact keeps_pure _

theorem sharePage (pid source target : Word) (copyOnWrite : Bool) :
    Keeps I (sharePage pid source target copyOnWrite) := by
  refine (keeps_outcome _).bind fun _ => (keeps_outcome _).bind fun _ => keeps_get_bind fun _ _ =>
    (keeps_outcome _).bind fun d => ?_
  split
  · exact keeps_throw_bind _ _
  · refine keeps_get_bind fun _ _ => ?_
    split
    · exact keeps_throw _
    · split
      · exact keeps_throw _
      · refine (keeps_modify fun m hm => hI.processes m _ _ hm fun q hq => ?_).bind fun _ =>
          (hI.retain _).bind fun _ =>
          hI.updateCurrent _
        rwa [Table.contains_update] at hq

/-- No operation ends it but one that creates a process. -/
theorem perform {op : PagingOperation} (hbegin : op ≠ .beginProcess) (hfork : op ≠ .forkProcess) :
    Keeps I op.perform := by
  cases op with
  | beginProcess => exact absurd rfl hbegin
  | forkProcess => exact absurd rfl hfork
  | endProcess pid => exact (hI.endProcess pid).map _
  | switchProcess pid => exact (hI.switchProcess pid).map _
  | addPage page permissions cow => exact (hI.addPage page permissions cow).map _
  | removePage page => exact (hI.removePage page).map _
  | removeAll => exact hI.removeAll.map _
  | sharePage pid source target cow => exact (hI.sharePage pid source target cow).map _
  | pageOut page => exact (hI.pageOut page).map _
  | translate address access privilege =>
    exact ((hI.resolve _ _ _ _).bind fun _ => physical _ _).map _
  | translatePage page access privilege =>
    exact ((keeps_outcome _).bind fun _ => hI.resolve _ _ _ _).map _
  | translateHostWrite address =>
    exact ((hI.lookup _ _ _).bind fun _ => (hI.materialise _ _ _).bind fun _ => physical _ _).map _

variable (hnumbered : ∀ m d, I m → I (m.numbered d))
include hnumbered

omit hI in
theorem addProcess (d : Directory) : Keeps I (addProcess d) := by
  intro m r m' hm hstep
  obtain ⟨-, rfl⟩ := hstep.eq_of_ok (addProcess_numbered d)
  exact hnumbered m d hm

/-- A new number ends it no more than anything else. -/
theorem step {op : PagingOperation} : Keeps I op.perform := by
  cases op with
  | beginProcess =>
    exact ((addProcess hnumbered _).bind fun _ =>
      (keeps_modify fun m hm => hI.processes m _ _ hm fun _ => id).bind fun _ => keeps_pure _).map _
  | forkProcess =>
    exact ((hI.updateCurrent _).bind fun _ => keeps_get_bind fun _ _ =>
      (keeps_outcome _).bind fun _ =>
      (hI.retainAll _).bind fun _ => addProcess hnumbered _).map _
  | _ => exact hI.perform (by nofun) (by nofun)

end Stable

end PagedMemory

end PagedMachine

import PagedMachine.Bus
import PagedMachine.Proofs.Behaviour

/-!
# The faults of a transfer

A transfer fails for reasons of memory: no store is there, a page is not mapped or
not permitted, a pool is used up, the books disagree, or there is no process. What
an action may raise is what its parts may raise, so the parts are gone through one
by one, from the byte stores up to the bus. No invariant is needed: this holds in
every state.
-/

namespace PagedMachine

def Raises {σ α : Type} (P : Fault → Prop) (x : EStateM Fault σ α) : Prop :=
  ∀ s e s', Yields x s (.error e) s' → P e

section
variable {σ τ α β : Type} {P : Fault → Prop} {x : EStateM Fault σ α} {f : α → EStateM Fault σ β}

theorem raises_pure (a : α) : Raises P (pure a : EStateM Fault σ α) := by
  intro s e s' h
  cases h.of_pure.1

theorem raises_throw {e : Fault} (he : P e) : Raises P (throw e : EStateM Fault σ α) := by
  intro s e' s' h
  obtain ⟨h, -⟩ := h.of_throw
  rwa [Except.error.inj h]

theorem raises_outcome {r : Except Fault α} (hr : ∀ e, r = .error e → P e) :
    Raises P (outcome r : EStateM Fault σ α) := by
  intro s e s' h
  apply hr
  exact h.of_outcome.1.symm

theorem raises_ofExcept {r : Except Fault α} (hr : ∀ e, r = .error e → P e) :
    Raises P (MonadExcept.ofExcept r : EStateM Fault σ α) := by
  intro s e s' h
  cases r with
  | ok a => cases (h.eq_of_ok (ofExcept_ok rfl s)).1
  | error e' =>
    obtain ⟨h, -⟩ := h.of_throw
    exact hr e (congrArg _ (Except.error.inj h).symm)

theorem raises_modify (g : σ → σ) : Raises P (modify g : EStateM Fault σ Unit) := by
  intro s e s' h
  cases (h.eq_of_ok (show (modify g : EStateM Fault σ Unit).run s = .ok () (g s) from rfl)).1

theorem raises_set (t : σ) : Raises P (set t : EStateM Fault σ PUnit) := by
  intro s e s' h
  cases (h.eq_of_ok (show (set t : EStateM Fault σ PUnit).run s = .ok () t from rfl)).1

theorem Raises.bind (hx : Raises P x) (hf : ∀ a, Raises P (f a)) : Raises P (x >>= f) := by
  intro s e s' h
  rcases h.of_bind with ⟨a, t, -, h⟩ | ⟨e', he, h⟩
  · exact hf a t e s' h
  · rw [Except.error.inj he]
    exact hx s e' s' h

theorem raises_get_bind {f : σ → EStateM Fault σ β} (hf : ∀ s, Raises P (f s)) :
    Raises P (get >>= f) :=
  fun s e s' h => hf s s e s' h.of_get_bind

theorem Raises.map (hx : Raises P x) (g : α → β) : Raises P (g <$> x) := by
  intro s e s' h
  obtain ⟨r, hr, hx'⟩ := h.of_map
  cases r with
  | ok a => cases hr
  | error e' =>
    rw [Except.error.inj hr]
    exact hx s e' s' hx'

theorem raises_focus {split : σ → τ × (τ → σ)} {y : EStateM Fault τ α} (hy : Raises P y) :
    Raises P (focus split y) := by
  intro s e s' h
  obtain ⟨r, t, hrun⟩ := yields_exists y (split s).1
  cases r with
  | ok a => cases (h.eq_of_ok (focus_ok hrun)).1
  | error e' =>
    rw [Except.error.inj (h.eq_of_error (focus_error hrun)).1]
    exact hy _ e' t hrun

end

def Fault.OfMemory (e : Fault) : Prop := e.kind ≠ .invalidOpcode

abbrev MemoryFaults {σ α : Type} (x : EStateM Fault σ α) : Prop := Raises Fault.OfMemory x

theorem error_of_map {α β : Type} {r : Except Fault α} {g : α → β} {e : Fault}
    (h : r.map g = .error e) : r = .error e := by
  cases r with
  | ok a => cases h
  | error e' => exact congrArg _ (Except.error.inj h)

/-! ## Devices and pools -/

namespace ByteStore

theorem ofMemory_of_span {s : ByteStore} {address : Word} {length : Nat} {e : Fault}
    (h : s.span address length = .error e) : e.OfMemory := by
  unfold span at h
  split at h <;> cases h
  exact nofun

theorem ofMemory_of_readBytes {s : ByteStore} {address : Word} {length : Nat} {e : Fault}
    (h : s.readBytes address length = .error e) : e.OfMemory :=
  ofMemory_of_span (error_of_map h)

theorem ofMemory_of_read {s : ByteStore} {address : Word} {width : Width} {e : Fault}
    (h : s.read address width = .error e) : e.OfMemory :=
  ofMemory_of_readBytes (error_of_map h)

theorem writeBytes_memoryFaults (address : Word) (bytes : List UInt8) :
    MemoryFaults (writeBytes address bytes) := by
  apply raises_get_bind
  intro s
  apply Raises.bind
  · exact raises_ofExcept fun e h => ofMemory_of_span h
  · exact fun offset => raises_modify _

end ByteStore

theorem Ram.writeFrame_memoryFaults (frame : Word) (page : List UInt8) :
    MemoryFaults (Ram.writeFrame frame page) :=
  raises_get_bind fun _ => ByteStore.writeBytes_memoryFaults _ page

theorem Ram.copyFrame_memoryFaults (source target : Word) :
    MemoryFaults (Ram.copyFrame source target) := by
  apply raises_get_bind
  intro ram
  apply Raises.bind
  · exact raises_ofExcept fun e h => ByteStore.ofMemory_of_readBytes h
  · exact fun page => Ram.writeFrame_memoryFaults target page

namespace Disk

theorem ofMemory_of_slotAddress {slot : Word} {e : Fault} (h : slotAddress slot = .error e) :
    e.OfMemory := by
  unfold slotAddress at h
  split at h <;> cases h
  exact nofun

theorem ofMemory_of_readSlot {disk : Disk} {slot : Word} {e : Fault}
    (h : readSlot disk slot = .error e) : e.OfMemory := by
  unfold readSlot at h
  cases haddress : slotAddress slot with
  | ok address =>
    rw [haddress] at h
    exact ByteStore.ofMemory_of_readBytes h
  | error e' =>
    rw [haddress] at h
    cases h
    exact ofMemory_of_slotAddress haddress

theorem writeSlot_memoryFaults (slot : Word) (page : List UInt8) :
    MemoryFaults (writeSlot slot page) := by
  apply Raises.bind
  · exact raises_ofExcept fun e h => ofMemory_of_slotAddress h
  · exact fun address => ByteStore.writeBytes_memoryFaults address page

end Disk

theorem Pool.allocate_memoryFaults : MemoryFaults Pool.allocate := by
  apply raises_get_bind
  intro p
  split
  · exact raises_throw nofun
  · exact (raises_set _).bind fun _ => raises_pure _

theorem Pool.release_memoryFaults (page : Word) : MemoryFaults (Pool.release page) := by
  apply raises_get_bind
  intro p
  split
  · exact raises_set _
  · exact raises_throw nofun

/-! ## Paged memory -/

namespace PagedMemory

theorem ofMemory_of_currentDirectory {p : Paging} {e : Fault} (h : p.currentDirectory = .error e) :
    e.OfMemory := by
  unfold Paging.currentDirectory at h
  split at h
  · cases h
    exact nofun
  · split at h <;> cases h
    exact nofun

theorem onPool_memoryFaults {α : Type} {kind : PoolKind} {x : EStateM Fault Pool α}
    (h : MemoryFaults x) : MemoryFaults (onPool kind x) :=
  raises_focus h

theorem release_memoryFaults (location : Location) : MemoryFaults (release location) := by
  apply raises_get_bind
  intro m
  cases location with
  | frame frame =>
    dsimp only
    split
    · exact raises_throw nofun
    · split
      · exact raises_set _
      · exact (raises_set _).bind fun _ => onPool_memoryFaults (Pool.release_memoryFaults frame)
  | slot slot =>
    dsimp only
    split
    · exact raises_throw nofun
    · split
      · exact raises_set _
      · exact (raises_set _).bind fun _ => onPool_memoryFaults (Pool.release_memoryFaults slot)

theorem evict_memoryFaults (frame : Word) : MemoryFaults (evict frame) := by
  apply raises_get_bind
  intro m
  apply raises_get_bind
  intro m
  split
  · exact raises_throw nofun
  · apply raises_get_bind
    intro m
    apply Raises.bind
    · exact raises_outcome fun e h => ByteStore.ofMemory_of_readBytes h
    intro page
    apply Raises.bind
    · exact onPool_memoryFaults Pool.allocate_memoryFaults
    intro slot
    apply Raises.bind
    · exact raises_focus (Disk.writeSlot_memoryFaults slot page)
    intro _
    refine (raises_modify _).bind fun _ => ?_
    refine (raises_modify _).bind fun _ => ?_
    apply (onPool_memoryFaults (Pool.release_memoryFaults frame)).bind
    intro _
    exact raises_modify _

theorem takeFrame_memoryFaults (pool : PoolKind) (pinned : Option Word) :
    MemoryFaults (takeFrame pool pinned) := by
  apply raises_get_bind
  intro m
  split
  · apply raises_get_bind
    intro m
    split
    · apply Raises.bind
      · exact raises_throw nofun
      · exact fun _ => onPool_memoryFaults Pool.allocate_memoryFaults
    · apply (evict_memoryFaults _).bind
      intro _
      refine (raises_modify _).bind fun _ => ?_
      exact onPool_memoryFaults Pool.allocate_memoryFaults
  · exact onPool_memoryFaults Pool.allocate_memoryFaults

theorem pageIn_memoryFaults (slot : Word) (pool : PoolKind) : MemoryFaults (pageIn slot pool) := by
  apply raises_get_bind
  intro m
  apply Raises.bind
  · exact raises_outcome fun e h => Disk.ofMemory_of_readSlot h
  intro page
  apply (takeFrame_memoryFaults pool none).bind
  intro frame
  apply Raises.bind
  · exact raises_focus (Ram.writeFrame_memoryFaults frame page)
  intro _
  apply raises_get_bind
  intro m
  split
  · exact raises_throw nofun
  · refine (raises_modify _).bind fun _ => ?_
    apply (onPool_memoryFaults (Pool.release_memoryFaults slot)).bind
    intro _
    refine (raises_modify _).bind fun _ => ?_
    refine (raises_modify _).bind fun _ => ?_
    refine (raises_modify _).bind fun _ => ?_
    exact raises_pure frame

theorem updateCurrent_memoryFaults (f : Directory → Directory) :
    MemoryFaults (updateCurrent f) := by
  apply raises_get_bind
  intro m
  apply Raises.bind
  · exact raises_outcome fun e h => ofMemory_of_currentDirectory h
  · exact fun _ => raises_modify _

theorem privatise_memoryFaults (page frame : Word) : MemoryFaults (privatise page frame) := by
  have repointed : ∀ (target : Word) (f : Directory → Directory),
      MemoryFaults (do updateCurrent f; return target) := by
    intro target f
    apply (updateCurrent_memoryFaults f).bind
    exact fun _ => raises_pure target
  apply raises_get_bind
  intro m
  dsimp only
  split
  · apply raises_get_bind
    intro m
    apply (takeFrame_memoryFaults _ (some frame)).bind
    intro copy
    apply Raises.bind
    · exact raises_focus (Ram.copyFrame_memoryFaults frame copy)
    intro _
    refine (raises_modify _).bind fun _ => ?_
    apply (release_memoryFaults (.frame frame)).bind
    intro _
    refine (raises_modify _).bind fun _ => ?_
    exact repointed copy _
  · exact repointed frame _

theorem materialise_memoryFaults (page : Word) (mp : Mapping) (access : Access) :
    MemoryFaults (materialise page mp access) := by
  have held : ∀ frame, MemoryFaults
      (if access = .write ∧ mp.copyOnWrite then privatise page frame else pure frame) := by
    intro frame
    split
    · exact privatise_memoryFaults page frame
    · exact raises_pure frame
  unfold materialise
  dsimp only
  split
  · exact held _
  · exact (pageIn_memoryFaults _ _).bind held

theorem lookup_memoryFaults (page address : Word) (access : Access) :
    MemoryFaults (lookup page address access) := by
  apply raises_get_bind
  intro m
  apply Raises.bind
  · exact raises_outcome fun e h => ofMemory_of_currentDirectory h
  intro d
  split
  · exact raises_pure _
  · refine (raises_modify _).bind fun _ => ?_
    exact raises_throw nofun

theorem translate_memoryFaults (address : Word) (access : Access) (privilege : Privilege) :
    MemoryFaults (translate address access privilege) := by
  apply Raises.bind
  · apply (lookup_memoryFaults _ address access).bind
    intro mp
    split
    · exact materialise_memoryFaults _ mp access
    · refine (raises_modify _).bind fun _ => ?_
      exact raises_throw nofun
  · intro frame
    apply raises_get_bind
    exact fun _ => raises_pure _

end PagedMemory

/-! ## The bus -/

namespace Bus

theorem exchange_memoryFaults (address : Word) (width : Width) (store : Option Word) :
    MemoryFaults (exchange address width store) := by
  apply raises_get_bind
  intro b
  apply Raises.bind
  · exact raises_outcome fun e h => ByteStore.ofMemory_of_read h
  intro old
  dsimp only
  split
  · apply Raises.bind
    · exact raises_focus (raises_focus (ByteStore.writeBytes_memoryFaults _ _))
    · exact fun _ => raises_pure old
  · exact raises_pure old

theorem translate_memoryFaults (address : Word) (access : Access) :
    MemoryFaults (translate address access) :=
  raises_get_bind fun _ => raises_focus (PagedMemory.translate_memoryFaults _ _ _)

theorem exchangeBytes_memoryFaults (t : Transfer) (offset count : Nat) :
    MemoryFaults (exchangeBytes t offset count) := by
  induction count generalizing offset with
  | zero => exact raises_pure 0
  | succ count ih =>
    apply (translate_memoryFaults _ _).bind
    intro physical
    apply (exchange_memoryFaults _ _ _).bind
    intro old
    apply (ih (offset + 1)).bind
    exact fun _ => raises_pure _

theorem transferMapped_memoryFaults (t : Transfer) : MemoryFaults (transferMapped t) := by
  unfold transferMapped
  split
  · apply (translate_memoryFaults _ _).bind
    intro _
    apply (translate_memoryFaults _ _).bind
    intro _
    apply (exchangeBytes_memoryFaults t 0 _).bind
    exact fun _ => raises_pure _
  · apply (translate_memoryFaults _ _).bind
    exact fun _ => exchange_memoryFaults _ _ _

theorem transfer_memoryFaults (t : Transfer) : MemoryFaults (transfer t) := by
  apply raises_get_bind
  intro b
  split
  · exact raises_throw nofun
  · rename_i region _
    split
    · apply Raises.bind
      · apply raises_outcome
        intro e h
        unfold RegionKind.permit at h
        split at h <;> cases h
        exact nofun
      intro _
      split
      · apply raises_get_bind
        exact fun _ => raises_outcome fun e h => ByteStore.ofMemory_of_read h
      · exact exchange_memoryFaults _ _ _
      · exact transferMapped_memoryFaults t
    · exact raises_throw nofun

end Bus

end PagedMachine

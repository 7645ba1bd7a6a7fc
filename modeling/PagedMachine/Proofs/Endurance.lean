import PagedMachine.Proofs.Atomicity
import PagedMachine.Proofs.Stability

/-!
# What no access ends

An access is put together from translations and stores into the RAM. What outlives
these in memory outlives every access of the bus. The regions of the bus and the
places of its devices are never changed at all.
-/

namespace PagedMachine

namespace PagedMemory

structure Enduring (I : PagedMemory → Prop) : Prop where
  translate : ∀ address access privilege, Keeps I (translate address access privilege)
  translateHostWrite : ∀ address, Keeps I (translateHostWrite address)
  writeBytes : ∀ address bytes, Keeps I (onRam (ByteStore.writeBytes address bytes))

theorem Stable.enduring {I : PagedMemory → Prop} (hI : Stable I) : Enduring I where
  translate _ access privilege := (hI.resolve _ _ access privilege).bind fun _ => physical _ _
  translateHostWrite _ :=
    (hI.lookup _ _ _).bind fun mp => (hI.materialise _ mp .write).bind fun _ => physical _ _
  writeBytes _ _ := keeps_focus_of fun m _ ram hm h =>
    hI.ram m ram hm (ByteStore.extent_of_writeBytes h).1 (ByteStore.extent_of_writeBytes h).2

end PagedMemory

namespace Bus

structure Within (I : PagedMemory → Prop) (b₀ b : Bus) : Prop where
  memory : I b.memory
  regions : b.regions = b₀.regions
  romBase : b.rom.base = b₀.rom.base
  romSize : b.rom.size = b₀.rom.size

variable {α : Type} {I : PagedMemory → Prop} {b₀ : Bus}

theorem keeps_onMemory {x : Paged α} (hx : Keeps I x) : Keeps (Within I b₀) (onMemory x) := by
  intro b r b' h hstep
  obtain ⟨m, hm, rfl⟩ := yields_onMemory hstep
  exact ⟨hx b.memory r m h.memory hm, h.regions, h.romBase, h.romSize⟩

theorem keeps_onRom (address : Word) (bytes : List UInt8) :
    Keeps (Within I b₀) (onRom (ByteStore.writeBytes address bytes)) := by
  refine keeps_focus_of fun b r rom h hwrite => ?_
  obtain ⟨hbase, hsize⟩ := ByteStore.extent_of_writeBytes hwrite
  exact ⟨h.memory, h.regions, hbase.trans h.romBase, hsize.trans h.romSize⟩

variable (hI : PagedMemory.Enduring I)
include hI

theorem keeps_translate (address : Word) (access : Access) :
    Keeps (Within I b₀) (translate address access) :=
  keeps_get_bind fun _ _ => keeps_onMemory (hI.translate _ _ _)

theorem keeps_exchange (address : Word) (width : Width) (store : Option Word) :
    Keeps (Within I b₀) (exchange address width store) := by
  refine keeps_get_bind fun b _ => (keeps_outcome _).bind fun old => ?_
  cases store with
  | none => exact keeps_pure old
  | some value => exact (keeps_onMemory (hI.writeBytes _ _)).bind fun _ => keeps_pure old

theorem keeps_exchangeBytes (t : Transfer) (count : Nat) : ∀ offset,
    Keeps (Within I b₀) (exchangeBytes t offset count) := by
  induction count with
  | zero => exact fun _ => keeps_pure 0
  | succ count ih =>
    intro offset
    apply (keeps_translate hI _ _).bind
    intro physical
    apply (keeps_exchange hI _ _ _).bind
    intro old
    exact (ih (offset + 1)).bind fun _ => keeps_pure _

theorem keeps_transferMapped (t : Transfer) : Keeps (Within I b₀) (transferMapped t) := by
  unfold transferMapped
  split
  · apply (keeps_translate hI _ _).bind
    intro _
    apply (keeps_translate hI _ _).bind
    intro _
    exact (keeps_exchangeBytes hI _ _ _).bind fun _ => keeps_pure _
  · exact (keeps_translate hI _ _).bind fun _ => keeps_exchange hI _ _ _

theorem keeps_transfer (t : Transfer) : Keeps (Within I b₀) (transfer t) := by
  intro b r b' h hstep
  rcases transfer_cases hstep with rfl | ⟨region, -, ⟨-, hserve⟩ | ⟨-, hserve⟩⟩
  · exact h
  · exact keeps_exchange hI _ _ _ b r b' h hserve
  · exact keeps_transferMapped hI t b r b' h hserve

theorem keeps_loadByte (address : Word) (byte : UInt8) :
    Keeps (Within I b₀) (loadByte address byte) := by
  refine keeps_get_bind fun b _ => ?_
  cases b.regions.regionOf? address with
  | none => exact keeps_throw _
  | some region =>
    dsimp only
    cases region.kind with
    | rom => exact keeps_onRom _ _
    | ram => exact keeps_onMemory (hI.writeBytes _ _)
    | mapped =>
      apply keeps_onMemory
      exact (hI.translateHostWrite address).bind fun _ => hI.writeBytes _ _

theorem keeps_loadBytes (bytes : List UInt8) : ∀ address, Keeps (Within I b₀)
    (loadBytes address bytes) := by
  induction bytes with
  | nil => exact fun _ => keeps_pure ()
  | cons byte bytes ih => exact fun address =>
    (keeps_loadByte hI address byte).bind fun _ => ih (address + 1)

theorem keeps_loadImage (base : Word) (image : List UInt8) :
    Keeps (Within I b₀) (loadImage base image) := by
  unfold loadImage
  split
  · exact keeps_loadBytes hI image base
  · exact keeps_throw _

theorem keeps_perform {op : Operation} (hpaging : ∀ op', op = .paging op' → Keeps I op'.perform) :
    Keeps (Within I b₀) op.perform := by
  cases op with
  | paging op => exact keeps_onMemory (hpaging op rfl)
  | read | fetch | swap => exact (keeps_transfer hI _).map _
  | write => exact ((keeps_transfer hI _).map _).map _
  | loadImage base image => exact (keeps_loadImage hI base image).map _
  | setPrivilege privilege =>
    have hset : Keeps (Within I b₀) (setPrivilege privilege) :=
      keeps_modify fun _ h => ⟨h.memory, h.regions, h.romBase, h.romSize⟩
    exact hset.map _

theorem keeps_host {op : HostOperation}
    (hpaging : ∀ op', op = .bus (.paging op') → Keeps I op'.perform) :
    Keeps (Within I b₀) op.perform := by
  cases op with
  | bus op => exact keeps_perform hI fun op' he => hpaging op' (congrArg _ he)
  | store address bytes =>
    exact (keeps_onMemory (hI.writeBytes address bytes)).bind fun _ => keeps_pure Answer.done

end Bus

end PagedMachine

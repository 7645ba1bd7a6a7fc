import PagedMachine.Proofs.Perform

/-!
# The bus over virtual memory

A transfer in the window is an action on paged memory alone, under the privilege
of the bus. So the bus does what virtual memory does, and what it does elsewhere
touches no mapping: ROM is not mapped, and a store to RAM by its physical address
changes bytes only.
-/

namespace PagedMachine

namespace Bus

variable {α β : Type} {b b' : Bus} {v v' : Virtual.Bus}

/-! ## Paged memory as a part of the bus -/

theorem onMemory_ok {x : Paged α} {a : α} {m : PagedMemory} (h : x.run b.memory = .ok a m) :
    (onMemory x).run b = .ok a { b with memory := m } :=
  focus_ok (s := b) h

theorem onMemory_error {x : Paged α} {e : Fault} {m : PagedMemory}
    (h : x.run b.memory = .error e m) : (onMemory x).run b = .error e { b with memory := m } :=
  focus_error (s := b) h

theorem yields_onMemory {x : Paged α} {r : Except Fault α} (h : Yields (onMemory x) b r b') :
    ∃ m, Yields x b.memory r m ∧ b' = { b with memory := m } := by
  obtain ⟨r₁, m, hx⟩ := yields_exists x b.memory
  have hrun : Yields (onMemory x) b r₁ { b with memory := m } := by
    cases r₁ with
    | ok a => exact onMemory_ok hx
    | error e => exact onMemory_error hx
  obtain ⟨rfl, rfl⟩ := h.unique hrun
  exact ⟨m, hx, rfl⟩

theorem onRom_ok {x : EStateM Fault Rom α} {a : α} {rom : Rom} (h : x.run b.rom = .ok a rom) :
    (onRom x).run b = .ok a { b with rom := rom } :=
  focus_ok (s := b) h

theorem onRom_error {x : EStateM Fault Rom α} {e : Fault} {rom : Rom}
    (h : x.run b.rom = .error e rom) : (onRom x).run b = .error e { b with rom := rom } :=
  focus_error (s := b) h

def IsOnMemory (y : OnBus α) (x : Privilege → Paged α) : Prop :=
  ∀ b, y.run b = (onMemory (x b.privilege)).run b

theorem isOnMemory_pure (a : α) : IsOnMemory (pure a) fun _ => pure a := fun _ => rfl

theorem IsOnMemory.bind {y : OnBus α} {x : Privilege → Paged α} {g : α → OnBus β}
    {f : Privilege → α → Paged β} (h : IsOnMemory y x)
    (hg : ∀ a, IsOnMemory (g a) fun privilege => f privilege a) :
    IsOnMemory (y >>= g) fun privilege => x privilege >>= f privilege := by
  intro b
  cases hx : (x b.privilege).run b.memory with
  | ok a m =>
    have hrest := hg a { b with memory := m }
    rw [bind_ok ((h b).trans (onMemory_ok hx)), hrest]
    cases hf : (f b.privilege a).run m with
    | ok c m' => rw [onMemory_ok (by exact hf), onMemory_ok ((bind_ok hx).trans hf)]
    | error e m' => rw [onMemory_error (by exact hf), onMemory_error ((bind_ok hx).trans hf)]
  | error e m => rw [bind_error ((h b).trans (onMemory_error hx)), onMemory_error (bind_error hx)]

theorem isOnMemory_translate (address : Word) (access : Access) :
    IsOnMemory (translate address access) fun privilege =>
      PagedMemory.translate address access privilege :=
  fun _ => rfl

theorem isOnMemory_outcome (f : PagedMemory → Except Fault α) :
    IsOnMemory (get >>= fun b => outcome (f b.memory)) fun _ => get >>= fun m => outcome (f m) := by
  intro b
  cases hf : f b.memory with
  | ok a =>
    rw [get_bind, outcome_ok hf, onMemory_ok (by rw [get_bind, outcome_ok hf])]
  | error e =>
    rw [get_bind, outcome_error hf, onMemory_error (by rw [get_bind, outcome_error hf])]

theorem isOnMemory_exchange (physical : Word) (width : Width) (store : Option Word) :
    IsOnMemory (exchange physical width store) fun _ =>
      PagedMemory.exchange physical width store := by
  apply (isOnMemory_outcome fun m => m.ram.read physical width).bind
  intro old
  cases store with
  | none => exact isOnMemory_pure old
  | some value => exact IsOnMemory.bind (fun _ => rfl) fun _ => isOnMemory_pure old

theorem isOnMemory_exchangeBytes (t : Transfer) (count : Nat) : ∀ offset,
    IsOnMemory (exchangeBytes t offset count) fun privilege =>
      PagedMemory.exchangeBytes t privilege offset count := by
  induction count with
  | zero => exact fun _ => isOnMemory_pure 0
  | succ count ih =>
    intro offset
    apply (isOnMemory_translate _ _).bind
    intro physical
    apply (isOnMemory_exchange _ _ _).bind
    intro old
    apply (ih (offset + 1)).bind
    exact fun rest => isOnMemory_pure _

theorem isOnMemory_transferMapped (t : Transfer) :
    IsOnMemory (transferMapped t) fun privilege => PagedMemory.transferMapped t privilege := by
  unfold transferMapped PagedMemory.transferMapped
  by_cases hcross : crossesPage t.address t.width = true
  · simp only [if_pos hcross]
    apply (isOnMemory_translate _ _).bind
    intro _
    apply (isOnMemory_translate _ _).bind
    intro _
    apply (isOnMemory_exchangeBytes _ _ _).bind
    exact fun old => isOnMemory_pure _
  · simp only [if_neg hcross]
    apply (isOnMemory_translate _ _).bind
    exact fun physical => isOnMemory_exchange _ _ _

theorem perform_write (address : Word) (width : Width) (value : Word) :
    (Operation.write address width value).perform =
    (fun _ => .done) <$> transfer (.write address width value) := by
  rw [Operation.perform, Bus.write, Functor.discard, map_const, Function.comp_apply,
    Functor.map_map]

theorem transfer_run_mapped {t : Transfer} {region : Region}
    (hregion : b.regions.regionOf? t.address = some region) (hk : region.kind = .mapped)
    (hholds : region.holds t.address t.width = true) :
    (transfer t).run b = (onMemory (PagedMemory.transferMapped t b.privilege)).run b := by
  have hpermit : region.kind.permit t.access t.address = .ok () := by rw [hk]; rfl
  rw [← isOnMemory_transferMapped t b, transfer, get_bind, hregion]
  dsimp only
  rw [if_pos hholds, bind_ok (outcome_ok hpermit b), hk]

/-- Where the page of the byte is, the byte is stored. -/
theorem transfer_byte {region : Region} (m : PagedMemory) (address value frame : Word)
    (offset : Nat) (hregion : b.regions.regionOf? address = some region)
    (hk : region.kind = .mapped) (hholds : region.holds address .byte = true)
    (hcross : crossesPage address .byte = false) (hpage : address.pageOffset < pageSize)
    (hoffset : frame.toNat * pageSize + address.pageOffset = offset)
    (hram : m.ram.base.toNat + m.ram.size ≤ 2 ^ 32) (hframe : frame.toNat < Ram.pageCount m.ram)
    (htranslate : Yields (PagedMemory.translate address .write b.privilege) b.memory
      (.ok (Ram.frameAddress m.ram frame + UInt32.ofNat address.pageOffset)) m) :
    (transfer (.write address .byte value)).run b =
    .ok (UInt32.ofNat (ofBytes (m.ram.slice offset 1)))
      { b with memory := { m with ram := m.ram.patch offset (toBytes 1 value.toNat) } } := by
  have hat := Ram.toNat_frameAddress_add hram hframe hpage
  have hinside := Ram.lt_of_pageCount hframe
  rw [hoffset] at hat
  have hfits : offset + Width.byte.bytes ≤ m.ram.size := by
    have : Width.byte.bytes = 1 := rfl
    omega
  have hexchange : Yields
      (PagedMemory.exchange (Ram.frameAddress m.ram frame + UInt32.ofNat address.pageOffset) .byte
      (some value)) m (.ok (UInt32.ofNat (ofBytes (m.ram.slice offset 1))))
      { m with ram := m.ram.patch offset (toBytes 1 value.toNat) } := by
    have hstore := PagedMemory.onRam_ok (m := m) (ByteStore.write_ok hat hfits value)
    exact (bind_ok (outcome_ok (ByteStore.read_ok hat hfits) m)).trans ((bind_ok hstore).trans rfl)
  have hmapped :
      Yields (PagedMemory.transferMapped (.write address .byte value) b.privilege) b.memory
      (.ok (UInt32.ofNat (ofBytes (m.ram.slice offset 1))))
      { m with ram := m.ram.patch offset (toBytes 1 value.toNat) } := by
    have hnot : ¬ crossesPage (Transfer.write address .byte value).address
        (Transfer.write address .byte value).width :=
      Bool.eq_false_iff.mp hcross
    rw [PagedMemory.transferMapped, if_neg hnot]
    exact htranslate.bind_ok hexchange
  exact (transfer_run_mapped (t := .write address .byte value) hregion hk hholds).trans
    (onMemory_ok hmapped)

/-! ## The bus represents a bus over virtual memory -/

structure Represents (b : Bus) (v : Virtual.Bus) : Prop where
  consistent : PagedMemory.Consistent b.memory
  memory : PagedMemory.Represents b.memory v.memory
  rom : v.rom = b.rom
  regions : v.regions = b.regions
  privilege : v.privilege = b.privilege

theorem Represents.follows {b : Bus} {v : Virtual.Bus} (hr : Represents b v) {m : PagedMemory}
    {w : Virtual.Memory} (h : PagedMemory.Follows b.memory m w) :
    Represents { b with memory := m } { v with memory := w } :=
  ⟨h.consistent, h.represents, hr.rom, hr.regions, hr.privilege⟩

def Mirrors (x : OnBus α) (y : Behaviour Virtual.Bus α) (b : Bus) (v : Virtual.Bus) : Prop :=
  ∃ r b' v', Yields x b r b' ∧ y.allows v r v' ∧ Represents b' v' ∧ ∀ e, r = .error e →
    b'.memory.Justified e

section
variable {x : OnBus α} {y : Behaviour Virtual.Bus α}

theorem Mirrors.bind {f : α → OnBus β} {g : α → Behaviour Virtual.Bus β} (h : Mirrors x y b v)
    (hf : ∀ a b' v', Represents b' v' → Mirrors (f a) (g a) b' v') :
    Mirrors (x >>= f) (y >>= g) b v := by
  obtain ⟨r, b₁, v₁, hx, hy, hr, he⟩ := h
  cases r with
  | error e =>
    refine ⟨.error e, b₁, v₁, hx.bind_error, Behaviour.bind_error hy, hr, fun e' he' => ?_⟩
    exact Except.error.inj he' ▸ he e rfl
  | ok a =>
    obtain ⟨r', b₂, v₂, hx', hy', hr', he'⟩ := hf a b₁ v₁ hr
    exact ⟨r', b₂, v₂, hx.bind_ok hx', Behaviour.bind_ok hy hy', hr', he'⟩

theorem Mirrors.map (h : Mirrors x y b v) (f : α → β) : Mirrors (f <$> x) (f <$> y) b v := by
  obtain ⟨r, b₁, v₁, hx, hy, hr, he⟩ := h
  refine ⟨r.map f, b₁, v₁, hx.map f, Behaviour.allows_map.mpr ⟨r, rfl, hy⟩, hr, fun e hre => ?_⟩
  cases r with
  | ok a => cases hre
  | error e' => exact he e (congrArg _ (Except.error.inj hre))

theorem Mirrors.get_bind {f : Bus → OnBus α} {g : Virtual.Bus → Behaviour Virtual.Bus α}
    (h : Mirrors (f b) (g v) b v) : Mirrors (get >>= f) (get >>= g) b v := by
  obtain ⟨r, b', v', hx, hy, hr⟩ := h
  exact ⟨r, b', v', hx, Behaviour.allows_get_bind.mpr hy, hr⟩

theorem mirrors_result (hr : Represents b v) {z : Except Fault α}
    (hz : ∀ e, z = .error e → e.kind ≠ .resourceExhausted) :
    Mirrors (outcome z) (.result z) b v := by
  cases z with
  | ok a => exact ⟨.ok a, b, v, outcome_ok rfl b, ⟨rfl, rfl⟩, hr, nofun⟩
  | error e =>
    exact ⟨.error e, b, v, outcome_error rfl b, ⟨rfl, rfl⟩, hr, fun e' he => .of_kind (hz e' he)⟩

theorem mirrors_fault (hr : Represents b v) {e : Fault} (he : e.kind ≠ .resourceExhausted) :
    Mirrors (throw e : OnBus α) (.fault e) b v := by
  refine ⟨.error e, b, v, rfl, ⟨rfl, rfl⟩, hr, fun e' he' => ?_⟩
  exact Except.error.inj he' ▸ .of_kind he

theorem Mirrors.of_run {x' : OnBus α} (h : Mirrors x y b v) (he : x'.run b = x.run b) :
    Mirrors x' y b v := by
  obtain ⟨r, b₁, v₁, hx, hy, hr⟩ := h
  refine ⟨r, b₁, v₁, ?_, hy, hr⟩
  cases r with
  | ok a => exact he.trans hx
  | error e => exact he.trans hx

theorem mirrors_onMemory {x : Paged α} {y : Behaviour Virtual.Memory α} (hr : Represents b v)
    (h : PagedMemory.Agrees x y b.memory v.memory fun a c _ _ => a = c) :
    Mirrors (onMemory x) (Virtual.Bus.onMemory y) b v := by
  rcases h with ⟨a, c, m, w, hx, hy, hf, rfl⟩ | ⟨e, m, w, hx, hy, hf, he⟩
  · exact ⟨.ok a, _, _, onMemory_ok hx, ⟨w, hy, rfl⟩, hr.follows hf, nofun⟩
  · refine ⟨.error e, _, _, onMemory_error hx, ⟨w, hy, rfl⟩, hr.follows hf, fun e' he' => ?_⟩
    exact Except.error.inj he' ▸ he

theorem mirrors_onRom (hr : Represents b v) {x : EStateM Fault Rom α}
    (hx : ∀ s e s', Yields x s (.error e) s' → e.kind ≠ .resourceExhausted) :
    Mirrors (onRom x) (Virtual.Bus.onRom x) b v := by
  have hrom : ∀ rom, Represents { b with rom := rom } { v with rom := rom } :=
    fun rom => ⟨hr.consistent, hr.memory, rfl, hr.regions, hr.privilege⟩
  obtain ⟨r, rom, hrun⟩ := yields_exists x b.rom
  have hspec : (Virtual.Bus.onRom x).allows v r { v with rom := rom } := ⟨rom, hr.rom ▸ hrun, rfl⟩
  cases r with
  | ok a => exact ⟨.ok a, _, _, onRom_ok hrun, hspec, hrom rom, nofun⟩
  | error e =>
    refine ⟨.error e, _, _, onRom_error hrun, hspec, hrom rom, fun e' he' => ?_⟩
    exact Except.error.inj he' ▸ .of_kind (hx _ _ _ hrun)

end

/-! ## Physical memory -/

theorem Represents.with_ram (hr : Represents b v) {ram : Ram} (hbase : ram.base = b.memory.ram.base)
    (hsize : ram.size = b.memory.ram.size) : ∃ contents,
      Represents { b with memory := { b.memory with ram := ram } }
        { v with memory := { v.memory with contents := contents } } := by
  obtain ⟨contents, hv⟩ := hr.memory.with_ram ram
  exact ⟨contents, hr.consistent.with_ram hbase hsize, hv, hr.rom, hr.regions, hr.privilege⟩

/-- What is stored in RAM may change any page, and no mapping. -/
theorem mirrors_physical (hr : Represents b v) (address : Word) (bytes : List UInt8) (answer : α) :
    Mirrors (do onMemory (PagedMemory.onRam (ByteStore.writeBytes address bytes)); return answer)
      (Virtual.Bus.physical true) b v := by
  obtain ⟨r, ram, hx⟩ := yields_exists (ByteStore.writeBytes address bytes) b.memory.ram
  obtain ⟨hbase, hsize⟩ := ByteStore.extent_of_writeBytes hx
  obtain ⟨contents, hr'⟩ := hr.with_ram hbase hsize
  cases r with
  | ok u =>
    exact ⟨.ok answer, _, _, map_ok (onMemory_ok (PagedMemory.onRam_ok hx)),
      .inr ⟨rfl, contents, rfl⟩, hr', nofun⟩
  | error e =>
    refine ⟨.error e, _, _, map_error (onMemory_error (focus_error hx)), .inr ⟨rfl, contents, rfl⟩,
      hr', fun e' he' => ?_⟩
    rw [← Except.error.inj he', ByteStore.error_of_writeBytes hx]
    exact .of_kind nofun

theorem mirrors_exchange (hr : Represents b v) (address : Word) (width : Width)
    (store : Option Word) :
    Mirrors (exchange address width store) (Virtual.Bus.physical store.isSome) b v := by
  cases hread : b.memory.ram.read address width with
  | error e =>
    have hrun : (exchange address width store).run b = .error e b := by
      rw [exchange, PagedMachine.get_bind, bind_error (outcome_error hread b)]
    refine ⟨.error e, b, v, hrun, .inl rfl, hr, fun e' he' => ?_⟩
    rw [← Except.error.inj he', ByteStore.read_error hread]
    exact .of_kind nofun
  | ok old =>
    cases store with
    | none =>
      have hrun : (exchange address width none).run b = .ok old b := by
        rw [exchange, PagedMachine.get_bind, bind_ok (outcome_ok hread b)]
        rfl
      exact ⟨.ok old, b, v, hrun, .inl rfl, hr, nofun⟩
    | some value =>
      refine (mirrors_physical hr address (toBytes width.bytes value.toNat) old).of_run ?_
      rw [exchange, PagedMachine.get_bind, bind_ok (outcome_ok hread b)]
      rfl

/-! ## Every operation of the bus -/

theorem permit_kind {kind : RegionKind} {access : Access} {address : Word} :
    ∀ e, kind.permit access address = .error e → e.kind ≠ .resourceExhausted := by
  intro e he
  unfold RegionKind.permit at he
  split at he
  · cases he
    nofun
  · cases he

theorem mirrors_transfer (hr : Represents b v) (t : Transfer) :
    Mirrors (transfer t) (Virtual.Bus.transfer t) b v := by
  refine Mirrors.get_bind ?_
  rw [hr.regions]
  cases b.regions.regionOf? t.address with
  | none => exact mirrors_fault hr nofun
  | some region =>
    dsimp only
    by_cases hholds : region.holds t.address t.width = true
    · rw [if_pos hholds, if_pos hholds]
      refine (mirrors_result hr permit_kind).bind fun _ b v hr => ?_
      cases region.kind with
      | rom =>
        refine Mirrors.get_bind ?_
        rw [hr.rom]
        exact mirrors_result hr fun e he => ByteStore.read_error he ▸ nofun
      | ram => exact mirrors_exchange hr t.address t.width t.store
      | mapped =>
        refine Mirrors.get_bind (f := fun _ => transferMapped t) ?_
        refine Mirrors.of_run ?_ (isOnMemory_transferMapped t b)
        rw [hr.privilege]
        exact mirrors_onMemory hr (hr.consistent.transferMapped hr.memory t b.privilege)
    · rw [if_neg hholds, if_neg hholds]
      exact mirrors_fault hr nofun

theorem mirrors_loadByte (hr : Represents b v) (address : Word) (byte : UInt8) :
    Mirrors (loadByte address byte) (Virtual.Bus.loadByte address byte) b v := by
  refine Mirrors.get_bind ?_
  rw [hr.regions]
  cases b.regions.regionOf? address with
  | none => exact mirrors_fault hr nofun
  | some region =>
    dsimp only
    cases region.kind with
    | rom => exact mirrors_onRom hr fun s e s' hx => ByteStore.error_of_writeBytes hx ▸ nofun
    | ram => simpa only [bind_pure_unit] using mirrors_physical hr address [byte] ()
    | mapped =>
      have hagrees := hr.consistent.loadByteMapped hr.memory address byte
      exact mirrors_onMemory hr (hagrees.mono fun _ _ _ _ _ => rfl)

theorem mirrors_loadBytes (bytes : List UInt8) : ∀ {b : Bus} {v : Virtual.Bus} (address : Word),
    Represents b v → Mirrors (loadBytes address bytes)
    (Virtual.Bus.loadBytes address bytes) b v := by
  induction bytes with
  | nil => exact fun _ hr => ⟨.ok (), _, _, rfl, ⟨rfl, rfl⟩, hr, nofun⟩
  | cons byte bytes ih =>
    exact fun address hr => (mirrors_loadByte hr address byte).bind fun _ _ _ hr =>
      ih (address + 1) hr

theorem mirrors_loadImage (hr : Represents b v) (base : Word) (image : List UInt8) :
    Mirrors (loadImage base image) (Virtual.Bus.loadImage base image) b v := by
  unfold loadImage Virtual.Bus.loadImage
  split
  · exact mirrors_loadBytes image base hr
  · exact mirrors_fault hr nofun

def WithinBounds (b : Bus) (r : Except Fault Answer) (b' : Bus) : Prop :=
  PagedMachine.WithinBounds b.memory r b'.memory

theorem mirrors_perform (hr : Represents b v) (op : Operation)
    (hbound : ∀ r b', Yields op.perform b r b' → WithinBounds b r b') :
    Mirrors op.perform (Virtual.Bus.perform op) b v := by
  cases op with
  | paging op =>
    refine mirrors_onMemory hr (hr.consistent.perform hr.memory op fun r m' hx => ?_)
    have hx' : Yields (Operation.paging op).perform b r { b with memory := m' } := by
      cases r with
      | ok a => exact onMemory_ok hx
      | error e => exact onMemory_error hx
    exact hbound r _ hx'
  | read address width => exact (mirrors_transfer hr _).map _
  | fetch address => exact (mirrors_transfer hr _).map _
  | write address width value =>
    rw [perform_write]
    exact (mirrors_transfer hr (.write address width value)).map fun _ => Answer.done
  | swap address width value => exact (mirrors_transfer hr _).map _
  | loadImage base image => exact (mirrors_loadImage hr base image).map _
  | setPrivilege privilege =>
    exact ⟨.ok .done, _, _, rfl, Behaviour.allows_modify_bind.mpr ⟨rfl, rfl⟩,
      ⟨hr.consistent, hr.memory, hr.rom, hr.regions, rfl⟩, nofun⟩

end Bus

end PagedMachine

import PagedMachine.Proofs.CheckedPaging
import PagedMachine.Proofs.Endurance

/-!
# The checked bus

A transfer adds offsets to its address and shifts by as many bytes. A region that
holds the transfer ends at a word, so the addresses after the first are words as
well, and a word has four bytes. Every translation of the loop finds the memory
backed, whatever the ones before it have moved.
-/

namespace PagedMachine

open Checked

namespace PagedMemory

variable {m m' : PagedMemory}

structure Backed (m : PagedMemory) : Prop where
  consistent : Consistent m
  represents : ∃ v, Represents m v

theorem Backed.of_agrees {α β : Type} {x : Paged α} {y : Behaviour Virtual.Memory β}
    {v : Virtual.Memory} {Q : α → β → PagedMemory → Virtual.Memory → Prop} {r : Except Fault α}
    (hagrees : Agrees x y m v Q) (hstep : Yields x m r m') : Backed m' := by
  rcases hagrees with ⟨a, c, m₁, v₁, hrun, -, hfollows, -⟩ | ⟨e, m₁, v₁, hrun, -, hfollows, -⟩
  · obtain ⟨-, rfl⟩ := hstep.eq_of_ok hrun
    exact ⟨hfollows.consistent, v₁, hfollows.represents⟩
  · obtain ⟨-, rfl⟩ := hstep.eq_of_error hrun
    exact ⟨hfollows.consistent, v₁, hfollows.represents⟩

theorem enduring_backed : Enduring Backed where
  translate address access privilege := by
    rintro m r m' ⟨h, v, hv⟩ hstep
    exact .of_agrees (h.translate hv address access privilege) hstep
  translateHostWrite address := by
    rintro m r m' ⟨h, v, hv⟩ hstep
    exact .of_agrees (h.translateHostWrite hv address) hstep
  writeBytes address bytes := by
    rintro m r m' ⟨h, v, hv⟩ hstep
    obtain ⟨ram, hx, rfl⟩ := yields_onRam hstep
    obtain ⟨hbase, hsize⟩ := ByteStore.extent_of_writeBytes hx
    obtain ⟨contents, hv'⟩ := hv.with_ram ram
    exact ⟨h.with_ram hbase hsize, _, hv'⟩

end PagedMemory

/-! ## Regions -/

def Region.checkedHolds (r : Region) (address : Word) (width : Width) : Option Bool :=
  if r.contains address then do
    let room ← unsigned? 32 (r.last.toNat - address.toNat)
    let rest ← unsigned? 32 (width.bytes - 1)
    return rest ≤ room
  else some false

def checkedCrossesPage (address : Word) (width : Width) : Option Bool :=
  (unsigned? 32 (address.pageOffset + width.bytes)).map fun last => pageSize < last

theorem Region.checkedHolds_eq (r : Region) (address : Word) (width : Width) :
    r.checkedHolds address width = some (r.holds address width) := by
  unfold checkedHolds holds
  by_cases hcontains : r.contains address = true
  · rw [if_pos hcontains, hcontains]
    have hle : address.toNat ≤ r.last.toNat := by
      simp only [contains, Bool.and_eq_true, decide_eq_true_eq] at hcontains
      exact UInt32.le_iff_toNat_le.mp hcontains.2
    have hlast := r.last.toNat_lt
    have hone := width.one_le_bytes
    have hfour := width.bytes_le_four
    rw [unsigned?_of_lt (k := r.last.toNat - address.toNat) (by omega) (by omega),
      unsigned?_of_lt (k := width.bytes - 1) (by omega) (by omega)]
    rfl
  · rw [if_neg hcontains, Bool.eq_false_iff.mpr hcontains]
    rfl

theorem checkedCrossesPage_eq (address : Word) (width : Width) :
    checkedCrossesPage address width = some (crossesPage address width) := by
  have hoffset : address.pageOffset < 4096 := Nat.mod_lt _ (by decide)
  have hfour := width.bytes_le_four
  rw [checkedCrossesPage,
    unsigned?_of_lt (k := address.pageOffset + width.bytes) (by norm_cast) (by omega)]
  rfl

/-- No address of a transfer that a region holds wraps. -/
theorem Region.add_lt_of_holds {r : Region} {address : Word} {width : Width}
    (h : r.holds address width = true) {offset : Nat} (hoffset : offset < width.bytes) :
    address.toNat + offset < 2 ^ 32 := by
  simp only [holds, contains, Bool.and_eq_true, decide_eq_true_eq] at h
  have hle := UInt32.le_iff_toNat_le.mp h.1.2
  have hlast := r.last.toNat_lt
  omega

namespace Bus

variable {b : Bus} {α : Type}

def checkedOnMemory (c : Checked PagedMemory α) : Checked Bus α :=
  focus (fun ⟨memory, rom, regions, privilege⟩ =>
    (memory, fun memory => ⟨memory, rom, regions, privilege⟩)) c

def checkedOnRom (c : Checked Rom α) : Checked Bus α :=
  focus (fun ⟨memory, rom, regions, privilege⟩ =>
    (rom, fun rom => ⟨memory, rom, regions, privilege⟩)) c

theorem passes_onMemory {c : Checked PagedMemory α} {x : Paged α} (h : Passes c x b.memory) :
    Passes (checkedOnMemory c) (onMemory x) b :=
  Passes.focus h

theorem passes_onRom {c : Checked Rom α} {x : EStateM Fault Rom α} (h : Passes c x b.rom) :
    Passes (checkedOnRom c) (onRom x) b :=
  Passes.focus h

/-! ## Transfers -/

def checkedExchange (address : Word) (width : Width) (store : Option Word) : Checked Bus Word := do
  let old ← outcome ((← get).memory.ram.checkedRead address width)
  match store with
  | some value =>
    checkedOnMemory (PagedMemory.checkedOnRam (ByteStore.checkedWrite address width value))
  | none => pure ()
  return old

def checkedTranslate (address : Word) (access : Access) : Checked Bus Word := do
  checkedOnMemory (PagedMemory.checkedTranslate address access (← get).privilege)

def checkedExchangeBytes (t : Transfer) (offset : Nat) : (count : Nat) → Checked Bus Nat
  | 0 => return 0
  | count + 1 => do
    let address ← defined (unsigned? 32 (t.address.toNat + offset))
    let physical ← checkedTranslate (UInt32.ofNat address) t.access
    let places ← defined (unsigned? 32 (8 * offset))
    let store ← defined (t.store.mapM (·.shr? places))
    let old ← checkedExchange physical .byte store
    let part ← defined (old.shl? places)
    return part.toNat + (← checkedExchangeBytes t (offset + 1) count)

def checkedTransferMapped (t : Transfer) : Checked Bus Word := do
  if ← defined (checkedCrossesPage t.address t.width) then
    let _ ← checkedTranslate t.address t.access
    let rest ← defined (unsigned? 32 (t.width.bytes - 1))
    let last ← defined (unsigned? 32 (t.address.toNat + rest))
    let _ ← checkedTranslate (UInt32.ofNat last) t.access
    return UInt32.ofNat (← checkedExchangeBytes t 0 t.width.bytes)
  else
    checkedExchange (← checkedTranslate t.address t.access) t.width t.store

def checkedTransfer (t : Transfer) : Checked Bus Word := do
  match (← get).regions.regionOf? t.address with
  | none => throw (.fault (.memoryOutOfBounds t.address))
  | some region =>
    if ← defined (region.checkedHolds t.address t.width) then
      outcome (result (region.kind.permit t.access t.address))
      match region.kind with
      | .rom => outcome ((← get).rom.checkedRead t.address t.width)
      | .ram => checkedExchange t.address t.width t.store
      | .mapped => checkedTransferMapped t
    else throw (.fault (.memoryOutOfBounds t.address))

theorem passes_exchange (address : Word) (width : Width) (store : Option Word) (b : Bus) :
    Passes (checkedExchange address width store) (exchange address width store) b := by
  refine passes_get_bind ((passes_outcome (ByteStore.checkedRead_eq ..) b).bind fun old b₁ _ => ?_)
  cases store with
  | none => exact passes_pure old b₁
  | some value =>
    refine (passes_onMemory (PagedMemory.passes_onRam (ByteStore.passes_write ..))).bind
      fun _ b₂ _ => ?_
    exact passes_pure old b₂

theorem passes_translate (hb : b.memory.Backed) (address : Word) (access : Access) :
    Passes (checkedTranslate address access) (translate address access) b := by
  obtain ⟨v, hv⟩ := hb.represents
  exact passes_get_bind
    (passes_onMemory (hb.consistent.passes_translate hv address access b.privilege))

theorem backed_of_yields {x : OnBus α} {r : Except Fault α} {b' : Bus}
    (hx : Keeps (Within PagedMemory.Backed b) x) (hb : b.memory.Backed) (h : Yields x b r b') :
    b'.memory.Backed :=
  (hx b r b' ⟨hb, rfl, rfl, rfl⟩ h).memory

/-- What is stored of a word is its low byte. -/
theorem exchange_byte_congr (address : Word) {f g : Word → Word}
    (h : ∀ value, (f value).toNat % 256 = (g value).toNat % 256) (store : Option Word) :
    exchange address .byte (store.map f) = exchange address .byte (store.map g) := by
  cases store with
  | none => rfl
  | some value =>
    have hbytes : toBytes 1 (f value).toNat = toBytes 1 (g value).toNat := by
      simp only [toBytes, List.cons.injEq, and_true, ← UInt8.toNat_inj, UInt8.toNat_ofNat']
      exact h value
    have hwrite :
        ByteStore.write address .byte (f value) = ByteStore.write address .byte (g value) :=
      congrArg (ByteStore.writeBytes address) hbytes
    unfold exchange
    simp only [Option.map_some, hwrite]

theorem read_byte_lt {s : ByteStore} {address value : Word} (h : s.read address .byte = .ok value) :
    value.toNat < 256 := by
  unfold ByteStore.read at h
  cases hbytes : s.readBytes address Width.byte.bytes with
  | error e =>
    rw [hbytes] at h
    cases h
  | ok bytes =>
    rw [hbytes] at h
    have hvalue : UInt32.ofNat (ofBytes bytes) = value := Except.ok.inj h
    have hlt := ofBytes_lt bytes
    rw [ByteStore.length_of_readBytes hbytes] at hlt
    rw [← hvalue, UInt32.toNat_ofNat']
    exact Nat.lt_of_le_of_lt (Nat.mod_le ..) hlt

theorem exchange_byte_lt {address : Word} {store : Option Word} {b' : Bus} {old : Word}
    (h : Yields (exchange address .byte store) b (.ok old) b') : old.toNat < 256 := by
  rcases h.of_get_bind.of_outcome_bind with ⟨value, hread, hrest⟩ | ⟨⟨e, -, he⟩, -⟩
  · have hvalue : old = value := by
      cases store with
      | none => exact Except.ok.inj hrest.of_pure.1
      | some new =>
        rcases hrest.of_bind with ⟨_, _, -, hrest⟩ | ⟨e, he, -⟩
        · exact Except.ok.inj hrest.of_pure.1
        · cases he
    exact hvalue ▸ read_byte_lt hread
  · cases he

theorem mapM_shr? (store : Option Word) {places : Nat} (h : places < 32) :
    store.mapM (·.shr? places) =
    some (store.map fun value => UInt32.ofNat (value.toNat / 2 ^ places)) := by
  cases store with
  | none => rfl
  | some value => simp [Word.shr?_eq value h]

theorem byte_ofNat_div (value : Word) (offset : Nat) :
    (UInt32.ofNat (value.toNat / 2 ^ (8 * offset))).toNat % 256 =
      (UInt32.ofNat (value.field (8 * offset) 8)).toNat % 256 := by
  rw [UInt32.toNat_ofNat', UInt32.toNat_ofNat', Word.field]
  omega

theorem toNat_shifted_byte {old : Word} (hold : old.toNat < 256) {offset : Nat}
    (hoffset : 8 * offset < 32) :
    (UInt32.ofNat (old.toNat * 2 ^ (8 * offset))).toNat = old.toNat * 2 ^ (8 * offset) := by
  have hbytes : old.toNat * 2 ^ (8 * offset) ≤ 255 * 2 ^ 24 :=
    Nat.mul_le_mul (Nat.le_of_lt_succ hold) (Nat.pow_le_pow_right (by decide) (by omega))
  rw [UInt32.toNat_ofNat', Nat.mod_eq_of_lt (Nat.lt_of_le_of_lt hbytes (by decide))]

theorem passes_exchangeBytes {t : Transfer}
    (hsums : ∀ offset < t.width.bytes, t.address.toNat + offset < 2 ^ 32)
    (count : Nat) : ∀ {offset : Nat} {b : Bus}, b.memory.Backed → offset + count ≤ t.width.bytes →
      Passes (checkedExchangeBytes t offset count)
      ((2 ^ (8 * offset) * ·) <$> exchangeBytes t offset count) b := by
  -- The bytes that are left, each at its place already, are the rest of the word times the place of
  -- the first.
  induction count with
  | zero => exact fun _ _ => rfl
  | succ count ih =>
    intro offset b hb hle
    have hfour := t.width.bytes_le_four
    have hplaces : 8 * offset < 32 := by omega
    have haddress : UInt32.ofNat (t.address.toNat + offset) = t.address + UInt32.ofNat offset := by
      rw [UInt32.ofNat_add, UInt32.ofNat_toNat]
    unfold checkedExchangeBytes exchangeBytes
    simp only [map_bind, map_pure]
    refine passes_defined (unsigned?_of_lt (by norm_cast) (hsums offset (by omega))) ?_
    rw [haddress]
    refine (passes_translate hb _ _).bind fun physical b₁ htranslate => ?_
    have hb₁ := backed_of_yields (keeps_translate PagedMemory.enduring_backed _ _) hb htranslate
    refine passes_defined (unsigned?_of_lt (by norm_cast) (by omega : 8 * offset < 2 ^ 32)) ?_
    refine passes_defined (mapM_shr? t.store hplaces) ?_
    rw [← exchange_byte_congr physical fun value => byte_ofNat_div value offset]
    refine (passes_exchange physical .byte _ b₁).bind fun old b₂ hexchange => ?_
    have hb₂ := backed_of_yields (keeps_exchange PagedMemory.enduring_backed _ _ _) hb₁ hexchange
    refine passes_defined (Word.shl?_eq old hplaces) ?_
    have hsum : ∀ rest, 2 ^ (8 * offset) * (old.toNat + 256 * rest) =
        (UInt32.ofNat (old.toNat * 2 ^ (8 * offset))).toNat + 2 ^ (8 * (offset + 1)) * rest := by
      intro rest
      rw [toNat_shifted_byte (exchange_byte_lt hexchange) hplaces, Nat.mul_add,
        Nat.mul_comm (2 ^ (8 * offset)), ← Nat.mul_assoc, Nat.mul_add, Nat.pow_add]
    simp only [hsum]
    rw [← bind_map_left (2 ^ (8 * (offset + 1)) * ·) _ fun rest =>
      (pure ((UInt32.ofNat (old.toNat * 2 ^ (8 * offset))).toNat + rest) : OnBus Nat)]
    exact (ih hb₂ (by omega)).bind fun rest b₃ _ => passes_pure _ b₃

theorem passes_transferMapped {t : Transfer}
    (hsums : ∀ offset < t.width.bytes, t.address.toNat + offset < 2 ^ 32)
    (hb : b.memory.Backed) : Passes (checkedTransferMapped t) (transferMapped t) b := by
  have hone := t.width.one_le_bytes
  have hfour := t.width.bytes_le_four
  unfold checkedTransferMapped transferMapped
  refine passes_defined (checkedCrossesPage_eq ..) (passes_of_ite (fun _ => ?_) fun _ => ?_)
  · refine (passes_translate hb _ _).bind fun _ b₁ hfirst => ?_
    have hb₁ := backed_of_yields (keeps_translate PagedMemory.enduring_backed _ _) hb hfirst
    refine passes_defined (unsigned?_of_lt (k := t.width.bytes - 1) (by omega) (by omega)) ?_
    refine passes_defined (unsigned?_of_lt (by norm_cast) (hsums (t.width.bytes - 1) (by omega))) ?_
    rw [UInt32.ofNat_add, UInt32.ofNat_toNat]
    refine (passes_translate hb₁ _ _).bind fun _ b₂ hlast => ?_
    have hb₂ := backed_of_yields (keeps_translate PagedMemory.enduring_backed _ _) hb₁ hlast
    have hall : 0 + t.width.bytes ≤ t.width.bytes := Nat.le_of_eq (Nat.zero_add _)
    have hbytes := passes_exchangeBytes hsums t.width.bytes hb₂ hall
    simp only [Nat.mul_zero, Nat.pow_zero, Nat.one_mul, id_map'] at hbytes
    exact hbytes.bind fun old b₃ _ => passes_pure _ b₃
  · exact (passes_translate hb _ _).bind fun physical b₁ _ => passes_exchange physical _ _ b₁

theorem passes_transfer (t : Transfer) (hb : b.memory.Backed) :
    Passes (checkedTransfer t) (transfer t) b := by
  refine passes_get_bind ?_
  cases b.regions.regionOf? t.address with
  | none => exact passes_throw _ b
  | some region =>
    refine passes_defined (region.checkedHolds_eq ..) (passes_of_ite (fun hholds => ?_) fun _ =>
      passes_throw _ b)
    refine (passes_outcome rfl b).bind fun _ b₁ hpermit => ?_
    obtain ⟨-, rfl⟩ := hpermit.of_outcome
    cases region.kind with
    | rom => exact passes_get_bind (passes_outcome (ByteStore.checkedRead_eq ..) b₁)
    | ram => exact passes_exchange t.address t.width t.store b₁
    | mapped => exact passes_transferMapped (fun _ => Region.add_lt_of_holds hholds) hb

/-! ## Images -/

def checkedLoadByte (address : Word) (byte : UInt8) : Checked Bus Unit := do
  match (← get).regions.regionOf? address with
  | none => throw (.fault (.memoryOutOfBounds address))
  | some region =>
    match region.kind with
    | .rom => checkedOnRom (ByteStore.checkedWriteBytes address [byte])
    | .ram =>
      checkedOnMemory (PagedMemory.checkedOnRam (ByteStore.checkedWriteBytes address [byte]))
    | .mapped =>
      checkedOnMemory do
        let physical ← PagedMemory.checkedTranslateHostWrite address
        PagedMemory.checkedOnRam (ByteStore.checkedWriteBytes physical [byte])

def checkedLoadBytes (address : Word) : List UInt8 → Checked Bus Unit
  | [] => return ()
  | byte :: bytes => do
    checkedLoadByte address byte
    checkedLoadBytes (address + 1) bytes

def checkedLoadImage (base : Word) (image : List UInt8) : Checked Bus Unit :=
  if base.toNat + image.length ≤ 2 ^ 32 then checkedLoadBytes base image
  else throw (.fault (.memoryOutOfBounds 0xFFFFFFFF))

theorem passes_loadByte (hb : b.memory.Backed) (address : Word) (byte : UInt8) :
    Passes (checkedLoadByte address byte) (loadByte address byte) b := by
  have hone : [byte].length < 2 ^ 32 := Nat.one_lt_two_pow (by decide)
  refine passes_get_bind ?_
  cases b.regions.regionOf? address with
  | none => exact passes_throw _ b
  | some region =>
    dsimp only
    cases region.kind with
    | rom => exact passes_onRom (ByteStore.passes_writeBytes hone b.rom)
    | ram =>
      exact passes_onMemory
        (PagedMemory.passes_onRam (ByteStore.passes_writeBytes hone b.memory.ram))
    | mapped =>
      obtain ⟨v, hv⟩ := hb.represents
      refine passes_onMemory
        ((hb.consistent.passes_translateHostWrite hv address).bind fun physical m _ => ?_)
      exact PagedMemory.passes_onRam (ByteStore.passes_writeBytes hone m.ram)

theorem passes_loadBytes (bytes : List UInt8) : ∀ {b : Bus} {address : Word}, b.memory.Backed →
    Passes (checkedLoadBytes address bytes) (loadBytes address bytes) b := by
  induction bytes with
  | nil => exact fun {b} _ _ => passes_pure () b
  | cons byte bytes ih =>
    intro b address hb
    refine (passes_loadByte hb address byte).bind fun _ b₁ hload => ih ?_
    exact backed_of_yields (keeps_loadByte PagedMemory.enduring_backed _ _) hb hload

theorem passes_loadImage (hb : b.memory.Backed) (base : Word) (image : List UInt8) :
    Passes (checkedLoadImage base image) (loadImage base image) b :=
  passes_of_ite (fun _ => passes_loadBytes image hb) fun _ => passes_throw _ b

end Bus

/-! ## Operations -/

open Bus in
def Operation.checked : Operation → Checked Bus Answer
  | paging op => checkedOnMemory op.checked
  | read address width => .value <$> checkedTransfer (.read address width)
  | fetch address => .value <$> checkedTransfer (.fetch address)
  | write address width value =>
    (fun _ => .done) <$> discard (checkedTransfer (.write address width value))
  | swap address width value => .value <$> checkedTransfer (.write address width value)
  | loadImage base image => (fun _ => .done) <$> checkedLoadImage base image
  | setPrivilege privilege => lift (Operation.setPrivilege privilege).perform

def HostOperation.checked : HostOperation → Checked Bus Answer
  | bus op => op.checked
  | store address bytes => do
    Bus.checkedOnMemory (PagedMemory.checkedOnRam (ByteStore.checkedWriteBytes address bytes))
    return .done

def HostOperation.Sized : HostOperation → Prop
  | bus _ => True
  | store _ bytes => bytes.length < 2 ^ 32

namespace Bus

variable {b : Bus}

theorem passes_perform (hb : b.memory.Backed) (op : Operation) :
    Passes op.checked op.perform b := by
  cases op with
  | paging op =>
    obtain ⟨v, hv⟩ := hb.represents
    exact passes_onMemory (hb.consistent.passes_perform hv op)
  | read | fetch | swap => exact (passes_transfer _ hb).map _
  | write => exact ((passes_transfer _ hb).map _).map _
  | loadImage base image => exact (passes_loadImage hb base image).map _
  | setPrivilege privilege => rfl

theorem passes_host (hb : b.memory.Backed) {op : HostOperation} (hop : op.Sized) :
    Passes op.checked op.perform b := by
  cases op with
  | bus op => exact passes_perform hb op
  | store address bytes =>
    refine (passes_onMemory
      (PagedMemory.passes_onRam (ByteStore.passes_writeBytes hop b.memory.ram))).bind ?_
    exact fun _ b₁ _ => passes_pure _ b₁

end Bus

end PagedMachine

import PagedMachine.Proofs.Noninterference
import PagedMachine.Proofs.WideAccesses

/-!
# The bytes found on the bus

Wherever an address leads, to ROM, RAM or a page of the current process, there is one
byte at it. An access that is served answers the bytes at its addresses, lowest first,
and leaves there what it stores.
-/

namespace PagedMachine

/-! ## Bytes of a word -/

namespace Word

theorem toNat_byte (value : Word) (i : Nat) :
    (value.byte i).toNat = value.toNat / 256 ^ i % 256 := by
  have hlt : value.toNat / 2 ^ (8 * i) % 2 ^ 8 < 256 := Nat.mod_lt _ (by decide)
  rw [byte, field, UInt8.toNat_ofNat', Nat.mod_eq_of_lt hlt, Nat.pow_mul]

/-- The low bytes say what the number is modulo what they can hold. -/
theorem mod_eq_of_bytes {a b : Word} (n : Nat) (h : ∀ i < n, a.byte i = b.byte i) :
    a.toNat % 256 ^ n = b.toNat % 256 ^ n := by
  induction n with
  | zero => rw [Nat.pow_zero, Nat.mod_one, Nat.mod_one]
  | succ n ih =>
    have hlast := congrArg UInt8.toNat (h n (Nat.lt_succ_self n))
    rw [toNat_byte, toNat_byte] at hlast
    rw [Nat.pow_succ, Nat.mod_mul, Nat.mod_mul, ih fun i hi => h i (Nat.lt_succ_of_lt hi), hlast]

theorem eq_of_bytes {a b : Word} (h : ∀ i < 4, a.byte i = b.byte i) : a = b := by
  have hmod := mod_eq_of_bytes 4 h
  rw [Nat.mod_eq_of_lt a.toNat_lt, Nat.mod_eq_of_lt b.toNat_lt] at hmod
  exact UInt32.toNat_inj.mp hmod

theorem getD_toBytes {n i : Nat} (hi : i < n) (value : Word) :
    (toBytes n value.toNat).getD i 0 = value.byte i := by
  rw [← UInt8.toNat_inj, toNat_byte]
  generalize value.toNat = v
  induction n generalizing i v with
  | zero => exact absurd hi (Nat.not_lt_zero i)
  | succ n ih =>
    cases i with
    | zero =>
      rw [Nat.pow_zero, Nat.div_one]
      exact UInt8.toNat_ofNat'
    | succ i =>
      rw [Nat.pow_succ', ← Nat.div_div_eq_div_mul]
      exact ih (Nat.lt_of_succ_lt_succ hi) _

end Word

theorem ofBytes_div_mod (bs : List UInt8) :
    ∀ i, ofBytes bs / 256 ^ i % 256 = (bs.getD i 0).toNat := by
  induction bs with
  | nil => intro i; rw [ofBytes, Nat.zero_div]; rfl
  | cons b bs ih =>
    have hb := b.toNat_lt
    intro i
    cases i with
    | zero =>
      rw [ofBytes, Nat.pow_zero, Nat.div_one, Nat.add_mul_mod_self_left, Nat.mod_eq_of_lt hb]
      rfl
    | succ i =>
      rw [Nat.pow_succ', ← Nat.div_div_eq_div_mul, ofBytes, Nat.add_mul_div_left _ _ (by decide),
        Nat.div_eq_of_lt hb, Nat.zero_add]
      exact ih i

theorem toNat_ofNat_ofBytes {bs : List UInt8} (h : bs.length ≤ 4) :
    (UInt32.ofNat (ofBytes bs)).toNat = ofBytes bs := by
  have hlt := ofBytes_lt bs
  have hpow : 256 ^ bs.length ≤ 256 ^ 4 := Nat.pow_le_pow_right (by decide) h
  rw [UInt32.toNat_ofNat', Nat.mod_eq_of_lt (by omega)]

theorem Word.byte_ofBytes {bs : List UInt8} (h : bs.length ≤ 4) (i : Nat) :
    Word.byte (UInt32.ofNat (ofBytes bs)) i = bs.getD i 0 := by
  rw [← UInt8.toNat_inj, toNat_byte, toNat_ofNat_ofBytes h, ofBytes_div_mod]

/-- The bytes that an access in virtual memory answers, and those that it leaves. -/
theorem Virtual.transferMapped_bytes {v v' : Virtual.Memory} {t : Transfer} {privilege : Privilege}
    {old : Word} (hf : v.Fresh) (h : (transferMapped t privilege).allows v (.ok old) v') :
    ∃ q bs, bs.length = t.width.bytes ∧ old = UInt32.ofNat (ofBytes bs) ∧
      v.current = some q ∧ v'.current = some q ∧
      (∀ i < t.width.bytes, v.byte? q (t.address + UInt32.ofNat i) = some (bs.getD i 0)) ∧
      ∀ i < t.width.bytes,
      v'.byte? q (t.address + UInt32.ofNat i) = some ((t.store.getD old).byte i) := by
  obtain ⟨v₁, hp, ⟨e, he, -⟩ | ⟨hg, hanswer, rfl⟩⟩ := transferMapped_allows h
  · cases he
  have hunseen := hp.unseen hf
  obtain ⟨mp, hmp, -⟩ := hg.1
  obtain ⟨q, hc, -⟩ := Memory.find?_some.mp hmp
  have hcovers : v₁.Covers t 0 t.width.bytes := by
    intro i _ hi
    have hwithin : i < t.width.bytes := by omega
    obtain ⟨mp, hmp, -⟩ := hg.grants hwithin
    exact ⟨mp, hmp⟩
  have hfit : 0 + t.width.bytes ≤ pageSize := by rw [Nat.zero_add]; exact bytes_le_pageSize t.width
  have hfinds := hcovers.finds hc
  -- from here on only what is found counts, not where
  generalize (fun i => (v₁.byte? q (t.address + UInt32.ofNat i)).getD 0) = f at hfinds
  rw [hfinds.answer _ 0 hc hfit] at hanswer
  have hlength : ((List.range' 0 t.width.bytes).map f).length = t.width.bytes := by simp
  have hgetD : ∀ i < t.width.bytes, ((List.range' 0 t.width.bytes).map f).getD i 0 = f i := by
    intro i hi
    simp [List.getD, hi]
  refine ⟨q, _, hlength, Except.ok.inj hanswer, hunseen.current.symm.trans hc, ?_, fun i hi =>
    ?_, fun i hi => ?_⟩
  · obtain ⟨contents, he⟩ := Memory.exchangeBytes_eq t t.width.bytes v₁ 0
    rw [he]
    exact hc
  · rw [← hunseen.bytes, hfinds i (Nat.zero_le i) (by omega), hgetD i hi]
  · cases hstore : t.store with
    | none =>
      have hfour : ((List.range' 0 t.width.bytes).map f).length ≤ 4 :=
        Nat.le_trans (Nat.le_of_eq hlength) t.width.bytes_le_four
      rw [Memory.exchangeBytes_load hstore, hfinds i (Nat.zero_le i) (by omega), Option.getD_none,
        Except.ok.inj hanswer, Word.byte_ofBytes hfour, hgetD i hi]
    | some value =>
      obtain ⟨mp, hmp⟩ := hcovers i (Nat.zero_le i) (by omega)
      have hits : v₁.Hits t i q (t.address + UInt32.ofNat i) :=
        ⟨mp, mp, hmp, (Memory.find?_eq hc _).symm.trans hmp, rfl, rfl⟩
      exact (Memory.byte?_exchangeBytes_store hstore q _ _ 0 hfit hcovers).1 i (Nat.zero_le i)
        (by omega) hits

/-! ## Settled buses -/

namespace Bus

open PagedMemory (RamAt Enduring)

variable {α : Type} {b b' : Bus} {t : Transfer} {old : Word}

structure Settled (b : Bus) : Prop where
  sound : b.Sound
  laid : ∃ window, RegionMap.ofRanges (b.rom.base, UInt32.ofNat b.rom.size)
    (b.memory.ram.base, UInt32.ofNat b.memory.ram.size) window = .ok b.regions

theorem Sound.transfer {r : Except Fault Word} (h : b.Sound) (hstep : Yields (transfer t) b r b') :
    b'.Sound :=
  (keeps_transfer PagedMemory.enduring_sound t b r b' ⟨h, rfl, rfl, rfl⟩ hstep).memory

theorem Settled.represents (h : b.Settled) :
    ∃ v, Represents b ⟨v, b.rom, b.regions, b.privilege⟩ := by
  obtain ⟨v, hv⟩ := h.sound.represents
  exact ⟨v, h.sound.consistent, hv, rfl, rfl, rfl⟩

theorem Settled.withPrivilege (h : b.Settled) (privilege : Privilege) :
    Settled { b with privilege := privilege } := ⟨h.sound, h.laid⟩

theorem keeps_settled {x : OnBus α} (hx : ∀ I, Enduring I → ∀ b₀, Keeps (Within I b₀) x) :
    Keeps Settled x := by
  intro b r b' h hstep
  have hsound := hx _ PagedMemory.enduring_sound b b r b' ⟨h.sound, rfl, rfl, rfl⟩ hstep
  have hlaid :=
    hx _ (PagedMemory.stable_ramAt b.memory.ram.base b.memory.ram.size).enduring b b r b'
    ⟨⟨rfl, rfl⟩, rfl, rfl, rfl⟩ hstep
  obtain ⟨window, hwindow⟩ := h.laid
  refine ⟨hsound.memory, window, ?_⟩
  rw [hlaid.romBase, hlaid.romSize, hlaid.memory.1, hlaid.memory.2, hlaid.regions]
  exact hwindow

theorem Settled.transfer {r : Except Fault Word} (h : b.Settled)
    (hstep : Yields (transfer t) b r b') : b'.Settled :=
  keeps_settled (fun _ hI _ => keeps_transfer hI t) b r b' h hstep

theorem Settled.loadImage {base : Word} {image : List UInt8} {r : Except Fault Unit} (h : b.Settled)
    (hstep : Yields (loadImage base image) b r b') : b'.Settled :=
  keeps_settled (fun _ hI _ => keeps_loadImage hI base image) b r b' h hstep

theorem Reached.settled (h : b.Reached) : b.Settled := by
  refine ⟨h.sound, ?_⟩
  obtain ⟨ram, rom, disk, window, ranges, start, es, hb, -, hrun, -⟩ := h
  exact ⟨window, (laid_of_run hb hrun).2⟩

/-! ## The byte at an address -/

def byteAt? (b : Bus) (address : Word) : Option UInt8 :=
  match (b.regions.regionOf? address).map Region.kind with
  | none => none
  | some .rom => some (b.rom.byte (address - b.rom.base).toNat)
  | some .ram => some (b.memory.ram.byte (address - b.memory.ram.base).toNat)
  | some .mapped => b.memory.current.bind fun pid => b.memory.byte? pid address

section
variable {address base : Word} {offset : Nat}

theorem sub_of_offset (h : address.toNat = base.toNat + offset) :
    (address - base).toNat = offset := by
  rw [UInt32.toNat_sub_of_le _ _ (UInt32.le_iff_toNat_le.mpr (by omega))]
  omega

theorem byteAt?_rom (hserves : b.Serves .rom address)
    (h : address.toNat = b.rom.base.toNat + offset) :
    b.byteAt? address = some (b.rom.byte offset) := by
  obtain ⟨region, hregion, hk⟩ := hserves
  rw [byteAt?, hregion, Option.map_some, hk]
  dsimp only
  rw [sub_of_offset h]

theorem byteAt?_ram (hserves : b.Serves .ram address)
    (h : address.toNat = b.memory.ram.base.toNat + offset) :
    b.byteAt? address = some (b.memory.ram.byte offset) := by
  obtain ⟨region, hregion, hk⟩ := hserves
  rw [byteAt?, hregion, Option.map_some, hk]
  dsimp only
  rw [sub_of_offset h]

theorem byteAt?_mapped (hserves : b.Serves .mapped address) :
    b.byteAt? address = b.memory.current.bind fun pid => b.memory.byte? pid address := by
  obtain ⟨region, hregion, hk⟩ := hserves
  rw [byteAt?, hregion, Option.map_some, hk]

theorem Represents.byteAt?_mapped {v : Virtual.Bus} (hr : b.Represents v)
    (hserves : b.Serves .mapped address) : b.byteAt? address = v.memory.current.bind fun pid =>
      v.memory.byte? pid address := by
  rw [Bus.byteAt?_mapped hserves, ← hr.memory.current]
  simp only [hr.memory.byte?]

end

/-! ## Accesses -/

/-- The bytes that an access answers were at its addresses, and those that it stores are there
afterwards. -/
structure Exchanges (b : Bus) (t : Transfer) (old : Word) (b' : Bus) : Prop where
  lt : old.toNat < 256 ^ t.width.bytes
  found : ∀ i < t.width.bytes, b.byteAt? (t.address + UInt32.ofNat i) = some (old.byte i)
  left :
    ∀ i < t.width.bytes, b'.byteAt? (t.address + UInt32.ofNat i) = some ((t.store.getD old).byte i)

theorem exchanges_of_bytes {bs : List UInt8} (hlength : bs.length = t.width.bytes)
    (hold : old = UInt32.ofNat (ofBytes bs))
    (hfound : ∀ i < t.width.bytes, b.byteAt? (t.address + UInt32.ofNat i) = some (bs.getD i 0))
    (hleft : ∀ i < t.width.bytes,
      b'.byteAt? (t.address + UInt32.ofNat i) = some ((t.store.getD old).byte i)) :
    Exchanges b t old b' := by
  have hfour : bs.length ≤ 4 := Nat.le_trans (Nat.le_of_eq hlength) t.width.bytes_le_four
  refine ⟨?_, fun i hi => ?_, hleft⟩
  · rw [hold, toNat_ofNat_ofBytes hfour, ← hlength]
    exact ofBytes_lt bs
  · rw [hfound i hi, hold, Word.byte_ofBytes hfour]

section
variable {region : Region} (hinside : Inside b.regions region t)
  (hregion : b.regions.regionOf? t.address = some region)
  (hholds : region.holds t.address t.width = true) (h : Yields (transfer t) b (.ok old) b')
include hinside hregion hholds h

theorem exchanges_rom (hk : region.kind = .rom)
    (hpermit : region.kind.permit t.access t.address = .ok ())
    (hall : Region.CoversAll (b.rom.base, UInt32.ofNat b.rom.size) t.address t.width)
    (hstore : t.store = none) : Exchanges b t old b' := by
  obtain ⟨start, haddress, hend⟩ := ByteStore.offset_of_coversAll hall
  have hserved := transfer_rom hregion hk hholds hpermit
  rw [ByteStore.read_ok haddress hend] at hserved
  obtain ⟨hold, rfl⟩ := h.unique hserved
  have hfound : ∀ i < t.width.bytes, b'.byteAt? (t.address + UInt32.ofNat i) =
      some ((b'.rom.slice start t.width.bytes).getD i 0) := by
    intro i hi
    obtain ⟨hadd, hserves, -⟩ := hinside i hi
    have hat : (t.address + UInt32.ofNat i).toNat = b'.rom.base.toNat + (start + i) := by omega
    rw [byteAt?_rom ⟨region, hserves, hk⟩ hat, ByteStore.getD_slice _ _ hi]
  have hlength := b'.rom.length_slice start t.width.bytes
  have hfour : (b'.rom.slice start t.width.bytes).length ≤ 4 :=
    Nat.le_trans (Nat.le_of_eq hlength) t.width.bytes_le_four
  refine exchanges_of_bytes hlength (Except.ok.inj hold) hfound fun i hi => ?_
  rw [hfound i hi, hstore, Option.getD_none, Except.ok.inj hold, Word.byte_ofBytes hfour]

theorem exchanges_ram (hk : region.kind = .ram)
    (hall : Region.CoversAll (b.memory.ram.base,
      UInt32.ofNat b.memory.ram.size) t.address t.width) : Exchanges b t old b' := by
  obtain ⟨start, haddress, hend⟩ := ByteStore.offset_of_coversAll hall
  have hserved := transfer_served hregion hholds (permit_of_not_rom (by rw [hk]; exact nofun) _)
  rw [hk] at hserved
  replace hserved := hserved.trans (exchange_run haddress hend)
  obtain ⟨hold, rfl⟩ := h.eq_of_ok hserved
  have hfound : ∀ i < t.width.bytes, b.byteAt? (t.address + UInt32.ofNat i) =
      some ((b.memory.ram.slice start t.width.bytes).getD i 0) := by
    intro i hi
    obtain ⟨hadd, hserves, -⟩ := hinside i hi
    have hat : (t.address + UInt32.ofNat i).toNat = b.memory.ram.base.toNat + (start + i) :=
      by omega
    rw [byteAt?_ram ⟨region, hserves, hk⟩ hat, ByteStore.getD_slice _ _ hi]
  have hlength := b.memory.ram.length_slice start t.width.bytes
  have hfour : (b.memory.ram.slice start t.width.bytes).length ≤ 4 :=
    Nat.le_trans (Nat.le_of_eq hlength) t.width.bytes_le_four
  refine exchanges_of_bytes hlength (Except.ok.inj hold) hfound fun i hi => ?_
  obtain ⟨hadd, hserves, -⟩ := hinside i hi
  have hat : (t.address + UInt32.ofNat i).toNat =
      (b.withRam (PagedMemory.stored t b.memory.ram start 0 t.width.bytes)).memory.ram.base.toNat +
      (start + i) := by
    rw [withRam, PagedMemory.base_stored]
    omega
  rw [byteAt?_ram ⟨region, by exact hserves, hk⟩ hat]
  cases hstore : t.store with
  | none =>
    rw [Option.getD_none, Except.ok.inj hold, Word.byte_ofBytes hfour, ByteStore.getD_slice _ _ hi]
    simp only [withRam, PagedMemory.stored, hstore]
  | some value =>
    have hfit : start + (toBytes t.width.bytes value.toNat).length ≤ b.memory.ram.size := by
      rwa [length_toBytes]
    have hbyte : (b.memory.ram.patch start (toBytes t.width.bytes value.toNat)).byte (start + i) =
        value.byte i := by
      rw [ByteStore.byte_patch hfit, length_toBytes, if_pos (by omega), Nat.add_sub_cancel_left,
        Word.getD_toBytes hi]
    simp only [withRam, PagedMemory.stored, hstore, Nat.pow_zero, Nat.div_one, Option.getD_some]
    rw [hbyte]

omit hholds in
theorem exchanges_mapped {v : Virtual.Bus} (hr : b.Represents v) (hk : region.kind = .mapped) :
    Exchanges b t old b' := by
  obtain ⟨r₁, b₁, v', hx, hy, hr', -⟩ := mirrors_transfer hr t
  obtain ⟨rfl, rfl⟩ := h.unique hx
  rcases Virtual.Bus.transfer_window (hr.regions ▸ hregion) hk hy with ⟨e, he, -⟩ | ⟨m, hm, rfl⟩
  · cases he
  obtain ⟨q, bs, hlength, hold, hc, hc', hfound, hleft⟩ :=
    Virtual.transferMapped_bytes hr.memory.isFresh hm
  have hserves : ∀ {c : Bus}, c.regions = b.regions →
      ∀ i < t.width.bytes, c.Serves .mapped (t.address + UInt32.ofNat i) :=
    fun hregions i hi => ⟨region, hregions ▸ (hinside i hi).2.1, hk⟩
  refine exchanges_of_bytes hlength hold (fun i hi => ?_) fun i hi => ?_
  · rw [hr.byteAt?_mapped (hserves rfl i hi), hc]
    exact hfound i hi
  · rw [hr'.byteAt?_mapped (hserves (hr'.regions.symm.trans hr.regions) i hi), hc']
    exact hleft i hi

end

/-- An access that only stores where it may write exchanges the bytes at its addresses. -/
theorem Settled.exchanges (hb : b.Settled) (hstore : t.store ≠ none → t.access = .write)
    (h : Yields (Bus.transfer t) b (.ok old) b') : Exchanges b t old b' := by
  obtain ⟨window, hlaid⟩ := hb.laid
  obtain ⟨v, hr⟩ := hb.represents
  obtain ⟨region, hregion, hholds, hpermit⟩ := admitted_of_served h
  obtain ⟨hinside, hall⟩ :=
    inside_of_holds (deviceRanges b.rom b.memory.ram window) hlaid hregion hholds
  cases hk : region.kind with
  | rom =>
    rw [hk] at hall
    refine exchanges_rom hinside hregion hholds h hk hpermit hall ?_
    by_contra hne
    rw [hk, hstore hne] at hpermit
    cases hpermit
  | ram =>
    rw [hk] at hall
    exact exchanges_ram hinside hregion hholds h hk hall
  | mapped => exact exchanges_mapped hinside hregion h hr hk

/-- What is stored is what is read there next. -/
theorem Exchanges.toNat_reread {t' : Transfer} {value old' : Word} {b'' : Bus}
    (h : Exchanges b t old b') (h' : Exchanges b' t' old' b'') (haddress : t'.address = t.address)
    (hwidth : t'.width = t.width) (hstore : t.store = some value) :
    old'.toNat = value.toNat % 256 ^ t.width.bytes := by
  have hbytes : ∀ i < t.width.bytes, old'.byte i = value.byte i := by
    intro i hi
    have hfound := h'.found i (hwidth ▸ hi)
    rw [haddress, h.left i hi, hstore, Option.getD_some] at hfound
    exact (Option.some.inj hfound).symm
  rw [← Word.mod_eq_of_bytes t.width.bytes hbytes, Nat.mod_eq_of_lt (hwidth ▸ h'.lt)]

end Bus

/-! ## Machines -/

namespace Machine

variable {m m' : Machine}

theorem sound_step (h : m.bus.Sound) : m.step.2.bus.Sound := by
  have hexecuted : ∀ {r b'}, Yields (executeNext m.registers) m.bus r b' → b'.Sound := fun hx =>
    (Bus.keeps_executeNext PagedMemory.enduring_sound m.registers m.bus _ _
      ⟨h, rfl, rfl, rfl⟩ hx).memory
  rcases step_cases m with hstep | ⟨b', ⟨e, hx, hstep⟩ | ⟨f, hx, hstep⟩⟩
  · rwa [hstep]
  · rw [hstep, retire_bus]
    exact hexecuted hx
  · rw [hstep]
    exact hexecuted hx

theorem sound_reset (h : m.bus.Sound) : m.reset.bus.Sound := by
  have h₀ : Bus.Sound { m.bus with privilege := m.config.privilege } := h
  unfold reset
  dsimp only
  split <;> rename_i hread
  · exact h₀.transfer (r := .ok _) hread
  · exact h₀.transfer (r := .error _) hread

theorem keeps_sound_loadProgram (base : Word) (words : List Word) :
    Keeps (fun m => m.bus.Sound) (loadProgram base words) := by
  refine (keeps_focus_of fun m r b h hload => ?_).bind fun _ => keeps_modify fun m h => h
  exact (Bus.keeps_loadImage PagedMemory.enduring_sound base _ m.bus r b
    ⟨h, rfl, rfl, rfl⟩ hload).memory

theorem sound_preserved {op : MachineOperation} {r : Except Fault Answer} (h : m.bus.Sound)
    (hstep : op.Step m r m') (hcounts : PagedMemory.WithinCounts m'.bus.memory)
    (hpid : m.bus.memory.nextPid.toNat + created r < 2 ^ 32) : m'.bus.Sound := by
  have hchange : ∀ {f : Machine → Machine}, Yields (MachineOperation.change f) m r m' →
      (f m).bus.Sound →
      m'.bus.Sound := by
    intro f hx hf
    obtain ⟨-, rfl⟩ := hx.eq_of_ok rfl
    exact hf
  cases op with
  | host op =>
    obtain ⟨r₁, b', hop⟩ := yields_exists op.perform m.bus
    obtain ⟨rfl, rfl⟩ := hstep.unique (onBus_run hop)
    exact (h.hostStep hop hcounts hpid).1
  | step => exact hchange hstep (sound_step h)
  | run budget =>
    exact hchange hstep (steps_preserve (P := fun m => m.bus.Sound) (fun _ => sound_step) budget h)
  | reset => exact hchange hstep (sound_reset h)
  | loadProgram base words => exact (keeps_sound_loadProgram base words).map _ m r m' h hstep
  | setRegister | setPc | setFlags | setFlag => exact hchange hstep h

theorem sound_initial {config : Configuration} {ram : Ram} {rom : Rom} {disk : Disk}
    (hm : ofDevices config ram rom disk = .ok m) (hdisk : disk.base = 0) : m.bus.Sound := by
  unfold ofDevices at hm
  cases hbus : Bus.ofDevices ram rom disk config.window config.ranges with
  | error e =>
    rw [hbus] at hm
    cases hm
  | ok b =>
    rw [hbus] at hm
    obtain ⟨hr, hfirst⟩ := Bus.represents_initial hbus hdisk
    have hhoused : PagedMemory.Housed b.memory := by
      obtain ⟨_, -, -, rfl⟩ := Bus.ofDevices_ok hbus
      exact PagedMemory.housed_of_empty rfl
    obtain ⟨pid, memory, hbegin, ⟨w, hbegun⟩, -⟩ := hr.begin_kept hfirst
    obtain rfl := Except.ok.inj hm
    rw [hbegin]
    dsimp only
    refine sound_reset ?_
    cases config.initialProcess with
    | true =>
      have hrun :
          Yields (PagingOperation.perform .beginProcess) b.memory (.ok (.process pid)) memory :=
        Yields.map (r := .ok pid) hbegin _
      exact ⟨hbegun.consistent, ⟨_, hbegun.memory⟩,
        hr.consistent.housed_step hr.memory hhoused hrun⟩
    | false => exact ⟨hr.consistent, ⟨_, hr.memory⟩, hhoused⟩

theorem Reached.sound (h : m.Reached) : m.bus.Sound := by
  obtain ⟨config, ram, rom, disk, start, es, hm, hdisk, hrun, hpids, hcounts⟩ := h
  have hnumber := (represents_initial hm hdisk).2
  have hpreserves :=
    hrun.preserves (fun m => m.bus.memory.nextPid.toNat) (I := fun m => m.bus.Sound)
    (F := fun e => PagedMemory.WithinCounts e.state.bus.memory)
      fun op m r m' h hstep hcounts hpid => by
      obtain ⟨v, hr⟩ := h.represents
      have hkept := step_preserves
        ⟨⟨v, m.bus.rom, m.bus.regions, m.bus.privilege⟩, h.consistent, hr, rfl, rfl,
          rfl⟩ hstep hcounts hpid
      exact ⟨sound_preserved h hstep hcounts hpid, hkept.2⟩
  exact (hpreserves (sound_initial hm hdisk) (by omega) hcounts).1

theorem Reached.settled (h : m.Reached) : m.bus.Settled := ⟨h.sound, _, h.laid⟩

end Machine

/-- A host of the bus alone brought it here, or a host of the machine that it belongs to. -/
def Bus.Attained (b : Bus) : Prop := b.Reached ∨ ∃ m : Machine, m.Reached ∧ m.bus = b

theorem Bus.Attained.settled {b : Bus} (h : b.Attained) : b.Settled := by
  rcases h with h | ⟨m, h, rfl⟩
  · exact h.settled
  · exact h.settled

end PagedMachine

import PagedMachine.Proofs.OldValues
import PagedMachine.Proofs.Routing

/-!
# Wide accesses

A wide access of the bus against its bytes, each in an access of its own. Whatever
serves the access, its bytes are served too and spell the same value. Devices are left
the same; so are the pages, but for the copy of a page that is stored to through
another of its addresses in the same access.
-/

namespace PagedMachine

/-! ## Low bytes -/

theorem toBytes_mod (n : Nat) : ∀ v, toBytes n (v % 256 ^ n) = toBytes n v := by
  induction n with
  | zero => exact fun _ => rfl
  | succ n ih =>
    intro v
    have hbyte : UInt8.ofNat (v % 256 ^ (n + 1)) = UInt8.ofNat v := by
      rw [← UInt8.ofNat_mod_size, Nat.pow_succ', Nat.mod_mul_right_mod]
      exact UInt8.ofNat_mod_size
    rw [toBytes, toBytes, hbyte, Nat.pow_succ', Nat.mod_mul_right_div_self, ih]

theorem toBytes_congr {n v v' : Nat} (h : v' % 256 ^ n = v % 256 ^ n) :
    toBytes n v' = toBytes n v := by
  rw [← toBytes_mod, h, toBytes_mod]

theorem Word.field_congr {n offset : Nat} {w w' : Word} (h : w'.toNat % 256 ^ n = w.toNat % 256 ^ n)
    (ho : offset < n) : w'.field (8 * offset) 8 = w.field (8 * offset) 8 := by
  obtain ⟨k, rfl⟩ : ∃ k, n = offset + (k + 1) := ⟨n - offset - 1, by omega⟩
  have hfield : ∀ x :
      Word, x.field (8 * offset) 8 = x.toNat % 256 ^ (offset + (k + 1)) / 256 ^ offset % 256 := by
    intro x
    rw [Nat.pow_add, Nat.mod_mul_right_div_self, Nat.pow_succ', Nat.mod_mul_right_mod, field,
      Nat.pow_mul]
  rw [hfield, hfield, h]

namespace Bus

variable {b b' b'' : Bus} {t : Transfer} {region : Region} {old value value' : Word}
    {access : Access} {width : Width} {address : Word} {window : Word × Word}

section
variable (h : value'.toNat % 256 ^ width.bytes = value.toNat % 256 ^ width.bytes)
include h

theorem exchange_congr (address : Word) :
    exchange address width (some value') = exchange address width (some value) := by
  have hwrite : ByteStore.write address width value' = ByteStore.write address width value :=
    congrArg (ByteStore.writeBytes address) (toBytes_congr h)
  simp only [exchange, hwrite]

theorem exchangeBytes_congr (address : Word) (access : Access) (count : Nat) :
    ∀ offset, offset + count ≤ width.bytes →
      exchangeBytes ⟨address, width, access, some value'⟩ offset count =
      exchangeBytes ⟨address, width, access, some value⟩ offset count := by
  induction count with
  | zero => exact fun _ _ => rfl
  | succ count ih =>
    intro offset ho
    unfold exchangeBytes
    simp only [Option.map_some, Word.field_congr h (show offset < width.bytes by omega),
      ih (offset + 1) (by omega)]

/-- The bits of a value above the width play no part. -/
theorem transfer_congr (address : Word) (access : Access) :
    transfer ⟨address, width, access, some value'⟩ =
    transfer ⟨address, width, access, some value⟩ := by
  unfold transfer transferMapped
  simp only [exchange_congr h, exchangeBytes_congr h address access width.bytes 0 (by omega)]

end

/-! ## One byte after the other -/

open PagedMemory (part stored CatchesUp)

/-- The bytes of a transfer from `offset` up, lowest first, each in a transfer of its own. -/
def transferBytes (t : Transfer) (offset : Nat) : (count : Nat) → OnBus Nat
  | 0 => return 0
  | count + 1 => do
    let old ← transfer (part t offset)
    return old.toNat + 256 * (← transferBytes t (offset + 1) count)

def Inside (regions : RegionMap) (region : Region) (t : Transfer) : Prop :=
  ∀ i < t.width.bytes, (t.address + UInt32.ofNat i).toNat = t.address.toNat + i ∧
    regions.regionOf? (t.address + UInt32.ofNat i) = some region ∧
    region.holds (t.address + UInt32.ofNat i) .byte = true

theorem inside_of_holds (ranges : RegionKind → Word × Word) {m : RegionMap}
    (hlaid : RegionMap.ofRanges (ranges .rom) (ranges .ram) (ranges .mapped) = .ok m)
    (hregion : m.regionOf? t.address = some region)
    (hholds : region.holds t.address t.width = true) :
    Inside m region t ∧ Region.CoversAll (ranges region.kind) t.address t.width := by
  obtain ⟨hsound, -, hm⟩ := RegionMap.ofRanges_ok.mp hlaid
  obtain ⟨k, rfl⟩ : ∃ k, region = .ofRange k (ranges k) := by
    rw [hm] at hregion
    exact RegionMap.mem_regionsOf.mp
      ((RegionMap.ascending_perm _).mem_iff.mp (List.mem_of_find?_eq_some hregion))
  have hall := (Region.holds_ofRange (hsound k) _ _).mp hholds
  refine ⟨fun i hi => ?_, hall⟩
  have hadd : (t.address + UInt32.ofNat i).toNat = t.address.toNat + i := by
    have hend := (hall i hi).2
    have hends := (hsound k).ends
    rw [UInt32.toNat_add, UInt32.toNat_ofNat']
    omega
  have hcovers : Region.Covers (ranges k) (t.address + UInt32.ofNat i).toNat :=
    hadd.symm ▸ hall i hi
  refine ⟨hadd, RegionMap.regionOf?_of_covers hlaid hcovers,
    (Region.holds_ofRange (hsound k) _ _).mpr fun j hj => ?_⟩
  obtain rfl : j = 0 := Nat.lt_one_iff.mp hj
  exact hcovers

section
variable (hinside : Inside b.regions region t) {offset : Nat} (ho : offset < t.width.bytes)
include hinside ho

theorem transfer_part (hpermit : ∀ address, region.kind.permit t.access address = .ok ()) :
    (transfer (part t offset)).run b = (match region.kind with
      | .rom => get >>= fun b : Bus => outcome (b.rom.read (t.address + UInt32.ofNat offset) .byte)
      | .ram => exchange (t.address + UInt32.ofNat offset) .byte (part t offset).store
      | .mapped => translate (t.address + UInt32.ofNat offset) t.access >>= fun physical =>
          exchange physical .byte (part t offset).store : OnBus Word).run b := by
  obtain ⟨-, hregion, hholds⟩ := hinside offset ho
  have hserved := transfer_served (t := part t offset) hregion hholds (hpermit _)
  have hcross : ¬ crossesPage (part t offset).address (part t offset).width = true := by
    have hlt : (part t offset).address.pageOffset < pageSize := Nat.mod_lt _ (by decide)
    exact fun h => absurd (of_decide_eq_true h) (Nat.not_lt.mpr hlt)
  rw [hserved, transferMapped, if_neg hcross]
  rfl

end

theorem permit_of_not_rom (hk : region.kind ≠ .rom) (address : Word) :
    region.kind.permit access address = .ok () := by
  cases hkind : region.kind with
  | rom => exact absurd hkind hk
  | ram | mapped => rfl

theorem transferBytes_mapped (hk : region.kind = .mapped) (count : Nat) :
    ∀ {b : Bus} (offset : Nat), Inside b.regions region t → offset + count ≤ t.width.bytes →
      (transferBytes t offset count).run b = (exchangeBytes t offset count).run b := by
  induction count with
  | zero => exact fun _ _ _ => rfl
  | succ count ih =>
    intro b offset hinside ho
    have hone := transfer_part hinside (show offset < t.width.bytes by omega)
      (permit_of_not_rom (by rw [hk]; exact nofun))
    rw [hk] at hone
    -- the resolution of a byte and its exchange, as one action
    have hsplit : exchangeBytes t offset (count + 1) =
        (translate (t.address + UInt32.ofNat offset) t.access >>=
        fun physical => exchange physical .byte (part t offset).store) >>= fun old =>
        (fun rest => old.toNat + 256 * rest) <$> exchangeBytes t (offset + 1) count := by
      rw [bind_assoc]
      rfl
    rw [transferBytes, hsplit]
    cases hrun : (transfer (part t offset)).run b with
    | error e b₁ => rw [bind_error hrun, bind_error (hone.symm.trans hrun)]
    | ok old b₁ =>
      obtain ⟨m, rfl⟩ :=
        transfer_frame (show Yields (transfer (part t offset)) b (.ok old) b₁ from hrun)
      have hrest := ih (b := { b with memory := m }) (offset + 1) hinside (by omega)
      rw [bind_ok hrun, bind_ok (hone.symm.trans hrun)]
      change ((fun rest => old.toNat + 256 * rest) <$> transferBytes t (offset + 1) count).run _ = _
      cases h : (exchangeBytes t (offset + 1) count).run { b with memory := m } with
      | ok rest b₂ => rw [map_ok h, map_ok (hrest.trans h)]
      | error e b₂ => rw [map_error h, map_error (hrest.trans h)]

/-! ## Bytes of a device -/

theorem spell_slice (s : ByteStore) (start count : Nat) :
    (UInt32.ofNat (ofBytes (s.slice start 1))).toNat + 256 * ofBytes (s.slice (start + 1) count) =
      ofBytes (s.slice start (count + 1)) := by
  have hlt := (s.byte start).toNat_lt
  have hbyte : (UInt32.ofNat (ofBytes (s.slice start 1))).toNat = (s.byte start).toNat := by
    rw [ByteStore.slice_succ, UInt32.toNat_ofNat']
    change ((s.byte start).toNat + 256 * 0) % 2 ^ 32 = _
    omega
  rw [hbyte, ByteStore.slice_succ, ofBytes]

theorem transferBytes_rom (hk : region.kind = .rom) (hread : t.access ≠ .write) {start : Nat}
    (hinside : Inside b.regions region t)
    (haddress : t.address.toNat = b.rom.base.toNat + start)
    (hend : start + t.width.bytes ≤ b.rom.size) (count : Nat) :
    ∀ offset, offset + count ≤ t.width.bytes →
      (transferBytes t offset count).run b =
      .ok (ofBytes (b.rom.slice (start + offset) count)) b := by
  induction count with
  | zero => exact fun _ _ => rfl
  | succ count ih =>
    intro offset ho
    have hlt : offset < t.width.bytes := by omega
    have hpermit : ∀ address, region.kind.permit t.access address = .ok () := by
      intro address
      rw [hk]
      cases haccess : t.access with
      | write => exact absurd haccess hread
      | read | execute => rfl
    have hone := transfer_part hinside hlt hpermit
    rw [hk] at hone
    have hat : (t.address + UInt32.ofNat offset).toNat = b.rom.base.toNat + (start + offset) := by
      rw [(hinside offset hlt).1]
      omega
    have hfit : start + offset + 1 ≤ b.rom.size := by omega
    have hvalue : b.rom.read (t.address + UInt32.ofNat offset) .byte = .ok _ :=
      ByteStore.read_ok hat hfit
    have hfirst := hone.trans (outcome_ok hvalue b)
    rw [transferBytes, bind_ok hfirst, bind_ok (ih (offset + 1) (by omega))]
    exact congrArg (EStateM.Result.ok · b) (spell_slice b.rom (start + offset) count)

def withRam (b : Bus) (ram : Ram) : Bus := { b with memory := { b.memory with ram := ram } }

theorem exchange_run {start : Nat} (haddress : t.address.toNat = b.memory.ram.base.toNat + start)
    (hend : start + t.width.bytes ≤ b.memory.ram.size) :
    (exchange t.address t.width t.store).run b =
    .ok (UInt32.ofNat (ofBytes (b.memory.ram.slice start t.width.bytes)))
        (b.withRam (stored t b.memory.ram start 0 t.width.bytes)) := by
  have hread := outcome_ok (ByteStore.read_ok haddress hend) b
  rw [exchange, get_bind, bind_ok hread]
  cases hstore : t.store with
  | none =>
    simp only [stored, hstore]
    rfl
  | some value =>
    simp only [stored, hstore, Nat.pow_zero, Nat.div_one]
    exact bind_ok
      (onMemory_ok (b := b) (PagedMemory.onRam_ok (ByteStore.write_ok haddress hend value)))

theorem stored_part (t : Transfer) (ram : Ram) (start offset : Nat) :
    stored (part t offset) ram start 0 1 = stored t ram start offset 1 := by
  cases hstore : t.store with
  | none => simp only [stored, part, hstore, Option.map_none]
  | some value =>
    have hpart : (part t offset).store = some (UInt32.ofNat (value.field (8 * offset) 8)) := by
      rw [part, hstore]; rfl
    rw [PagedMemory.stored_one hstore, PagedMemory.stored_one hpart, PagedMemory.field_part]

theorem slice_stored (t : Transfer) {ram : Ram} {start : Nat} (hstart : start + 1 ≤ ram.size)
    (offset count : Nat) :
    (stored t ram start offset 1).slice (start + 1) count = ram.slice (start + 1) count := by
  cases hstore : t.store with
  | none => simp only [stored, hstore]
  | some value => rw [PagedMemory.stored_one hstore, ByteStore.slice_patch_above hstart]

theorem transferBytes_ram (hk : region.kind = .ram) {start : Nat} (count : Nat) :
    ∀ {b : Bus} (offset : Nat), Inside b.regions region t → offset + count ≤ t.width.bytes →
      t.address.toNat = b.memory.ram.base.toNat + start →
    start + t.width.bytes ≤ b.memory.ram.size → (transferBytes t offset count).run b =
      .ok (ofBytes (b.memory.ram.slice (start + offset) count))
        (b.withRam (stored t b.memory.ram (start + offset) offset count)) := by
  induction count with
  | zero =>
    intro b offset _ _ _ _
    rw [PagedMemory.stored_zero]
    rfl
  | succ count ih =>
    intro b offset hinside ho haddress hend
    have hlt : offset < t.width.bytes := by omega
    have hone := transfer_part hinside hlt (permit_of_not_rom (by rw [hk]; exact nofun))
    rw [hk] at hone
    have hat : (part t offset).address.toNat = b.memory.ram.base.toNat + (start + offset) := by
      rw [part, (hinside offset hlt).1]
      omega
    have hfit : start + offset + 1 ≤ b.memory.ram.size := by omega
    have hfirst := hone.trans (exchange_run (t := part t offset) hat hfit)
    rw [show (part t offset).width.bytes = 1 from rfl, stored_part] at hfirst
    -- what the first byte stores lies below what the others read
    have hrest : (transferBytes t (offset + 1) count).run
        (b.withRam (stored t b.memory.ram (start + offset) offset 1)) =
        .ok (ofBytes (b.memory.ram.slice (start + offset + 1) count))
          (b.withRam (stored t b.memory.ram (start + offset) offset (count + 1))) := by
      rw [PagedMemory.stored_succ t b.memory.ram (start + offset) offset count,
        ← slice_stored t hfit offset count]
      refine ih (b := b.withRam _) (offset + 1) hinside (by omega) ?_ ?_
      · rwa [withRam, PagedMemory.base_stored]
      · rwa [withRam, PagedMemory.size_stored]
    rw [transferBytes, bind_ok hfirst, bind_ok hrest]
    exact congrArg (EStateM.Result.ok · _) (spell_slice b.memory.ram (start + offset) count)

/-! ## The whole and its bytes -/

theorem admitted_of_served (h : Yields (transfer t) b (.ok old) b') : ∃ region,
    b.regions.regionOf? t.address = some region ∧ region.holds t.address t.width = true ∧
      region.kind.permit t.access t.address = .ok () := by
  cases hregion : b.regions.regionOf? t.address with
  | none => cases (h.eq_of_error (transfer_nowhere (.inl hregion))).1
  | some region =>
    by_cases hholds : region.holds t.address t.width = true
    · cases hpermit : region.kind.permit t.access t.address with
      | ok => exact ⟨region, rfl, hholds, hpermit⟩
      | error e => cases (h.eq_of_error (transfer_forbidden hregion hholds hpermit)).1
    · cases (h.eq_of_error (transfer_nowhere (.inr ⟨region, hregion, hholds⟩))).1

/-- What the bytes of a transfer do, one after the other, that led from `b` to `b'` as a whole. -/
structure SameInBytes (b : Bus) (t : Transfer) (old : Word) (b' b'' : Bus) : Prop where
  served : Yields (transferBytes t 0 t.width.bytes) b (.ok old.toNat) b''
  frame : b'' = { b' with memory := b''.memory }
  devices : ¬ b.Serves .mapped t.address → b'' = b'
  pages : b.Serves .mapped t.address → CatchesUp b.memory t b''.memory b'.memory

theorem sameInBytes_of_device (hregion : b.regions.regionOf? t.address = some region)
    (hk : region.kind ≠ .mapped)
    (hbytes : Yields (transferBytes t 0 t.width.bytes) b (.ok old.toNat) b') :
    SameInBytes b t old b' b' := by
  refine ⟨hbytes, rfl, fun _ => rfl, ?_⟩
  rintro ⟨region', hregion', hk'⟩
  rw [hregion] at hregion'
  exact absurd hk' (Option.some.inj hregion' ▸ hk)

theorem toNat_slice (s : ByteStore) (start : Nat) (width : Width) :
    (UInt32.ofNat (ofBytes (s.slice start width.bytes))).toNat =
    ofBytes (s.slice start width.bytes) := by
  have hlt := ofBytes_lt (s.slice start width.bytes)
  have hwidth : 256 ^ width.bytes ≤ 2 ^ 32 := by cases width <;> decide
  rw [ByteStore.length_slice] at hlt
  rw [UInt32.toNat_ofNat', Nat.mod_eq_of_lt (by omega)]

section
variable (hinside : Inside b.regions region t)
    (hregion : b.regions.regionOf? t.address = some region)
  (hholds : region.holds t.address t.width = true) (h : Yields (transfer t) b (.ok old) b')
include hinside hregion hholds h

theorem rom_inBytes (hk : region.kind = .rom)
    (hpermit : region.kind.permit t.access t.address = .ok ())
    (hall : Region.CoversAll (b.rom.base, UInt32.ofNat b.rom.size) t.address t.width) :
    SameInBytes b t old b' b' ∧ Yields (transfer (.read t.address t.width)) b (.ok old) b := by
  obtain ⟨start, haddress, hend⟩ := ByteStore.offset_of_coversAll hall
  have hread : t.access ≠ .write := by
    intro hwrite
    rw [hk, hwrite] at hpermit
    cases hpermit
  have hvalue := ByteStore.read_ok haddress hend
  have hserved := transfer_rom hregion hk hholds hpermit
  rw [hvalue] at hserved
  obtain ⟨hold, rfl⟩ := h.unique hserved
  have hbytes := transferBytes_rom hk hread hinside haddress hend t.width.bytes 0 (by omega)
  have hload := transfer_rom (t := .read t.address t.width) hregion hk hholds (by rw [hk]; rfl)
  rw [Except.ok.inj hold]
  refine ⟨sameInBytes_of_device hregion (by rw [hk]; exact nofun) ?_, ?_⟩
  · rw [toNat_slice]
    exact hbytes
  · rwa [← hvalue]

theorem ram_inBytes (hk : region.kind = .ram)
    (hall : Region.CoversAll (b.memory.ram.base,
      UInt32.ofNat b.memory.ram.size) t.address t.width) :
    SameInBytes b t old b' b' ∧ ∃ b'',
    Yields (transfer (.read t.address t.width)) b (.ok old) b'' := by
  obtain ⟨start, haddress, hend⟩ := ByteStore.offset_of_coversAll hall
  have hserved := transfer_served hregion hholds (permit_of_not_rom (by rw [hk]; exact nofun) _)
  rw [hk] at hserved
  replace hserved := hserved.trans (exchange_run haddress hend)
  obtain ⟨hold, rfl⟩ := h.eq_of_ok hserved
  have hbytes := transferBytes_ram hk t.width.bytes 0 hinside (by omega) haddress hend
  have hload := transfer_served (t := .read t.address t.width) hregion hholds
    (permit_of_not_rom (by rw [hk]; exact nofun) _)
  rw [hk] at hload
  rw [Except.ok.inj hold]
  refine ⟨sameInBytes_of_device hregion (by rw [hk]; exact nofun) ?_, _,
    hload.trans (exchange_run (t := .read t.address t.width) haddress hend)⟩
  rw [toNat_slice]
  exact hbytes

theorem mapped_inBytes (hsound : b.memory.Sound) (hk : region.kind = .mapped) :
    (∃ b'', SameInBytes b t old b' b'') ∧ ∃ b'',
    Yields (transfer (.read t.address t.width)) b (.ok old) b'' := by
  obtain ⟨m₁, hstep, rfl⟩ := yields_onMemory (h.of_run (transfer_run_mapped hregion hk hholds).symm)
  obtain ⟨m₂, hbytes, hpages⟩ := hsound.bytewise hstep
  obtain ⟨m₃, hload⟩ := hsound.load_of_transfer hstep
  refine ⟨⟨{ b with memory := m₂ }, ?_, rfl, fun hnot => absurd ⟨region, hregion, hk⟩ hnot, fun _ =>
    hpages⟩, ?_⟩
  · have hsame := transferBytes_mapped hk t.width.bytes 0 hinside (by omega)
    exact (hsame.trans (isOnMemory_exchangeBytes t _ 0 b)).trans (onMemory_ok hbytes)
  · exact ⟨_, (transfer_run_mapped (t := .read t.address t.width) hregion hk hholds).trans
      (onMemory_ok hload)⟩

end

theorem Sound.inBytes (hsound : b.Sound)
    (hlaid : RegionMap.ofRanges (b.rom.base, UInt32.ofNat b.rom.size)
      (b.memory.ram.base, UInt32.ofNat b.memory.ram.size) window = .ok b.regions)
    (h : Yields (transfer t) b (.ok old) b') :
    (∃ b'', SameInBytes b t old b' b'') ∧ ∃ b'',
    Yields (transfer (.read t.address t.width)) b (.ok old) b'' := by
  obtain ⟨region, hregion, hholds, hpermit⟩ := admitted_of_served h
  obtain ⟨hinside, hall⟩ :=
    inside_of_holds (deviceRanges b.rom b.memory.ram window) hlaid hregion hholds
  cases hk : region.kind with
  | rom =>
    rw [hk] at hall
    obtain ⟨hbytes, hload⟩ := rom_inBytes hinside hregion hholds h hk hpermit hall
    exact ⟨⟨_, hbytes⟩, _, hload⟩
  | ram =>
    rw [hk] at hall
    obtain ⟨hbytes, hload⟩ := ram_inBytes hinside hregion hholds h hk hall
    exact ⟨⟨_, hbytes⟩, hload⟩
  | mapped => exact mapped_inBytes hinside hregion hholds h hsound hk

section
variable {ram : Ram} {rom : Rom} {disk : Disk} {ranges : PageRanges}
    {es : List (Event Bus HostOperation Answer)}

/-- In every state of a run an access that is served is served byte by byte too, with the same
value. Both leave the same, but for the bytes that the copy of its last page misses. It answers what
a load would, and the bits above its width play no part. -/
theorem accesses_inBytes (hb : Bus.ofDevices ram rom disk window ranges = .ok b)
    (hdisk : disk.base = 0) (hrun : Run HostOperation.Step b es b')
    (hpids : creations es < 2 ^ 32 - 1)
    (hcounts : ∀ e ∈ es, PagedMemory.WithinCounts e.state.memory)
    (h : Yields (transfer t) b' (.ok old) b'') :
    (∃ c, SameInBytes b' t old b'' c) ∧
      (∃ c c', Yields (transfer (.read t.address t.width)) b' (.ok old) c ∧
        SameInBytes b' (.read t.address t.width) old c c') ∧
      ∀ value value', t.store = some value →
        value'.toNat % 256 ^ t.width.bytes = value.toNat % 256 ^ t.width.bytes →
        transfer { t with store := some value' } = transfer t := by
  have hsound := sound_of_run hb hdisk hrun hpids hcounts
  obtain ⟨-, hlaid⟩ := laid_of_run hb hrun
  obtain ⟨hbytes, c, hload⟩ := hsound.inBytes hlaid h
  obtain ⟨⟨c', hloaded⟩, -⟩ := hsound.inBytes hlaid hload
  refine ⟨hbytes, ⟨c, c', hload, hloaded⟩, fun value value' hs hlow => ?_⟩
  obtain ⟨address, width, access, store⟩ := t
  obtain rfl : store = some value := hs
  exact transfer_congr hlow address access

end

end Bus

/-! ## A page at two addresses

A process shares its page twice with itself, once without a flag and once with one. A
word is stored across the two pages: the second is copied while the bytes of the first
are still the old ones.
-/

namespace Aliases

open PagedMemory
open LastSlot (translate_onBus regionOf_bus)
open TwoReaders (bus ram rom disk window ranges start begun mappedAs step_addPageAs bus_ofDevices)

section
variable (disk : Disk) (ram : Ram)

def sharing (references : Nat) (d : Directory) : PagedMemory :=
  { mappedAs disk ram .readWrite with
    frameRefs := Table.empty.insert 0 references
    processes := Table.empty.insert 1 d }

def twice : PagedMemory :=
  sharing disk ram 2
    ((Table.empty.insert 0x400 ⟨.frame 0, .readWrite, false⟩).insert 0x402
      ⟨.frame 0, .readWrite, false⟩)

def directory : Directory :=
  ((Table.empty.insert 0x400 ⟨.frame 0, .readWrite, false⟩).insert 0x401 ⟨.frame 0, .readWrite,
    true⟩).insert 0x402
    ⟨.frame 0, .readWrite, true⟩

def aliased : PagedMemory := sharing disk ram 3 directory

def events : List (Event PagedMemory PagingOperation Answer) :=
  [⟨.beginProcess, .ok (.process 1), begun disk ram⟩,
    ⟨.addPage 0x400 .readWrite false, .ok .done, mappedAs disk ram .readWrite⟩,
    ⟨.sharePage 1 0x400 0x402 false, .ok .done, twice disk ram⟩,
    ⟨.sharePage 1 0x402 0x401 true, .ok .done, aliased disk ram⟩]

theorem run (hram : ram.base.toNat + ram.size ≤ 2 ^ 32) (hcount : 0 < Ram.pageCount ram) :
    Run PagingOperation.Step (start disk ram) (events disk ram) (aliased disk ram) :=
  .next rfl (.next (step_addPageAs disk ram rfl hram hcount) (.next rfl (.next rfl (.done _))))

theorem withinCounts : ∀ e ∈ events disk ram, WithinCounts e.state := by
  intro e he
  apply withinCounts_of_size
  simp only [events, List.mem_cons, List.not_mem_nil, or_false] at he
  rcases he with rfl | rfl | rfl | rfl
  · exact Nat.zero_le _
  · exact (by decide : 1 ≤ maxRefs)
  · exact (by decide : 2 ≤ maxRefs)
  · exact (by decide : 3 ≤ maxRefs)

def copied : PagedMemory :=
  (aliased disk ram).ownCopy 1 0x401 0 1 ((ram.patch 0 zeroPage).patch ((1 : Word).toNat * pageSize)
    ((ram.patch 0 zeroPage).slice ((0 : Word).toNat * pageSize) pageSize))

theorem translate_first :
    ∃ physical, Yields (translate 0x400FFE .write .kernel) (aliased disk ram) (.ok physical)
      (aliased disk ram) :=
  ⟨_, rfl⟩

variable {disk ram} (hram : ram.base.toNat + ram.size ≤ 2 ^ 32) (hcount : 1 < Ram.pageCount ram)

section
include hram hcount

theorem translate_last :
    ∃ physical, Yields (translate 0x401001 .write .kernel) (aliased disk ram) (.ok physical)
      (copied disk ram) := by
  have hextent : (ram.patch 0 zeroPage).size = ram.size := ByteStore.size_patch ..
  have hlt : ∀ frame : Word, frame.toNat ≤ 1 →
      frame.toNat < Ram.pageCount (ram.patch 0 zeroPage) := by
    intro frame hle
    rw [Ram.pageCount_patch]
    exact Nat.lt_of_le_of_lt hle hcount
  have hcopy : (Ram.copyFrame 0 1).run (ram.patch 0 zeroPage) = .ok () _ :=
    Ram.copyFrame_ok (by rwa [ByteStore.base_patch, hextent]) (hlt 0 (Nat.zero_le 1))
      (hlt 1 (Nat.le_refl 1))
  have htake : (takeFrame .user (some 0)).run (aliased disk ram) =
      .ok 1 ((aliased disk ram).handOut 1) := rfl
  have hshared : 1 < (aliased disk ram).refs (.frame 0) := (by decide : 1 < 3)
  have hcounted : (aliased disk ram).count? (.frame 0) = some 3 := rfl
  have hd : (aliased disk ram).processes.find? 1 = some directory := rfl
  have hprivate :=
    privatise_run_ownCopy 0x401 hshared htake hcopy hcounted (by decide) (by decide) rfl hd
  have hlookup : (lookup 0x401 0x401001 .write).run (aliased disk ram) =
      .ok ⟨.frame 0, .readWrite, true⟩ (aliased disk ram) := rfl
  exact ⟨_, (bind_ok ((bind_ok hlookup).trans hprivate)).trans (physical_run _ 1 _)⟩

end

theorem mapping_copied :
    (copied disk ram).mapping? 0x400 = some ⟨.frame 0, .readWrite, false⟩ := rfl

def store : Transfer := .write 0x400FFE .word 0xAABBCCDD

theorem byte?_aliased (disk : Disk) (hcount : 0 < Ram.pageCount ram) :
    (aliased disk ram).byte? 1 0x401FFE = some 0 := by
  have hzero : (ram.patch 0 zeroPage).byte 0xFFE = 0 := by
    have hfits : 0 + zeroPage.length ≤ ram.size := by
      unfold Ram.pageCount pageSize at hcount
      rw [zeroPage, List.length_replicate, pageSize]
      omega
    rw [ByteStore.byte_patch hfits, zeroPage, List.length_replicate, if_pos (by decide)]
    exact getD_zeroPage (by decide)
  exact congrArg some hzero

theorem stale : (aliased disk ram).Stale store 0 1 0x401FFE :=
  ⟨⟨rfl, _, _, rfl, rfl, rfl, Bool.false_ne_true, rfl⟩, rfl, rfl, rfl, rfl⟩

end

theorem pages : 1 < Ram.pageCount ram := by
  rw [Ram.pageCount, TwoReaders.size_ram]
  decide

def hostEvents : List (Event Bus HostOperation Answer) :=
  Bus.hosted ((bus (start disk ram)).pagingEvents (events disk ram))

theorem host_run :
    Run HostOperation.Step (bus (start disk ram)) hostEvents (bus (aliased disk ram)) :=
  Bus.run_hosted (Bus.run_pagingEvents (b := bus (start disk ram))
    (run disk ram TwoReaders.ram_fits.1 TwoReaders.ram_fits.2))

theorem host_withinCounts : ∀ e ∈ hostEvents, WithinCounts e.state.memory := by
  intro e he
  obtain ⟨e', he', rfl⟩ := List.mem_map.mp he
  obtain ⟨e'', he'', rfl⟩ := List.mem_map.mp he'
  exact withinCounts disk ram e'' he''

theorem store_served :
    ∃ old b, Yields (Bus.transfer store) (bus (aliased disk ram)) (.ok old) b := by
  obtain ⟨v, hr⟩ :=
    Bus.represents_of_run bus_ofDevices rfl host_run (by decide : 1 < 2 ^ 32 - 1) host_withinCounts
  obtain ⟨first, hone⟩ := translate_first disk ram
  obtain ⟨last, htwo⟩ := translate_last TwoReaders.ram_fits.1 pages
  have hfirst : Yields (Bus.translate 0x400FFE .write) (bus (aliased disk ram)) (.ok first)
      (bus (aliased disk ram)) :=
    translate_onBus hone
  have hlast : Yields (Bus.translate 0x401001 .write) (bus (aliased disk ram)) (.ok last)
      (bus (copied disk ram)) :=
    translate_onBus htwo
  obtain ⟨mp, hmp, hserved, -⟩ :=
    hr.crossing_exact (t := store) (regionOf_bus _) rfl rfl rfl hfirst hlast
  obtain rfl : ⟨.frame 0, .readWrite, false⟩ = mp := Option.some.inj (mapping_copied.symm.trans hmp)
  refine hserved ?_
  rintro ⟨⟨slot, hl⟩, -⟩
  cases hl

/-- It is not so that a store leaves what its bytes leave, stored one after the other. -/
theorem copy_outdated : ¬ ∀ (ram : Ram) (rom : Rom) (disk : Disk) (window : Word × Word)
    (ranges : PageRanges) (b b' b'' : Bus) (es : List (Event Bus HostOperation Answer))
    (t : Transfer) (old : Word), Bus.ofDevices ram rom disk window ranges = .ok b → disk.base = 0 →
    Run HostOperation.Step b es b' → creations es < 2 ^ 32 - 1 →
    (∀ e ∈ es, WithinCounts e.state.memory) → Yields (Bus.transfer t) b' (.ok old) b'' →
    ∃ c, Yields (Bus.transferBytes t 0 t.width.bytes) b' (.ok old.toNat) c ∧
      ∀ pid a, c.memory.byte? pid a = b''.memory.byte? pid a := by
  intro hbytewise
  obtain ⟨old, b, hserved⟩ := store_served
  obtain ⟨c, hbytes, hsame⟩ := hbytewise ram rom disk window ranges _ _ _ _ store old
    bus_ofDevices rfl host_run (by decide : 1 < 2 ^ 32 - 1) host_withinCounts hserved
  have hsound :=
    Bus.sound_of_run bus_ofDevices rfl host_run (by decide : 1 < 2 ^ 32 - 1) host_withinCounts
  obtain ⟨⟨c', hinBytes⟩, -⟩ := hsound.inBytes (Bus.laid_of_run bus_ofDevices host_run).2 hserved
  obtain ⟨-, rfl⟩ := hbytes.unique hinBytes.served
  have hmapped : (bus (aliased disk ram)).Serves .mapped 0x400FFE := ⟨_, regionOf_bus _, rfl⟩
  obtain ⟨hnew, hold⟩ :=
    (hinBytes.pages hmapped).stale 0 (by decide) 1 0x401FFE 0xAABBCCDD stale rfl
  have hzero := hold.trans (byte?_aliased disk TwoReaders.ram_fits.2)
  have hdiffers : some (Word.byte 0xAABBCCDD 0) = some 0 :=
    hnew.symm.trans ((hsame 1 0x401FFE).trans hzero)
  exact absurd hdiffers (by decide)

theorem store_inBytes : ∃ old b c, Yields (Bus.transfer store) (bus (aliased disk ram))
    (.ok old) b ∧ Bus.SameInBytes (bus (aliased disk ram)) store old b c := by
  obtain ⟨old, b, hserved⟩ := store_served
  obtain ⟨⟨c, hinBytes⟩, -⟩ :=
    Bus.accesses_inBytes bus_ofDevices rfl host_run (by decide : 1 < 2 ^ 32 - 1)
    host_withinCounts hserved
  exact ⟨old, b, c, hserved, hinBytes⟩

end Aliases

end PagedMachine

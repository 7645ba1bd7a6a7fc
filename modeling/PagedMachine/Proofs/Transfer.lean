import PagedMachine.Proofs.Exchange

/-!
# Transfers in the window

A transfer in one page is one exchange. One that crosses a page resolves both
pages first, and the second page may push the first one out again. Then the
first byte may still be refused; but if that byte finds its page, a slot is free
or both pages are in frames, and so it stays until the last byte.
-/

namespace PagedMachine

namespace PagedMemory

open Virtual (Granted firstPage lastPage)

variable {m m' : PagedMemory} {v v' : Virtual.Memory} {physical : Word} {t : Transfer}
    {privilege : Privilege}

def exchange (physical : Word) (width : Width) (store : Option Word) : Paged Word := do
  let old ← outcome ((← get).ram.read physical width)
  match store with
  | some value => onRam (ByteStore.write physical width value)
  | none => pure ()
  return old

def exchangeBytes (t : Transfer) (privilege : Privilege) (offset : Nat) : (count : Nat) → Paged Nat
  | 0 => return 0
  | count + 1 => do
    let physical ← translate (t.address + UInt32.ofNat offset) t.access privilege
    let store := t.store.map fun value => UInt32.ofNat (value.field (8 * offset) 8)
    let old ← exchange physical .byte store
    return old.toNat + 256 * (← exchangeBytes t privilege (offset + 1) count)

def transferMapped (t : Transfer) (privilege : Privilege) : Paged Word := do
  if crossesPage t.address t.width then
    let _ ← translate t.address t.access privilege
    let _ ← translate (t.address + UInt32.ofNat (t.width.bytes - 1)) t.access privilege
    return UInt32.ofNat (← exchangeBytes t privilege 0 t.width.bytes)
  else
    exchange (← translate t.address t.access privilege) t.width t.store

/-! ## In one page -/

/-- An exchange in a frame changes RAM only, and is what virtual memory does. -/
theorem Consistent.exchange (h : Consistent m) (hv : Represents m v) (hat : At m t.address physical)
    (hfit : t.address.pageOffset + t.width.bytes ≤ pageSize) : ∃ m',
      (exchange physical t.width t.store).run m =
        .ok (UInt32.ofNat (v.exchangeBytes t 0 t.width.bytes).1) m' ∧
      Follows m m' (v.exchangeBytes t 0 t.width.bytes).2 ∧ m'.toPaging = m.toPaging := by
  obtain ⟨frame, ⟨mp, hm, hl⟩, rfl⟩ := hat
  obtain ⟨name, hv⟩ := hv
  obtain ⟨pid, d, hc, hd, hmp⟩ := mapping?_some.mp hm
  have hf : m.mappingsOf (.frame frame) ≠ 0 := hl ▸ mappingsOf_ne_zero hd hmp
  have hlt := h.layout.frame_lt (h.books.owned _ hf)
  have hfits := Ram.lt_of_pageCount hlt
  have hoffset : t.address.pageOffset < pageSize := Nat.mod_lt _ (by decide)
  have haddress := Ram.toNat_frameAddress_add h.layout.ram hlt hoffset
  -- the access stays in its page, so it stays in the frame
  have hend : frame.toNat * pageSize + t.address.pageOffset + t.width.bytes ≤ m.ram.size := by omega
  have hread := ByteStore.read_ok haddress hend
  obtain ⟨hold, hrep⟩ := exchange_frame (t := t) t.width.bytes 0 h hv hm hl (by omega)
  rw [Nat.add_zero] at hold hrep
  refine ⟨_, ?_,
    ⟨h.with_ram (base_stored ..) (size_stored ..),
      sameExtent_with_ram (base_stored ..) (size_stored ..), name, hrep⟩, rfl⟩
  rw [hold, PagedMemory.exchange, get_bind, bind_ok (outcome_ok hread m)]
  cases hstore : t.store with
  | none =>
    simp only [stored, hstore]
    rfl
  | some value =>
    have hwrite := ByteStore.write_ok haddress hend value
    simp only [stored, hstore, Nat.pow_zero, Nat.div_one]
    rw [bind_ok (onRam_ok hwrite)]
    rfl

def part (t : Transfer) (offset : Nat) : Transfer :=
  ⟨t.address + UInt32.ofNat offset, .byte, t.access, t.store.map fun value =>
    UInt32.ofNat (value.field (8 * offset) 8)⟩

theorem field_part (value : Word) (offset : Nat) :
    Word.field (UInt32.ofNat (value.field (8 * offset) 8))
    (8 * 0) 8 = value.field (8 * offset) 8 := by
  unfold Word.field
  rw [UInt32.toNat_ofNat']
  omega

theorem exchangeBytes_part {offset : Nat} {mv : Virtual.Mapping}
    (hmv : v.find? (t.address + UInt32.ofNat offset).page = some mv) :
    v.exchangeBytes (part t offset) 0 1 = v.exchangeBytes t offset 1 := by
  have haddress : (part t offset).address + UInt32.ofNat 0 = t.address + UInt32.ofNat offset :=
    UInt32.add_zero _
  rw [Virtual.Memory.exchangeBytes_one hmv, Virtual.Memory.exchangeBytes_one (haddress ▸ hmv),
    haddress]
  refine congrArg _ ?_
  unfold Virtual.Memory.storePart
  rw [haddress, part]
  cases t.store with
  | none => rfl
  | some value =>
    simp only [Option.map_some, field_part]

/-- One byte of a transfer, in its frame. -/
theorem Consistent.exchange_part {offset : Nat} {mv : Virtual.Mapping} (h : Consistent m)
    (hv : Represents m v) (hat : At m (t.address + UInt32.ofNat offset) physical)
    (hmv : v.find? (t.address + UInt32.ofNat offset).page = some mv) : ∃ old m',
      (PagedMemory.exchange physical .byte (part t offset).store).run m = .ok old m' ∧
        old.toNat = (v.exchangeBytes t offset 1).1 ∧ Follows m m' (v.exchangeBytes t offset 1).2 ∧
        m'.toPaging = m.toPaging := by
  have hbyte : (part t offset).address.pageOffset + (part t offset).width.bytes ≤ pageSize :=
    Nat.succ_le_of_lt (Nat.mod_lt _ (by decide))
  obtain ⟨m', hrun, hfollows, hpaging⟩ := h.exchange hv (t := part t offset) hat hbyte
  have hone :
      v.exchangeBytes (part t offset) 0 (part t offset).width.bytes = v.exchangeBytes t offset 1 :=
    exchangeBytes_part hmv
  rw [hone] at hrun hfollows
  refine ⟨_, m', hrun, ?_, hfollows, hpaging⟩
  rw [Virtual.Memory.exchangeBytes_one hmv, UInt32.toNat_ofNat']
  have := (v.contents mv.page (Virtual.offset (t.address + UInt32.ofNat offset))).toNat_lt
  dsimp only
  omega

/-! ## Pages that are granted -/

variable {address page : Word} {access : Access}

/-- The mapping through which a page is granted. -/
theorem Represents.mapping_of_grants (hv : Represents m v) (hg : v.Grants page access privilege) :
    ∃ mp, m.mapping? page = some mp ∧ mp.permissions.allow access privilege ∧
      ¬ (access = .write ∧ mp.copyOnWrite) := by
  obtain ⟨mv, hmv, hallow, hstore⟩ := hg
  obtain ⟨name, hname⟩ := hv
  have hfind := hname.find? page
  rw [hmv] at hfind
  obtain ⟨mp, hm, rfl⟩ := Option.map_eq_some_iff.mp hfind.symm
  exact ⟨mp, hm, hallow, hstore⟩

/-- A page that needs no copy is found in its frame or brought in, unless it is stranded; after that
a slot is free. -/
theorem Consistent.translate_exact (h : Consistent m) (hv : Represents m v) {mp : Mapping}
    (hm : m.mapping? address.page = some mp) (hallow : mp.permissions.allow access privilege)
    (hstore : ¬ (access = .write ∧ mp.copyOnWrite)) :
    (¬ m.Stranded mp ∧ ∃ physical m',
      (PagedMemory.translate address access privilege).run m = .ok physical m' ∧
        At m' address physical ∧ Follows m m' v ∧ (m' = m ∨ m'.HasFree .disk)) ∨
      ((PagedMemory.translate address access privilege).run m =
        .error (.resourceExhausted .disk) m ∧ m.Stranded mp) := by
  have hmaterialise : PagedMemory.materialise address.page mp access = PagedMemory.bringIn mp := by
    rw [materialise_eq]
    simp only [if_neg hstore]
    exact bind_pure _
  rw [PagedMemory.translate, PagedMemory.resolve, bind_assoc,
    bind_ok (lookup_run hm address access), if_pos hallow, hmaterialise]
  rcases h.bringIn hv hm with ⟨hnot, frame, m', hrun, hfollows, hm', -, hstay⟩ | ⟨hrun, hstranded⟩
  · exact .inl ⟨hnot, _, m', (bind_ok hrun).trans rfl, ⟨frame, ⟨_, hm', rfl⟩, rfl⟩, hfollows,
      hstay.imp And.left And.right⟩
  · exact .inr ⟨bind_error hrun, hstranded⟩

theorem Stranded.exhausted {mp : Mapping} (hs : m.Stranded mp) : m.Exhausted .disk :=
  exhausted_disk hs.2.2

theorem Stranded.not_holds {mp : Mapping} (hs : m.Stranded mp) (hm : m.mapping? page = some mp)
    (frame : Word) : ¬ Holds m page frame := by
  rintro ⟨mp', hm', hl'⟩
  obtain rfl : mp = mp' := Option.some.inj (hm.symm.trans hm')
  obtain ⟨⟨slot, hl⟩, -⟩ := hs
  rw [hl] at hl'
  cases hl'

/-- A granted page is found in its frame or brought in; after that a slot is free. -/
theorem Consistent.translate_granted (h : Consistent m) (hv : Represents m v)
    (hg : v.Grants address.page access privilege) :
    (∃ physical m', (PagedMemory.translate address access privilege).run m = .ok physical m' ∧
        At m' address physical ∧ Follows m m' v ∧ (m' = m ∨ m'.HasFree .disk)) ∨
      ∃ e, (PagedMemory.translate address access privilege).run m =
        .error (.resourceExhausted e) m ∧ m.Exhausted e ∧ ¬ m.HasFree .disk ∧ ∀ frame,
        ¬ Holds m address.page frame := by
  obtain ⟨mp, hm, hallow, hstore⟩ := hv.mapping_of_grants hg
  rcases h.translate_exact hv hm hallow hstore with ⟨-, hserved⟩ | ⟨hrun, hstranded⟩
  · exact .inl hserved
  · exact .inr ⟨.disk, hrun, hstranded.exhausted, hstranded.2.2, hstranded.not_holds hm⟩

/-! ## Across two pages -/

def Steady (m : PagedMemory) (t : Transfer) : Prop :=
  m.HasFree .disk ∨ (∃ frame, Holds m (firstPage t) frame) ∧ ∃ frame, Holds m (lastPage t) frame

theorem Steady.of_toPaging (hs : Steady m t) (he : m'.toPaging = m.toPaging) : Steady m' t := by
  simpa only [Steady, HasFree, Holds, he] using hs

theorem Consistent.translate_steady (h : Consistent m) (hv : Represents m v)
    (hg : Granted v t privilege) (hs : Steady m t) (offset : Nat) (ho : offset < t.width.bytes) :
    ∃ physical m',
    (PagedMemory.translate (t.address + UInt32.ofNat offset) t.access privilege).run m =
    .ok physical m' ∧ At m' (t.address + UInt32.ofNat offset) physical ∧ Follows m m' v ∧
    Steady m' t := by
  rcases h.translate_granted hv (hg.grants ho) with ⟨physical, m', hrun, hat, hfollows, hstay⟩
    | ⟨e, -, -, hdisk, hnone⟩
  · refine ⟨physical, m', hrun, hat, hfollows, ?_⟩
    rcases hstay with rfl | hfree
    · exact hs
    · exact .inl hfree
  · rcases hs with hfree | ⟨⟨f, hf⟩, g, hg⟩
    · exact absurd hfree hdisk
    · rcases Virtual.page_of_lt ho with hp | hp
      · exact absurd (hp ▸ hf) (hnone f)
      · exact absurd (hp ▸ hg) (hnone g)

/-- From a steady state on the bytes from `offset` up are exchanged without a fault. -/
def Serves (t : Transfer) (privilege : Privilege) (offset count : Nat) : Prop :=
  ∀ m v, Consistent m → Represents m v → Granted v t privilege → Steady m t → ∃ m',
    (exchangeBytes t privilege offset count).run m = .ok (v.exchangeBytes t offset count).1 m' ∧
      Follows m m' (v.exchangeBytes t offset count).2

/-- One byte that has its page, and then the rest. -/
theorem Serves.step {offset count : Nat} (hrest : Serves t privilege (offset + 1) count)
    (hg : Granted v t privilege) (ho : offset < t.width.bytes)
    (htranslate : (PagedMemory.translate (t.address + UInt32.ofNat offset) t.access privilege).run
      m = .ok physical m') (hat : At m' (t.address + UInt32.ofNat offset) physical)
      (hfollows : Follows m m' v) (hs : Steady m' t) :
    ∃ m'', (exchangeBytes t privilege offset (count + 1)).run m =
      .ok (v.exchangeBytes t offset (count + 1)).1 m'' ∧
      Follows m m'' (v.exchangeBytes t offset (count + 1)).2 := by
  obtain ⟨mv, hmv, -⟩ := hg.grants ho
  obtain ⟨old, m₁, hrun₁, hold, hfollows₁, hpaging⟩ :=
    hfollows.consistent.exchange_part hfollows.represents hat hmv
  obtain ⟨m₂, hrun₂, hfollows₂⟩ :=
    hrest m₁ _ hfollows₁.consistent hfollows₁.represents (hg.exchangeBytes offset 1)
    (hs.of_toPaging hpaging)
  rw [Virtual.Memory.exchangeBytes_succ hmv]
  refine ⟨m₂, ?_, (hfollows.trans hfollows₁).trans hfollows₂⟩
  rw [PagedMemory.exchangeBytes, bind_ok htranslate, bind_ok (by exact hrun₁), bind_ok hrun₂, hold]
  rfl

theorem serves (count : Nat) : ∀ offset, offset + count ≤ t.width.bytes →
    Serves t privilege offset count := by
  induction count with
  | zero => exact fun _ _ m v h hv _ _ => ⟨m, rfl, .refl h hv⟩
  | succ count ih =>
    intro offset ho m v h hv hg hs
    obtain ⟨physical, m', hrun, hat, hfollows, hs'⟩ := h.translate_steady hv hg hs offset (by omega)
    exact (ih (offset + 1) (by omega)).step hg (by omega) hrun hat hfollows hs'

/-! ## Any transfer -/

/-- Both pages are resolved, and from there the first byte decides: it is refused if its page is
stranded. -/
theorem Consistent.exchangeBytes_exact (h : Consistent m) (hv : Represents m v)
    (hg : Granted v t privilege) (hlast : ∃ frame, Holds m (lastPage t) frame) {mp : Mapping}
    (hm : m.mapping? (firstPage t) = some mp) :
    (¬ m.Stranded mp ∧ ∃ m', (PagedMemory.exchangeBytes t privilege 0 t.width.bytes).run m =
        .ok (v.exchangeBytes t 0 t.width.bytes).1 m' ∧
        Follows m m' (v.exchangeBytes t 0 t.width.bytes).2) ∨
      ((PagedMemory.exchangeBytes t privilege 0 t.width.bytes).run m =
        .error (.resourceExhausted .disk) m ∧ m.Stranded mp) := by
  obtain ⟨count, hcount⟩ : ∃ count, t.width.bytes = count + 1 := by cases t.width <;> exact ⟨_, rfl⟩
  have hzero : t.address + UInt32.ofNat 0 = t.address := UInt32.add_zero _
  have hm₀ : m.mapping? (t.address + UInt32.ofNat 0).page = some mp := hzero.symm ▸ hm
  obtain ⟨mp', hm', hallow, hstore⟩ := hv.mapping_of_grants hg.1
  obtain rfl : mp = mp' := Option.some.inj (hm.symm.trans hm')
  rw [hcount]
  rcases h.translate_exact hv hm₀ hallow hstore with
    ⟨hnot, physical, m', hrun, hat, hfollows, hstay⟩ | ⟨hrun, hstranded⟩
  · have hs : Steady m' t := by
      rcases hstay with rfl | hfree
      · obtain ⟨frame, hf, -⟩ := hat
        rw [hzero] at hf
        exact .inr ⟨⟨frame, hf⟩, hlast⟩
      · exact .inl hfree
    exact .inl ⟨hnot, (serves count 1 (by omega)).step hg (by omega) hrun hat hfollows hs⟩
  · exact .inr ⟨bind_error hrun, hstranded⟩

theorem Consistent.exchangeBytes (h : Consistent m) (hv : Represents m v)
    (hg : Granted v t privilege) (hlast : ∃ frame, Holds m (lastPage t) frame) :
    (∃ m', (PagedMemory.exchangeBytes t privilege 0 t.width.bytes).run m =
        .ok (v.exchangeBytes t 0 t.width.bytes).1 m' ∧
        Follows m m' (v.exchangeBytes t 0 t.width.bytes).2) ∨
      ∃ e, (PagedMemory.exchangeBytes t privilege 0 t.width.bytes).run m =
        .error (.resourceExhausted e) m ∧ m.Exhausted e := by
  obtain ⟨mp, hm, -⟩ := hv.mapping_of_grants hg.1
  rcases h.exchangeBytes_exact hv hg hlast hm with ⟨-, hserved⟩ | ⟨hrun, hstranded⟩
  · exact .inl hserved
  · exact .inr ⟨.disk, hrun, hstranded.exhausted⟩

theorem Consistent.transferMapped (h : Consistent m) (hv : Represents m v) (t : Transfer)
    (privilege : Privilege) : Agrees (PagedMemory.transferMapped t privilege)
    (Virtual.transferMapped t privilege) m v fun a c _ _ => a = c := by
  by_cases hcross : crossesPage t.address t.width = true
  · rw [PagedMemory.transferMapped, Virtual.transferMapped, if_pos hcross, if_pos hcross]
    refine (h.translate hv t.address t.access privilege).bind ?_
    rintro _ _ m₁ v₁ h₁ ⟨-, hg₁⟩
    rcases h₁.consistent.translate h₁.represents
      (t.address + UInt32.ofNat (t.width.bytes - 1)) t.access privilege with
      ⟨_, c, m₂, v₂, hrun, hb, h₂, ⟨frame, hlast, -⟩, hg₂⟩ | ⟨e, m₂, v₂, hrun, hb, h₂, he⟩
    · have hg : Granted v₂ t privilege := ⟨hg₁.privatised (Virtual.resolve_privatised hb).1, hg₂⟩
      rcases h₂.consistent.exchangeBytes h₂.represents hg ⟨frame, hlast⟩ with
        ⟨m₃, hrun₃, h₃⟩ | ⟨e, hrun₃, hnone⟩
      · refine .inl ⟨_, _, m₃, _, (bind_ok hrun).trans (map_ok hrun₃), ?_, h₂.trans h₃, rfl⟩
        refine Behaviour.bind_ok hb (Behaviour.allows_claim_bind.mpr (.inl ?_))
        exact Behaviour.allows_modifyGet_bind.mpr ⟨rfl, rfl⟩
      · refine .inr ⟨_, m₂, v₂, (bind_ok hrun).trans (map_error hrun₃), ?_, h₂, .exhausted hnone⟩
        exact Behaviour.bind_ok hb (Behaviour.allows_claim_bind.mpr (.inr ⟨e, rfl, rfl⟩))
    · exact .inr ⟨e, m₂, v₂, bind_error hrun, Behaviour.bind_error hb, h₂, he⟩
  · rw [PagedMemory.transferMapped, Virtual.transferMapped, if_neg hcross, if_neg hcross]
    refine (h.translate hv t.address t.access privilege).bind ?_
    rintro physical _ m₁ v₁ h₁ ⟨hat, -⟩
    have hfit : t.address.pageOffset + t.width.bytes ≤ pageSize := by
      simpa [crossesPage] using hcross
    obtain ⟨m₂, hrun, h₂, -⟩ := h₁.consistent.exchange h₁.represents hat hfit
    exact .of_forced hrun (Behaviour.allows_modifyGet_bind.mpr ⟨rfl, rfl⟩) h₂ rfl

/-! ## One byte from the host -/

def loadByteMapped (address : Word) (byte : UInt8) : Paged Unit := do
  onRam (ByteStore.writeBytes (← translateHostWrite address) [byte])

theorem Consistent.loadByteMapped (h : Consistent m) (hv : Represents m v) (address : Word)
    (byte : UInt8) : Agrees (PagedMemory.loadByteMapped address byte)
    (Virtual.loadByteMapped address byte) m v fun _ _ _ _ => True := by
  refine (h.translateHostWrite hv address).bind ?_
  rintro physical _ m₁ v₁ h₁ ⟨frame, ⟨mp, hm, hl⟩, rfl⟩
  obtain ⟨name, hname⟩ := h₁.represents
  obtain ⟨pid, d, hc, hd, hmp⟩ := mapping?_some.mp hm
  have hf : m₁.mappingsOf (.frame frame) ≠ 0 := hl ▸ mappingsOf_ne_zero hd hmp
  have hlt := h₁.consistent.layout.frame_lt (h₁.consistent.books.owned _ hf)
  have hfits := Ram.lt_of_pageCount hlt
  have hoffset : address.pageOffset < pageSize := Nat.mod_lt _ (by decide)
  have haddress := Ram.toNat_frameAddress_add h₁.consistent.layout.ram hlt hoffset
  have hspan : frame.toNat * pageSize + address.pageOffset + [byte].length ≤ m₁.ram.size := by
    rw [List.length_singleton]
    omega
  have hwrite := ByteStore.writeBytes_ok haddress hspan
  have hstored : v₁.storeAt address byte =
      v₁.storeByte (name (.frame frame)) (Virtual.offset address) byte := by
    rw [Virtual.Memory.storeAt, hname.find?, hm, Option.map_some, Mapping.rename, hl]
  refine .of_forced (onRam_ok hwrite) ⟨rfl, rfl⟩ ⟨?_, ?_, name, ?_⟩ trivial
  · exact h₁.consistent.with_ram (ByteStore.base_patch ..) (ByteStore.size_patch ..)
  · exact sameExtent_with_ram (ByteStore.base_patch ..) (ByteStore.size_patch ..)
  · change RepresentedBy name _ (v₁.storeAt address byte)
    rw [hstored]
    exact hname.storeByte h₁.consistent hf (Virtual.offset address) byte

end PagedMemory

end PagedMachine

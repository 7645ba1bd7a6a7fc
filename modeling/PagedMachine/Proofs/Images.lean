import PagedMachine.Proofs.FoundBytes
import PagedMachine.Proofs.HostPrivacy
import PagedMachine.Proofs.Repairs

/-!
# Images

The host stores an image byte by byte. In ROM, in RAM, and in pages that belong to the
current process alone or will as soon as they are stored to, the bytes of the image are
what is found there afterwards, and no other byte changes. Words are loaded as their
bytes and fetched as they were.
-/

namespace PagedMachine

/-! ## An image over other bytes -/

/-- What is found at `a` when an image lies from `base` up over what was found there. -/
def overlaid (base : Word) (image : List UInt8) (a : Word) (old : Option UInt8) : Option UInt8 :=
  (image[(a - base).toNat]?).or old

section
variable {base a : Word} {image : List UInt8} {byte : UInt8} {old : Option UInt8}

@[simp] theorem overlaid_nil (base a : Word) (old : Option UInt8) :
    overlaid base [] a old = old := rfl

theorem overlaid_cons (h : base.toNat + (image.length + 1) ≤ 2 ^ 32) :
    overlaid base (byte :: image) a old =
    overlaid (base + 1) image a (if a = base then some byte else old) := by
  have hbase := base.toNat_lt
  have ha := a.toNat_lt
  by_cases he : a = base
  · subst he
    -- the first address is the last one seen from the next
    have hlast : (a - (a + 1)).toNat = 2 ^ 32 - 1 := by
      rw [UInt32.toNat_sub, UInt32.toNat_add]
      change (2 ^ 32 - (a.toNat + 1) % 2 ^ 32 + a.toNat) % 2 ^ 32 = _
      omega
    have hfirst : overlaid a (byte :: image) a old = some byte := by
      rw [overlaid, UInt32.sub_self]
      rfl
    rw [hfirst, overlaid, if_pos rfl, hlast, List.getElem?_eq_none (by omega), Option.none_or]
  · have hne : a.toNat ≠ base.toNat := fun h => he (UInt32.toNat_inj.mp h)
    have hnext : (a - base).toNat = (a - (base + 1)).toNat + 1 := by
      rw [UInt32.toNat_sub, UInt32.toNat_sub, UInt32.toNat_add]
      change _ = (2 ^ 32 - (base.toNat + 1) % 2 ^ 32 + a.toNat) % 2 ^ 32 + 1
      omega
    rw [overlaid, overlaid, if_neg he, hnext, List.getElem?_cons_succ]

theorem overlaid_inside (h : base.toNat + image.length ≤ 2 ^ 32) {i : Nat} (hi : i < image.length) :
    overlaid base image (base + UInt32.ofNat i) old = some image[i] := by
  have hdistance : (base + UInt32.ofNat i - base).toNat = i :=
    (Virtual.eq_add_ofNat_iff (by omega)).mp rfl
  rw [overlaid, hdistance, List.getElem?_eq_getElem hi, Option.some_or]

theorem ByteStore.byte_patch_overlaid {s : ByteStore} {start i : Nat}
    (hfit : start + image.length ≤ s.size) (hbase : base.toNat = s.base.toNat + start)
    (hend : base.toNat + image.length ≤ 2 ^ 32) (ha : a.toNat = s.base.toNat + i) :
    some ((s.patch start image).byte i) = overlaid base image a (some (s.byte i)) := by
  have hlt := a.toNat_lt
  rw [byte_patch hfit, overlaid]
  by_cases hin : start ≤ i ∧ i < start + image.length
  · have hdistance : (a - base).toNat = i - start := by
      rw [UInt32.toNat_sub_of_le _ _ (UInt32.le_iff_toNat_le.mpr (by omega))]
      omega
    have hi : i - start < image.length := by omega
    rw [if_pos hin, hdistance, List.getElem?_eq_getElem hi, Option.some_or, List.getD,
      List.getElem?_eq_getElem hi, Option.getD_some]
  · have hdistance : image.length ≤ (a - base).toNat := by
      rw [UInt32.toNat_sub]
      omega
    rw [if_neg hin, List.getElem?_eq_none hdistance, Option.none_or]

end

/-! ## Pages of one's own -/

namespace Virtual

variable {v v' : Memory} {pid q page base a : Word} {m : Mapping} {byte : UInt8} {count : Nat}

namespace Memory

def Owns (v : Memory) (base : Word) (count : Nat) : Prop :=
  ∀ i < count, ∀ pid m, v.current = some pid →
    v.mapping? pid (base + UInt32.ofNat i).page = some m →
    m.copyOnWrite ∨ v.Alone pid (base + UInt32.ofNat i).page m

section
variable (hc : v.current = some pid) (hm : v.mapping? pid page = some m) (hf : v.Fresh)
  (hown : m.copyOnWrite ∨ v.Alone pid page m)
include hc hm hf

omit hf in
theorem mapping?_resolved_write (q page' : Word) : (v.resolved page m .write).mapping? q page' =
    if m.copyOnWrite ∧ q = pid ∧
    page' = page then some { m with page := v.privatePage m, copyOnWrite := false }
    else v.mapping? q page' := by
  rw [mapping?_of_resolved (find?_some.mpr ⟨pid, hc, hm⟩), hc]
  simp only [true_and, Option.some.injEq, eq_comm]

include hown

/-- A page that is resolved for a store is named by one mapping only. -/
theorem alone_resolved : ∃ m₁, (v.resolved page m .write).mapping? pid page = some m₁ ∧
    (v.resolved page m .write).Alone pid page m₁ := by
  have hmappings := mapping?_resolved_write hc hm
  by_cases hcow : m.copyOnWrite = true
  · refine ⟨_, (hmappings pid page).trans (if_pos ⟨hcow, rfl, rfl⟩), fun q page' m' hm' he => ?_⟩
    by_contra hne
    rw [hmappings, if_neg fun h => hne h.2] at hm'
    exact privatePage_ne hm hf hm' hne he
  · refine ⟨m, ((hmappings pid page).trans (if_neg fun h => hcow h.1)).trans hm,
      fun q page' m' hm' he => ?_⟩
    rw [hmappings, if_neg fun h => hcow h.1] at hm'
    exact hown.resolve_left hcow q page' m' hm' he

theorem owned_resolved {page' : Word} {m' : Mapping}
    (hm' : (v.resolved page m .write).mapping? pid page' = some m')
    (hown' : ∀ x, v.mapping? pid page' = some x → x.copyOnWrite ∨ v.Alone pid page' x) :
    m'.copyOnWrite ∨ (v.resolved page m .write).Alone pid page' m' := by
  have hmappings := mapping?_resolved_write hc hm
  by_cases hpage : page' = page
  · subst hpage
    obtain ⟨m₁, hm₁, halone⟩ := alone_resolved hc hm hf hown
    obtain rfl := Option.some.inj (hm₁.symm.trans hm')
    exact .inr halone
  · rw [hmappings, if_neg fun h => hpage h.2.2] at hm'
    refine (hown' m' hm').imp_right fun halone q page₂ m₂ hm₂ he => ?_
    by_cases hresolved : m.copyOnWrite = true ∧ q = pid ∧ page₂ = page
    · rw [hmappings, if_pos hresolved] at hm₂
      obtain rfl := Option.some.inj hm₂
      exact absurd he.symm (privatePage_ne hm hf hm' fun h => hpage h.2)
    · rw [hmappings, if_neg hresolved] at hm₂
      exact halone q page₂ m₂ hm₂ he

end

/-- One byte of the host: it is found at its address, by the current process, and all others are as
they were. -/
theorem load_owned (hc : v.current = some pid) (hm : v.find? base.page = some m) (hf : v.Fresh)
    (hown : v.Owns base (count + 1)) (byte : UInt8) :
    let v₁ := (v.resolved base.page m .write).storeAt base byte
    v₁.current = some pid ∧ v₁.Fresh ∧ v₁.Owns (base + 1) count ∧
      ∀ q a, v₁.byte? q a = if q = pid ∧ a = base then some byte else v.byte? q a := by
  intro v₁
  have hm' : v.mapping? pid base.page = some m := (find?_eq hc _).symm.trans hm
  have hfirst := hown 0 (Nat.succ_pos _) pid m hc
  rw [Word.add_ofNat_zero] at hfirst
  replace hfirst := hfirst hm'
  have hunseen := (privatised_resolved hm .write).unseen hf
  have hcurrent := hunseen.current.trans hc
  obtain ⟨m₁, hm₁, halone⟩ := alone_resolved hc hm' hf hfirst
  have hstored : v₁ = (v.resolved base.page m .write).storeByte m₁.page (offset base) byte := by
    have hfind := (find?_eq hcurrent base.page).trans hm₁
    simp only [v₁, storeAt, hfind]
  rw [hstored]
  refine ⟨hcurrent, hunseen.fresh, fun i hi q x hq hx => ?_, fun q a => ?_⟩
  · obtain rfl : pid = q := Option.some.inj (hcurrent.symm.trans hq)
    rw [Word.add_succ] at hx ⊢
    exact owned_resolved hc hm' hf hfirst hx fun y hy =>
      hown (i + 1) (Nat.succ_lt_succ hi) pid y hc hy
  · rw [byte?_storeByte_of_alone hm₁ halone, hunseen.bytes]

end Memory

/-- An image that is loaded over pages of its own lies there for the current process, and for nobody
else. -/
theorem Loads.overlaid {image : List UInt8} (h : Loads v base image v') (hf : v.Fresh)
    (hown : v.Owns base image.length) (hend : base.toNat + image.length ≤ 2 ^ 32) :
    v'.current = v.current ∧ ∀ q a, v'.byte? q a =
      if v.current = some q then overlaid base image a (v.byte? q a) else v.byte? q a := by
  induction h with
  | nil v base =>
    refine ⟨rfl, fun q a => ?_⟩
    rw [overlaid_nil, ite_self]
  | @cons v v' base m byte rest hm _ ih =>
    obtain ⟨pid, hc, -⟩ := Memory.find?_some.mp hm
    obtain ⟨hcurrent, hfresh, howned, hbytes⟩ := Memory.load_owned hc hm hf hown byte
    obtain ⟨hcurrent', hoverlaid⟩ := ih hfresh howned (Word.succ_toNat_add_le hend)
    refine ⟨hcurrent'.trans (hcurrent.trans hc.symm), fun q a => ?_⟩
    rw [hoverlaid, hcurrent, hc, hbytes, overlaid_cons hend]
    by_cases hq : q = pid
    · subst hq
      rw [if_pos rfl, if_pos rfl]
      simp only [true_and]
    · have hne : ¬ some pid = some q := fun h => hq (Option.some.inj h).symm
      rw [if_neg hne, if_neg hne, if_neg fun h => hq h.1]

end Virtual

/-! ## What an image leaves -/

namespace Bus

variable {b b' c : Bus} {kind : RegionKind} {base address a : Word} {image : List UInt8}
    {byte : UInt8} {r : Except Fault Unit} {start offset : Nat}

/-- The addresses from `base` up run to the last address at most, and a region of this kind serves
them all. -/
def Spans (b : Bus) (kind : RegionKind) (base : Word) (count : Nat) : Prop :=
  base.toNat + count ≤ 2 ^ 32 ∧ ∀ i < count, b.Serves kind (base + UInt32.ofNat i)

theorem Spans.first {count : Nat} (h : b.Spans kind base (count + 1)) : b.Serves kind base := by
  have hserves := h.2 0 (Nat.succ_pos _)
  rwa [Word.add_ofNat_zero] at hserves

theorem Spans.next {count : Nat} (h : b.Spans kind base (count + 1)) :
    b.Spans kind (base + 1) count := by
  refine ⟨Word.succ_toNat_add_le h.1, fun i hi => ?_⟩
  rw [Word.add_succ]
  exact h.2 (i + 1) (Nat.succ_lt_succ hi)

/-- The pages of these addresses are flagged, or have been counted once only. -/
def OwnsPages (b : Bus) (base : Word) (count : Nat) : Prop :=
  ∀ i < count, ∀ mp, b.memory.mapping? (base + UInt32.ofNat i).page = some mp →
    mp.copyOnWrite ∨ b.memory.refs mp.location = 1

/-- The image lies in the region, over what was there, and nothing else has changed but where the
pages are. -/
structure Laden (kind : RegionKind) (base : Word) (image : List UInt8) (b b' : Bus) : Prop where
  region : ∀ a, b.Serves kind a → b'.byteAt? a = overlaid base image a (b.byteAt? a)
  memory : kind = .rom → b'.memory = b.memory
  paging : kind = .ram → b'.memory.toPaging = b.memory.toPaging
  rom : kind ≠ .rom → b'.rom = b.rom
  processes : kind = .mapped → b'.memory.current = b.memory.current ∧ ∀ q a, b'.memory.byte? q a =
    if b.memory.current = some q then overlaid base image a (b.memory.byte? q a)
    else b.memory.byte? q a
  regions : b'.regions = b.regions
  privilege : b'.privilege = b.privilege

theorem Laden.refl (kind : RegionKind) (base : Word) (b : Bus) : Laden kind base [] b b where
  region _ _ := rfl
  memory _ := rfl
  paging _ := rfl
  rom _ := rfl
  processes _ := ⟨rfl, fun _ _ => (ite_self _).symm⟩
  regions := rfl
  privilege := rfl

theorem Laden.trans_nil (h : Laden kind base image b c) (h' : Laden kind address [] c b') :
    Laden kind base image b b' where
  region a ha := by
    rw [h'.region a (by rwa [Serves, h.regions]), overlaid_nil, h.region a ha]
  memory hk := (h'.memory hk).trans (h.memory hk)
  paging hk := (h'.paging hk).trans (h.paging hk)
  rom hk := (h'.rom hk).trans (h.rom hk)
  processes hk := by
    obtain ⟨hcurrent, hbytes⟩ := h.processes hk
    obtain ⟨hcurrent', hbytes'⟩ := h'.processes hk
    refine ⟨hcurrent'.trans hcurrent, fun q a => ?_⟩
    rw [hbytes', overlaid_nil, ite_self, hbytes]
  regions := h'.regions.trans h.regions
  privilege := h'.privilege.trans h.privilege

/-! ## Devices -/

def device (b : Bus) : RegionKind → ByteStore
  | .rom => b.rom
  | .ram | .mapped => b.memory.ram

def withDevice (b : Bus) (kind : RegionKind) (s : ByteStore) : Bus :=
  match kind with
  | .rom => { b with rom := s }
  | .ram | .mapped => b.withRam s

@[simp] theorem device_withDevice (b : Bus) (kind : RegionKind) (s : ByteStore) :
    (b.withDevice kind s).device kind = s := by cases kind <;> rfl

@[simp] theorem withDevice_withDevice (b : Bus) (kind : RegionKind) (s s' : ByteStore) :
    (b.withDevice kind s).withDevice kind s' = b.withDevice kind s' := by cases kind <;> rfl

@[simp] theorem regions_withDevice (b : Bus) (kind : RegionKind) (s : ByteStore) :
    (b.withDevice kind s).regions = b.regions := by cases kind <;> rfl

theorem byteAt?_device (hk : kind ≠ .mapped) (hserves : b.Serves kind a)
    (h : a.toNat = (b.device kind).base.toNat + offset) :
    b.byteAt? a = some ((b.device kind).byte offset) := by
  cases kind with
  | rom => exact byteAt?_rom hserves h
  | ram => exact byteAt?_ram hserves h
  | mapped => exact absurd rfl hk

theorem covers_of_serves (hb : b.Settled) (hk : kind ≠ .mapped) (hserves : b.Serves kind a) :
    Region.Covers ((b.device kind).base, UInt32.ofNat (b.device kind).size) a.toNat := by
  obtain ⟨window, hlaid⟩ := hb.laid
  have hlaid' : RegionMap.ofRanges (deviceRanges b.rom b.memory.ram window .rom)
    (deviceRanges b.rom b.memory.ram window .ram) (deviceRanges b.rom b.memory.ram window .mapped) =
      .ok b.regions := hlaid
  obtain ⟨hsound, -, hm⟩ := RegionMap.ofRanges_ok.mp hlaid'
  obtain ⟨region, hregion, rfl⟩ := hserves
  have hcontains := List.find?_some hregion
  rw [hm] at hregion
  obtain ⟨l, rfl⟩ := RegionMap.mem_regionsOf.mp
    ((RegionMap.ascending_perm _).mem_iff.mp (List.mem_of_find?_eq_some hregion))
  have hcovers := (Region.contains_ofRange (hsound l) a).mp hcontains
  cases l with
  | rom | ram => exact hcovers
  | mapped => exact absurd rfl hk

theorem offset_of_serves (hb : b.Settled) (hk : kind ≠ .mapped) (hserves : b.Serves kind a) :
    ∃ offset < (b.device kind).size, a.toNat = (b.device kind).base.toNat + offset := by
  obtain ⟨hbase, hend⟩ := covers_of_serves hb hk hserves
  rw [UInt32.toNat_ofNat', Nat.mod_eq_of_lt (b.device kind).size_lt] at hend
  dsimp only at hbase hend
  exact ⟨a.toNat - (b.device kind).base.toNat, by omega, by omega⟩

theorem loadByte_device (hk : kind ≠ .mapped) (hserves : b.Serves kind address)
    (haddress : address.toNat = (b.device kind).base.toNat + start)
    (hfit : start + 1 ≤ (b.device kind).size) : (loadByte address byte).run b = .ok ()
    (b.withDevice kind ((b.device kind).patch start [byte])) := by
  obtain ⟨region, hregion, rfl⟩ := hserves
  rw [loadByte, get_bind, hregion]
  dsimp only
  generalize region.kind = kind at *
  have hwrite : (ByteStore.writeBytes address [byte]).run (b.device kind) =
    .ok () ((b.device kind).patch start [byte]) := ByteStore.writeBytes_ok haddress hfit
  cases kind with
  | rom => exact onRom_ok hwrite
  | ram => exact onMemory_ok (PagedMemory.onRam_ok hwrite)
  | mapped => exact absurd rfl hk

theorem loadBytes_device (hk : kind ≠ .mapped) (image : List UInt8) : ∀ {b : Bus} {base : Word}
    {start : Nat}, b.Spans kind base image.length →
    base.toNat = (b.device kind).base.toNat + start → start + image.length ≤ (b.device kind).size →
    (loadBytes base image).run b = .ok ()
    (b.withDevice kind ((b.device kind).patch start image)) := by
  induction image with
  | nil =>
    intro b base start _ _ _
    cases kind <;> rfl
  | cons byte image ih =>
    intro b base start hspans hbase hfit
    rw [List.length_cons] at hfit
    have hfit' : start + 1 ≤ (b.device kind).size := by omega
    have hfirst : (loadByte base byte).run b = _ := loadByte_device hk hspans.first hbase hfit'
    by_cases hlast : image = []
    · subst hlast
      exact bind_ok hfirst
    have hlength : 0 < image.length := List.length_pos_iff.mpr hlast
    have hnext : (base + 1).toNat = base.toNat + 1 := by
      have hend := hspans.1
      rw [List.length_cons] at hend
      rw [UInt32.toNat_add]
      exact Nat.mod_eq_of_lt (show base.toNat + 1 < 2 ^ 32 by omega)
    have hspans' : (b.withDevice kind ((b.device kind).patch start [byte])).Spans kind
        (base + 1) image.length := by
      simp only [Spans, Serves, regions_withDevice]
      exact hspans.next
    have hrest := @ih _ _ (start + 1) hspans'
    rw [device_withDevice, withDevice_withDevice, ByteStore.base_patch,
      ByteStore.size_patch] at hrest
    exact (bind_ok hfirst).trans (hrest (by omega) (by omega))

theorem laden_withDevice (hb : b.Settled) (hk : kind ≠ .mapped)
    (hend : base.toNat + image.length ≤ 2 ^ 32)
    (hbase : base.toNat = (b.device kind).base.toNat + start)
    (hfit : start + image.length ≤ (b.device kind).size) :
    Laden kind base image b (b.withDevice kind ((b.device kind).patch start image)) where
  region a ha := by
    obtain ⟨offset, -, hat⟩ := offset_of_serves hb hk ha
    have ha' : (b.withDevice kind ((b.device kind).patch start image)).Serves kind a := by
      rwa [Serves, regions_withDevice]
    rw [byteAt?_device hk ha' (by rwa [device_withDevice, ByteStore.base_patch]), device_withDevice,
      byteAt?_device hk ha hat]
    exact ByteStore.byte_patch_overlaid hfit hbase hend hat
  memory hrom := by rw [hrom]; rfl
  paging hram := by rw [hram]; rfl
  rom hne := by cases kind <;> first | rfl | exact absurd rfl hne
  processes hmapped := absurd hmapped hk
  regions := regions_withDevice ..
  privilege := by cases kind <;> rfl

/-- A device takes any image that its region spans. -/
theorem Settled.loaded_device (hb : b.Settled) (hk : kind ≠ .mapped)
    (hspans : b.Spans kind base image.length) : ∃ b', Yields (loadBytes base image) b (.ok ()) b' ∧
    Laden kind base image b b' := by
  by_cases hempty : image = []
  · subst hempty
    exact ⟨b, rfl, .refl kind base b⟩
  have hlength : 0 < image.length := List.length_pos_iff.mpr hempty
  have hfirst := hspans.2 0 hlength
  rw [Word.add_ofNat_zero] at hfirst
  obtain ⟨start, -, hbase⟩ := offset_of_serves hb hk hfirst
  obtain ⟨last, hlast, hat⟩ := offset_of_serves hb hk (hspans.2 (image.length - 1) (by omega))
  have hend := hspans.1
  rw [UInt32.toNat_add, UInt32.toNat_ofNat'] at hat
  have hfit : start + image.length ≤ (b.device kind).size := by omega
  exact ⟨_, loadBytes_device hk image hspans hbase hfit, laden_withDevice hb hk hend hbase hfit⟩

/-! ## Pages -/

theorem loadByte_mapped (hserves : b.Serves .mapped address)
    (h : Yields (loadByte address byte) b r b') : ∃ m, b' = { b with memory := m } := by
  obtain ⟨region, hregion, hk⟩ := hserves
  have hrun : (loadByte address byte).run b =
      (onMemory (PagedMemory.translateHostWrite address >>= fun physical =>
      PagedMemory.onRam (ByteStore.writeBytes physical [byte]))).run b := by
    rw [loadByte, get_bind, hregion]
    dsimp only
    rw [hk]
  obtain ⟨m, -, hb'⟩ := yields_onMemory (h.of_run hrun.symm)
  exact ⟨m, hb'⟩

theorem loadBytes_mapped (image : List UInt8) :
    ∀ {b : Bus} {base : Word}, b.Spans .mapped base image.length →
    Yields (loadBytes base image) b r b' → ∃ m, b' = { b with memory := m } := by
  induction image with
  | nil =>
    intro b base _ h
    obtain ⟨-, rfl⟩ := h.of_pure
    exact ⟨_, rfl⟩
  | cons byte image ih =>
    intro b base hspans h
    rcases h.of_bind with ⟨_, c, hfirst, hrest⟩ | ⟨e, -, hfirst⟩
    · obtain ⟨m, rfl⟩ := loadByte_mapped hspans.first hfirst
      obtain ⟨m', rfl⟩ := ih (b := { b with memory := m }) hspans.next hrest
      exact ⟨m', rfl⟩
    · exact loadByte_mapped hspans.first hfirst

theorem OwnsPages.owns (h : b.OwnsPages base image.length) {v : Virtual.Memory} (hb : b.Sound)
    (hv : PagedMemory.Represents b.memory v) : v.Owns base image.length := by
  obtain ⟨name, hname⟩ := hv
  intro i hi pid m hc hm
  have hfind := hname.find? (base + UInt32.ofNat i).page
  rw [Virtual.Memory.find?_eq hc, hm] at hfind
  obtain ⟨mp, hmp, rfl⟩ := Option.map_eq_some_iff.mp hfind.symm
  refine (h i hi mp hmp).imp_right fun hone => Virtual.Memory.alone_of_mappingsOf hm ?_
  obtain ⟨_, d, -, hd, hmd⟩ := PagedMemory.mapping?_some.mp hmp
  change ¬ 1 < v.mappingsOf (name mp.location)
  rw [hname.mappingsOf (PagedMemory.mappingsOf_ne_zero hd hmd), ← hb.consistent.refs_eq, hone]
  exact Nat.lt_irrefl 1

/-- What was loaded into virtual memory lies in the window. -/
theorem laden_mapped {v v' : Virtual.Memory} {m : PagedMemory} (hb : b.Sound)
    (hv : PagedMemory.Represents b.memory v) (hv' : PagedMemory.Represents m v')
    (hloads : Virtual.Loads v base image v') (howns : b.OwnsPages base image.length)
    (hend : base.toNat + image.length ≤ 2 ^ 32) :
    Laden .mapped base image b { b with memory := m } := by
  obtain ⟨hcurrent, hbytes⟩ := hloads.overlaid hv.isFresh (howns.owns hb hv) hend
  refine ⟨fun a ha => ?_, nofun, nofun, fun _ => rfl, fun _ => ?_, rfl, rfl⟩
  · rw [Bus.byteAt?_mapped ha, Bus.byteAt?_mapped (b := { b with memory := m }) ha]
    dsimp only
    simp only [← hv.current, ← hv'.current, hcurrent, ← hv.byte?, ← hv'.byte?, hbytes]
    cases hc : v.current with
    | some q => exact if_pos rfl
    | none =>
      -- without a process nothing was loaded
      cases hloads with
      | nil => rfl
      | cons hm =>
        obtain ⟨pid, hc', -⟩ := Virtual.Memory.find?_some.mp hm
        rw [hc] at hc'
        cases hc'
  · rw [← hv.current, ← hv'.current]
    refine ⟨hcurrent, fun q a => ?_⟩
    rw [← hv.byte?, ← hv'.byte?, hbytes]

/-! ## Loading -/

/-- Byte `n` of the image is refused, after those before it were stored. -/
def Refuses (b : Bus) (base : Word) (image : List UInt8) (n : Nat) (e : Fault) (b' : Bus) : Prop :=
  ∃ byte c, image[n]? = some byte ∧ Yields (loadBytes base (image.take n)) b (.ok ()) c ∧
    Yields (loadByte (base + UInt32.ofNat n) byte) c (.error e) b'

theorem loadBytes_or_refuses (image : List UInt8) :
    ∀ {b : Bus} {base : Word}, Yields (loadBytes base image) b r b' →
    r = .ok () ∨ ∃ n e, r = .error e ∧ Refuses b base image n e b' := by
  induction image with
  | nil => exact fun h => .inl h.of_pure.1
  | cons byte image ih =>
    intro b base h
    rcases h.of_bind with ⟨_, c, hfirst, hrest⟩ | ⟨e, rfl, hfirst⟩
    · refine (ih hrest).imp_right ?_
      rintro ⟨n, e, rfl, byte', c', hbyte, hbefore, hrefused⟩
      refine ⟨n + 1, e, rfl, byte', c', hbyte, ?_, by rwa [← Word.add_succ]⟩
      exact hfirst.bind_ok hbefore
    · refine .inr ⟨0, e, rfl, byte, b, rfl, rfl, ?_⟩
      rwa [Word.add_ofNat_zero]

theorem Spans.take (h : b.Spans kind base image.length) (n : Nat) :
    b.Spans kind base (image.take n).length := by
  have hle := List.length_take_le' n image
  have hend := h.1
  exact ⟨by omega, fun i hi => h.2 i (by omega)⟩

theorem OwnsPages.take (h : b.OwnsPages base image.length) (n : Nat) :
    b.OwnsPages base (image.take n).length :=
  fun i hi => h i (Nat.lt_of_lt_of_le hi (List.length_take_le' n image))

theorem Settled.laden (hb : b.Settled) (hspans : b.Spans kind base image.length)
    (howns : kind = .mapped → b.OwnsPages base image.length)
    (h : Yields (loadBytes base image) b (.ok ()) b') : Laden kind base image b b' := by
  by_cases hk : kind = .mapped
  · subst hk
    obtain ⟨v, hr⟩ := hb.represents
    obtain ⟨r, c, v', hx, hy, hr', -⟩ := mirrors_loadBytes image base hr
    obtain ⟨rfl, rfl⟩ := h.unique hx
    obtain ⟨m, rfl⟩ := loadBytes_mapped image hspans h
    obtain ⟨n, -, hall, hloads⟩ :=
      Virtual.Bus.loadBytes_window image (by exact hr.regions ▸ hspans.2) hy
    rw [hall rfl, List.take_length] at hloads
    exact laden_mapped hb.sound hr.memory hr'.memory hloads (howns rfl) hspans.1
  · obtain ⟨c, hloaded, hladen⟩ := hb.loaded_device hk hspans
    obtain ⟨-, rfl⟩ := h.unique hloaded
    exact hladen

/-- Nothing is stored of a byte that is refused in the window. -/
theorem Settled.laden_refused (hb : b.Settled) (hserves : b.Serves .mapped address)
    (h : Yields (loadByte address byte) b (.error e) b') : Laden .mapped address [] b b' := by
  obtain ⟨v, hr⟩ := hb.represents
  obtain ⟨r, c, v', hx, hy, hr', -⟩ := mirrors_loadByte hr address byte
  obtain ⟨rfl, rfl⟩ := h.unique hx
  obtain ⟨m, rfl⟩ := loadByte_mapped hserves h
  obtain ⟨region, hregion, hk⟩ := hserves
  obtain ⟨mv, hm, rfl⟩ := Virtual.Bus.loadByte_window (hr.regions ▸ hregion) hk hy
  rcases Virtual.Bus.loadByteMapped_allows hm with ⟨mp, -, he, -⟩ | ⟨e', -, rfl⟩
  · cases he
  · exact laden_mapped hb.sound hr.memory hr'.memory (.nil _ address) (fun i hi =>
      absurd hi (Nat.not_lt_zero i))
      (Nat.le_of_lt address.toNat_lt)

/-- The bytes before the one that is refused lie in the region; nothing is refused outside the
window. -/
theorem Settled.laden_before (hb : b.Settled) (hspans : b.Spans kind base image.length)
    (howns : kind = .mapped → b.OwnsPages base image.length) {n : Nat}
    (h : Refuses b base image n e b') : Laden kind base (image.take n) b b' := by
  obtain ⟨byte, c, hbyte, hbefore, hrefused⟩ := h
  have hn : n < image.length := (List.getElem?_eq_some_iff.mp hbyte).1
  have hladen := hb.laden (hspans.take n) (fun hk => (howns hk).take n) hbefore
  have hsettled := keeps_settled (fun _ hI _ => keeps_loadBytes hI _ base) b _ c hb hbefore
  have hserves : c.Serves kind (base + UInt32.ofNat n) := by
    rw [Serves, hladen.regions]
    exact hspans.2 n hn
  by_cases hk : kind = .mapped
  · subst hk
    exact hladen.trans_nil (hsettled.laden_refused hserves hrefused)
  · obtain ⟨start, hstart, haddress⟩ := offset_of_serves hsettled hk hserves
    cases (hrefused.eq_of_ok (loadByte_device hk hserves haddress hstart)).1

theorem Laden.byteAt? (h : Laden kind base image b b') (hspans : b.Spans kind base image.length)
    {i : Nat} (hi : i < image.length) : b'.byteAt? (base + UInt32.ofNat i) = some image[i] := by
  rw [h.region _ (hspans.2 i hi), overlaid_inside hspans.1 hi]

/-! ## Fetching words -/

theorem length_flatMap_toBytes (words : List Word) :
    (words.flatMap fun w => toBytes 4 w.toNat).length = 4 * words.length := by
  simp [length_toBytes, Nat.mul_comm]

theorem getElem?_flatMap_toBytes (words : List Word) : ∀ {i k : Nat}, i < words.length → k < 4 →
    (words.flatMap fun w => toBytes 4 w.toNat)[4 * i + k]? = words[i]?.map (·.byte k) := by
  induction words with
  | nil => exact fun hi _ => absurd hi (Nat.not_lt_zero _)
  | cons word words ih =>
    intro i k hi hk
    have hlength : (toBytes 4 word.toNat).length = 4 := length_toBytes 4 _
    rw [List.flatMap_cons]
    cases i with
    | zero =>
      rw [Nat.mul_zero, Nat.zero_add, List.getElem?_append_left (by omega), List.getElem?_cons_zero,
        Option.map_some,
        ← Word.getD_toBytes hk, List.getD, List.getElem?_eq_getElem (by omega), Option.getD_some]
    | succ i =>
      rw [List.getElem?_append_right (by omega), hlength, List.getElem?_cons_succ,
        ← ih (Nat.lt_of_succ_lt_succ hi) hk]
      congr 1
      omega

/-- A device serves a fetch that its region spans, and stays as it is. -/
theorem Settled.fetch_device (hb : b.Settled) (hk : kind ≠ .mapped)
    (hspans : b.Spans kind address 4) : ∃ word, Yields (fetch address) b (.ok word) b := by
  have hcovers :
      Region.CoversAll ((b.device kind).base, UInt32.ofNat (b.device kind).size) address .word := by
    intro i hi
    have hat : (address + UInt32.ofNat i).toNat = address.toNat + i := by
      have hend := hspans.1
      have hlt : i < 4 := hi
      rw [UInt32.toNat_add, UInt32.toNat_ofNat']
      omega
    exact hat ▸ covers_of_serves hb hk (hspans.2 i hi)
  obtain ⟨window, hlaid⟩ := hb.laid
  obtain ⟨v, hr⟩ := hb.represents
  -- the fetch has some outcome, and routing leaves only one where the device has all four bytes
  obtain ⟨r, b', h⟩ := yields_exists (fetch address) b
  have hrouted := hr.routed hlaid h
  obtain ⟨word, rfl⟩ : ∃ word, r = .ok word := by
    cases kind with
    | rom => exact hrouted.rom hcovers nofun
    | ram => exact hrouted.ram hcovers
    | mapped => exact absurd rfl hk
  obtain ⟨region, hregion, hholds, hpermit⟩ := admitted_of_served h
  refine ⟨word, ?_⟩
  obtain ⟨region', hregion', hkind⟩ := hspans.first
  obtain rfl := Option.some.inj (hregion.symm.trans hregion')
  subst hkind
  cases hkind : region.kind with
  | rom =>
    obtain ⟨-, rfl⟩ := h.unique (transfer_rom hregion hkind hholds hpermit)
    exact h
  | ram =>
    rw [hkind] at hcovers
    obtain ⟨start, haddress, hend⟩ := ByteStore.offset_of_coversAll hcovers
    have hserved := transfer_served hregion hholds hpermit
    rw [hkind] at hserved
    obtain ⟨-, rfl⟩ := h.eq_of_ok (hserved.trans (exchange_run (t := .fetch address) haddress hend))
    exact h
  | mapped => exact absurd hkind hk

/-- A word that was loaded into a device is fetched from there. -/
theorem Laden.fetch {words : List Word} (hb' : b'.Settled) (hk : kind ≠ .mapped)
    (hspans : b.Spans kind base (words.flatMap fun w => toBytes 4 w.toNat).length)
    (h : Laden kind base (words.flatMap fun w => toBytes 4 w.toNat) b b') {i : Nat}
    (hi : i < words.length) :
    Yields (Bus.fetch (base + UInt32.ofNat (4 * i))) b' (.ok words[i]) b' := by
  have hlength := length_flatMap_toBytes words
  have hnext :
      ∀ k, base + UInt32.ofNat (4 * i) + UInt32.ofNat k = base + UInt32.ofNat (4 * i + k) := by
    intro k
    rw [UInt32.add_assoc, UInt32.ofNat_add]
  have hspans' : b'.Spans kind (base + UInt32.ofNat (4 * i)) 4 := by
    refine ⟨?_, fun k hk => ?_⟩
    · have hend := hspans.1
      rw [UInt32.toNat_add, UInt32.toNat_ofNat']
      omega
    · rw [hnext, Serves, h.regions]
      exact hspans.2 _ (by omega)
  -- the fetch is served, and the bytes that it finds are those of the image
  obtain ⟨word, hfetch⟩ := hb'.fetch_device hk hspans'
  have hexchanges := hb'.exchanges (t := .fetch (base + UInt32.ofNat (4 * i))) (absurd rfl) hfetch
  have hbytes : ∀ k < 4, word.byte k = words[i].byte k := by
    intro k hk
    have hfound := hexchanges.found k hk
    have hin : 4 * i + k < (words.flatMap fun w => toBytes 4 w.toNat).length := by omega
    have hbyte := getElem?_flatMap_toBytes words hi hk
    rw [List.getElem?_eq_getElem hin, List.getElem?_eq_getElem hi, Option.map_some] at hbyte
    change b'.byteAt? (base + UInt32.ofNat (4 * i) + UInt32.ofNat k) = _ at hfound
    rw [hnext, h.byteAt? hspans hin, hbyte] at hfound
    exact (Option.some.inj hfound).symm
  rwa [← Word.eq_of_bytes hbytes]

/-! ## Images -/

/-- The image lies in the region and nothing else has changed, and it is what is read back there, by
whom it may be. -/
structure Stored (kind : RegionKind) (base : Word) (image : List UInt8) (b b' : Bus) : Prop where
  laden : Laden kind base image b b'
  reread : ∀ i (hi : i < image.length) privilege x b'',
    Yields (read (base + UInt32.ofNat i) .byte) { b' with privilege := privilege } (.ok x) b'' →
    x.toNat = image[i].toNat

theorem Laden.stored (h : Laden kind base image b b') (hb' : b'.Settled)
    (hspans : b.Spans kind base image.length) : Stored kind base image b b' := by
  refine ⟨h, fun i hi privilege x b'' hread => ?_⟩
  have hexchanges := (hb'.withPrivilege privilege).exchanges
    (t := .read (base + UInt32.ofNat i) .byte) (absurd rfl) hread
  have hfound := hexchanges.found 0 Nat.one_pos
  change b'.byteAt? (base + UInt32.ofNat i + UInt32.ofNat 0) = _ at hfound
  have hlt : x.toNat < 256 := hexchanges.lt
  rw [Word.add_ofNat_zero, h.byteAt? hspans hi] at hfound
  rw [Option.some.inj hfound, Word.toNat_byte, Nat.pow_zero, Nat.div_one, Nat.mod_eq_of_lt hlt]

theorem Settled.stored (hb : b.Settled) (hspans : b.Spans kind base image.length)
    (howns : kind = .mapped → b.OwnsPages base image.length)
    (h : Yields (Bus.loadImage base image) b r b') :
    (r = .ok () ∧ Stored kind base image b b') ∨
      kind = .mapped ∧ ∃ n e, r = .error e ∧ Refuses b base image n e b' ∧
      Stored kind base (image.take n) b b' := by
  have hb' := hb.loadImage h
  rw [Bus.loadImage, if_pos hspans.1] at h
  rcases loadBytes_or_refuses image h with rfl | ⟨n, e, rfl, hrefused⟩
  · exact .inl ⟨rfl, (hb.laden hspans howns h).stored hb' hspans⟩
  · refine .inr ⟨?_, n, e, rfl, hrefused,
      (hb.laden_before hspans howns hrefused).stored hb' (hspans.take n)⟩
    by_contra hk
    obtain ⟨c, hloaded, -⟩ := hb.loaded_device hk hspans
    cases (h.unique hloaded).1

end Bus

namespace Machine

variable {m m' : Machine} {base : Word} {words : List Word} {b' : Bus}

theorem loadProgram_of_loadImage
    (h : Yields (Bus.loadImage base (words.flatMap fun w => toBytes 4 w.toNat)) m.bus (.ok ()) b') :
    Yields (loadProgram base words) m (.ok ())
      { m with bus := b', registers := { m.registers with pc := base }, runState := .running } :=
  Yields.bind_ok (r := .ok ()) (onBus_run h) rfl

theorem loadImage_of_loadProgram (h : Yields (loadProgram base words) m (.ok ()) m') :
    Yields (Bus.loadImage base (words.flatMap fun w => toBytes 4 w.toNat)) m.bus
      (.ok ()) m'.bus := by
  obtain ⟨r, b', hload⟩ :=
    yields_exists (Bus.loadImage base (words.flatMap fun w => toBytes 4 w.toNat)) m.bus
  cases r with
  | ok u =>
    rw [(h.unique (loadProgram_of_loadImage hload)).2]
    exact hload
  | error e => cases (h.unique (onBus_run hload).bind_error).1

end Machine

/-- What is loaded is the image: over one region, and in the window over pages that are copied or
counted once, all of it lies there and is read back, or in the window all before the byte that is
refused, and nothing else has changed. An image that would run past the last address is refused as a
whole, wherever it starts. Words that are loaded in a device are fetched from there. -/
theorem Bus.images_exact :
    (∀ b b' kind base image r, b.Attained → b.Spans kind base image.length →
      (kind = .mapped → b.OwnsPages base image.length) → Yields (loadImage base image) b r b' →
      (r = .ok () ∧ Stored kind base image b b') ∨
        kind = .mapped ∧ ∃ n e, r = .error e ∧ Refuses b base image n e b' ∧
        Stored kind base (image.take n) b b') ∧
    (∀ b base image, 2 ^ 32 < base.toNat + image.length →
      Yields (loadImage base image) b (.error (.memoryOutOfBounds 0xFFFFFFFF)) b) ∧
    ∀ m m' kind base words, Machine.Reached m → kind ≠ .mapped →
      m.bus.Spans kind base (4 * words.length) →
      Yields (Machine.loadProgram base words) m (.ok ()) m' → ∀ i (hi : i < words.length),
        Yields (fetch (base + UInt32.ofNat (4 * i))) m'.bus (.ok words[i]) m'.bus := by
  refine ⟨fun b b' kind base image r hb => hb.settled.stored, fun b base image hlong => ?_, ?_⟩
  · rw [loadImage, if_neg (by omega)]
    exact rfl
  · intro m m' kind base words hm hk hspans h i hi
    have hload := Machine.loadImage_of_loadProgram h
    rw [← length_flatMap_toBytes] at hspans
    rcases hm.settled.stored hspans (fun hmapped => absurd hmapped hk) hload with
      ⟨-, hstored⟩ | ⟨hmapped, -⟩
    · exact hstored.laden.fetch (hm.settled.loadImage hload) hk hspans hi
    · exact absurd hmapped hk

/-! ## Two bytes across the end of a page

The first byte is the last one of the only page, and the second has no page.
-/

namespace OneWriter

open PagedMemory TwoReaders

theorem attained : owning.Attained :=
  .inl ⟨ram, rom, disk, window, ranges, _, events, bus_ofDevices, rfl, run,
    (by decide : 1 < 2 ^ 32 - 1), withinCounts⟩

theorem spans : owning.Spans .mapped 0x400FFF 2 := by
  refine ⟨by decide, fun i hi => ⟨⟨.mapped, 0x400000, 0x7FFFFF⟩, ?_, rfl⟩⟩
  obtain rfl | rfl : i = 0 ∨ i = 1 := by omega
  · rfl
  · rfl

theorem ownsPages : owning.OwnsPages 0x400FFF 2 := by
  intro i hi mp hmp
  obtain rfl | rfl : i = 0 ∨ i = 1 := by omega
  · obtain rfl : ⟨.frame 0, .readWrite, false⟩ = mp := Option.some.inj hmp
    exact .inr rfl
  · cases hmp

def filled (disk : Disk) (ram : Ram) : PagedMemory :=
  { mappedAs disk ram .readWrite with ram := (ram.patch 0 zeroPage).patch 0xFFF [0xAA] }

section
variable (disk : Disk) (ram : Ram)

/-- The byte goes into the frame of the page, as its last one. -/
theorem load_first (hram : ram.base.toNat + ram.size ≤ 2 ^ 32) (hcount : 0 < Ram.pageCount ram) :
    Yields (Bus.loadByte 0x400FFF 0xAA) (bus (mappedAs disk ram .readWrite)) (.ok ())
    (bus (filled disk ram)) := by
  have hsize := ByteStore.size_patch ram 0 zeroPage
  have hfits : (ram.patch 0 zeroPage).base.toNat + (ram.patch 0 zeroPage).size ≤ 2 ^ 32 := by
    rw [hsize, ByteStore.base_patch]
    exact hram
  have hframe : (0 : Word).toNat < Ram.pageCount (ram.patch 0 zeroPage) := by
    rw [Ram.pageCount_patch]
    exact hcount
  have hlast : 0xFFF < pageSize := by decide
  have haddress := Ram.toNat_frameAddress_add hfits hframe hlast
  have hfit : 0xFFF + [(0xAA : UInt8)].length ≤ (ram.patch 0 zeroPage).size := by
    unfold Ram.pageCount pageSize at hcount
    rw [hsize, List.length_singleton]
    omega
  have hstore : (ByteStore.writeBytes
      (Ram.frameAddress (ram.patch 0 zeroPage) 0 + UInt32.ofNat 0xFFF) [0xAA]).run
      (mappedAs disk ram .readWrite).ram = .ok () ((ram.patch 0 zeroPage).patch 0xFFF [0xAA]) :=
    ByteStore.writeBytes_ok haddress hfit
  have htranslate : (translateHostWrite 0x400FFF).run (mappedAs disk ram .readWrite) =
    .ok (Ram.frameAddress (ram.patch 0 zeroPage) 0 + UInt32.ofNat 0xFFF)
      (mappedAs disk ram .readWrite) := rfl
  exact Bus.onMemory_ok (b := bus (mappedAs disk ram .readWrite))
    ((bind_ok htranslate).trans (onRam_ok hstore))

theorem load_second : ∃ b, Yields (Bus.loadByte 0x401000 0xBB) (bus (filled disk ram))
    (.error (.pageFault 0x401000 .write)) b := ⟨_, rfl⟩

theorem load_both (hram : ram.base.toNat + ram.size ≤ 2 ^ 32)
    (hcount : 0 < Ram.pageCount ram) : ∃ b, Yields (Bus.loadImage 0x400FFF [0xAA, 0xBB])
    (bus (mappedAs disk ram .readWrite)) (.error (.pageFault 0x401000 .write)) b := by
  obtain ⟨b, hsecond⟩ := load_second disk ram
  exact ⟨b, (load_first disk ram hram hcount).bind_ok hsecond.bind_error⟩

end

/-- The first byte is not the one that is refused. -/
theorem refused_second {n : Nat} {e : Fault} {b : Bus}
    (h : owning.Refuses 0x400FFF [0xAA, 0xBB] n e b) : n = 1 := by
  obtain ⟨byte, c, hbyte, hbefore, hrefused⟩ := h
  have hn : n < 2 := (List.getElem?_eq_some_iff.mp hbyte).1
  by_contra hne
  obtain rfl : n = 0 := by omega
  obtain rfl : 0xAA = byte := Option.some.inj hbyte
  obtain ⟨-, rfl⟩ := hbefore.of_pure
  cases (hrefused.unique (load_first disk ram ram_fits.1 ram_fits.2)).1

theorem spans_ram : TornStore.ready.bus.Spans .ram 0x10000000 8 := by
  have hregions : ∀ i < 8, TornStore.layout.regionOf? (0x10000000 + UInt32.ofNat i) =
      some ⟨.ram, 0x10000000, 0x10007FFF⟩ := by decide
  exact ⟨by decide, fun i hi => ⟨_, hregions i hi, rfl⟩⟩

theorem loaded_words :
    ∃ m, Yields (Machine.loadProgram 0x10000000 [1, 0x55807004]) TornStore.ready (.ok ()) m := by
  have hspans : TornStore.ready.bus.Spans .ram 0x10000000
    (List.flatMap (fun w : Word => toBytes 4 w.toNat) [1, 0x55807004]).length := spans_ram
  have hram : RegionKind.ram ≠ .mapped := nofun
  obtain ⟨b, hload, -⟩ := TornStore.reached.settled.loaded_device hram hspans
  have hfit := hspans.1
  have himage : Yields (Bus.loadImage 0x10000000
      (List.flatMap (fun w : Word => toBytes 4 w.toNat) [1, 0x55807004]))
      TornStore.ready.bus (.ok ()) b := by
    rw [Bus.loadImage, if_pos hfit]
    exact hload
  exact ⟨_, Machine.loadProgram_of_loadImage himage⟩

/-- The image ends with its first byte, one that runs past the last address is refused, and two
words are loaded in RAM. -/
theorem image_cut :
    (∃ b, Yields (Bus.loadImage 0x400FFF [0xAA, 0xBB]) owning
      (.error (.pageFault 0x401000 .write)) b ∧ Bus.Stored .mapped 0x400FFF [0xAA] owning b) ∧
    Yields (Bus.loadImage 0xFFFFFFFF [0xAA, 0xBB]) owning
      (.error (.memoryOutOfBounds 0xFFFFFFFF)) owning ∧
    ∃ m, Yields (Machine.loadProgram 0x10000000 [1, 0x55807004]) TornStore.ready (.ok ()) m ∧
      Yields (Bus.fetch 0x10000004) m.bus (.ok 0x55807004) m.bus := by
  obtain ⟨hstored, hrefused, hfetched⟩ := Bus.images_exact
  obtain ⟨b, hload⟩ := load_both disk ram ram_fits.1 ram_fits.2
  obtain ⟨m, hwords⟩ := loaded_words
  refine ⟨⟨b, hload, ?_⟩, hrefused owning 0xFFFFFFFF [0xAA, 0xBB] (by decide), m, hwords, ?_⟩
  · rcases hstored owning b .mapped _ _ _ attained spans (fun _ => ownsPages) hload with
      ⟨he, -⟩ | ⟨-, n, e, -, hn, hs⟩
    · cases he
    · obtain rfl := refused_second hn
      exact hs
  · exact hfetched _ m .ram _ _ TornStore.reached nofun spans_ram hwords 1 (by decide)

end OneWriter

end PagedMachine

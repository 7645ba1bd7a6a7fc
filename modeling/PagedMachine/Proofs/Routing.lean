import Mathlib.Data.List.Pairwise
import PagedMachine.Proofs.Denials
import PagedMachine.Proofs.MachineLayout

/-!
# Routing

Three ranges of addresses make a map exactly if none is empty, none runs past the last
address and no two meet, although only neighbours in ascending order are compared. The
bus then serves an access exactly if one of the ranges has all of its bytes, and the
devices behind it never find an access out of bounds that the bus let through.
-/

namespace PagedMachine

/-! ## Ranges and regions -/

namespace Region

def Covers (range : Word × Word) (a : Nat) : Prop :=
  range.1.toNat ≤ a ∧ a < range.1.toNat + range.2.toNat

/-- All bytes of an access belong to the range, without wrapping. -/
def CoversAll (range : Word × Word) (address : Word) (width : Width) : Prop :=
  ∀ i < width.bytes, Covers range (address.toNat + i)

/-- A range that is not empty and ends with the last address or before. -/
structure Sound (range : Word × Word) : Prop where
  nonempty : range.2 ≠ 0
  ends : range.1.toNat + range.2.toNat ≤ 2 ^ 32

def ofRange (kind : RegionKind) (range : Word × Word) : Region :=
  ⟨kind, range.1, range.1 + (range.2 - 1)⟩

variable {k l : RegionKind} {x y : Word × Word} {r s : Region}

theorem ofSize_ok : ofSize k x.1 x.2 = .ok r ↔ Sound x ∧ r = ofRange k x := by
  unfold ofSize
  constructor
  · intro h
    split at h
    · cases h
    · split at h
      · exact ⟨⟨‹_›, ‹_›⟩, (Except.ok.inj h).symm⟩
      · cases h
  · rintro ⟨hx, rfl⟩
    rw [if_neg hx.nonempty, if_pos hx.ends]
    rfl

theorem last_ofRange (hx : Sound x) : (ofRange k x).last.toNat + 1 = x.1.toNat + x.2.toNat := by
  have hsize : x.2.toNat ≠ 0 := fun h => hx.nonempty (UInt32.toNat_inj.mp h)
  have hends := hx.ends
  have hlast : (x.1 + (x.2 - 1)).toNat = (x.1.toNat + (x.2.toNat - 1)) % 2 ^ 32 := by
    have hone : (1 : Word) ≤ x.2 := UInt32.le_iff_toNat_le.mpr (Nat.pos_of_ne_zero hsize)
    rw [UInt32.toNat_add, UInt32.toNat_sub_of_le _ _ hone]
    rfl
  change (x.1 + (x.2 - 1)).toNat + 1 = _
  rw [hlast, Nat.mod_eq_of_lt (by omega)]
  omega

theorem contains_ofRange (hx : Sound x) (a : Word) : (ofRange k x).contains a = true ↔
    Covers x a.toNat := by
  have hlast := last_ofRange (k := k) hx
  rw [contains, Bool.and_eq_true, decide_eq_true_eq, decide_eq_true_eq, UInt32.le_iff_toNat_le,
    UInt32.le_iff_toNat_le]
  change x.1.toNat ≤ a.toNat ∧ _ ↔ x.1.toNat ≤ a.toNat ∧ _
  omega

theorem holds_ofRange (hx : Sound x) (a : Word) (width : Width) :
    (ofRange k x).holds a width = true ↔ CoversAll x a width := by
  have hlast := last_ofRange (k := k) hx
  have hwidth : 0 < width.bytes := by cases width <;> decide
  rw [holds, Bool.and_eq_true, decide_eq_true_eq, contains_ofRange hx]
  constructor
  · rintro ⟨⟨hbase, hend⟩, hroom⟩ i hi
    exact ⟨by omega, by omega⟩
  · intro h
    obtain ⟨hbase, hend⟩ := h 0 hwidth
    obtain ⟨-, hroom⟩ := h (width.bytes - 1) (by omega)
    exact ⟨⟨hbase, hend⟩, by omega⟩

theorem overlaps_iff : r.overlaps s = true ↔ r.first ≤ s.last ∧ s.first ≤ r.last := by
  rw [overlaps, Bool.and_eq_true, decide_eq_true_eq, decide_eq_true_eq]

def Apart (r s : Region) : Prop := ¬ r.overlaps s = true

instance : Std.Symm Apart where
  symm r s h := by
    rw [Apart, overlaps_iff] at h ⊢
    exact fun hsr => h hsr.symm

/-- Two ranges meet exactly if their regions overlap. -/
theorem overlaps_ofRange (hx : Sound x) (hy : Sound y) :
    (ofRange k x).overlaps (ofRange l y) = true ↔ ∃ a, Covers x a ∧ Covers y a := by
  have hxlast := last_ofRange (k := k) hx
  have hylast := last_ofRange (k := l) hy
  have hxsize : x.2.toNat ≠ 0 := fun h => hx.nonempty (UInt32.toNat_inj.mp h)
  have hysize : y.2.toNat ≠ 0 := fun h => hy.nonempty (UInt32.toNat_inj.mp h)
  rw [overlaps_iff, UInt32.le_iff_toNat_le, UInt32.le_iff_toNat_le]
  change x.1.toNat ≤ _ ∧ y.1.toNat ≤ _ ↔ _
  unfold Covers
  constructor
  · intro h
    exact ⟨max x.1.toNat y.1.toNat, by omega, by omega⟩
  · rintro ⟨a, hxa, hya⟩
    omega

end Region

/-! ## Maps -/

namespace RegionMap

open Region

structure Admissible (ranges : RegionKind → Word × Word) : Prop where
  sound : ∀ k, Sound (ranges k)
  disjoint : ∀ k l, k ≠ l → ∀ a, ¬ (Covers (ranges k) a ∧ Covers (ranges l) a)

/-- In ascending order only neighbours need to be compared. -/
theorem overlap?_none {rs : List Region} (hsorted : rs.Pairwise (·.first ≤ ·.first))
    (hlast : ∀ r ∈ rs, r.first ≤ r.last) : overlap? rs = none ↔ rs.Pairwise Apart := by
  induction rs with
  | nil => exact ⟨fun _ => .nil, fun _ => rfl⟩
  | cons r rs ih =>
    obtain ⟨hfirst, hrest⟩ := List.pairwise_cons.mp hsorted
    cases rs with
    | nil => exact ⟨fun _ => List.pairwise_singleton .., fun _ => rfl⟩
    | cons s rest =>
      have hnext : s.first ≤ s.last := hlast s (List.mem_cons_of_mem _ List.mem_cons_self)
      have hrs : r.first ≤ s.first := hfirst s List.mem_cons_self
      have ih := ih hrest fun r hr => hlast r (List.mem_cons_of_mem _ hr)
      rw [overlap?]
      constructor
      · intro h
        split at h
        · cases h
        · rename_i hover
          -- what follows begins no earlier than `s`, so a region that ends below `s` ends below all
          -- of them
          have hbelow : r.last < s.first := by
            rw [overlaps_iff] at hover
            exact UInt32.not_le.mp fun h => hover ⟨UInt32.le_trans hrs hnext, h⟩
          refine List.pairwise_cons.mpr ⟨fun t ht hover => ?_, ih.mp h⟩
          have hst : s.first ≤ t.first := by
            rcases List.mem_cons.mp ht with rfl | ht
            · exact UInt32.le_refl _
            · exact (List.pairwise_cons.mp hrest).1 t ht
          exact UInt32.not_le.mpr hbelow (UInt32.le_trans hst (overlaps_iff.mp hover).2)
      · intro h
        obtain ⟨hapart, htail⟩ := List.pairwise_cons.mp h
        rw [if_neg (hapart s List.mem_cons_self)]
        exact ih.mpr htail

variable {ranges : RegionKind → Word × Word} {m : RegionMap}

def regionsOf (ranges : RegionKind → Word × Word) : List Region :=
  [ofRange .rom (ranges .rom), ofRange .ram (ranges .ram), ofRange .mapped (ranges .mapped)]

theorem mem_regionsOf {r : Region} : r ∈ regionsOf ranges ↔ ∃ k, r = ofRange k (ranges k) := by
  constructor
  · intro h
    simp only [regionsOf, List.mem_cons, List.not_mem_nil, or_false] at h
    rcases h with rfl | rfl | rfl
    · exact ⟨.rom, rfl⟩
    · exact ⟨.ram, rfl⟩
    · exact ⟨.mapped, rfl⟩
  · rintro ⟨k, rfl⟩
    cases k <;> simp [regionsOf]

def ascending (rs : List Region) : List Region := rs.mergeSort fun r s => r.first ≤ s.first

theorem ascending_perm (rs : List Region) : (ascending rs).Perm rs := List.mergeSort_perm ..

theorem ascending_sorted (rs : List Region) : (ascending rs).Pairwise (·.first ≤ ·.first) := by
  have htrans : ∀ r s t : Region, decide (r.first ≤ s.first) = true →
      decide (s.first ≤ t.first) = true →
      decide (r.first ≤ t.first) = true := by
    intro r s t hrs hst
    rw [decide_eq_true_eq] at *
    exact UInt32.le_trans hrs hst
  have htotal : ∀ r s :
      Region, (decide (r.first ≤ s.first) || decide (s.first ≤ r.first)) = true := by
    intro r s
    rw [Bool.or_eq_true, decide_eq_true_eq, decide_eq_true_eq]
    exact UInt32.le_total ..
  exact (List.pairwise_mergeSort htrans htotal rs).imp fun h => of_decide_eq_true h

theorem sound_of_ofRanges (h : ofRanges (ranges .rom) (ranges .ram) (ranges .mapped) = .ok m) :
    ∀ k, Sound (ranges k) := by
  unfold ofRanges at h
  cases hrom : ofSize .rom (ranges .rom).1 (ranges .rom).2 with
  | error e => rw [hrom] at h; cases h
  | ok rom =>
    cases hram : ofSize .ram (ranges .ram).1 (ranges .ram).2 with
    | error e => rw [hrom, hram] at h; cases h
    | ok ram =>
      cases hmapped : ofSize .mapped (ranges .mapped).1 (ranges .mapped).2 with
      | error e => rw [hrom, hram, hmapped] at h; cases h
      | ok mapped =>
        intro k
        cases k with
        | rom => exact (ofSize_ok.mp hrom).1
        | ram => exact (ofSize_ok.mp hram).1
        | mapped => exact (ofSize_ok.mp hmapped).1

/-- The regions of sound ranges are sorted and compared. -/
theorem ofRanges_of_sound (hsound : ∀ k, Sound (ranges k)) :
    ofRanges (ranges .rom) (ranges .ram) (ranges .mapped) = .ok m ↔
      overlap? (ascending (regionsOf ranges)) = none ∧ m = ⟨ascending (regionsOf ranges)⟩ := by
  have hok : ∀ k, ofSize k (ranges k).1 (ranges k).2 = .ok (ofRange k (ranges k)) :=
    fun k => ofSize_ok.mpr ⟨hsound k, rfl⟩
  unfold ofRanges
  rw [hok, hok, hok]
  simp only [bind, Except.bind]
  constructor
  · intro h
    split at h
    · cases h
    · exact ⟨‹_›, (Except.ok.inj h).symm⟩
  · rintro ⟨hover, rfl⟩
    split
    · rename_i hsome
      cases hover.symm.trans hsome
    · rfl

theorem ofRanges_ok : ofRanges (ranges .rom) (ranges .ram) (ranges .mapped) = .ok m ↔
    (∀ k, Sound (ranges k)) ∧ overlap? (ascending (regionsOf ranges)) = none ∧
    m = ⟨ascending (regionsOf ranges)⟩ := by
  constructor
  · intro h
    have hsound := sound_of_ofRanges h
    exact ⟨hsound, (ofRanges_of_sound hsound).mp h⟩
  · rintro ⟨hsound, hmade⟩
    exact (ofRanges_of_sound hsound).mpr hmade

theorem overlap?_ascending (hsound : ∀ k, Sound (ranges k)) :
    overlap? (ascending (regionsOf ranges)) = none ↔
    ∀ k l, k ≠ l → ∀ a, ¬ (Covers (ranges k) a ∧ Covers (ranges l) a) := by
  have hlast : ∀ r ∈ ascending (regionsOf ranges), r.first ≤ r.last := by
    intro r hr
    obtain ⟨k, rfl⟩ := mem_regionsOf.mp ((ascending_perm _).mem_iff.mp hr)
    have hend := last_ofRange (k := k) (hsound k)
    have hsize : (ranges k).2.toNat ≠ 0 := fun h => (hsound k).nonempty (UInt32.toNat_inj.mp h)
    refine UInt32.le_iff_toNat_le.mpr ?_
    change (ranges k).1.toNat ≤ _
    omega
  have happart : ∀ k l, Apart (ofRange k (ranges k)) (ofRange l (ranges l)) ↔
      ∀ a, ¬ (Covers (ranges k) a ∧ Covers (ranges l) a) := by
    intro k l
    rw [Apart, overlaps_ofRange (hsound k) (hsound l), not_exists]
  rw [overlap?_none (ascending_sorted _) hlast, (ascending_perm _).pairwise_iff fun h =>
    Std.Symm.symm _ _ h]
  constructor
  · intro h k l hkl
    refine (happart k l).mp (h.forall (mem_regionsOf.mpr ⟨k, rfl⟩) (mem_regionsOf.mpr ⟨l, rfl⟩) ?_)
    exact fun heq => hkl (congrArg Region.kind heq)
  · intro h
    have hpair : ∀ k l, k ≠ l → Apart (ofRange k (ranges k)) (ofRange l (ranges l)) :=
      fun k l hkl => (happart k l).mpr (h k l hkl)
    simp only [regionsOf, List.pairwise_cons, List.mem_cons, List.not_mem_nil, or_false,
      forall_eq_or_imp, forall_eq]
    exact ⟨⟨hpair _ _ nofun, hpair _ _ nofun⟩, hpair _ _ nofun, nofun, .nil⟩

theorem ofRanges_iff_admissible :
    (∃ m, ofRanges (ranges .rom) (ranges .ram) (ranges .mapped) = .ok m) ↔ Admissible ranges := by
  constructor
  · rintro ⟨m, h⟩
    obtain ⟨hsound, hover, -⟩ := ofRanges_ok.mp h
    exact ⟨hsound, (overlap?_ascending hsound).mp hover⟩
  · intro h
    exact ⟨_, ofRanges_ok.mpr ⟨h.sound, (overlap?_ascending h.sound).mpr h.disjoint, rfl⟩⟩

/-- The address of a range belongs to the region of that range and to no other. -/
theorem regionOf?_of_covers (h : ofRanges (ranges .rom) (ranges .ram) (ranges .mapped) = .ok m)
    {k : RegionKind} {address : Word} (hcovers : Covers (ranges k) address.toNat) :
    m.regionOf? address = some (ofRange k (ranges k)) := by
  have hadmissible := ofRanges_iff_admissible.mp ⟨m, h⟩
  obtain ⟨hsound, -, rfl⟩ := ofRanges_ok.mp h
  have hcontains := (contains_ofRange (k := k) (hsound k) address).mpr hcovers
  have hmem : ofRange k (ranges k) ∈ ascending (regionsOf ranges) :=
    (ascending_perm _).mem_iff.mpr (mem_regionsOf.mpr ⟨k, rfl⟩)
  cases hfind : (ascending (regionsOf ranges)).find? (·.contains address) with
  | none => exact absurd hcontains (List.find?_eq_none.mp hfind _ hmem)
  | some r =>
    obtain ⟨l, rfl⟩ :=
      mem_regionsOf.mp ((ascending_perm _).mem_iff.mp (List.mem_of_find?_eq_some hfind))
    have hfound := List.find?_some hfind
    have hcovers' := (contains_ofRange (hsound l) address).mp hfound
    by_cases hkl : k = l
    · exact hfind.trans (by rw [hkl])
    · exact absurd ⟨hcovers, hcovers'⟩ (hadmissible.disjoint k l hkl _)

theorem regionOf?_none (h : ofRanges (ranges .rom) (ranges .ram) (ranges .mapped) = .ok m)
    {address : Word} (hnone : ∀ k, ¬ Covers (ranges k) address.toNat) :
    m.regionOf? address = none := by
  obtain ⟨hsound, -, rfl⟩ := ofRanges_ok.mp h
  refine List.find?_eq_none.mpr fun r hr hcontains => ?_
  obtain ⟨k, rfl⟩ := mem_regionsOf.mp ((ascending_perm _).mem_iff.mp hr)
  exact hnone k ((contains_ofRange (hsound k) address).mp hcontains)

end RegionMap

/-! ## Accesses -/

open Region

def deviceRanges (rom : Rom) (ram : Ram) (window : Word × Word) : RegionKind → Word × Word
  | .rom => (rom.base, UInt32.ofNat rom.size)
  | .ram => (ram.base, UInt32.ofNat ram.size)
  | .mapped => window

/-- A device has all bytes that its range covers. -/
theorem ByteStore.offset_of_coversAll {s : ByteStore} {address : Word} {width : Width}
    (h : CoversAll (s.base, UInt32.ofNat s.size) address width) :
    ∃ offset, address.toNat = s.base.toNat + offset ∧ offset + width.bytes ≤ s.size := by
  have hsize : (UInt32.ofNat s.size).toNat = s.size := by
    rw [UInt32.toNat_ofNat', Nat.mod_eq_of_lt s.size_lt]
  have hwidth : 0 < width.bytes := by cases width <;> decide
  obtain ⟨hbase, -⟩ := h 0 hwidth
  obtain ⟨-, hend⟩ := h (width.bytes - 1) (by omega)
  dsimp only at hbase hend
  exact ⟨address.toNat - s.base.toNat, by omega, by omega⟩

structure Routed {α : Type} (ranges : RegionKind → Word × Word) (t : Transfer)
    (r : Except Fault α) : Prop where
  outOfBounds : ∀ a, r = .error (.memoryOutOfBounds a) ↔
    a = t.address ∧ ¬ ∃ k, CoversAll (ranges k) t.address t.width
  readOnly : CoversAll (ranges .rom) t.address t.width → t.access = .write →
    r = .error (.writeToReadOnly t.address)
  rom : CoversAll (ranges .rom) t.address t.width → t.access ≠ .write → ∃ a, r = .ok a
  ram : CoversAll (ranges .ram) t.address t.width → ∃ a, r = .ok a

theorem Routed.map {α β : Type} {ranges : RegionKind → Word × Word} {t : Transfer}
    {r : Except Fault α} (h : Routed ranges t r) (g : α → β) : Routed ranges t (r.map g) := by
  have hok : (∃ a, r = .ok a) → ∃ b, r.map g = .ok b := by
    rintro ⟨a, rfl⟩
    exact ⟨g a, rfl⟩
  refine ⟨fun a => ?_, fun hcovers hwrite => ?_, fun hcovers hread => hok (h.rom hcovers hread),
    fun hcovers => hok (h.ram hcovers)⟩
  · rw [← h.outOfBounds a]
    cases r with
    | ok b => exact ⟨nofun, nofun⟩
    | error e =>
      exact ⟨fun he => congrArg _ (Except.error.inj he), fun he => congrArg _ (Except.error.inj he)⟩
  · rw [h.readOnly hcovers hwrite]
    rfl

namespace Bus

variable {b b' : Bus} {v : Virtual.Bus} {t : Transfer} {r : Except Fault Word} {region : Region}

theorem transfer_nowhere (h : b.regions.regionOf? t.address = none ∨
    ∃ region, b.regions.regionOf? t.address = some region ∧
      ¬ region.holds t.address t.width = true) : (transfer t).run b =
      .error (.memoryOutOfBounds t.address) b := by
  rw [transfer, get_bind]
  rcases h with hnone | ⟨region, hregion, hholds⟩
  · rw [hnone]
    rfl
  · rw [hregion]
    dsimp only
    rw [if_neg hholds]
    rfl

theorem transfer_forbidden {e : Fault} (hregion : b.regions.regionOf? t.address = some region)
    (hholds : region.holds t.address t.width = true)
    (hpermit : region.kind.permit t.access t.address = .error e) :
    (transfer t).run b = .error e b := by
  rw [transfer, get_bind, hregion]
  dsimp only
  rw [if_pos hholds]
  exact bind_error (outcome_error hpermit b)

theorem transfer_served (hregion : b.regions.regionOf? t.address = some region)
    (hholds : region.holds t.address t.width = true)
    (hpermit : region.kind.permit t.access t.address = .ok ()) :
    (transfer t).run b = (match region.kind with
      | .rom => get >>= fun b : Bus => outcome (b.rom.read t.address t.width)
      | .ram => exchange t.address t.width t.store
      | .mapped => transferMapped t : OnBus Word).run b := by
  rw [transfer, get_bind, hregion]
  dsimp only
  rw [if_pos hholds]
  refine (bind_ok (outcome_ok hpermit b)).trans ?_
  cases region.kind with
  | rom | ram | mapped => rfl

theorem exchange_inside (address : Word) (width : Width) (store : Option Word) {offset : Nat}
    (ha : address.toNat = b.memory.ram.base.toNat + offset)
    (hl : offset + width.bytes ≤ b.memory.ram.size) :
    ∃ a b', (exchange address width store).run b = .ok a b' := by
  have hread := outcome_ok (ByteStore.read_ok ha hl) b
  rw [exchange, get_bind]
  cases store with
  | none => exact ⟨_, b, bind_ok hread⟩
  | some value =>
    have hwrite := onMemory_ok (b := b) (PagedMemory.onRam_ok (ByteStore.write_ok ha hl value))
    exact ⟨_, _, (bind_ok hread).trans (bind_ok hwrite)⟩

/-- A rejected access is routed as the ranges say, whatever they say about other addresses. -/
theorem routed_nowhere {ranges : RegionKind → Word × Word}
    (hnone : ¬ ∃ k, CoversAll (ranges k) t.address t.width) :
    Routed ranges t (.error (.memoryOutOfBounds t.address) : Except Fault Word) where
  outOfBounds a := ⟨fun he => by cases he; exact ⟨rfl, hnone⟩, fun h => by rw [h.1]⟩
  readOnly hcovers := absurd ⟨_, hcovers⟩ hnone
  rom hcovers := absurd ⟨_, hcovers⟩ hnone
  ram hcovers := absurd ⟨_, hcovers⟩ hnone

/-- An access that one range has is routed as that range demands. -/
theorem routed_within {ranges : RegionKind → Word × Word} {k : RegionKind}
    (hall : CoversAll (ranges k) t.address t.width)
    (hother : ∀ l, CoversAll (ranges l) t.address t.width → l = k)
    (hinside : ∀ a, r ≠ .error (.memoryOutOfBounds a))
    (hreadOnly : k = .rom → t.access = .write → r = .error (.writeToReadOnly t.address))
    (hrom : k = .rom → t.access ≠ .write → ∃ a, r = .ok a) (hram : k = .ram → ∃ a, r = .ok a) :
    Routed ranges t r where
  outOfBounds a := ⟨fun he => absurd he (hinside a), fun h => absurd ⟨k, hall⟩ h.2⟩
  readOnly hcovers := hreadOnly (hother _ hcovers).symm
  rom hcovers := hrom (hother _ hcovers).symm
  ram hcovers := hram (hother _ hcovers).symm

section
variable {window : Word × Word} (hholds : region.holds t.address t.width = true)
  (hregion : b.regions.regionOf? t.address = some region) (h : Yields (transfer t) b r b')
include hholds hregion h

theorem serves_rom (hk : region.kind = .rom)
    (hall : CoversAll (deviceRanges b.rom b.memory.ram window .rom) t.address t.width) :
    if t.access = .write then r = .error (.writeToReadOnly t.address) else ∃ a, r = .ok a := by
  by_cases hwrite : t.access = .write
  · rw [if_pos hwrite]
    have hpermit : region.kind.permit t.access t.address = .error (.writeToReadOnly t.address) := by
      rw [hk, hwrite]
      rfl
    exact (h.eq_of_error (transfer_forbidden hregion hholds hpermit)).1
  · rw [if_neg hwrite]
    have hpermit : region.kind.permit t.access t.address = .ok () := by
      rw [hk]
      cases haccess : t.access with
      | write => exact absurd haccess hwrite
      | read | execute => rfl
    obtain ⟨offset, ha, hl⟩ := ByteStore.offset_of_coversAll hall
    exact ⟨_, (h.unique (transfer_rom hregion hk hholds hpermit)).1.trans (ByteStore.read_ok ha hl)⟩

theorem serves_ram (hk : region.kind = .ram)
    (hall : CoversAll (deviceRanges b.rom b.memory.ram window .ram) t.address t.width) :
    ∃ a, r = .ok a := by
  have hpermit : region.kind.permit t.access t.address = .ok () := by rw [hk]; rfl
  obtain ⟨offset, ha, hl⟩ := ByteStore.offset_of_coversAll hall
  obtain ⟨a, b₁, hexchange⟩ := exchange_inside t.address t.width t.store ha hl
  have hserved := transfer_served hregion hholds hpermit
  rw [hk] at hserved
  exact ⟨a, (h.eq_of_ok (hserved.trans hexchange)).1⟩

/-- The frame of a page is inside the RAM, so nothing is out of bounds behind the window. -/
theorem serves_mapped (hr : Represents b v) (hk : region.kind = .mapped) (a : Word) :
    r ≠ .error (.memoryOutOfBounds a) := by
  rintro rfl
  obtain ⟨r₁, b₁, v', hx, hy, -⟩ := mirrors_transfer hr t
  obtain ⟨rfl, -⟩ := h.unique hx
  obtain ⟨m, hm, -⟩ := Virtual.Bus.transfer_mapped (hr.regions ▸ hregion) hk hholds hy
  exact (Virtual.transferMapped_denied hm).ne_outOfBounds a rfl

end

theorem first_covered {range : Word × Word} (h : CoversAll range t.address t.width) :
    Covers range t.address.toNat :=
  h 0 (by cases t.width <;> decide)

/-- What is served, by whichever device, is not found out of bounds there. -/
theorem Represents.routed_held (hr : Represents b v) {window : Word × Word} {k : RegionKind}
    (hregion : b.regions.regionOf? t.address =
      some (ofRange k (deviceRanges b.rom b.memory.ram window k)))
    (hholds : (ofRange k (deviceRanges b.rom b.memory.ram window k)).holds t.address t.width = true)
    (hall : CoversAll (deviceRanges b.rom b.memory.ram window k) t.address t.width)
    (hother : ∀ l, CoversAll (deviceRanges b.rom b.memory.ram window l) t.address t.width → l = k)
    (h : Yields (transfer t) b r b') : Routed (deviceRanges b.rom b.memory.ram window) t r := by
  cases k with
  | rom =>
    have hserves := serves_rom hholds hregion h rfl hall
    refine routed_within hall hother (fun a => ?_) (fun _ hwrite => ?_) (fun _ hread => ?_) nofun
    · split at hserves
      · rw [hserves]
        nofun
      · obtain ⟨w, rfl⟩ := hserves
        nofun
    · rwa [if_pos hwrite] at hserves
    · rwa [if_neg hread] at hserves
  | ram =>
    obtain ⟨w, rfl⟩ := serves_ram hholds hregion h rfl hall
    exact routed_within hall hother (fun _ => nofun) nofun nofun fun _ => ⟨w, rfl⟩
  | mapped =>
    exact routed_within hall hother (serves_mapped hholds hregion h hr rfl) nofun nofun nofun

theorem Represents.routed (hr : Represents b v) {window : Word × Word}
    (hlaid : RegionMap.ofRanges (b.rom.base, UInt32.ofNat b.rom.size)
      (b.memory.ram.base, UInt32.ofNat b.memory.ram.size) window = .ok b.regions)
    (h : Yields (transfer t) b r b') : Routed (deviceRanges b.rom b.memory.ram window) t r := by
  have hmap : RegionMap.ofRanges (deviceRanges b.rom b.memory.ram window .rom)
    (deviceRanges b.rom b.memory.ram window .ram) (deviceRanges b.rom b.memory.ram window .mapped) =
    .ok b.regions := hlaid
  have hadmissible := RegionMap.ofRanges_iff_admissible.mp ⟨_, hmap⟩
  generalize hranges : deviceRanges b.rom b.memory.ram window = ranges at hmap hadmissible ⊢
  -- the first byte decides: the one range that has it must have the others too
  by_cases hserved : ∃ k, Covers (ranges k) t.address.toNat
  · obtain ⟨k, hk⟩ := hserved
    have hregion := RegionMap.regionOf?_of_covers hmap hk
    have hother : ∀ l, CoversAll (ranges l) t.address t.width → l = k := by
      intro l hl
      by_cases hlk : l = k
      · exact hlk
      · exact absurd ⟨first_covered hl, hk⟩ (hadmissible.disjoint l k hlk _)
    have hholds := holds_ofRange (k := k) (hadmissible.sound k) t.address t.width
    by_cases hall : CoversAll (ranges k) t.address t.width
    · subst hranges
      exact hr.routed_held hregion (hholds.mpr hall) hall hother h
    · have hnone : ¬ ∃ k, CoversAll (ranges k) t.address t.width :=
        fun ⟨l, hl⟩ => hall (hother l hl ▸ hl)
      obtain ⟨rfl, -⟩ :=
        h.eq_of_error (transfer_nowhere (.inr ⟨_, hregion, fun hheld => hall (hholds.mp hheld)⟩))
      exact routed_nowhere hnone
  · have hnone : ¬ ∃ k, CoversAll (ranges k) t.address t.width :=
      fun ⟨l, hl⟩ => hserved ⟨l, first_covered hl⟩
    have hregion := RegionMap.regionOf?_none hmap fun k hk => hserved ⟨k, hk⟩
    obtain ⟨rfl, -⟩ := h.eq_of_error (transfer_nowhere (.inl hregion))
    exact routed_nowhere hnone

end Bus

theorem Operation.step_transfer {op : Operation} {t : Transfer} (ht : op.transfer? = some t)
    {b b' : Bus} {r : Except Fault Answer} (h : Operation.Step op b r b') :
    ∃ (r₀ : Except Fault Word) (g : Word → Answer), Yields (Bus.transfer t) b r₀ b' ∧
      r = r₀.map g := by
  cases op with
  | read | fetch | swap =>
    cases ht
    obtain ⟨r₀, hr, hx⟩ := Yields.of_map (g := Answer.value) h
    exact ⟨r₀, _, hx, hr⟩
  | write address width value =>
    cases ht
    obtain ⟨r₁, hr, hdiscard⟩ := Yields.of_map (g := fun _ : Unit => Answer.done) h
    obtain ⟨r₀, hr₁, hx⟩ := Yields.of_map (g := fun _ : Word => ()) hdiscard
    refine ⟨r₀, fun _ => .done, hx, ?_⟩
    rw [hr, hr₁]
    cases r₀ <;> rfl
  | paging | loadImage | setPrivilege => cases ht

/-! ## Read-only memory -/

theorem Bus.executeNext_rom {b b' : Bus} {s : Registers} {r : Except Fault Effects}
    (h : Yields (executeNext s) b r b') : b'.rom = b.rom := by
  have htransfer : ∀ {t : Transfer} {r : Except Fault Word} {b b' : Bus},
      Yields (transfer t) b r b' → b'.rom = b.rom := by
    intro t r b b' h
    obtain ⟨m, rfl⟩ := transfer_frame h
    rfl
  rcases executeNext_cases h with ⟨e, -, hfetch⟩ | ⟨w, b₁, hfetch, rfl | ⟨t, r₁, effects, ht, -⟩⟩
  · exact htransfer hfetch
  · exact htransfer hfetch
  · exact (htransfer ht).trans (htransfer hfetch)

def MachineOperation.Accesses : MachineOperation → Prop
  | .step | .run _ => True
  | .host (.bus op) => op.transfer?.isSome
  | _ => False

namespace Machine

variable {m m' : Machine}

theorem step_rom (m : Machine) : m.step.2.bus.rom = m.bus.rom := by
  rcases step_cases m with hstep | ⟨b', ⟨e, hx, hstep⟩ | ⟨f, hx, hstep⟩⟩
  · rw [hstep]
  · rw [hstep, retire_bus]
    exact Bus.executeNext_rom hx
  · rw [hstep]
    exact Bus.executeNext_rom hx

theorem access_rom {op : MachineOperation} {r : Except Fault Answer} (hop : op.Accesses)
    (h : op.Step m r m') : m'.bus.rom = m.bus.rom := by
  cases op with
  | host op =>
    cases op with
    | bus op =>
      obtain ⟨t, ht⟩ := Option.isSome_iff_exists.mp hop
      obtain ⟨r₁, b', hstep⟩ := yields_exists op.perform m.bus
      obtain ⟨-, rfl⟩ := h.unique (onBus_run (x := (HostOperation.bus op).perform) hstep)
      obtain ⟨r₀, g, hx, -⟩ := Operation.step_transfer ht hstep
      obtain ⟨memory, rfl⟩ := Bus.transfer_frame hx
      rfl
    | store => exact hop.elim
  | step =>
    have hchange : Yields (MachineOperation.change fun m => m.step.2) m r m' := h
    rw [(hchange.eq_of_ok rfl).2]
    exact step_rom m
  | run budget =>
    have hchange : Yields (MachineOperation.change fun m => (m.run budget).2) m r m' := h
    rw [(hchange.eq_of_ok rfl).2]
    exact steps_preserve (P := fun n => n.bus.rom = m.bus.rom) (fun n hn =>
      (step_rom n).trans hn) budget rfl
  | reset | loadProgram | setRegister | setPc | setFlags | setFlag => exact hop.elim

theorem run_rom {es : List (Event Machine MachineOperation Answer)}
    (hrun : Run MachineOperation.Step m es m') (hops : ∀ e ∈ es, e.operation.Accesses) :
    m'.bus.rom = m.bus.rom := by
  induction hrun with
  | done => rfl
  | next hstep _ ih =>
    have hfirst := access_rom (hops _ List.mem_cons_self) hstep
    exact (ih fun e he => hops e (List.mem_cons_of_mem _ he)).trans hfirst

end Machine

/-! ## Routing as a whole -/

section
variable {ram : Ram} {rom : Rom} {disk : Disk} {window : Word × Word} {ranges : PageRanges}
    {b b' : Bus} {es : List (Event Bus HostOperation Answer)}

/-- Along a run the devices stay where they are, and so do the regions. -/
theorem Bus.laid_of_run (hb : Bus.ofDevices ram rom disk window ranges = .ok b)
    (hrun : Run HostOperation.Step b es b') :
    deviceRanges b'.rom b'.memory.ram window = deviceRanges rom ram window ∧
      RegionMap.ofRanges (b'.rom.base, UInt32.ofNat b'.rom.size)
      (b'.memory.ram.base, UInt32.ofNat b'.memory.ram.size) window = .ok b'.regions := by
  obtain ⟨regions, hregions, -, rfl⟩ := Bus.ofDevices_ok hb
  have hI := PagedMemory.stable_ramAt ram.base ram.size
  have hkept : Within (PagedMemory.RamAt ram.base ram.size) _ b' :=
    hrun.keeps (fun op s r s' => keeps_host hI.enduring (fun _ _ => hI.step fun _ _ h => h) s r s')
      ⟨⟨rfl, rfl⟩, rfl, rfl, rfl⟩
  obtain ⟨⟨hbase, hsize⟩, hsame, hromBase, hromSize⟩ := hkept
  refine ⟨?_, ?_⟩
  · funext k
    unfold deviceRanges
    rw [hbase, hsize, hromBase, hromSize]
  · rw [hbase, hsize, hromBase, hromSize, hsame]
    exact hregions

theorem Bus.access_routed (hb : Bus.ofDevices ram rom disk window ranges = .ok b)
    (hdisk : disk.base = 0) (hrun : Run HostOperation.Step b es b')
    (hpids : creations es < 2 ^ 32 - 1)
    (hcounts : ∀ e ∈ es, PagedMemory.WithinCounts e.state.memory) {op : Operation} {t : Transfer}
    {r : Except Fault Answer} {b'' : Bus} (ht : op.transfer? = some t)
    (hstep : Operation.Step op b' r b'') : Routed (deviceRanges rom ram window) t r := by
  obtain ⟨v, hr⟩ := Bus.represents_of_run hb hdisk hrun hpids hcounts
  obtain ⟨hranges, hlaid⟩ := Bus.laid_of_run hb hrun
  obtain ⟨r₀, g, hx, rfl⟩ := Operation.step_transfer ht hstep
  exact hranges ▸ (hr.routed hlaid hx).map g

end

/-- Three ranges make a map exactly if they are sound and disjoint, and an address then belongs to
the one region whose range has it. On a bus that was accepted an access is out of bounds exactly if
no range has all of its bytes, and else only ROM refuses it, if it writes, or the window, for want
of a page or a permission. Neither the core nor accesses of a host change ROM. -/
theorem routing_exact :
    (∀ ranges : RegionKind → Word × Word,
      ((∃ m, RegionMap.ofRanges (ranges .rom) (ranges .ram) (ranges .mapped) = .ok m) ↔
        RegionMap.Admissible ranges) ∧
      ∀ m, RegionMap.ofRanges (ranges .rom) (ranges .ram) (ranges .mapped) = .ok m →
      ∀ address : Word,
        (∀ k, Covers (ranges k) address.toNat → m.regionOf? address = some (ofRange k (ranges k))) ∧
          ((∀ k, ¬ Covers (ranges k) address.toNat) → m.regionOf? address = none)) ∧
    (∀ ram rom disk window ranges b es b', Bus.ofDevices ram rom disk window ranges = .ok b →
      disk.base = 0 → Run HostOperation.Step b es b' → creations es < 2 ^ 32 - 1 →
      (∀ e ∈ es, PagedMemory.WithinCounts e.state.memory) →
      ∀ op t r b'', op.transfer? = some t → Operation.Step op b' r b'' →
        Routed (deviceRanges rom ram window) t r) ∧
    ∀ m es m', Run MachineOperation.Step m es m' → (∀ e ∈ es, e.operation.Accesses) →
      m'.bus.rom = m.bus.rom := by
  refine ⟨fun ranges => ⟨RegionMap.ofRanges_iff_admissible, fun m hm address => ?_⟩, ?_, ?_⟩
  · exact ⟨fun k hk => RegionMap.regionOf?_of_covers hm hk, fun hnone =>
      RegionMap.regionOf?_none hm hnone⟩
  · intro ram rom disk window ranges b es b' hb hdisk hrun hpids hcounts op t r b'' ht hstep
    exact Bus.access_routed hb hdisk hrun hpids hcounts ht hstep
  · intro m es m' hrun hops
    exact Machine.run_rom hrun hops

/-! ## Two accesses at the edges of ROM -/

namespace OneWriter

open TwoReaders

theorem range_rom : (deviceRanges rom ram window .rom).2.toNat = 4096 := by
  change (UInt32.ofNat rom.size).toNat = 4096
  rw [show rom.size = 4096 from size_rom]
  rfl

theorem ends_after_rom : ¬ ∃ k, CoversAll (deviceRanges rom ram window k) 0xFFD .word := by
  rintro ⟨k, hk⟩
  have hfirst := hk 0 (by decide)
  cases k with
  | rom =>
    have hend := (hk 3 (by decide)).2
    rw [range_rom] at hend
    exact absurd hend (by decide)
  | ram => exact absurd hfirst.1 (by decide)
  | mapped => exact absurd hfirst.1 (by decide)

theorem ends_in_rom : CoversAll (deviceRanges rom ram window .rom) 0xFFC .word := by
  intro i hi
  refine ⟨Nat.zero_le _, ?_⟩
  rw [range_rom]
  exact Nat.add_lt_add_left hi 0xFFC

/-- A word that straddles the end of ROM is out of bounds, and the last word there is read-only. -/
theorem routed_at_rom_end :
    ∀ r b, (Operation.Step (.read 0xFFD .word) owning r b → r = .error (.memoryOutOfBounds 0xFFD)) ∧
    (Operation.Step (.write 0xFFC .word 1) owning r b → r = .error (.writeToReadOnly 0xFFC)) := by
  have hrouted :=
    routing_exact.2.1 _ _ _ _ _ _ _ _ bus_ofDevices rfl run
      (by decide : 1 < 2 ^ 32 - 1) withinCounts
  intro r b
  constructor
  · intro h
    exact ((hrouted _ _ _ _ rfl h).outOfBounds 0xFFD).mpr ⟨rfl, ends_after_rom⟩
  · intro h
    exact (hrouted _ _ _ _ rfl h).readOnly ends_in_rom rfl

end OneWriter

end PagedMachine

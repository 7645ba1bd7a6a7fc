import PagedMachine.Bus
import PagedMachine.Proofs.Representation

/-!
# A new memory

What is built from devices and page ranges that fit is consistent: every page is
free, none is counted, and nothing is mapped.
-/

namespace PagedMachine

theorem Pool.contains_foldr_insert (pages : List Nat) (page : Word) :
    (pages.foldr (fun n (free : Table Unit) => free.insert (UInt32.ofNat n) ()) .empty).contains
      page = true ↔ ∃ n ∈ pages, UInt32.ofNat n = page := by
  induction pages with
  | nil => simp [Table.contains, Table.find?_empty]
  | cons n pages ih =>
    rw [List.foldr_cons, Table.contains_insert, Bool.or_eq_true, decide_eq_true_eq, ih]
    simp only [List.mem_cons, exists_eq_or_imp]
    exact or_congr_left eq_comm

theorem Pool.isFree_ofRange (kind : PoolKind) (low high page : Word) :
    (ofRange kind low high).isFree page = true ↔ (ofRange kind low high).owns page = true := by
  rw [isFree, ofRange, contains_foldr_insert, owns, Bool.and_eq_true, decide_eq_true_eq,
    decide_eq_true_eq, UInt32.le_iff_toNat_le, UInt32.le_iff_toNat_le]
  dsimp only
  have hhigh := high.toNat_lt
  constructor
  · rintro ⟨n, hn, rfl⟩
    rw [List.mem_range'_1] at hn
    rw [UInt32.toNat_ofNat', Nat.mod_eq_of_lt (by omega)]
    omega
  · intro hp
    refine ⟨page.toNat, List.mem_range'_1.mpr (by omega), UInt32.ofNat_toNat⟩

namespace Paging

variable {ram : Ram} {disk : Disk} {ranges : PageRanges} {p : Paging}

def unmapped (disk : Disk) (ranges : PageRanges) : Paging where
  disk := disk
  userPool := .ofRange .user ranges.userLow ranges.userHigh
  kernelPool := .ofRange .kernel ranges.kernelLow ranges.kernelHigh
  diskPool :=
    if Disk.slotCount disk = 0 then .ofRange .disk 1 0
      else .ofRange .disk 0 (UInt32.ofNat (Disk.slotCount disk - 1))
  frameRefs := .empty
  slotRefs := .empty
  resident := []
  processes := .empty
  current := none
  nextPid := 1
  counters := .zero

structure Fits (ram : Ram) (ranges : PageRanges) : Prop where
  user : ranges.userLow ≤ ranges.userHigh
  userEnd : ranges.userHigh.toNat < Ram.pageCount ram
  kernel : ranges.kernelLow ≤ ranges.kernelHigh
  kernelEnd : ranges.kernelHigh.toNat < Ram.pageCount ram
  apart : ¬ (ranges.userLow ≤ ranges.kernelHigh ∧ ranges.kernelLow ≤ ranges.userHigh)

theorem checkRange_ok {pool : PoolKind} {low high : Word} {pages : Nat}
    (h : checkRange pool low high pages = .ok ()) : low ≤ high ∧ high.toNat < pages := by
  unfold checkRange at h
  split at h
  · cases h
  · split at h
    · cases h
    · exact ⟨UInt32.not_lt.mp ‹_›, Nat.not_le.mp ‹_›⟩

theorem ofDevices_ok (h : ofDevices ram disk ranges = .ok p) :
    Fits ram ranges ∧ p = unmapped disk ranges := by
  -- every check that fails refuses the devices, so all of them have passed
  unfold ofDevices at h
  by_cases hbase : ram.base.pageOffset ≠ 0
  · rw [if_pos hbase] at h
    cases h
  · rw [if_neg hbase] at h
    cases huser : checkRange .user ranges.userLow ranges.userHigh (Ram.pageCount ram) with
    | error e =>
      rw [huser] at h
      cases h
    | ok u =>
      cases hkernel : checkRange .kernel ranges.kernelLow ranges.kernelHigh (Ram.pageCount ram) with
      | error e =>
        rw [huser, hkernel] at h
        cases h
      | ok u =>
        rw [huser, hkernel] at h
        by_cases hover : ranges.userLow ≤ ranges.kernelHigh ∧ ranges.kernelLow ≤ ranges.userHigh
        · rw [if_pos hover] at h
          cases h
        · rw [if_neg hover] at h
          obtain ⟨hu, hue⟩ := checkRange_ok huser
          obtain ⟨hk, hke⟩ := checkRange_ok hkernel
          exact ⟨⟨hu, hue, hk, hke, hover⟩, (Except.ok.inj h).symm⟩

theorem isFree_pool_unmapped (disk : Disk) (ranges : PageRanges) (kind : PoolKind) (page : Word) :
    ((unmapped disk ranges).pool kind).isFree page = true ↔
    ((unmapped disk ranges).pool kind).owns page = true := by
  cases kind with
  | user => exact Pool.isFree_ofRange ..
  | kernel => exact Pool.isFree_ofRange ..
  | disk =>
    unfold unmapped pool
    dsimp only
    split
    · exact Pool.isFree_ofRange ..
    · exact Pool.isFree_ofRange ..

theorem books_unmapped (disk : Disk) (ranges : PageRanges) :
    Books (unmapped disk ranges) (unmapped disk ranges).mappingsOf where
  counted l := by cases l <;> rfl
  free l ho := ⟨fun _ => rfl, fun _ => (isFree_pool_unmapped disk ranges _ _).mpr ho⟩
  owned l hl := absurd rfl hl
  pooled k page hp := (isFree_pool_unmapped disk ranges k page).mp hp
  nodup := .nil
  queued frame := ⟨nofun, fun hf => absurd rfl hf⟩

end Paging

namespace PagedMemory

variable {ram : Ram} {disk : Disk} {ranges : PageRanges} {p : Paging}

theorem owns_iff {pool : Pool} {page : Word} :
    pool.owns page = true ↔ pool.low.toNat ≤ page.toNat ∧ page.toNat ≤ pool.high.toNat := by
  rw [Pool.owns, Bool.and_eq_true, decide_eq_true_eq, decide_eq_true_eq, UInt32.le_iff_toNat_le,
    UInt32.le_iff_toNat_le]

theorem slot_lt_unmapped {slot : Word} (hs : (Paging.unmapped disk ranges).diskPool.owns slot) :
    slot.toNat < Disk.slotCount disk := by
  change (if Disk.slotCount disk = 0 then Pool.ofRange .disk 1 0
    else Pool.ofRange .disk 0 (UInt32.ofNat (Disk.slotCount disk - 1))).owns slot = true at hs
  have hcount : Disk.slotCount disk < 2 ^ 32 := Nat.lt_of_le_of_lt (Nat.div_le_self ..) disk.size_lt
  split at hs
  · obtain ⟨h₁, h₀⟩ := owns_iff.mp hs
    exact absurd (Nat.le_trans h₁ h₀) (by decide)
  · have hle := (owns_iff.mp hs).2
    change slot.toNat ≤ (UInt32.ofNat (Disk.slotCount disk - 1)).toNat at hle
    rw [UInt32.toNat_ofNat', Nat.mod_eq_of_lt (by omega)] at hle
    omega

theorem layout_unmapped (h : Paging.Fits ram ranges) (hram : ram.base.toNat + ram.size ≤ 2 ^ 32)
    (hdisk : disk.base = 0) : Layout ⟨Paging.unmapped disk ranges, ram⟩ := by
  refine ⟨fun k => ?_, fun f hu hk => ?_, fun k hk => ?_, fun k f hk hf => ?_, fun s hs =>
    ?_, hram, hdisk⟩
  · cases k with
    | user => rfl
    | kernel => rfl
    | disk =>
      unfold Paging.unmapped Paging.pool
      dsimp only
      split <;> rfl
  · obtain ⟨hu₁, hu₂⟩ := owns_iff.mp hu
    obtain ⟨hk₁, hk₂⟩ := owns_iff.mp hk
    refine h.apart ⟨UInt32.le_iff_toNat_le.mpr (Nat.le_trans hu₁ hk₂),
      UInt32.le_iff_toNat_le.mpr (Nat.le_trans hk₁ hu₂)⟩
  · cases k with
    | user => exact ⟨ranges.userLow, owns_iff.mpr ⟨Nat.le_refl _, UInt32.le_iff_toNat_le.mp h.user⟩⟩
    | kernel =>
      exact ⟨ranges.kernelLow, owns_iff.mpr ⟨Nat.le_refl _, UInt32.le_iff_toNat_le.mp h.kernel⟩⟩
    | disk => exact absurd rfl hk
  · cases k with
    | user => exact Nat.lt_of_le_of_lt (owns_iff.mp hf).2 h.userEnd
    | kernel => exact Nat.lt_of_le_of_lt (owns_iff.mp hf).2 h.kernelEnd
    | disk => exact absurd rfl hk
  · exact slot_lt_unmapped hs

theorem consistent_unmapped (h : Paging.Fits ram ranges) (hram : ram.base.toNat + ram.size ≤ 2 ^ 32)
    (hdisk : disk.base = 0) : Consistent ⟨Paging.unmapped disk ranges, ram⟩ where
  layout := layout_unmapped h hram hdisk
  books := Paging.books_unmapped disk ranges
  current := nofun
  fresh := nofun

theorem represents_unmapped (disk : Disk) (ranges : PageRanges) (ram : Ram) :
    Represents ⟨Paging.unmapped disk ranges, ram⟩ Virtual.Memory.initial :=
  ⟨fun _ => 0, fun _ _ hk => absurd rfl hk, rfl, fun _ hl => absurd rfl hl, fun _ hl =>
    absurd rfl hl, rfl, rfl⟩

end PagedMemory

/-- A bus that was accepted is consistent, and represents one with nothing mapped. -/
theorem Bus.ofDevices_ok {ram : Ram} {rom : Rom} {disk : Disk} {window : Word × Word}
    {ranges : PageRanges} {b : Bus} (h : Bus.ofDevices ram rom disk window ranges = .ok b) :
    ∃ regions, RegionMap.ofRanges (rom.base, UInt32.ofNat rom.size)
      (ram.base, UInt32.ofNat ram.size) window = .ok regions ∧
        Paging.Fits ram ranges ∧
        b = ⟨⟨Paging.unmapped disk ranges, ram⟩, rom, regions, .kernel⟩ := by
  unfold ofDevices at h
  cases hregions :
    RegionMap.ofRanges (rom.base, UInt32.ofNat rom.size)
      (ram.base, UInt32.ofNat ram.size) window with
  | error e =>
    rw [hregions] at h
    cases h
  | ok regions =>
    cases hpaging : Paging.ofDevices ram disk ranges with
    | error e =>
      rw [hregions, hpaging] at h
      cases h
    | ok p =>
      rw [hregions, hpaging] at h
      obtain ⟨hfits, rfl⟩ := Paging.ofDevices_ok hpaging
      exact ⟨regions, rfl, hfits, (Except.ok.inj h).symm⟩

/-- A RAM whose region was accepted does not wrap. -/
theorem RegionMap.ram_fits {rom ram window : Word × Word} {regions : RegionMap}
    (h : RegionMap.ofRanges rom ram window = .ok regions) : ram.1.toNat + ram.2.toNat ≤ 2 ^ 32 := by
  unfold ofRanges at h
  cases hrom : Region.ofSize .rom rom.1 rom.2 with
  | error e =>
    rw [hrom] at h
    cases h
  | ok first =>
    cases hram : Region.ofSize .ram ram.1 ram.2 with
    | error e =>
      rw [hrom, hram] at h
      cases h
    | ok second =>
      unfold Region.ofSize at hram
      split at hram
      · cases hram
      · split at hram
        · assumption
        · cases hram

end PagedMachine

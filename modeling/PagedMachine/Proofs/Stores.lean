import PagedMachine.Memory.Device
import PagedMachine.Proofs.Behaviour

/-!
# Bytes, frames and slots

A store is read and written through offsets from its base. A frame of a RAM that
does not wrap is the row of 4096 bytes at 4096 times its number, and so is a
slot of a disk. No access to one of them faults.
-/

namespace PagedMachine

theorem Width.one_le_bytes (width : Width) : 1 ≤ width.bytes := by cases width <;> decide

theorem Width.bytes_le_four (width : Width) : width.bytes ≤ 4 := by cases width <;> decide

theorem size_writeSlice (bs : List UInt8) :
    ∀ (bytes : Array UInt8) (offset : Nat), (writeSlice bytes offset bs).size = bytes.size := by
  induction bs with
  | nil => intro _ _; rfl
  | cons b bs ih => intro bytes offset; rw [writeSlice, ih, Array.size_setIfInBounds]

theorem getD_writeSlice (bs : List UInt8) : ∀ (bytes : Array UInt8) (offset i : Nat),
    offset + bs.length ≤ bytes.size → (writeSlice bytes offset bs).getD i 0 =
      if offset ≤ i ∧ i < offset + bs.length then bs.getD (i - offset) 0 else bytes.getD i 0 := by
  induction bs with
  | nil =>
    intro bytes offset i _
    have : ¬ (offset ≤ i ∧ i < offset + ([] : List UInt8).length) := by
      simp only [List.length_nil]; omega
    rw [writeSlice, if_neg this]
  | cons b bs ih =>
    intro bytes offset i h
    simp only [List.length_cons] at h ⊢
    rw [writeSlice, ih _ _ _ (by rw [Array.size_setIfInBounds]; omega)]
    -- the first byte is stored below all that the rest stores
    by_cases hi : i = offset
    · subst hi
      have hlt : i < bytes.size := by omega
      rw [if_neg (by omega), if_pos (by omega)]
      simp [Array.getD, hlt]
    · have hset : (bytes.setIfInBounds offset b).getD i 0 = bytes.getD i 0 := by
        simp [Array.getD_eq_getD_getElem?, Array.getElem?_setIfInBounds_ne (Ne.symm hi)]
      rw [hset]
      by_cases hin : offset + 1 ≤ i ∧ i < offset + 1 + bs.length
      · rw [if_pos hin, if_pos (by omega)]
        obtain ⟨j, rfl⟩ : ∃ j, i = offset + 1 + j := ⟨i - (offset + 1), by omega⟩
        rw [show offset + 1 + j - (offset + 1) =
          j by omega, show offset + 1 + j - offset = j + 1 by omega]
        rfl
      · rw [if_neg hin, if_neg (by omega)]

namespace ByteStore

def byte (s : ByteStore) (offset : Nat) : UInt8 := s.bytes.getD offset 0

def slice (s : ByteStore) (offset length : Nat) : List UInt8 :=
  (List.range length).map fun i => s.byte (offset + i)

def patch (s : ByteStore) (offset : Nat) (bytes : List UInt8) : ByteStore :=
  { s with bytes := writeSlice s.bytes offset bytes }

@[simp] theorem base_patch (s : ByteStore) (offset : Nat) (bs : List UInt8) :
    (s.patch offset bs).base = s.base := rfl

@[simp] theorem size_patch (s : ByteStore) (offset : Nat) (bs : List UInt8) :
    (s.patch offset bs).size = s.size := by
  simp [size, patch, size_writeSlice]

theorem size_le (s : ByteStore) : s.size ≤ s.bytes.size := Nat.mod_le _ _

theorem size_zeroed (base : Word) {size : Nat} (h : size < 2 ^ 32) :
    (zeroed base size).size = size := by
  rw [ByteStore.size, zeroed, Array.size_replicate, Nat.mod_eq_of_lt h]

theorem size_lt (s : ByteStore) : s.size < 2 ^ 32 := Nat.mod_lt _ (by decide)

@[simp] theorem length_slice (s : ByteStore) (offset length : Nat) :
    (s.slice offset length).length = length := by
  simp [slice]

theorem getD_slice (s : ByteStore) (offset : Nat) {length i : Nat} (h : i < length) :
    (s.slice offset length).getD i 0 = s.byte (offset + i) := by
  simp [slice, List.getD, h]

theorem byte_patch {s : ByteStore} {offset : Nat} {bs : List UInt8}
    (h : offset + bs.length ≤ s.size) (i : Nat) :
    (s.patch offset bs).byte i =
      if offset ≤ i ∧ i < offset + bs.length then bs.getD (i - offset) 0 else s.byte i :=
  getD_writeSlice bs s.bytes offset i (Nat.le_trans h s.size_le)

/-- The pages of a store after one of them was overwritten. -/
theorem byte_patch_page {s : ByteStore} {page : List UInt8} {n : Word} {offset : Nat}
    (hn : n.toNat * pageSize + pageSize ≤ s.size) (hp : page.length = pageSize)
    (ho : offset < pageSize) (k : Word) :
    (s.patch (n.toNat * pageSize) page).byte (k.toNat * pageSize + offset) =
      if k = n then page.getD offset 0 else s.byte (k.toNat * pageSize + offset) := by
  rw [byte_patch (by omega), hp]
  by_cases hk : k = n
  · subst hk
    rw [if_pos (by omega), if_pos rfl, Nat.add_sub_cancel_left]
  · have hne : k.toNat ≠ n.toNat := fun e => hk (UInt32.toNat_inj.mp e)
    rw [if_neg (by unfold pageSize at *; omega), if_neg hk]

section
variable {s : ByteStore} {address : Word} {offset length : Nat}
  (ha : address.toNat = s.base.toNat + offset) (hl : offset + length ≤ s.size)
include ha hl

theorem span_ok : s.span address length = .ok offset := by
  have hle : s.base ≤ address := UInt32.le_iff_toNat_le.mpr (by omega)
  rw [span, show address.toNat - s.base.toNat = offset by omega, if_pos ⟨hle, hl⟩]

theorem readBytes_ok : s.readBytes address length = .ok (s.slice offset length) := by
  rw [readBytes, span_ok ha hl]
  refine congrArg Except.ok (List.ext_getElem ?_ fun i h₁ h₂ => ?_)
  · have := s.size_le
    simp only [Array.length_toList, Array.size_extract, length_slice]
    omega
  · rw [length_slice] at h₂
    have hlt : offset + i < s.bytes.size := by have := s.size_le; omega
    simp [slice, byte, Array.getD, hlt]

end

theorem read_ok {s : ByteStore} {address : Word} {offset : Nat} {width : Width}
    (ha : address.toNat = s.base.toNat + offset) (hl : offset + width.bytes ≤ s.size) :
    s.read address width =
    .ok (UInt32.ofNat (PagedMachine.ofBytes (s.slice offset width.bytes))) := by
  rw [read, readBytes_ok ha hl]; rfl

theorem writeBytes_ok {s : ByteStore} {address : Word} {offset : Nat} {bs : List UInt8}
    (ha : address.toNat = s.base.toNat + offset) (hl : offset + bs.length ≤ s.size) :
    (writeBytes address bs).run s = .ok () (s.patch offset bs) := by
  rw [writeBytes, get_bind, bind_ok (ofExcept_ok (span_ok ha hl) s)]
  rfl

theorem write_ok {s : ByteStore} {address : Word} {offset : Nat} {width : Width}
    (ha : address.toNat = s.base.toNat + offset) (hl : offset + width.bytes ≤ s.size)
    (value : Word) :
    (write address width value).run s = .ok () (s.patch offset (toBytes width.bytes value.toNat)) :=
  writeBytes_ok ha (by rwa [length_toBytes])

/-! What lies outside a store is out of bounds, and what is stored inside leaves it where it is. -/

theorem span_error {s : ByteStore} {address : Word} {length : Nat} {e : Fault}
    (h : s.span address length = .error e) : e = .memoryOutOfBounds address := by
  unfold span at h
  split at h
  · cases h
  · exact (Except.error.inj h).symm

theorem read_error {s : ByteStore} {address : Word} {width : Width} {e : Fault}
    (h : s.read address width = .error e) : e = .memoryOutOfBounds address := by
  unfold read readBytes at h
  cases hspan : s.span address width.bytes with
  | ok offset => simp [hspan, Except.map] at h
  | error e' =>
    rw [hspan] at h
    cases h
    exact span_error hspan

section
variable {s s' : ByteStore} {address : Word} {bytes : List UInt8}

theorem writeBytes_run_ok {offset : Nat} (h : s.span address bytes.length = .ok offset) :
    (writeBytes address bytes).run s = .ok () (s.patch offset bytes) := by
  rw [writeBytes, get_bind, h]
  rfl

theorem writeBytes_run_error {e : Fault} (h : s.span address bytes.length = .error e) :
    (writeBytes address bytes).run s = .error e s := by
  rw [writeBytes, get_bind, h]
  rfl

theorem extent_of_writeBytes {r : Except Fault Unit}
    (h : Yields (writeBytes address bytes) s r s') : s'.base = s.base ∧ s'.size = s.size := by
  cases hspan : s.span address bytes.length with
  | error e =>
    have he : Yields (writeBytes address bytes) s (.error e) s := writeBytes_run_error hspan
    rw [(h.unique he).2]
    exact ⟨rfl, rfl⟩
  | ok offset =>
    have he : Yields (writeBytes address bytes) s (.ok ()) (s.patch offset bytes) :=
      writeBytes_run_ok hspan
    rw [(h.unique he).2]
    exact ⟨base_patch .., size_patch ..⟩

theorem error_of_writeBytes {e : Fault} (h : Yields (writeBytes address bytes) s (.error e) s') :
    e = .memoryOutOfBounds address := by
  cases hspan : s.span address bytes.length with
  | error e' =>
    have he : Yields (writeBytes address bytes) s (.error e') s := writeBytes_run_error hspan
    rw [Except.error.inj (h.unique he).1, span_error hspan]
  | ok offset =>
    have he : Yields (writeBytes address bytes) s (.ok ()) (s.patch offset bytes) :=
      writeBytes_run_ok hspan
    cases (h.unique he).1

end

end ByteStore

/-! ## Frames -/

namespace Ram

theorem pageCount_congr {ram ram' : Ram} (h : ram.size = ram'.size) :
    pageCount ram = pageCount ram' :=
  congrArg (· / pageSize) h

theorem pageCount_patch (ram : Ram) (offset : Nat) (bytes : List UInt8) :
    pageCount (ram.patch offset bytes) = pageCount ram := pageCount_congr (ByteStore.size_patch ..)

theorem lt_of_pageCount {ram : Ram} {frame : Word} (h : frame.toNat < pageCount ram) :
    frame.toNat * pageSize + pageSize ≤ ram.size := by
  unfold pageCount pageSize at *
  omega

/-- The address of a byte of a frame, which wraps with the RAM. -/
theorem toNat_frameAddress_mod {ram : Ram} {frame : Word} (hf : frame.toNat < pageCount ram)
    (offset : Nat) :
    (frameAddress ram frame + UInt32.ofNat offset).toNat =
      (ram.base.toNat + (frame.toNat * pageSize + offset)) % 2 ^ 32 := by
  have hlt := lt_of_pageCount hf
  have hfa : (Word.pageAddress frame).toNat = frame.toNat * pageSize := by
    rw [Word.pageAddress, UInt32.toNat_ofNat', Nat.mod_eq_of_lt]
    have := ram.size_lt
    unfold pageSize at *
    omega
  rw [frameAddress, UInt32.toNat_add, UInt32.toNat_add, hfa, UInt32.toNat_ofNat']
  unfold pageSize at *
  omega

theorem toNat_frameAddress_add {ram : Ram} {frame : Word} {offset : Nat}
    (hram : ram.base.toNat + ram.size ≤ 2 ^ 32) (hf : frame.toNat < pageCount ram)
    (ho : offset < pageSize) : (frameAddress ram frame + UInt32.ofNat offset).toNat =
    ram.base.toNat + (frame.toNat * pageSize + offset) := by
  have hlt := lt_of_pageCount hf
  rw [toNat_frameAddress_mod hf, Nat.mod_eq_of_lt (by omega)]

theorem toNat_frameAddress {ram : Ram} {frame : Word} (hram : ram.base.toNat + ram.size ≤ 2 ^ 32)
    (hf : frame.toNat < pageCount ram) :
    (frameAddress ram frame).toNat = ram.base.toNat + frame.toNat * pageSize := by
  have h : (frameAddress ram frame + UInt32.ofNat 0).toNat = _ :=
    toNat_frameAddress_add hram hf (by decide)
  simpa using h

theorem readFrame_ok {ram : Ram} {frame : Word} (hram : ram.base.toNat + ram.size ≤ 2 ^ 32)
    (hf : frame.toNat < pageCount ram) :
    readFrame ram frame = .ok (ram.slice (frame.toNat * pageSize) pageSize) :=
  ByteStore.readBytes_ok (toNat_frameAddress hram hf) (lt_of_pageCount hf)

theorem writeFrame_ok {ram : Ram} {frame : Word} {page : List UInt8}
    (hram : ram.base.toNat + ram.size ≤ 2 ^ 32) (hf : frame.toNat < pageCount ram)
    (hp : page.length = pageSize) :
    (writeFrame frame page).run ram = .ok () (ram.patch (frame.toNat * pageSize) page) := by
  have hlt := lt_of_pageCount hf
  exact ByteStore.writeBytes_ok (toNat_frameAddress hram hf) (by omega)

theorem copyFrame_ok {ram : Ram} {source target : Word} (hram : ram.base.toNat + ram.size ≤ 2 ^ 32)
    (hs : source.toNat < pageCount ram) (ht : target.toNat < pageCount ram) :
    (copyFrame source target).run ram =
      .ok ()
      (ram.patch (target.toNat * pageSize) (ram.slice (source.toNat * pageSize) pageSize)) := by
  rw [copyFrame, get_bind, bind_ok (ofExcept_ok (readFrame_ok hram hs) ram)]
  exact writeFrame_ok hram ht (by simp)

end Ram

/-! ## Slots -/

namespace Disk

theorem lt_of_slotCount {disk : Disk} {slot : Word} (h : slot.toNat < slotCount disk) :
    slot.toNat * pageSize + pageSize ≤ disk.size := by
  unfold slotCount pageSize at *
  omega

section
variable {disk : Disk} {slot : Word} (hdisk : disk.base = 0) (hs : slot.toNat < slotCount disk)
include hs

theorem slotAddress_ok : slotAddress slot = .ok (Word.pageAddress slot) := by
  have hlt := lt_of_slotCount hs
  have := disk.size_lt
  rw [slotAddress, if_pos (by unfold pageSize at *; omega)]

include hdisk

theorem toNat_slotAddress :
    (Word.pageAddress slot).toNat = disk.base.toNat + slot.toNat * pageSize := by
  have hlt := lt_of_slotCount hs
  have := disk.size_lt
  rw [hdisk, Word.pageAddress, UInt32.toNat_ofNat',
    Nat.mod_eq_of_lt (by unfold pageSize at *; omega)]
  simp

theorem readSlot_ok : readSlot disk slot = .ok (disk.slice (slot.toNat * pageSize) pageSize) := by
  rw [readSlot, slotAddress_ok hs]
  show disk.readBytes _ _ = _
  exact ByteStore.readBytes_ok (toNat_slotAddress hdisk hs) (lt_of_slotCount hs)

theorem writeSlot_ok {page : List UInt8} (hp : page.length = pageSize) :
    (writeSlot slot page).run disk = .ok () (disk.patch (slot.toNat * pageSize) page) := by
  have hlt := lt_of_slotCount hs
  rw [writeSlot, bind_ok (ofExcept_ok (slotAddress_ok hs) disk)]
  exact ByteStore.writeBytes_ok (toNat_slotAddress hdisk hs) (by omega)

end

end Disk

/-! ## Addresses -/

theorem Word.add_succ (a : Word) (i : Nat) : a + 1 + UInt32.ofNat i = a + UInt32.ofNat (i + 1) := by
  rw [UInt32.ofNat_add, UInt32.add_assoc, UInt32.add_comm 1]
  rfl

theorem Word.add_ofNat_zero (a : Word) : a + UInt32.ofNat 0 = a := UInt32.add_zero a

/-- What ends with the last address from `a` up ends there from the next address up. -/
theorem Word.succ_toNat_add_le {a : Word} {n : Nat} (h : a.toNat + (n + 1) ≤ 2 ^ 32) :
    (a + 1).toNat + n ≤ 2 ^ 32 := by
  rw [UInt32.toNat_add]
  change (a.toNat + 1) % 2 ^ 32 + n ≤ 2 ^ 32
  omega

theorem Word.add_ofNat_of_lt {a : Word} {o : Nat} (h : a.pageOffset + o < pageSize) :
    (a + UInt32.ofNat o).page = a.page ∧ (a + UInt32.ofNat o).pageOffset = a.pageOffset + o := by
  have hlt := a.toNat_lt
  have hsum : (a + UInt32.ofNat o).toNat = a.toNat + o := by
    rw [UInt32.toNat_add, UInt32.toNat_ofNat']
    unfold pageOffset pageSize at *
    omega
  unfold page pageOffset at *
  rw [hsum]
  unfold pageSize at *
  constructor
  · congr 1
    omega
  · omega

/-- An access of at most a page touches the page of its first byte and that of its last. -/
theorem Word.page_add_ofNat {a : Word} {o w : Nat} (ho : o < w) (hw : w ≤ pageSize) :
    (a + UInt32.ofNat o).page = a.page ∨
    (a + UInt32.ofNat o).page = (a + UInt32.ofNat (w - 1)).page := by
  have hlt := a.toNat_lt
  unfold page pageSize at *
  rw [UInt32.toNat_add, UInt32.toNat_add, UInt32.toNat_ofNat', UInt32.toNat_ofNat',
    Nat.mod_eq_of_lt (a := o) (by omega), Nat.mod_eq_of_lt (a := w - 1) (by omega)]
  have : (a.toNat + o) % 2 ^ 32 / 4096 = a.toNat / 4096 ∨
      (a.toNat + o) % 2 ^ 32 / 4096 = (a.toNat + (w - 1)) % 2 ^ 32 / 4096 := by
    omega
  exact this.imp (congrArg _) (congrArg _)

end PagedMachine

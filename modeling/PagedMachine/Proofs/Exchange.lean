import PagedMachine.Proofs.Access

/-!
# Bytes of a page in a frame

An exchange in a frame reads and writes its bytes one after the other, lowest
first, as virtual memory does; a wide one is no different, for no two of its
bytes are the same byte.
-/

namespace PagedMachine

namespace ByteStore

theorem slice_succ (s : ByteStore) (start k : Nat) :
    s.slice start (k + 1) = s.byte start :: s.slice (start + 1) k := by
  rw [slice, List.range_succ_eq_map, List.map_cons, List.map_map, slice]
  refine congrArg _ (List.map_congr_left fun i _ => ?_)
  rw [Function.comp_apply, Nat.succ_eq_add_one, Nat.add_assoc, Nat.add_comm 1]

theorem slice_patch_above {s : ByteStore} {start : Nat} {b : UInt8} (h : start + 1 ≤ s.size)
    (k : Nat) : (s.patch start [b]).slice (start + 1) k = s.slice (start + 1) k := by
  refine List.map_congr_left fun i _ => ?_
  rw [byte_patch (by simpa using h), if_neg (by simp only [List.length_singleton]; omega)]

end ByteStore

namespace PagedMemory

variable {m m' : PagedMemory} {v v' : Virtual.Memory} {name : Location → Nat} {page frame : Word}
    {mp : Mapping}

/-! ## Other bytes in RAM -/

theorem sameExtent_with_ram {ram : Ram} (hb : ram.base = m.ram.base) (hs : ram.size = m.ram.size) :
    SameExtent m { m with ram := ram } := ⟨rfl, hb, hs, rfl, rfl⟩

theorem Consistent.with_ram (h : Consistent m) {ram : Ram} (hb : ram.base = m.ram.base)
    (hs : ram.size = m.ram.size) : Consistent { m with ram := ram } :=
  h.of_books (sameExtent_with_ram hb hs) h.books rfl rfl fun _ => rfl

/-- Other bytes in RAM are other contents of the same pages. -/
theorem Represents.with_ram (hv : Represents m v) (ram : Ram) :
    ∃ contents, Represents { m with ram := ram } { v with contents := contents } := by
  classical
  obtain ⟨name, hname⟩ := hv
  let m' : PagedMemory := { m with ram := ram }
  let contents : Nat → Fin pageSize → UInt8 := fun n o =>
    if hn : ∃ l, m'.mappingsOf l ≠ 0 ∧ name l = n then m'.byteAt hn.choose o else 0
  have hcontents : ∀ l, m'.mappingsOf l ≠ 0 → ∀ o :
      Fin pageSize, contents (name l) o = m'.byteAt l o := by
    intro l hl o
    have hn : ∃ k, m'.mappingsOf k ≠ 0 ∧ name k = name l := ⟨l, hl, rfl⟩
    have hk : hn.choose = l := hname.distinct _ _ hn.choose_spec.1 hl hn.choose_spec.2
    simp only [contents, dif_pos hn, hk]
  exact ⟨contents, name, hname.distinct, hname.processes, hcontents, hname.fresh, hname.current,
    hname.nextPid⟩

theorem RepresentedBy.storeByte (hv : RepresentedBy name m v) (h : Consistent m)
    (hf : m.mappingsOf (.frame frame) ≠ 0) (o : Fin pageSize) (b : UInt8) :
    RepresentedBy name { m with ram := m.ram.patch (frame.toNat * pageSize + o) [b] }
      (v.storeByte (name (.frame frame)) o b) := by
  have hlt := Ram.lt_of_pageCount (h.layout.frame_lt (h.books.owned _ hf))
  have hfit : frame.toNat * pageSize + o + [b].length ≤ m.ram.size := by
    rw [List.length_singleton]
    omega
  refine ⟨hv.distinct, hv.processes, fun l hl o' => ?_, hv.fresh, hv.current, hv.nextPid⟩
  rw [Virtual.Memory.storeByte]
  -- names are distinct, so the page under another name keeps its bytes
  by_cases hlf : l = .frame frame
  · subst hlf
    dsimp only
    rw [Function.update_self, byteAt, ByteStore.byte_patch hfit, List.length_singleton,
      Function.update_apply]
    by_cases ho : o' = o
    · subst ho
      rw [if_pos rfl, if_pos (by omega), Nat.sub_self]
      rfl
    · have hne : (o' : Nat) ≠ o := fun e => ho (Fin.ext e)
      rw [if_neg ho, if_neg (by omega), hv.contents _ hf, byteAt]
  · have hne : name l ≠ name (.frame frame) := fun e => hlf (hv.distinct _ _ hl hf e)
    dsimp only
    rw [Function.update_of_ne hne, hv.contents l hl]
    cases l with
    | slot s => rfl
    | frame g =>
      have hgf : g.toNat ≠ frame.toNat := fun e => hlf (congrArg _ (UInt32.toNat_inj.mp e))
      rw [byteAt, byteAt, ByteStore.byte_patch hfit, List.length_singleton]
      have := o.isLt
      have := o'.isLt
      rw [if_neg (by unfold pageSize at *; omega)]

/-! ## An exchange in one frame -/

def stored (t : Transfer) (ram : Ram) (start offset count : Nat) : Ram :=
  match t.store with
  | some value => ram.patch start (toBytes count (value.toNat / 256 ^ offset))
  | none => ram

theorem base_stored (t : Transfer) (ram : Ram) (start offset count : Nat) :
    (stored t ram start offset count).base = ram.base := by
  unfold stored
  cases t.store <;> rfl

theorem size_stored (t : Transfer) (ram : Ram) (start offset count : Nat) :
    (stored t ram start offset count).size = ram.size := by
  unfold stored
  cases t.store with
  | none => rfl
  | some value => exact ByteStore.size_patch _ _ _

theorem stored_zero (t : Transfer) (ram : Ram) (start offset : Nat) :
    stored t ram start offset 0 = ram := by
  unfold stored
  cases t.store <;> rfl

/-- The lowest byte first, then the others. -/
theorem stored_succ (t : Transfer) (ram : Ram) (start offset count : Nat) :
    stored t ram start offset (count + 1) = stored t (stored t ram start offset 1) (start + 1)
    (offset + 1) count := by
  unfold stored
  cases t.store with
  | none => rfl
  | some value =>
    dsimp only
    rw [Nat.pow_succ, ← Nat.div_div_eq_div_mul]
    rfl

theorem stored_one {t : Transfer} {value : Word} (ht : t.store = some value) (ram : Ram)
    (start offset : Nat) : stored t ram start offset 1 =
    ram.patch start [UInt8.ofNat (value.field (8 * offset) 8)] := by
  have hbyte :
      UInt8.ofNat (value.field (8 * offset) 8) = UInt8.ofNat (value.toNat / 256 ^ offset) := by
    rw [Word.field, Nat.pow_mul]
    exact UInt8.ofNat_mod_size
  rw [stored, ht, hbyte]
  rfl

section
variable {t : Transfer}

theorem exchange_frame (count : Nat) : ∀ {m : PagedMemory} {v : Virtual.Memory}
    (offset : Nat), Consistent m → RepresentedBy name m v → m.mapping? t.address.page = some mp →
    mp.location = .frame frame → t.address.pageOffset + offset + count ≤ pageSize →
    (v.exchangeBytes t offset count).1 =
        ofBytes (m.ram.slice (frame.toNat * pageSize + (t.address.pageOffset + offset)) count) ∧
      RepresentedBy name
        { m with
          ram := stored t m.ram (frame.toNat * pageSize + (t.address.pageOffset + offset)) offset
            count }
        (v.exchangeBytes t offset count).2 := by
  induction count with
  | zero =>
    intro m v offset h hv hm hl hfit
    rw [stored_zero]
    exact ⟨rfl, hv⟩
  | succ count ih =>
    intro m v offset h hv hm hl hfit
    obtain ⟨hpage, hoffset⟩ := Word.add_ofNat_of_lt (a := t.address) (o := offset) (by omega)
    obtain ⟨pid, d, hc, hd, hmp⟩ := mapping?_some.mp hm
    have hf : m.mappingsOf (.frame frame) ≠ 0 := hl ▸ mappingsOf_ne_zero hd hmp
    have hmv : v.find? (t.address + UInt32.ofNat offset).page = some (mp.rename name) := by
      rw [hpage, hv.find?, hm]
      rfl
    have hpageName : (mp.rename name).page = name (.frame frame) := by rw [Mapping.rename, hl]
    have hlt : t.address.pageOffset + offset < pageSize := by omega
    have ho : (Virtual.offset (t.address + UInt32.ofNat offset) : Nat) =
        t.address.pageOffset + offset := hoffset
    generalize hstart : t.address.pageOffset + offset = start at hlt ho
    have hram := Ram.lt_of_pageCount (h.layout.frame_lt (h.books.owned _ hf))
    -- the first byte
    have hold :
        (v.exchangeBytes t offset 1).1 = (m.ram.byte (frame.toNat * pageSize + start)).toNat := by
      rw [Virtual.Memory.exchangeBytes_one hmv, hpageName, hv.contents _ hf, ho]
      rfl
    have hfirst : RepresentedBy name
        { m with ram := stored t m.ram (frame.toNat * pageSize + start) offset 1 }
        (v.exchangeBytes t offset 1).2 := by
      rw [Virtual.Memory.exchangeBytes_one hmv]
      cases hstore : t.store with
      | none =>
        simp only [stored, Virtual.Memory.storePart, hstore]
        exact hv
      | some value =>
        simp only [stored_one hstore, Virtual.Memory.storePart, hstore, hpageName, ← ho]
        exact hv.storeByte h hf _ _
    -- the rest
    have h₁ :=
      h.with_ram (base_stored t m.ram (frame.toNat * pageSize + start) offset 1) (size_stored ..)
    obtain ⟨hrest, hrepresents⟩ := ih (offset + 1) h₁ hfirst hm hl (by omega)
    rw [show t.address.pageOffset + (offset + 1) = start + 1 by omega, ← Nat.add_assoc]
      at hrest hrepresents
    rw [Virtual.Memory.exchangeBytes_succ hmv, ByteStore.slice_succ, ofBytes, stored_succ,
      hold, hrest]
    refine ⟨?_, hrepresents⟩
    cases hstore : t.store with
    | none => simp only [stored, hstore]
    | some value =>
      have hstart : frame.toNat * pageSize + start + 1 ≤ m.ram.size := by omega
      simp only [stored_one hstore, ByteStore.slice_patch_above hstart]

end

end PagedMemory

end PagedMachine

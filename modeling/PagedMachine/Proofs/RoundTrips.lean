import Mathlib.Algebra.GroupWithZero.Nat
import PagedMachine.Proofs.FoundBytes
import PagedMachine.Proofs.Readings
import PagedMachine.Proofs.Results

/-!
# Loads of what was stored

A store leaves the low bytes of its register where its addressing mode points, and then
writes the base back. The next load of that width from there delivers these bytes,
widened as its opcode has it. A swap does both at once, with the registers of before.
-/

namespace PagedMachine

open ExecutionUnit (loaded? storedWidth? swappedWidth?)

/-! ## Addresses -/

namespace AddressingMode

def moved (rn : Register) (offset : MemoryOffset) (up : Bool) (s : Registers) : Word :=
  if up then s.get rn + offset.value s else s.get rn - offset.value s

variable (mode : AddressingMode) (rn : Register) (offset : MemoryOffset) (up : Bool) (s : Registers)

def accessed : Word := if mode = .postIndexed then s.get rn else moved rn offset up s

def baseLeft : Word := if mode = .offset then s.get rn else moved rn offset up s

theorem address_effective :
    (mode.effective rn offset up s).address = mode.accessed rn offset up s := by
  cases mode <;> rfl

theorem get_writeback (r : Register) :
    (s.setAll (mode.effective rn offset up s).writeback.toList).get r =
    if r = rn then mode.baseLeft rn offset up s else s.get r := by
  have hset : (s.set rn (moved rn offset up s)).get r =
      if r = rn then moved rn offset up s else s.get r := by
    by_cases hr : r = rn
    · rw [if_pos hr, hr, Registers.get_set_self]
    · rw [if_neg hr, Registers.get_set_of_ne _ _ hr]
  cases mode with
  | offset =>
    by_cases hr : r = rn
    · rw [if_pos hr, hr]
      rfl
    · rw [if_neg hr]
      rfl
  | preIndexed | postIndexed => exact hset

end AddressingMode

/-! ## What a load delivers -/

/-- The low bytes of the value, widened with zeros or with their sign. -/
def Opcode.Delivers (o : Opcode) (value x : Word) : Prop :=
  match o with
  | .ldr => x = value
  | .ldrh => x.toNat = value.toNat % 2 ^ 16
  | .ldrb => x.toNat = value.toNat % 2 ^ 8
  | .ldrsh => x.signed = (value.toNat : Int).bmod (2 ^ 16)
  | .ldrsb => x.signed = (value.toNat : Int).bmod (2 ^ 8)
  | _ => False

theorem Word.signed_signExtend {bits : Nat} (hbits : bits = 8 ∨ bits = 16) {value x : Word}
    (hx : x.toNat = value.toNat % 2 ^ bits) :
    (x.signExtend bits).signed = (value.toNat : Int).bmod (2 ^ bits) := by
  have hfield : x.field 0 bits = value.toNat % 2 ^ bits := by
    rw [field, Nat.pow_zero, Nat.div_one, hx, Nat.mod_mod]
  have hbmod : ((value.toNat % 2 ^ bits : Nat) : Int).bmod (2 ^ bits) =
      (value.toNat : Int).bmod (2 ^ bits) := by
    rw [Int.natCast_mod, Int.emod_bmod]
  have hle := Int.le_bmod (x := value.toNat) (m := 2 ^ bits) (Nat.two_pow_pos bits)
  have hlt := Int.bmod_lt (x := value.toNat) (m := 2 ^ bits) (Nat.two_pow_pos bits)
  rw [signExtend, hfield, hbmod]
  rcases hbits with rfl | rfl
  · exact signed_ofInt (by omega) (by omega)
  · exact signed_ofInt (by omega) (by omega)

theorem Opcode.delivers {o : Opcode} {width : Width} {extend : Word → Word}
    (h : loaded? o = some (width, extend)) {value x : Word}
    (hx : x.toNat = value.toNat % 256 ^ width.bytes) : o.Delivers value (extend x) := by
  cases o with
  | ldr =>
    cases h
    rw [show (256 : Nat) ^ Width.word.bytes = 2 ^ 32 from rfl,
      Nat.mod_eq_of_lt value.toNat_lt] at hx
    exact UInt32.toNat_inj.mp hx
  | ldrh | ldrb =>
    cases h
    exact hx
  | ldrsh =>
    cases h
    exact Word.signed_signExtend (.inr rfl) hx
  | ldrsb =>
    cases h
    exact Word.signed_signExtend (.inl rfl) hx
  | _ => cases h

/-! ## The instructions as transfers -/

namespace Instruction

variable {i : Instruction} {s : Registers} {o : Opcode} {width : Width} {rt rd rm rn : Register}
    {mode : AddressingMode} {offset : MemoryOffset} {up : Bool} {b b' : Bus} {e : Effects}

theorem execute_of_access {t : Transfer} {effects : Word → Effects}
    (h : i.opcode.unit.plan? i s = some (.access t effects)) :
    i.execute s = effects <$> Bus.transfer t :=
  (ExecutionUnit.run_of_plan? h).trans rfl

theorem execute_store (h : storedWidth? o = some width) :
    execute ⟨o, .memory mode rt rn offset up⟩ s =
    (fun _ =>
      { Effects.next s .store with writes := (mode.effective rn offset up s).writeback.toList }) <$>
      Bus.transfer (.write (mode.accessed rn offset up s) width (s.get rt)) := by
  have hu : o.unit = .store := by cases o <;> first | rfl | cases h
  apply execute_of_access
  change o.unit.plan? _ s = _
  rw [hu, ExecutionUnit.plan?, ExecutionUnit.planStore, ← mode.address_effective]
  simp only [h, Option.map_some]

theorem execute_swap (h : swappedWidth? o = some width) : execute ⟨o, .atomic rd rm rn⟩ s =
    (fun old => { Effects.next s .swap with writes := [(rd, old)] }) <$>
      Bus.transfer (.write (s.get rn) width (s.get rm)) := by
  have hu : o.unit = .swap := by cases o <;> first | rfl | cases h
  apply execute_of_access
  change o.unit.plan? _ s = _
  rw [hu, ExecutionUnit.plan?, ExecutionUnit.planSwap]
  simp only [h, Option.map_some]

def LoadsFrom (i : Instruction) (s : Registers) (width : Width) (address : Word)
    (rt : Register) : Prop :=
  ∃ mode rn offset up, i.operands = .memory mode rt rn offset up ∧
    (loaded? i.opcode).map Prod.fst = some width ∧ mode.accessed rn offset up s = address

theorem LoadsFrom.execute {address : Word} (h : i.LoadsFrom s width address rt) :
    ∃ extend effects, loaded? i.opcode = some (width, extend) ∧
      i.execute s = effects <$> Bus.transfer (.read address width) ∧
      ∀ value, ((effects value).commit s).get rt = extend value := by
  obtain ⟨o, operands⟩ := i
  obtain ⟨mode, rn, offset, up, rfl, hload, rfl⟩ := h
  obtain ⟨⟨width, extend⟩, hopcode, rfl⟩ := Option.map_eq_some_iff.mp hload
  refine ⟨extend, fun value => { Effects.next s .load with
    writes := (mode.effective rn offset up s).writeback.toList ++ [(rt, extend value)] }, hopcode,
    ?_, fun value => ?_⟩
  · have hu : o.unit = .load := by cases o <;> first | rfl | cases hopcode
    apply execute_of_access
    change o.unit.plan? _ s = _
    rw [hu, ExecutionUnit.plan?, ExecutionUnit.planLoad, ← mode.address_effective]
    dsimp only at hopcode ⊢
    simp only [hopcode, Option.map_some]
  · -- the loaded value is the last write
    change (s.setAll (_ ++ [(rt, extend value)])).get rt = _
    rw [Registers.setAll, List.foldl_append]
    exact Registers.get_set_self ..

end Instruction

/-! ## Round trips -/

namespace Bus

/-- Any load of this width from this address that succeeds delivers the value. -/
def Delivers (b : Bus) (address : Word) (width : Width) (value : Word) : Prop :=
  ∀ (i : Instruction) (s : Registers) (rt : Register) (e : Effects) (b' : Bus),
    i.LoadsFrom s width address rt →
    Yields (i.execute s) b (.ok e) b' → i.opcode.Delivers value ((e.commit s).get rt)

variable {b b' : Bus} {t : Transfer} {value old : Word} {address : Word} {width : Width}

theorem Settled.delivers (h : b.Settled)
    (hstep : Yields (Bus.transfer (.write address width value)) b (.ok old) b') :
    b'.Delivers address width value := by
  intro i s rt e b'' hload hexecute
  obtain ⟨extend, effects, hopcode, htransfer, hget⟩ := hload.execute
  rw [htransfer] at hexecute
  obtain ⟨x, rfl, hread⟩ := hexecute.of_map_ok
  have hstored := h.exchanges (fun _ => rfl) hstep
  have hloaded := (h.transfer hstep).exchanges (fun hne => absurd rfl hne) hread
  rw [hget]
  exact Opcode.delivers hopcode (hstored.toNat_reread hloaded rfl rfl rfl)

/-- A load in place of a store succeeds where the store does, and answers the same. -/
theorem Settled.load_instead (h : b.Settled)
    (hstep : Yields (Bus.transfer (.write address width value)) b (.ok old) b')
    {i : Instruction} {s : Registers} {rt : Register} (hload : i.LoadsFrom s width address rt) :
    ∃ e c, Yields (i.execute s) b (.ok e) c ∧ i.opcode.Delivers old ((e.commit s).get rt) := by
  obtain ⟨extend, effects, hopcode, htransfer, hget⟩ := hload.execute
  obtain ⟨window, hlaid⟩ := h.laid
  obtain ⟨-, c, hread⟩ := h.sound.inBytes hlaid hstep
  refine ⟨effects old, c, ?_, ?_⟩
  · rw [htransfer]
    exact hread.map effects
  · have hlt := (h.exchanges (fun _ => rfl) hstep).lt
    rw [hget]
    exact Opcode.delivers hopcode (Nat.mod_eq_of_lt hlt).symm

end Bus

namespace Instruction

/-- What a store leaves, in the registers and for the loads that follow. -/
structure Stores (s : Registers) (b : Bus) (address : Word) (width : Width) (value : Word)
    (rn : Register) (base : Word) (s' : Registers) (b' : Bus) : Prop where
  transfer : ∃ old, Yields (Bus.transfer (.write address width value)) b (.ok old) b'
  registers : ∀ r, s'.get r = if r = rn then base else s.get r
  next : s'.flags = s.flags ∧ s'.pc = s.pc + 4
  bytes : ∀ i < width.bytes, b'.byteAt? (address + UInt32.ofNat i) = some (value.byte i)
  delivered : b'.Delivers address width value

/-- What a swap leaves. The loads are those that could have been made in its place, and those that
follow. -/
structure Swaps (s : Registers) (b : Bus) (address : Word) (width : Width) (value : Word)
    (rd : Register) (s' : Registers) (b' : Bus) : Prop where
  transfer : Yields (Bus.transfer (.write address width value)) b (.ok (s'.get rd)) b'
  registers : ∀ r, r ≠ rd → s'.get r = s.get r
  next : s'.flags = s.flags ∧ s'.pc = s.pc + 4
  lt : (s'.get rd).toNat < 256 ^ width.bytes
  answered : ∀ (i : Instruction) (s₁ : Registers) (rt : Register), i.LoadsFrom s₁ width address rt →
    ∃ e c, Yields (i.execute s₁) b (.ok e) c ∧ i.opcode.Delivers (s'.get rd) ((e.commit s₁).get rt)
  bytes : ∀ i < width.bytes, b'.byteAt? (address + UInt32.ofNat i) = some (value.byte i)
  delivered : b'.Delivers address width value

variable {s : Registers} {o : Opcode} {width : Width} {b b' : Bus} {e : Effects}

theorem stores_of_execute (hb : b.Settled) (ho : storedWidth? o = some width)
    {mode : AddressingMode} {rt rn : Register} {offset : MemoryOffset} {up : Bool}
    (h : Yields (execute ⟨o, .memory mode rt rn offset up⟩ s) b (.ok e) b') :
    Stores s b (mode.accessed rn offset up s) width (s.get rt) rn (mode.baseLeft rn offset up s)
    (e.commit s) b' := by
  rw [execute_store ho] at h
  obtain ⟨old, rfl, htransfer⟩ := h.of_map_ok
  have hexchanges := hb.exchanges (fun _ => rfl) htransfer
  exact ⟨⟨old, htransfer⟩, mode.get_writeback rn offset up s, ⟨rfl, rfl⟩, hexchanges.left,
    hb.delivers htransfer⟩

theorem swaps_of_execute (hb : b.Settled) (ho : swappedWidth? o = some width) {rd rm rn : Register}
    (h : Yields (execute ⟨o, .atomic rd rm rn⟩ s) b (.ok e) b') :
    Swaps s b (s.get rn) width (s.get rm) rd (e.commit s) b' := by
  rw [execute_swap ho] at h
  obtain ⟨old, rfl, htransfer⟩ := h.of_map_ok
  have hexchanges := hb.exchanges (fun _ => rfl) htransfer
  have hget : (Effects.commit { Effects.next s .swap with writes := [(rd, old)] } s).get rd = old :=
    Registers.get_set_self s rd old
  refine ⟨hget.symm ▸ htransfer, fun r hr => Registers.get_set_of_ne s old hr, ⟨rfl, rfl⟩,
    hget.symm ▸ hexchanges.lt, fun i s₁ rt hload => ?_, hexchanges.left, hb.delivers htransfer⟩
  rw [hget]
  exact hb.load_instead htransfer hload

/-- Every store that succeeds accesses the base for a post-indexed operand and else the base with
its offset, which is also what it leaves in the base register unless the offset is all there is. It
stores its register as it was before. A swap answers what a load in its place would, and stores its
register as it was before. The loads that follow deliver what was stored. -/
theorem stores_round_trip {b : Bus} (hb : b.Attained) (s : Registers) :
    (∀ o width mode rt rn offset up e b', storedWidth? o = some width →
      Yields (execute ⟨o, .memory mode rt rn offset up⟩ s) b (.ok e) b' →
      let moved := if up then s.get rn + offset.value s else s.get rn - offset.value s
      Stores s b (if mode = .postIndexed then s.get rn else moved) width (s.get rt) rn
        (if mode = .offset then s.get rn else moved) (e.commit s) b') ∧
    ∀ o width rd rm rn e b', swappedWidth? o = some width →
      Yields (execute ⟨o, .atomic rd rm rn⟩ s) b (.ok e) b' →
      Swaps s b (s.get rn) width (s.get rm) rd (e.commit s) b' :=
  ⟨fun _ _ _ _ _ _ _ _ _ ho h => stores_of_execute hb.settled ho h,
    fun _ _ _ _ _ _ _ ho h => swaps_of_execute hb.settled ho h⟩

end Instruction

/-! ## A store through its own base -/

namespace OwnBase

open TwoReaders (bus start disk ram rom window ranges bus_ofDevices size_ram)

def machine : Bus := bus (start disk ram)

def registers : Registers := Registers.zero.set .stack 0x10000000

theorem attained : machine.Attained :=
  .inl ⟨ram, rom, disk, window, ranges, _, [], bus_ofDevices, rfl, .done _,
    (by decide : 0 < 2 ^ 32 - 1), fun _ he => absurd he List.not_mem_nil⟩

theorem stored (width : Width) (value : Word) :
    ∃ old b, Yields (Bus.transfer (.write 0x10000000 width value)) machine (.ok old) b := by
  have hholds : (Region.mk .ram 0x10000000 0x10007FFF).holds 0x10000000 width = true := by
    cases width <;> decide
  have hserved :=
    Bus.transfer_served (b := machine) (t := .write 0x10000000 width value) rfl hholds rfl
  have hend : 0 + width.bytes ≤ machine.memory.ram.size := by
    change 0 + width.bytes ≤ ByteStore.size ram
    rw [size_ram]
    cases width <;> decide
  exact ⟨_, _, hserved.trans (Bus.exchange_run (t := .write 0x10000000 width value) rfl hend)⟩

theorem get_registers : registers.get .stack = 0x10000000 := Registers.get_set_self ..

def storeBase : Instruction := ⟨.strh, .memory .postIndexed .stack .stack (.immediate 4) true⟩

def swapBase : Instruction := ⟨.swpb, .atomic .stack .stack .stack⟩

theorem store_executed : ∃ e b, Yields (storeBase.execute registers) machine (.ok e) b := by
  obtain ⟨old, b, hstore⟩ := stored .half 0x10000000
  have haddress : AddressingMode.accessed .postIndexed .stack (.immediate 4) true registers =
      0x10000000 := get_registers
  have hwidth : storedWidth? .strh = some .half := rfl
  rw [storeBase, Instruction.execute_store hwidth, haddress, get_registers]
  exact ⟨_, b, hstore.map _⟩

theorem swap_executed : ∃ e b, Yields (swapBase.execute registers) machine (.ok e) b := by
  obtain ⟨old, b, hswap⟩ := stored .byte 0x10000000
  have hwidth : swappedWidth? .swpb = some .byte := rfl
  rw [swapBase, Instruction.execute_swap hwidth, get_registers]
  exact ⟨_, b, hswap.map _⟩

/-- A post-indexed store of the base itself, and a swap that names one register for everything. -/
theorem round_trip :
    (∃ e b, Yields (storeBase.execute registers) machine (.ok e) b ∧
      Instruction.Stores registers machine 0x10000000 .half 0x10000000 .stack 0x10000004
        (e.commit registers) b) ∧
    ∃ e b, Yields (swapBase.execute registers) machine (.ok e) b ∧
      Instruction.Swaps registers machine 0x10000000 .byte 0x10000000 .stack
        (e.commit registers) b := by
  obtain ⟨hstores, hswaps⟩ := Instruction.stores_round_trip attained registers
  obtain ⟨e, b, hstore⟩ := store_executed
  obtain ⟨e', b', hswap⟩ := swap_executed
  have hmoved : (0x10000000 : Word) + (MemoryOffset.immediate 4).value registers = 0x10000004 :=
    by decide
  have hstored := hstores .strh .half .postIndexed .stack .stack (.immediate 4) true e b rfl hstore
  have hswapped := hswaps .swpb .byte .stack .stack .stack e' b' rfl hswap
  rw [get_registers] at hstored hswapped
  simp only [if_true, hmoved, reduceCtorEq, if_false] at hstored
  exact ⟨⟨e, b, hstore, hstored⟩, e', b', hswap, hswapped⟩

end OwnBase

end PagedMachine

import PagedMachine.Proofs.Plans
import PagedMachine.Proofs.Runs
import PagedMachine.Proofs.Shifting

/-!
# What an instruction leaves alone

An instruction touches what its encoding names and nothing else: the registers it
writes, the flags if it sets them, the program counter if it branches, and the bus if it
makes a transfer.
-/

namespace PagedMachine

/-! ## What the encoding names -/

/-- The opcodes that set the flags from a result alone, with the carry of a shift. -/
def Opcode.Logical : Opcode → Prop
  | and | orr | eor | bic | mov | mvn | tst | teq | lsl | lsr | asr | ror => True
  | _ => False

def Operand2.ShiftsNothing (s : Registers) : Operand2 → Prop
  | immediate _ => True
  | shifted _ _ amount => amount.places s = 0

namespace Instruction

def destination? (i : Instruction) : Option Register :=
  match i.operands with
  | .dataProcessing _ rd _ _ | .move _ rd _ | .moveTop rd _ | .shift _ rd _ _ => some rd
  | .atomic rd _ _ | .floatArith rd _ _ | .floatConvert rd _ => some rd
  | .memory _ rt _ _ _ => if i.opcode.unit = .load then some rt else none
  | .control _ | .compare .. | .branch .. | .floatCompare .. => none

def writtenBase? (i : Instruction) : Option Register :=
  match i.operands with
  | .memory mode _ rn _ _ => if mode.writesBack then some rn else none
  | _ => none

def setsFlags (i : Instruction) : Bool :=
  match i.operands with
  | .dataProcessing setFlags .. | .move setFlags .. | .shift setFlags .. => setFlags
  | .compare .. | .floatCompare .. => true
  | _ => false

def ShiftsNothing (i : Instruction) (s : Registers) : Prop :=
  match i.operands with
  | .dataProcessing _ _ _ operand | .move _ _ operand | .compare _ operand =>
    operand.ShiftsNothing s
  | .shift _ _ _ amount => amount.places s = 0
  | _ => True

def BranchesTo (i : Instruction) (s : Registers) (target : BranchTarget) : Prop :=
  ∃ condition : Condition, i.operands = .branch condition target ∧ condition.passes s.flags = true

def Links (i : Instruction) : Prop := i.opcode = .bl ∨ i.opcode = .blx

def Transfers (i : Instruction) : Prop :=
  i.opcode.unit = .load ∨ i.opcode.unit = .store ∨ i.opcode.unit = .swap

def Writes (i : Instruction) (s : Registers) (r : Register) : Prop :=
  i.destination? = some r ∨ i.writtenBase? = some r ∨ r = .link ∧ i.Links ∧ ∃ target,
    i.BranchesTo s target

/-- The instruction takes the registers `s` and the bus `b` to `s'` and `b'` and leaves alone
what it does not name. -/
structure Frame (i : Instruction) (s s' : Registers) (b b' : Bus) : Prop where
  registers : ∀ r, s'.get r ≠ s.get r → i.Writes s r
  flags : s'.flags ≠ s.flags → i.setsFlags = true
  overflow : i.opcode.Logical → s'.flags.overflow = s.flags.overflow
  carry : i.opcode.Logical → i.ShiftsNothing s → s'.flags.carry = s.flags.carry
  next : (∀ target, ¬ i.BranchesTo s target) → s'.pc = s.pc + 4
  relative : ∀ words, i.BranchesTo s (.relative words) →
    s'.pc = Word.ofInt (s.pc.toNat + 4 * words.toInt)
  register : ∀ rm, i.BranchesTo s (.register rm) → s'.pc = s.get rm
  link : ∀ target, i.BranchesTo s target → i.Links → s'.get .link = s.pc + 4
  bus : ¬ i.Transfers → b' = b

end Instruction

/-! ## Effects within the encoding -/

def Instruction.MaySet (i : Instruction) (s : Registers) (update : FlagsUpdate) : Prop :=
  update = .keep ∨ i.setsFlags = true ∧ (i.opcode.Logical →
    ∃ result carry, update.apply s.flags = s.flags.logical result carry ∧
      (i.ShiftsNothing s → carry = s.flags.carry))

inductive Effects.Within (i : Instruction) (s : Registers) (e : Effects) : Prop
  | taken (target : BranchTarget) (hbranch : i.BranchesTo s target)
      (heq : e = .taken s i.opcode target)
  | next (hbranch : ∀ target, ¬ i.BranchesTo s target) (hpc : e.nextPc = s.pc + 4)
      (hwrites : ∀ w ∈ e.writes, i.destination? = some w.1 ∨ i.writtenBase? = some w.1)
      (hupdate : i.MaySet s e.update)

def Plan.Within (i : Instruction) (s : Registers) : Plan → Prop
  | .done e => e.Within i s
  | .access _ effects => i.Transfers ∧ ∀ w, (effects w).Within i s

theorem Registers.get_setAll {writes : List (Register × Word)} {r : Register}
    (h : ∀ w ∈ writes, w.1 ≠ r) : ∀ s : Registers, (s.setAll writes).get r = s.get r := by
  induction writes with
  | nil => exact fun s => rfl
  | cons w ws ih =>
    intro s
    have hne : r ≠ w.1 := (h w List.mem_cons_self).symm
    exact (ih (fun v hv => h v (List.mem_cons_of_mem _ hv)) (s.set w.1 w.2)).trans
      (s.get_set_of_ne w.2 hne)

namespace Instruction

variable {i : Instruction} {s : Registers} {e : Effects} {update : FlagsUpdate}

theorem MaySet.flags (h : i.MaySet s update) (hne : update.apply s.flags ≠ s.flags) :
    i.setsFlags = true := by
  rcases h with rfl | ⟨h, -⟩
  · exact absurd rfl hne
  · exact h

theorem MaySet.overflow (h : i.MaySet s update) (hl : i.opcode.Logical) :
    (update.apply s.flags).overflow = s.flags.overflow := by
  rcases h with rfl | ⟨-, h⟩
  · rfl
  · obtain ⟨_, _, heq, -⟩ := h hl
    rw [heq]
    rfl

theorem MaySet.carry (h : i.MaySet s update) (hl : i.opcode.Logical) (hn : i.ShiftsNothing s) :
    (update.apply s.flags).carry = s.flags.carry := by
  rcases h with rfl | ⟨-, h⟩
  · rfl
  · obtain ⟨_, _, heq, hcarry⟩ := h hl
    rw [heq]
    exact hcarry hn

theorem BranchesTo.unique {target target' : BranchTarget} (h : i.BranchesTo s target)
    (h' : i.BranchesTo s target') : target = target' := by
  obtain ⟨_, h, -⟩ := h
  obtain ⟨_, h', -⟩ := h'
  exact (Operands.branch.inj (h.symm.trans h')).2

end Instruction

/-! ## Plans within the encoding -/

theorem Operand2.carry_stepped {operand : Operand2} {s : Registers} (h : operand.ShiftsNothing s) :
    (operand.stepped s).2 = s.flags.carry := by
  cases operand with
  | immediate value => rfl
  | shifted rm shift amount =>
    change (shift.repeated (amount.places s) _).2 = _
    rw [show amount.places s = 0 from h]
    rfl

namespace Instruction

variable {i : Instruction} {s : Registers} {update : FlagsUpdate}

theorem MaySet.chosen {setFlags : Bool} (h : setFlags = true → i.MaySet s update) :
    i.MaySet s (if setFlags then update else .keep) := by
  cases setFlags with
  | false => exact .inl rfl
  | true => exact h rfl

theorem MaySet.other (hset : i.setsFlags = true) (hother : ¬ i.opcode.Logical) :
    i.MaySet s update :=
  .inr ⟨hset, fun h => absurd h hother⟩

theorem MaySet.logical (hset : i.setsFlags = true) (result : Word) {operand : Operand2}
    (hnothing : i.ShiftsNothing s → operand.ShiftsNothing s) :
    i.MaySet s (.logical result (operand.value s s.flags.carry).2) := by
  refine .inr ⟨hset, fun _ =>
    ⟨result, (operand.stepped s).2, ?_, fun h => (operand.carry_stepped (hnothing h))⟩⟩
  rw [FlagsUpdate.apply_logical, operand.carry_eq_stepped]

end Instruction

namespace Sources

variable {x : Sources} {o : Opcode} {result : Word} {update : FlagsUpdate}

theorem arithmetic?_logical (h : x.arithmetic? o = some (result, update)) (ho : o.Logical) :
    update = .logical result x.shifted := by
  cases o <;> cases ho <;> cases h <;> rfl

theorem comparison?_logical (h : x.comparison? o = some update) (ho : o.Logical) :
    ∃ result, update = .logical result x.shifted := by
  cases o <;> cases ho <;> cases h <;> exact ⟨_, rfl⟩

theorem product?_logical (h : x.product? o = some (result, update)) (ho : o.Logical) :
    update = .logical result x.shifted := by
  cases o <;> cases ho <;> cases h

theorem quotient?_logical (h : x.quotient? o = some (result, update)) (ho : o.Logical) :
    update = .logical result x.shifted := by
  cases o <;> cases ho <;> cases h

end Sources

namespace Effects.Within

variable {i : Instruction} {s : Registers} {e : Effects}

theorem unwritten (hoperands : ∀ condition target, i.operands ≠ .branch condition target)
    (hpc : e.nextPc = s.pc + 4) (hwrites : e.writes = []) (hupdate : i.MaySet s e.update) :
    e.Within i s :=
  .next (fun target h => hoperands _ target h.choose_spec.1) hpc (hwrites ▸ nofun) hupdate

theorem written (hoperands : ∀ condition target, i.operands ≠ .branch condition target)
    (hpc : e.nextPc = s.pc + 4) {rd : Register} {value : Word} (hwrites : e.writes = [(rd, value)])
    (hdestination : i.destination? = some rd) (hupdate : i.MaySet s e.update) : e.Within i s := by
  refine .next (fun target h => hoperands _ target h.choose_spec.1) hpc ?_ hupdate
  rw [hwrites, List.forall_mem_singleton]
  exact .inl hdestination

end Effects.Within

namespace ExecutionUnit

variable {i : Instruction} {s : Registers} {plan : Plan}

theorem planControl_within (h : planControl i s = some plan) : plan.Within i s := by
  obtain ⟨o, operands⟩ := i
  unfold planControl at h
  split at h
  · rename_i hoperands
    cases hoperands
    split at h <;> cases h
    · exact .unwritten nofun rfl rfl (.inl rfl)
    · exact .unwritten nofun rfl rfl (.inl rfl)
    · exact .unwritten nofun rfl rfl (.inl rfl)
  · cases h

theorem planResult_within {cost : Cost} {result? : Sources → Opcode → Option (Word × FlagsUpdate)}
    (hlogical : ∀ {x o result update}, result? x o = some (result, update) → o.Logical →
      update = .logical result x.shifted)
    (h : planResult i s cost result? = some plan) : plan.Within i s := by
  obtain ⟨o, operands⟩ := i
  unfold planResult at h
  split at h
  · rename_i setFlags rd rn operand hoperands
    cases hoperands
    obtain ⟨⟨result, update⟩, hresult, rfl⟩ := Option.map_eq_some_iff.mp h
    refine .written nofun rfl rfl rfl (.chosen ?_)
    rintro rfl
    by_cases ho : o.Logical
    · rw [hlogical hresult ho]
      exact .logical rfl result id
    · exact .other rfl ho
  · cases h

theorem planMove_within (h : planMove i s = some plan) : plan.Within i s := by
  obtain ⟨o, operands⟩ := i
  unfold planMove at h
  split at h
  · rename_i setFlags rd operand hoperands
    cases hoperands
    have hupdate (result : Word) : Instruction.MaySet ⟨o, .move setFlags rd operand⟩ s
        (if setFlags then .logical result (operand.value s s.flags.carry).2 else .keep) := by
      refine .chosen ?_
      rintro rfl
      exact .logical rfl result id
    dsimp only at h
    split at h <;> cases h
    · exact .written nofun rfl rfl rfl (hupdate _)
    · exact .written nofun rfl rfl rfl (hupdate _)
  · cases h

theorem planMoveTop_within (h : planMoveTop i s = some plan) : plan.Within i s := by
  obtain ⟨o, operands⟩ := i
  unfold planMoveTop at h
  split at h
  · rename_i hoperands
    cases hoperands
    cases h
    exact .written nofun rfl rfl rfl (.inl rfl)
  · cases h

theorem planCompare_within (h : planCompare i s = some plan) : plan.Within i s := by
  obtain ⟨o, operands⟩ := i
  unfold planCompare at h
  split at h
  · rename_i rn operand hoperands
    cases hoperands
    obtain ⟨update, hupdate, rfl⟩ := Option.map_eq_some_iff.mp h
    refine .unwritten nofun rfl rfl ?_
    by_cases ho : o.Logical
    · obtain ⟨result, rfl⟩ := Sources.comparison?_logical hupdate ho
      exact .logical rfl result id
    · exact .other rfl ho
  · cases h

theorem planShift_within (h : planShift i s = some plan) : plan.Within i s := by
  obtain ⟨o, operands⟩ := i
  unfold planShift at h
  split at h
  · rename_i setFlags rd rn amount hoperands
    cases hoperands
    obtain ⟨kind, hkind, rfl⟩ := Option.map_eq_some_iff.mp h
    refine .written nofun rfl rfl rfl (.chosen ?_)
    rintro rfl
    refine .inr ⟨rfl, fun _ => ⟨_, _, rfl, fun hnothing => ?_⟩⟩
    change (kind.apply _ (amount.value s) _).2 = _
    rw [amount.value_eq_places, show amount.places s = 0 from hnothing]
    cases kind <;> rfl
  · cases h

theorem writtenBase?_of_mem {o : Opcode} {mode : AddressingMode} {rt rn : Register}
    {offset : MemoryOffset} {up : Bool} {w : Register × Word}
    (h : w ∈ (mode.effective rn offset up s).writeback.toList) :
    Instruction.writtenBase? ⟨o, .memory mode rt rn offset up⟩ = some w.1 := by
  cases mode with
  | offset => cases h
  | preIndexed | postIndexed =>
    obtain rfl := List.mem_singleton.mp h
    rfl

theorem planLoad_within (hunit : i.opcode.unit = .load) (h : planLoad i s = some plan) :
    plan.Within i s := by
  obtain ⟨o, operands⟩ := i
  unfold planLoad at h
  split at h
  · rename_i mode rt rn offset up hoperands
    cases hoperands
    obtain ⟨⟨width, extend⟩, -, rfl⟩ := Option.map_eq_some_iff.mp h
    have hdestination : Instruction.destination? ⟨o, .memory mode rt rn offset up⟩ = some rt :=
      if_pos hunit
    refine ⟨.inl hunit, fun value => .next (by rintro _ ⟨_, ⟨⟩, -⟩) rfl (fun w hw => ?_) (.inl rfl)⟩
    rcases List.mem_append.mp hw with hw | hw
    · exact .inr (writtenBase?_of_mem hw)
    · obtain rfl := List.mem_singleton.mp hw
      exact .inl hdestination
  · cases h

theorem planStore_within (hunit : i.opcode.unit = .store) (h : planStore i s = some plan) :
    plan.Within i s := by
  obtain ⟨o, operands⟩ := i
  unfold planStore at h
  split at h
  · rename_i mode rt rn offset up hoperands
    cases hoperands
    obtain ⟨width, -, rfl⟩ := Option.map_eq_some_iff.mp h
    refine ⟨.inr (.inl hunit), fun _ =>
      .next (by rintro _ ⟨_, ⟨⟩, -⟩) rfl (fun w hw => ?_) (.inl rfl)⟩
    exact .inr (writtenBase?_of_mem hw)
  · cases h

theorem planSwap_within (hunit : i.opcode.unit = .swap) (h : planSwap i s = some plan) :
    plan.Within i s := by
  obtain ⟨o, operands⟩ := i
  unfold planSwap at h
  split at h
  · rename_i rd rm rn hoperands
    cases hoperands
    obtain ⟨width, -, rfl⟩ := Option.map_eq_some_iff.mp h
    exact ⟨.inr (.inr hunit), fun _ => .written nofun rfl rfl rfl (.inl rfl)⟩
  · cases h

theorem planBranch_within (h : planBranch i s = some plan) : plan.Within i s := by
  obtain ⟨o, operands⟩ := i
  unfold planBranch at h
  split at h
  · rename_i condition target hoperands
    cases hoperands
    split at h <;> cases h
    · rename_i hpasses
      exact .taken target ⟨condition, rfl, hpasses⟩ rfl
    · rename_i hfails
      refine .next ?_ rfl nofun (.inl rfl)
      rintro _ ⟨_, ⟨⟩, hpasses⟩
      exact hfails hpasses
  · cases h

theorem planFloatArith_within (h : planFloatArith i s = some plan) : plan.Within i s := by
  obtain ⟨o, operands⟩ := i
  unfold planFloatArith at h
  split at h
  · rename_i hoperands
    cases hoperands
    obtain ⟨result, -, rfl⟩ := Option.map_eq_some_iff.mp h
    exact .written nofun rfl rfl rfl (.inl rfl)
  · cases h

theorem planFloatCompare_within (hunit : i.opcode.unit = .floatCompare)
    (h : planFloatCompare i s = some plan) : plan.Within i s := by
  obtain ⟨o, operands⟩ := i
  have hother : ¬ o.Logical := fun ho => by cases o <;> cases ho <;> cases hunit
  unfold planFloatCompare at h
  split at h
  · rename_i hoperands
    cases hoperands
    cases h
    exact .unwritten nofun rfl rfl (.other rfl hother)
  · cases h

theorem planFloatConvert_within (h : planFloatConvert i s = some plan) : plan.Within i s := by
  obtain ⟨o, operands⟩ := i
  unfold planFloatConvert at h
  split at h
  · rename_i hoperands
    cases hoperands
    dsimp only at h
    split at h <;> cases h
    · exact .written nofun rfl rfl rfl (.inl rfl)
    · exact .written nofun rfl rfl rfl (.inl rfl)
  · cases h

end ExecutionUnit

theorem Plan.within_of_plan? {i : Instruction} {s : Registers} {plan : Plan}
    (h : i.opcode.unit.plan? i s = some plan) : plan.Within i s := by
  generalize hunit : i.opcode.unit = u at h
  cases u with
  | control => exact ExecutionUnit.planControl_within h
  | arithmetic => exact ExecutionUnit.planResult_within Sources.arithmetic?_logical h
  | multiply => exact ExecutionUnit.planResult_within Sources.product?_logical h
  | divide => exact ExecutionUnit.planResult_within Sources.quotient?_logical h
  | move => exact ExecutionUnit.planMove_within h
  | moveTop => exact ExecutionUnit.planMoveTop_within h
  | compare => exact ExecutionUnit.planCompare_within h
  | shift => exact ExecutionUnit.planShift_within h
  | load => exact ExecutionUnit.planLoad_within hunit h
  | store => exact ExecutionUnit.planStore_within hunit h
  | swap => exact ExecutionUnit.planSwap_within hunit h
  | branch => exact ExecutionUnit.planBranch_within h
  | floatArith => exact ExecutionUnit.planFloatArith_within h
  | floatCompare => exact ExecutionUnit.planFloatCompare_within hunit h
  | floatConvert => exact ExecutionUnit.planFloatConvert_within h

/-! ## The frame -/

namespace Instruction

variable {i : Instruction} {s : Registers} {e : Effects} {b b' : Bus}

theorem execute_within (h : Yields (i.execute s) b (.ok e) b') :
    e.Within i s ∧ (¬ i.Transfers → b' = b) := by
  obtain ⟨plan, w, hplan, rfl, hbus⟩ := plan_of_execute h
  have hwithin := Plan.within_of_plan? hplan
  cases plan with
  | done e => exact ⟨hwithin, fun _ => hbus ⟨e, rfl⟩⟩
  | access t effects => exact ⟨hwithin.2 w, fun hnot => absurd hwithin.1 hnot⟩

theorem frame_next (hbranch : ∀ target, ¬ i.BranchesTo s target) (hpc : e.nextPc = s.pc + 4)
    (hwrites : ∀ w ∈ e.writes, i.destination? = some w.1 ∨ i.writtenBase? = some w.1)
    (hupdate : i.MaySet s e.update) (hbus : ¬ i.Transfers → b' = b) :
    i.Frame s (e.commit s) b b' where
  registers r hne := by
    by_contra hnot
    refine hne (Registers.get_setAll (fun w hw => ?_) s)
    rintro rfl
    exact hnot ((hwrites w hw).elim .inl fun h => .inr (.inl h))
  flags := hupdate.flags
  overflow := hupdate.overflow
  carry := hupdate.carry
  next _ := hpc
  relative words h := absurd h (hbranch _)
  register rm h := absurd h (hbranch _)
  link target h := absurd h (hbranch _)
  bus := hbus

theorem frame_taken {target : BranchTarget} (hbranch : i.BranchesTo s target)
    (hbus : ¬ i.Transfers → b' = b) :
    i.Frame s ((Effects.taken s i.opcode target).commit s) b b' where
  registers r hne := by
    -- a taken branch writes the link register at most
    by_contra hnot
    refine hne (Registers.get_setAll (fun w hw => ?_) s)
    dsimp only [Effects.taken] at hw
    split at hw
    · rename_i hlinks
      obtain rfl := List.mem_singleton.mp hw
      rintro rfl
      exact hnot (.inr (.inr ⟨rfl, hlinks, target, hbranch⟩))
    · cases hw
  flags hne := absurd rfl hne
  overflow _ := rfl
  carry _ _ := rfl
  next h := absurd hbranch (h _)
  relative words h := by
    cases hbranch.unique h
    change s.pc + Word.ofInt (words.toInt * 4) = _
    rw [← UInt32.toNat_inj, UInt32.toNat_add, Word.toNat_ofInt, Word.toNat_ofInt]
    omega
  register rm h := by
    cases hbranch.unique h
    rfl
  link _ _ hlinks := by
    have hwrites : (Effects.taken s i.opcode target).writes = [(Register.link, s.pc + 4)] :=
      if_pos hlinks
    change (s.setAll (Effects.taken s i.opcode target).writes).get .link = _
    rw [hwrites]
    exact s.get_set_self .link (s.pc + 4)
  bus := hbus

theorem frame_of_execute (h : Yields (i.execute s) b (.ok e) b') : i.Frame s (e.commit s) b b' := by
  obtain ⟨hwithin, hbus⟩ := execute_within h
  cases hwithin with
  | taken target hbranch heq =>
    rw [heq]
    exact frame_taken hbranch hbus
  | next hbranch hpc hwrites hupdate => exact frame_next hbranch hpc hwrites hupdate hbus

/-- Whatever is executed and committed touches what its encoding names and nothing else, and no bit
but those of the flags is set in their word. -/
theorem touches_named (h : Yields (i.execute s) b (.ok e) b') :
    i.Frame s (e.commit s) b b' ∧ (e.commit s).flags.toWord.field 0 28 = 0 :=
  ⟨frame_of_execute h, (e.commit s).flags.field_toWord⟩

end Instruction

/-! ### A branch through the link register -/

namespace LinkedBranch

def state : Registers := Registers.zero.set .link 0x2000

def bus : Bus := TwoReaders.bus (TwoReaders.start TwoReaders.disk TwoReaders.ram)

/-- `blx lr` goes where the link register pointed before the return address went there. -/
theorem touches_link : ∃ i e, Instruction.decodeAt 0x73EE0000 0 = .ok i ∧
    Yields (i.execute state) bus (.ok e) bus ∧ (e.commit state).pc = 0x2000 ∧
    (e.commit state).get .link = 4 ∧ i.Frame state (e.commit state) bus bus ∧
    (e.commit state).flags.toWord.field 0 28 = 0 :=
  ⟨⟨.blx, .branch .al (.register .link)⟩, _, rfl, rfl, rfl, rfl, Instruction.touches_named rfl⟩

end LinkedBranch

end PagedMachine

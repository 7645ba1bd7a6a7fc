import PagedMachine.Proofs.Behaviour
import PagedMachine.Execution.Execute

/-!
# Plans and what they ask for

Only the control unit asks something of the run loop, and no instruction writes
more than two registers.
-/

namespace PagedMachine

namespace Plan

def effects : Plan → Word → Effects
  | done e, _ => e
  | access _ f, w => f w

end Plan

structure Effects.Plain (e : Effects) : Prop where
  control : e.control = .none
  writes : e.writes.length ≤ 2

theorem Effects.Plain.unwritten {e : Effects} (hcontrol : e.control = .none)
    (hwrites : e.writes = []) : e.Plain :=
  ⟨hcontrol, by rw [hwrites]; exact Nat.zero_le 2⟩

theorem Effects.Plain.written {e : Effects} {write : Register × Word} (hcontrol : e.control = .none)
    (hwrites : e.writes = [write]) : e.Plain :=
  ⟨hcontrol, by rw [hwrites]; exact Nat.le_succ 1⟩

namespace ExecutionUnit

variable {u : ExecutionUnit} {i : Instruction} {s : Registers} {plan : Plan}

theorem planResult_plain {cost : Cost} {result? : Sources → Opcode → Option (Word × FlagsUpdate)}
    (h : planResult i s cost result? = some plan) (w : Word) : (plan.effects w).Plain := by
  unfold planResult at h
  split at h
  · obtain ⟨_, -, rfl⟩ := Option.map_eq_some_iff.mp h
    exact .written rfl rfl
  · cases h

theorem planMove_plain (h : planMove i s = some plan) (w : Word) : (plan.effects w).Plain := by
  unfold planMove at h
  split at h
  · dsimp only at h
    split at h <;> cases h
    · exact .written rfl rfl
    · exact .written rfl rfl
  · cases h

theorem planMoveTop_plain (h : planMoveTop i s = some plan) (w : Word) :
    (plan.effects w).Plain := by
  unfold planMoveTop at h
  split at h <;> cases h
  exact .written rfl rfl

theorem planCompare_plain (h : planCompare i s = some plan) (w : Word) :
    (plan.effects w).Plain := by
  unfold planCompare at h
  split at h
  · obtain ⟨_, -, rfl⟩ := Option.map_eq_some_iff.mp h
    exact .unwritten rfl rfl
  · cases h

theorem planShift_plain (h : planShift i s = some plan) (w : Word) : (plan.effects w).Plain := by
  unfold planShift at h
  split at h
  · obtain ⟨_, -, rfl⟩ := Option.map_eq_some_iff.mp h
    exact .written rfl rfl
  · cases h

theorem planLoad_plain (h : planLoad i s = some plan) (w : Word) : (plan.effects w).Plain := by
  unfold planLoad at h
  split at h
  · rename_i mode rt rn offset up _
    obtain ⟨_, -, rfl⟩ := Option.map_eq_some_iff.mp h
    refine ⟨rfl, ?_⟩
    change ((mode.effective rn offset up s).writeback.toList ++ [_]).length ≤ 2
    cases (mode.effective rn offset up s).writeback with
    | none => exact Nat.le_succ 1
    | some _ => exact Nat.le_refl 2
  · cases h

theorem planStore_plain (h : planStore i s = some plan) (w : Word) : (plan.effects w).Plain := by
  unfold planStore at h
  split at h
  · rename_i mode rt rn offset up _
    obtain ⟨_, -, rfl⟩ := Option.map_eq_some_iff.mp h
    refine ⟨rfl, ?_⟩
    change (mode.effective rn offset up s).writeback.toList.length ≤ 2
    cases (mode.effective rn offset up s).writeback with
    | none => exact Nat.zero_le 2
    | some _ => exact Nat.le_succ 1
  · cases h

theorem planSwap_plain (h : planSwap i s = some plan) (w : Word) : (plan.effects w).Plain := by
  unfold planSwap at h
  split at h
  · obtain ⟨_, -, rfl⟩ := Option.map_eq_some_iff.mp h
    exact .written rfl rfl
  · cases h

theorem planBranch_plain (h : planBranch i s = some plan) (w : Word) : (plan.effects w).Plain := by
  unfold planBranch at h
  split at h
  · split at h <;> cases h
    · refine ⟨rfl, ?_⟩
      change (if i.opcode = .bl ∨ i.opcode = .blx then [_] else []).length ≤ 2
      split
      · exact Nat.le_succ 1
      · exact Nat.zero_le 2
    · exact .unwritten rfl rfl
  · cases h

theorem planFloatArith_plain (h : planFloatArith i s = some plan) (w : Word) :
    (plan.effects w).Plain := by
  unfold planFloatArith at h
  split at h
  · obtain ⟨_, -, rfl⟩ := Option.map_eq_some_iff.mp h
    exact .written rfl rfl
  · cases h

theorem planFloatCompare_plain (h : planFloatCompare i s = some plan) (w : Word) :
    (plan.effects w).Plain := by
  unfold planFloatCompare at h
  split at h <;> cases h
  exact .unwritten rfl rfl

theorem planFloatConvert_plain (h : planFloatConvert i s = some plan) (w : Word) :
    (plan.effects w).Plain := by
  unfold planFloatConvert at h
  split at h
  · dsimp only at h
    split at h <;> cases h
    · exact .written rfl rfl
    · exact .written rfl rfl
  · cases h

/-- All but the control unit leave the run loop alone. -/
theorem plan?_plain (hu : u ≠ .control) (h : u.plan? i s = some plan) (w : Word) :
    (plan.effects w).Plain := by
  cases u with
  | control => exact absurd rfl hu
  | arithmetic => exact planResult_plain h w
  | multiply => exact planResult_plain h w
  | divide => exact planResult_plain h w
  | move => exact planMove_plain h w
  | moveTop => exact planMoveTop_plain h w
  | compare => exact planCompare_plain h w
  | shift => exact planShift_plain h w
  | load => exact planLoad_plain h w
  | store => exact planStore_plain h w
  | swap => exact planSwap_plain h w
  | branch => exact planBranch_plain h w
  | floatArith => exact planFloatArith_plain h w
  | floatCompare => exact planFloatCompare_plain h w
  | floatConvert => exact planFloatConvert_plain h w

theorem planControl_control (h : planControl i s = some plan) (w : Word) :
    (plan.effects w).writes = [] ∧ ((plan.effects w).control = .halt ↔ i.opcode = .hlt) ∧
      ∀ number, (plan.effects w).control = .softwareInterrupt number ↔
        i.opcode = .swi ∧ i.operands = .control number := by
  unfold planControl at h
  split at h
  · rename_i payload hoperands
    split at h <;> rename_i hopcode <;> cases h
    · rw [hopcode]
      exact ⟨rfl, ⟨fun _ => rfl, fun _ => rfl⟩, fun number => ⟨nofun, fun h => nomatch h.1⟩⟩
    · refine ⟨rfl, ⟨nofun, fun h => nomatch hopcode ▸ h⟩, fun number => ?_⟩
      constructor
      · rintro ⟨⟩
        exact ⟨hopcode, hoperands⟩
      · rintro ⟨-, h⟩
        rw [hoperands] at h
        cases h
        rfl
    · rename_i hnotHalt
      exact ⟨rfl, ⟨nofun, fun h => absurd h hnotHalt⟩, fun number =>
        ⟨nofun, fun h => absurd h.1 hopcode⟩⟩
  · cases h

end ExecutionUnit

theorem Opcode.unit_control {o : Opcode} (h : o = .hlt ∨ o = .swi) : o.unit = .control := by
  rcases h with rfl | rfl
  · rfl
  · rfl

/-- `hlt` asks for a halt, `swi` for an interrupt with its payload, and nothing else asks for
these. -/
theorem Plan.control_of_plan? {i : Instruction} {s : Registers} {plan : Plan}
    (h : i.opcode.unit.plan? i s = some plan) (w : Word) :
    ((plan.effects w).control = .halt ↔ i.opcode = .hlt) ∧
      ∀ number, (plan.effects w).control = .softwareInterrupt number ↔
        i.opcode = .swi ∧ i.operands = .control number := by
  by_cases hu : i.opcode.unit = .control
  · rw [hu] at h
    exact (ExecutionUnit.planControl_control h w).2
  · have hplain := (ExecutionUnit.plan?_plain hu h w).control
    rw [hplain]
    refine ⟨⟨nofun, fun h => absurd (Opcode.unit_control (.inl h)) hu⟩, fun number => ?_⟩
    exact ⟨nofun, fun h => absurd (Opcode.unit_control (.inr h.1)) hu⟩

theorem Plan.writes_le_two {u : ExecutionUnit} {i : Instruction} {s : Registers} {plan : Plan}
    (h : u.plan? i s = some plan) (w : Word) : (plan.effects w).writes.length ≤ 2 := by
  by_cases hu : u = .control
  · subst hu
    rw [(ExecutionUnit.planControl_control h w).1]
    exact Nat.zero_le 2
  · exact (ExecutionUnit.plan?_plain hu h w).writes

/-- What is executed to its end was planned, and the answer to its transfer completes the plan.
Without a transfer the bus is left alone. -/
theorem Instruction.plan_of_execute {i : Instruction} {s : Registers} {b b' : Bus} {e : Effects}
    (h : Yields (i.execute s) b (.ok e) b') :
    ∃ plan w, i.opcode.unit.plan? i s = some plan ∧ e = plan.effects w ∧
      ((∃ e', plan = .done e') → b' = b) := by
  unfold execute ExecutionUnit.run at h
  split at h
  · rename_i plan hplan
    cases plan with
    | done e' =>
      obtain ⟨⟨⟩, hb⟩ := Yields.of_pure h
      exact ⟨.done e, 0, hplan, rfl, fun _ => hb⟩
    | access t effects =>
      obtain ⟨r, hr, -⟩ := Yields.of_map (g := effects) h
      cases r with
      | ok w => exact ⟨.access t effects, w, hplan, Except.ok.inj hr, nofun⟩
      | error f => cases hr
  · cases h.of_throw.1

theorem Instruction.effects_of_execute {i : Instruction} {s : Registers} {b b' : Bus} {e : Effects}
    (h : Yields (i.execute s) b (.ok e) b') :
    ∃ plan w, i.opcode.unit.plan? i s = some plan ∧ e = plan.effects w := by
  obtain ⟨plan, w, hplan, he, -⟩ := plan_of_execute h
  exact ⟨plan, w, hplan, he⟩

end PagedMachine

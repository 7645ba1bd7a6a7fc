import PagedMachine.Proofs.Housing

/-!
# Books that cover the mappings

The numbers of processes wrap, and a process whose number is given away again leaves
its counts behind: the books may count more mappings than there are. What takes
mappings away, and what adds some to pages that have one, goes through all the same,
and the books cover the mappings again. That is so for books of every kind, as long
as what is counted can be released.
-/

namespace PagedMachine.PagedMemory

variable {B : Paging → (Location → Nat) → Prop} {m m' m₁ : PagedMemory} {n : Location → Nat}
    {pid page : Word} {d : Directory} {mp : Mapping}

/-- The books have a count of each location, and leave no mapping out. -/
structure Covers (B : Paging → (Location → Nat) → Prop) (n : Location → Nat) (m : PagedMemory) :
    Prop where
  books : B m.toPaging n
  covers : ∀ l, m.mappingsOf l ≤ n l

theorem Covers.counted (h : Covers B n m) (hd : m.processes.find? pid = some d)
    (hm : d.find? page = some mp) : n mp.location ≠ 0 := by
  have hmapped : m.mappingsOf mp.location ≠ 0 := mappingsOf_ne_zero hd hm
  have hcovers := h.covers mp.location
  omega

theorem SameOutsideBooks.covers (h : SameOutsideBooks m₁ m') (hbooks : B m'.toPaging n)
    (hcovers : ∀ l, m₁.mappingsOf l ≤ n l) : Covers B n m' := by
  refine ⟨hbooks, fun l => ?_⟩
  rw [h.mappingsOf]
  exact hcovers l

theorem sameExtent_withoutProcess (m : PagedMemory) (pid : Word) :
    SameExtent m (m.withoutProcess pid) :=
  ⟨rfl, rfl, rfl, rfl, rfl⟩

theorem sameExtent_numbered (m : PagedMemory) (d : Directory) : SameExtent m (m.numbered d) :=
  ⟨rfl, rfl, rfl, rfl, rfl⟩

theorem mappingsOf_numbered (m : PagedMemory) (d : Directory) (l : Location) :
    (m.numbered d).mappingsOf l ≤ d.mappingsOf l + m.mappingsOf l :=
  Table.sum_insert_le m.processes m.nextPid d (·.mappingsOf l)

namespace Bookkeeping

variable (hB : Bookkeeping B) (h : Covers B n m)
include hB h

/-! ## Processes -/

theorem beginProcess {r : Except Fault Word} (hstep : Yields PagedMemory.beginProcess m r m') :
    m' = m.begunNext ∧ Covers B n m' := by
  obtain ⟨-, rfl⟩ := hstep.eq_of_ok beginProcess_begunNext
  refine ⟨rfl, hB.frame h.books _ _ _ _ _, fun l => ?_⟩
  have hle := mappingsOf_numbered m .empty l
  have hnone : Directory.mappingsOf .empty l = 0 := rfl
  have hcovers := h.covers l
  change (m.numbered .empty).mappingsOf l ≤ n l
  omega

theorem endProcess {r : Except Fault Unit} (hstep : Yields (PagedMemory.endProcess pid) m r m') :
    m' = m ∨ ∃ n', SameOutsideBooks (m.withoutProcess pid) m' ∧ Covers B n' m' := by
  have hstep := hstep.of_get_bind
  cases hd : m.processes.find? pid with
  | none =>
    rw [hd] at hstep
    exact .inl hstep.of_throw.2
  | some d =>
    rw [hd] at hstep
    have hbooks : B (m.withoutProcess pid).toPaging n := hB.frame h.books _ _ _ _ _
    obtain ⟨m₂, hrun, hbooks₂, hsame⟩ := hB.releaseAll d.locations hbooks fun l =>
      Nat.le_trans (mappingsOf_le hd l) (h.covers l)
    obtain ⟨-, rfl⟩ := hstep.eq_of_ok hrun
    refine .inr ⟨_, hsame, hsame.covers hbooks₂ fun l => ?_⟩
    rw [mappingsOf_withoutProcess hd]
    exact Nat.sub_le_sub_right (h.covers l) _

theorem switchProcess {r : Except Fault Unit}
    (hstep : Yields (PagedMemory.switchProcess pid) m r m') :
    (m' = m ∨ m' = { m with current := some pid }) ∧ Covers B n m' := by
  have hstep := hstep.of_get_bind
  split at hstep
  · obtain ⟨-, rfl⟩ := hstep.eq_of_ok rfl
    exact ⟨.inr rfl, hB.frame h.books _ _ _ _ _, h.covers⟩
  · obtain ⟨-, rfl⟩ := hstep.of_throw
    exact ⟨.inl rfl, h⟩

/-- The mappings of the child can be counted; a count that stays at the largest covers what is
within bounds. -/
theorem forkProcess {r : Except Fault Word} (hstep : Yields PagedMemory.forkProcess m r m') :
    m' = m ∨ ∃ pid d m₂ n', m.current = some pid ∧ m.processes.find? pid = some d ∧
      SameOutsideBooks (m.changed pid (·.protectWritable)) m₂ ∧ m' = m₂.numbered d.protectWritable ∧
      (WithinCounts m' → Covers B n' m') := by
  cases hcur : m.currentDirectory with
  | error e => exact .inl (hstep.eq_of_error (bind_error (updateCurrent_error hcur _))).2
  | ok d =>
    obtain ⟨pid, hc, hd⟩ := currentDirectory_ok.mp hcur
    have hbooks : B (m.changed pid (·.protectWritable)).toPaging n := hB.frame h.books _ _ _ _ _
    have hmaps : (m.changed pid (·.protectWritable)).mappingsOf = m.mappingsOf :=
      mappingsOf_changed_eq hd (mappingsOf_protectWritable d)
    have hcount : ∀ l, d.protectWritable.locations.count l = d.mappingsOf l :=
      mappingsOf_protectWritable d
    have hmapped : ∀ l ∈ d.protectWritable.locations, n l ≠ 0 := by
      intro l hl
      have := List.count_pos_iff.mpr hl
      have := hcount l
      have := mappingsOf_le hd l
      have := h.covers l
      omega
    obtain ⟨m₂, hretain, hbooks₂, hsame⟩ := hB.retainAll _ hbooks hmapped
    obtain ⟨-, rfl⟩ :=
      hstep.eq_of_ok ((forkProcess_run hc hd hretain).trans (addProcess_numbered _))
    refine .inr ⟨pid, d, m₂, _, hc, hd, hsame, rfl, fun hcounts =>
      ⟨hB.frame hbooks₂ _ _ _ _ _, fun l => ?_⟩⟩
    -- within bounds no count has stopped at the largest, so each covers the mappings of both
    have hle := mappingsOf_numbered m₂ d.protectWritable l
    have hmax := hcounts l
    have hcovers := h.covers l
    have hall : d.protectWritable.mappingsOf l = d.protectWritable.locations.count l := rfl
    rw [hall, hsame.mappingsOf, hmaps] at hle
    split
    · omega
    · rename_i hout
      rw [List.count_eq_zero_of_not_mem hout] at hle
      omega

/-! ## Mappings -/

theorem removePage {r : Except Fault Unit} (hstep : Yields (PagedMemory.removePage page) m r m') :
    m' = m ∨ ∃ pid d n', m.processes.find? pid = some d ∧
    SameOutsideBooks (m.changed pid (·.erase page)) m' ∧ Covers B n' m' := by
  rcases hstep.of_get_bind.of_outcome_bind with ⟨mp, hmp, hstep⟩ | ⟨-, rfl⟩
  case inr => exact .inl rfl
  obtain ⟨pid, d, hc, hd, hm⟩ := mappingOf_ok hmp
  have hbooks : B (m.changed pid (·.erase page)).toPaging n := hB.frame h.books _ _ _ _ _
  obtain ⟨m₂, hrun, hbooks₂, hsame⟩ := hB.release hbooks (h.counted hd hm)
  obtain ⟨-, rfl⟩ := hstep.eq_of_ok ((bind_ok (updateCurrent_run hc hd _)).trans hrun)
  refine .inr ⟨pid, d, _, hd, hsame, hsame.covers hbooks₂ fun l => ?_⟩
  have hone := Directory.mappingsOf_erase hm rfl l
  have hmaps := mappingsOf_changed (f := (·.erase page)) hd l
  have hcovers := h.covers l
  rw [update_pred]
  by_cases hl : l = mp.location
  · rw [if_pos hl.symm] at hone
    rw [if_pos hl]
    omega
  · rw [if_neg (Ne.symm hl)] at hone
    rw [if_neg hl]
    omega

theorem removeAll {r : Except Fault Unit} (hstep : Yields PagedMemory.removeAll m r m') :
    m' = m ∨ ∃ pid d n', m.processes.find? pid = some d ∧
    SameOutsideBooks (m.changed pid fun _ => .empty) m' ∧ Covers B n' m' := by
  rcases hstep.of_get_bind.of_outcome_bind with ⟨d, hcur, hstep⟩ | ⟨-, rfl⟩
  case inr => exact .inl rfl
  obtain ⟨pid, hc, hd⟩ := currentDirectory_ok.mp hcur
  have hbooks : B (m.changed pid fun _ => .empty).toPaging n := hB.frame h.books _ _ _ _ _
  obtain ⟨m₂, hrun, hbooks₂, hsame⟩ := hB.releaseAll d.locations hbooks fun l =>
    Nat.le_trans (mappingsOf_le hd l) (h.covers l)
  obtain ⟨-, rfl⟩ := hstep.eq_of_ok ((bind_ok (updateCurrent_run hc hd _)).trans hrun)
  refine .inr ⟨pid, d, _, hd, hsame, hsame.covers hbooks₂ fun l => ?_⟩
  have hmaps := mappingsOf_changed (f := fun _ => .empty) hd l
  have hnone : Directory.mappingsOf .empty l = 0 := rfl
  have hall : d.locations.count l = d.mappingsOf l := rfl
  have hcovers := h.covers l
  omega

theorem sharePage {q source target : Word} {copyOnWrite : Bool} {r : Except Fault Unit}
    (hstep : Yields (PagedMemory.sharePage q source target copyOnWrite) m r m') :
    m' = m ∨ ∃ cur d mp d' m₂ n', r = .ok () ∧ m.current = some cur ∧ m.processes.find? q = some d ∧
      d.find? source = some mp ∧
      SameOutsideBooks (m.changed q (·.insert source (sharedBy copyOnWrite mp))) m₂ ∧
      m₂.processes.find? cur = some d' ∧
      m' = m₂.changed cur (·.insert target (sharedBy copyOnWrite mp)) ∧
      (WithinCounts m' → Covers B n' m') := by
  rcases sharePage_cases hstep with rfl | ⟨cur, dc, d, mp, hc, hdc, ht, hd, hm, hstep⟩
  · exact .inl rfl
  have hl := location_sharedBy copyOnWrite mp
  generalize hshared : sharedBy copyOnWrite mp = shared at hstep hl
  have hbooks : B (m.changed q (·.insert source shared)).toPaging n := hB.frame h.books _ _ _ _ _
  have hmaps : (m.changed q (·.insert source shared)).mappingsOf = m.mappingsOf :=
    mappingsOf_changed_eq hd (mappingsOf_insert_of_location hm hl)
  obtain ⟨d', hd', ht'⟩ := find?_target shared hdc ht hd hm
  obtain ⟨m₂, hretain, hbooks₂, hsame⟩ := hB.retain hbooks (hl ▸ h.counted hd hm)
  have hd₂ : m₂.processes.find? cur = some d' := hsame.processes ▸ hd'
  obtain ⟨hr, rfl⟩ :=
    hstep.eq_of_ok ((bind_ok hretain).trans (updateCurrent_run (hsame.current.trans hc) hd₂ _))
  refine .inr ⟨cur, d, mp, d', m₂, _, hr, hc, hd, hm, hshared ▸ hsame, hd₂, hshared ▸ rfl,
    fun hcounts =>
    ⟨hB.frame hbooks₂ _ _ _ _ _, fun l => ?_⟩⟩
  -- the target adds one mapping, and within bounds the count has not stopped at the largest
  have hmax := hcounts l
  have hcovers := h.covers l
  have hadded := mappingsOf_changed (f := (·.insert target shared)) hd₂ l
  have hone := Directory.mappingsOf_insert (m := shared) ht' rfl l
  rw [hsame.mappingsOf, hmaps] at hadded
  rw [Function.update_apply]
  by_cases hk : l = shared.location
  · rw [if_pos hk.symm] at hone
    rw [if_pos hk, ← hk]
    omega
  · rw [if_neg (Ne.symm hk)] at hone
    rw [if_neg hk]
    omega

end Bookkeeping

end PagedMachine.PagedMemory

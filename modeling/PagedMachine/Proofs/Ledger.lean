import PagedMachine.Proofs.Initial

/-!
# Frames that are free, counted or lost

A frame of the ranges is free, or counted, or else lost: then nobody will get it any
more. The books stay sound when frames are lost, as long as nothing that is free is
counted. Every change of the books that gives and takes in one place leaves the lost
frames as they are, and with them the number of frames that are free or counted; a
frame that is handed out and not counted is one more.
-/

namespace PagedMachine

namespace Table

variable {α : Type} {t : Table α} {key : Word}

theorem size_eq_sum (t : Table α) : t.size = t.sum fun _ => 1 := by
  unfold size sum values
  induction t.entries with
  | nil => rfl
  | cons e rest ih =>
    rw [List.length_cons, List.map_cons, List.foldr_cons, ih, Nat.add_comm]

theorem size_insert_new (h : t.contains key = false) (value : α) :
    (t.insert key value).size = t.size + 1 := by
  rw [size_eq_sum, size_eq_sum, sum_insert (contains_eq_false.mp h), Nat.add_comm]

theorem size_insert_old (h : t.contains key) (value : α) : (t.insert key value).size = t.size := by
  obtain ⟨old, hold⟩ := contains_iff.mp h
  have hsum := sum_update hold (fun _ => value) fun _ => 1
  rw [update_eq_insert hold] at hsum
  rw [size_eq_sum, size_eq_sum]
  omega

theorem size_erase (h : t.contains key) : (t.erase key).size + 1 = t.size := by
  obtain ⟨old, hold⟩ := contains_iff.mp h
  rw [size_eq_sum, size_eq_sum, ← sum_erase hold, Nat.add_comm]

end Table

theorem Pool.size_foldr_insert {pages : List Nat} (hnodup : pages.Nodup)
    (hlt : ∀ n ∈ pages, n < 2 ^ 32) :
    (pages.foldr (fun n (free : Table Unit) => free.insert (UInt32.ofNat n) ()) .empty).size =
    pages.length := by
  induction pages with
  | nil => rfl
  | cons n pages ih =>
    obtain ⟨hn, hrest⟩ := List.nodup_cons.mp hnodup
    have hnew :
        (pages.foldr (fun n (free : Table Unit) => free.insert (UInt32.ofNat n) ()) .empty).contains
        (UInt32.ofNat n) = false := by
      refine Bool.eq_false_iff.mpr fun hc => ?_
      obtain ⟨k, hk, hkn⟩ := (contains_foldr_insert ..).mp hc
      have hnat := congrArg UInt32.toNat hkn
      rw [UInt32.toNat_ofNat', UInt32.toNat_ofNat',
        Nat.mod_eq_of_lt (hlt k (List.mem_cons_of_mem _ hk)),
        Nat.mod_eq_of_lt (hlt n List.mem_cons_self)] at hnat
      exact hn (hnat ▸ hk)
    rw [List.foldr_cons, Table.size_insert_new hnew, ih hrest fun k hk =>
      hlt k (List.mem_cons_of_mem _ hk),
      List.length_cons]

theorem Pool.freeCount_ofRange (kind : PoolKind) (low high : Word) :
    (ofRange kind low high).freeCount = high.toNat + 1 - low.toNat := by
  have hhigh := high.toNat_lt
  refine (size_foldr_insert List.nodup_range' fun n hn => ?_).trans List.length_range'
  rw [List.mem_range'_1] at hn
  omega

namespace Paging

variable {p q : Paging} {l : Location} {count : Nat} {gone gone' : List Word}

/-! ## Books with lost frames -/

/-- Nothing that is free is counted, and what is free or counted is one of the pool's own. -/
structure Ledger (p : Paging) : Prop where
  counted : ∀ l, p.count? l ≠ some 0
  free : ∀ l, p.isFree l → p.refs l = 0
  owned : ∀ l, p.refs l ≠ 0 → p.owns l
  pooled : ∀ kind page, (p.pool kind).isFree page → (p.pool kind).owns page

/-- The frame belongs to a pool, but is neither free nor counted. -/
def Lost (p : Paging) (frame : Word) : Prop :=
  p.owns (.frame frame) ∧ p.isFree (.frame frame) = false ∧ p.refs (.frame frame) = 0

def accounted (p : Paging) : Nat := p.userPool.freeCount + p.kernelPool.freeCount + p.frameRefs.size

theorem count?_of_refs (hl : p.refs l ≠ 0) : p.count? l = some (p.refs l) := by
  rw [refs_eq] at hl ⊢
  cases hc : p.count? l with
  | none => exact absurd (by rw [hc]; rfl) hl
  | some count => rfl

theorem Ledger.count?_eq_none (h : Ledger p) (hl : p.refs l = 0) : p.count? l = none := by
  cases hc : p.count? l with
  | none => rfl
  | some count =>
    rw [refs_eq, hc, Option.getD_some] at hl
    exact absurd (hl ▸ hc) (h.counted l)

theorem Ledger.isFree_eq_false (h : Ledger p) (hl : p.refs l ≠ 0) : p.isFree l = false :=
  Bool.eq_false_iff.mpr fun hfree => hl (h.free l hfree)

theorem refs_occupy (p : Paging) (l k : Location) (count : Nat) :
    (p.occupy l count).refs k = if k = l then count else p.refs k := by
  rw [refs_eq, refs_eq, count?_occupy]
  split <;> rfl

theorem refs_vacate (p : Paging) (l k : Location) :
    (p.vacate l).refs k = if k = l then 0 else p.refs k := by
  rw [refs_eq, refs_eq, count?_vacate]
  split <;> rfl

theorem refs_recount (p : Paging) (l k : Location) (count : Nat) :
    (p.recount l count).refs k = if k = l then count else p.refs k := by
  rw [refs_eq, refs_eq, count?_recount]
  split <;> rfl

/-- The books change at one location, which is not both free and counted then. -/
theorem Ledger.of_change (h : Ledger p) (hrange : q.range = p.range) (howns : p.owns l)
    (hpooled : ∀ kind page, (q.pool kind).isFree page → (q.pool kind).owns page)
    (hcount : ∀ k, k ≠ l → q.count? k = p.count? k) (hfree : ∀ k, k ≠ l → q.isFree k = p.isFree k)
    (hself : q.count? l ≠ some 0) (hapart : q.isFree l → q.refs l = 0) : Ledger q where
  counted k := by
    by_cases hk : k = l
    · exact hk ▸ hself
    · exact hcount k hk ▸ h.counted k
  free k := by
    by_cases hk : k = l
    · exact hk ▸ hapart
    · rw [hfree k hk, refs_eq, hcount k hk, ← refs_eq]
      exact h.free k
  owned k := by
    rw [owns_of_range hrange]
    by_cases hk : k = l
    · exact fun _ => hk ▸ howns
    · rw [refs_eq, hcount k hk, ← refs_eq]
      exact h.owned k
  pooled := hpooled

/-! ## Changes that lose nothing, and one that does -/

/-- These frames are lost on the way, and no others. -/
structure Drops (gone : List Word) (p q : Paging) : Prop where
  ledger : Ledger q
  range : q.range = p.range
  lost : ∀ frame, q.Lost frame ↔ p.Lost frame ∨ frame ∈ gone
  fresh : ∀ frame ∈ gone, ¬ p.Lost frame
  nodup : gone.Nodup
  accounted : q.accounted + gone.length = p.accounted

theorem Drops.refl (h : Ledger p) : Drops [] p p where
  ledger := h
  range := rfl
  lost _ := by simp
  fresh := nofun
  nodup := .nil
  accounted := rfl

theorem Drops.trans {s : Paging} (h : Drops gone p q) (h' : Drops gone' q s) :
    Drops (gone ++ gone') p s where
  ledger := h'.ledger
  range := h'.range.trans h.range
  lost frame := by rw [h'.lost, h.lost, List.mem_append, or_assoc]
  fresh frame hf hlost := by
    rcases List.mem_append.mp hf with hf | hf
    · exact h.fresh frame hf hlost
    · exact h'.fresh frame hf ((h.lost frame).mpr (.inl hlost))
  nodup := by
    refine List.nodup_append.mpr ⟨h.nodup, h'.nodup, fun a ha b hb hab => ?_⟩
    exact h'.fresh b hb ((h.lost b).mpr (.inr (hab ▸ ha)))
  accounted := by
    rw [List.length_append, ← h.accounted, ← h'.accounted]
    omega

/-- The rest of the state does not matter. -/
theorem Drops.frame (h : Drops gone p q) (disk : Disk) (processes : Table Directory)
    (current : Option Word) (nextPid : Word) (counters : PagingCounters) :
    Drops gone p { q with disk, processes, current, nextPid, counters } where
  ledger := by
    refine ⟨fun l => ?_, fun l => ?_, fun l => ?_, fun kind => ?_⟩
    · cases l with
      | frame frame => exact h.ledger.counted (.frame frame)
      | slot slot => exact h.ledger.counted (.slot slot)
    · cases l with
      | frame frame => exact h.ledger.free (.frame frame)
      | slot slot => exact h.ledger.free (.slot slot)
    · cases l with
      | frame frame => exact h.ledger.owned (.frame frame)
      | slot slot => exact h.ledger.owned (.slot slot)
    · cases kind with
      | user => exact h.ledger.pooled .user
      | kernel => exact h.ledger.pooled .kernel
      | disk => exact h.ledger.pooled .disk
  range := h.range
  lost := h.lost
  fresh := h.fresh
  nodup := h.nodup
  accounted := h.accounted

/-- What is given in one place and taken in the same leaves nothing behind. -/
theorem drops_nothing (hledger : Ledger q) (hrange : q.range = p.range)
    (hlost : ∀ k, q.isFree k = false ∧ q.refs k = 0 ↔ p.isFree k = false ∧ p.refs k = 0)
    (haccounted : q.accounted = p.accounted) : Drops [] p q where
  ledger := hledger
  range := hrange
  lost frame := by
    rw [Lost, Lost, owns_of_range hrange, hlost]
    simp
  fresh := nofun
  nodup := .nil
  accounted := haccounted

theorem accounted_setFree (p : Paging) (frame : Word) (f : Table Unit → Table Unit) :
    (p.setFree (.frame frame) f).accounted + (p.pool (p.framePool frame)).free.size =
      p.accounted + (f (p.pool (p.framePool frame)).free).size := by
  rcases p.framePool_eq frame with hp | hp
  all_goals
    simp only [accounted, setFree, home, hp, setPool, pool, Pool.freeCount]
    omega

theorem accounted_with_refs (p : Paging) (frameRefs : Table Nat) (resident : List Word) :
    ({ p with frameRefs, resident } : Paging).accounted + p.frameRefs.size =
    p.accounted + frameRefs.size := by
  simp only [accounted]
  omega

theorem Drops.occupy (h : Ledger p) (hfree : p.isFree l) (hc : count ≠ 0) :
    Drops [] p (p.occupy l count) := by
  have hunused := h.free l hfree
  refine drops_nothing ?_ (p.range_occupy l count) (fun k => ?_) ?_
  · refine h.of_change (p.range_occupy l count) (h.pooled _ _ hfree) (pooled_occupy h.pooled count)
      (fun k hk => ?_)
      (fun k hk => ?_) ?_ ?_
    · rw [count?_occupy, if_neg hk]
    · simp [isFree_occupy, hk]
    · rw [count?_occupy, if_pos rfl]
      exact fun e => hc (Option.some.inj e)
    · simp [isFree_occupy]
  · rw [isFree_occupy, refs_occupy]
    by_cases hk : k = l
    · simp [hk, hc, hfree]
    · simp [hk]
  · cases l with
    | slot slot => rfl
    | frame frame =>
      have hnew :=
        Table.size_insert_new (t := p.frameRefs)
          (Table.contains_eq_false.mpr (h.count?_eq_none hunused)) count
      have herase : ((p.pool (p.framePool frame)).free.erase frame).size + 1 =
          (p.pool (p.framePool frame)).free.size :=
        Table.size_erase hfree
      have hpool := accounted_setFree p frame (·.erase frame)
      have hrefs :=
        accounted_with_refs (p.setFree (.frame frame) (·.erase frame))
          (p.frameRefs.insert frame count) (p.resident ++ [frame])
      rw [show (p.setFree (.frame frame) (·.erase frame)).frameRefs =
        p.frameRefs from frameRefs_setPool ..] at hrefs
      simp only [Paging.occupy] at *
      omega

theorem Drops.vacate (h : Ledger p) (hl : p.refs l ≠ 0) : Drops [] p (p.vacate l) := by
  have howns := h.owned l hl
  refine drops_nothing ?_ (p.range_vacate l) (fun k => ?_) ?_
  · refine h.of_change (p.range_vacate l) howns (pooled_vacate h.pooled howns) (fun k hk => ?_)
      (fun k hk => ?_) ?_ ?_
    · rw [count?_vacate, if_neg hk]
    · simp [isFree_vacate, hk]
    · rw [count?_vacate, if_pos rfl]
      nofun
    · exact fun _ => by rw [refs_vacate, if_pos rfl]
  · rw [isFree_vacate, refs_vacate]
    by_cases hk : k = l
    · simp [hk, hl]
    · simp [hk]
  · cases l with
    | slot slot => rfl
    | frame frame =>
      have hcounted : p.frameRefs.contains frame := Table.contains_iff.mpr ⟨_, count?_of_refs hl⟩
      have herase := Table.size_erase hcounted
      have hnew : ((p.pool (p.framePool frame)).free.insert frame ()).size =
          (p.pool (p.framePool frame)).free.size + 1 :=
        Table.size_insert_new (h.isFree_eq_false hl) ()
      have hpool := accounted_setFree p frame (·.insert frame ())
      have hrefs :=
        accounted_with_refs (p.setFree (.frame frame) (·.insert frame ())) (p.frameRefs.erase frame)
        (p.resident.filter (· != frame))
      rw [show (p.setFree (.frame frame) (·.insert frame ())).frameRefs =
        p.frameRefs from frameRefs_setPool ..] at hrefs
      simp only [Paging.vacate] at *
      omega

theorem Drops.recount (h : Ledger p) (hl : p.refs l ≠ 0) (hc : count ≠ 0) :
    Drops [] p (p.recount l count) := by
  refine drops_nothing ?_ (p.range_recount l count) (fun k => ?_) ?_
  · refine h.of_change (p.range_recount l count) (h.owned l hl) (pooled_recount h.pooled count)
      (fun k hk => ?_)
      (fun k _ => isFree_recount ..) ?_ ?_
    · rw [count?_recount, if_neg hk]
    · rw [count?_recount, if_pos rfl]
      exact fun e => hc (Option.some.inj e)
    · rw [isFree_recount]
      exact fun hfree => absurd (h.free l hfree) hl
  · rw [isFree_recount, refs_recount]
    by_cases hk : k = l
    · simp [hk, hc, hl]
    · simp [hk]
  · cases l with
    | slot slot => rfl
    | frame frame =>
      have hcounted : p.frameRefs.contains frame := Table.contains_iff.mpr ⟨_, count?_of_refs hl⟩
      have hold := Table.size_insert_old hcounted count
      have hrefs := accounted_with_refs p (p.frameRefs.insert frame count) p.resident
      simp only [Paging.recount] at *
      omega

/-- A frame that leaves its pool and is not counted is lost. -/
theorem Drops.handOut {frame : Word} (h : Ledger p) (hfree : p.isFree (.frame frame)) :
    Drops [frame] p (p.setFree (.frame frame) (·.erase frame)) := by
  have hrange := p.range_setFree (.frame frame) (·.erase frame)
  have hcount : ∀ k, (p.setFree (.frame frame) (·.erase frame)).count? k = p.count? k := by
    intro k
    cases k with
    | frame g => exact congrArg (·.find? g) (frameRefs_setPool ..)
    | slot s => exact congrArg (·.find? s) (slotRefs_setPool ..)
  have hisFree : ∀ k, (p.setFree (.frame frame) (·.erase frame)).isFree k =
      (!decide (k = .frame frame) && p.isFree k) := fun k => p.isFree_occupy (.frame frame) k 0
  -- the frame is neither free nor counted afterwards: lost until a page is put there
  have hunused := h.free _ hfree
  refine ⟨?_, hrange, fun g => ?_, ?_, by simp, ?_⟩
  · refine h.of_change hrange (h.pooled _ _ hfree) (pooled_occupy h.pooled (l := .frame frame) 0)
      (fun k _ => hcount k)
      (fun k hk => ?_) ?_ ?_
    · rw [hisFree]
      simp [hk]
    · rw [hcount]
      exact h.counted _
    · rw [refs_eq, hcount, ← refs_eq]
      exact fun _ => hunused
  · rw [Lost, Lost, owns_of_range hrange, hisFree, refs_eq, hcount, ← refs_eq, List.mem_singleton]
    by_cases hg : g = frame
    · subst hg
      have howns : p.owns (.frame g) := h.pooled _ _ hfree
      simp [howns, hunused]
    · simp [hg]
  · rintro g hg hlost
    obtain rfl := List.mem_singleton.mp hg
    rw [hlost.2.1] at hfree
    cases hfree
  · have hpool := accounted_setFree p frame (·.erase frame)
    have herase : ((p.pool (p.framePool frame)).free.erase frame).size + 1 =
        (p.pool (p.framePool frame)).free.size :=
      Table.size_erase hfree
    rw [List.length_singleton]
    omega

/-! ## A new memory -/

theorem not_lost_unmapped (disk : Disk) (ranges : PageRanges) (frame : Word) :
    ¬ (unmapped disk ranges).Lost frame := by
  rintro ⟨howns, hfree, -⟩
  cases ((isFree_pool_unmapped disk ranges _ frame).mpr howns).symm.trans hfree

theorem accounted_unmapped (disk : Disk) (ranges : PageRanges) : (unmapped disk ranges).accounted =
    (ranges.userHigh.toNat + 1 - ranges.userLow.toNat) +
    (ranges.kernelHigh.toNat + 1 - ranges.kernelLow.toNat) := by
  have huser := Pool.freeCount_ofRange .user ranges.userLow ranges.userHigh
  have hkernel := Pool.freeCount_ofRange .kernel ranges.kernelLow ranges.kernelHigh
  change (Pool.ofRange .user _ _).freeCount + (Pool.ofRange .kernel _ _).freeCount + 0 = _
  rw [huser, hkernel, Nat.add_zero]

end Paging

end PagedMachine

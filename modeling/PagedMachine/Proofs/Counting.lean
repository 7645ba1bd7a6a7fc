import PagedMachine.Proofs.Residency

/-!
# Counting mappings

A mapping more or less changes the books at its location only. The mappings of a
whole directory are counted one after the other; while that goes on, the books
agree with the count so far and not yet with the directories.
-/

namespace PagedMachine.PagedMemory

variable {m m' m'' : PagedMemory} {n : Location → Nat} {l : Location} {ls : List Location}

structure SameOutsideBooks (m m' : PagedMemory) : Prop where
  processes : m'.processes = m.processes
  current : m'.current = m.current
  nextPid : m'.nextPid = m.nextPid
  ram : m'.ram = m.ram
  disk : m'.disk = m.disk
  range : m'.range = m.range

namespace SameOutsideBooks

theorem refl (m : PagedMemory) : SameOutsideBooks m m := ⟨rfl, rfl, rfl, rfl, rfl, rfl⟩

theorem trans (h : SameOutsideBooks m m') (h' : SameOutsideBooks m' m'') : SameOutsideBooks m m'' :=
  ⟨h'.processes.trans h.processes, h'.current.trans h.current, h'.nextPid.trans h.nextPid,
    h'.ram.trans h.ram, h'.disk.trans h.disk, h'.range.trans h.range⟩

theorem extent (h : SameOutsideBooks m m') : SameExtent m m' := by
  refine ⟨h.range, ?_, ?_, ?_, ?_⟩
  · rw [h.ram]
  · rw [h.ram]
  · rw [h.disk]
  · rw [h.disk]

theorem mappingsOf (h : SameOutsideBooks m m') : m'.mappingsOf = m.mappingsOf := by
  funext l
  rw [Paging.mappingsOf, h.processes, Paging.mappingsOf]

theorem byteAt (h : SameOutsideBooks m m') (l : Location) (o : Nat) :
    m'.byteAt l o = m.byteAt l o := by
  cases l with
  | frame g => rw [PagedMemory.byteAt, PagedMemory.byteAt, h.ram]
  | slot s => rw [PagedMemory.byteAt, PagedMemory.byteAt, h.disk]

end SameOutsideBooks

theorem sameOutsideBooks_recount (m : PagedMemory) (l : Location) (count : Nat) :
    SameOutsideBooks m { m with toPaging := m.recount l count } := by
  cases l <;> exact ⟨rfl, rfl, rfl, rfl, rfl, rfl⟩

theorem sameOutsideBooks_vacate (m : PagedMemory) (l : Location) :
    SameOutsideBooks m { m with toPaging := m.vacate l } := by
  have hr := m.range_vacate l
  cases l
    <;> exact ⟨by simp [Paging.vacate, Paging.setFree], by simp [Paging.vacate, Paging.setFree],
    by simp [Paging.vacate, Paging.setFree], rfl, by simp [Paging.vacate, Paging.setFree], hr⟩

/-! ## One mapping -/

theorem release_run_recount {count : Nat} (hc : m.count? l = some count) (h : 1 < count) :
    (release l).run m = .ok () { m with toPaging := m.recount l (count - 1) } := by
  cases l with
  | frame g =>
    have hcount : m.frameRefs.find? g = some count := hc
    rw [release, get_bind]
    simp only [hcount, if_pos h]
    rfl
  | slot s =>
    have hcount : m.slotRefs.find? s = some count := hc
    rw [release, get_bind]
    simp only [hcount, if_pos h]
    rfl

theorem release_run_vacate {count : Nat} (hc : m.count? l = some count) (h : ¬ 1 < count)
    (ho : m.owns l) (hn : m.isFree l = false) :
    (release l).run m = .ok () { m with toPaging := m.vacate l } := by
  cases l with
  | frame g =>
    have hcount : m.frameRefs.find? g = some count := hc
    change (m.pool (m.framePool g)).owns g = true at ho
    change (m.pool (m.framePool g)).isFree g = false at hn
    rw [release, get_bind]
    simp only [hcount, if_neg h, Paging.vacate, Paging.setFree, Paging.home]
    rcases m.framePool_eq g with hp | hp
    all_goals
      simp only [hp] at ho hn ⊢
      exact onPool_release_ok (by exact ho) (by exact hn)
  | slot s =>
    have hcount : m.slotRefs.find? s = some count := hc
    rw [release, get_bind]
    simp only [hcount, if_neg h]
    exact onPool_release_ok (by exact ho) (by exact hn)

/-- Books of some kind, with the count that they have of each location. Whichever they are, what is
counted can be released and counted anew, and nothing outside the books matters to them. -/
structure Bookkeeping (B : Paging → (Location → Nat) → Prop) : Prop where
  counted : ∀ {p n l}, B p n → n l ≠ 0 → p.count? l = some (n l)
  owned : ∀ {p n l}, B p n → n l ≠ 0 → p.owns l
  taken : ∀ {p n l}, B p n → n l ≠ 0 → p.isFree l = false
  vacate : ∀ {p n l}, B p n → n l ≠ 0 → B (p.vacate l) (Function.update n l 0)
  recount : ∀ {p n l count}, B p n → n l ≠ 0 → count ≠ 0 →
    B (p.recount l count) (Function.update n l count)
  frame : ∀ {p n}, B p n → ∀ disk processes current nextPid counters,
    B { p with disk, processes, current, nextPid, counters } n

theorem bookkeeping_books : Bookkeeping Books where
  counted h hl := by rw [h.counted, if_neg hl]
  owned h hl := h.owned _ hl
  taken h hl := Bool.eq_false_iff.mpr fun hf => hl ((h.free _ (h.owned _ hl)).mp hf)
  vacate h hl := h.vacate hl
  recount h hl hc := h.recount hl hc
  frame h := h.frame

section
variable {B : Paging → (Location → Nat) → Prop} (hB : Bookkeeping B)
include hB

/-- A release never fails while the location is counted. -/
theorem Bookkeeping.release (h : B m.toPaging n) (hl : n l ≠ 0) :
    ∃ m', (PagedMemory.release l).run m = .ok () m' ∧
      B m'.toPaging (Function.update n l (n l - 1)) ∧ SameOutsideBooks m m' := by
  have hc := hB.counted h hl
  by_cases hlt : 1 < n l
  · exact ⟨_, release_run_recount hc hlt, hB.recount h hl (by omega),
      sameOutsideBooks_recount m l _⟩
  · have hz : n l - 1 = 0 := by omega
    exact ⟨_, release_run_vacate hc hlt (hB.owned h hl) (hB.taken h hl), hz ▸ hB.vacate h hl,
      sameOutsideBooks_vacate m l⟩

/-- A count that is as large as it can be stays, and nothing fails. -/
theorem Bookkeeping.retain (h : B m.toPaging n) (hl : n l ≠ 0) :
    ∃ m', (PagedMemory.retain l).run m = .ok () m' ∧
      B m'.toPaging (Function.update n l (min (n l + 1) maxRefs)) ∧ SameOutsideBooks m m' := by
  have hrefs : m.refs l = n l := by rw [Paging.refs_eq, hB.counted h hl, Option.getD_some]
  have hne : min (n l + 1) maxRefs ≠ 0 := by
    have hmax : maxRefs ≠ 0 := by decide
    omega
  refine ⟨{ m with toPaging := m.recount l (min (n l + 1) maxRefs) }, ?_, hB.recount h hl hne,
    sameOutsideBooks_recount m l _⟩
  change EStateM.Result.ok () _ = _
  cases l with
  | frame g => simp only [hrefs]; rfl
  | slot s => simp only [hrefs]; rfl

end

theorem release_run (h : Books m.toPaging n) (hl : n l ≠ 0) :
    ∃ m', (release l).run m = .ok () m' ∧ Books m'.toPaging (Function.update n l (n l - 1)) ∧
      SameOutsideBooks m m' :=
  bookkeeping_books.release h hl

theorem retain_run (h : Books m.toPaging n) (hl : n l ≠ 0) (hmax : n l + 1 ≤ maxRefs) :
    ∃ m', (retain l).run m = .ok () m' ∧ Books m'.toPaging (Function.update n l (n l + 1)) ∧
      SameOutsideBooks m m' := by
  have hretain := bookkeeping_books.retain h hl
  rwa [Nat.min_eq_left hmax] at hretain

/-! ## Many mappings -/

section
variable (n : Location → Nat) (l k : Location)

theorem count_cons_add (ls : List Location) :
    (l :: ls).count k = ls.count k + if k = l then 1 else 0 := by
  rw [List.count_cons]
  by_cases h : k = l
  · simp [h]
  · simp [h, Ne.symm h]

theorem update_succ : Function.update n l (n l + 1) k = n k + if k = l then 1 else 0 := by
  rw [Function.update_apply]
  by_cases h : k = l <;> simp [h]

theorem update_pred : Function.update n l (n l - 1) k = n k - if k = l then 1 else 0 := by
  rw [Function.update_apply]
  by_cases h : k = l <;> simp [h]

end

section
variable {B : Paging → (Location → Nat) → Prop} (hB : Bookkeeping B)
include hB

theorem Bookkeeping.releaseAll (ls : List Location) : ∀ {m : PagedMemory} {n : Location → Nat},
    B m.toPaging n → (∀ l, ls.count l ≤ n l) → ∃ m', (PagedMemory.releaseAll ls).run m = .ok () m' ∧
      B m'.toPaging (fun l => n l - ls.count l) ∧ SameOutsideBooks m m' := by
  induction ls with
  | nil => exact fun {m n} h _ => ⟨m, rfl, by simpa using h, .refl m⟩
  | cons l ls ih =>
    intro m n h hle
    simp only [count_cons_add] at hle ⊢
    have hl : n l ≠ 0 := by
      have := hle l
      rw [if_pos rfl] at this
      omega
    obtain ⟨m₁, hrun₁, hbooks₁, hsame₁⟩ := hB.release h hl
    have hrest : ∀ k, ls.count k ≤ Function.update n l (n l - 1) k := by
      intro k
      have := hle k
      rw [update_pred]
      omega
    obtain ⟨m₂, hrun₂, hbooks₂, hsame₂⟩ := ih hbooks₁ hrest
    have hn : (fun k => Function.update n l (n l - 1) k - ls.count k) =
        fun k => n k - (ls.count k + if k = l then 1 else 0) := by
      funext k
      rw [update_pred]
      omega
    refine ⟨m₂, ?_, hn ▸ hbooks₂, hsame₁.trans hsame₂⟩
    rw [PagedMemory.releaseAll, bind_ok (attempt_ok hrun₁), bind_ok (attempt_ok hrun₂)]
    rfl

theorem Bookkeeping.retainAll (ls : List Location) : ∀ {m : PagedMemory} {n : Location → Nat},
    B m.toPaging n → (∀ l ∈ ls, n l ≠ 0) → ∃ m', (ls.forM PagedMemory.retain).run m = .ok () m' ∧
      B m'.toPaging (fun l => if l ∈ ls then min (n l + ls.count l) maxRefs else n l) ∧
      SameOutsideBooks m m' := by
  induction ls with
  | nil => exact fun {m n} h _ => ⟨m, rfl, by simpa using h, .refl m⟩
  | cons l ls ih =>
    intro m n h hmapped
    obtain ⟨m₁, hrun₁, hbooks₁, hsame₁⟩ := hB.retain h (hmapped l List.mem_cons_self)
    have hrest : ∀ k ∈ ls, Function.update n l (min (n l + 1) maxRefs) k ≠ 0 := by
      intro k hk
      have := hmapped k (List.mem_cons_of_mem _ hk)
      have hmax : maxRefs ≠ 0 := by decide
      rw [Function.update_apply]
      split <;> omega
    obtain ⟨m₂, hrun₂, hbooks₂, hsame₂⟩ := ih hbooks₁ hrest
    -- a count that has reached the largest stays there, whichever locations follow
    have hn : (fun k =>
        if k ∈ ls then min (Function.update n l (min (n l + 1) maxRefs) k + ls.count k) maxRefs
        else Function.update n l (min (n l + 1) maxRefs) k) =
        fun k => if k ∈ l :: ls then min (n k + (l :: ls).count k) maxRefs else n k := by
      funext k
      rw [count_cons_add, Function.update_apply]
      by_cases hk : k = l
      · subst hk
        rw [if_pos rfl, if_pos rfl, if_pos List.mem_cons_self]
        split
        · omega
        · rename_i hout
          rw [List.count_eq_zero_of_not_mem hout, Nat.zero_add]
      · rw [if_neg hk, if_neg hk, Nat.add_zero]
        simp only [List.mem_cons, hk, false_or]
    refine ⟨m₂, ?_, hn ▸ hbooks₂, hsame₁.trans hsame₂⟩
    change (PagedMemory.retain l >>= fun _ => ls.forM PagedMemory.retain).run m = _
    rw [bind_ok hrun₁]
    exact hrun₂

end

theorem releaseAll_run (ls : List Location) (h : Books m.toPaging n) (hle : ∀ l, ls.count l ≤ n l) :
    ∃ m', (releaseAll ls).run m = .ok () m' ∧ Books m'.toPaging (fun l => n l - ls.count l) ∧
      SameOutsideBooks m m' :=
  bookkeeping_books.releaseAll ls h hle

theorem retainAll_run (ls : List Location) (h : Books m.toPaging n) (hmapped : ∀ l ∈ ls, n l ≠ 0)
    (hmax : ∀ l, n l + ls.count l ≤ maxRefs) : ∃ m', (ls.forM retain).run m = .ok () m' ∧
      Books m'.toPaging (fun l => n l + ls.count l) ∧ SameOutsideBooks m m' := by
  obtain ⟨m', hrun, hbooks, hsame⟩ := bookkeeping_books.retainAll ls h hmapped
  refine ⟨m', hrun, hbooks.congr fun k => ?_, hsame⟩
  split
  · exact (Nat.min_eq_left (hmax k)).symm
  · rename_i hout
    rw [List.count_eq_zero_of_not_mem hout, Nat.add_zero]

theorem retain_total (m : PagedMemory) (l : Location) :
    ∃ m', (retain l).run m = .ok () m' ∧ SameOutsideBooks m m' := by
  refine ⟨_, rfl, ?_⟩
  cases l <;> exact ⟨rfl, rfl, rfl, rfl, rfl, rfl⟩

theorem retainAll_total (ls : List Location) :
    ∀ m, ∃ m', (ls.forM retain).run m = .ok () m' ∧ SameOutsideBooks m m' := by
  induction ls with
  | nil => exact fun m => ⟨m, rfl, .refl m⟩
  | cons l ls ih =>
    intro m
    obtain ⟨m₁, hrun₁, hsame₁⟩ := retain_total m l
    obtain ⟨m₂, hrun₂, hsame₂⟩ := ih m₁
    refine ⟨m₂, ?_, hsame₁.trans hsame₂⟩
    change (retain l >>= fun _ => ls.forM retain).run m = _
    rw [bind_ok hrun₁]
    exact hrun₂

end PagedMachine.PagedMemory

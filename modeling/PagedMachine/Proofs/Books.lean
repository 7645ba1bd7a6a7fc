import Mathlib.Logic.Function.Basic
import PagedMachine.Paging.Residency
import PagedMachine.Proofs.Stores
import PagedMachine.Proofs.Tables

/-!
# The books

The count tables, the pools and the queue of resident frames must agree with a
count `n` of mappings for each location (`Books`). The books are never changed
in one place alone: a location is occupied, vacated or counted anew, and each of
these three changes `n` at that location only.
-/

namespace PagedMachine

def Location.number : Location → Word
  | .frame n | .slot n => n

/-! ## Mappings of a location -/

def Directory.mappingsOf (d : Directory) (l : Location) : Nat := d.locations.count l

def Paging.mappingsOf (p : Paging) (l : Location) : Nat := p.processes.sum (·.mappingsOf l)

theorem Directory.mappingsOf_eq_sum (d : Directory) (l : Location) :
    d.mappingsOf l = d.sum fun m => if m.location = l then 1 else 0 := by
  unfold mappingsOf locations Table.sum
  induction d.values with
  | nil => rfl
  | cons m rest ih =>
    rw [List.map_cons, List.foldr_cons, List.count_cons, ih]
    by_cases h : m.location = l <;> simp [h, Nat.add_comm]

theorem Directory.mappingsOf_ne_zero {d : Directory} {l : Location} :
    d.mappingsOf l ≠ 0 ↔ ∃ page m, d.find? page = some m ∧ m.location = l := by
  rw [mappingsOf_eq_sum, Table.sum_ne_zero_iff]
  simp

theorem Paging.mappingsOf_le_size (p : Paging) (l : Location) :
    p.mappingsOf l ≤ p.processes.sum Table.size := by
  apply Table.sum_le_sum
  intro d
  apply Nat.le_trans List.count_le_length
  simp [Directory.locations, Table.values, Table.size]

theorem Paging.mappingsOf_ne_zero {p : Paging} {l : Location} :
    p.mappingsOf l ≠ 0 ↔
      ∃ pid d page m, p.processes.find? pid = some d ∧ d.find? page = some m ∧ m.location = l := by
  rw [mappingsOf, Table.sum_ne_zero_iff]
  simp only [Directory.mappingsOf_ne_zero]
  constructor
  · rintro ⟨pid, d, hd, page, m, hm, hl⟩; exact ⟨pid, d, page, m, hd, hm, hl⟩
  · rintro ⟨pid, d, page, m, hd, hm, hl⟩; exact ⟨pid, d, hd, page, m, hm, hl⟩

/-! ## Changed directories -/

namespace Directory

variable {d : Directory} {page : Word} {m : Mapping}

theorem mappingsOf_insert (h : d.find? page = none) {source : Location} (hs : m.location = source)
    (l : Location) :
    mappingsOf (d.insert page m) l = (if source = l then 1 else 0) + d.mappingsOf l := by
  subst hs
  rw [mappingsOf_eq_sum, mappingsOf_eq_sum, Table.sum_insert h]

theorem mappingsOf_erase (h : d.find? page = some m) {source : Location} (hs : m.location = source)
    (l : Location) :
    (if source = l then 1 else 0) + mappingsOf (d.erase page) l = d.mappingsOf l := by
  subst hs
  rw [mappingsOf_eq_sum, mappingsOf_eq_sum, Table.sum_erase h fun m =>
    if m.location = l then 1 else 0]

theorem mappingsOf_update (h : d.find? page = some m) {f : Mapping → Mapping}
    {source target : Location} (hs : m.location = source) (ht : (f m).location = target)
    (l : Location) :
    mappingsOf (d.update page f) l + (if source = l then 1 else 0) =
      d.mappingsOf l + if target = l then 1 else 0 := by
  subst hs ht
  rw [mappingsOf_eq_sum, mappingsOf_eq_sum, Table.sum_update h f fun m =>
    if m.location = l then 1 else 0]

theorem mappingsOf_map {f : Mapping → Mapping} (hf : ∀ m, (f m).location = m.location)
    (l : Location) : mappingsOf (d.map f) l = d.mappingsOf l := by
  simp only [mappingsOf_eq_sum, Table.sum_map, Function.comp_def, hf]

end Directory

theorem Paging.mappingsOf_update {p q : Paging} {pid : Word} {d : Directory}
    {f : Directory → Directory} (hq : q.processes = p.processes.update pid f)
    (hd : p.processes.find? pid = some d) (l : Location) :
    q.mappingsOf l + d.mappingsOf l = p.mappingsOf l + (f d).mappingsOf l := by
  rw [mappingsOf, mappingsOf, hq, Table.sum_update hd f fun d => d.mappingsOf l]

/-! ## What the books say of a location -/

namespace Paging

def home (p : Paging) : Location → PoolKind
  | .frame frame => p.framePool frame
  | .slot _ => .disk

def owns (p : Paging) (l : Location) : Bool := (p.pool (p.home l)).owns l.number

def isFree (p : Paging) (l : Location) : Bool := (p.pool (p.home l)).isFree l.number

def count? (p : Paging) : Location → Option Nat
  | .frame frame => p.frameRefs.find? frame
  | .slot slot => p.slotRefs.find? slot

theorem refs_eq (p : Paging) (l : Location) : p.refs l = (p.count? l).getD 0 := by
  cases l <;> rfl

def range (p : Paging) (k : PoolKind) : PoolKind × Word × Word :=
  ((p.pool k).kind, (p.pool k).low, (p.pool k).high)

def setFree (p : Paging) (l : Location) (f : Table Unit → Table Unit) : Paging :=
  p.setPool (p.home l) { p.pool (p.home l) with free := f (p.pool (p.home l)).free }

def occupy (p : Paging) (l : Location) (count : Nat) : Paging :=
  match l with
  | .frame frame =>
    { p.setFree l (·.erase frame) with
      frameRefs := p.frameRefs.insert frame count
      resident := p.resident ++ [frame] }
  | .slot slot => { p.setFree l (·.erase slot) with slotRefs := p.slotRefs.insert slot count }

def vacate (p : Paging) (l : Location) : Paging :=
  match l with
  | .frame frame =>
    { p.setFree l (·.insert frame ()) with
      frameRefs := p.frameRefs.erase frame
      resident := p.resident.filter (· != frame) }
  | .slot slot => { p.setFree l (·.insert slot ()) with slotRefs := p.slotRefs.erase slot }

def recount (p : Paging) (l : Location) (count : Nat) : Paging :=
  match l with
  | .frame frame => { p with frameRefs := p.frameRefs.insert frame count }
  | .slot slot => { p with slotRefs := p.slotRefs.insert slot count }

theorem pool_setPool (p : Paging) (kind k : PoolKind) (pool : Pool) :
    (p.setPool kind pool).pool k = if k = kind then pool else p.pool k := by
  cases kind <;> cases k <;> rfl

section
variable (p : Paging) (kind : PoolKind) (pool : Pool)

@[simp] theorem disk_setPool : (p.setPool kind pool).disk = p.disk := by cases kind <;> rfl

@[simp] theorem frameRefs_setPool : (p.setPool kind pool).frameRefs = p.frameRefs := by
  cases kind <;> rfl

@[simp] theorem slotRefs_setPool : (p.setPool kind pool).slotRefs = p.slotRefs := by
  cases kind <;> rfl

@[simp] theorem resident_setPool : (p.setPool kind pool).resident = p.resident := by
  cases kind <;> rfl

@[simp] theorem processes_setPool : (p.setPool kind pool).processes = p.processes := by
  cases kind <;> rfl

@[simp] theorem current_setPool : (p.setPool kind pool).current = p.current := by cases kind <;> rfl

@[simp] theorem counters_setPool : (p.setPool kind pool).counters = p.counters := by
  cases kind <;> rfl

@[simp] theorem nextPid_setPool : (p.setPool kind pool).nextPid = p.nextPid := by cases kind <;> rfl

end

theorem framePool_eq (p : Paging) (frame : Word) : p.framePool frame = .user ∨
    p.framePool frame = .kernel := by
  unfold framePool
  split <;> simp

theorem framePool_ne_disk (p : Paging) (frame : Word) : p.framePool frame ≠ .disk := by
  rcases p.framePool_eq frame with h | h <;> simp [h]

theorem home_inj {p : Paging} {k l : Location} (hh : p.home k = p.home l)
    (hn : k.number = l.number) : k = l := by
  cases k <;> cases l
  · exact congrArg _ hn
  · exact absurd hh (p.framePool_ne_disk _)
  · exact absurd hh.symm (p.framePool_ne_disk _)
  · exact congrArg _ hn

section
variable {p q : Paging} (h : q.range = p.range)
include h

theorem owns_pool_of_range (k : PoolKind) (page : Word) :
    (q.pool k).owns page = (p.pool k).owns page := by
  have hk := congrFun h k
  simp only [range, Prod.mk.injEq] at hk
  simp only [Pool.owns, hk]

theorem home_of_range (l : Location) : q.home l = p.home l := by
  cases l with
  | frame frame =>
    have hu := owns_pool_of_range h .user frame
    simp only [pool] at hu
    simp only [home, framePool, hu]
  | slot slot => rfl

theorem owns_of_range (l : Location) : q.owns l = p.owns l := by
  rw [owns, home_of_range h, owns_pool_of_range h, owns]

end

section
variable (p : Paging) (l k : Location) (f : Table Unit → Table Unit) (count : Nat)

theorem pool_setFree (kind : PoolKind) : (p.setFree l f).pool kind =
    if kind = p.home l then { p.pool (p.home l) with free := f (p.pool (p.home l)).free }
    else p.pool kind :=
  pool_setPool p _ _ _

theorem range_setFree : (p.setFree l f).range = p.range := by
  funext kind
  simp only [range, pool_setFree]
  split
  · rename_i hk; rw [hk]
  · rfl

theorem range_occupy : (p.occupy l count).range = p.range := by
  rw [← range_setFree p l (·.erase l.number)]
  cases l <;> rfl

theorem range_vacate : (p.vacate l).range = p.range := by
  rw [← range_setFree p l (·.insert l.number ())]
  cases l <;> rfl

theorem range_recount : (p.recount l count).range = p.range := by
  cases l <;> rfl

theorem isFree_setFree : (p.setFree l f).isFree k =
    if p.home k = p.home l then (f (p.pool (p.home l)).free).contains k.number else p.isFree k := by
  rw [isFree, home_of_range (range_setFree p l f), pool_setFree]
  split <;> rfl

theorem isFree_occupy : (p.occupy l count).isFree k = (!decide (k = l) && p.isFree k) := by
  have h : (p.occupy l count).isFree k = (p.setFree l (·.erase l.number)).isFree k := by
    cases l <;> rfl
  rw [h, isFree_setFree]
  split
  · rename_i hh
    have hkl : k.number = l.number ↔ k = l := ⟨home_inj hh, congrArg _⟩
    simp only [Table.contains_erase, hkl, isFree, Pool.isFree, hh]
  · rename_i hh
    have hkl : k ≠ l := fun e => hh (e ▸ rfl)
    simp [hkl]

theorem isFree_vacate : (p.vacate l).isFree k = (decide (k = l) || p.isFree k) := by
  have h : (p.vacate l).isFree k = (p.setFree l (·.insert l.number ())).isFree k := by
    cases l <;> rfl
  rw [h, isFree_setFree]
  split
  · rename_i hh
    have hkl : k.number = l.number ↔ k = l := ⟨home_inj hh, congrArg _⟩
    simp only [Table.contains_insert, hkl, isFree, Pool.isFree, hh]
  · rename_i hh
    have hkl : k ≠ l := fun e => hh (e ▸ rfl)
    simp [hkl]

theorem isFree_recount : (p.recount l count).isFree k = p.isFree k := by
  cases l <;> cases k <;> rfl

theorem count?_occupy : (p.occupy l count).count? k = if k = l then some count else p.count? k := by
  cases l <;> cases k <;> simp [occupy, setFree, count?, Table.find?_insert]

theorem count?_vacate : (p.vacate l).count? k = if k = l then none else p.count? k := by
  cases l <;> cases k <;> simp [vacate, setFree, count?, Table.find?_erase]

theorem count?_recount :
    (p.recount l count).count? k = if k = l then some count else p.count? k := by
  cases l <;> cases k <;> simp [recount, count?, Table.find?_insert]

end

section
variable {p : Paging} {l : Location}
    (hpooled : ∀ k page, (p.pool k).isFree page → (p.pool k).owns page)
include hpooled

theorem pooled_setFree {f : Table Unit → Table Unit}
    (hf : ∀ t page, (f t).contains page → t.contains page ∨ (page = l.number ∧ p.owns l))
    (k : PoolKind) (page : Word) (hp : ((p.setFree l f).pool k).isFree page) :
    ((p.setFree l f).pool k).owns page := by
  rw [owns_pool_of_range (p.range_setFree l f)]
  rw [pool_setFree] at hp
  split at hp
  · rename_i hk
    subst hk
    rcases hf _ _ hp with hfree | ⟨rfl, howns⟩
    · exact hpooled _ _ hfree
    · exact howns
  · exact hpooled k page hp

theorem pooled_occupy (count : Nat) (k : PoolKind) (page : Word)
    (hp : ((p.occupy l count).pool k).isFree page) : ((p.occupy l count).pool k).owns page := by
  have hf := pooled_setFree (l := l) (f := (·.erase l.number)) hpooled fun t page hp => by
    rw [Table.contains_erase] at hp
    exact .inl (by simp_all)
  cases l <;> exact hf k page hp

theorem pooled_vacate (howns : p.owns l) (k : PoolKind) (page : Word)
    (hp : ((p.vacate l).pool k).isFree page) : ((p.vacate l).pool k).owns page := by
  have hf := pooled_setFree (l := l) (f := (·.insert l.number ())) hpooled fun t page hp => by
    rw [Table.contains_insert, Bool.or_eq_true, decide_eq_true_eq] at hp
    exact hp.symm.imp_right fun e => ⟨e, howns⟩
  cases l <;> exact hf k page hp

theorem pooled_recount (count : Nat) (kind : PoolKind) (page : Word)
    (hp : ((p.recount l count).pool kind).isFree page) :
    ((p.recount l count).pool kind).owns page := by
  have hk : (p.recount l count).pool kind = p.pool kind := by cases l <;> cases kind <;> rfl
  rw [hk] at hp ⊢
  exact hpooled kind page hp

end

end Paging

/-- The count tables, the pools and the queue agree with a count of mappings. -/
structure Books (p : Paging) (n : Location → Nat) : Prop where
  counted : ∀ l, p.count? l = if n l = 0 then none else some (n l)
  free : ∀ l, p.owns l → (p.isFree l ↔ n l = 0)
  owned : ∀ l, n l ≠ 0 → p.owns l
  pooled : ∀ k page, (p.pool k).isFree page → (p.pool k).owns page
  nodup : p.resident.Nodup
  queued : ∀ frame, frame ∈ p.resident ↔ n (.frame frame) ≠ 0

namespace Books

variable {p : Paging} {n : Location → Nat} {l : Location} {count : Nat}

theorem congr (h : Books p n) {n' : Location → Nat} (hn : ∀ l, n' l = n l) : Books p n' :=
  (funext hn : n' = n) ▸ h

theorem occupy (h : Books p n) (hfree : p.isFree l) (hc : count ≠ 0) :
    Books (p.occupy l count) (Function.update n l count) where
  counted k := by
    rw [Paging.count?_occupy, Function.update_apply]
    by_cases hkl : k = l
    · simp [hkl, hc]
    · simp [hkl, h.counted k]
  free k hk := by
    rw [Paging.owns_of_range (p.range_occupy l count)] at hk
    rw [Paging.isFree_occupy, Function.update_apply]
    by_cases hkl : k = l
    · simp [hkl, hc]
    · simp [hkl, h.free k hk]
  owned k hk := by
    rw [Paging.owns_of_range (p.range_occupy l count)]
    rw [Function.update_apply] at hk
    by_cases hkl : k = l
    · exact hkl ▸ h.pooled _ _ hfree
    · rw [if_neg hkl] at hk
      exact h.owned k hk
  pooled := Paging.pooled_occupy h.pooled count
  nodup := by
    cases l with
    | slot s => simpa [Paging.occupy, Paging.setFree] using h.nodup
    | frame g =>
      have hg : g ∉ p.resident := fun hg =>
        (h.queued g).mp hg ((h.free _ (h.pooled _ _ hfree)).mp hfree)
      simp only [Paging.occupy]
      refine List.nodup_append.mpr ⟨h.nodup, by simp, fun a ha b hb => ?_⟩
      rintro rfl
      exact hg (List.mem_singleton.mp hb ▸ ha)
  queued frame := by
    rw [Function.update_apply]
    cases l with
    | slot s => simpa [Paging.occupy, Paging.setFree] using h.queued frame
    | frame g =>
      simp only [Paging.occupy, List.mem_append, List.mem_singleton, h.queued, Location.frame.injEq]
      by_cases hfg : frame = g <;> simp [hfg, hc]

theorem vacate (h : Books p n) (hn : n l ≠ 0) : Books (p.vacate l) (Function.update n l 0) where
  counted k := by
    rw [Paging.count?_vacate, Function.update_apply]
    by_cases hkl : k = l
    · simp [hkl]
    · simp [hkl, h.counted k]
  free k hk := by
    rw [Paging.owns_of_range (p.range_vacate l)] at hk
    rw [Paging.isFree_vacate, Function.update_apply]
    by_cases hkl : k = l
    · simp [hkl]
    · simp [hkl, h.free k hk]
  owned k hk := by
    rw [Paging.owns_of_range (p.range_vacate l)]
    rw [Function.update_apply] at hk
    by_cases hkl : k = l
    · exact hkl ▸ h.owned l hn
    · rw [if_neg hkl] at hk
      exact h.owned k hk
  pooled := Paging.pooled_vacate h.pooled (h.owned l hn)
  nodup := by
    cases l with
    | slot s => simpa [Paging.vacate, Paging.setFree] using h.nodup
    | frame g => exact h.nodup.filter _
  queued frame := by
    rw [Function.update_apply]
    cases l with
    | slot s => simpa [Paging.vacate, Paging.setFree] using h.queued frame
    | frame g =>
      simp only [Paging.vacate, List.mem_filter, bne_iff_ne, h.queued, Location.frame.injEq]
      by_cases hfg : frame = g <;> simp [hfg]

theorem recount (h : Books p n) (hn : n l ≠ 0) (hc : count ≠ 0) :
    Books (p.recount l count) (Function.update n l count) where
  counted k := by
    rw [Paging.count?_recount, Function.update_apply]
    by_cases hkl : k = l
    · simp [hkl, hc]
    · simp [hkl, h.counted k]
  free k hk := by
    rw [Paging.owns_of_range (p.range_recount l count)] at hk
    rw [Paging.isFree_recount, h.free k hk, Function.update_apply]
    by_cases hkl : k = l <;> simp [hkl, hc, hn]
  owned k hk := by
    rw [Paging.owns_of_range (p.range_recount l count)]
    rw [Function.update_apply] at hk
    by_cases hkl : k = l
    · exact hkl ▸ h.owned l hn
    · rw [if_neg hkl] at hk
      exact h.owned k hk
  pooled := Paging.pooled_recount h.pooled count
  nodup := by cases l <;> exact h.nodup
  queued frame := by
    have hq : (p.recount l count).resident = p.resident := by cases l <;> rfl
    rw [hq, h.queued, Function.update_apply]
    by_cases hkl : Location.frame frame = l <;> simp [hkl, hc, hn]

/-- The books do not depend on the rest of the state. -/
theorem frame (h : Books p n) (disk : Disk) (processes : Table Directory) (current : Option Word)
    (nextPid : Word) (counters : PagingCounters) :
    Books { p with disk, processes, current, nextPid, counters } n where
  counted k := by
    cases k with
    | frame g => exact h.counted (.frame g)
    | slot s => exact h.counted (.slot s)
  free k hk := by
    cases k with
    | frame g => exact h.free (.frame g) hk
    | slot s => exact h.free (.slot s) hk
  owned k hk := by
    cases k with
    | frame g => exact h.owned (.frame g) hk
    | slot s => exact h.owned (.slot s) hk
  pooled k page hp := by
    cases k with
    | user => exact h.pooled .user page hp
    | kernel => exact h.pooled .kernel page hp
    | disk => exact h.pooled .disk page hp
  nodup := h.nodup
  queued := h.queued

end Books

end PagedMachine

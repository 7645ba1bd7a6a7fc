import PagedMachine.Proofs.Views

/-!
# Two layouts of one virtual memory

Two paged memories have the same view when no process can tell them apart: the same
processes, the same pages with the same bytes, and the same sharing. Frame and slot
numbers, and what is resident, are left open. Then both represent one virtual memory,
up to the number that the next process gets; and what represents one has one view.
-/

namespace PagedMachine

/-- What can be found out about a mapped page, apart from what shares it. -/
structure PageView where
  permissions : Permissions
  copyOnWrite : Bool
  bytes : Fin pageSize → UInt8

namespace PagedMemory

def view? (m : PagedMemory) (pid page : Word) : Option PageView :=
  (m.mappingIn? pid page).map fun mp =>
    ⟨mp.permissions, mp.copyOnWrite, fun o => m.byteAt mp.location o⟩

/-- A page of one process and a page of another, or another page of it, are the same memory. -/
def Shares (m : PagedMemory) (pid page q page' : Word) : Prop :=
  ∃ mp mq, m.mappingIn? pid page = some mp ∧ m.mappingIn? q page' = some mq ∧
    mp.location = mq.location

structure SameView (m₁ m₂ : PagedMemory) : Prop where
  current : m₁.current = m₂.current
  processes : ∀ pid, m₁.processes.contains pid = m₂.processes.contains pid
  pages : ∀ pid page, m₁.view? pid page = m₂.view? pid page
  sharing : ∀ pid page q page', m₁.Shares pid page q page' ↔ m₂.Shares pid page q page'

variable {m₁ m₂ : PagedMemory} {k k' l l' : Location} {name : Location → Nat} {v : Virtual.Memory}

theorem SameView.refl (m : PagedMemory) : SameView m m :=
  ⟨rfl, fun _ => rfl, fun _ _ => rfl, fun _ _ _ _ => Iff.rfl⟩

theorem SameView.symm (h : SameView m₁ m₂) : SameView m₂ m₁ :=
  ⟨h.current.symm, fun pid => (h.processes pid).symm, fun pid page => (h.pages pid page).symm,
    fun pid page q page' => (h.sharing pid page q page').symm⟩

/-! ## Counterparts -/

/-- Some process has the same page at the one location and at the other. -/
def Counterparts (m₁ m₂ : PagedMemory) (k l : Location) : Prop :=
  ∃ pid page mp mq, m₁.mappingIn? pid page = some mp ∧ m₂.mappingIn? pid page = some mq ∧
    mp.location = k ∧ mq.location = l

theorem Counterparts.symm (h : Counterparts m₁ m₂ k l) : Counterparts m₂ m₁ l k := by
  obtain ⟨pid, page, mp, mq, hm, hq, hk, hl⟩ := h
  exact ⟨pid, page, mq, mp, hq, hm, hl, hk⟩

theorem Counterparts.mappingsOf (h : Counterparts m₁ m₂ k l) : m₁.mappingsOf k ≠ 0 := by
  obtain ⟨pid, page, mp, mq, hm, -, rfl, -⟩ := h
  exact RepresentedBy.mappingsOf_mappingIn hm

namespace SameView

variable (h : SameView m₁ m₂)
include h

/-- What is mapped on one side is mapped alike on the other. -/
theorem mapped {pid page : Word} {mq : Mapping} (hq : m₂.mappingIn? pid page = some mq) :
    ∃ mp, m₁.mappingIn? pid page = some mp ∧ mp.permissions = mq.permissions ∧
      mp.copyOnWrite = mq.copyOnWrite ∧ ∀ o :
      Fin pageSize, m₁.byteAt mp.location o = m₂.byteAt mq.location o := by
  have hpage := h.pages pid page
  rw [view?, view?, hq, Option.map_some] at hpage
  obtain ⟨mp, hm, hview⟩ := Option.map_eq_some_iff.mp hpage
  obtain ⟨hpermissions, hflag, hbytes⟩ := PageView.mk.inj hview
  exact ⟨mp, hm, hpermissions, hflag, congrFun hbytes⟩

theorem counterpart (hl : m₂.mappingsOf l ≠ 0) : ∃ k, Counterparts m₁ m₂ k l := by
  obtain ⟨pid, d, page, mq, hd, hq, hl⟩ := Paging.mappingsOf_ne_zero.mp hl
  have hmq := mappingIn?_some.mpr ⟨d, hd, hq⟩
  obtain ⟨mp, hm, -⟩ := h.mapped hmq
  exact ⟨mp.location, pid, page, mp, mq, hm, hmq, rfl, hl⟩

theorem counterpart_unique (hk : Counterparts m₁ m₂ k l) (hk' : Counterparts m₁ m₂ k' l) :
    k = k' := by
  obtain ⟨pid, page, mp, mq, hm, hq, rfl, hl⟩ := hk
  obtain ⟨pid', page', mp', mq', hm', hq', rfl, hl'⟩ := hk'
  obtain ⟨a, b, ha, hb, hab⟩ :=
    (h.sharing pid page pid' page').mpr ⟨mq, mq', hq, hq', hl.trans hl'.symm⟩
  obtain rfl := Option.some.inj (hm.symm.trans ha)
  obtain rfl := Option.some.inj (hm'.symm.trans hb)
  exact hab

theorem bytes (hk : Counterparts m₁ m₂ k l) (o : Fin pageSize) : m₁.byteAt k o = m₂.byteAt l o := by
  obtain ⟨pid, page, mp, mq, hm, hq, rfl, rfl⟩ := hk
  obtain ⟨mp', hm', -, -, hbytes⟩ := h.mapped hq
  obtain rfl := Option.some.inj (hm.symm.trans hm')
  exact hbytes o

/-- Names for the locations of one side are names for their counterparts. -/
theorem exists_name (name : Location → Nat) :
    ∃ name' : Location → Nat, ∀ k l, Counterparts m₁ m₂ k l → name' l = name k := by
  have each : ∀ l, ∃ n, ∀ k, Counterparts m₁ m₂ k l → n = name k := by
    intro l
    by_cases hl : ∃ k, Counterparts m₁ m₂ k l
    · obtain ⟨k, hk⟩ := hl
      exact ⟨name k, fun k' hk' => congrArg name (h.counterpart_unique hk hk')⟩
    · exact ⟨0, fun k hk => absurd ⟨k, hk⟩ hl⟩
  choose name' hname using each
  exact ⟨name', fun k l => hname l k⟩

theorem find?_rename {name' : Location → Nat}
    (hname : ∀ k l, Counterparts m₁ m₂ k l → name' l = name k) (pid : Word) :
    (m₁.processes.find? pid).map (·.rename name) =
    (m₂.processes.find? pid).map (·.rename name') := by
  cases hd : m₁.processes.find? pid with
  | none =>
    rw [Table.contains_eq_false.mp ((h.processes pid).symm.trans (Table.contains_eq_false.mpr hd))]
    rfl
  | some d =>
    obtain ⟨d', hd'⟩ :=
      Table.contains_iff.mp ((h.processes pid).symm.trans (Table.contains_iff.mpr ⟨d, hd⟩))
    rw [hd', Option.map_some, Option.map_some]
    refine congrArg some (Table.ext_find? fun page => ?_)
    rw [Directory.rename, Directory.rename, Table.find?_map, Table.find?_map]
    have hin : m₁.mappingIn? pid page = d.find? page := by rw [mappingIn?, hd, Option.bind_some]
    have hin' : m₂.mappingIn? pid page = d'.find? page := by rw [mappingIn?, hd', Option.bind_some]
    cases hq : d'.find? page with
    | none =>
      have hpage := h.pages pid page
      rw [view?, view?, hin, hin', hq, Option.map_none, Option.map_eq_none_iff] at hpage
      rw [hpage]
      rfl
    | some mq =>
      obtain ⟨mp, hm, hpermissions, hflag, -⟩ := h.mapped (hin'.trans hq)
      have hlocation := hname _ _ ⟨pid, page, mp, mq, hm, hin'.trans hq, rfl, rfl⟩
      rw [← hin, hm, Option.map_some, Option.map_some, Mapping.rename, Mapping.rename, hpermissions,
        hflag, hlocation]

/-- What the one side represents the other does too, but for the number of the next process. -/
theorem represents (hv : Represents m₁ v) : Represents m₂ { v with nextPid := m₂.nextPid } := by
  obtain ⟨name, hv⟩ := hv
  obtain ⟨name', hname⟩ := h.exists_name name
  refine ⟨name', fun k l hk hl hkl => ?_, ?_, fun l hl o => ?_, fun l hl =>
    ?_, hv.current.trans h.current, rfl⟩
  · obtain ⟨a, ha⟩ := h.counterpart hk
    obtain ⟨b, hb⟩ := h.counterpart hl
    rw [hname a k ha, hname b l hb] at hkl
    obtain rfl := hv.distinct a b ha.mappingsOf hb.mappingsOf hkl
    exact h.symm.counterpart_unique ha.symm hb.symm
  · refine Table.ext_find? fun pid => ?_
    rw [Table.find?_map, ← h.find?_rename hname]
    exact hv.find?_processes pid
  · obtain ⟨k, hk⟩ := h.counterpart hl
    rw [hname k l hk, ← h.bytes hk o]
    exact hv.contents k hk.mappingsOf o
  · obtain ⟨k, hk⟩ := h.counterpart hl
    rw [hname k l hk]
    exact hv.fresh k hk.mappingsOf

end SameView

/-! ## The view of virtual memory -/

section
variable (hv : RepresentedBy name m₁ v)
include hv

theorem RepresentedBy.view? (pid page : Word) : m₁.view? pid page =
    (v.mapping? pid page).map fun x => ⟨x.permissions, x.copyOnWrite, v.contents x.page⟩ := by
  rw [PagedMemory.view?, hv.mappingIn?, Option.map_map]
  refine Option.map_congr fun mp hm => ?_
  have hbytes : v.contents (name mp.location) = fun o : Fin pageSize => m₁.byteAt mp.location o :=
    funext (hv.contents _ (mappingsOf_mappingIn hm))
  rw [Function.comp_apply, Mapping.rename, hbytes]

theorem RepresentedBy.shares (pid page q page' : Word) : m₁.Shares pid page q page' ↔
    ∃ x y, v.mapping? pid page = some x ∧ v.mapping? q page' = some y ∧ x.page = y.page := by
  rw [hv.mappingIn?, hv.mappingIn?]
  constructor
  · rintro ⟨mp, mq, hm, hq, hl⟩
    exact ⟨mp.rename name, mq.rename name,
      by rw [hm, Option.map_some], by rw [hq, Option.map_some], congrArg name hl⟩
  · rintro ⟨x, y, hx, hy, hxy⟩
    obtain ⟨mp, hm, rfl⟩ := Option.map_eq_some_iff.mp hx
    obtain ⟨mq, hq, rfl⟩ := Option.map_eq_some_iff.mp hy
    exact ⟨mp, mq, hm, hq, hv.distinct _ _ (mappingsOf_mappingIn hm) (mappingsOf_mappingIn hq) hxy⟩

end

/-- There is one view of what represents one virtual memory. -/
theorem Represents.sameView {n : Word} (h₁ : Represents m₁ v)
    (h₂ : Represents m₂ { v with nextPid := n }) :
    SameView m₁ m₂ := by
  obtain ⟨name₁, h₁⟩ := h₁
  obtain ⟨name₂, h₂⟩ := h₂
  refine ⟨h₁.current.symm.trans h₂.current, fun pid =>
    (h₁.contains pid).symm.trans (h₂.contains pid),
    fun pid page => (h₁.view? pid page).trans (h₂.view? pid page).symm, fun pid page q page' => ?_⟩
  rw [h₁.shares, h₂.shares]
  rfl

end PagedMemory

end PagedMachine

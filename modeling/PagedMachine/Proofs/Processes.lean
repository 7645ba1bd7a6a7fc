import PagedMachine.Proofs.Counting
import PagedMachine.Proofs.Representation

/-!
# Processes come and go

A new process, and each mapping that a fork adds, is counted before anybody can
see it; a process that ends gives back all its mappings. Numbers run out after
2^32 - 2 processes and counts after 2^32 - 1 mappings, so an operation that makes
a process or a mapping is asked to stay below.
-/

namespace PagedMachine.PagedMemory

variable {m m' : PagedMemory} {v v' : Virtual.Memory} {name : Location → Nat} {pid : Word}
    {d : Directory}

/-- No location is mapped more often than its count can say. -/
def WithinCounts (m : PagedMemory) : Prop := ∀ l, m.mappingsOf l ≤ maxRefs

theorem withinCounts_of_size (h : m.processes.sum Table.size ≤ maxRefs) : m.WithinCounts :=
  fun l => Nat.le_trans (Paging.mappingsOf_le_size _ l) h

theorem SameOutsideBooks.representedBy (h : SameOutsideBooks m m') (hv : RepresentedBy name m v) :
    RepresentedBy name m' v := by
  refine hv.shrink ?_ ?_ ?_ rfl rfl ?_ ?_
  · intro l hl
    rwa [h.mappingsOf] at hl
  · exact fun l _ o _ => h.byteAt l o
  · rw [h.processes, hv.processes]
  · rw [h.current, hv.current]
  · rw [h.nextPid, hv.nextPid]

/-- The counts of a state whose books are done. -/
theorem SameOutsideBooks.consistent (h : SameOutsideBooks m m') (hlayout : Layout m)
    (hcurrent : ∀ pid, m.current = some pid → m.processes.contains pid)
    (hfresh : ∀ pid, m.processes.contains pid → pid < m.nextPid)
    (hbooks : Books m'.toPaging m.mappingsOf) : Consistent m' where
  layout := hlayout.of_sameExtent h.extent
  books := h.mappingsOf ▸ hbooks
  current pid hp := by
    rw [h.processes]
    exact hcurrent pid (h.current ▸ hp)
  fresh pid hp := by
    rw [h.processes] at hp
    exact h.nextPid ▸ hfresh pid hp

/-! ## A new process -/

def numberAfter (pid : Word) : Word := if pid + 1 = 0 then 1 else pid + 1

def numbered (m : PagedMemory) (d : Directory) : PagedMemory :=
  { m with processes := m.processes.insert m.nextPid d, nextPid := numberAfter m.nextPid }

theorem addProcess_numbered (d : Directory) :
    (addProcess d).run m = .ok m.nextPid (m.numbered d) := rfl

def begunNext (m : PagedMemory) : PagedMemory :=
  { m.numbered .empty with current := some m.nextPid }

theorem beginProcess_begunNext : PagedMemory.beginProcess.run m = .ok m.nextPid m.begunNext := rfl

def withProcess (m : PagedMemory) (d : Directory) : PagedMemory :=
  { m with processes := m.processes.insert m.nextPid d, nextPid := m.nextPid + 1 }

theorem numberAfter_eq {pid : Word} (h : pid.toNat + 1 < 2 ^ 32) : numberAfter pid = pid + 1 := by
  refine if_neg fun e => ?_
  have hzero := congrArg UInt32.toNat e
  rw [UInt32.toNat_add, Nat.mod_eq_of_lt (by exact h)] at hzero
  exact Nat.succ_ne_zero _ hzero

theorem addProcess_run (hpid : m.nextPid.toNat + 1 < 2 ^ 32) (d : Directory) :
    (addProcess d).run m = .ok m.nextPid (m.withProcess d) := by
  rw [addProcess_numbered, numbered, numberAfter_eq hpid]
  rfl

section
variable (hfresh : ∀ pid, m.processes.contains pid → pid < m.nextPid)
include hfresh

theorem find?_nextPid : m.processes.find? m.nextPid = none := by
  cases hf : m.processes.find? m.nextPid with
  | none => rfl
  | some d => exact absurd (hfresh _ (Table.contains_iff.mpr ⟨d, hf⟩)) (UInt32.lt_irrefl _)

theorem mappingsOf_withProcess (d : Directory) (l : Location) :
    (m.withProcess d).mappingsOf l = d.mappingsOf l + m.mappingsOf l :=
  Table.sum_insert (find?_nextPid hfresh) d _

theorem lt_nextPid_withProcess (hpid : m.nextPid.toNat + 1 < 2 ^ 32) (q : Word)
    (hq : (m.withProcess d).processes.contains q) : q < (m.withProcess d).nextPid := by
  have hsucc : (m.nextPid + 1).toNat = m.nextPid.toNat + 1 := by
    rw [UInt32.toNat_add]
    exact Nat.mod_eq_of_lt hpid
  rw [withProcess, Table.contains_insert, Bool.or_eq_true, decide_eq_true_eq] at hq
  rw [UInt32.lt_iff_toNat_lt, withProcess, hsucc]
  rcases hq with rfl | hq
  · omega
  · have := UInt32.lt_iff_toNat_lt.mp (hfresh q hq)
    omega

end

theorem Consistent.withProcess (h : Consistent m) (hpid : m.nextPid.toNat + 1 < 2 ^ 32)
    (hm' : SameOutsideBooks m m')
    (hbooks : Books m'.toPaging fun l => m.mappingsOf l + d.mappingsOf l) :
    Consistent (m'.withProcess d) := by
  have hfresh : ∀ pid, m'.processes.contains pid → pid < m'.nextPid := by
    intro pid hp
    rw [hm'.processes] at hp
    exact hm'.nextPid ▸ h.fresh pid hp
  refine ⟨h.layout.of_sameExtent (hm'.extent.trans ⟨rfl, rfl, rfl, rfl, rfl⟩), ?_,
    fun pid hp => ?_, ?_⟩
  · refine (hbooks.frame _ _ _ _ _).congr fun l => ?_
    rw [mappingsOf_withProcess hfresh, hm'.mappingsOf, Nat.add_comm]
  · have hc : m.current = some pid := hm'.current ▸ hp
    rw [PagedMemory.withProcess, Table.contains_insert, hm'.processes, h.current pid hc,
      Bool.or_true]
  · exact lt_nextPid_withProcess hfresh (hm'.nextPid ▸ hpid)

theorem RepresentedBy.withProcess (hv : RepresentedBy name m v)
    (hfresh : ∀ pid, m.processes.contains pid → pid < m.nextPid)
    (hd : ∀ l, d.mappingsOf l ≠ 0 → m.mappingsOf l ≠ 0) :
    RepresentedBy name (m.withProcess d) (v.withProcess (d.rename name)) := by
  refine hv.shrink ?_ ?_ ?_ rfl rfl hv.current ?_
  · intro l hl
    rw [mappingsOf_withProcess hfresh] at hl
    by_cases hdl : d.mappingsOf l = 0
    · omega
    · exact hd l hdl
  · intro l _ o _
    cases l <;> rfl
  · rw [PagedMemory.withProcess, Virtual.Memory.withProcess, Table.map_insert, hv.processes,
      hv.nextPid]
  · exact congrArg (· + 1) hv.nextPid

/-! ## Another current process -/

theorem Consistent.with_current (h : Consistent m) {current : Option Word}
    (hc : ∀ pid, current = some pid → m.processes.contains pid) :
    Consistent { m with current := current } where
  layout := h.layout.of_sameExtent ⟨rfl, rfl, rfl, rfl, rfl⟩
  books := h.books.frame _ _ _ _ _
  current := hc
  fresh := h.fresh

theorem RepresentedBy.with_current (hv : RepresentedBy name m v) (current : Option Word) :
    RepresentedBy name { m with current := current } { v with current := current } := by
  refine hv.shrink (fun _ => id) ?_ hv.processes rfl rfl rfl hv.nextPid
  intro l _ o _
  cases l <;> rfl

theorem Consistent.beginProcess (h : Consistent m) (hv : Represents m v)
    (hpid : ∀ pid m', PagedMemory.beginProcess.run m = .ok pid m' → m.nextPid.toNat + 1 < 2 ^ 32) :
    Agrees PagedMemory.beginProcess Virtual.beginProcess m v fun pid q _ _ => pid = q := by
  obtain ⟨name, hv⟩ := hv
  have hlt : m.nextPid.toNat + 1 < 2 ^ 32 := hpid _ _ rfl
  have hbooks : Books m.toPaging fun l => m.mappingsOf l + Directory.mappingsOf .empty l := h.books
  have h₁ : Consistent (m.withProcess .empty) := h.withProcess hlt (.refl m) hbooks
  have hv₁ := hv.withProcess h.fresh (d := .empty) fun l hl => absurd rfl hl
  have hc : ∀ pid, some m.nextPid = some pid → (m.withProcess .empty).processes.contains pid := by
    intro pid hp
    rw [PagedMemory.withProcess, Table.contains_insert, Option.some.inj hp]
    simp
  refine .of_forced (a := m.nextPid) (c := v.nextPid) ?_ ?_
    ⟨h₁.with_current hc, ⟨rfl, rfl, rfl, rfl, rfl⟩, name, hv₁.with_current _⟩ hv.nextPid.symm
  · rw [PagedMemory.beginProcess, bind_ok (addProcess_run hlt .empty), modify_bind]
    rfl
  · simp only [Virtual.beginProcess, Virtual.addProcess, Behaviour.allows_modifyGet_bind,
      Behaviour.allows_modify_bind, Behaviour.allows_pure]
    exact ⟨trivial, by rw [hv.nextPid]; rfl⟩

theorem Consistent.switchProcess (h : Consistent m) (hv : Represents m v) (pid : Word) :
    Agrees (PagedMemory.switchProcess pid) (Virtual.switchProcess pid) m v fun _ _ _ _ => True := by
  obtain ⟨name, hv⟩ := hv
  refine Agrees.get_bind ?_
  rw [hv.contains]
  by_cases hp : m.processes.contains pid = true
  · rw [if_pos hp, if_pos hp]
    have hc : ∀ q, some pid = some q → m.processes.contains q := by
      rintro _ ⟨⟩
      exact hp
    exact .of_forced rfl ⟨rfl, rfl⟩ ⟨h.with_current hc, ⟨rfl, rfl, rfl, rfl, rfl⟩, name,
      hv.with_current _⟩ trivial
  · rw [if_neg hp, if_neg hp]
    exact .fault (.refl h ⟨name, hv⟩) rfl

/-! ## The end of a process -/

/-- Nobody counts the mappings of the process any more, but the books still do. -/
def withoutProcess (m : PagedMemory) (pid : Word) : PagedMemory :=
  { m with
    processes := m.processes.erase pid
    current := if m.current = some pid then none else m.current }

theorem mappingsOf_withoutProcess (hd : m.processes.find? pid = some d) (l : Location) :
    (m.withoutProcess pid).mappingsOf l = m.mappingsOf l - d.mappingsOf l := by
  have : d.mappingsOf l + (m.withoutProcess pid).mappingsOf l = m.mappingsOf l :=
    Table.sum_erase hd fun d => d.mappingsOf l
  omega

theorem Consistent.current_withoutProcess (h : Consistent m) (q : Word)
    (hq : (m.withoutProcess pid).current = some q) :
    (m.withoutProcess pid).processes.contains q := by
  simp only [withoutProcess] at hq ⊢
  split at hq
  · cases hq
  · rename_i hne
    have hqp : q ≠ pid := fun e => hne (e ▸ hq)
    rw [Table.contains_erase]
    simp [hqp, h.current q hq]

theorem Consistent.fresh_withoutProcess (h : Consistent m) (q : Word)
    (hq : (m.withoutProcess pid).processes.contains q) : q < (m.withoutProcess pid).nextPid := by
  simp only [withoutProcess, Table.contains_erase, Bool.and_eq_true] at hq
  exact h.fresh q hq.2

theorem RepresentedBy.withoutProcess (hv : RepresentedBy name m v)
    (hd : m.processes.find? pid = some d) :
    RepresentedBy name (m.withoutProcess pid)
      { v with
        processes := v.processes.erase pid
        current := if v.current = some pid then none else v.current } := by
  refine hv.shrink ?_ ?_ ?_ rfl rfl ?_ hv.nextPid
  · intro l hl
    rw [mappingsOf_withoutProcess hd] at hl
    omega
  · intro l _ o _
    cases l <;> rfl
  · rw [PagedMemory.withoutProcess, Table.map_erase, hv.processes]
  · rw [PagedMemory.withoutProcess, hv.current]

theorem Consistent.endProcess (h : Consistent m) (hv : Represents m v) (pid : Word) :
    Agrees (PagedMemory.endProcess pid) (Virtual.endProcess pid) m v fun _ _ _ _ => True := by
  obtain ⟨name, hv⟩ := hv
  refine Agrees.get_bind ?_
  rw [hv.contains, Table.contains]
  cases hd : m.processes.find? pid with
  | none => exact .fault (.refl h ⟨name, hv⟩) rfl
  | some d =>
    have e : SameExtent m (m.withoutProcess pid) := ⟨rfl, rfl, rfl, rfl, rfl⟩
    have hbooks : Books (m.withoutProcess pid).toPaging m.mappingsOf := h.books.frame _ _ _ _ _
    obtain ⟨m₂, hrun, hbooks₂, hsame⟩ := releaseAll_run d.locations hbooks fun l =>
      Table.le_sum hd fun d => d.mappingsOf l
    have hcounts := hbooks₂.congr (mappingsOf_withoutProcess hd)
    refine .of_forced hrun ⟨rfl, rfl⟩ ⟨?_, e.trans hsame.extent, name, ?_⟩ trivial
    · exact hsame.consistent
        (h.layout.of_sameExtent e) h.current_withoutProcess h.fresh_withoutProcess hcounts
    · exact hsame.representedBy (hv.withoutProcess hd)

/-! ## Forks -/

theorem mappingsOf_protectWritable (d : Directory) (l : Location) :
    d.protectWritable.mappingsOf l = d.mappingsOf l := by
  refine Directory.mappingsOf_map (fun m => ?_) l
  split <;> rfl

theorem rename_protectWritable (name : Location → Nat) (d : Directory) :
    d.protectWritable.rename name = Virtual.Directory.protectWritable (d.rename name) := by
  simp only [Directory.rename, Directory.protectWritable, Virtual.Directory.protectWritable,
    Table.map_map]
  refine Table.map_congr fun page mp _ => ?_
  simp only [Function.comp_apply, Mapping.rename]
  split <;> rfl

theorem forkProcess_run {m₂ : PagedMemory} (hc : m.current = some pid)
    (hd : m.processes.find? pid = some d)
    (hretain : (d.protectWritable.locations.forM retain).run (m.changed pid (·.protectWritable)) =
      .ok () m₂) : PagedMemory.forkProcess.run m = (addProcess d.protectWritable).run m₂ := by
  have hcur : (m.changed pid (·.protectWritable)).currentDirectory = .ok d.protectWritable :=
    currentDirectory_ok.mpr ⟨pid, hc, find?_changed hd _⟩
  rw [PagedMemory.forkProcess, bind_ok (updateCurrent_run hc hd _), get_bind,
    bind_ok (outcome_ok hcur _), bind_ok hretain]

/-- How often the pages are mapped after a fork, whether or not that can be counted. -/
theorem forkProcess_total (h : Consistent m) (hc : m.current = some pid)
    (hd : m.processes.find? pid = some d) : ∃ q m', PagedMemory.forkProcess.run m = .ok q m' ∧ ∀ l,
    m'.mappingsOf l = d.mappingsOf l + m.mappingsOf l := by
  obtain ⟨m₂, hretain, hsame⟩ :=
    retainAll_total d.protectWritable.locations (m.changed pid (·.protectWritable))
  refine ⟨_, _, (forkProcess_run hc hd hretain).trans rfl, fun l => ?_⟩
  have hnone : m₂.processes.find? m₂.nextPid = none := by
    apply find?_nextPid
    intro q hq
    rw [hsame.processes, changed, Table.contains_update] at hq
    exact hsame.nextPid ▸ h.fresh q hq
  change (m₂.processes.insert m₂.nextPid d.protectWritable).sum _ = _
  rw [Table.sum_insert hnone, mappingsOf_protectWritable]
  have hmaps :=
    congrFun (hsame.mappingsOf.trans (mappingsOf_changed_eq hd (mappingsOf_protectWritable d))) l
  rw [Paging.mappingsOf] at hmaps
  rw [hmaps]

/-- The mappings of the child are counted on top of those of its parent. -/
theorem Consistent.retainAll_protected (h : Consistent m) (hd : m.processes.find? pid = some d)
    (hcounts : ∀ l, d.mappingsOf l + m.mappingsOf l ≤ maxRefs) : ∃ m₂,
    (d.protectWritable.locations.forM retain).run (m.changed pid (·.protectWritable)) = .ok () m₂ ∧
      Books m₂.toPaging (fun l =>
        (m.changed pid (·.protectWritable)).mappingsOf l + d.protectWritable.mappingsOf l) ∧
        SameOutsideBooks (m.changed pid (·.protectWritable)) m₂ := by
  have h₁ : Consistent (m.changed pid (·.protectWritable)) :=
    h.changed hd (mappingsOf_protectWritable d)
  have hmaps : (m.changed pid (·.protectWritable)).mappingsOf = m.mappingsOf :=
    mappingsOf_changed_eq hd (mappingsOf_protectWritable d)
  have hcount : ∀ l, d.protectWritable.locations.count l = d.mappingsOf l :=
    mappingsOf_protectWritable d
  refine retainAll_run _ h₁.books (fun l hl => ?_) fun l => ?_
  · have hpos := List.count_pos_iff.mpr hl
    have hle : d.mappingsOf l ≤ m.mappingsOf l := Table.le_sum hd fun d => d.mappingsOf l
    rw [hcount] at hpos
    rw [hmaps]
    omega
  · have := hcounts l
    rw [hmaps, hcount]
    omega

theorem RepresentedBy.forked {m₂ : PagedMemory} (hv : RepresentedBy name m v) (h : Consistent m)
    (hd : m.processes.find? pid = some d)
    (hsame : SameOutsideBooks (m.changed pid (·.protectWritable)) m₂) :
    RepresentedBy name (m₂.withProcess d.protectWritable)
      ((v.changed pid (·.protectWritable)).withProcess (d.protectWritable.rename name)) := by
  have hmapped : ∀ l, d.protectWritable.mappingsOf l ≠ 0 → m.mappingsOf l ≠ 0 := by
    intro l hl
    have hle : d.mappingsOf l ≤ m.mappingsOf l := Table.le_sum hd fun d => d.mappingsOf l
    rw [mappingsOf_protectWritable] at hl
    omega
  have hv₁ := hv.changed hd (rename_protectWritable name d) hmapped
  refine (hsame.representedBy hv₁).withProcess (fun q hq => ?_) fun l hl => ?_
  · rw [hsame.processes, PagedMemory.changed, Table.contains_update] at hq
    exact hsame.nextPid ▸ h.fresh q hq
  · rw [hsame.mappingsOf, mappingsOf_changed_eq hd (mappingsOf_protectWritable d)]
    exact hmapped l hl

theorem Consistent.forkProcess (h : Consistent m) (hv : Represents m v)
    (hbound : ∀ q m', PagedMemory.forkProcess.run m = .ok q m' →
      WithinCounts m' ∧ m.nextPid.toNat + 1 < 2 ^ 32) :
    Agrees PagedMemory.forkProcess Virtual.forkProcess m v fun q q' _ _ => q = q' := by
  obtain ⟨name, hv⟩ := hv
  have hdirectory := hv.currentDirectory
  cases hcur : m.currentDirectory with
  | error e =>
    rw [hcur] at hdirectory
    refine .inr ⟨e, m, v, bind_error (updateCurrent_error hcur _), ?_, .refl h ⟨name, hv⟩,
      .of_kind (currentDirectory_kind e hcur)⟩
    rw [Virtual.forkProcess, Behaviour.allows_get_bind, hdirectory]
    exact Behaviour.allows_error_bind.mpr ⟨rfl, rfl⟩
  | ok d =>
    obtain ⟨pid, hc, hd⟩ := currentDirectory_ok.mp hcur
    -- the bound speaks of the state that the fork leaves, so that comes first
    obtain ⟨q, m', hrun, hmaps⟩ := forkProcess_total h hc hd
    obtain ⟨hcounts, hpid⟩ := hbound q m' hrun
    obtain ⟨m₂, hretain, hbooks, hsame⟩ := h.retainAll_protected hd fun l => hmaps l ▸ hcounts l
    have h₁ : Consistent (m.changed pid (·.protectWritable)) :=
      h.changed hd (mappingsOf_protectWritable d)
    have hpid₂ : m₂.nextPid.toNat + 1 < 2 ^ 32 := hsame.nextPid ▸ hpid
    have e : SameExtent m (m₂.withProcess d.protectWritable) :=
      (sameExtent_changed m pid _).trans (hsame.extent.trans ⟨rfl, rfl, rfl, rfl, rfl⟩)
    refine .of_forced (c := v.nextPid)
      ((forkProcess_run hc hd hretain).trans (addProcess_run hpid₂ _)) ?_
      ⟨h₁.withProcess hpid hsame hbooks, e, name, hv.forked h hd hsame⟩
        (hsame.nextPid.trans hv.nextPid.symm)
    rw [Virtual.forkProcess, Behaviour.allows_get_bind, hdirectory, hcur, Except.map,
      Behaviour.allows_ok_bind,
      Behaviour.allows_modify_bind, Virtual.addProcess, Behaviour.allows_modifyGet,
      Virtual.Memory.updateCurrent_eq (hv.current.trans hc), rename_protectWritable]
    exact ⟨rfl, rfl⟩

end PagedMachine.PagedMemory

import PagedMachine.Proofs.Stores
import PagedMachine.Proofs.Virtual

/-!
# Private pages in virtual memory

A resolution that ends well leaves the page as it was, or makes it private for a
store: then one mapping of the current process has changed, and it names a page
with the same contents that nothing else names. A resolution that faults changes
nothing.
-/

namespace PagedMachine.Virtual

namespace Memory

variable {v v' : Memory} {pid pid' q page page' address : Word} {m m' : Mapping} {access : Access}
  {privilege : Privilege}

/-- The current process may make the access without anything being copied. -/
def Grants (v : Memory) (page : Word) (access : Access) (privilege : Privilege) : Prop :=
  ∃ m, v.find? page = some m ∧ m.permissions.allow access privilege ∧
    ¬ (access = .write ∧ m.copyOnWrite)

theorem find?_eq (hc : v.current = some pid) (page : Word) :
    v.find? page = v.mapping? pid page := by
  unfold find? currentDirectory mapping?
  simp only [hc]
  cases v.processes.find? pid <;> rfl

theorem find?_some : v.find? page = some m ↔
    ∃ pid, v.current = some pid ∧ v.mapping? pid page = some m := by
  constructor
  · intro h
    cases hc : v.current with
    | none => simp [find?, currentDirectory, hc] at h
    | some pid => exact ⟨pid, rfl, find?_eq hc page ▸ h⟩
  · rintro ⟨pid, hc, hm⟩
    rw [find?_eq hc, hm]

theorem mapping?_some : v.mapping? pid page = some m ↔
    ∃ d, v.processes.find? pid = some d ∧ d.find? page = some m := Option.bind_eq_some_iff

/-- Two mappings of one page are counted twice. -/
theorem one_lt_mappingsOf (hm : v.mapping? pid page = some m)
    (hm' : v.mapping? pid' page' = some m') (hne : ¬ (pid' = pid ∧ page' = page))
    (he : m'.page = m.page) : 1 < v.mappingsOf m.page := by
  obtain ⟨d, hd, hmp⟩ := mapping?_some.mp hm
  obtain ⟨d', hd', hmp'⟩ := mapping?_some.mp hm'
  have hboth := Table.add_le_sum_sum hd hmp hd' hmp' hne fun mp => if mp.page = m.page then 1 else 0
  rwa [if_pos rfl, if_pos he] at hboth

/-! ## A page made private -/

def privatePage (v : Memory) (m : Mapping) : Nat :=
  if 1 < v.mappingsOf m.page then v.nextPage else m.page

section
variable (hc : v.current = some pid)
include hc

theorem current_privatise (page : Word) (m : Mapping) :
    (v.privatise page m).current = v.current := by
  unfold privatise
  split <;> simp only [updateCurrent_eq hc] <;> rfl

theorem mapping?_changed_update (hm : v.mapping? pid page = some m) (f : Mapping → Mapping)
    (q page' : Word) :
    (v.changed pid (·.update page f)).mapping? q page' =
      if q = pid ∧ page' = page then some (f m) else v.mapping? q page' := by
  obtain ⟨d, hd, hmp⟩ := mapping?_some.mp hm
  unfold mapping? changed
  dsimp only
  rw [Table.find?_update]
  by_cases hq : q = pid
  · subst hq
    rw [if_pos rfl, hd, Option.map_some, Option.bind_some, Option.bind_some, Table.find?_update]
    by_cases hp : page' = page
    · subst hp
      rw [if_pos rfl, if_pos ⟨rfl, rfl⟩, hmp, Option.map_some]
    · rw [if_neg hp, if_neg fun h => hp h.2]
  · rw [if_neg hq, if_neg fun h => hq h.1]

theorem mapping?_privatise (hm : v.mapping? pid page = some m) (q page' : Word) :
    (v.privatise page m).mapping? q page' =
      if q = pid ∧ page' = page then some { m with page := v.privatePage m, copyOnWrite := false }
      else v.mapping? q page' := by
  unfold privatise privatePage
  split
  · rw [updateCurrent_eq hc]
    exact mapping?_changed_update hc hm _ q page'
  · rw [updateCurrent_eq hc]
    exact mapping?_changed_update hc hm _ q page'

end

theorem contents_privatise (v : Memory) (page : Word) (m : Mapping) :
    (v.privatise page m).contents = Function.update v.contents (v.privatePage m)
    (v.contents m.page) := by
  unfold privatise privatePage
  split
  · rfl
  · rw [Function.update_eq_self]
    unfold updateCurrent
    split <;> rfl

theorem nextPid_privatise (v : Memory) (page : Word) (m : Mapping) :
    (v.privatise page m).nextPid = v.nextPid := by
  unfold privatise updateCurrent
  split <;> split <;> rfl

theorem Grants.privatise (hg : v.Grants page access privilege) (hm' : v.find? page' = some m') :
    (v.privatise page' m').Grants page access privilege := by
  obtain ⟨m, hm, hallow, hstore⟩ := hg
  obtain ⟨pid, hc, hm'⟩ := find?_some.mp hm'
  rw [find?_eq hc] at hm
  have hfind := mapping?_privatise hc hm' pid page
  rw [← find?_eq ((current_privatise hc page' m').trans hc)] at hfind
  by_cases hp : page = page'
  · subst hp
    obtain rfl : m = m' := Option.some.inj (hm.symm.trans hm')
    rw [if_pos ⟨rfl, rfl⟩] at hfind
    exact ⟨_, hfind, hallow, by simp⟩
  · rw [if_neg fun h => hp h.2, hm] at hfind
    exact ⟨m, hfind, hallow, hstore⟩

end Memory

/-! ## Resolutions -/

variable {v v' : Memory} {page address : Word} {access : Access} {privilege : Privilege}
    {r : Except Fault Unit}

/-- A fault that speaks of the request or of the supply, not of the books. -/
def Ordinary (e : Fault) : Prop := e.kind ≠ .consistencyFault

@[simp] theorem ordinary_iff {e : Fault} : Ordinary e ↔ e.kind ≠ .consistencyFault := Iff.rfl

def Memory.resolved (v : Memory) (page : Word) (m : Mapping) (access : Access) : Memory :=
  if access = .write ∧ m.copyOnWrite then v.privatise page m else v

theorem materialise_allows {m : Mapping} (h : (materialise page m access).allows v r v') :
    r = .ok () ∧ v' = v.resolved page m access ∨ ∃ e, r = .error e ∧ Ordinary e ∧ v' = v := by
  unfold Memory.resolved
  rcases Behaviour.allows_claim_bind.mp h with h | ⟨pool, hr, hv⟩
  · split at h
    · exact .inl (by simpa [*] using h)
    · exact .inl (by simpa [*] using h)
  · exact .inr ⟨_, hr, by simp [Fault.kind], hv⟩

theorem Memory.ordinary_of_currentDirectory {e : Fault} (h : v.currentDirectory = .error e) :
    Ordinary e := by
  unfold currentDirectory at h
  cases hc : v.current with
  | none =>
    rw [hc] at h
    cases h
    exact nofun
  | some pid =>
    cases hd : v.processes.find? pid with
    | none =>
      simp only [hc, hd] at h
      cases h
      exact nofun
    | some d => simp [hc, hd] at h

theorem lookup_allows {r : Except Fault Mapping} (h : (lookup page address access).allows v r v') :
    v' = v ∧ ((∃ m, r = .ok m ∧ v.find? page = some m) ∨ ∃ e, r = .error e ∧ Ordinary e) := by
  unfold lookup at h
  rw [Behaviour.allows_get_bind] at h
  unfold Memory.find?
  cases hd : v.currentDirectory with
  | error e =>
    rw [hd, Behaviour.allows_error_bind] at h
    exact ⟨h.2, .inr ⟨e, h.1, Memory.ordinary_of_currentDirectory hd⟩⟩
  | ok d =>
    rw [hd, Behaviour.allows_ok_bind] at h
    dsimp only
    cases hm : d.find? page with
    | none =>
      rw [hm] at h
      exact ⟨h.2, .inr ⟨_, h.1, nofun⟩⟩
    | some m =>
      rw [hm] at h
      exact ⟨h.2, .inl ⟨m, h.1, rfl⟩⟩

theorem allows_lookup_bind {α : Type} {f : Mapping → Behaviour Memory α} {r : Except Fault α}
    (h : (lookup page address access >>= f).allows v r v') :
    (∃ m, v.find? page = some m ∧ (f m).allows v r v') ∨
    ∃ e, r = .error e ∧ Ordinary e ∧ v' = v := by
  rcases Behaviour.allows_bind.mp h with ⟨m, t, hl, hrest⟩ | ⟨e, hr, hl⟩
  · obtain ⟨rfl, ⟨m', hm', hm⟩ | ⟨e, he, -⟩⟩ := lookup_allows hl
    · obtain rfl := Except.ok.inj hm'
      exact .inl ⟨m, hm, hrest⟩
    · cases he
  · obtain ⟨rfl, ⟨m', hm', -⟩ | ⟨e', he, ho⟩⟩ := lookup_allows hl
    · cases hm'
    · obtain rfl := Except.error.inj he
      exact .inr ⟨e, hr, ho, rfl⟩

/-- A resolution finds a mapping that allows the access, or nothing happens. -/
theorem resolve_allows (h : (resolve page address access privilege).allows v r v') :
    (∃ m, v.find? page = some m ∧ m.permissions.allow access privilege ∧ r = .ok () ∧
        v' = v.resolved page m access) ∨ ∃ e, r = .error e ∧ Ordinary e ∧ v' = v := by
  rcases allows_lookup_bind h with ⟨m, hm, hrest⟩ | hfault
  · split at hrest
    · rename_i hallow
      rcases materialise_allows hrest with ⟨hr, hv⟩ | hfault
      · exact .inl ⟨m, hm, hallow, hr, hv⟩
      · exact .inr hfault
    · exact .inr ⟨_, hrest.1, by simp [Fault.kind], hrest.2⟩
  · exact .inr hfault

theorem resolveHostWrite_allows (h : (resolveHostWrite address).allows v r v') :
    (∃ m, v.find? address.page = some m ∧ r = .ok () ∧ v' = v.resolved address.page m .write) ∨
      ∃ e, r = .error e ∧ Ordinary e ∧ v' = v := by
  rcases allows_lookup_bind h with ⟨m, hm, hrest⟩ | hfault
  · rcases materialise_allows hrest with ⟨hr, hv⟩ | hfault
    · exact .inl ⟨m, hm, hr, hv⟩
    · exact .inr hfault
  · exact .inr hfault

/-- Some pages of the current process, one after the other, have become private. -/
inductive Privatised : Memory → Memory → Prop
  | refl (v : Memory) : Privatised v v
  | next {v v' : Memory} {page : Word} {m : Mapping} :
      v.find? page = some m → Privatised (v.privatise page m) v' → Privatised v v'

theorem Privatised.trans {v'' : Memory} (h : Privatised v v') (h' : Privatised v' v'') :
    Privatised v v'' := by
  induction h with
  | refl => exact h'
  | next hm _ ih => exact .next hm (ih h')

theorem Memory.privatised_resolved {m : Mapping} (hm : v.find? page = some m) (access : Access) :
    Privatised v (v.resolved page m access) := by
  unfold resolved
  split
  · exact .next hm (.refl _)
  · exact .refl v

theorem Memory.Grants.privatised (hg : v.Grants page access privilege) (h : Privatised v v') :
    v'.Grants page access privilege := by
  induction h with
  | refl => exact hg
  | next hm _ ih => exact ih (hg.privatise hm)

theorem Memory.grants_resolved {m : Mapping} (hm : v.find? page = some m)
    (hallow : m.permissions.allow access privilege) :
    (v.resolved page m access).Grants page access privilege := by
  unfold resolved
  split
  · obtain ⟨pid, hc, hm'⟩ := find?_some.mp hm
    refine ⟨{ m with page := v.privatePage m, copyOnWrite := false }, ?_, hallow, by simp⟩
    rw [find?_eq ((current_privatise hc page m).trans hc), mapping?_privatise hc hm' pid page,
      if_pos ⟨rfl, rfl⟩]
  · exact ⟨m, hm, hallow, ‹_›⟩

theorem resolve_privatised (h : (resolve page address access privilege).allows v r v') :
    Privatised v v' ∧
    ((∃ e, r = .error e ∧ Ordinary e) ∨ r = .ok () ∧ v'.Grants page access privilege) := by
  rcases resolve_allows h with ⟨m, hm, hallow, hr, rfl⟩ | ⟨e, hr, he, rfl⟩
  · exact ⟨Memory.privatised_resolved hm access, .inr ⟨hr, Memory.grants_resolved hm hallow⟩⟩
  · exact ⟨.refl _, .inl ⟨e, hr, he⟩⟩

theorem allows_resolve_bind {α : Type} {f : Unit → Behaviour Memory α} {r : Except Fault α}
    (h : (resolve page address access privilege >>= f).allows v r v') :
    (∃ v₁, Privatised v v₁ ∧ v₁.Grants page access privilege ∧ (f ()).allows v₁ r v') ∨
      ∃ e, r = .error e ∧ Ordinary e ∧ Privatised v v' := by
  rcases Behaviour.allows_bind.mp h with ⟨_, v₁, h₁, hrest⟩ | ⟨e, hr, h₁⟩
  · obtain ⟨hp, ⟨e, he, -⟩ | ⟨-, hg⟩⟩ := resolve_privatised h₁
    · cases he
    · exact .inl ⟨v₁, hp, hg, hrest⟩
  · obtain ⟨hp, ⟨e', he, ho⟩ | ⟨he, -⟩⟩ := resolve_privatised h₁
    · obtain rfl := Except.error.inj he
      exact .inr ⟨e, hr, ho, hp⟩
    · cases he

/-! ## Transfers -/

variable {t : Transfer}

def firstPage (t : Transfer) : Word := t.address.page

def lastPage (t : Transfer) : Word := (t.address + UInt32.ofNat (t.width.bytes - 1)).page

def Granted (v : Memory) (t : Transfer) (privilege : Privilege) : Prop :=
  v.Grants (firstPage t) t.access privilege ∧ v.Grants (lastPage t) t.access privilege

theorem page_of_lt {offset : Nat} (ho : offset < t.width.bytes) :
    (t.address + UInt32.ofNat offset).page = firstPage t ∨
    (t.address + UInt32.ofNat offset).page = lastPage t := by
  apply Word.page_add_ofNat ho
  cases t.width <;> decide

theorem lastPage_eq (h : ¬ crossesPage t.address t.width = true) : lastPage t = firstPage t := by
  have hpos : 0 < t.width.bytes := by cases t.width <;> decide
  have hfit : t.address.pageOffset + t.width.bytes ≤ pageSize := by simpa [crossesPage] using h
  exact (Word.add_ofNat_of_lt (by omega)).1

theorem Granted.grants (hg : Granted v t privilege) {offset : Nat} (ho : offset < t.width.bytes) :
    v.Grants (t.address + UInt32.ofNat offset).page t.access privilege := by
  rcases page_of_lt ho with hp | hp
  · exact hp ▸ hg.1
  · exact hp ▸ hg.2

theorem Granted.exchangeBytes (hg : Granted v t privilege) (offset count : Nat) :
    Granted (v.exchangeBytes t offset count).2 t privilege := by
  simpa only [Granted, Memory.Grants, Memory.find?_exchangeBytes] using hg

/-- What a transfer leaves behind: private pages, and if it did not fault, other bytes. -/
theorem transferMapped_allows {r : Except Fault Word}
    (h : (transferMapped t privilege).allows v r v') :
    ∃ v₁, Privatised v v₁ ∧ ((∃ e, r = .error e ∧ Ordinary e ∧ v' = v₁) ∨
      Granted v₁ t privilege ∧ r = .ok (UInt32.ofNat (v₁.exchangeBytes t 0 t.width.bytes).1) ∧
        v' = (v₁.exchangeBytes t 0 t.width.bytes).2) := by
  by_cases hcross : crossesPage t.address t.width = true
  · rw [transferMapped, if_pos hcross] at h
    -- what the first page was granted it keeps while the second one becomes private
    rcases allows_resolve_bind h with ⟨v₁, hp₁, hg₁, h⟩ | ⟨e, hr, he, hp⟩
    · rcases allows_resolve_bind h with ⟨v₂, hp₂, hg₂, h⟩ | ⟨e, hr, he, hp⟩
      · refine ⟨v₂, hp₁.trans hp₂, ?_⟩
        rcases Behaviour.allows_claim_bind.mp h with h | ⟨pool, hr, hv⟩
        · exact .inr ⟨⟨hg₁.privatised hp₂, hg₂⟩, Behaviour.allows_modifyGet_bind.mp h⟩
        · exact .inl ⟨_, hr, by simp [Fault.kind], hv⟩
      · exact ⟨v', hp₁.trans hp, .inl ⟨e, hr, he, rfl⟩⟩
    · exact ⟨v', hp, .inl ⟨e, hr, he, rfl⟩⟩
  · rw [transferMapped, if_neg hcross] at h
    rcases allows_resolve_bind h with ⟨v₁, hp, hg, h⟩ | ⟨e, hr, he, hp⟩
    · have hlast : lastPage t = firstPage t := lastPage_eq hcross
      exact ⟨v₁, hp, .inr ⟨⟨hg, hlast ▸ hg⟩, Behaviour.allows_modifyGet_bind.mp h⟩⟩
    · exact ⟨v', hp, .inl ⟨e, hr, he, rfl⟩⟩

end PagedMachine.Virtual

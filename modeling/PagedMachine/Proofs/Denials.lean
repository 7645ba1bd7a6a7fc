import PagedMachine.Proofs.BusEffects

/-!
# Why virtual memory denies a transfer

A transfer in the window is denied for want of a process, of a mapping of one of its
two ends, of a permission there, or of pages. An end that is found missing was missing
before, since to resolve the other end unmaps nothing.
-/

namespace PagedMachine.Virtual

/-- An address whose page a transfer looks up: its first, or its last if that is on another page. -/
def Touches (t : Transfer) (a : Word) : Prop :=
  a = t.address ∨ crossesPage t.address t.width = true ∧
    a = t.address + UInt32.ofNat (t.width.bytes - 1)

inductive Memory.Denies (v : Memory) (t : Transfer) : Fault → Prop
  | directory {e : Fault} : v.currentDirectory = .error e → Denies v t e
  | unmapped {a : Word} : Touches t a → v.find? a.page = none → Denies v t (.pageFault a t.access)
  | forbidden {a : Word} : Touches t a → Denies v t (.protectionFault a t.access)
  | exhausted (pool : PoolKind) : Denies v t (.resourceExhausted pool)

variable {v v' : Memory} {t : Transfer} {e : Fault} {a page : Word} {access : Access}
    {privilege : Privilege}

theorem Memory.find?_of_error (h : v.currentDirectory = .error e) (page : Word) :
    v.find? page = none := by
  unfold find?
  rw [h]

/-- No page that was mapped is missed after some pages became private. -/
theorem Privatised.find?_none (h : Privatised v v') (hnone : v'.find? page = none) :
    v.find? page = none := by
  induction h with
  | refl => exact hnone
  | @next v v' page' m hm _ ih =>
    have hcopied := ih hnone
    obtain ⟨pid, hc, hm'⟩ := Memory.find?_some.mp hm
    have hfind := Memory.mapping?_privatise hc hm' pid page
    rw [← Memory.find?_eq ((Memory.current_privatise hc page' m).trans hc), hcopied] at hfind
    rw [Memory.find?_eq hc]
    split at hfind
    · cases hfind
    · exact hfind.symm

/-- Why a resolution is denied. -/
theorem resolve_denied (h : (resolve page a access privilege).allows v (.error e) v') :
    v.currentDirectory = .error e ∨ e = .pageFault a access ∧ v.find? page = none ∨
      e = .protectionFault a access ∨ ∃ pool, e = .resourceExhausted pool := by
  rcases Behaviour.allows_bind.mp h with ⟨m, w, -, hrest⟩ | ⟨e', he, hlookup⟩
  · split at hrest
    · rcases Behaviour.allows_claim_bind.mp hrest with hdone | ⟨pool, he, -⟩
      · split at hdone
        · cases hdone.1
        · cases hdone.1
      · exact .inr (.inr (.inr ⟨pool, Except.error.inj he⟩))
    · exact .inr (.inr (.inl (Except.error.inj hrest.1)))
  · obtain rfl := Except.error.inj he
    unfold lookup at hlookup
    rw [Behaviour.allows_get_bind] at hlookup
    cases hd : v.currentDirectory with
    | error e₁ =>
      rw [hd, Behaviour.allows_error_bind] at hlookup
      obtain rfl := Except.error.inj hlookup.1
      exact .inl rfl
    | ok d =>
      rw [hd, Behaviour.allows_ok_bind] at hlookup
      cases hm : d.find? page with
      | none =>
        rw [hm] at hlookup
        refine .inr (.inl ⟨Except.error.inj hlookup.1, ?_⟩)
        unfold Memory.find?
        rw [hd]
        exact hm
      | some m =>
        rw [hm] at hlookup
        cases hlookup.1

theorem denies_first
    (h : (resolve t.address.page t.address t.access privilege).allows v (.error e) v') :
    v.Denies t e := by
  rcases resolve_denied h with hd | ⟨rfl, hnone⟩ | rfl | ⟨pool, rfl⟩
  · exact .directory hd
  · exact .unmapped (.inl rfl) hnone
  · exact .forbidden (.inl rfl)
  · exact .exhausted pool

theorem denies_last {v₁ : Memory} (hcross : crossesPage t.address t.width = true)
    (hp : Privatised v v₁)
    (h : (resolve (t.address + UInt32.ofNat (t.width.bytes - 1)).page
      (t.address + UInt32.ofNat (t.width.bytes - 1))
      t.access privilege).allows v₁ (.error e) v')
      (hg : v₁.Grants t.address.page t.access privilege) : v.Denies t e := by
  rcases resolve_denied h with hd | ⟨rfl, hnone⟩ | rfl | ⟨pool, rfl⟩
  · obtain ⟨m, hm, -⟩ := hg
    cases hm.symm.trans (Memory.find?_of_error hd _)
  · exact .unmapped (.inr ⟨hcross, rfl⟩) (hp.find?_none hnone)
  · exact .forbidden (.inr ⟨hcross, rfl⟩)
  · exact .exhausted pool

theorem transferMapped_denied (h : (transferMapped t privilege).allows v (.error e) v') :
    v.Denies t e := by
  unfold transferMapped at h
  rcases Behaviour.allows_bind.mp h with ⟨_, v₁, hfirst, hrest⟩ | ⟨e₁, he, hfirst⟩
  · obtain ⟨hp, ⟨_, he, -⟩ | ⟨-, hg⟩⟩ := resolve_privatised hfirst
    · cases he
    · split at hrest
      · rename_i hcross
        rcases Behaviour.allows_bind.mp hrest with ⟨_, v₂, -, hrest⟩ | ⟨e₂, he, hlast⟩
        · rcases Behaviour.allows_claim_bind.mp hrest with hdone | ⟨pool, he, -⟩
          · cases (Behaviour.allows_modifyGet_bind.mp hdone).1
          · obtain rfl := Except.error.inj he
            exact .exhausted pool
        · obtain rfl := Except.error.inj he
          exact denies_last hcross hp hlast hg
      · cases (Behaviour.allows_modifyGet_bind.mp hrest).1
  · obtain rfl := Except.error.inj he
    exact denies_first hfirst

theorem Memory.currentDirectory_error (h : v.currentDirectory = .error e) :
    e = .noProcess ∨ ∃ pid, e = .unknownProcess pid := by
  unfold currentDirectory at h
  split at h
  · exact .inl (Except.error.inj h).symm
  · split at h
    · exact .inr ⟨_, (Except.error.inj h).symm⟩
    · cases h

theorem Memory.Denies.ne_outOfBounds (h : v.Denies t e) (a : Word) : e ≠ .memoryOutOfBounds a := by
  cases h with
  | directory hd =>
    rcases currentDirectory_error hd with rfl | ⟨_, rfl⟩
    · nofun
    · nofun
  | unmapped | forbidden | exhausted => nofun

/-- A page fault names an address that the transfer touches, on a page that is not mapped. -/
theorem Memory.Denies.pageFault (h : v.Denies t (.pageFault a access)) :
    Touches t a ∧ v.find? a.page = none := by
  generalize he : Fault.pageFault a access = e at h
  cases h with
  | directory hd =>
    rcases currentDirectory_error hd with rfl | ⟨_, rfl⟩
    · cases he
    · cases he
  | unmapped htouches hnone =>
    cases he
    exact ⟨htouches, hnone⟩
  | forbidden | exhausted => cases he

/-- A transfer that the window holds is one of virtual memory. -/
theorem Bus.transfer_mapped {v v' : Bus} {r : Except Fault Word} {region : Region}
    (hregion : v.regions.regionOf? t.address = some region) (hk : region.kind = .mapped)
    (hholds : region.holds t.address t.width = true) (h : (transfer t).allows v r v') :
    ∃ m, (transferMapped t v.privilege).allows v.memory r m ∧ v' = { v with memory := m } := by
  replace h := Behaviour.allows_get_bind.mp h
  rw [hregion] at h
  dsimp only at h
  rw [if_pos hholds, hk] at h
  rcases Behaviour.allows_bind.mp h with ⟨_, w, ⟨-, rfl⟩, hserve⟩ | ⟨e, -, he, -⟩
  · exact Behaviour.allows_get_bind.mp hserve
  · cases he

end PagedMachine.Virtual

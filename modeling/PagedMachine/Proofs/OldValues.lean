import PagedMachine.Proofs.Bytewise

/-!
# Old values

Every served access answers what was at its bytes. A load of them in the same state
answers the same: it is allowed wherever the access is, needs no frame that the
access did not need, and finds its pages as the access found them.
-/

namespace PagedMachine

namespace Virtual

variable {v v₁ v₂ : Memory} {t t' : Transfer} {offset count : Nat}

theorem Memory.answer_congr (hf : v.Fresh) (hc : v.current ≠ none)
    (hcovers : v.Covers t offset count) (hfit : offset + count ≤ pageSize)
    (haddress : t'.address = t.address) (h₁ : Privatised v v₁) (h₂ : Privatised v v₂) :
    (v₁.exchangeBytes t offset count).1 = (v₂.exchangeBytes t' offset count).1 := by
  obtain ⟨q, hc⟩ := Option.ne_none_iff_exists'.mp hc
  have hfinds := hcovers.finds hc
  generalize (fun i => (v.byte? q (t.address + UInt32.ofNat i)).getD 0) = f at hfinds
  have hfinds₁ : v₁.Finds t q f offset count :=
    fun i hi hlt => ((h₁.unseen hf).bytes _ _).trans (hfinds i hi hlt)
  have hfinds₂ : v₂.Finds t' q f offset count := fun i hi hlt =>
    haddress ▸ ((h₂.unseen hf).bytes _ _).trans (hfinds i hi hlt)
  rw [hfinds₁.answer count offset ((h₁.unseen hf).current.trans hc) hfit,
    hfinds₂.answer count offset ((h₂.unseen hf).current.trans hc) hfit]

end Virtual

namespace PagedMemory

open Virtual (firstPage lastPage)

variable {m m' m₁ : PagedMemory} {v : Virtual.Memory}
    {pid page frame copy address physical old : Word} {mp : Mapping}
  {t : Transfer} {access : Access} {privilege : Privilege} {kind : PoolKind} {ram : Ram}

/-! ## Scarce frames -/

theorem HasFree.of_ownCopy (h : (m.ownCopy pid page frame copy ram).HasFree kind) :
    m.HasFree kind := by
  obtain ⟨free, hfree⟩ := h
  have hpool : (m.ownCopy pid page frame copy ram).pool kind =
      (m.setFree (.frame copy) (·.erase copy)).pool kind := by
    cases kind <;> rfl
  refine ⟨free, ?_⟩
  rw [hpool, Paging.pool_setFree, Pool.isFree] at hfree
  split at hfree
  · rename_i hkind
    rw [Table.contains_erase, Bool.and_eq_true] at hfree
    exact hkind ▸ hfree.2
  · exact hfree

/-- While no slot is free, resolving a page in its frame frees nothing and moves no other page. -/
theorem Consistent.translate_scarce (h : Consistent m) (hholds : Holds m address.page frame)
    (hdisk : ¬ m.HasFree .disk)
    (hstep : Yields (PagedMemory.translate address access privilege) m (.ok physical) m') :
    (∀ kind, m'.HasFree kind → m.HasFree kind) ∧ ∀ page ≠ address.page,
    m'.mapping? page = m.mapping? page := by
  obtain ⟨mp, hm, hl⟩ := hholds
  obtain ⟨pid, d, hc, hd, hmp⟩ := mapping?_some.mp hm
  obtain ⟨r, hresolve⟩ := yields_of_physical hstep
  replace hresolve := hresolve.of_run (bind_ok (lookup_run hm address access)).symm
  have hother : ∀ {f : Mapping → Mapping} {m₂ : PagedMemory}, m₂.current = some pid →
      m₂.processes = m.processes.update pid (·.update address.page f) →
      ∀ page ≠ address.page, m₂.mapping? page = m.mapping? page := by
    intro f m₂ hcurrent hprocesses page hne
    rw [mapping?_eq hc hd,
      mapping?_eq hcurrent (by rw [hprocesses, Table.find?_update, if_pos rfl, hd]; rfl),
      Table.find?_update, if_neg hne]
  split at hresolve
  case isFalse => exact hresolve.of_throw.2 ▸ ⟨fun _ => id, fun _ _ => rfl⟩
  rw [materialise_eq, PagedMemory.bringIn, hl] at hresolve
  dsimp only [pure_bind] at hresolve
  split at hresolve
  case isFalse => exact hresolve.of_pure.2 ▸ ⟨fun _ => id, fun _ _ => rfl⟩
  by_cases hshared : 1 < m.mappingsOf (.frame frame)
  · rcases h.privatise_shared hc hd hmp hl hshared with
      ⟨-, copy, m₀, hroom, -, -, hrun⟩ | ⟨e, hrun, -⟩
    -- to move a page out for the copy would take a slot
    · obtain rfl : m₀ = m := by
        rcases hroom with hsame | ⟨_, _, _, hr⟩
        · exact hsame
        · exact absurd (hr.hasFree_target h) hdisk
      obtain ⟨-, rfl⟩ := hresolve.eq_of_ok hrun
      exact ⟨fun _ => HasFree.of_ownCopy, hother (by rwa [current_ownCopy]) rfl⟩
    · obtain ⟨-, rfl⟩ := hresolve.eq_of_error hrun
      exact ⟨fun _ => id, fun _ _ => rfl⟩
  · obtain ⟨-, rfl⟩ := hresolve.eq_of_ok (privatise_run_ownInPlace (by rwa [h.refs_eq]) hc hd)
    exact ⟨fun _ => id, hother hc rfl⟩

/-! ## Loads in place of accesses -/

theorem denied_read {p : Permissions} (h : ¬ Denied p access privilege) :
    ¬ Denied p .read privilege := by
  rintro (⟨ha, -⟩ | ⟨ha, -⟩ | hkernel)
  · cases ha
  · cases ha
  · exact h (.inr (.inr hkernel))

theorem Sound.translate_read (h : Sound m) (hv : Represents m v)
    (hstep : Yields (PagedMemory.translate address access privilege) m (.ok physical) m₁) :
    ∃ physical' m', Yields (PagedMemory.translate address .read privilege) m (.ok physical') m' ∧
      At m' address physical' ∧ Follows m m' v ∧ (m' = m ∨ m'.HasFree .disk) := by
  obtain ⟨mp, hm, hallow, hshort⟩ :=
    translationFault?_eq_none.mp (h.translationFault?_of_translate hstep)
  have hallow' := not_not.mp (denied_iff.not.mp (denied_read hallow))
  rcases h.consistent.translate_exact hv hm hallow' nofun with
    ⟨-, physical', m', hrun, hat, hfollows, hstay⟩ | ⟨-, hs⟩
  · exact ⟨physical', m', hrun, hat, hfollows, hstay⟩
  · rw [shortage?_of_stranded hs] at hshort
    cases hshort

theorem Sound.translate_read_last (h : Sound m) (hv : Represents m v) {address' physical' : Word}
    {m₂ : PagedMemory} {mv : Virtual.Mapping} (hne : address'.page ≠ address.page)
    (hmv : v.find? address.page = some mv)
    (hfirst : Yields (PagedMemory.translate address access privilege) m (.ok physical) m₁)
    (hlast : Yields (PagedMemory.translate address' access privilege) m₁ (.ok physical') m₂)
    (h₁ : Represents m₁ (v.resolved address.page mv access)) :
    ∃ physical m' physical' m'',
    Yields (PagedMemory.translate address .read privilege) m (.ok physical) m' ∧
      Yields (PagedMemory.translate address' .read privilege) m' (.ok physical') m'' := by
  have hsound : Sound m₁ := enduring_sound.translate _ _ _ m _ m₁ h hfirst
  obtain ⟨last, hm₁, hallow, hshort⟩ :=
    translationFault?_eq_none.mp (hsound.translationFault?_of_translate hlast)
  obtain ⟨p, m', hread, ⟨frame, hholds, -⟩, hfollows, hstay⟩ := h.translate_read hv hfirst
  -- the mapping of the last page is the same in both states, but for its place
  obtain ⟨name₁, h₁⟩ := h₁
  obtain ⟨name', h'⟩ := hfollows.represents
  have hfind := Virtual.Memory.find?_resolved_of_ne hmv access hne
  rw [h₁.find?, h'.find?, hm₁, Option.map_some] at hfind
  obtain ⟨lp, hm', hlp⟩ := Option.map_eq_some_iff.mp hfind.symm
  have hpermissions : lp.permissions = last.permissions := congrArg Virtual.Mapping.permissions hlp
  have hallow' := not_not.mp (denied_iff.not.mp (hpermissions.symm ▸ denied_read hallow))
  rcases hfollows.consistent.translate_exact ⟨name', h'⟩ hm' hallow' nofun with
    ⟨-, q, m'', hrun, -⟩ | ⟨-, hs⟩
  · exact ⟨p, m', q, m'', hread, hrun⟩
  -- a page that is stranded for the load would be stranded for the access
  · obtain rfl : m' = m := hstay.resolve_right hs.2.2
    obtain ⟨hfree, hother⟩ := h.consistent.translate_scarce hholds hs.2.2 hfirst
    obtain rfl : last = lp := Option.some.inj (hm₁.symm.trans ((hother _ hne).trans hm'))
    have hs₁ : m₁.Stranded last :=
      ⟨hs.1, fun hf => hs.2.1 (hfree _ hf), fun hf => hs.2.2 (hfree _ hf)⟩
    rw [shortage?_of_stranded hs₁] at hshort
    cases hshort

theorem answer_eq {v₁ v₂ : Virtual.Memory} (t' : Transfer) {old' : Word} (hv : Represents m v)
    (hcovers : v.Covers t 0 t.width.bytes) (haddress : t'.address = t.address)
    (hwidth : t'.width = t.width) (h₁ : Virtual.Privatised v v₁) (h₂ : Virtual.Privatised v v₂)
    (hold : old.toNat = (v₁.exchangeBytes t 0 t.width.bytes).1)
    (hold' : old'.toNat = (v₂.exchangeBytes t' 0 t'.width.bytes).1) : old' = old := by
  have hc : v.current ≠ none := by
    obtain ⟨mv, hmv⟩ := hcovers 0 (Nat.le_refl 0) (by cases t.width <;> decide)
    obtain ⟨pid, hc, -⟩ := Virtual.Memory.find?_some.mp hmv
    exact hc ▸ nofun
  have hfit : 0 + t.width.bytes ≤ pageSize := by
    rw [Nat.zero_add]
    exact Virtual.bytes_le_pageSize t.width
  rw [hwidth, ← Virtual.Memory.answer_congr hv.isFresh hc hcovers hfit haddress h₁ h₂,
    ← hold] at hold'
  exact UInt32.toNat_inj.mp hold'

/-- A served access answers what a load answers in its place. -/
theorem Sound.load_of_transfer (h : Sound m)
    (hstep : Yields (PagedMemory.transferMapped t privilege) m (.ok old) m₁) :
    ∃ m₃,
    Yields (PagedMemory.transferMapped (.read t.address t.width) privilege) m (.ok old) m₃ := by
  obtain ⟨v, hv⟩ := h.represents
  by_cases hcross : crossesPage t.address t.width = true
  · obtain ⟨_, _, _, _, first, last, hfirst, hlast, hmv, h₁, hmv', hold, -⟩ :=
      h.consistent.together hv hcross hstep
    obtain ⟨k, hsplits⟩ := Virtual.splits_of_crosses hcross
    -- a load needs less than the access, so both pages are found for it too
    obtain ⟨_, _, _, m'', hread, hread'⟩ := h.translate_read_last hv hsplits.ne hmv hfirst hlast h₁
    obtain ⟨mp, -, hserved, hrefused⟩ :=
      h.consistent.crossing_exact hv (t := .read t.address t.width) hcross hread hread'
    obtain ⟨old', m₃, hload⟩ := hserved fun hs => nomatch (hrefused hs).2.1
    obtain ⟨_, _, _, _, first', last', -, -, hmvr, -, hmvr', hold', -⟩ :=
      h.consistent.together hv (t := .read t.address t.width) hcross hload
    have hother := (Virtual.Memory.find?_resolved_of_ne hmv t.access hsplits.ne).symm.trans hmv'
    have hcovers : v.Covers t 0 t.width.bytes := Virtual.Memory.covers_of_splits hsplits hmv hother
    obtain rfl : old' = old := answer_eq (.read t.address t.width) hv hcovers rfl rfl
      ((Virtual.Memory.privatised_resolved hmv _).trans (Virtual.Memory.privatised_resolved hmv' _))
      ((Virtual.Memory.privatised_resolved hmvr _).trans
        (Virtual.Memory.privatised_resolved hmvr' _)) hold hold'
    exact ⟨m₃, hload⟩
  · obtain ⟨_, _, first, htranslate, hmv, hold, -⟩ := h.consistent.within hv hcross hstep
    have hfit : t.address.pageOffset + t.width.bytes ≤ pageSize := by
      simpa [crossesPage] using hcross
    obtain ⟨physical, m', hread, hat, hfollows, -⟩ := h.translate_read hv htranslate
    obtain ⟨old', m₃, hload⟩ : ∃ old' m₃,
        Yields (PagedMemory.transferMapped (.read t.address t.width) privilege) m
          (.ok old') m₃ := by
      obtain ⟨m₃, hrun, -⟩ :=
        hfollows.consistent.exchange hfollows.represents (t := .read t.address t.width) hat hfit
      rw [PagedMemory.transferMapped, if_neg (by exact hcross)]
      exact ⟨_, m₃, hread.bind_ok hrun⟩
    obtain ⟨_, _, first', -, hmvr, hold', -⟩ :=
      h.consistent.within hv (t := .read t.address t.width) hcross hload
    have hcovers : v.Covers t 0 t.width.bytes := fun i _ hi =>
      ⟨first, (Word.add_ofNat_of_lt (show t.address.pageOffset + i < pageSize by omega)).1 ▸ hmv⟩
    obtain rfl : old' = old := answer_eq (.read t.address t.width) hv hcovers rfl rfl
      (Virtual.Memory.privatised_resolved hmv _)
        (Virtual.Memory.privatised_resolved hmvr _) hold hold'
    exact ⟨m₃, hload⟩

end PagedMemory

end PagedMachine

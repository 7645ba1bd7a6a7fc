import PagedMachine.Proofs.Copies
import PagedMachine.Proofs.Privacy

/-!
# Access to mapped pages

A resolution does what virtual memory does and ends with the page in a frame.
A page that is granted to an access needs at most a page-in, which shows nowhere;
and once that has happened a slot is free, so that no later one is refused.
-/

namespace PagedMachine

namespace PagedMemory

variable {m m' : PagedMemory} {v : Virtual.Memory} {page address frame slot : Word} {mp : Mapping}
    {access : Access} {privilege : Privilege}

theorem mapping?_some : m.mapping? page = some mp ↔
    ∃ pid d, m.current = some pid ∧ m.processes.find? pid = some d ∧ d.find? page = some mp := by
  constructor
  · intro h
    rw [Paging.mapping?] at h
    cases hd : m.currentDirectory with
    | error e => simp [hd] at h
    | ok d =>
      obtain ⟨pid, hc, hp⟩ := currentDirectory_ok.mp hd
      exact ⟨pid, d, hc, hp, by simpa [hd] using h⟩
  · rintro ⟨pid, d, hc, hd, hm⟩
    rw [mapping?_eq hc hd, hm]

theorem Represents.find? (hv : Represents m v) (hm : m.mapping? page = some mp) :
    ∃ mv, v.find? page = some mv ∧ mv.permissions = mp.permissions ∧
      mv.copyOnWrite = mp.copyOnWrite := by
  obtain ⟨name, hv⟩ := hv
  exact ⟨mp.rename name, by rw [hv.find?, hm]; rfl, rfl, rfl⟩

theorem pool_ne_disk (p : Permissions) : p.pool ≠ .disk := by
  unfold Permissions.pool
  split <;> simp

/-! ## Into a frame -/

def bringIn (mp : Mapping) : Paged Word :=
  match mp.location with
  | .frame frame => pure frame
  | .slot slot => pageIn slot mp.permissions.pool

theorem materialise_eq (page : Word) (mp : Mapping) (access : Access) : materialise page mp access =
    bringIn mp >>= fun frame => if access = .write ∧ mp.copyOnWrite then privatise page frame
    else return frame := by
  rw [materialise, bringIn]
  cases mp.location <;> rfl

/-- The page is on the disk, and neither a frame for it nor a slot is free. -/
def Stranded (m : PagedMemory) (mp : Mapping) : Prop :=
  (∃ slot, mp.location = .slot slot) ∧ ¬ m.HasFree mp.permissions.pool ∧ ¬ m.HasFree .disk

theorem Consistent.bringIn (h : Consistent m) (hv : Represents m v)
    (hm : m.mapping? page = some mp) :
    (¬ m.Stranded mp ∧ ∃ frame m', (PagedMemory.bringIn mp).run m = .ok frame m' ∧ Follows m m' v ∧
        m'.mapping? page = some { mp with location := .frame frame } ∧
        m'.mappingsOf (.frame frame) = m.mappingsOf mp.location ∧
        (m' = m ∧ mp.location = .frame frame ∨ (∃ slot, mp.location = .slot slot) ∧
          m'.HasFree .disk)) ∨
      ((PagedMemory.bringIn mp).run m = .error (.resourceExhausted .disk) m ∧ m.Stranded mp) := by
  obtain ⟨pid, d, hc, hd, hmp⟩ := mapping?_some.mp hm
  unfold PagedMemory.bringIn Stranded
  cases hl : mp.location with
  | frame frame =>
    refine .inl ⟨fun hstranded =>
      by simp at hstranded, frame, m, rfl, .refl h hv, ?_, rfl, .inl ⟨rfl, rfl⟩⟩
    rw [hm, ← hl]
  | slot slot =>
    have hs : m.mappingsOf (.slot slot) ≠ 0 := hl ▸ mappingsOf_ne_zero hd hmp
    rcases h.pageIn_exact hs (pool_ne_disk mp.permissions) with
      ⟨hroomy, frame, m₀, m', hroom, hr, -, hrun⟩ | ⟨hrun, hnone⟩
    · have h₀ := hroom.follows h hv
      have h' := hr.follows h₀.consistent h₀.represents
      obtain ⟨d₀, hd₀, hm₀⟩ := hroom.find? hd hmp (by simp [hl])
      refine .inl ⟨fun hstranded => hroomy hstranded.2, frame, m', hrun, h₀.trans h', ?_, ?_,
        .inr ⟨⟨slot, rfl⟩, ?_⟩⟩
      · have hc' : m'.current = some pid := by rw [hr.current, hroom.current, hc]
        rw [mapping?_eq hc' (hr.find? hd₀), find?_repoint_self hm₀ hl]
      · rw [hr.mappingsOf_target, hroom.mappingsOf hs (by simp)]
      · exact hr.hasFree_source h₀.consistent
    · exact .inr ⟨hrun, ⟨slot, rfl⟩, hnone⟩

/-! ## Translations -/

def Holds (m : PagedMemory) (page frame : Word) : Prop :=
  ∃ mp, m.mapping? page = some mp ∧ mp.location = .frame frame

def Ready (mp : Mapping) (page : Word) (access : Access) (frame : Word) (m : PagedMemory) : Prop :=
  ∃ mp', m.mapping? page = some mp' ∧ mp'.location = .frame frame ∧
    mp'.permissions = mp.permissions ∧
    ¬ (access = .write ∧ mp'.copyOnWrite)

theorem Consistent.materialise (h : Consistent m) (hv : Represents m v)
    (hm : m.mapping? page = some mp) {mv : Virtual.Mapping} (hmv : v.find? page = some mv)
    (access : Access) :
    Agrees (PagedMemory.materialise page mp access) (Virtual.materialise page mv access) m v
      fun frame _ m' _ => Ready mp page access frame m' := by
  have hflag : mv.copyOnWrite = mp.copyOnWrite := by
    obtain ⟨mv', hmv', -, hflag⟩ := hv.find? hm
    rw [hmv] at hmv'
    rw [Option.some.inj hmv', hflag]
  rw [materialise_eq, Virtual.materialise, hflag]
  rcases h.bringIn hv hm with ⟨-, frame, m₁, hrun, h₁, hm₁, -⟩ | ⟨hrun, -, -, hdisk⟩
  · by_cases hstore : access = .write ∧ mp.copyOnWrite = true
    · simp only [if_pos hstore]
      obtain ⟨pid, d, hc, hd, hmp⟩ := mapping?_some.mp hm₁
      rcases h₁.consistent.privatise h₁.represents hc hd hmp rfl hmv with
        ⟨target, m₂, hrun₂, h₂, hm₂⟩ | ⟨e, hrun₂, hnone⟩
      · refine .inl ⟨target, (), m₂, _, (bind_ok hrun).trans hrun₂, ?_, h₁.trans h₂, _, hm₂, rfl,
          rfl, ?_⟩
        · exact Behaviour.allows_claim_bind.mpr (.inl ⟨rfl, rfl⟩)
        · simp [own]
      · refine .inr ⟨_, m₁, v, (bind_ok hrun).trans hrun₂, ?_, h₁, .exhausted hnone⟩
        exact Behaviour.allows_claim_bind.mpr (.inr ⟨e, rfl, rfl⟩)
    · simp only [if_neg hstore]
      refine .inl ⟨frame, (), m₁, v, (bind_ok hrun).trans rfl, ?_, h₁, _, hm₁, rfl, rfl, hstore⟩
      exact Behaviour.allows_claim_bind.mpr (.inl ⟨rfl, rfl⟩)
  · refine .inr ⟨_, m, v, bind_error hrun, ?_, .refl h hv, .exhausted (exhausted_disk hdisk)⟩
    exact Behaviour.allows_claim_bind.mpr (.inr ⟨.disk, rfl, rfl⟩)

theorem Ready.grants {frame : Word} (hr : Ready mp page access frame m) (hv : Represents m v)
    (hallow : mp.permissions.allow access privilege) : v.Grants page access privilege := by
  obtain ⟨mp', hm', -, hperm, hstore⟩ := hr
  obtain ⟨mv, hmv, hperm', hflag⟩ := hv.find? hm'
  exact ⟨mv, hmv, by rwa [hperm', hperm], by rwa [hflag]⟩

theorem Ready.holds {frame : Word} (hr : Ready mp page access frame m) : Holds m page frame := by
  obtain ⟨mp', hm', hl, -, -⟩ := hr
  exact ⟨mp', hm', hl⟩

/-- Counters are no part of virtual memory. -/
theorem Consistent.follows_tally (h : Consistent m) (hv : Represents m v)
    (f : PagingCounters → PagingCounters) : Follows m { m with counters := f m.counters } v := by
  refine ⟨h.of_books ⟨rfl, rfl, rfl, rfl, rfl⟩ (h.books.frame _ _ _ _ _) rfl rfl fun _ =>
    rfl, ⟨rfl, rfl, rfl, rfl, rfl⟩, ?_⟩
  obtain ⟨name, hv⟩ := hv
  refine ⟨name, hv.distinct, hv.processes, fun l hl o => ?_, hv.fresh, hv.current, hv.nextPid⟩
  rw [hv.contents l hl]
  cases l <;> rfl

theorem physical_run (m : PagedMemory) (frame : Word) (offset : Nat) :
    (physical frame offset).run m = .ok (Ram.frameAddress m.ram frame + UInt32.ofNat offset) m :=
  rfl

theorem lookup_run (hm : m.mapping? page = some mp) (address : Word) (access : Access) :
    (lookup page address access).run m = .ok mp m := by
  obtain ⟨pid, d, hc, hd, hmp⟩ := mapping?_some.mp hm
  rw [lookup, get_bind, bind_ok (outcome_ok (currentDirectory_ok.mpr ⟨pid, hc, hd⟩) m)]
  simp only [hmp]
  rfl

theorem lookup_unmapped (hm : m.mapping? page = none) (address : Word) (access : Access) :
    ∃ counters, (lookup page address access).run m =
      .error (match m.currentDirectory with
        | .ok _ => .pageFault address access
        | .error e => e) { m with counters := counters } := by
  rw [Paging.mapping?] at hm
  rw [lookup, get_bind]
  cases hcur : m.currentDirectory with
  | error e => exact ⟨m.counters, bind_error (outcome_error rfl m)⟩
  | ok d =>
    rw [hcur] at hm
    refine ⟨{ m.counters with pageFaults := m.counters.pageFaults.succ }, ?_⟩
    rw [bind_ok (outcome_ok rfl m)]
    simp only at hm ⊢
    rw [hm]
    rfl

theorem Consistent.lookup (h : Consistent m) (hv : Represents m v) (page address : Word)
    (access : Access) :
    Agrees (PagedMemory.lookup page address access) (Virtual.lookup page address access) m v
      fun mp mv m' v' => m' = m ∧ v' = v ∧ m.mapping? page = some mp ∧ v.find? page = some mv ∧
        mv.permissions = mp.permissions := by
  obtain ⟨name, hname⟩ := hv
  have hv : Represents m v := ⟨name, hname⟩
  refine Agrees.get_bind
    ((Agrees.outcome h hv hname.currentDirectory currentDirectory_kind).bind ?_)
  rintro d _ m' v' - ⟨hd, rfl, rfl, rfl⟩
  obtain ⟨pid, hc, hp⟩ := currentDirectory_ok.mp hd
  have hm : m'.mapping? page = d.find? page := mapping?_eq hc hp page
  rw [Directory.rename, Table.find?_map]
  cases hmp : d.find? page with
  | some mp =>
    rw [hmp] at hm
    refine .of_forced rfl ⟨rfl, rfl⟩ (.refl h hv) ⟨rfl, rfl, hm, ?_, rfl⟩
    rw [hname.find?, hm]
    rfl
  | none =>
    exact .fault (h.follows_tally hv fun c => { c with pageFaults := c.pageFaults.succ }) rfl

theorem Consistent.resolve (h : Consistent m) (hv : Represents m v) (page address : Word)
    (access : Access) (privilege : Privilege) :
    Agrees (PagedMemory.resolve page address access privilege)
    (Virtual.resolve page address access privilege) m v
      fun frame _ m' v' => Holds m' page frame ∧ v'.Grants page access privilege := by
  refine (h.lookup hv page address access).bind ?_
  rintro mp mv m' v' - ⟨rfl, rfl, hm, hmv, hperm⟩
  rw [hperm]
  by_cases hallow : mp.permissions.allow access privilege = true
  · rw [if_pos hallow, if_pos hallow]
    rcases h.materialise hv hm hmv access with ⟨frame, c, m₁, v₁, hrun, hb, h₁, hr⟩ | hfault
    · exact .inl ⟨frame, c, m₁, v₁, hrun, hb, h₁, hr.holds, hr.grants h₁.represents hallow⟩
    · exact .inr hfault
  · rw [if_neg hallow, if_neg hallow]
    exact .fault (h.follows_tally hv fun c =>
      { c with protectionFaults := c.protectionFaults.succ }) rfl

def At (m : PagedMemory) (address physical : Word) : Prop :=
  ∃ frame, Holds m address.page frame ∧
    physical = Ram.frameAddress m.ram frame + UInt32.ofNat address.pageOffset

theorem Consistent.translate (h : Consistent m) (hv : Represents m v) (address : Word)
    (access : Access) (privilege : Privilege) :
    Agrees (PagedMemory.translate address access privilege)
      (Virtual.resolve address.page address access privilege) m v
      fun physical _ m' v' => At m' address physical ∧ v'.Grants address.page access privilege := by
  rcases h.resolve hv address.page address access privilege with
    ⟨frame, c, m₁, v₁, hrun, hb, h₁, hholds, hgrants⟩ | ⟨e, m₁, v₁, hrun, hb, h₁, he⟩
  · exact .inl ⟨_, c, m₁, v₁, (bind_ok hrun).trans rfl, hb, h₁, ⟨frame, hholds, rfl⟩, hgrants⟩
  · exact .inr ⟨e, m₁, v₁, bind_error hrun, hb, h₁, he⟩

theorem Consistent.translateHostWrite (h : Consistent m) (hv : Represents m v) (address : Word) :
    Agrees (PagedMemory.translateHostWrite address) (Virtual.resolveHostWrite address) m v
      fun physical _ m' _ => At m' address physical := by
  refine (h.lookup hv address.page address .write).bind ?_
  rintro mp mv m' v' - ⟨rfl, rfl, hm, hmv, -⟩
  rcases h.materialise hv hm hmv .write with ⟨frame, c, m₁, v₁, hrun, hb, h₁, hr⟩
    | ⟨e, m₁, v₁, hrun, hb, h₁, he⟩
  · exact .inl ⟨_, c, m₁, v₁, (bind_ok hrun).trans rfl, hb, h₁, frame, hr.holds, rfl⟩
  · exact .inr ⟨e, m₁, v₁, bind_error hrun, hb, h₁, he⟩

theorem Consistent.translatePage (h : Consistent m) (hv : Represents m v) (page : Word)
    (access : Access) (privilege : Privilege) :
    Agrees (PagedMemory.translatePage page access privilege)
      (do
        Behaviour.result (Paging.checkPage page)
        Virtual.resolve page page.pageAddress access privilege) m v
      fun _ _ _ _ => True := by
  have hcheck : Paging.checkPage page = (Paging.checkPage page).map id := by
    cases Paging.checkPage page <;> rfl
  refine (Agrees.outcome h hv hcheck checkPage_kind).bind ?_
  rintro _ _ m' v' - ⟨-, -, rfl, rfl⟩
  exact (h.resolve hv page page.pageAddress access privilege).mono fun _ _ _ _ _ => trivial

end PagedMemory

end PagedMachine

import PagedMachine.Proofs.LayoutIndependence
import PagedMachine.Proofs.FoundBytes
import PagedMachine.Proofs.PageCrossings

/-!
# Reset

A reset takes the program counter from the reset vector by an ordinary read. It changes
nothing that any process finds. In the window the read may miss a page, which is
counted, or bring one in from the disk. Memory is kept as it is exactly if all pages
that the read asks for are at hand.
-/

namespace PagedMachine

namespace Counter

variable {c : Counter}

theorem le_succ (c : Counter) : c.toNat ≤ c.succ.toNat := by
  have hlt := c.toNat_lt
  rw [succ, toNat_add]
  omega

theorem lt_succ (h : c.toNat < 2 ^ 64 - 1) : c.toNat < c.succ.toNat := by
  rw [succ, toNat_add]
  omega

end Counter

/-! ## Misses -/

namespace PagingCounters

def misses (c : PagingCounters) : Nat :=
  c.pageFaults.toNat + c.protectionFaults.toNat + c.pageIns.toNat

structure Open (c : PagingCounters) : Prop where
  pageFaults : c.pageFaults.toNat < 2 ^ 64 - 1
  protectionFaults : c.protectionFaults.toNat < 2 ^ 64 - 1
  pageIns : c.pageIns.toNat < 2 ^ 64 - 1

inductive Miss where
  | pageFault
  | protectionFault
  | pageIn

def Miss.count (c : PagingCounters) : Miss → PagingCounters
  | .pageFault => { c with pageFaults := c.pageFaults.succ }
  | .protectionFault => { c with protectionFaults := c.protectionFaults.succ }
  | .pageIn => { c with pageIns := c.pageIns.succ }

theorem misses_le_count (c : PagingCounters) (miss : Miss) : c.misses ≤ (miss.count c).misses := by
  have hpageFaults := Counter.le_succ c.pageFaults
  have hprotectionFaults := Counter.le_succ c.protectionFaults
  have hpageIns := Counter.le_succ c.pageIns
  unfold misses
  cases miss <;> dsimp only [Miss.count] <;> omega

theorem misses_lt_count {c : PagingCounters} (h : c.Open) (miss : Miss) :
    c.misses < (miss.count c).misses := by
  have hpageFaults := Counter.lt_succ h.pageFaults
  have hprotectionFaults := Counter.lt_succ h.protectionFaults
  have hpageIns := Counter.lt_succ h.pageIns
  unfold misses
  cases miss <;> dsimp only [Miss.count] <;> omega

end PagingCounters

namespace PagedMemory

variable {m m' : PagedMemory} {v : Virtual.Memory} {page address physical slot : Word}
    {mp : Mapping} {d : Directory} {kind : PoolKind} {access : Access} {privilege : Privilege}
    {t : Transfer}

section
variable {I : PagingCounters → Prop}

theorem keeps_tally {f : PagingCounters → PagingCounters} (hf : ∀ c, I c → I (f c)) :
    Keeps (fun m => I m.counters) (tally f) :=
  keeps_modify fun m hm => hf m.counters hm

theorem keeps_uncounted {f : PagedMemory → PagedMemory} (hf : ∀ m, (f m).counters = m.counters) :
    Keeps (fun m => I m.counters) (modify f) :=
  keeps_modify fun m hm => (congrArg I (hf m)).mpr hm

theorem keeps_onPool {α : Type} (kind : PoolKind) (x : EStateM Fault Pool α) :
    Keeps (fun m => I m.counters) (onPool kind x) := by
  refine keeps_focus_of fun m _ pool hm _ => ?_
  cases kind <;> exact hm

theorem keeps_onDisk {α : Type} (x : EStateM Fault Disk α) :
    Keeps (fun m => I m.counters) (onDisk x) :=
  keeps_focus_of fun _ _ _ hm _ => hm

theorem keeps_onRam {α : Type} (x : EStateM Fault Ram α) :
    Keeps (fun m => I m.counters) (onRam x) :=
  keeps_focus_of fun _ _ _ hm _ => hm

theorem keeps_repoint (source target : Location) :
    Keeps (fun m => I m.counters) (repoint source target) :=
  keeps_uncounted fun _ => rfl

theorem keeps_track (frame : Word) (count : Nat) :
    Keeps (fun m => I m.counters) (track frame count) :=
  keeps_uncounted fun _ => rfl

section
variable (hI : ∀ c pageOuts evictions, I c → I { c with pageOuts, evictions })
include hI

theorem keeps_evict (frame : Word) : Keeps (fun m => I m.counters) (evict frame) := by
  refine keeps_get_bind fun _ _ => keeps_get_bind fun _ _ => ?_
  split
  · exact keeps_throw _
  · refine keeps_get_bind fun _ _ => (keeps_outcome _).bind fun _ =>
      (keeps_onPool _ _).bind fun _ =>
      (keeps_onDisk _).bind fun _ => Keeps.bind (keeps_uncounted ?_) fun _ =>
        (keeps_repoint _ _).bind fun _ =>
      (keeps_onPool _ _).bind fun _ => keeps_tally fun c => hI c _ _
    exact fun _ => rfl

theorem keeps_takeFrame (kind : PoolKind) (pinned : Option Word) :
    Keeps (fun m => I m.counters) (takeFrame kind pinned) := by
  rw [takeFrame_eq]
  refine Keeps.bind ?_ fun _ => keeps_onPool _ _
  refine keeps_get_bind fun _ _ => ?_
  split
  · refine keeps_get_bind fun _ _ => ?_
    split
    · exact keeps_throw _
    · exact (keeps_evict hI _).bind fun _ => keeps_tally fun c => hI c _ _
  · exact keeps_pure _

theorem keeps_pageIn (hI' : ∀ c, I c → I { c with pageIns := c.pageIns.succ }) (slot : Word)
    (kind : PoolKind) : Keeps (fun m => I m.counters) (pageIn slot kind) := by
  refine keeps_get_bind fun _ _ => (keeps_outcome _).bind fun _ =>
    (keeps_takeFrame hI _ _).bind fun _ =>
    (keeps_onRam _).bind fun _ => keeps_get_bind fun _ _ => ?_
  split
  · exact keeps_throw _
  · refine Keeps.bind (keeps_uncounted ?_) fun _ => (keeps_onPool _ _).bind fun _ =>
      (keeps_repoint _ _).bind fun _ =>
      (keeps_track _ _).bind fun _ => (keeps_tally hI').bind fun _ => keeps_pure _
    exact fun _ => rfl

end

end

theorem misses_lt_pageIn (hopen : m.counters.Open) {frame : Word}
    (h : Yields (pageIn slot kind) m (.ok frame) m') : m.counters.misses < m'.counters.misses := by
  -- up to the last step nothing is counted but an eviction
  let I : PagingCounters → Prop := fun c => c.misses = m.counters.misses ∧ c.Open
  have hI : ∀ c pageOuts evictions, I c → I { c with pageOuts, evictions } :=
    fun _ _ _ h => ⟨h.1, h.2.pageFaults, h.2.protectionFaults, h.2.pageIns⟩
  replace h := h.of_get_bind
  obtain ⟨_, m₁, hx, h⟩ := h.of_bind_ok
  have hm : I m₁.counters := keeps_outcome (I := fun m => I m.counters) _ _ _ _ ⟨rfl, hopen⟩ hx
  obtain ⟨_, m₂, hx, h⟩ := h.of_bind_ok
  replace hm := keeps_takeFrame hI _ _ _ _ _ hm hx
  obtain ⟨_, m₃, hx, h⟩ := h.of_bind_ok
  replace hm := keeps_onRam (I := I) _ _ _ _ hm hx
  replace h := h.of_get_bind
  split at h
  · cases h.of_throw.1
  obtain ⟨_, m₄, hx, h⟩ := h.of_bind_ok
  replace hm : I m₄.counters := (hx.eq_of_ok rfl).2 ▸ hm
  obtain ⟨_, m₅, hx, h⟩ := h.of_bind_ok
  replace hm := keeps_onPool (I := I) _ _ _ _ _ hm hx
  obtain ⟨_, m₆, hx, h⟩ := h.of_bind_ok
  replace hm := keeps_repoint (I := I) _ _ _ _ _ hm hx
  obtain ⟨_, m₇, hx, h⟩ := h.of_bind_ok
  replace hm := keeps_track (I := I) _ _ _ _ _ hm hx
  obtain ⟨_, m₈, hx, h⟩ := h.of_bind_ok
  obtain ⟨-, rfl⟩ := hx.eq_of_ok (show (tally _).run m₇ = .ok () _ from rfl)
  obtain ⟨-, rfl⟩ := h.of_pure
  rw [← hm.1]
  exact PagingCounters.misses_lt_count hm.2 .pageIn

/-! ## Loads -/

/-- A load of this page leaves it where it is: it is in a frame, or it cannot be had, which is not
counted. -/
def AtHand (m : PagedMemory) (page : Word) (access : Access) (privilege : Privilege) : Prop :=
  m.current = none ∨ ∃ mp, m.mapping? page = some mp ∧ mp.permissions.allow access privilege ∧
    (m.Stranded mp ∨ ∃ frame, mp.location = .frame frame)

theorem AtHand.found (h : m.AtHand page access privilege) (hm : m.mapping? page = some mp) :
    mp.permissions.allow access privilege ∧
    (m.Stranded mp ∨ ∃ frame, mp.location = .frame frame) := by
  rcases h with hc | ⟨mp', hm', h⟩
  · obtain ⟨pid, d, hc', -⟩ := mapping?_some.mp hm
    rw [hc] at hc'
    cases hc'
  · obtain rfl := Option.some.inj (hm.symm.trans hm')
    exact h

/-- No page is missed where none is looked for. -/
theorem translate_noProcess (hc : m.current = none) (address : Word) (access : Access)
    (privilege : Privilege) : (translate address access privilege).run m = .error .noProcess m := by
  refine bind_error (bind_error ?_)
  rw [lookup, get_bind]
  exact bind_error (outcome_error (currentDirectory_of_none hc) m)

theorem translate_unmapped (hcurrent : m.currentDirectory = .ok d)
    (hm : d.find? address.page = none) (access : Access)
    (privilege : Privilege) : (translate address access privilege).run m =
      .error (.pageFault address access)
        { m with counters := { m.counters with pageFaults := m.counters.pageFaults.succ } } := by
  refine bind_error (bind_error ?_)
  rw [lookup, get_bind, bind_ok (outcome_ok hcurrent m)]
  dsimp only
  rw [hm]
  rfl

theorem translate_denied (hm : m.mapping? address.page = some mp)
    (hdenied : ¬ mp.permissions.allow access privilege) :
    (translate address access privilege).run m = .error (.protectionFault address access)
      { m with counters := { m.counters with protectionFaults := m.counters.protectionFaults.succ }
        } := by
  refine bind_error ?_
  rw [resolve, bind_ok (lookup_run hm address access), if_neg hdenied]
  rfl

theorem translate_brought (hm : m.mapping? address.page = some mp)
    (hallow : mp.permissions.allow access privilege)
    (hload : access ≠ .write) : (translate address access privilege).run m =
      (bringIn mp >>= fun frame => PagedMemory.physical frame address.pageOffset).run m := by
  have hmaterialise : materialise address.page mp access = bringIn mp := by
    rw [materialise_eq]
    simp only [hload, false_and, if_false]
    exact bind_pure _
  rw [translate, resolve, bind_assoc, bind_ok (lookup_run hm address access), if_pos hallow,
    hmaterialise]

/-- A page that is at hand is looked up without any effect; the lookup of another is counted. -/
def LooksUp (m : PagedMemory) (page : Word) (access : Access) (privilege : Privilege)
    (r : Except Fault Word) (m' : PagedMemory) : Prop :=
  (m.AtHand page access privilege ∧ m' = m ∧
    ((∃ frame, Holds m page frame) ↔ ∃ physical, r = .ok physical)) ∨
    ¬ m.AtHand page access privilege ∧ (m.counters.Open → m.counters.misses < m'.counters.misses)

section
variable {r : Except Fault Word} (h : Consistent m)
  (hstep : Yields (PagedMemory.translate address access privilege) m r m')
include h hstep

theorem Consistent.looksUp_unmapped (hm : m.mapping? address.page = none) :
    m.LooksUp address.page access privilege r m' := by
  cases hc : m.current with
  | none =>
    obtain ⟨rfl, rfl⟩ := hstep.eq_of_error (translate_noProcess hc address access privilege)
    refine .inl ⟨.inl hc, rfl, ?_, ?_⟩
    · rintro ⟨frame, mp, hm', -⟩
      rw [hm] at hm'
      cases hm'
    · rintro ⟨physical, hserved⟩
      cases hserved
  | some pid =>
    obtain ⟨d, hd, hcurrent⟩ := h.currentDirectory_of_some hc
    rw [mapping?_eq hc hd] at hm
    obtain ⟨-, rfl⟩ := hstep.eq_of_error (translate_unmapped hcurrent hm access privilege)
    refine .inr ⟨?_, fun hopen => PagingCounters.misses_lt_count hopen .pageFault⟩
    rintro (hnone | ⟨mp, hm', -⟩)
    · rw [hc] at hnone
      cases hnone
    · rw [mapping?_eq hc hd, hm] at hm'
      cases hm'

theorem Consistent.looksUp_allowed (hv : Represents m v) (hload : access ≠ .write)
    (hm : m.mapping? address.page = some mp) (hallow : mp.permissions.allow access privilege) :
    m.LooksUp address.page access privilege r m' := by
  have hrun := translate_brought hm hallow hload
  cases hl : mp.location with
  | frame frame =>
    have hbrought : (PagedMemory.bringIn mp).run m = .ok frame m := by
      rw [PagedMemory.bringIn, hl]; rfl
    obtain ⟨hr, rfl⟩ := hstep.eq_of_ok (hrun.trans ((bind_ok hbrought).trans rfl))
    exact .inl ⟨.inr ⟨mp, hm, hallow, .inr ⟨frame, hl⟩⟩, rfl, fun _ => ⟨_, hr⟩, fun _ =>
      ⟨frame, mp, hm, hl⟩⟩
  | slot slot =>
    have hbrought : PagedMemory.bringIn mp = pageIn slot mp.permissions.pool := by
      rw [PagedMemory.bringIn, hl]
    rcases h.bringIn hv hm with ⟨hnot, frame, m₁, hin, -⟩ | ⟨hin, hstranded⟩
    · obtain ⟨hr, rfl⟩ := hstep.eq_of_ok (hrun.trans ((bind_ok hin).trans rfl))
      refine .inr ⟨fun hat => ?_, fun hopen => misses_lt_pageIn hopen (hbrought ▸ hin)⟩
      rcases (hat.found hm).2 with hs | ⟨frame, hl'⟩
      · exact hnot hs
      · rw [hl] at hl'
        cases hl'
    · obtain ⟨rfl, rfl⟩ := hstep.eq_of_error (hrun.trans (bind_error hin))
      refine .inl ⟨.inr ⟨mp, hm, hallow, .inl hstranded⟩, rfl, ?_, ?_⟩
      · rintro ⟨frame, hholds⟩
        exact absurd hholds (hstranded.not_holds hm frame)
      · rintro ⟨physical, hserved⟩
        cases hserved

theorem Consistent.looksUp (hv : Represents m v) (hload : access ≠ .write) :
    m.LooksUp address.page access privilege r m' := by
  cases hm : m.mapping? address.page with
  | none => exact h.looksUp_unmapped hstep hm
  | some mp =>
    by_cases hallow : mp.permissions.allow access privilege = true
    · exact h.looksUp_allowed hstep hv hload hm hallow
    · obtain ⟨-, rfl⟩ := hstep.eq_of_error (translate_denied hm hallow)
      exact .inr ⟨fun hat => hallow (hat.found hm).1,
        fun hopen => PagingCounters.misses_lt_count hopen .protectionFault⟩

end

theorem keeps_misses_translate (n : Nat) (hload : access ≠ .write) (address : Word)
    (privilege : Privilege) :
    Keeps (fun m => n ≤ m.counters.misses) (translate address access privilege) := by
  refine Keeps.bind ?_ fun _ => keeps_get_bind fun _ _ => keeps_pure _
  refine Keeps.bind ?_ fun mp => ?_
  · refine keeps_get_bind fun _ _ => (keeps_outcome _).bind fun _ => ?_
    split
    · exact keeps_pure _
    · exact Keeps.bind (keeps_tally (I := (n ≤ ·.misses)) fun c hc =>
        Nat.le_trans hc (c.misses_le_count .pageFault)) fun _ => keeps_throw _
  · split
    · rw [materialise_eq]
      refine Keeps.bind ?_ fun _ => ?_
      · unfold bringIn
        split
        · exact keeps_pure _
        · exact keeps_pageIn (I := (n ≤ ·.misses)) (fun _ _ _ hc => hc)
            (fun c hc => Nat.le_trans hc (c.misses_le_count .pageIn)) _ _
      · simp only [hload, false_and, if_false]
        exact keeps_pure _
    · exact Keeps.bind (keeps_tally (I := (n ≤ ·.misses)) fun c hc =>
        Nat.le_trans hc (c.misses_le_count .protectionFault)) fun _ => keeps_throw _

theorem exchange_load {width : Width} {r : Except Fault Word}
    (h : Yields (exchange physical width none) m r m') : m' = m := by
  replace h := h.of_get_bind
  rcases h.of_bind with ⟨old, m₁, hx, h⟩ | ⟨e, -, hx⟩
  · obtain ⟨-, rfl⟩ := h.eq_of_ok rfl
    exact hx.of_outcome.2
  · exact hx.of_outcome.2

theorem keeps_misses_exchangeBytes (n : Nat) (hload : t.access ≠ .write) (hstore : t.store = none)
    (privilege : Privilege) (count : Nat) : ∀ offset,
    Keeps (fun m => n ≤ m.counters.misses) (exchangeBytes t privilege offset count) := by
  induction count with
  | zero => exact fun _ => keeps_pure 0
  | succ count ih =>
    intro offset
    refine (keeps_misses_translate n hload _ privilege).bind fun physical => ?_
    rw [hstore]
    refine Keeps.bind (fun m r m' hm h => exchange_load h ▸ hm) fun _ =>
      (ih (offset + 1)).bind fun _ => keeps_pure _

/-- With both pages at hand no byte is looked for elsewhere. -/
theorem Consistent.exchangeBytes_atHand (h : Consistent m) (hv : Represents m v)
    (hload : t.access ≠ .write) (hstore : t.store = none)
    (hfirst : m.AtHand (Virtual.firstPage t) t.access privilege)
    (hlast : m.AtHand (Virtual.lastPage t) t.access privilege) (count : Nat) :
    ∀ {offset : Nat} {r : Except Fault Nat}, offset + count ≤ t.width.bytes →
      Yields (PagedMemory.exchangeBytes t privilege offset count) m r m' → m' = m := by
  induction count with
  | zero => exact fun _ hstep => hstep.of_pure.2
  | succ count ih =>
    intro offset r hle hstep
    have hat : m.AtHand (t.address + UInt32.ofNat offset).page t.access privilege := by
      rcases Virtual.page_of_lt (show offset < t.width.bytes by omega) with hp | hp
      · exact hp ▸ hfirst
      · exact hp ▸ hlast
    -- what is looked up at hand changes nothing, so every byte finds the pages as the first did
    have hkept : ∀ {r m₁},
        Yields (PagedMemory.translate (t.address + UInt32.ofNat offset) t.access privilege) m r m₁ →
        m₁ = m := by
      intro r m₁ htranslate
      rcases h.looksUp htranslate hv hload with ⟨-, hm, -⟩ | ⟨hnot, -⟩
      · exact hm
      · exact absurd hat hnot
    rcases hstep.of_bind with ⟨physical, m₁, htranslate, hbyte⟩ | ⟨e, -, htranslate⟩
    · obtain rfl := hkept htranslate
      rw [hstore] at hbyte
      rcases hbyte.of_bind with ⟨old, m₂, hexchange, hbytes⟩ | ⟨e, -, hexchange⟩
      · obtain rfl := exchange_load hexchange
        rcases hbytes.of_bind with ⟨rest, m₃, hrest, hdone⟩ | ⟨e, -, hrest⟩
        · obtain ⟨-, rfl⟩ := hdone.of_pure
          exact ih (by omega) hrest
        · exact ih (by omega) hrest
      · exact exchange_load hexchange
    · exact hkept htranslate

/-- A load in the window that leaves memory as it is: the first page is at hand, and where it is in
a frame so is the last one. -/
def Rests (m : PagedMemory) (t : Transfer) (privilege : Privilege) : Prop :=
  m.AtHand (Virtual.firstPage t) t.access privilege ∧
    ((∃ frame, Holds m (Virtual.firstPage t) frame) →
      m.AtHand (Virtual.lastPage t) t.access privilege)

section
variable {r : Except Fault Word} (h : Consistent m) (hv : Represents m v)
    (hload : t.access ≠ .write) (hstore : t.store = none)
    (hstep : Yields (PagedMemory.transferMapped t privilege) m r m')
include h hv hload hstore hstep

theorem Consistent.kept_or_counted_crossing (hcross : crossesPage t.address t.width = true) :
    m.Rests t privilege ∧ m' = m ∨
      ¬ m.Rests t privilege ∧ (m.counters.Open → m.counters.misses < m'.counters.misses) := by
  rw [PagedMemory.transferMapped, if_pos hcross] at hstep
  have hgrows : ∀ n, Keeps (fun m => n ≤ m.counters.misses)
      (UInt32.ofNat <$> PagedMemory.exchangeBytes t privilege 0 t.width.bytes) :=
    fun n => (keeps_misses_exchangeBytes n hload hstore privilege _ _).map _
  rcases hstep.of_bind with ⟨first, m₁, hfirst, hrest⟩ | ⟨e, rfl, hfirst⟩
  · rcases h.looksUp hfirst hv hload with ⟨hat, rfl, hserved⟩ | ⟨hnot, hlt⟩
    · have hheld := hserved.mpr ⟨first, rfl⟩
      rcases hrest.of_bind with ⟨last, m₂, hlast, hbytes⟩ | ⟨e, rfl, hlast⟩
      · rcases h.looksUp hlast hv hload with ⟨hat', rfl, -⟩ | ⟨hnot, hlt⟩
        · obtain ⟨r₁, -, hexchange⟩ := hbytes.of_map
          exact .inl ⟨⟨hat, fun _ => hat'⟩,
            h.exchangeBytes_atHand hv hload hstore hat hat' _ (by omega) hexchange⟩
        · exact .inr ⟨fun hrests => hnot (hrests.2 hheld), fun hopen =>
            hgrows _ _ _ _ (hlt hopen) hbytes⟩
      · rcases h.looksUp hlast hv hload with ⟨hat', rfl, -⟩ | ⟨hnot, hlt⟩
        · exact .inl ⟨⟨hat, fun _ => hat'⟩, rfl⟩
        · exact .inr ⟨fun hrests => hnot (hrests.2 hheld), hlt⟩
    · refine .inr ⟨fun hrests => hnot hrests.1, fun hopen => ?_⟩
      have hlast := keeps_misses_translate (m.counters.misses + 1) hload
        (t.address + UInt32.ofNat (t.width.bytes - 1)) privilege
      exact (hlast.bind fun _ => hgrows _) _ _ _ (hlt hopen) hrest
  · rcases h.looksUp hfirst hv hload with ⟨hat, rfl, hserved⟩ | ⟨hnot, hlt⟩
    · refine .inl ⟨⟨hat, fun hheld => ?_⟩, rfl⟩
      obtain ⟨_, hserved⟩ := hserved.mp hheld
      cases hserved
    · exact .inr ⟨fun hrests => hnot hrests.1, hlt⟩

theorem Consistent.kept_or_counted_within (hcross : ¬ crossesPage t.address t.width = true) :
    m.Rests t privilege ∧ m' = m ∨
      ¬ m.Rests t privilege ∧ (m.counters.Open → m.counters.misses < m'.counters.misses) := by
  rw [PagedMemory.transferMapped, if_neg hcross] at hstep
  have hrests : m.Rests t privilege ↔ m.AtHand t.address.page t.access privilege := by
    rw [Rests, Virtual.lastPage_eq hcross]
    exact ⟨And.left, fun hat => ⟨hat, fun _ => hat⟩⟩
  rw [hrests]
  rcases hstep.of_bind with ⟨physical, m₁, hfirst, hexchange⟩ | ⟨e, rfl, hfirst⟩
  · rw [hstore] at hexchange
    obtain rfl := exchange_load hexchange
    exact (h.looksUp hfirst hv hload).imp (fun hat => ⟨hat.1, hat.2.1⟩) id
  · exact (h.looksUp hfirst hv hload).imp (fun hat => ⟨hat.1, hat.2.1⟩) id

/-- A load in the window keeps memory as it is if it rests, and else it is counted. -/
theorem Consistent.kept_or_counted : m.Rests t privilege ∧ m' = m ∨
    ¬ m.Rests t privilege ∧ (m.counters.Open → m.counters.misses < m'.counters.misses) := by
  by_cases hcross : crossesPage t.address t.width = true
  · exact h.kept_or_counted_crossing hv hload hstore hstep hcross
  · exact h.kept_or_counted_within hv hload hstore hstep hcross

end

/-! ## A second load -/

/-- A load that is refused again leaves its page as it is; one that is served leaves it in a
frame. -/
theorem Consistent.translate_settles (h : Consistent m) (hv : Represents m v)
    (hload : access ≠ .write) {r : Except Fault Word}
    (hstep : Yields (PagedMemory.translate address access privilege) m r m') :
    Follows m m' v ∧ ((∃ e, r = .error e ∧ (v.Grants address.page access privilege →
        m' = m ∧ ¬ m.HasFree .disk ∧ ∀ frame, ¬ Holds m address.page frame)) ∨
      ∃ physical, r = .ok physical ∧ v.Grants address.page access privilege ∧
        At m' address physical ∧ (m' = m ∨ m'.HasFree .disk)) := by
  have hresolved : ∀ {r v'}, (Virtual.resolve address.page address access privilege).allows v r v' →
      v' = v := by
    intro r v' hb
    rcases Virtual.resolve_allows hb with ⟨mv, -, -, -, rfl⟩ | ⟨e, -, -, rfl⟩
    · exact if_neg fun hstore => hload hstore.1
    · rfl
  rcases h.translate hv address access privilege with
    ⟨physical, c, m₁, v₁, hrun, hb, hfollows, hat, hgrants⟩ | ⟨e, m₁, v₁, hrun, hb, hfollows, -⟩
  · obtain rfl := hresolved hb
    obtain ⟨rfl, rfl⟩ := hstep.eq_of_ok hrun
    refine ⟨hfollows, .inr ⟨physical, rfl, hgrants, hat, ?_⟩⟩
    rcases h.translate_granted hv hgrants with ⟨_, m₂, hrun₂, -, -, hstay⟩ | ⟨e, hrun₂, -⟩
    · rwa [← (hstep.eq_of_ok hrun₂).2] at hstay
    · cases (hstep.eq_of_error hrun₂).1
  · obtain rfl := hresolved hb
    obtain ⟨rfl, rfl⟩ := hstep.eq_of_error hrun
    refine ⟨hfollows, .inl ⟨e, rfl, fun hgrants => ?_⟩⟩
    rcases h.translate_granted hv hgrants with ⟨_, m₂, hrun₂, -⟩ | ⟨e, hrun₂, -, hrefused⟩
    · cases (hstep.eq_of_ok hrun₂).1
    · exact ⟨(hstep.eq_of_error hrun₂).2, hrefused⟩

theorem Consistent.steady_of_exchangeBytes (hg : Virtual.Granted v t privilege)
    (hstore : t.store = none) (count : Nat) : ∀ {m : PagedMemory} {offset : Nat}
    {r : Except Fault Nat}, Consistent m → Represents m v →
      Steady m t → offset + count ≤ t.width.bytes →
      Yields (PagedMemory.exchangeBytes t privilege offset count) m r m' → Steady m' t := by
  induction count with
  | zero => exact fun _ _ hs _ hstep => hstep.of_pure.2 ▸ hs
  | succ count ih =>
    intro m offset r h hv hs hle hstep
    obtain ⟨physical, m₁, hrun, -, hfollows, hs₁⟩ := h.translate_steady hv hg hs offset (by omega)
    replace hstep := hstep.of_run (bind_ok hrun).symm
    rw [hstore] at hstep
    rcases hstep.of_bind with ⟨old, m₂, hexchange, hbytes⟩ | ⟨e, -, hexchange⟩
    · obtain rfl := exchange_load hexchange
      rcases hbytes.of_bind with ⟨rest, m₃, hrest, hdone⟩ | ⟨e, -, hrest⟩
      · obtain ⟨-, rfl⟩ := hdone.of_pure
        exact ih hfollows.consistent hfollows.represents hs₁ (by omega) hrest
      · exact ih hfollows.consistent hfollows.represents hs₁ (by omega) hrest
    · exact exchange_load hexchange ▸ hs₁

theorem not_steady_of_first (hdisk : ¬ m.HasFree .disk)
    (hnot : ∀ frame, ¬ Holds m (Virtual.firstPage t) frame) : ¬ Steady m t := by
  rintro (hfree | ⟨⟨frame, hholds⟩, -⟩)
  · exact hdisk hfree
  · exact hnot frame hholds

theorem not_steady_of_last (hdisk : ¬ m.HasFree .disk)
    (hnot : ∀ frame, ¬ Holds m (Virtual.lastPage t) frame) : ¬ Steady m t := by
  rintro (hfree | ⟨-, frame, hholds⟩)
  · exact hdisk hfree
  · exact hnot frame hholds

/-- What a load leaves: the same virtual memory, and in it pages that cannot be refused any more. If
it is refused although its pages are granted, they could be, and memory is as it was. -/
structure SettlesLoad (v : Virtual.Memory) (t : Transfer) (privilege : Privilege) (m : PagedMemory)
    (r : Except Fault Word) (m' : PagedMemory) : Prop where
  consistent : Consistent m'
  represents : Represents m' v
  outcome : (∃ e, r = .error e ∧ (Virtual.Granted v t privilege → m' = m ∧ ¬ Steady m t)) ∨
    ∃ old, r = .ok old ∧ Virtual.Granted v t privilege ∧ Steady m' t

section
variable (h : Consistent m) (hv : Represents m v) (hload : t.access ≠ .write)
    (hstore : t.store = none)
include h hv hload

theorem Consistent.settles_refused {e : Fault}
    (hfirst : Yields (PagedMemory.translate t.address t.access privilege) m (.error e) m') :
    SettlesLoad v t privilege m (.error e) m' := by
  obtain ⟨hfollows, ⟨_, -, hrefused⟩ | ⟨_, he, -⟩⟩ := h.translate_settles hv hload hfirst
  · refine ⟨hfollows.consistent, hfollows.represents, .inl ⟨e, rfl, fun hg => ?_⟩⟩
    obtain ⟨rfl, hdisk, hnot⟩ := hrefused hg.1
    exact ⟨rfl, not_steady_of_first hdisk hnot⟩
  · cases he

include hstore

theorem Consistent.settles_crossing (hcross : crossesPage t.address t.width = true)
    {r : Except Fault Word} (hstep : Yields (PagedMemory.transferMapped t privilege) m r m') :
    SettlesLoad v t privilege m r m' := by
  rw [PagedMemory.transferMapped, if_pos hcross] at hstep
  rcases hstep.of_bind with ⟨first, m₁, hfirst, hrest⟩ | ⟨e, rfl, hfirst⟩
  · obtain ⟨hfollows₁, ⟨e, he, -⟩ | ⟨_, -, hg₁, ⟨frame₁, hholds₁, -⟩, hstay₁⟩⟩ :=
      h.translate_settles hv hload hfirst
    · cases he
    have h₁ := hfollows₁.consistent
    rcases hrest.of_bind with ⟨last, m₂, hlast, hbytes⟩ | ⟨e, rfl, hlast⟩
    · obtain ⟨hfollows₂, ⟨e, he, -⟩ | ⟨_, -, hg₂, ⟨frame₂, hholds₂, -⟩, hstay₂⟩⟩ :=
        h₁.translate_settles hfollows₁.represents hload hlast
      · cases he
      have hg : Virtual.Granted v t privilege := ⟨hg₁, hg₂⟩
      have hs : Steady m₂ t := by
        rcases hstay₂ with rfl | hfree
        · exact .inr ⟨⟨frame₁, hholds₁⟩, frame₂, hholds₂⟩
        · exact .inl hfree
      have hwhole : 0 + t.width.bytes ≤ t.width.bytes := by omega
      obtain ⟨m₃, hrun, hfollows₃⟩ :=
        serves _ 0 hwhole m₂ v hfollows₂.consistent hfollows₂.represents hg hs
      rw [Virtual.Memory.exchangeBytes_load hstore] at hfollows₃
      have hs₃ :=
        Consistent.steady_of_exchangeBytes hg hstore _ hfollows₂.consistent hfollows₂.represents
          hs hwhole (show Yields _ m₂ (.ok _) m₃ from hrun)
      obtain ⟨rfl, rfl⟩ := hbytes.eq_of_ok (map_ok hrun)
      exact ⟨hfollows₃.consistent, hfollows₃.represents, .inr ⟨_, rfl, hg, hs₃⟩⟩
    · obtain ⟨hfollows₂, ⟨_, -, hrefused⟩ | ⟨_, he, -⟩⟩ :=
        h₁.translate_settles hfollows₁.represents hload hlast
      · refine ⟨hfollows₂.consistent, hfollows₂.represents, .inl ⟨e, rfl, fun hg => ?_⟩⟩
        -- without a free slot the first page was not brought in
        obtain ⟨rfl, hdisk, hnot⟩ := hrefused hg.2
        obtain rfl := hstay₁.resolve_right hdisk
        exact ⟨rfl, not_steady_of_last hdisk hnot⟩
      · cases he
  · exact h.settles_refused hv hload hfirst

theorem Consistent.settles_within (hcross : ¬ crossesPage t.address t.width = true)
    {r : Except Fault Word} (hstep : Yields (PagedMemory.transferMapped t privilege) m r m') :
    SettlesLoad v t privilege m r m' := by
  rw [PagedMemory.transferMapped, if_neg hcross] at hstep
  have hpage := Virtual.lastPage_eq hcross
  have hfit : t.address.pageOffset + t.width.bytes ≤ pageSize := by simpa [crossesPage] using hcross
  rcases hstep.of_bind with ⟨physical, m₁, hfirst, hexchange⟩ | ⟨e, rfl, hfirst⟩
  · obtain ⟨hfollows, ⟨_, he, -⟩ | ⟨_, he, hg, hat, -⟩⟩ := h.translate_settles hv hload hfirst
    · cases he
    obtain rfl := Except.ok.inj he
    obtain ⟨m₂, hrun, -⟩ := hfollows.consistent.exchange hfollows.represents hat hfit
    obtain ⟨rfl, rfl⟩ := hexchange.eq_of_ok hrun
    rw [hstore] at hrun
    obtain rfl := exchange_load (show Yields _ m₁ (.ok _) m' from hrun)
    obtain ⟨frame, hholds, -⟩ := hat
    have hs : Steady m' t := .inr ⟨⟨frame, hholds⟩, frame, hpage ▸ hholds⟩
    exact ⟨hfollows.consistent, hfollows.represents, .inr ⟨_, rfl, ⟨hg, hpage ▸ hg⟩, hs⟩⟩
  · exact h.settles_refused hv hload hfirst

theorem Consistent.load_settles {r : Except Fault Word}
    (hstep : Yields (PagedMemory.transferMapped t privilege) m r m') :
    SettlesLoad v t privilege m r m' := by
  by_cases hcross : crossesPage t.address t.width = true
  · exact h.settles_crossing hv hload hstore hcross hstep
  · exact h.settles_within hv hload hstore hcross hstep

/-- A second load is served if the first was, and refused if it was. -/
theorem Consistent.load_again {r r' : Except Fault Word} {m'' : PagedMemory}
    (hstep : Yields (PagedMemory.transferMapped t privilege) m r m')
    (hstep' : Yields (PagedMemory.transferMapped t privilege) m' r' m'') : r'.isOk = r.isOk := by
  have hfirst := h.load_settles hv hload hstore hstep
  have hsecond := hfirst.consistent.load_settles hfirst.represents hload hstore hstep'
  rcases hfirst.outcome with ⟨e, rfl, hrefused⟩ | ⟨old, rfl, hg, hs⟩ <;>
    rcases hsecond.outcome with ⟨e', rfl, hrefused'⟩ | ⟨old', rfl, hg', -⟩
  · rfl
  · obtain ⟨rfl, -⟩ := hrefused hg'
    cases (hstep.unique hstep').1
  · exact absurd hs (hrefused' hg).2
  · rfl

end

end PagedMemory

namespace Bus

variable {b b' b'' : Bus} {v : Virtual.Bus} {t : Transfer} {r r' : Except Fault Word}

def Maps (b : Bus) (t : Transfer) : Prop :=
  ∃ region, b.regions.regionOf? t.address = some region ∧ region.kind = .mapped ∧
    region.holds t.address t.width = true

/-- A load that leaves the bus as it is, wherever it goes. -/
def Rests (b : Bus) (t : Transfer) : Prop := b.Maps t → b.memory.Rests t b.privilege

theorem exchange_load {address : Word} {width : Width}
    (h : Yields (exchange address width none) b r b') : b' = b := by
  replace h := h.of_get_bind
  rcases h.of_bind with ⟨old, b₁, hx, hdone⟩ | ⟨e, -, hx⟩
  · obtain ⟨-, rfl⟩ := hdone.eq_of_ok rfl
    exact hx.of_outcome.2
  · exact hx.of_outcome.2

theorem load_outside (hstore : t.store = none) {region : Region}
    (hregion : b.regions.regionOf? t.address = some region)
    (hk : region.kind ≠ .mapped) (hholds : region.holds t.address t.width = true)
    (h : Yields (transfer t) b r b') : b' = b := by
  cases hpermit : region.kind.permit t.access t.address with
  | error e => exact (h.eq_of_error (transfer_forbidden hregion hholds hpermit)).2
  | ok =>
    have hserved := h.of_run (transfer_served hregion hholds hpermit).symm
    rw [hstore] at hserved
    cases hkind : region.kind with
    | rom =>
      rw [hkind] at hserved
      exact hserved.of_get_bind.of_outcome.2
    | ram =>
      rw [hkind] at hserved
      exact exchange_load hserved
    | mapped => exact absurd hkind hk

/-- A load goes to pages, or leaves everything as it is. -/
theorem load_cases (hstore : t.store = none) (h : Yields (transfer t) b r b') :
    (¬ b.Maps t ∧ b' = b) ∨
    b.Maps t ∧ ∃ m, Yields (PagedMemory.transferMapped t b.privilege) b.memory r m ∧
      b' = { b with memory := m } := by
  cases hregion : b.regions.regionOf? t.address with
  | none =>
    obtain ⟨-, rfl⟩ := h.eq_of_error (transfer_nowhere (.inl hregion))
    refine .inl ⟨?_, rfl⟩
    rintro ⟨region, hregion', -⟩
    rw [hregion] at hregion'
    cases hregion'
  | some region =>
    have honly : ∀ {region'}, b.regions.regionOf? t.address = some region' → region' = region :=
      fun hregion' => Option.some.inj (hregion'.symm.trans hregion)
    by_cases hholds : region.holds t.address t.width = true
    · by_cases hk : region.kind = .mapped
      · obtain ⟨m, hm, rfl⟩ :=
          yields_onMemory (h.of_run (transfer_run_mapped hregion hk hholds).symm)
        exact .inr ⟨⟨region, hregion, hk, hholds⟩, m, hm, rfl⟩
      · refine .inl ⟨?_, load_outside hstore hregion hk hholds h⟩
        rintro ⟨region', hregion', hk', -⟩
        exact hk (honly hregion' ▸ hk')
    · obtain ⟨-, rfl⟩ := h.eq_of_error (transfer_nowhere (.inr ⟨region, hregion, hholds⟩))
      refine .inl ⟨?_, rfl⟩
      rintro ⟨region', hregion', -, hholds'⟩
      exact hholds (honly hregion' ▸ hholds')

section
variable (hr : Represents b v) (hload : t.access ≠ .write) (hstore : t.store = none)
include hr hload hstore

theorem Represents.kept_or_counted (h : Yields (transfer t) b r b') :
    b.Rests t ∧ b' = b ∨ ¬ b.Rests t ∧
      (b.memory.counters.Open → b.memory.counters.misses < b'.memory.counters.misses) := by
  rcases load_cases hstore h with ⟨hnot, rfl⟩ | ⟨hmaps, m, hm, rfl⟩
  · exact .inl ⟨fun hmaps => absurd hmaps hnot, rfl⟩
  · rcases hr.consistent.kept_or_counted hr.memory hload hstore hm with ⟨hrests, rfl⟩ | ⟨hnot, hlt⟩
    · exact .inl ⟨fun _ => hrests, rfl⟩
    · exact .inr ⟨fun hrests => hnot (hrests hmaps), hlt⟩

theorem Represents.load (h : Yields (transfer t) b r b') : Represents b' v := by
  rcases load_cases hstore h with ⟨-, rfl⟩ | ⟨-, m, hm, rfl⟩
  · exact hr
  · have hsettles := hr.consistent.load_settles hr.memory hload hstore hm
    exact ⟨hsettles.consistent, hsettles.represents, hr.rom, hr.regions, hr.privilege⟩

theorem Represents.load_again (h : Yields (transfer t) b r b')
    (h' : Yields (transfer t) b' r' b'') : r'.isOk = r.isOk := by
  rcases load_cases hstore h with ⟨-, rfl⟩ | ⟨hmaps, m, hm, rfl⟩
  · rw [(h.unique h').1]
  · rcases load_cases hstore h' with ⟨hnot, -⟩ | ⟨-, m', hm', -⟩
    · exact absurd hmaps hnot
    · exact hr.consistent.load_again hr.memory hload hstore hm hm'

end

end Bus

/-! ## The reset vector -/

namespace Machine

variable {m : Machine} {b : Bus} {r : Except Fault Word}

def entered (m : Machine) : Bus := { m.bus with privilege := m.config.privilege }

def vectorLoad (m : Machine) : Transfer := .read m.config.resetVector .word

theorem reset_eq (h : Yields (Bus.transfer m.vectorLoad) m.entered r b) : m.reset =
    { m with
      registers := { Registers.zero with pc := r.toOption.getD 0 }
      runState := .running
      bus := b
      counters := .zero } := by
  have hread : Bus.read m.config.resetVector .word { m.bus with privilege := m.config.privilege } =
    (Bus.transfer m.vectorLoad).run m.entered := rfl
  cases r with
  | ok pc =>
    have hrun : (Bus.transfer m.vectorLoad).run m.entered = .ok pc b := h
    rw [reset, hread, hrun]
    rfl
  | error e =>
    have hrun : (Bus.transfer m.vectorLoad).run m.entered = .error e b := h
    rw [reset, hread, hrun]
    rfl

/-- What a reset leaves. The program counter is the word that was found at the reset vector, or zero
where none could be read there. All that a process finds is as it was, and all of the bus but its
privilege if that read rests; if it does not rest, it is counted. -/
structure Restarted (m m' : Machine) : Prop where
  config : m'.config = m.config
  runState : m'.runState = .running
  counters : m'.counters = .zero
  registers : m'.registers = { Registers.zero with pc := m'.registers.pc }
  found : ∀ pc b, Yields (Bus.transfer m.vectorLoad) m.entered (.ok pc) b → m'.registers.pc = pc ∧
    ∀ i < 4, m.bus.byteAt? (m.config.resetVector + UInt32.ofNat i) = some (pc.byte i)
  missed : ∀ e b, Yields (Bus.transfer m.vectorLoad) m.entered (.error e) b → m'.registers.pc = 0
  privilege : m'.bus.privilege = m.config.privilege
  rom : m'.bus.rom = m.bus.rom
  regions : m'.bus.regions = m.bus.regions
  view : PagedMemory.SameView m.bus.memory m'.bus.memory
  nextPid : m'.bus.memory.nextPid = m.bus.memory.nextPid
  kept : m.entered.Rests m.vectorLoad → m'.bus = m.entered
  counted : m.bus.memory.counters.Open → ¬ m.entered.Rests m.vectorLoad →
    m.bus.memory.counters.misses < m'.bus.memory.counters.misses

theorem restarted (hm : m.bus.Settled) : m.Restarted m.reset := by
  have hentered : m.entered.Settled := hm.withPrivilege _
  obtain ⟨v, hr⟩ := hentered.represents
  obtain ⟨r, b, h⟩ := yields_exists (Bus.transfer m.vectorLoad) m.entered
  have hload := hr.load (t := m.vectorLoad) nofun rfl h
  have hkept := hr.kept_or_counted (t := m.vectorLoad) nofun rfl h
  obtain ⟨memory, hb⟩ := Bus.transfer_frame h
  -- a reset is one load at the vector, and all it leaves is read off that load
  rw [reset_eq h]
  refine ⟨rfl, rfl, rfl, rfl, fun pc c h' => ?_, fun e c h' => ?_, ?_, ?_, ?_,
    ?_, ?_, fun hrests => ?_,
    fun hopen hnot => ?_⟩
  · obtain ⟨rfl, rfl⟩ := h.unique h'
    exact ⟨rfl, (hentered.exchanges (t := m.vectorLoad) (absurd rfl) h).found⟩
  · obtain ⟨rfl, rfl⟩ := h.unique h'
    rfl
  · rw [hb]
    rfl
  · rw [hb]
    rfl
  · rw [hb]
    rfl
  · exact hr.memory.sameView (n := v.nextPid) hload.memory
  · exact hload.memory.nextPid.symm.trans hr.memory.nextPid
  · rcases hkept with ⟨-, hkept⟩ | ⟨hnot, -⟩
    · exact hkept
    · exact absurd hrests hnot
  · rcases hkept with ⟨hrests, -⟩ | ⟨-, hcounted⟩
    · exact absurd hrests hnot
    · exact hcounted hopen

/-- What a second reset finds at the vector is what the first one found. -/
theorem registers_reset_reset
    (hm : m.bus.Settled) : m.reset.reset.registers = m.reset.registers := by
  have hentered : m.entered.Settled := hm.withPrivilege _
  obtain ⟨v, hr⟩ := hentered.represents
  obtain ⟨r, b, h⟩ := yields_exists (Bus.transfer m.vectorLoad) m.entered
  obtain ⟨r', b', h'⟩ := yields_exists (Bus.transfer m.vectorLoad) b
  obtain ⟨memory, rfl⟩ := Bus.transfer_frame h
  have hreset := reset_eq h
  have hsecond : Yields (Bus.transfer m.reset.vectorLoad) m.reset.entered r' b' := by
    rw [hreset]
    exact h'
  -- the second load is refused if the first was, and else finds what the first one left
  have hagain := hr.load_again (t := m.vectorLoad) nofun rfl h h'
  have hsame : r'.toOption.getD 0 = r.toOption.getD 0 := by
    cases r with
    | ok pc =>
      cases r' with
      | ok pc' =>
        have hleft := (hentered.exchanges (t := m.vectorLoad) (absurd rfl) h).left
        have hfound := ((hentered.transfer h).exchanges (t := m.vectorLoad) (absurd rfl) h').found
        have hbytes : ∀ i < 4, pc'.byte i = pc.byte i := fun i hi =>
          Option.some.inj ((hfound i hi).symm.trans (hleft i hi))
        exact Word.eq_of_bytes hbytes
      | error e' => cases hagain
    | error e =>
      cases r' with
      | ok pc' => cases hagain
      | error e' => rfl
  rw [reset_eq hsecond, hsame, hreset]

theorem reset_reset
    (hm : m.bus.Settled) (hrests : m.entered.Rests m.vectorLoad) : m.reset.reset = m.reset := by
  obtain ⟨r, b, h⟩ := yields_exists (Bus.transfer m.vectorLoad) m.entered
  have hreset := reset_eq h
  have hbus := (restarted hm).kept hrests
  rw [hreset] at hbus
  obtain rfl : b = m.entered := hbus
  have hsecond : Yields (Bus.transfer m.reset.vectorLoad) m.reset.entered r m.entered := by
    rw [hreset]
    exact h
  rw [reset_eq hsecond, hreset]

/-- A reset restarts the machine, and a second one finds the same registers for it. When the read of
the vector rests the bus is as it was before them, and the second one changes nothing. -/
theorem reset_exact (hm : m.Reached) :
    m.Restarted m.reset ∧ m.reset.reset.registers = m.reset.registers ∧
    (m.entered.Rests m.vectorLoad → m.reset.reset = m.reset) :=
  ⟨restarted hm.settled, registers_reset_reset hm.settled, reset_reset hm.settled⟩

end Machine

/-! ## A vector on the disk

The reset vector is in the one page of the process, and that page has been moved out.
-/

namespace VectorOut

open PagedMemory TwoReaders
open PagedStore (resident movedOut)

def configuration : Configuration := ⟨window, ranges, 0x400000, none, .kernel, false⟩

def machine (m : PagedMemory) : Machine :=
  ⟨configuration, .zero, .running, ⟨m, TornStore.program, TornStore.layout, .kernel⟩, .zero⟩

def asleep : Machine := machine (movedOut disk TwoReaders.ram)

def events : List (Event Machine MachineOperation Answer) :=
  [⟨.host (.bus (.paging .beginProcess)), .ok (.process 1), machine (begun disk TwoReaders.ram)⟩,
    ⟨.host (.bus (.paging (.addPage 0x400 .readWrite false))), .ok .done,
      machine (resident disk TwoReaders.ram)⟩,
    ⟨.host (.bus (.paging (.pageOut 0x400))), .ok .done, asleep⟩]

theorem ofDevices : Machine.ofDevices configuration TwoReaders.ram TornStore.program disk =
    .ok (machine (start disk TwoReaders.ram)) := by
  have hreset : Machine.reset (machine (start disk TwoReaders.ram)) =
      machine (start disk TwoReaders.ram) := rfl
  have hbuilt := Machine.ofDevices_of_bus configuration
    (bus_ofDevices_of_layout TornStore.ofRanges) rfl
  exact hbuilt.trans (congrArg Except.ok hreset)

theorem run : Run MachineOperation.Step (machine (start disk TwoReaders.ram)) events asleep := by
  have hadd :
      (PagingOperation.addPage 0x400 .readWrite false).Step (begun disk TwoReaders.ram) (.ok .done)
      (resident disk TwoReaders.ram) := step_addPageAs disk TwoReaders.ram rfl ram_fits.1 ram_fits.2
  have hhost : ∀ {op : PagingOperation} {a : Answer} {m m' : PagedMemory}, op.Step m (.ok a) m' →
      MachineOperation.Step (.host (.bus (.paging op))) (machine m) (.ok a) (machine m') :=
    fun hstep => Machine.onBus_run (Bus.onMemory_ok hstep)
  have hout := hhost PagedStore.step_pageOut
  exact .next (hhost (step_begin disk TwoReaders.ram)) (.next (hhost hadd) (.next hout (.done _)))

theorem withinCounts : ∀ e ∈ events, WithinCounts e.state.bus.memory := by
  intro e he
  apply withinCounts_of_size
  simp only [events, List.mem_cons, List.not_mem_nil, or_false] at he
  rcases he with rfl | rfl | rfl
  · exact Nat.zero_le _
  · exact (by decide : 1 ≤ maxRefs)
  · exact (by decide : 1 ≤ maxRefs)

theorem reached : asleep.Reached :=
  ⟨_, _, _, _, _, _, ofDevices, rfl, run, (by decide : 0 + 1 < 2 ^ 32 - 1), withinCounts⟩

theorem maps : asleep.entered.Maps asleep.vectorLoad :=
  ⟨⟨.mapped, 0x400000, 0x7FFFFF⟩, rfl, rfl, rfl⟩

/-- The page is to be had, but not in a frame. -/
theorem not_rests : ¬ asleep.entered.Rests asleep.vectorLoad := by
  intro hrests
  rcases ((hrests maps).1.found (PagedStore.mapping_movedOut disk TwoReaders.ram)).2 with
    hstranded | ⟨frame, hl⟩
  · exact hstranded.2.2 (PagedStore.hasFree_movedOut disk TwoReaders.ram PagedStore.slotCount_disk)
  · cases hl

theorem counters_open : asleep.bus.memory.counters.Open := ⟨by decide, by decide, by decide⟩

/-- It is not so that a reset always keeps memory. -/
theorem memory_not_kept : ¬ ∀ m : Machine, m.Reached → m.reset.bus.memory = m.bus.memory := by
  intro h
  have hlt := (Machine.restarted reached.settled).counted counters_open not_rests
  rw [h asleep reached] at hlt
  exact Nat.lt_irrefl _ hlt

/-- The page of the vector is brought in. -/
theorem woken :
    asleep.Restarted asleep.reset ∧ asleep.reset.reset.registers = asleep.reset.registers ∧
    asleep.bus.memory.counters.misses < asleep.reset.bus.memory.counters.misses := by
  obtain ⟨hrestarted, hagain, -⟩ := Machine.reset_exact reached
  exact ⟨hrestarted, hagain, hrestarted.counted counters_open not_rests⟩

end VectorOut

end PagedMachine

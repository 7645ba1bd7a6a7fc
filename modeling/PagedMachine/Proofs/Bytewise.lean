import PagedMachine.Proofs.ByteExchange
import PagedMachine.Proofs.PageCrossings
import PagedMachine.Proofs.SameView

/-!
# Accesses byte by byte

A page that was resolved stays in its frame while its bytes are exchanged. So the bytes
of an access, each resolved for itself, make the same pages private in the same order
as the whole access, which resolves its last page first.
-/

namespace PagedMachine

namespace PagedMemory

open Virtual (Granted Splits firstPage lastPage)

variable {m m' m₁ : PagedMemory} {v : Virtual.Memory} {page address physical frame : Word}
    {mp : Mapping} {t : Transfer} {access : Access} {privilege : Privilege} {offset count : Nat}

/-! ## Bytes of one page -/

theorem translate_held (hv : Represents m v) (hholds : Holds m address.page frame)
    (hg : v.Grants address.page access privilege) : (translate address access privilege).run m =
      .ok (Ram.frameAddress m.ram frame + UInt32.ofNat address.pageOffset) m := by
  obtain ⟨mp, hm, hallow, hstore⟩ := hv.mapping_of_grants hg
  obtain ⟨mp', hm', hl⟩ := hholds
  obtain rfl : mp = mp' := Option.some.inj (hm.symm.trans hm')
  rw [translate, resolve, bind_assoc, bind_ok (lookup_run hm address access), if_pos hallow,
    materialise_eq, bringIn, hl]
  simp only [if_neg hstore]
  rfl

def Held (m : PagedMemory) (v : Virtual.Memory) (t : Transfer) (privilege : Privilege)
    (offset count : Nat) : Prop :=
  ∀ i, offset ≤ i → i < offset + count →
    v.Grants (t.address + UInt32.ofNat i).page t.access privilege ∧
    ∃ frame, Holds m (t.address + UInt32.ofNat i).page frame

theorem Consistent.exchangeBytes_held (count : Nat) : ∀ {m : PagedMemory} {v : Virtual.Memory}
    (offset : Nat), Consistent m → Represents m v → Held m v t privilege offset count → ∃ m',
      (PagedMemory.exchangeBytes t privilege offset count).run m =
      .ok (v.exchangeBytes t offset count).1 m' ∧ Follows m m' (v.exchangeBytes t offset count).2 ∧
      m'.toPaging = m.toPaging := by
  induction count with
  | zero => exact fun _ h hv _ => ⟨_, rfl, .refl h hv, rfl⟩
  | succ count ih =>
    intro m v offset h hv hheld
    obtain ⟨hg, frame, hholds⟩ := hheld offset (Nat.le_refl _) (by omega)
    have hmapped := hg
    obtain ⟨mv, hmv, -⟩ := hmapped
    obtain ⟨old, m₁, hrun₁, hold, hfollows₁, hpaging₁⟩ :=
      h.exchange_part hv ⟨frame, hholds, rfl⟩ hmv
    -- the books are as they were, so the other pages are still granted and in their frames
    have hrest : Held m₁ (v.exchangeBytes t offset 1).2 t privilege (offset + 1) count := by
      intro i hi hlt
      simpa only [Virtual.Memory.Grants, Virtual.Memory.find?_exchangeBytes, Holds, hpaging₁] using
        hheld i (by omega) (by omega)
    obtain ⟨m₂, hrun₂, hfollows₂, hpaging₂⟩ :=
      ih (offset + 1) hfollows₁.consistent hfollows₁.represents hrest
    rw [Virtual.Memory.exchangeBytes_succ hmv]
    refine ⟨m₂, ?_, hfollows₁.trans hfollows₂, hpaging₂.trans hpaging₁⟩
    rw [PagedMemory.exchangeBytes, bind_ok (translate_held hv hholds hg), bind_ok (by exact hrun₁),
      bind_ok hrun₂, hold]
    rfl

theorem Consistent.resolved_of_translate (h : Consistent m) (hv : Represents m v)
    (hstep : Yields (PagedMemory.translate address access privilege) m (.ok physical) m₁) : ∃ mv v₁,
      v.find? address.page = some mv ∧ v₁ = v.resolved address.page mv access ∧ Follows m m₁ v₁ ∧
        v₁.Grants address.page access privilege ∧ At m₁ address physical ∧
        (PagedMemory.translate address access privilege).run m₁ = .ok physical m₁ := by
  rcases h.translate hv address access privilege with
    ⟨physical', _, m₁', v₁, hrun, hb, hfollows, ⟨frame, hholds, hphysical⟩, hg⟩
    | ⟨e, m₁', v₁, hrun, -⟩
  · obtain ⟨heq, rfl⟩ := hstep.eq_of_ok hrun
    obtain rfl := Except.ok.inj heq
    rcases Virtual.resolve_allows hb with ⟨mv, hmv, -, -, hv₁⟩ | ⟨e, he, -⟩
    · exact ⟨mv, v₁, hmv, hv₁, hfollows, hg, ⟨frame, hholds, hphysical⟩,
        hphysical ▸ translate_held hfollows.represents hholds hg⟩
    · cases he
  · cases (hstep.eq_of_error hrun).1

theorem Consistent.exchangeBytes_page (h : Consistent m) (hv : Represents m v) (offset count : Nat)
    (hcount : 0 < count)
    (hpage : ∀ i, offset ≤ i → i < offset + count → (t.address + UInt32.ofNat i).page = page)
    (hstep : Yields (PagedMemory.translate (t.address + UInt32.ofNat offset) t.access privilege) m
      (.ok physical) m₁) :
    ∃ mv m',
      v.find? page = some mv ∧ Follows m m₁ (v.resolved page mv t.access) ∧
        (PagedMemory.exchangeBytes t privilege offset count).run m =
          .ok ((v.resolved page mv t.access).exchangeBytes t offset count).1 m' ∧
        Follows m₁ m' ((v.resolved page mv t.access).exchangeBytes t offset count).2 ∧
        m'.toPaging = m₁.toPaging := by
  obtain ⟨mv, v₁, hmv, rfl, hfollows, hg, ⟨frame, hholds, -⟩, hagain⟩ :=
    h.resolved_of_translate hv hstep
  rw [hpage offset (Nat.le_refl _) (by omega)] at hmv hfollows hg hholds
  have hheld : Held m₁ (v.resolved page mv t.access) t privilege offset count := by
    intro i hi hlt
    rw [hpage i hi hlt]
    exact ⟨hg, frame, hholds⟩
  obtain ⟨m', hrun, hexchanged, hpaging⟩ :=
    hfollows.consistent.exchangeBytes_held count offset hfollows.represents hheld
  refine ⟨mv, m', hmv, hfollows, ?_, hexchanged, hpaging⟩
  obtain ⟨rest, rfl⟩ : ∃ rest, count = rest + 1 := ⟨count - 1, by omega⟩
  rw [← hrun, PagedMemory.exchangeBytes, bind_ok hstep, bind_ok hagain]

/-! ## Bytes of two pages -/

theorem exchangeBytes_add (t : Transfer) (privilege : Privilege) (k : Nat) : ∀ offset j,
    PagedMemory.exchangeBytes t privilege offset (k + j) = (do
      let low ← PagedMemory.exchangeBytes t privilege offset k
      let high ← PagedMemory.exchangeBytes t privilege (offset + k) j
      return low + 256 ^ k * high) := by
  induction k with
  | zero =>
    intro offset j
    simp only [PagedMemory.exchangeBytes, pure_bind, Nat.zero_add, Nat.add_zero, Nat.pow_zero,
      Nat.one_mul]
    exact (bind_pure _).symm
  | succ k ih =>
    intro offset j
    rw [Nat.add_right_comm, PagedMemory.exchangeBytes, PagedMemory.exchangeBytes, ih]
    simp only [bind_assoc, pure_bind, Nat.pow_succ', Nat.mul_add, Nat.add_assoc, Nat.mul_assoc,
      Nat.add_comm 1 k]

theorem translationFault?_eq_none : m.translationFault? address access privilege = none ↔ ∃ mp,
    m.mapping? address.page = some mp ∧ ¬ Denied mp.permissions access privilege ∧
    m.shortage? mp access = none := by
  unfold translationFault?
  cases hm : m.mapping? address.page with
  | none => cases m.current <;> simp
  | some mp =>
    obtain ⟨pid, d, hc, -⟩ := mapping?_some.mp hm
    by_cases hdenied : Denied mp.permissions access privilege <;> simp [hc, hdenied]

theorem translationFault?_congr {address' : Word} (access : Access) (privilege : Privilege)
    (hpaging : m'.toPaging = m.toPaging) (hpage : address'.page = address.page)
    (h : m.translationFault? address access privilege = none) :
    m'.translationFault? address' access privilege = none := by
  obtain ⟨paging, ram⟩ := m'
  obtain rfl : paging = m.toPaging := hpaging
  obtain ⟨mp, hm, hallow, hshort⟩ := translationFault?_eq_none.mp h
  exact translationFault?_eq_none.mpr ⟨mp, hpage.symm ▸ hm, hallow, hshort⟩

theorem Sound.translationFault?_of_translate (h : Sound m)
    (hstep : Yields (PagedMemory.translate address access privilege) m (.ok physical) m') :
    m.translationFault? address access privilege = none := by
  obtain ⟨v, hv⟩ := h.represents
  rw [← h.consistent.fault?_translate hv h.housed]
  exact fault?_ok hstep

theorem Sound.translate_congr {address' : Word} (h : Sound m) (h' : Sound m')
    (hpaging : m'.toPaging = m.toPaging) (hpage : address'.page = address.page)
    (hstep : Yields (PagedMemory.translate address access privilege) m (.ok physical) m₁) :
    ∃ physical' m₂,
    Yields (PagedMemory.translate address' access privilege) m' (.ok physical') m₂ := by
  obtain ⟨v', hv'⟩ := h'.represents
  have hnone :=
    translationFault?_congr access privilege hpaging hpage (h.translationFault?_of_translate hstep)
  rw [← h'.consistent.fault?_translate hv' h'.housed] at hnone
  obtain ⟨r, m₂, hr⟩ := yields_exists (PagedMemory.translate address' access privilege) m'
  cases r with
  | ok physical' => exact ⟨physical', m₂, hr⟩
  | error e => cases hnone.symm.trans (fault?_error hr)

/-! ## The same memory but for some bytes -/

/-- No process can tell the two apart, but for what it finds at the excepted addresses. -/
structure SameBut (excepted : Word → Word → Prop) (m₁ m₂ : PagedMemory) : Prop where
  current : m₁.current = m₂.current
  processes : ∀ pid, m₁.processes.contains pid = m₂.processes.contains pid
  rights : ∀ pid page, (m₁.mappingIn? pid page).map (fun mp => (mp.permissions, mp.copyOnWrite)) =
    (m₂.mappingIn? pid page).map fun mp => (mp.permissions, mp.copyOnWrite)
  sharing : ∀ pid page q page', m₁.Shares pid page q page' ↔ m₂.Shares pid page q page'
  bytes : ∀ pid a, ¬ excepted pid a → m₁.byte? pid a = m₂.byte? pid a

theorem RepresentedBy.rights {name : Location → Nat} (hv : RepresentedBy name m v)
    (pid page : Word) :
    (m.mappingIn? pid page).map (fun mp => (mp.permissions, mp.copyOnWrite)) =
      (v.mapping? pid page).map fun x => (x.permissions, x.copyOnWrite) := by
  rw [hv.mappingIn?, Option.map_map]
  rfl

/-- Other contents are all that two memories can differ in that represent the same processes. -/
theorem Represents.sameBut {excepted : Word → Word → Prop} (contents : Nat → Fin pageSize → UInt8)
    (h : Represents m { v with contents := contents }) (h' : Represents m' v)
    (hbytes : ∀ q a, ¬ excepted q a →
      ({ v with contents := contents } : Virtual.Memory).byte? q a = v.byte? q a) :
    SameBut excepted m m' := by
  have hsame : ∀ q a, ¬ excepted q a → m.byte? q a = m'.byte? q a := by
    intro q a hq
    rw [← h.byte?, ← h'.byte?, hbytes q a hq]
  obtain ⟨name, h⟩ := h
  obtain ⟨name', h'⟩ := h'
  refine ⟨h.current.symm.trans h'.current, fun pid => (h.contains pid).symm.trans (h'.contains pid),
    fun pid page => (h.rights pid page).trans (h'.rights pid page).symm, fun pid page q page' =>
      ?_, hsame⟩
  rw [h.shares, h'.shares]
  rfl

/-! ## Two pages that are one -/

/-- The pages of a store are one page, which is copied for the last of them only. -/
def Aliased (m : PagedMemory) (t : Transfer) : Prop :=
  t.access = .write ∧ ∃ first last, m.mapping? (firstPage t) = some first ∧
    m.mapping? (lastPage t) = some last ∧
    first.location = last.location ∧ ¬ first.copyOnWrite ∧ last.copyOnWrite

/-- At `a` the current process finds, in the last page, the byte that the transfer has at `i` in the
first. -/
def Stale (m : PagedMemory) (t : Transfer) (i : Nat) (q a : Word) : Prop :=
  Aliased m t ∧ m.current = some q ∧ a.page = lastPage t ∧
    (t.address + UInt32.ofNat i).page = firstPage t ∧
    a.pageOffset = (t.address + UInt32.ofNat i).pageOffset

theorem not_aliased_of_eq (he : lastPage t = firstPage t) : ¬ Aliased m t := by
  rintro ⟨-, first, last, hfirst, hlast, -, hopen, hflag⟩
  rw [he, hfirst] at hlast
  rw [Option.some.inj hlast] at hopen
  exact hopen hflag

variable {name : Location → Nat} {first last : Virtual.Mapping} {k i : Nat} {q a : Word}

/-- These are the bytes that the copy of the last page misses. -/
theorem RepresentedBy.stale_iff (hv : RepresentedBy name m v) (hsplits : Splits t k)
    (hfirst : v.find? (firstPage t) = some first)
    (hlast : (v.resolved (firstPage t) first t.access).find? (lastPage t) = some last)
    (hi : i < t.width.bytes) :
    m.Stale t i q a ↔ i < k ∧ (v.resolved (firstPage t) first t.access).Hits t i q a ∧
      (v.resolved (firstPage t) first t.access).Diverted t last q a := by
  obtain ⟨pid, hc, hfirst'⟩ := Virtual.Memory.find?_some.mp hfirst
  have hcurrent := Virtual.Memory.current_resolved hfirst t.access
  have hfind : ∀ page, (v.resolved (firstPage t) first t.access).find? page =
      (v.resolved (firstPage t) first t.access).mapping? pid page :=
        Virtual.Memory.find?_eq (hcurrent.trans hc)
  have hlast' : v.mapping? pid (lastPage t) = some last := by
    rwa [Virtual.Memory.find?_resolved_of_ne hfirst _ hsplits.ne,
      Virtual.Memory.find?_eq hc] at hlast
  have hnamed := hv.find? (firstPage t)
  rw [hfirst] at hnamed
  obtain ⟨fp, hfp, rfl⟩ := Option.map_eq_some_iff.mp hnamed.symm
  have hnamed' := hv.find? (lastPage t)
  rw [Virtual.Memory.find?_eq hc, hlast'] at hnamed'
  obtain ⟨lp, hlp, rfl⟩ := Option.map_eq_some_iff.mp hnamed'.symm
  constructor
  · rintro ⟨⟨hwrite, fp', lp', hfp', hlp', hloc, hopen, hflag⟩, hq, hp, hpi, ho⟩
    obtain rfl : fp = fp' := Option.some.inj (hfp.symm.trans hfp')
    obtain rfl : lp = lp' := Option.some.inj (hlp.symm.trans hlp')
    have hopen' : v.resolved (firstPage t) (fp.rename name) t.access = v :=
      if_neg fun h => hopen h.2
    have hq' : v.current = some q := hv.current.trans hq
    obtain rfl : pid = q := Option.some.inj (hc.symm.trans hq')
    rw [hopen']
    refine ⟨Nat.lt_of_not_le fun hk => hsplits.ne ((hsplits.last i hk hi).symm.trans hpi), ?_,
      ⟨hwrite, hflag⟩, hc, hp⟩
    exact ⟨fp.rename name, lp.rename name, hpi ▸ hfirst, hp ▸ hlast', congrArg name hloc.symm,
      Fin.ext ho⟩
  · rintro ⟨hk, ⟨x, y, hx, hy, hxy, ho⟩, ⟨hwrite, hflag⟩, hq, hp⟩
    rw [hcurrent] at hq
    obtain rfl : pid = q := Option.some.inj (hc.symm.trans hq)
    rw [hp, ← hfind, hlast] at hy
    obtain rfl := Option.some.inj hy
    rw [hsplits.first i hk, hfind, Virtual.Memory.mapping?_of_resolved hfirst] at hx
    -- a first page that was made private is no other page of the process
    by_cases hcow : fp.copyOnWrite = true
    · rw [if_pos ⟨⟨hwrite, hcow⟩, hc, rfl⟩] at hx
      obtain rfl := Option.some.inj hx
      exact absurd hxy (Virtual.Memory.privatePage_ne hfirst' hv.isFresh hlast' fun h =>
        hsplits.ne h.2)
    · rw [if_neg fun h => hcow h.1.2, hfirst'] at hx
      obtain rfl := Option.some.inj hx
      obtain ⟨_, d, hc₁, hd, hmf⟩ := mapping?_some.mp hfp
      obtain ⟨_, d', hc₂, hd', hml⟩ := mapping?_some.mp hlp
      have hloc := hv.distinct _ _ (mappingsOf_ne_zero hd' hml) (mappingsOf_ne_zero hd hmf) hxy
      exact ⟨⟨hwrite, fp, lp, hfp, hlp, hloc.symm, hcow, hflag⟩, hv.current.symm.trans hc, hp,
        hsplits.first i hk, congrArg Fin.val ho⟩

/-! ## Whole accesses -/

/-- The bytes one by one leave what the whole store left, but the copy of the last page has them
all. -/
structure CatchesUp (m : PagedMemory) (t : Transfer) (m₂ m₁ : PagedMemory) : Prop where
  same : SameBut (fun q a => ∃ i < t.width.bytes, m.Stale t i q a) m₂ m₁
  stale : ∀ i < t.width.bytes, ∀ q a value, m.Stale t i q a → t.store = some value →
    m₂.byte? q a = some (value.byte i) ∧ m₁.byte? q a = m.byte? q a

theorem Sound.of_toPaging (h : Sound m) (he : m'.toPaging = m.toPaging) (hx : SameExtent m m') :
    Sound m' := by
  obtain ⟨paging, ram⟩ := m'
  obtain rfl : paging = m.toPaging := he
  exact h.with_ram hx.ramBase hx.ramSize

theorem Consistent.within (h : Consistent m) (hv : Represents m v)
    (hcross : ¬ crossesPage t.address t.width = true)
    {old : Word} (hstep : Yields (PagedMemory.transferMapped t privilege) m (.ok old) m₁) :
    ∃ physical m' first,
    Yields (PagedMemory.translate t.address t.access privilege) m (.ok physical) m' ∧
      v.find? (firstPage t) = some first ∧
      old.toNat = ((v.resolved (firstPage t) first t.access).exchangeBytes t 0 t.width.bytes).1 ∧
      Follows m m₁
        ((v.resolved (firstPage t) first t.access).exchangeBytes t 0 t.width.bytes).2 := by
  rw [PagedMemory.transferMapped, if_neg hcross] at hstep
  have hfit : t.address.pageOffset + t.width.bytes ≤ pageSize := by simpa [crossesPage] using hcross
  rcases hstep.of_bind with ⟨physical, m', htranslate, hexchange⟩ | ⟨e, he, -⟩
  case inr => cases he
  obtain ⟨first, v₁, hmv, rfl, hfollows, -, hat, -⟩ := h.resolved_of_translate hv htranslate
  obtain ⟨m₁', hrun, hstored, -⟩ := hfollows.consistent.exchange hfollows.represents hat hfit
  obtain ⟨hold, rfl⟩ := hexchange.eq_of_ok hrun
  rw [Except.ok.inj hold, Virtual.Memory.toNat_answer]
  exact ⟨physical, m', first, htranslate, hmv, rfl, hfollows.trans hstored⟩

theorem Consistent.together (h : Consistent m) (hv : Represents m v)
    (hcross : crossesPage t.address t.width = true)
    {old : Word} (hstep : Yields (PagedMemory.transferMapped t privilege) m (.ok old) m₁) :
    ∃ physical m' physical' m'' first last,
      Yields (PagedMemory.translate t.address t.access privilege) m (.ok physical) m' ∧
      Yields (PagedMemory.translate (t.address + UInt32.ofNat (t.width.bytes - 1)) t.access
        privilege) m'
        (.ok physical') m'' ∧
      v.find? (firstPage t) = some first ∧ Represents m' (v.resolved (firstPage t) first t.access) ∧
      (v.resolved (firstPage t) first t.access).find? (lastPage t) = some last ∧
      old.toNat = ((v.resolved (firstPage t) first t.access).exchangeTogether t last).1 ∧
      Follows m m₁ ((v.resolved (firstPage t) first t.access).exchangeTogether t last).2 := by
  rw [PagedMemory.transferMapped, if_pos hcross] at hstep
  rcases hstep.of_bind with ⟨physical, m', hfirst, hrest⟩ | ⟨e, he, -⟩
  case inr => cases he
  rcases hrest.of_bind with ⟨physical', m'', hlast, hbytes⟩ | ⟨e, he, -⟩
  case inr => cases he
  obtain ⟨first, v₁, hmv, rfl, hfollows, hg₁, -⟩ := h.resolved_of_translate hv hfirst
  obtain ⟨last, v₂, hmv', rfl, hfollows', hg₂, ⟨frame, hholds, -⟩, -⟩ :=
    hfollows.consistent.resolved_of_translate hfollows.represents hlast
  have hg :
      Granted ((v.resolved (firstPage t) first t.access).resolved (lastPage t) last t.access) t
        privilege :=
    ⟨hg₁.privatised (Virtual.Memory.privatised_resolved hmv' t.access), hg₂⟩
  obtain ⟨r, hr, hexchanged⟩ := hbytes.of_map
  rcases hfollows'.consistent.exchangeBytes hfollows'.represents hg ⟨frame, hholds⟩ with
    ⟨m₃, hrun, hstored⟩ | ⟨e, hrun, -⟩
  · obtain ⟨rfl, rfl⟩ := hexchanged.eq_of_ok hrun
    obtain rfl := Except.ok.inj hr
    exact ⟨physical, m', physical', m'', first, last, hfirst, hlast, hmv, hfollows.represents, hmv',
      Virtual.Memory.toNat_answer _ t, (hfollows.trans hfollows').trans hstored⟩
  · obtain ⟨rfl, -⟩ := hexchanged.eq_of_error hrun
    cases hr

theorem Sound.inTurn (h : Sound m) (hv : Represents m v) (hsplits : Splits t k) {physical' : Word}
    {m'' : PagedMemory}
    (hfirst : Yields (PagedMemory.translate t.address t.access privilege) m (.ok physical) m')
    (hlast : Yields
      (PagedMemory.translate (t.address + UInt32.ofNat (t.width.bytes - 1)) t.access privilege) m'
      (.ok physical') m'')
    (hmv : v.find? (firstPage t) = some first)
    (hmv' : (v.resolved (firstPage t) first t.access).find? (lastPage t) = some last) : ∃ m₂,
      Yields (PagedMemory.exchangeBytes t privilege 0 t.width.bytes) m
        (.ok ((v.resolved (firstPage t) first t.access).exchangeInTurn t last k).1) m₂ ∧
      Represents m₂ ((v.resolved (firstPage t) first t.access).exchangeInTurn t last k).2 := by
  have hlt := hsplits.lt
  have hzero : t.address + UInt32.ofNat 0 = t.address := UInt32.add_zero _
  obtain ⟨mv, mlow, hmv₁, hfollows, hlow, hstored, hpaging⟩ :=
    h.consistent.exchangeBytes_page hv 0 k hsplits.pos (fun i _ hi => hsplits.first i (by omega))
      (hzero.symm ▸ hfirst)
  obtain rfl : first = mv := Option.some.inj (hmv.symm.trans hmv₁)
  -- the bytes of the first page leave the books alone, so the last page is resolved all the same
  have hsound : Sound m' := enduring_sound.translate _ _ _ m _ m' h hfirst
  have hpage :
      (t.address + UInt32.ofNat k).page = (t.address + UInt32.ofNat (t.width.bytes - 1)).page :=
    hsplits.last k (Nat.le_refl k) hlt
  obtain ⟨_, mlast, hstep⟩ :=
    hsound.translate_congr (hsound.of_toPaging hpaging hstored.extent) hpaging hpage hlast
  obtain ⟨mv', m₂, hmv₂, -, hhigh, hdone, -⟩ :=
    hstored.consistent.exchangeBytes_page hstored.represents k (t.width.bytes - k) (by omega)
      (fun i hi hik => hsplits.last i hi (by omega)) hstep
  rw [Virtual.Memory.find?_exchangeBytes, hmv'] at hmv₂
  obtain rfl := Option.some.inj hmv₂
  refine ⟨m₂, ?_, hdone.represents⟩
  have hadd := exchangeBytes_add t privilege k 0 (t.width.bytes - k)
  rw [Nat.zero_add, show k + (t.width.bytes - k) = t.width.bytes by omega] at hadd
  rw [hadd]
  exact Yields.bind_ok hlow (Yields.bind_ok hhigh rfl)

theorem Represents.catchesUp (hv : Represents m v) (hsplits : Splits t k)
    (hfirst : v.find? (firstPage t) = some first)
    (hlast : (v.resolved (firstPage t) first t.access).find? (lastPage t) = some last)
    (h₂ : Represents m₂ ((v.resolved (firstPage t) first t.access).exchangeInTurn t last k).2)
    (h₁ : Represents m₁ ((v.resolved (firstPage t) first t.access).exchangeTogether t last).2) :
    CatchesUp m t m₂ m₁ := by
  have hunseen := (Virtual.Memory.privatised_resolved hfirst t.access).unseen hv.isFresh
  have hlt := hsplits.lt
  obtain ⟨name, hname⟩ := hv
  have hstale := fun i q a hi => hname.stale_iff (q := q) (a := a) hsplits hfirst hlast (i := i) hi
  obtain ⟨first', hfirst'⟩ := Virtual.Memory.find?_of_resolved hfirst t.access
  obtain ⟨contents, hsame⟩ :=
    Virtual.Memory.exchangeInTurn_eq (v.resolved (firstPage t) first t.access) t last k
  -- two stores in turn leave other contents at most, so the two memories differ in stale bytes only
  refine ⟨?_, fun i hi q a value hq hs => ?_⟩
  · rw [hsame] at h₂
    refine h₂.sameBut contents h₁ fun q a hnone => ?_
    rw [← hsame]
    cases hs : t.store with
    | none =>
      rw [Virtual.Memory.exchangeInTurn, Virtual.Memory.exchangeTogether,
        Virtual.Memory.exchangeBytes_load hs,
        Virtual.Memory.exchangeBytes_load hs, Virtual.Memory.exchangeBytes_load hs]
    | some value =>
      refine (Virtual.Memory.byte?_exchangeInTurn hsplits hunseen.fresh hfirst' hlast hs q a).2
        fun i hi hits hd => ?_
      have hi' : i < t.width.bytes := by omega
      exact hnone ⟨i, hi', (hstale i q a hi').mpr ⟨hi, hits, hd⟩⟩
  · obtain ⟨hik, hits, hd⟩ := (hstale i q a hi).mp hq
    obtain ⟨hnew, hold⟩ :=
      (Virtual.Memory.byte?_exchangeInTurn hsplits hunseen.fresh hfirst' hlast hs q a).1 i
        hik hits hd
    rw [← h₂.byte?, ← h₁.byte?, hnew, hold, hunseen.bytes, hname.byte?]
    exact ⟨rfl, rfl⟩

/-- A served access is served byte by byte, with the same answer, and leaves the same but for the
bytes that the copy of its last page misses. -/
theorem Sound.bytewise (h : Sound m) {old : Word}
    (hstep : Yields (PagedMemory.transferMapped t privilege) m (.ok old) m₁) : ∃ m₂,
    Yields (PagedMemory.exchangeBytes t privilege 0 t.width.bytes) m (.ok old.toNat) m₂ ∧
    CatchesUp m t m₂ m₁ := by
  obtain ⟨v, hv⟩ := h.represents
  by_cases hcross : crossesPage t.address t.width = true
  · obtain ⟨physical, m', physical', m'', first, last, hfirst, hlast, hmv, -, hmv', hold,
        hfollows⟩ :=
      h.consistent.together hv hcross hstep
    obtain ⟨k, hsplits⟩ := Virtual.splits_of_crosses hcross
    obtain ⟨m₂, hrun, hr₂⟩ := h.inTurn hv hsplits hfirst hlast hmv hmv'
    have hunseen := (Virtual.Memory.privatised_resolved hmv t.access).unseen hv.isFresh
    obtain ⟨first', hmv₁⟩ := Virtual.Memory.find?_of_resolved hmv t.access
    refine ⟨m₂, ?_, hv.catchesUp hsplits hmv hmv' hr₂ hfollows.represents⟩
    rwa [hold, ← Virtual.Memory.exchangeInTurn_answer hsplits hunseen.fresh hmv₁ hmv']
  · obtain ⟨physical, m', first, htranslate, hmv, hold, hfollows⟩ :=
      h.consistent.within hv hcross hstep
    have hfit : t.address.pageOffset + t.width.bytes ≤ pageSize := by
      simpa [crossesPage] using hcross
    have hzero : t.address + UInt32.ofNat 0 = t.address := UInt32.add_zero _
    have hpage : ∀ i, 0 ≤ i → i < 0 + t.width.bytes →
        (t.address + UInt32.ofNat i).page = firstPage t :=
      fun i _ hi => (Word.add_ofNat_of_lt (by omega)).1
    obtain ⟨mv, m₂, hmv', -, hbytes, hdone, -⟩ :=
      h.consistent.exchangeBytes_page hv 0 t.width.bytes (by cases t.width <;> decide) hpage
        (hzero.symm ▸ htranslate)
    obtain rfl : first = mv := Option.some.inj (hmv.symm.trans hmv')
    have hnone : ∀ i q a, ¬ m.Stale t i q a :=
      fun i q a hq => not_aliased_of_eq (Virtual.lastPage_eq hcross) hq.1
    rw [hold]
    exact ⟨m₂, hbytes, hdone.represents.sameBut _ hfollows.represents fun _ _ _ => rfl,
      fun i _ q a _ hq => absurd hq (hnone i q a)⟩

end PagedMemory

end PagedMachine

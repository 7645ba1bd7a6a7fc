import PagedMachine.Proofs.Bookkeeping
import PagedMachine.Proofs.Coverage

/-!
# Guarded pages

A mapping is open when a store goes through it to the page as it is. An open mapping
is the only one of its location, unless it took part in a share without a flag and
has been open since: forks and guarded shares leave no open mapping of what they
share. The books cover the mappings all the while, whatever numbers the processes get.
-/

namespace PagedMachine

/-- A store goes through the mapping as it is. -/
def Mapping.Open (mp : Mapping) : Prop := mp.permissions.write ∧ ¬ mp.copyOnWrite

namespace PagedMemory

variable {m m' m₁ : PagedMemory} {n : Location → Nat} {place : Location → Location}
    {pid page frame : Word} {d : Directory} {new mp : Mapping} {exempt : Word → Word → Prop}

def OpenAt (m : PagedMemory) (pid page : Word) : Prop :=
  ∃ mp, m.mappingIn? pid page = some mp ∧ mp.Open

/-- An open mapping is the only one of its location, unless it is exempt. -/
def Guarded (exempt : Word → Word → Prop) (m : PagedMemory) : Prop :=
  ∀ pid page mp, m.mappingIn? pid page = some mp → mp.Open → ¬ exempt pid page →
    m.Alone pid page mp.location

structure KeepsGuard (m m' : PagedMemory) : Prop where
  covered : Covered m'
  guarded : ∀ exempt, m.Guarded exempt → m'.Guarded exempt

theorem KeepsGuard.refl (h : Covered m) : KeepsGuard m m := ⟨h, fun _ => id⟩

theorem Guarded.imp {exempt' : Word → Word → Prop} (hg : m.Guarded exempt)
    (h : ∀ pid page, m.OpenAt pid page → exempt pid page → exempt' pid page) : m.Guarded exempt' :=
  fun pid page mp hm hopen hnot => hg pid page mp hm hopen fun he =>
    hnot (h pid page ⟨mp, hm, hopen⟩ he)

/-! ## Fewer mappings -/

/-- A mapping is as it was, or it is not open and has the location of one that is not open now. -/
def Closes (m m' : PagedMemory) : Prop :=
  ∀ q page mp', m'.mappingIn? q page = some mp' → m.mappingIn? q page = some mp' ∨
    ¬ mp'.Open ∧ ∃ q₀ page₀ mp₀, m.mappingIn? q₀ page₀ = some mp₀ ∧ mp₀.location = mp'.location ∧
      ∀ mp₁, m'.mappingIn? q₀ page₀ = some mp₁ → ¬ mp₁.Open

theorem Closes.guarded (h : Closes m m') (exempt : Word → Word → Prop) (hg : m.Guarded exempt) :
    m'.Guarded exempt := by
  intro pid page mp hm hopen hnot q page' mp' hm' hl
  rcases h pid page mp hm with hold | ⟨hclosed, -⟩
  case inr => exact absurd hopen hclosed
  -- a mapping that joins its location would be made from one there, which is closed then
  rcases h q page' mp' hm' with hold' | ⟨-, q₀, page₀, mp₀, h₀, hl₀, hclosed⟩
  · exact hg pid page mp hold hopen hnot q page' mp' hold' hl
  · obtain ⟨rfl, rfl⟩ := hg pid page mp hold hopen hnot q₀ page₀ mp₀ h₀ (hl₀.trans hl)
    exact absurd hopen (hclosed mp hm)

def Fewer (m m' : PagedMemory) : Prop :=
  ∀ q page mp, m'.mappingIn? q page = some mp → m.mappingIn? q page = some mp

theorem Fewer.keepsGuard (h : Fewer m m') (hcovered : Covered m') : KeepsGuard m m' :=
  ⟨hcovered, Closes.guarded fun q page mp hm => .inl (h q page mp hm)⟩

theorem mappingIn?_numbered (d : Directory) (q page : Word) :
    (m.numbered d).mappingIn? q page =
      if q = m.nextPid then d.find? page else m.mappingIn? q page := by
  rw [mappingIn?, numbered, Table.find?_insert]
  split <;> rfl

theorem mappingIn?_withoutProcess (q page : Word) :
    (m.withoutProcess pid).mappingIn? q page = if q = pid then none else m.mappingIn? q page := by
  rw [mappingIn?, withoutProcess, Table.find?_erase]
  split <;> rfl

/-- In a layout of the same extent, books that cover are all that is needed. -/
theorem Covers.covered (h : Covers Books n m') (hlayout : Layout m) (hextent : SameExtent m m') :
    Covered m' :=
  covered_of_books (hlayout.of_sameExtent hextent) h.books h.covers

section
variable (h : Covered m)
include h

theorem Covered.books_cover : Covers Books m.refs m := ⟨h.books, h.covers⟩

theorem Covered.beginProcess {r : Except Fault Word}
    (hstep : Yields PagedMemory.beginProcess m r m') : KeepsGuard m m' := by
  obtain ⟨rfl, hcovers⟩ := bookkeeping_books.beginProcess h.books_cover hstep
  refine Fewer.keepsGuard (fun q page mp hm => ?_)
    (hcovers.covered h.layout ⟨rfl, rfl, rfl, rfl, rfl⟩)
  have hm : (m.numbered .empty).mappingIn? q page = some mp := hm
  rw [mappingIn?_numbered] at hm
  split at hm
  · cases hm
  · exact hm

theorem Covered.endProcess {r : Except Fault Unit}
    (hstep : Yields (PagedMemory.endProcess pid) m r m') : Covered m' ∧ Fewer m m' := by
  rcases bookkeeping_books.endProcess h.books_cover hstep with rfl | ⟨n, hsame, hcovers⟩
  · exact ⟨h, fun _ _ _ => id⟩
  · have hextent := (sameExtent_withoutProcess m pid).trans hsame.extent
    refine ⟨hcovers.covered h.layout hextent, fun q page mp hm => ?_⟩
    rw [mappingIn?_congr hsame.processes, mappingIn?_withoutProcess] at hm
    split at hm
    · cases hm
    · exact hm

theorem Covered.switchProcess {r : Except Fault Unit}
    (hstep : Yields (PagedMemory.switchProcess pid) m r m') : KeepsGuard m m' := by
  obtain ⟨rfl | rfl, hcovers⟩ := bookkeeping_books.switchProcess h.books_cover hstep
  · exact .refl h
  · exact ⟨hcovers.covered h.layout ⟨rfl, rfl, rfl, rfl, rfl⟩, fun _ => id⟩

theorem Covered.removePage {r : Except Fault Unit}
    (hstep : Yields (PagedMemory.removePage page) m r m') : Covered m' ∧ Fewer m m' := by
  rcases bookkeeping_books.removePage h.books_cover hstep with rfl | ⟨pid, d, n, hd, hsame, hcovers⟩
  · exact ⟨h, fun _ _ _ => id⟩
  · have hextent := (sameExtent_changed m pid _).trans hsame.extent
    refine ⟨hcovers.covered h.layout hextent, fun q page' mp' hm' => ?_⟩
    rw [mappingIn?_congr hsame.processes, mappingIn?_changed (f := (·.erase page)) rfl hd] at hm'
    split at hm'
    · rename_i hq
      rw [Table.find?_erase] at hm'
      split at hm'
      · cases hm'
      · exact mappingIn?_some.mpr ⟨d, hq ▸ hd, hm'⟩
    · exact hm'

theorem Covered.removeAll {r : Except Fault Unit} (hstep : Yields PagedMemory.removeAll m r m') :
    Covered m' ∧ Fewer m m' := by
  rcases bookkeeping_books.removeAll h.books_cover hstep with rfl | ⟨pid, d, n, hd, hsame, hcovers⟩
  · exact ⟨h, fun _ _ _ => id⟩
  · have hextent := (sameExtent_changed m pid _).trans hsame.extent
    refine ⟨hcovers.covered h.layout hextent, fun q page mp hm => ?_⟩
    rw [mappingIn?_congr hsame.processes, mappingIn?_changed (f := fun _ => .empty) rfl hd] at hm
    split at hm
    · cases hm
    · exact hm

end

/-! ## Shared mappings -/

theorem not_open_sharedBy (mp : Mapping) : ¬ (sharedBy true mp).Open := by
  unfold sharedBy
  split
  · exact fun hopen => hopen.2 rfl
  · rename_i hnot
    exact fun hopen => hnot ⟨rfl, hopen.1⟩

theorem find?_protectWritable (hm : d.protectWritable.find? page = some new) :
    ¬ new.Open ∧ ∃ mp, d.find? page = some mp ∧ mp.location = new.location := by
  rw [Directory.protectWritable, Table.find?_map] at hm
  obtain ⟨mp, hmp, rfl⟩ := Option.map_eq_some_iff.mp hm
  split
  · exact ⟨fun hopen => hopen.2 rfl, mp, hmp, rfl⟩
  · rename_i hwrite
    exact ⟨fun hopen => hwrite hopen.1, mp, hmp, rfl⟩

section
variable (h : Covered m)
include h

theorem Covered.forkProcess {r : Except Fault Word} (hstep : Yields PagedMemory.forkProcess m r m')
    (hcounts : WithinCounts m') : KeepsGuard m m' := by
  rcases bookkeeping_books.forkProcess h.books_cover hstep with
    rfl | ⟨pid, d, m₂, n, -, hd, hsame, rfl, hcovers⟩
  · exact .refl h
  -- the number of the child may be that of a process that lives, even of the parent
  have hview : ∀ q page, (m₂.numbered d.protectWritable).mappingIn? q page =
      if q = m₂.nextPid ∨ q = pid then d.protectWritable.find? page else m.mappingIn? q page := by
    intro q page
    rw [mappingIn?_numbered, mappingIn?_congr hsame.processes,
      mappingIn?_changed (f := (·.protectWritable)) rfl hd]
    by_cases hq : q = m₂.nextPid <;> simp [hq]
  have hextent :=
    ((sameExtent_changed m pid _).trans hsame.extent).trans
      (sameExtent_numbered m₂ d.protectWritable)
  refine ⟨(hcovers hcounts).covered h.layout hextent, Closes.guarded ?_⟩
  intro q page mp' hm'
  rw [hview] at hm'
  split at hm'
  · obtain ⟨hclosed, mp, hmp, hl⟩ := find?_protectWritable hm'
    refine .inr ⟨hclosed, pid, page, mp, mappingIn?_some.mpr ⟨d, hd, hmp⟩, hl, fun mp₁ hm₁ => ?_⟩
    rw [hview, if_pos (.inr rfl)] at hm₁
    exact (find?_protectWritable hm₁).1
  · exact .inl hm'

theorem Covered.sharePage {q source target : Word} {copyOnWrite : Bool} {r : Except Fault Unit}
    (hstep : Yields (PagedMemory.sharePage q source target copyOnWrite) m r m')
    (hcounts : WithinCounts m') :
    Covered m' ∧ ∀ exempt, m.Guarded exempt → m'.Guarded fun pid page => exempt pid page ∨
      copyOnWrite = false ∧ r = .ok () ∧
      (pid = q ∧ page = source ∨ m'.current = some pid ∧ page = target) := by
  rcases bookkeeping_books.sharePage h.books_cover hstep with
    rfl | ⟨cur, d, mp, d', m₂, n, rfl, hc, hd, hm, hsame, hd₂, rfl, hcovers⟩
  · exact ⟨h, fun _ hg => hg.imp fun _ _ _ => .inl⟩
  have hl := location_sharedBy copyOnWrite mp
  have hflag : copyOnWrite = true → ¬ (sharedBy copyOnWrite mp).Open :=
    fun h => h ▸ not_open_sharedBy mp
  generalize sharedBy copyOnWrite mp = shared at hcovers hsame hcounts hl hflag
  have hsource := mappingIn?_some.mpr ⟨d, hd, hm⟩
  have hextent := ((sameExtent_changed m q _).trans hsame.extent).trans
    (sameExtent_changed m₂ cur (·.insert target shared))
  refine ⟨(hcovers hcounts).covered h.layout hextent, fun exempt hg => ?_⟩
  have hview : ∀ q' page, (m₂.changed cur (·.insert target shared)).mappingIn? q' page =
      if (q' = cur ∧ page = target) ∨ (q' = q ∧ page = source) then some shared
      else m.mappingIn? q' page := by
    intro q' page
    rw [mappingIn?_update (f := (·.insert target shared)) rfl hd₂ fun _ => Table.find?_insert ..,
      mappingIn?_congr hsame.processes,
      mappingIn?_update (f := (·.insert source shared)) rfl hd fun _ => Table.find?_insert ..]
    by_cases htarget : q' = cur ∧ page = target <;> simp [htarget]
  intro pid page mp₁ hm₁ hopen hnot
  rw [hview] at hm₁
  by_cases hparty : (pid = cur ∧ page = target) ∨ (pid = q ∧ page = source)
  · -- the two that take part are open only if no flag was asked for, and then they are exempt
    rw [if_pos hparty] at hm₁
    obtain rfl := Option.some.inj hm₁
    have hplain : copyOnWrite = false := Bool.eq_false_iff.mpr fun h => hflag h hopen
    have hcur : (m₂.changed cur (·.insert target shared)).current = some cur :=
      hsame.current.trans hc
    have htarget : pid = cur ∧ page = target →
        (m₂.changed cur (·.insert target shared)).current = some pid ∧ page = target :=
      fun h => ⟨h.1 ▸ hcur, h.2⟩
    exact absurd (.inr ⟨hplain, rfl, hparty.symm.imp_right htarget⟩) hnot
  · rw [if_neg hparty] at hm₁
    have halone := hg pid page mp₁ hm₁ hopen fun he => hnot (.inl he)
    intro q' page' mp' hm' hl'
    rw [hview] at hm'
    split at hm'
    · -- no other page was shared than the source's
      obtain rfl := Option.some.inj hm'
      obtain ⟨rfl, rfl⟩ := halone q source mp hsource (hl.symm.trans hl')
      exact absurd (.inr ⟨rfl, rfl⟩) hparty
    · exact halone q' page' mp' hm' hl'

end

/-! ## Pages that move, and pages that are new -/

theorem Shifts.guarded (h : Shifts place m m') (hcovered : Covered m) (exempt : Word → Word → Prop)
    (hg : m.Guarded exempt) : m'.Guarded exempt := by
  intro pid page mp hm hopen hnot q page' mp' hm' hl
  rw [h.mappings] at hm hm'
  obtain ⟨mp₀, hm₀, rfl⟩ := Option.map_eq_some_iff.mp hm
  obtain ⟨mp₀', hm₀', rfl⟩ := Option.map_eq_some_iff.mp hm'
  have hl₀ := h.apart _ _ (hcovered.refs_of_mappingIn hm₀') (hcovered.refs_of_mappingIn hm₀) hl
  exact hg pid page mp₀ hm₀ hopen hnot q page' mp₀' hm₀' hl₀

theorem Shifts.keepsGuard (h : Shifts place m m') (hcovered : Covered m) : KeepsGuard m m' :=
  ⟨h.covered, h.guarded hcovered⟩

theorem Takes.alone_new (h : Takes pid page frame new m m') : m'.Alone pid page (.frame frame) := by
  intro q page' mp hm hl
  by_contra hne
  rw [h.others q page' hne] at hm
  exact hne (h.alone q page' mp hm hl)

theorem Takes.guarded (h : Takes pid page frame new m m') (exempt : Word → Word → Prop)
    (hg : m.Guarded exempt) : m'.Guarded exempt := by
  intro q page₁ mp₁ hm₁ hopen hnot
  by_cases hself : q = pid ∧ page₁ = page
  · obtain ⟨rfl, rfl⟩ := hself
    obtain rfl := Option.some.inj (h.self.symm.trans hm₁)
    exact h.located ▸ h.alone_new
  · rw [h.others q page₁ hself] at hm₁
    intro q₂ page₂ mp₂ hm₂ hl
    by_cases hself₂ : q₂ = pid ∧ page₂ = page
    · obtain ⟨rfl, rfl⟩ := hself₂
      obtain rfl := Option.some.inj (h.self.symm.trans hm₂)
      exact absurd (h.alone q page₁ mp₁ hm₁ (hl.symm.trans h.located)) hself
    · rw [h.others q₂ page₂ hself₂] at hm₂
      exact hg q page₁ mp₁ hm₁ hopen hnot q₂ page₂ mp₂ hm₂ hl

theorem Covered.takes_new (h : Covered m) (hd : m.processes.find? pid = some d)
    (hm : d.find? page = none) (hfree : m.isFree (.frame frame)) (hl : new.location = .frame frame)
    {ram : Ram} (hb : ram.base = m.ram.base) (hs : ram.size = m.ram.size) :
    Takes pid page frame new m (m.added pid page frame new ram) := by
  have hunused := h.refs_of_isFree hfree
  have hmaps := mappingsOf_added hd hm hl (h.mappingsOf_of_refs hunused) ram
  have hbooks : Books (m.added pid page frame new ram).toPaging _ :=
    (h.books.occupy hfree Nat.one_ne_zero).frame _ _ _ _ _
  have hextent : SameExtent m (m.added pid page frame new ram) := sameExtent_added hb hs
  refine takes_of_update (covered_of_books (h.layout.of_sameExtent hextent) hbooks fun l => ?_)
    hextent (processes_added ram) hd (fun _ => Table.find?_insert ..) hl
    (h.alone_of_unused hunused)
  simp only [hmaps, Function.update_apply]
  split
  · exact Nat.le_refl 1
  · exact h.covers l

theorem Takes.keepsGuard (h : Takes pid page frame new m m') : KeepsGuard m m' :=
  ⟨h.covered, h.guarded⟩

theorem KeepsGuard.trans (h : KeepsGuard m m₁) (h' : KeepsGuard m₁ m') : KeepsGuard m m' :=
  ⟨h'.covered, fun exempt hg => h'.guarded exempt (h.guarded exempt hg)⟩

theorem Covered.newPage (h : Covered m) (hc : m.current = some pid)
    (hd : m.processes.find? pid = some d) (hm : d.find? page = none) {permissions : Permissions}
    {copyOnWrite : Bool} {r : Except Fault Word}
    (hstep : Yields (newPage page permissions copyOnWrite) m r m') : KeepsGuard m m' := by
  obtain ⟨r₀, m₁, htake⟩ := yields_exists (PagedMemory.takeFrame permissions.pool none) m
  obtain ⟨place, m₀, hshifts, -, ⟨e, rfl, rfl⟩ | ⟨frame, rfl, rfl, hfree⟩⟩ :=
    h.takeFrame (pool_ne_disk permissions) htake
  · obtain ⟨-, rfl⟩ := hstep.eq_of_error (bind_error htake)
    exact hshifts.keepsGuard h
  · have h₀ := hshifts.covered
    obtain ⟨d₀, hd₀⟩ :=
      Table.contains_iff.mp ((hshifts.live pid).trans (Table.contains_iff.mpr ⟨d, hd⟩))
    have hm₀ : d₀.find? page = none := by
      have hnone := hshifts.mappings pid page
      rwa [mappingIn?, hd₀, mappingIn?, hd, Option.bind_some, Option.bind_some, hm] at hnone
    have hwrite :=
      Ram.writeFrame_ok h₀.layout.ram
        (h₀.layout.frame_lt (h₀.books.pooled _ _ hfree)) length_zeroPage
    obtain ⟨-, rfl⟩ := hstep.eq_of_ok (newPage_run htake hwrite (hshifts.current.trans hc) hd₀)
    exact (hshifts.keepsGuard h).trans
      (h₀.takes_new hd₀ hm₀ hfree rfl (ByteStore.base_patch ..)
        (ByteStore.size_patch ..)).keepsGuard

theorem Covered.addPage (h : Covered m) {permissions : Permissions} {copyOnWrite : Bool}
    {r : Except Fault Word}
    (hadd : Yields (PagedMemory.addPage page permissions copyOnWrite) m r m') :
    KeepsGuard m m' := by
  rcases hadd.of_outcome_bind with ⟨-, -, hstep⟩ | ⟨-, rfl⟩
  case inr => exact .refl h
  rcases hstep.of_get_bind.of_outcome_bind with ⟨d, hcur, hstep⟩ | ⟨-, rfl⟩
  case inr => exact .refl h
  obtain ⟨pid, hc, hd⟩ := currentDirectory_ok.mp hcur
  cases hmapped : d.contains page with
  | true =>
    rw [hmapped, if_pos rfl] at hstep
    obtain ⟨-, rfl⟩ := hstep.eq_of_error rfl
    exact .refl h
  | false =>
    rw [hmapped, if_neg Bool.false_ne_true] at hstep
    exact h.newPage hc hd (Table.contains_eq_false.mp hmapped) hstep

theorem Covered.pageOut (h : Covered m) {r : Except Fault Unit}
    (hstep : Yields (PagedMemory.pageOut page) m r m') : KeepsGuard m m' := by
  rcases hstep.of_get_bind.of_outcome_bind with ⟨mp, hmp, hstep⟩ | ⟨-, rfl⟩
  case inr => exact .refl h
  obtain ⟨pid, d, -, hd, hmp⟩ := mappingOf_ok hmp
  have hcounted := h.refs_of_mappingIn (mappingIn?_some.mpr ⟨d, hd, hmp⟩)
  cases hl : mp.location with
  | slot slot =>
    rw [hl] at hstep
    obtain ⟨-, rfl⟩ := hstep.of_pure
    exact .refl h
  | frame frame =>
    rw [hl] at hstep hcounted
    obtain ⟨place, hshifts, -⟩ := h.evict hcounted hstep
    exact hshifts.keepsGuard h

variable {access : Access} {privilege : Privilege} {address : Word}

theorem Settles.keepsGuard {r : Except Fault Word} (hs : Settles page access m r m')
    (h : Covered m) : KeepsGuard m m' := by
  cases hs with
  | moved hshifts _ => exact hshifts.keepsGuard h
  | taken hshifts _ _ _ htakes => exact (hshifts.keepsGuard h).trans htakes.keepsGuard

/-! ## Runs -/

def SharesPlainly (e : Event PagedMemory PagingOperation Answer) (pid page : Word) : Prop :=
  ∃ q source target, e.operation = .sharePage q source target false ∧ e.answer = .ok .done ∧
    (pid = q ∧ page = source ∨ e.state.current = some pid ∧ page = target)

/-- The mapping took part in a share without a flag, and has been open since. -/
def SharedOpenly (es : List (Event PagedMemory PagingOperation Answer)) (pid page : Word) : Prop :=
  ∃ front e back, es = front ++ e :: back ∧ SharesPlainly e pid page ∧ ∀ e' ∈ e :: back,
    e'.state.OpenAt pid page

theorem SharedOpenly.snoc {es : List (Event PagedMemory PagingOperation Answer)}
    {e : Event PagedMemory PagingOperation Answer} (hopen : e.state.OpenAt pid page)
    (h : SharedOpenly es pid page ∨ SharesPlainly e pid page) :
    SharedOpenly (es ++ [e]) pid page := by
  rcases h with ⟨front, e₀, back, rfl, hshare, hsince⟩ | hshare
  · refine ⟨front, e₀, back ++ [e], by simp, hshare, fun e' he => ?_⟩
    rcases List.mem_append.mp (List.cons_append ▸ he : e' ∈ (e₀ :: back) ++ [e]) with he | he
    · exact hsince e' he
    · exact List.mem_singleton.mp he ▸ hopen
  · exact ⟨es, e, [], rfl, hshare, fun e' he => List.mem_singleton.mp he ▸ hopen⟩

/-- The books cover the mappings after every operation, and what was guarded still is, but for what
is shared without a flag. -/
theorem Covered.step (h : Covered m) {op : PagingOperation} {r : Except Fault Answer}
    (hstep : op.Step m r m') (hcounts : WithinCounts m') : Covered m' ∧ ∀ exempt, m.Guarded exempt →
      m'.Guarded fun pid page => exempt pid page ∨ SharesPlainly ⟨op, r, m'⟩ pid page := by
  have hkeeps : KeepsGuard m m' → Covered m' ∧ ∀ exempt, m.Guarded exempt →
      m'.Guarded fun pid page => exempt pid page ∨ SharesPlainly ⟨op, r, m'⟩ pid page :=
    fun hk => ⟨hk.covered, fun exempt hg => (hk.guarded exempt hg).imp fun _ _ _ => .inl⟩
  cases op
  all_goals obtain ⟨r', hr, hstep⟩ := hstep.of_map
  case beginProcess => exact hkeeps (h.beginProcess hstep)
  case endProcess =>
    obtain ⟨hcovered, hfewer⟩ := h.endProcess hstep
    exact hkeeps (hfewer.keepsGuard hcovered)
  case switchProcess => exact hkeeps (h.switchProcess hstep)
  case forkProcess => exact hkeeps (h.forkProcess hstep hcounts)
  case addPage => exact hkeeps (h.addPage hstep)
  case removePage =>
    obtain ⟨hcovered, hfewer⟩ := h.removePage hstep
    exact hkeeps (hfewer.keepsGuard hcovered)
  case removeAll =>
    obtain ⟨hcovered, hfewer⟩ := h.removeAll hstep
    exact hkeeps (hfewer.keepsGuard hcovered)
  -- of all operations only a share can leave an open mapping that is not alone
  case sharePage q source target copyOnWrite _ =>
    obtain ⟨hcovered, hguarded⟩ := h.sharePage hstep hcounts
    refine ⟨hcovered, fun exempt hg => (hguarded exempt hg).imp fun pid page _ => Or.imp_right ?_⟩
    rintro ⟨rfl, rfl, hparty⟩
    exact ⟨q, source, target, rfl, hr, hparty⟩
  case pageOut => exact hkeeps (h.pageOut hstep)
  case translate =>
    obtain ⟨_, hresolve⟩ := yields_of_physical hstep
    exact hkeeps ((h.resolve hresolve).keepsGuard h)
  case translatePage =>
    rcases hstep.of_outcome_bind with ⟨-, -, hresolve⟩ | ⟨-, rfl⟩
    · exact hkeeps ((h.resolve hresolve).keepsGuard h)
    · exact hkeeps (.refl h)
  case translateHostWrite =>
    obtain ⟨_, hsettles⟩ := h.translateHostWrite hstep
    exact hkeeps (hsettles.keepsGuard h)

/-- Along a run, an open mapping is the only one of its location unless it was shared openly. -/
theorem Covered.run {es : List (Event PagedMemory PagingOperation Answer)}
    (hrun : Run PagingOperation.Step m es m') :
    ∀ past, Covered m → m.Guarded (SharedOpenly past) → (∀ e ∈ es, WithinCounts e.state) →
      Covered m' ∧ m'.Guarded (SharedOpenly (past ++ es)) := by
  induction hrun with
  | done =>
    intro past h hg _
    exact ⟨h, (List.append_nil past).symm ▸ hg⟩
  | @next m m₁ m' op r es hfirst _ ih =>
    intro past h hg hcounts
    obtain ⟨h₁, hguarded⟩ := h.step hfirst (hcounts _ List.mem_cons_self)
    have hg₁ : m₁.Guarded (SharedOpenly (past ++ [⟨op, r, m₁⟩])) :=
      (hguarded _ hg).imp fun pid page hopen hshared => .snoc hopen hshared
    rw [List.append_cons]
    exact ih _ h₁ hg₁ fun e he => hcounts e (List.mem_cons_of_mem _ he)

end PagedMemory

end PagedMachine

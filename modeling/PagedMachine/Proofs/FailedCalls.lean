import PagedMachine.Proofs.Refusals

/-!
# Calls that fail

A call that manages processes and their pages and then faults leaves everything as it
was, to the last count. Most faults are found before anything has changed. What comes
after the first change gives mappings back or counts new ones, and while the books
agree with the directories neither can fail; an eviction finds its slot before it
moves the page.
-/

namespace PagedMachine

def FaultsInPlace {σ α : Type} (x : EStateM Fault σ α) (s : σ) : Prop :=
  ∀ e s', Yields x s (.error e) s' → s' = s

namespace FaultsInPlace

variable {σ α β : Type} {x y : EStateM Fault σ α} {s s' : σ}

theorem of_ok {a : α} (h : x.run s = .ok a s') : FaultsInPlace x s :=
  fun _ _ hx => nomatch (hx.eq_of_ok h).1

theorem of_error {e : Fault} (h : x.run s = .error e s) : FaultsInPlace x s :=
  fun _ _ hx => (hx.eq_of_error h).2

theorem of_run (h : FaultsInPlace y s) (he : x.run s = y.run s) : FaultsInPlace x s :=
  fun e s' hx => h e s' (hx.of_run he.symm)

theorem get_bind {f : σ → EStateM Fault σ β} (h : FaultsInPlace (f s) s) :
    FaultsInPlace (get >>= f) s :=
  h.of_run (PagedMachine.get_bind f s)

theorem outcome_bind {r : Except Fault α} {f : α → EStateM Fault σ β}
    (h : ∀ a, r = .ok a → FaultsInPlace (f a) s) : FaultsInPlace (outcome r >>= f) s := by
  cases hr : r with
  | ok a => exact (h a hr).of_run (bind_ok rfl)
  | error e => exact .of_error (bind_error rfl)

theorem map {g : α → β} (h : FaultsInPlace x s) : FaultsInPlace (g <$> x) s := by
  intro e s' hx
  obtain ⟨_ | a, hr, hx⟩ := hx.of_map
  · exact h _ s' hx
  · cases hr

end FaultsInPlace

namespace PagedMemory

variable {m m' : PagedMemory}

/-! ## Processes -/

theorem switchProcess_faultsInPlace (m : PagedMemory) (pid : Word) :
    FaultsInPlace (switchProcess pid) m := by
  refine .get_bind ?_
  split
  · exact .of_ok rfl
  · exact .of_error rfl

theorem Consistent.endProcess_faultsInPlace (h : Consistent m) (pid : Word) :
    FaultsInPlace (PagedMemory.endProcess pid) m := by
  refine .get_bind ?_
  cases hd : m.processes.find? pid with
  | none => exact .of_error rfl
  | some d =>
    have hbooks : Books (m.withoutProcess pid).toPaging m.mappingsOf := h.books.frame _ _ _ _ _
    obtain ⟨m', hrun, -, -⟩ := releaseAll_run d.locations hbooks fun l => Table.le_sum hd fun d =>
      d.mappingsOf l
    exact .of_ok hrun

theorem Consistent.forkProcess_faultsInPlace (h : Consistent m) :
    FaultsInPlace PagedMemory.forkProcess m := by
  cases hcur : m.currentDirectory with
  | error e => exact .of_error (bind_error (updateCurrent_error hcur _))
  | ok d =>
    obtain ⟨pid, hc, hd⟩ := currentDirectory_ok.mp hcur
    obtain ⟨child, m', hrun, -⟩ := forkProcess_total h hc hd
    exact .of_ok hrun

/-! ## Mappings -/

theorem Consistent.addPage_faultsInPlace (h : Consistent m) (page : Word)
    (permissions : Permissions) (copyOnWrite : Bool) :
    FaultsInPlace (PagedMemory.addPage page permissions copyOnWrite) m := by
  refine .outcome_bind fun _ _ => .get_bind (.outcome_bind fun d hcur => ?_)
  split
  · exact .of_error rfl
  · rename_i hmapped
    obtain ⟨pid, hc, hd⟩ := currentDirectory_ok.mp hcur
    have hnone : d.find? page = none := Table.contains_eq_false.mp (Bool.eq_false_iff.mpr hmapped)
    rcases h.newPage_exact hc hd hnone permissions copyOnWrite with
      ⟨-, frame, m₀, -, -, -, hrun⟩ | ⟨e, hrun, -⟩
    · exact .of_ok hrun
    · exact .of_error hrun

theorem Consistent.removePage_faultsInPlace (h : Consistent m) (page : Word) :
    FaultsInPlace (PagedMemory.removePage page) m := by
  refine .get_bind (.outcome_bind fun mp hm => ?_)
  obtain ⟨pid, d, hc, hd, hmp⟩ := mappingOf_ok hm
  have hbooks : Books (m.changed pid (·.erase page)).toPaging m.mappingsOf :=
    h.books.frame _ _ _ _ _
  obtain ⟨m', hrun, -, -⟩ := release_run hbooks (mappingsOf_ne_zero hd hmp)
  exact .of_ok ((bind_ok (updateCurrent_run hc hd _)).trans hrun)

theorem Consistent.removeAll_faultsInPlace (h : Consistent m) :
    FaultsInPlace PagedMemory.removeAll m := by
  refine .get_bind (.outcome_bind fun d hcur => ?_)
  obtain ⟨pid, hc, hd⟩ := currentDirectory_ok.mp hcur
  have hbooks : Books (m.changed pid fun _ => .empty).toPaging m.mappingsOf :=
    h.books.frame _ _ _ _ _
  obtain ⟨m', hrun, -, -⟩ := releaseAll_run d.locations hbooks fun l => Table.le_sum hd fun d =>
    d.mappingsOf l
  exact .of_ok ((bind_ok (updateCurrent_run hc hd _)).trans hrun)

/-- The source is flagged when nothing can fail any more. -/
theorem sharePage_faultsInPlace (m : PagedMemory) (q source target : Word) (copyOnWrite : Bool) :
    FaultsInPlace (PagedMemory.sharePage q source target copyOnWrite) m := by
  refine .outcome_bind fun _ _ => .outcome_bind fun _ _ =>
    .get_bind (.outcome_bind fun dc hcur => ?_)
  obtain ⟨cur, hc, hdc⟩ := currentDirectory_ok.mp hcur
  split
  · exact .of_error rfl
  · rename_i ht
    refine .get_bind ?_
    cases hd : m.processes.find? q with
    | none => exact .of_error rfl
    | some d =>
      dsimp only
      cases hm : d.find? source with
      | none => exact .of_error rfl
      | some mp =>
        obtain ⟨d', hd', ht'⟩ := find?_target (sharedBy copyOnWrite mp) hdc
          (Table.contains_eq_false.mp (Bool.eq_false_iff.mpr ht)) hd hm
        obtain ⟨m', hrun, -⟩ :=
          share_total (by exact hc) hd' ht' (l := (sharedBy copyOnWrite mp).location) rfl
        exact .of_ok hrun

theorem Consistent.pageOut_faultsInPlace (h : Consistent m) (page : Word) :
    FaultsInPlace (PagedMemory.pageOut page) m := by
  refine .get_bind (.outcome_bind fun mp hm => ?_)
  obtain ⟨pid, d, hc, hd, hmp⟩ := mappingOf_ok hm
  cases hl : mp.location with
  | slot slot => exact .of_ok rfl
  | frame frame =>
    rcases h.evict (hl ▸ mappingsOf_ne_zero hd hmp) with ⟨slot, m', hrun, -⟩ | ⟨-, hrun⟩
    · exact .of_ok hrun
    · exact .of_error hrun

end PagedMemory

/-! ## Calls in a run -/

def PagingOperation.isTranslation : PagingOperation → Bool
  | translate .. | translatePage .. | translateHostWrite .. => true
  | _ => false

namespace PagedMemory

theorem Consistent.perform_faultsInPlace {m : PagedMemory} (h : Consistent m) {op : PagingOperation}
    (hop : op.isTranslation = false) : FaultsInPlace op.perform m := by
  cases op with
  | beginProcess => exact .map (.of_ok beginProcess_begunNext)
  | endProcess pid => exact (h.endProcess_faultsInPlace pid).map
  | switchProcess pid => exact (switchProcess_faultsInPlace m pid).map
  | forkProcess => exact h.forkProcess_faultsInPlace.map
  | addPage page permissions cow => exact (h.addPage_faultsInPlace page permissions cow).map
  | removePage page => exact (h.removePage_faultsInPlace page).map
  | removeAll => exact h.removeAll_faultsInPlace.map
  | sharePage pid source target cow => exact (sharePage_faultsInPlace m pid source target cow).map
  | pageOut page => exact (h.pageOut_faultsInPlace page).map
  | translate | translatePage | translateHostWrite => cases hop

/-- In every state of a run a call that manages processes or pages and faults has changed nothing at
all. -/
theorem failed_calls_change_nothing {ram : Ram} {disk : Disk} {ranges : PageRanges} {p : Paging}
    {es : List (Event PagedMemory PagingOperation Answer)} {m m' : PagedMemory}
    (hp : Paging.ofDevices ram disk ranges = .ok p) (hdisk : disk.base = 0)
    (hram : ram.base.toNat + ram.size ≤ 2 ^ 32) (hrun : Run PagingOperation.Step ⟨p, ram⟩ es m)
    (hpids : creations es < 2 ^ 32 - 1) (hcounts : ∀ e ∈ es, WithinCounts e.state)
    {op : PagingOperation} (hop : op.isTranslation = false) {e : Fault}
    (hstep : op.Step m (.error e) m') : m' = m := by
  obtain ⟨h, -, -⟩ := housed_of_run hp hdisk hram hrun hpids hcounts
  exact h.perform_faultsInPlace hop e m' hstep

end PagedMemory

namespace OneFrame

open PagedMemory

/-- The new page needs the only frame, and there is no slot for the page that is in it. -/
theorem addPage_changes_nothing :
    ∃ m', (PagingOperation.addPage 0x401 .readOnly false).Step (forked TwoReaders.ram)
    (.error (.resourceExhausted .disk)) m' ∧ m' = forked TwoReaders.ram := by
  have hrun := run TwoReaders.ram TwoReaders.ram_fits.1 TwoReaders.ram_fits.2
  have hpids : creations (events TwoReaders.ram) < 2 ^ 32 - 1 := (by decide : 2 < 2 ^ 32 - 1)
  have hcounts := withinCounts TwoReaders.ram
  have hp : Paging.ofDevices TwoReaders.ram disk ranges = .ok _ := ofDevices rfl TwoReaders.size_ram
  obtain ⟨h, -, -⟩ := housed_of_run hp rfl TwoReaders.ram_fits.1 hrun hpids hcounts
  have hfault : fault? (addPage 0x401 .readOnly false) (forked TwoReaders.ram) =
      some (.resourceExhausted .disk) :=
    h.fault?_addPage 0x401 .readOnly false
  obtain ⟨m', hstep⟩ := fault?_eq_some hfault
  have hcall : (PagingOperation.addPage 0x401 .readOnly false).Step (forked TwoReaders.ram)
      (.error (.resourceExhausted .disk)) m' := map_error hstep
  have hkind : (PagingOperation.addPage 0x401 .readOnly false).isTranslation = false := rfl
  exact ⟨m', hcall,
    failed_calls_change_nothing hp rfl TwoReaders.ram_fits.1 hrun hpids hcounts hkind hcall⟩

end OneFrame

end PagedMachine

import PagedMachine.Proofs.Runs
import PagedMachine.Proofs.Stability

/-!
# Process numbers

Numbers are given away in turn, and after the largest it is the turn of one again.
Nothing but a creation gives one away, and none is looked at before: a new process
takes the place of one that still has its number. All others keep their pages.
-/

namespace PagedMachine.PagedMemory

variable {n : Word} {S : Word → Prop} {m m' : PagedMemory} {pid page : Word}

structure Numbers (n : Word) (S : Word → Prop) (m : PagedMemory) : Prop where
  next : m.nextPid = n
  live : ∀ q, m.processes.contains q → S q

theorem Numbers.same (h : Numbers n S m) (hnext : m'.nextPid = m.nextPid)
    (hlive : ∀ q, m'.processes.contains q → m.processes.contains q) : Numbers n S m' :=
  ⟨hnext.trans h.next, fun q hq => h.live q (hlive q hq)⟩

/-- Nothing but a creation gives a number away. -/
theorem stable_numbers (n : Word) (S : Word → Prop) : Stable (Numbers n S) where
  ram _ _ h _ _ := h.same rfl fun _ => id
  disk _ _ h _ _ := h.same rfl fun _ => id
  pool _ kind _ h _ := by cases kind <;> exact h.same rfl fun _ => id
  books _ _ _ _ _ h := h.same rfl fun _ => id
  processes _ _ _ h hlive := h.same rfl hlive

/-! ## Numbers in turn -/

def turns : Nat := 2 ^ 32 - 1

def numberAt (k : Nat) : Word := UInt32.ofNat (1 + k % turns)

theorem toNat_numberAt (k : Nat) : (numberAt k).toNat = 1 + k % turns := by
  have hlt : k % turns < turns := Nat.mod_lt _ (by decide)
  rw [numberAt, UInt32.toNat_ofNat', Nat.mod_eq_of_lt]
  rw [turns] at *
  omega

theorem numberAt_succ (k : Nat) : numberAfter (numberAt k) = numberAt (k + 1) := by
  have hk := toNat_numberAt k
  have hsucc := toNat_numberAt (k + 1)
  have hadd : (numberAt k + 1).toNat = ((numberAt k).toNat + 1) % 2 ^ 32 := UInt32.toNat_add ..
  rw [turns] at hk hsucc
  apply UInt32.toNat_inj.mp
  rw [hsucc, numberAfter]
  split
  · rename_i hzero
    have hone : (1 : Word).toNat = 1 := rfl
    rw [hzero, hk, UInt32.toNat_zero] at hadd
    omega
  · rename_i hzero
    have hne : (numberAt k + 1).toNat ≠ 0 := fun e => hzero (UInt32.toNat_inj.mp e)
    omega

theorem numberAt_inj {j k : Nat} (hj : j < turns) (hk : k < turns) (h : numberAt j = numberAt k) :
    j = k := by
  have heq := congrArg UInt32.toNat h
  rw [toNat_numberAt, toNat_numberAt, Nat.mod_eq_of_lt hj, Nat.mod_eq_of_lt hk] at heq
  exact Nat.add_left_cancel heq

/-- After `k` processes it is the turn of the next number, and only numbers before it are in use. -/
def Numbered (k : Nat) (m : PagedMemory) : Prop :=
  Numbers (numberAt k) (fun q => ∃ j < k, q = numberAt j) m

theorem Numbered.numbered {k : Nat} (h : Numbered k m) (d : Directory) (current : Option Word) :
    Numbered (k + 1) { m.numbered d with current := current } where
  next := (congrArg numberAfter h.next).trans (numberAt_succ k)
  live q hq := by
    have hq : (m.numbered d).processes.contains q := hq
    rw [PagedMemory.numbered, Table.contains_insert, Bool.or_eq_true, decide_eq_true_eq] at hq
    rcases hq with rfl | hq
    · exact ⟨k, k.lt_succ_self, h.next⟩
    · obtain ⟨j, hj, rfl⟩ := h.live q hq
      exact ⟨j, Nat.lt_succ_of_lt hj, rfl⟩

theorem Numbered.forkProcess {k : Nat} (h : Numbered k m) {r : Except Fault Word}
    (hstep : Yields PagedMemory.forkProcess m r m') :
    Numbered (k + created (r.map .process)) m' := by
  cases hcur : m.currentDirectory with
  | error e =>
    obtain ⟨rfl, rfl⟩ := hstep.eq_of_error (bind_error (updateCurrent_error hcur _))
    exact h
  | ok d =>
    obtain ⟨pid, hc, hd⟩ := currentDirectory_ok.mp hcur
    obtain ⟨m₂, hretain, hsame⟩ :=
      retainAll_total d.protectWritable.locations (m.changed pid (·.protectWritable))
    obtain ⟨rfl, rfl⟩ :=
      hstep.eq_of_ok ((forkProcess_run hc hd hretain).trans (addProcess_numbered _))
    have h₂ : Numbered k m₂ := h.same hsame.nextPid fun q hq => by
      rwa [hsame.processes, changed, Table.contains_update] at hq
    exact h₂.numbered _ m₂.current

theorem Numbered.step {k : Nat} (h : Numbered k m) {op : PagingOperation} {r : Except Fault Answer}
    (hstep : op.Step m r m') : Numbered (k + created r) m' := by
  cases op
  case beginProcess =>
    obtain ⟨r', rfl, hx⟩ := hstep.of_map
    obtain ⟨rfl, rfl⟩ := hx.eq_of_ok beginProcess_begunNext
    exact h.numbered .empty _
  case forkProcess =>
    obtain ⟨r', rfl, hx⟩ := hstep.of_map
    exact h.forkProcess hx
  all_goals
    have hkept : Numbered k m' := (stable_numbers _ _).perform (by nofun) (by nofun) m r m' h hstep
    obtain ⟨r', rfl, -⟩ := hstep.of_map
    cases r' <;> exact hkept

theorem Numbered.run {es : List (Event PagedMemory PagingOperation Answer)}
    (hrun : Run PagingOperation.Step m es m') : ∀ {k}, Numbered k m →
    Numbered (k + creations es) m' := by
  induction hrun with
  | done => exact id
  | @next s s₁ t op r es hfirst _ ih =>
    intro k h
    have hcount : creations (⟨op, r, s₁⟩ :: es) = created r + creations es := rfl
    rw [hcount, ← Nat.add_assoc]
    exact ih (h.step hfirst)

/-! ## Creations -/

def founded (op : PagingOperation) (m : PagedMemory) : Directory :=
  match op, m.currentDirectory with
  | .forkProcess, .ok d => d.protectWritable
  | _, _ => .empty

structure Founds (op : PagingOperation) (pid : Word) (m m' : PagedMemory) : Prop where
  turn : pid = m.nextPid
  own : m'.processes.find? pid = some (founded op m)
  others : ∀ q, q ≠ pid → m'.processes.find? q = (m.processes.find? q).map
    (if op = .forkProcess ∧ m.current = some q then (·.protectWritable) else id)

theorem founds_begin (m : PagedMemory) : Founds .beginProcess m.nextPid m m.begunNext where
  turn := rfl
  own := (Table.find?_insert ..).trans (if_pos rfl)
  others q hq := by
    rw [if_neg (fun h => by cases h.1), Option.map_id]
    exact (Table.find?_insert ..).trans (if_neg hq)

theorem founds_fork (hstep : Yields PagedMemory.forkProcess m (.ok pid) m') :
    Founds .forkProcess pid m m' := by
  cases hcur : m.currentDirectory with
  | error e => cases (hstep.eq_of_error (bind_error (updateCurrent_error hcur _))).1
  | ok d =>
    obtain ⟨cur, hc, hd⟩ := currentDirectory_ok.mp hcur
    obtain ⟨m₂, hretain, hsame⟩ :=
      retainAll_total d.protectWritable.locations (m.changed cur (·.protectWritable))
    obtain ⟨heq, rfl⟩ :=
      hstep.eq_of_ok ((forkProcess_run hc hd hretain).trans (addProcess_numbered _))
    obtain rfl := Except.ok.inj heq
    have hown : founded .forkProcess m = d.protectWritable := by simp only [founded, hcur]
    refine ⟨hsame.nextPid,
      (Table.find?_insert ..).trans ((if_pos rfl).trans (congrArg some hown.symm)), fun q hq => ?_⟩
    rw [numbered, Table.find?_insert, if_neg hq, hsame.processes, changed, Table.find?_update, hc]
    by_cases hqc : q = cur
    · rw [if_pos hqc, if_pos ⟨rfl, congrArg some hqc.symm⟩]
    · rw [if_neg hqc, if_neg fun h => hqc (Option.some.inj h.2).symm, Option.map_id]
      rfl

theorem founds_of_step {op : PagingOperation} (hstep : op.Step m (.ok (.process pid)) m') :
    Founds op pid m m' := by
  cases op
  case beginProcess =>
    obtain ⟨r', hr, hx⟩ := hstep.of_map
    obtain ⟨rfl, rfl⟩ := hx.eq_of_ok beginProcess_begunNext
    cases hr
    exact founds_begin m
  case forkProcess =>
    obtain ⟨_ | q, hr, hx⟩ := hstep.of_map
    · cases hr
    · cases hr
      exact founds_fork hx
  all_goals
    obtain ⟨_ | q, hr, -⟩ := hstep.of_map
    all_goals cases hr

/-- Processes are numbered in turn. The first number of a turn is new as long as no turn is over,
and whoever has the number loses its pages to the new process. All others keep theirs, which a fork
flags for the current process. -/
theorem processes_numbered_in_turn {ram : Ram} {disk : Disk} {ranges : PageRanges} {p : Paging}
    {op : PagingOperation} {es : List (Event PagedMemory PagingOperation Answer)}
    (hp : Paging.ofDevices ram disk ranges = .ok p)
    (hrun : Run PagingOperation.Step ⟨p, ram⟩ es m) (hstep : op.Step m (.ok (.process pid)) m') :
    pid = numberAt (creations es) ∧ (creations es < turns → m.processes.contains pid = false) ∧
    Founds op pid m m' := by
  obtain ⟨-, rfl⟩ := Paging.ofDevices_ok hp
  have hstart : Numbered 0 ⟨Paging.unmapped disk ranges, ram⟩ := ⟨rfl, nofun⟩
  have hnumbered := hstart.run hrun
  rw [Nat.zero_add] at hnumbered
  have hfounds := founds_of_step hstep
  have hpid : pid = numberAt (creations es) := hfounds.turn.trans hnumbered.next
  refine ⟨hpid, fun hlt => Bool.eq_false_iff.mpr fun hlive => ?_, hfounds⟩
  obtain ⟨j, hj, hq⟩ := hnumbered.live pid hlive
  exact Nat.ne_of_lt hj (numberAt_inj (Nat.lt_trans hj hlt) hlt (hq.symm.trans hpid))

end PagedMachine.PagedMemory

/-! ## The number of a process that lives

Two readers, and a process that maps a page and waits until it is the turn of its
number again.
-/

namespace PagedMachine

open PagedMemory TwoReaders

theorem TwoReaders.step_fork (disk : Disk) (ram : Ram) :
    PagingOperation.forkProcess.Step (mapped disk ram) (.ok (.process 2)) (forked disk ram) := rfl

theorem TwoReaders.second_number : 2 = numberAt 1 ∧ (mapped disk ram).processes.contains 2 = false ∧
    Founds .forkProcess 2 (mapped disk ram) (forked disk ram) := by
  obtain ⟨hpid, hnew, hfounds⟩ := processes_numbered_in_turn (ofDevices rfl size_ram disk)
    (run_before disk ram ram_fits.1 ram_fits.2) (step_fork disk ram)
  exact ⟨hpid, hnew (by decide : 1 < turns), hfounds⟩

namespace LastTurn

def passed (m : PagedMemory) : Nat → PagedMemory
  | 0 => m
  | k + 1 => (passed m k).begunNext.withoutProcess (passed m k).nextPid

def events (m : PagedMemory) : Nat → List (Event PagedMemory PagingOperation Answer)
  | 0 => []
  | k + 1 => events m k ++
      [⟨.beginProcess, .ok (.process (passed m k).nextPid), (passed m k).begunNext⟩,
        ⟨.endProcess (passed m k).nextPid, .ok .done, passed m (k + 1)⟩]

variable {m : PagedMemory}

theorem step_begin (m : PagedMemory) :
    PagingOperation.beginProcess.Step m (.ok (.process m.nextPid)) m.begunNext := rfl

theorem step_end (m : PagedMemory) :
    (PagingOperation.endProcess m.nextPid).Step m.begunNext (.ok .done)
    (m.begunNext.withoutProcess m.nextPid) := by
  have hend :
      (endProcess m.nextPid).run m.begunNext = .ok () (m.begunNext.withoutProcess m.nextPid) := by
    have hd : m.begunNext.processes.find? m.nextPid = some .empty := (founds_begin m).own
    rw [endProcess, get_bind, hd]
    rfl
  exact map_ok hend

theorem run_passed (m : PagedMemory) (k : Nat) :
    Run PagingOperation.Step m (events m k) (passed m k) := by
  induction k with
  | zero => exact .done m
  | succ k ih => exact ih.append (.next (step_begin _) (.next (step_end _) (.done _)))

theorem find?_passed (h : Numbered 1 m) (k : Nat) (hk : 1 + k ≤ turns) : Numbered (1 + k)
    (passed m k) ∧ (passed m k).processes.find? (numberAt 0) = m.processes.find? (numberAt 0) := by
  induction k with
  | zero => exact ⟨h, rfl⟩
  | succ k ih =>
    obtain ⟨hnumbered, hfind⟩ := ih (Nat.le_of_succ_le hk)
    refine ⟨(hnumbered.step (step_begin _)).step (step_end _), ?_⟩
    -- it is not yet the first number's turn again
    have hne : numberAt 0 ≠ (passed m k).nextPid := by
      intro heq
      have hlt : 1 + k < turns := hk
      have hzero : 0 = 1 + k := numberAt_inj (Nat.zero_lt_of_lt hlt) hlt (heq.trans hnumbered.next)
      omega
    have hothers := (founds_begin (passed m k)).others _ hne
    rw [if_neg (fun hf => by cases hf.1), Option.map_id] at hothers
    rw [passed, withoutProcess, Table.find?_erase, if_neg hne, hothers, id, hfind]

/-- When all other numbers are given away, the next process gets the first number and the first
process is gone. -/
theorem first_replaced : ∃ k, (passed (mapped disk ram) k).nextPid = 1 ∧
    (passed (mapped disk ram) k).processes.find? 1 = some directory ∧
    (passed (mapped disk ram) k).begunNext.processes.find? 1 = some .empty := by
  obtain ⟨k, hk⟩ : ∃ k, 1 + k = turns := ⟨turns - 1, by decide⟩
  have hstart : Numbered 0 (start disk ram) := ⟨rfl, nofun⟩
  have hmapped : Numbered 1 (mapped disk ram) :=
    hstart.run (run_before disk ram ram_fits.1 ram_fits.2)
  obtain ⟨hnumbered, hfind⟩ := find?_passed hmapped k (Nat.le_of_eq hk)
  have hnext : (passed (mapped disk ram) k).nextPid = 1 := by
    rw [hnumbered.next, hk, numberAt, Nat.mod_self]
    rfl
  refine ⟨k, hnext, hfind, ?_⟩
  have hown := (founds_begin (passed (mapped disk ram) k)).own
  rw [hnext] at hown
  exact hown

/-- It is not so that a new process has a number that was free and that all others keep their
pages. -/
theorem live_process_replaced : ¬ ∀ (ram : Ram) (disk : Disk) (ranges : PageRanges) (p : Paging)
    (es : List (Event PagedMemory PagingOperation Answer)) (m m' : PagedMemory) (pid : Word),
    Paging.ofDevices ram disk ranges = .ok p → Run PagingOperation.Step ⟨p, ram⟩ es m →
    PagingOperation.beginProcess.Step m (.ok (.process pid)) m' → m.processes.contains pid = false ∧
      ∀ q d, m.processes.find? q = some d → m'.processes.find? q = some d := by
  intro hunique
  obtain ⟨k, -, hfirst, hreplaced⟩ := first_replaced
  have hrun := (run_before disk ram ram_fits.1 ram_fits.2).append (run_passed (mapped disk ram) k)
  have hkept :=
    (hunique ram disk ranges _ _ _ _ _ (ofDevices rfl size_ram disk) hrun (step_begin _)).2 1
      directory hfirst
  rw [hreplaced] at hkept
  cases hkept

end LastTurn

end PagedMachine

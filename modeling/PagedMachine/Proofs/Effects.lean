import PagedMachine.Proofs.Consistency
import PagedMachine.Proofs.Copies

/-!
# What an operation changes

Every operation on virtual memory either faults and changes nothing, or has one
effect, which its arguments and the memory determine. Transfers and host stores
are the operations of the bus that reach the pages.
-/

namespace PagedMachine.Virtual

inductive Effect (v : Memory) : PagingOperation → Answer → Memory → Prop
  | beginProcess :
      Effect v .beginProcess (.process v.nextPid)
        { v.withProcess .empty with current := some v.nextPid }
  | endProcess (pid : Word) :
      Effect v (.endProcess pid) .done
        { v with
          processes := v.processes.erase pid
          current := if v.current = some pid then none else v.current }
  | switchProcess (pid : Word) : Effect v (.switchProcess pid) .done { v with current := some pid }
  | forkProcess {pid : Word} {d : Directory} :
      v.current = some pid → v.processes.find? pid = some d →
      Effect v .forkProcess (.process v.nextPid)
        ((v.changed pid (·.protectWritable)).withProcess d.protectWritable)
  | addPage {pid page : Word} {d : Directory} (permissions : Permissions) (copyOnWrite : Bool) :
      v.current = some pid → v.processes.find? pid = some d → d.find? page = none →
      Effect v (.addPage page permissions copyOnWrite) .done
        { v.changed pid (·.insert page ⟨v.nextPage, permissions, copyOnWrite⟩) with
          contents := Function.update v.contents v.nextPage fun _ => 0
          nextPage := v.nextPage + 1 }
  | removePage {pid : Word} (page : Word) :
      v.current = some pid → Effect v (.removePage page) .done (v.changed pid (·.erase page))
  | removeAll {pid : Word} : v.current = some pid →
      Effect v .removeAll .done (v.changed pid fun _ => .empty)
  | sharePage {pid q source target : Word} {d : Directory} {m : Mapping} (copyOnWrite : Bool) :
      v.current = some pid → v.processes.find? pid = some d → v.mapping? q source = some m →
      d.find? target = none →
      Effect v (.sharePage q source target copyOnWrite) .done
        ((v.changed q (·.insert source (sharedBy copyOnWrite m))).changed pid
          (·.insert target (sharedBy copyOnWrite m)))
  | pageOut (page : Word) : Effect v (.pageOut page) .done v
  | resolve {page : Word} {m : Mapping} (op : PagingOperation) (access : Access) :
      v.find? page = some m → Effect v op .done (v.resolved page m access)

variable {v v' : Memory} {r : Except Fault Answer}

theorem Memory.currentDirectory_ok {d : Directory} (h : v.currentDirectory = .ok d) :
    ∃ pid, v.current = some pid ∧ v.processes.find? pid = some d := by
  unfold currentDirectory at h
  cases hc : v.current with
  | none => simp [hc] at h
  | some pid =>
    cases hd : v.processes.find? pid with
    | none => simp [hc, hd] at h
    | some d' =>
      simp only [hc, hd, Except.ok.injEq] at h
      exact ⟨pid, rfl, by rw [hd, h]⟩

theorem allows_currentDirectory {α : Type} {f : Directory → Behaviour Memory α} {r : Except Fault α}
    (h : (Behaviour.result v.currentDirectory >>= f).allows v r v') :
    (∃ pid d, v.current = some pid ∧ v.processes.find? pid = some d ∧ (f d).allows v r v') ∨
      ∃ e, r = .error e ∧ Ordinary e ∧ v' = v := by
  cases hd : v.currentDirectory with
  | error e =>
    rw [hd] at h
    obtain ⟨hr, hv⟩ := Behaviour.allows_error_bind.mp h
    exact .inr ⟨e, hr, Memory.ordinary_of_currentDirectory hd, hv⟩
  | ok d =>
    rw [hd] at h
    obtain ⟨pid, hc, hp⟩ := Memory.currentDirectory_ok hd
    exact .inl ⟨pid, d, hc, hp, Behaviour.allows_ok_bind.mp h⟩

theorem ordinary_of_checkPage {page : Word} {e : Fault} (h : Paging.checkPage page = .error e) :
    Ordinary e := by
  rw [PagedMemory.checkPage_error h]
  exact nofun

theorem allows_checkPage {α : Type} {page : Word} {f : Unit → Behaviour Memory α}
    {r : Except Fault α} (h : (Behaviour.result (Paging.checkPage page) >>= f).allows v r v') :
    (f ()).allows v r v' ∨ ∃ e, r = .error e ∧ Ordinary e ∧ v' = v := by
  cases hp : Paging.checkPage page with
  | error e =>
    rw [hp] at h
    obtain ⟨hr, hv⟩ := Behaviour.allows_error_bind.mp h
    exact .inr ⟨e, hr, ordinary_of_checkPage hp, hv⟩
  | ok u =>
    rw [hp] at h
    exact .inl (Behaviour.allows_ok_bind.mp h)

theorem Memory.mappingOf_cases (v : Memory) (page : Word) :
    (∃ pid m, v.current = some pid ∧ v.mappingOf page = .ok m) ∨ ∃ e, v.mappingOf page = .error e ∧
    Ordinary e := by
  unfold Memory.mappingOf
  cases hp : Paging.checkPage page with
  | error e => exact .inr ⟨e, rfl, ordinary_of_checkPage hp⟩
  | ok u =>
    cases hd : v.currentDirectory with
    | error e => exact .inr ⟨e, rfl, ordinary_of_currentDirectory hd⟩
    | ok d =>
      obtain ⟨pid, hc, -⟩ := currentDirectory_ok hd
      simp only [bind, Except.bind]
      cases d.find? page with
      | none => exact .inr ⟨_, rfl, by simp [Fault.kind]⟩
      | some m => exact .inl ⟨pid, m, hc, rfl⟩

theorem allows_mappingOf {α : Type} {page : Word} {f : Mapping → Behaviour Memory α}
    {r : Except Fault α} (h : (Behaviour.result (v.mappingOf page) >>= f).allows v r v') :
    (∃ pid m, v.current = some pid ∧ (f m).allows v r v') ∨
    ∃ e, r = .error e ∧ Ordinary e ∧ v' = v := by
  rcases v.mappingOf_cases page with ⟨pid, m, hc, hm⟩ | ⟨e, he, hordinary⟩
  · rw [hm] at h
    exact .inl ⟨pid, m, hc, Behaviour.allows_ok_bind.mp h⟩
  · rw [he] at h
    obtain ⟨hr, hv⟩ := Behaviour.allows_error_bind.mp h
    exact .inr ⟨e, hr, hordinary, hv⟩

theorem addPage_allows {page : Word} {permissions : Permissions} {copyOnWrite : Bool}
    {r : Except Fault Unit} (h : (addPage page permissions copyOnWrite).allows v r v') :
    (r = .ok () ∧ Effect v (.addPage page permissions copyOnWrite) .done v') ∨
      ∃ e, r = .error e ∧ Ordinary e ∧ v' = v := by
  rcases allows_checkPage h with h | hfault
  · rcases allows_currentDirectory (Behaviour.allows_get_bind.mp h) with
      ⟨pid, d, hc, hd, h⟩ | hfault
    · cases hp : d.contains page with
      | true =>
        rw [hp] at h
        obtain ⟨hr, hv⟩ := Behaviour.allows_fault_bind.mp h
        exact .inr ⟨_, hr, by simp [Fault.kind], hv⟩
      | false =>
        rw [hp] at h
        rcases Behaviour.allows_claim_bind.mp h with h | ⟨pool, hr, hv⟩
        · obtain ⟨hr, hv⟩ := Behaviour.allows_modify.mp h
          rw [Memory.updateCurrent_eq hc] at hv
          exact .inl
            ⟨hr, hv ▸ .addPage permissions copyOnWrite hc hd (Table.contains_eq_false.mp hp)⟩
        · exact .inr ⟨_, hr, by simp [Fault.kind], hv⟩
    · exact .inr hfault
  · exact .inr hfault

theorem sharePage_allows {q source target : Word} {copyOnWrite : Bool} {r : Except Fault Unit}
    (h : (sharePage q source target copyOnWrite).allows v r v') :
    (r = .ok () ∧ Effect v (.sharePage q source target copyOnWrite) .done v') ∨
      ∃ e, r = .error e ∧ Ordinary e ∧ v' = v := by
  rcases allows_checkPage h with h | hfault
  · rcases allows_checkPage h with h | hfault
    · rcases allows_currentDirectory (Behaviour.allows_get_bind.mp h) with
        ⟨pid, dc, hc, hdc, h⟩ | hfault
      · cases ht : dc.contains target with
        | true =>
          rw [ht] at h
          obtain ⟨hr, hv⟩ := Behaviour.allows_fault_bind.mp h
          exact .inr ⟨_, hr, by simp [Fault.kind], hv⟩
        | false =>
          rw [ht] at h
          replace h := Behaviour.allows_get_bind.mp h
          cases hd : v.processes.find? q with
          | none =>
            rw [hd] at h
            exact .inr ⟨_, h.1, by simp [Fault.kind], h.2⟩
          | some d =>
            rw [hd] at h
            dsimp only at h
            cases hm : d.find? source with
            | none =>
              rw [hm] at h
              exact .inr ⟨_, h.1, by simp [Fault.kind], h.2⟩
            | some m =>
              rw [hm] at h
              obtain ⟨hr, hv⟩ := Behaviour.allows_modify.mp (Behaviour.allows_modify_bind.mp h)
              have hc' :
                  (v.changed q (·.insert source (sharedBy copyOnWrite m))).current = some pid := hc
              rw [Memory.updateCurrent_eq hc'] at hv
              have hsource : v.mapping? q source = some m := Memory.mapping?_some.mpr ⟨d, hd, hm⟩
              exact .inl
                ⟨hr, hv ▸ .sharePage copyOnWrite hc hdc hsource (Table.contains_eq_false.mp ht)⟩
      · exact .inr hfault
    · exact .inr hfault
  · exact .inr hfault

/-- An operation has its effect, or it faults and nothing happens. -/
theorem perform_allows {op : PagingOperation} (h : (perform op).allows v r v') :
    (∃ a, r = .ok a ∧ Effect v op a v') ∨ ∃ e, r = .error e ∧ Ordinary e ∧ v' = v := by
  cases op
  -- every operation wraps the answer of its action, so the cases are about the action alone
  all_goals obtain ⟨r₀, rfl, hx⟩ := Behaviour.allows_map.mp h
  case beginProcess =>
    simp only [beginProcess, addProcess, Behaviour.allows_modifyGet_bind,
      Behaviour.allows_modify_bind, Behaviour.allows_pure] at hx
    obtain ⟨rfl, rfl⟩ := hx
    exact .inl ⟨_, rfl, .beginProcess⟩
  case endProcess pid =>
    replace hx := Behaviour.allows_get_bind.mp hx
    split at hx
    · obtain ⟨rfl, rfl⟩ := Behaviour.allows_modify.mp hx
      exact .inl ⟨_, rfl, .endProcess pid⟩
    · obtain ⟨rfl, rfl⟩ := hx
      exact .inr ⟨_, rfl, by simp [Fault.kind], rfl⟩
  case switchProcess pid =>
    replace hx := Behaviour.allows_get_bind.mp hx
    split at hx
    · obtain ⟨rfl, rfl⟩ := Behaviour.allows_modify.mp hx
      exact .inl ⟨_, rfl, .switchProcess pid⟩
    · obtain ⟨rfl, rfl⟩ := hx
      exact .inr ⟨_, rfl, by simp [Fault.kind], rfl⟩
  case forkProcess =>
    rcases allows_currentDirectory (Behaviour.allows_get_bind.mp hx) with
      ⟨pid, d, hc, hd, hx⟩ | ⟨e, rfl, he, rfl⟩
    · obtain ⟨rfl, rfl⟩ := Behaviour.allows_modifyGet.mp (Behaviour.allows_modify_bind.mp hx)
      rw [Memory.updateCurrent_eq hc]
      exact .inl ⟨_, rfl, .forkProcess hc hd⟩
    · exact .inr ⟨e, rfl, he, rfl⟩
  case addPage page permissions copyOnWrite =>
    rcases addPage_allows hx with ⟨rfl, heffect⟩ | ⟨e, rfl, he, rfl⟩
    · exact .inl ⟨_, rfl, heffect⟩
    · exact .inr ⟨e, rfl, he, rfl⟩
  case removePage page =>
    rcases allows_mappingOf (Behaviour.allows_get_bind.mp hx) with
      ⟨pid, m, hc, hx⟩ | ⟨e, rfl, he, rfl⟩
    · obtain ⟨rfl, rfl⟩ := Behaviour.allows_modify.mp hx
      rw [Memory.updateCurrent_eq hc]
      exact .inl ⟨_, rfl, .removePage page hc⟩
    · exact .inr ⟨e, rfl, he, rfl⟩
  case removeAll =>
    rcases allows_currentDirectory (Behaviour.allows_get_bind.mp hx) with
      ⟨pid, d, hc, hd, hx⟩ | ⟨e, rfl, he, rfl⟩
    · obtain ⟨rfl, rfl⟩ := Behaviour.allows_modify.mp hx
      rw [Memory.updateCurrent_eq hc]
      exact .inl ⟨_, rfl, .removeAll hc⟩
    · exact .inr ⟨e, rfl, he, rfl⟩
  case sharePage q source target copyOnWrite =>
    rcases sharePage_allows hx with ⟨rfl, heffect⟩ | ⟨e, rfl, he, rfl⟩
    · exact .inl ⟨_, rfl, heffect⟩
    · exact .inr ⟨e, rfl, he, rfl⟩
  case pageOut page =>
    rcases allows_mappingOf (Behaviour.allows_get_bind.mp hx) with
      ⟨pid, m, hc, hx⟩ | ⟨e, rfl, he, rfl⟩
    · obtain ⟨rfl, rfl | ⟨pool, rfl⟩⟩ := Behaviour.allows_claim.mp hx
      · exact .inl ⟨_, rfl, .pageOut page⟩
      · exact .inr ⟨_, rfl, by simp [Fault.kind], rfl⟩
    · exact .inr ⟨e, rfl, he, rfl⟩
  case translate address access privilege =>
    rcases resolve_allows hx with ⟨m, hm, -, rfl, rfl⟩ | ⟨e, rfl, he, rfl⟩
    · exact .inl ⟨_, rfl, .resolve _ access hm⟩
    · exact .inr ⟨e, rfl, he, rfl⟩
  case translatePage page access privilege =>
    rcases allows_checkPage hx with hx | ⟨e, rfl, he, rfl⟩
    · rcases resolve_allows hx with ⟨m, hm, -, rfl, rfl⟩ | ⟨e, rfl, he, rfl⟩
      · exact .inl ⟨_, rfl, .resolve _ access hm⟩
      · exact .inr ⟨e, rfl, he, rfl⟩
    · exact .inr ⟨e, rfl, he, rfl⟩
  case translateHostWrite address =>
    rcases resolveHostWrite_allows hx with ⟨m, hm, rfl, rfl⟩ | ⟨e, rfl, he, rfl⟩
    · exact .inl ⟨_, rfl, .resolve _ .write hm⟩
    · exact .inr ⟨e, rfl, he, rfl⟩

/-! ## The next number -/

theorem Privatised.nextPid (h : Privatised v v') : v'.nextPid = v.nextPid := by
  induction h with
  | refl => rfl
  | next hm _ ih => exact ih.trans (Memory.nextPid_privatise _ _ _)

/-- Whoever makes a process takes the next number. -/
theorem Effect.nextPid {op : PagingOperation} {a : Answer} (h : Effect v op a v') :
    v'.nextPid = v.nextPid + UInt32.ofNat (created (.ok a)) := by
  cases h with
  | beginProcess => rfl
  | forkProcess => rfl
  | resolve _ access hm =>
    exact (Memory.privatised_resolved hm access).nextPid.trans (UInt32.add_zero _).symm
  | _ => exact (UInt32.add_zero _).symm

end PagedMachine.Virtual

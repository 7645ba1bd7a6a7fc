import PagedMachine.Proofs.Isolation

/-!
# Sharing

Writable pages that are mapped twice stay flagged under forks, guarded shares and
every other operation. A process keeps its bytes until it gives up the mapping,
and a child begins with those of its parent.
-/

namespace PagedMachine.Virtual

section
variable {v v' : Memory} {pid page : Word} {d : Directory} {op : PagingOperation} {a : Answer}

namespace Memory

theorem mapping?_updated (pid : Word) (f : Directory → Directory) (q page : Word) :
    (v.changed pid f).mapping? q page =
      if q = pid then (v.processes.find? pid).bind fun d =>
        (f d).find? page else v.mapping? q page := by
  unfold mapping? changed
  dsimp only
  rw [Table.find?_update]
  by_cases hq : q = pid
  · rw [if_pos hq, if_pos hq, hq, Option.bind_map]
    rfl
  · rw [if_neg hq, if_neg hq]

theorem mapping?_changed (hd : v.processes.find? pid = some d) (f : Directory → Directory)
    (q page : Word) : (v.changed pid f).mapping? q page =
      if q = pid then (f d).find? page else v.mapping? q page := by
  rw [mapping?_updated, hd, Option.bind_some]

theorem mapping?_removed (pid page q page' : Word) :
    (v.changed pid (·.erase page)).mapping? q page' =
      if q = pid ∧ page' = page then none else v.mapping? q page' := by
  rw [mapping?_updated]
  by_cases hq : q = pid
  · subst hq
    simp only [Table.find?_erase, true_and, if_true]
    split
    · exact Option.bind_fun_none _
    · rfl
  · rw [if_neg hq, if_neg fun h => hq h.1]

theorem mapping?_emptied (pid q page : Word) :
    (v.changed pid fun _ => .empty).mapping? q page =
      if q = pid then none else v.mapping? q page := by
  rw [mapping?_updated]
  split
  · exact Option.bind_fun_none _
  · rfl

theorem mapping?_ended (pid : Word) (current : Option Word) (q page : Word) :
    { v with processes := v.processes.erase pid, current := current }.mapping? q page =
      if q = pid then none else v.mapping? q page := by
  unfold mapping?
  rw [Table.find?_erase]
  split <;> rfl

theorem mapping?_withProcess (d : Directory) (q page : Word) :
    (v.withProcess d).mapping? q page =
      if q = v.nextPid then d.find? page else v.mapping? q page := by
  unfold mapping? withProcess
  dsimp only
  rw [Table.find?_insert]
  by_cases hq : q = v.nextPid
  · rw [if_pos hq, if_pos hq]
    rfl
  · rw [if_neg hq, if_neg hq]

theorem Guarded.of_submap (hg : v.Guarded)
    (h : ∀ q page m, v'.mapping? q page = some m → v.mapping? q page = some m) : v'.Guarded :=
  fun q page m hm hwrite hflag q' page' m' hm' he =>
    hg q page m (h q page m hm) hwrite hflag q' page' m' (h q' page' m' hm') he

end Memory

def protect (m : Mapping) : Mapping :=
  if m.permissions.write then { m with copyOnWrite := true } else m

theorem find?_protectWritable (d : Directory) (page : Word) :
    d.protectWritable.find? page = (d.find? page).map protect :=
  Table.find?_map ..

theorem page_protect (m : Mapping) : (protect m).page = m.page := by
  unfold protect
  split <;> rfl

theorem copyOnWrite_protect {m : Mapping} (h : (protect m).permissions.write) :
    (protect m).copyOnWrite := by
  unfold protect at h ⊢
  split
  · rfl
  · rename_i hw
    rw [if_neg hw] at h
    exact absurd h hw

section
variable (hc : v.current = some pid) (hd : v.processes.find? pid = some d)
include hd

/-- The mappings after a fork: protected in the process and in its child, else as they were. -/
theorem mapping?_fork (q page : Word) :
    ((v.changed pid (·.protectWritable)).withProcess d.protectWritable).mapping? q page =
      if q = v.nextPid ∨ q = pid then (d.find? page).map protect else v.mapping? q page := by
  rw [Memory.mapping?_withProcess]
  change (if q = v.nextPid then _ else _) = _
  by_cases hq : q = v.nextPid
  · rw [if_pos hq, if_pos (.inl hq), find?_protectWritable]
  · rw [if_neg hq, Memory.mapping?_changed hd]
    by_cases hp : q = pid
    · rw [if_pos hp, if_pos (.inr hp), find?_protectWritable]
    · rw [if_neg hp, if_neg (by simp [hq, hp])]

theorem guarded_fork (hg : v.Guarded) :
    ((v.changed pid (·.protectWritable)).withProcess d.protectWritable).Guarded := by
  intro q page m hm hwrite hflag q' page' m' hm' he
  rw [mapping?_fork hd] at hm hm'
  split at hm
  · obtain ⟨m₀, -, rfl⟩ := Option.map_eq_some_iff.mp hm
    exact absurd (copyOnWrite_protect hwrite) hflag
  · rename_i hq
    have ha := hg q page m hm hwrite hflag
    split at hm'
    · obtain ⟨m₀, hm₀, rfl⟩ := Option.map_eq_some_iff.mp hm'
      have hsource : v.mapping? pid page' = some m₀ := Memory.mapping?_some.mpr ⟨d, hd, hm₀⟩
      exact absurd (ha pid page' m₀ hsource (page_protect m₀ ▸ he)).1 fun h => hq (.inr h.symm)
    · exact ha q' page' m' hm' he

end

theorem copyOnWrite_sharedBy {m : Mapping} (h : (sharedBy true m).permissions.write) :
    (sharedBy true m).copyOnWrite := by
  unfold sharedBy at h ⊢
  split
  · rfl
  · rename_i hw
    rw [if_neg hw] at h
    exact absurd ⟨rfl, h⟩ hw

theorem page_sharedBy (copyOnWrite : Bool) (m : Mapping) :
    (sharedBy copyOnWrite m).page = m.page := by
  unfold sharedBy
  split <;> rfl

section
variable {q source target : Word} {m : Mapping} {s : Mapping} (hd : v.processes.find? pid = some d)
  (hm : v.mapping? q source = some m)
include hd hm

/-- The mappings after a share: one more, and the shared one in its new form. -/
theorem mapping?_share (q' page : Word) :
    ((v.changed q (·.insert source s)).changed pid (·.insert target s)).mapping? q' page =
      if q' = q ∧ page = source ∨ q' = pid ∧ page = target then some s else v.mapping? q' page := by
  obtain ⟨dq, hdq, hmq⟩ := Memory.mapping?_some.mp hm
  have hfirst : ∀ q' page, (v.changed q (·.insert source s)).mapping? q' page =
      if q' = q ∧ page = source then some s else v.mapping? q' page := by
    intro q' page
    rw [Memory.mapping?_changed hdq]
    by_cases hq : q' = q
    · subst hq
      rw [if_pos rfl, Table.find?_insert, Memory.mapping?, hdq, Option.bind_some]
      by_cases hp : page = source <;> simp [hp]
    · rw [if_neg hq, if_neg fun h => hq h.1]
  obtain ⟨d', hd'⟩ : ∃ d', (v.changed q (·.insert source s)).processes.find? pid = some d' := by
    rw [Memory.changed, Table.find?_update]
    split
    · rw [hd]
      exact ⟨_, rfl⟩
    · exact ⟨d, hd⟩
  -- the current process may be the one that shares, so the target is read after the first change
  have hd'' : ∀ page, d'.find? page = (v.changed q (·.insert source s)).mapping? pid page := by
    intro page
    rw [Memory.mapping?, hd', Option.bind_some]
  rw [Memory.mapping?_changed hd', Table.find?_insert, hd'', hfirst, hfirst]
  by_cases hq : q' = pid
  · subst hq
    by_cases hp : page = target <;> simp [hp]
  · rw [if_neg hq]
    by_cases hp : q' = q ∧ page = source <;> simp [hp, hq]

/-- A guarded share flags what it shares, and who else mapped it was flagged before. -/
theorem guarded_share (hg : v.Guarded) :
    ((v.changed q (·.insert source (sharedBy true m))).changed pid
      (·.insert target (sharedBy true m))).Guarded := by
  intro q₁ page₁ m₁ hm₁ hwrite hflag q₂ page₂ m₂ hm₂ he
  rw [mapping?_share hd hm] at hm₁ hm₂
  split at hm₁
  · obtain rfl := Option.some.inj hm₁
    exact absurd (copyOnWrite_sharedBy hwrite) hflag
  · rename_i hne
    have ha := hg q₁ page₁ m₁ hm₁ hwrite hflag
    split at hm₂
    · obtain rfl := Option.some.inj hm₂
      have hsource := ha q source m hm (page_sharedBy true m ▸ he)
      exact absurd (.inl ⟨hsource.1.symm, hsource.2.symm⟩) hne
    · exact ha q₂ page₂ m₂ hm₂ he

end

def Memory.withPage (v : Memory) (pid page : Word) (permissions : Permissions)
    (copyOnWrite : Bool) : Memory :=
  { v.changed pid (·.insert page ⟨v.nextPage, permissions, copyOnWrite⟩) with
    contents := Function.update v.contents v.nextPage fun _ => 0
    nextPage := v.nextPage + 1 }

theorem mapping?_withPage (hd : v.processes.find? pid = some d) (permissions : Permissions)
    (copyOnWrite : Bool) (q page' : Word) :
    (v.withPage pid page permissions copyOnWrite).mapping? q page' =
      if q = pid ∧ page' = page then some ⟨v.nextPage, permissions, copyOnWrite⟩
      else v.mapping? q page' := by
  change (v.changed pid _).mapping? q page' = _
  rw [Memory.mapping?_changed hd, Table.find?_insert]
  by_cases hq : q = pid
  · subst hq
    rw [if_pos rfl, Memory.mapping?, hd, Option.bind_some]
    by_cases hp : page' = page <;> simp [hp]
  · rw [if_neg hq, if_neg fun h => hq h.1]

theorem guarded_withPage (hd : v.processes.find? pid = some d) (hf : v.Fresh) (hg : v.Guarded)
    (permissions : Permissions) (copyOnWrite : Bool) :
    (v.withPage pid page permissions copyOnWrite).Guarded := by
  intro q₁ page₁ m₁ hm₁ hwrite hflag q₂ page₂ m₂ hm₂ he
  rw [mapping?_withPage hd] at hm₁ hm₂
  split at hm₁
  · rename_i hpos
    obtain rfl := Option.some.inj hm₁
    split at hm₂
    · rename_i hpos₂
      exact ⟨hpos₂.1.trans hpos.1.symm, hpos₂.2.trans hpos.2.symm⟩
    · exact absurd he (Nat.ne_of_lt (hf _ _ _ hm₂))
  · split at hm₂
    · obtain rfl := Option.some.inj hm₂
      exact absurd he.symm (Nat.ne_of_lt (hf _ _ _ hm₁))
    · exact hg q₁ page₁ m₁ hm₁ hwrite hflag q₂ page₂ m₂ hm₂ he

/-- The only way to map a writable page twice without a flag. -/
def Unguarded (op : PagingOperation) : Prop :=
  ∃ pid source target, op = .sharePage pid source target false

/-- No other operation maps a writable page twice without a flag. -/
theorem Effect.guarded (h : Effect v op a v') (hf : v.Fresh) (hop : ¬ Unguarded op)
    (hg : v.Guarded) : v'.Guarded := by
  cases h with
  | beginProcess =>
    refine hg.of_submap fun q page m hm => ?_
    change (v.withProcess .empty).mapping? q page = some m at hm
    rw [Memory.mapping?_withProcess] at hm
    exact (Option.ite_none_left_eq_some.mp hm).2
  | endProcess pid =>
    refine hg.of_submap fun q page m hm => ?_
    rw [Memory.mapping?_ended] at hm
    exact (Option.ite_none_left_eq_some.mp hm).2
  | switchProcess => exact hg
  | forkProcess _ hd => exact guarded_fork hd hg
  | addPage permissions copyOnWrite _ hd _ =>
    exact guarded_withPage hd hf hg permissions copyOnWrite
  | removePage =>
    refine hg.of_submap fun q page m hm => ?_
    rw [Memory.mapping?_removed] at hm
    exact (Option.ite_none_left_eq_some.mp hm).2
  | removeAll =>
    refine hg.of_submap fun q page m hm => ?_
    rw [Memory.mapping?_emptied] at hm
    exact (Option.ite_none_left_eq_some.mp hm).2
  | @sharePage pid q source target d m copyOnWrite hc hd hm ht =>
    cases copyOnWrite with
    | false => exact absurd ⟨q, source, target, rfl⟩ hop
    | true => exact guarded_share hd hm hg
  | pageOut => exact hg
  | resolve _ access hm => exact ((Memory.privatised_resolved hm access).unseen hf).guarded hg

/-! ## What a process keeps -/

variable {q address : Word} {x : UInt8}

theorem Memory.byte?_some : v.byte? q address = some x ↔
    ∃ m, v.mapping? q address.page = some m ∧ v.contents m.page (offset address) = x := by
  unfold byte?
  exact Option.map_eq_some_iff

theorem Memory.byte?_kept (hb : v.byte? q address = some x)
    (hkeep : ∀ m, v.mapping? q address.page = some m →
      ∃ m', v'.mapping? q address.page = some m' ∧ v'.contents m'.page = v.contents m.page) :
    v'.byte? q address = some x := by
  obtain ⟨m, hm, hx⟩ := byte?_some.mp hb
  obtain ⟨m', hm', hcontents⟩ := hkeep m hm
  exact byte?_some.mpr ⟨m', hm', hcontents ▸ hx⟩

theorem byte?_fork (hd : v.processes.find? pid = some d) (hq : q ≠ v.nextPid)
    (hb : v.byte? q address = some x) :
    ((v.changed pid (·.protectWritable)).withProcess d.protectWritable).byte? q address =
    some x := by
  refine Memory.byte?_kept hb fun m hm => ?_
  rw [mapping?_fork hd]
  by_cases hp : q = pid
  · subst hp
    rw [Memory.mapping?, hd, Option.bind_some] at hm
    exact ⟨protect m,
      by rw [if_pos (.inr rfl), hm, Option.map_some], congrArg v.contents (page_protect m)⟩
  · exact ⟨m, by rw [if_neg (by simp [hq, hp]), hm], rfl⟩

theorem byte?_share {q' source target : Word} {s : Mapping} {copyOnWrite : Bool}
    (hd : v.processes.find? pid = some d) (hs : v.mapping? q' source = some s)
    (ht : d.find? target = none) (hb : v.byte? q address = some x) :
    ((v.changed q' (·.insert source (sharedBy copyOnWrite s))).changed pid
      (·.insert target (sharedBy copyOnWrite s))).byte? q address = some x := by
  refine Memory.byte?_kept hb fun m hm => ?_
  rw [mapping?_share hd hs]
  by_cases hsource : q = q' ∧ address.page = source
  · obtain rfl : m = s := Option.some.inj (hm.symm.trans (by rw [hsource.1, hsource.2, hs]))
    exact ⟨_, if_pos (.inl hsource), congrArg v.contents (page_sharedBy copyOnWrite m)⟩
  · -- nothing was mapped at the target, so the byte is not there
    have htarget : ¬ (q = pid ∧ address.page = target) := by
      rintro ⟨rfl, he⟩
      rw [Memory.mapping?, hd, Option.bind_some, he, ht] at hm
      cases hm
    exact ⟨m, by rw [if_neg (by simp [hsource, htarget]), hm], rfl⟩

theorem byte?_withPage (hd : v.processes.find? pid = some d) (hp : d.find? page = none)
    (hf : v.Fresh) (permissions : Permissions) (copyOnWrite : Bool)
    (hb : v.byte? q address = some x) :
    (v.withPage pid page permissions copyOnWrite).byte? q address = some x := by
  refine Memory.byte?_kept hb fun m hm =>
    ⟨m, ?_, Function.update_of_ne (Nat.ne_of_lt (hf _ _ _ hm)) ..⟩
  refine (mapping?_withPage hd permissions copyOnWrite q address.page).trans ((if_neg ?_).trans hm)
  rintro ⟨rfl, he⟩
  rw [Memory.mapping?, hd, Option.bind_some, he, hp] at hm
  cases hm

def Unmaps (current : Option Word) (q page : Word) : PagingOperation → Prop
  | .endProcess pid => pid = q
  | .removePage page' => current = some q ∧ page' = page
  | .removeAll => current = some q
  | _ => False

/-- A process keeps a byte through every operation that does not take its page away. -/
theorem Effect.byte? (h : Effect v op a v') (hf : v.Fresh) (hn : v.processes.find? v.nextPid = none)
    (hun : ¬ Unmaps v.current q address.page op) (hb : v.byte? q address = some x) :
    v'.byte? q address = some x := by
  have hnext : q ≠ v.nextPid := by
    rintro rfl
    simp [Memory.byte?, Memory.mapping?, hn] at hb
  cases h with
  | beginProcess =>
    refine Memory.byte?_kept hb fun m hm => ⟨m, ?_, rfl⟩
    exact (Memory.mapping?_withProcess .empty q address.page).trans ((if_neg hnext).trans hm)
  | endProcess pid =>
    refine Memory.byte?_kept hb fun m hm => ⟨m, ?_, rfl⟩
    rw [Memory.mapping?_ended, if_neg fun he => hun he.symm]
    exact hm
  | switchProcess => exact hb
  | forkProcess _ hd => exact byte?_fork hd hnext hb
  | addPage permissions copyOnWrite _ hd hp =>
    exact byte?_withPage hd hp hf permissions copyOnWrite hb
  | @removePage pid page hc =>
    refine Memory.byte?_kept hb fun m hm => ⟨m, ?_, rfl⟩
    rw [Memory.mapping?_removed, if_neg]
    · exact hm
    · rintro ⟨rfl, he⟩
      exact hun ⟨hc, he.symm⟩
  | @removeAll pid hc =>
    refine Memory.byte?_kept hb fun m hm => ⟨m, ?_, rfl⟩
    rw [Memory.mapping?_emptied, if_neg]
    · exact hm
    · rintro rfl
      exact hun hc
  | sharePage copyOnWrite _ hd hs ht => exact byte?_share hd hs ht hb
  | pageOut => exact hb
  | resolve _ access hm =>
    rw [((Memory.privatised_resolved hm access).unseen hf).bytes]
    exact hb

/-- A child begins with what its parent sees. -/
theorem Effect.byte?_child {child : Word} (h : Effect v .forkProcess (.process child) v') :
    ∃ parent, v.current = some parent ∧ ∀ address,
    v'.byte? child address = v.byte? parent address := by
  generalize hop : PagingOperation.forkProcess = op at h
  generalize hans : Answer.process child = a at h
  cases h with
  | @forkProcess pid d hc hd =>
    obtain rfl := Answer.process.inj hans
    refine ⟨pid, hc, fun address => ?_⟩
    unfold Memory.byte?
    rw [mapping?_fork hd, if_pos (.inl rfl), Memory.mapping?, hd, Option.bind_some, Option.map_map]
    refine Option.map_congr fun m _ => ?_
    exact congrArg (v.contents · _) (page_protect m)
  | resolve => cases hans
  | _ => cases hop

end

end PagedMachine.Virtual

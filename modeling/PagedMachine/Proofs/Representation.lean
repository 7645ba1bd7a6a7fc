import PagedMachine.Proofs.Residency
import PagedMachine.Proofs.Virtual

/-!
# Paged memory represents virtual memory

A paged memory represents a virtual one when the locations that are mapped can be
named so that different locations have different names, every mapping carries
the name of its location and every name has the contents of its location. Where
the locations are is left open, so a page that moves takes its name along.
-/

namespace PagedMachine

def Mapping.rename (name : Location → Nat) (m : Mapping) : Virtual.Mapping :=
  ⟨name m.location, m.permissions, m.copyOnWrite⟩

def Directory.rename (name : Location → Nat) (d : Directory) : Virtual.Directory :=
  d.map (·.rename name)

namespace PagedMemory

structure RepresentedBy (name : Location → Nat) (m : PagedMemory) (v : Virtual.Memory) : Prop where
  distinct : ∀ k l, m.mappingsOf k ≠ 0 → m.mappingsOf l ≠ 0 → name k = name l → k = l
  processes : v.processes = m.processes.map (·.rename name)
  contents : ∀ l, m.mappingsOf l ≠ 0 → ∀ o : Fin pageSize, v.contents (name l) o = m.byteAt l o
  fresh : ∀ l, m.mappingsOf l ≠ 0 → name l < v.nextPage
  current : v.current = m.current
  nextPid : v.nextPid = m.nextPid

def Represents (m : PagedMemory) (v : Virtual.Memory) : Prop := ∃ name, RepresentedBy name m v

/-- A state that follows `m` and represents `v`. -/
structure Follows (m m' : PagedMemory) (v : Virtual.Memory) : Prop where
  consistent : Consistent m'
  extent : SameExtent m m'
  represents : Represents m' v

variable {name : Location → Nat} {m m' : PagedMemory} {v v' : Virtual.Memory} {pid page : Word}
    {d : Directory} {mp : Mapping}

theorem mappingsOf_ne_zero (hd : m.processes.find? pid = some d) (hm : d.find? page = some mp) :
    m.mappingsOf mp.location ≠ 0 :=
  Paging.mappingsOf_ne_zero.mpr ⟨pid, d, page, mp, hd, hm, rfl⟩

/-- Two namings that agree where something is mapped are as good as each other. -/
theorem processes_rename_congr {name' : Location → Nat}
    (h : ∀ l, m.mappingsOf l ≠ 0 → name' l = name l) :
    m.processes.map (·.rename name') = m.processes.map (·.rename name) := by
  refine Table.map_congr fun pid d hd => Table.map_congr fun page mp hm => ?_
  rw [Mapping.rename, Mapping.rename, h _ (mappingsOf_ne_zero hd hm)]

theorem processes_rename_unused {l : Location} (hl : m.mappingsOf l = 0) (n : Nat) :
    m.processes.map (·.rename (Function.update name l n)) = m.processes.map (·.rename name) :=
  processes_rename_congr fun k hk => Function.update_of_ne (fun e : k = l => hk (e ▸ hl)) ..

namespace RepresentedBy

/-! ## What both memories say -/

theorem find?_processes (h : RepresentedBy name m v) (pid : Word) :
    v.processes.find? pid = (m.processes.find? pid).map (·.rename name) := by
  rw [h.processes, Table.find?_map]

theorem contains (h : RepresentedBy name m v) (pid : Word) :
    v.processes.contains pid = m.processes.contains pid := by
  rw [h.processes, Table.contains_map]

theorem currentDirectory (h : RepresentedBy name m v) :
    v.currentDirectory = m.currentDirectory.map (·.rename name) := by
  rw [Virtual.Memory.currentDirectory, Paging.currentDirectory, h.current]
  cases m.current with
  | none => rfl
  | some pid =>
    simp only [h.find?_processes]
    cases m.processes.find? pid <;> rfl

theorem mappingOf (h : RepresentedBy name m v) (page : Word) :
    v.mappingOf page = (m.mappingOf page).map (·.rename name) := by
  rw [Virtual.Memory.mappingOf, Paging.mappingOf, h.currentDirectory]
  cases Paging.checkPage page with
  | error e => rfl
  | ok _ =>
    cases hd : m.currentDirectory with
    | error e => rfl
    | ok d =>
      simp only [bind, Except.bind, Except.map, Directory.rename, Table.find?_map]
      cases d.find? page <;> rfl

theorem find? (h : RepresentedBy name m v) (page : Word) :
    v.find? page = (m.mapping? page).map (·.rename name) := by
  rw [Virtual.Memory.find?, Paging.mapping?, h.currentDirectory]
  cases m.currentDirectory with
  | error e => rfl
  | ok d => exact Table.find?_map _ _ _

theorem mappingsOf (h : RepresentedBy name m v) {l : Location} (hl : m.mappingsOf l ≠ 0) :
    v.mappingsOf (name l) = m.mappingsOf l := by
  rw [Virtual.Memory.mappingsOf, h.processes, Table.sum_map]
  refine Table.sum_congr fun pid d hd => ?_
  rw [Function.comp_apply, Directory.rename, Table.sum_map, Directory.mappingsOf_eq_sum]
  refine Table.sum_congr fun page mp hm => ?_
  have : name mp.location = name l ↔ mp.location = l :=
    ⟨h.distinct _ _ (mappingsOf_ne_zero hd hm) hl, congrArg name⟩
  simp [Mapping.rename, this]

/-! ## How the naming is carried on -/

/-- Nothing new is mapped, and what stays mapped keeps its bytes. -/
theorem shrink (h : RepresentedBy name m v) (hsub : ∀ l, m'.mappingsOf l ≠ 0 → m.mappingsOf l ≠ 0)
    (hbytes : ∀ l, m'.mappingsOf l ≠ 0 → ∀ o < pageSize, m'.byteAt l o = m.byteAt l o)
    (hprocesses : v'.processes = m'.processes.map (·.rename name))
    (hcontents : v'.contents = v.contents) (hnext : v'.nextPage = v.nextPage)
    (hcurrent : v'.current = m'.current) (hpid : v'.nextPid = m'.nextPid) :
    RepresentedBy name m' v' where
  distinct k l hk hl := h.distinct k l (hsub k hk) (hsub l hl)
  processes := hprocesses
  contents l hl o := by rw [hcontents, h.contents l (hsub l hl), hbytes l hl o o.isLt]
  fresh l hl := hnext ▸ h.fresh l (hsub l hl)
  current := hcurrent
  nextPid := hpid

/-- A location that was not mapped holds a new page. -/
theorem extend (h : RepresentedBy name m v) {target : Location} (hunused : m.mappingsOf target = 0)
    (hsub : ∀ l, m'.mappingsOf l ≠ 0 → l = target ∨ m.mappingsOf l ≠ 0)
    (hbytes : ∀ l, l ≠ target → m'.mappingsOf l ≠ 0 → ∀ o < pageSize, m'.byteAt l o = m.byteAt l o)
    (hprocesses : v'.processes =
      m'.processes.map (·.rename (Function.update name target v.nextPage)))
    (hcontents : v'.contents = Function.update v.contents v.nextPage fun o => m'.byteAt target o)
    (hnext : v'.nextPage = v.nextPage + 1) (hcurrent : v'.current = m'.current)
    (hpid : v'.nextPid = m'.nextPid) :
    RepresentedBy (Function.update name target v.nextPage) m' v' where
  distinct k l hk hl hkl := by
    simp only [Function.update_apply] at hkl
    -- the new name is above all that are in use
    rcases hsub k hk with rfl | hk' <;> rcases hsub l hl with rfl | hl'
    · rfl
    · have hne : l ≠ k := fun e => hl' (e ▸ hunused)
      rw [if_pos rfl, if_neg hne] at hkl
      exact absurd (h.fresh l hl') (by omega)
    · have hne : k ≠ l := fun e => hk' (e ▸ hunused)
      rw [if_pos rfl, if_neg hne] at hkl
      exact absurd (h.fresh k hk') (by omega)
    · have hk₀ : k ≠ target := fun e => hk' (e ▸ hunused)
      have hl₀ : l ≠ target := fun e => hl' (e ▸ hunused)
      rw [if_neg hk₀, if_neg hl₀] at hkl
      exact h.distinct k l hk' hl' hkl
  processes := hprocesses
  contents l hl o := by
    by_cases ht : l = target
    · rw [ht, hcontents, Function.update_self, Function.update_self]
    · have hl' := (hsub l hl).resolve_left ht
      have hne : name l ≠ v.nextPage := Nat.ne_of_lt (h.fresh l hl')
      rw [hcontents, Function.update_of_ne ht, Function.update_of_ne hne, h.contents l hl',
        hbytes l ht hl o o.isLt]
  fresh l hl := by
    rw [hnext, Function.update_apply]
    split
    · exact Nat.lt_succ_self _
    · rename_i ht
      exact Nat.lt_succ_of_lt (h.fresh l ((hsub l hl).resolve_left ht))
  current := hcurrent
  nextPid := hpid

end RepresentedBy

/-- A page that moves takes its name along. -/
theorem Relocates.representedBy {source target : Location} (h : Relocates source target m m')
    (hv : RepresentedBy name m v) :
    RepresentedBy (Function.update name target (name source)) m' v := by
  -- each location that is mapped now was, under the same name, where it is or at the source
  have back : ∀ l, m'.mappingsOf l ≠ 0 → ∃ k, m.mappingsOf k ≠ 0 ∧
      Function.update name target (name source) l = name k ∧
      (∀ o < pageSize, m'.byteAt l o = m.byteAt k o) ∧
      (k = source ∧ l = target ∨ k = l ∧ k ≠ source) := by
    intro l hl
    rw [h.mappingsOf] at hl
    have hs : l ≠ source := fun e => hl (by rw [e, Function.update_self])
    rw [Function.update_of_ne hs] at hl
    by_cases ht : l = target
    · subst ht
      exact ⟨source, h.used, Function.update_self .., h.moved, .inl ⟨rfl, rfl⟩⟩
    · rw [Function.update_of_ne ht] at hl
      exact ⟨l, hl, Function.update_of_ne ht .., h.kept l ht hl, .inr ⟨rfl, hs⟩⟩
  refine ⟨fun k l hk hl hkl => ?_, ?_, fun l hl o => ?_, fun l hl => ?_, ?_, ?_⟩
  · obtain ⟨k', hk', ek, -, ck⟩ := back k hk
    obtain ⟨l', hl', el, -, cl⟩ := back l hl
    have : k' = l' := hv.distinct k' l' hk' hl' (ek ▸ el ▸ hkl)
    subst this
    rcases ck with ⟨hks, hkt⟩ | ⟨hkk, hks⟩ <;> rcases cl with ⟨hls, hlt⟩ | ⟨hll, hls⟩
    · rw [hkt, hlt]
    · exact absurd hks hls
    · exact absurd hls hks
    · rw [← hkk, ← hll]
  · rw [hv.processes, h.processes, Table.map_map]
    refine Table.map_congr fun pid d hd => ?_
    rw [Function.comp_apply, Directory.rename, Directory.rename, Directory.repoint, Table.map_map]
    refine Table.map_congr fun page mp hm => ?_
    have hloc := mappingsOf_ne_zero hd hm
    by_cases hs : mp.location = source
    · simp [Mapping.rename, hs]
    · have ht : mp.location ≠ target := fun e => hloc (e ▸ h.unused)
      simp [Mapping.rename, hs, Function.update_of_ne ht]
  · obtain ⟨k, hk, ek, hbytes, -⟩ := back l hl
    rw [ek, hv.contents k hk, hbytes o o.isLt]
  · obtain ⟨k, hk, ek, -, -⟩ := back l hl
    rw [ek]
    exact hv.fresh k hk
  · rw [hv.current, h.current]
  · rw [hv.nextPid, h.nextPid]

theorem Follows.refl (h : Consistent m) (hv : Represents m v) : Follows m m v := ⟨h, .refl m, hv⟩

theorem Follows.trans {m₀ : PagedMemory} (h : Follows m₀ m v) (h' : Follows m m' v') :
    Follows m₀ m' v' :=
  ⟨h'.consistent, h.extent.trans h'.extent, h'.represents⟩

theorem Relocates.follows {source target : Location} (h : Relocates source target m m')
    (hm : Consistent m) (hv : Represents m v) : Follows m m' v := by
  obtain ⟨name, hv⟩ := hv
  exact ⟨h.consistent hm, h.extent, _, h.representedBy hv⟩

theorem MadeRoom.follows {pinned : Option Word} (h : MadeRoom pinned m m') (hm : Consistent m)
    (hv : Represents m v) : Follows m m' v := by
  rcases h with rfl | ⟨_, _, _, hr⟩
  · exact .refl hm hv
  · exact hr.follows hm hv

/-! ## One directory changes -/

section
variable {f : Directory → Directory} (hd : m.processes.find? pid = some d)
include hd

theorem mappingsOf_changed (l : Location) :
    (m.changed pid f).mappingsOf l + d.mappingsOf l = m.mappingsOf l + (f d).mappingsOf l :=
  Paging.mappingsOf_update rfl hd l

theorem mappingsOf_changed_eq (hf : ∀ l, (f d).mappingsOf l = d.mappingsOf l) :
    (m.changed pid f).mappingsOf = m.mappingsOf := by
  funext l
  have := mappingsOf_changed (f := f) hd l
  have := hf l
  omega

/-- The books do not change when every location stays as often mapped as it was. -/
theorem Consistent.changed (h : Consistent m) (hf : ∀ l, (f d).mappingsOf l = d.mappingsOf l) :
    Consistent (m.changed pid f) := by
  refine h.of_books ⟨rfl, rfl, rfl, rfl, rfl⟩ ?_ rfl rfl fun q => Table.contains_update ..
  rw [mappingsOf_changed_eq hd hf]
  exact h.books.frame _ _ _ _ _

/-- Nothing new is mapped. -/
theorem RepresentedBy.changed {g : Virtual.Directory → Virtual.Directory}
    (hv : RepresentedBy name m v) (hg : (f d).rename name = g (d.rename name))
    (hsub : ∀ l, (f d).mappingsOf l ≠ 0 → m.mappingsOf l ≠ 0) :
    RepresentedBy name (m.changed pid f) (v.changed pid g) := by
  refine hv.shrink ?_ ?_ ?_ rfl rfl hv.current hv.nextPid
  · intro l hl
    have := mappingsOf_changed (f := f) hd l
    by_cases hfl : (f d).mappingsOf l = 0
    · omega
    · exact hsub l hfl
  · intro l _ o _
    cases l <;> rfl
  · rw [PagedMemory.changed, Virtual.Memory.changed, hv.processes]
    dsimp only
    refine (Table.map_update _ _ ?_).symm
    intro d' hd'
    obtain rfl : d = d' := Option.some.inj (hd.symm.trans hd')
    exact hg

end

/-! ## Hand in hand -/

/-- A fault for want of pages is due to a pool that is exhausted. -/
def Justified (m : PagedMemory) (e : Fault) : Prop := ∀ kind, e = .resourceExhausted kind →
    m.Exhausted kind

theorem Justified.exhausted {m : PagedMemory} {kind : PoolKind} (h : m.Exhausted kind) :
    m.Justified (.resourceExhausted kind) := by
  intro k hk
  exact Fault.resourceExhausted.inj hk ▸ h

theorem Justified.of_kind {m : PagedMemory} {e : Fault} (h : e.kind ≠ .resourceExhausted) :
    m.Justified e := by
  rintro kind rfl
  exact absurd rfl h

/-- The action ends as the behaviour may end: with related answers, or with one fault. -/
def Agrees {α β : Type} (x : Paged α) (b : Behaviour Virtual.Memory β) (m : PagedMemory)
    (v : Virtual.Memory) (R : α → β → PagedMemory → Virtual.Memory → Prop) : Prop :=
  (∃ a c m' v', x.run m = .ok a m' ∧ b.allows v (.ok c) v' ∧ Follows m m' v' ∧ R a c m' v') ∨
    ∃ e m' v', x.run m = .error e m' ∧ b.allows v (.error e) v' ∧ Follows m m' v' ∧ m'.Justified e

namespace Agrees

variable {α β γ δ : Type} {x : Paged α} {b : Behaviour Virtual.Memory β} {f : α → Paged γ}
  {g : β → Behaviour Virtual.Memory δ} {R : α → β → PagedMemory → Virtual.Memory → Prop}
  {S : γ → δ → PagedMemory → Virtual.Memory → Prop}

theorem bind (h : Agrees x b m v R)
    (hf : ∀ a c m' v', Follows m m' v' → R a c m' v' → Agrees (f a) (g c) m' v' S) :
    Agrees (x >>= f) (b >>= g) m v S := by
  rcases h with ⟨a, c, m₁, v₁, hx, hb, hfollows, hR⟩ | ⟨e, m₁, v₁, hx, hb, hfollows, he⟩
  · rcases hf a c m₁ v₁ hfollows hR with ⟨a', c', m₂, v₂, hx', hb', hfollows', hS⟩
      | ⟨e, m₂, v₂, hx', hb', hfollows', he⟩
    · exact .inl ⟨a', c', m₂, v₂, (bind_ok hx).trans hx', Behaviour.bind_ok hb hb',
        hfollows.trans hfollows', hS⟩
    · exact .inr ⟨e, m₂, v₂, (bind_ok hx).trans hx', Behaviour.bind_ok hb hb',
        hfollows.trans hfollows', he⟩
  · exact .inr ⟨e, m₁, v₁, bind_error hx, Behaviour.bind_error hb, hfollows, he⟩

theorem mono {R' : α → β → PagedMemory → Virtual.Memory → Prop} (h : Agrees x b m v R)
    (hR : ∀ a c m' v', R a c m' v' → R' a c m' v') : Agrees x b m v R' := by
  rcases h with ⟨a, c, m₁, v₁, hx, hb, hfollows, hr⟩ | h
  · exact .inl ⟨a, c, m₁, v₁, hx, hb, hfollows, hR a c m₁ v₁ hr⟩
  · exact .inr h

theorem map (h : Agrees x b m v R) (k : α → γ) (l : β → δ)
    (hR : ∀ a c m' v', R a c m' v' → S (k a) (l c) m' v') : Agrees (k <$> x) (l <$> b) m v S := by
  rcases h with ⟨a, c, m₁, v₁, hx, hb, hfollows, hr⟩ | ⟨e, m₁, v₁, hx, hb, hfollows, he⟩
  · exact .inl ⟨k a, l c, m₁, v₁, map_ok hx, Behaviour.allows_map.mpr ⟨_, rfl, hb⟩, hfollows,
      hR a c m₁ v₁ hr⟩
  · exact .inr ⟨e, m₁, v₁, map_error hx, Behaviour.allows_map.mpr ⟨_, rfl, hb⟩, hfollows, he⟩

theorem get_bind {f : PagedMemory → Paged γ} {g : Virtual.Memory → Behaviour Virtual.Memory δ}
    (h : Agrees (f m) (g v) m v S) : Agrees (get >>= f) (get >>= g) m v S := by
  simpa only [Agrees, PagedMachine.get_bind, Behaviour.allows_get_bind] using h

theorem fault (hfollows : Follows m m' v) {e : Fault} (hx : x.run m = .error e m')
    (he : e.kind ≠ .resourceExhausted := by simp [Fault.kind]) : Agrees x (.fault e) m v R :=
  .inr ⟨e, m', v, hx, ⟨rfl, rfl⟩, hfollows, .of_kind he⟩

theorem fault_bind (hfollows : Follows m m' v) {e : Fault} {y : Paged γ}
    (hx : y.run m = .error e m') (he : e.kind ≠ .resourceExhausted := by simp [Fault.kind]) :
    Agrees y ((Behaviour.fault e : Behaviour Virtual.Memory β) >>= g) m v S :=
  .inr ⟨e, m', v, hx, Behaviour.allows_fault_bind.mpr ⟨rfl, rfl⟩, hfollows, .of_kind he⟩

theorem outcome (h : Consistent m) (hv : Represents m v) {y : Except Fault α} {z : Except Fault β}
    {k : α → β} (hz : z = y.map k) (hy : ∀ e, y = .error e → e.kind ≠ .resourceExhausted) :
    Agrees (outcome y) (Behaviour.result z) m v fun a c m' v' =>
      y = .ok a ∧ c = k a ∧ m' = m ∧ v' = v := by
  subst hz
  cases hr : y with
  | ok a => exact .inl ⟨a, k a, m, v, outcome_ok rfl m, ⟨rfl, rfl⟩, .refl h hv, rfl, rfl, rfl, rfl⟩
  | error e => exact .inr ⟨e, m, v, outcome_error rfl m, ⟨rfl, rfl⟩, .refl h hv, .of_kind (hy e hr)⟩

/-- What does not fault and has no choice agrees with what it does. -/
theorem of_forced {a : α} {c : β} (hx : x.run m = .ok a m') (hb : b.allows v (.ok c) v')
    (hfollows : Follows m m' v') (hR : R a c m' v') : Agrees x b m v R :=
  .inl ⟨a, c, m', v', hx, hb, hfollows, hR⟩

end Agrees

end PagedMemory

end PagedMachine

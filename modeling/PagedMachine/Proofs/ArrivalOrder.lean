import PagedMachine.Proofs.Departures
import PagedMachine.Proofs.Narration

/-!
# First in, first out

The queue of resident frames is in the order of their last arrivals. A frame
arrives behind all others and never while it is in the queue; whatever else
happens only takes frames out. So the first frame of a pool in the queue is its
longest resident one, and that is the one the pool gives up.
-/

namespace PagedMachine

/-! ## Stamps -/

/-- The moment a frame last became resident, in incidents up to then; zero if it never did. -/
def stamp : List Incident → Word → Nat
  | [], _ => 0
  | .arrival _ _ frame :: earlier, g => if g = frame then earlier.length + 1 else stamp earlier g
  | .eviction .. :: earlier, g => stamp earlier g

def evictions : List Incident → Nat
  | [] => 0
  | .arrival .. :: earlier => evictions earlier
  | .eviction .. :: earlier => evictions earlier + 1

theorem stamp_le_length (history : List Incident) (frame : Word) :
    stamp history frame ≤ history.length := by
  induction history with
  | nil => exact Nat.le_refl 0
  | cons i earlier ih =>
    cases i with
    | arrival before after g =>
      rw [stamp, List.length_cons]
      split <;> omega
    | eviction => exact Nat.le_succ_of_le ih

/-- All frames of the queue have arrived, and in this order. -/
structure InOrder (history : List Incident) (queue : List Word) : Prop where
  arrived : ∀ f ∈ queue, 0 < stamp history f
  ascending : queue.Pairwise fun f g => stamp history f < stamp history g

structure Arrives (before after : PagedMemory) (frame : Word) : Prop where
  absent : frame ∉ before.resident
  queued : after.resident = before.resident ++ [frame]

/-- A pool that has no frame free gives one up: of its resident frames, leaving out the one that is
being copied, the one with the oldest stamp. This one leaves the queue, and its page goes to a slot
with all its mappings. -/
structure GivenUp (earlier : List Incident) (before after : PagedMemory) (pool : PoolKind)
    (copied : Option Word) (frame : Word) : Prop where
  needed : ¬ before.HasFree pool
  resident : frame ∈ before.resident
  ofPool : before.framePool frame = pool
  spared : some frame ≠ copied
  oldest : ∀ g ∈ before.resident, before.framePool g = pool → some g ≠ copied → g ≠ frame →
    stamp earlier frame < stamp earlier g
  left : after.resident = before.resident.filter (· != frame)
  moved : ∃ slot, PagedMemory.Relocates (.frame frame) (.slot slot) before after

def Incident.InTurn (earlier : List Incident) : Incident → Prop
  | .arrival before after frame => Arrives before after frame
  | .eviction before after pool copied frame => GivenUp earlier before after pool copied frame

def InTurn : List Incident → Prop
  | [] => True
  | i :: earlier => i.InTurn earlier ∧ InTurn earlier

namespace Incident

def before : Incident → PagedMemory
  | .arrival before _ _ | .eviction before _ _ _ _ => before

def after : Incident → PagedMemory
  | .arrival _ after _ | .eviction _ after _ _ _ => after

end Incident

/-- The incidents lead from one queue to the other: each begins with what the one before it left. -/
def Leads (queue : List Word) : List Incident → List Word → Prop
  | [], queue' => queue' = queue
  | i :: earlier, queue' => i.after.resident = queue' ∧ Leads queue earlier i.before.resident

namespace InOrder

variable {history : List Incident} {queue rest : List Word} {f g : Word}

theorem sublist (h : InOrder history queue) (hrest : rest.Sublist queue) : InOrder history rest :=
  ⟨fun f hf => h.arrived f (hrest.subset hf), h.ascending.sublist hrest⟩

theorem arrive (h : InOrder history queue) (before after : PagedMemory) (hf : f ∉ queue) :
    InOrder (.arrival before after f :: history) (queue ++ [f]) := by
  have hself : stamp (.arrival before after f :: history) f = history.length + 1 := if_pos rfl
  have hother : ∀ g ∈ queue, stamp (.arrival before after f :: history) g = stamp history g := by
    intro g hg
    rw [stamp, if_neg (ne_of_mem_of_not_mem hg hf)]
  constructor
  · intro g hg
    rcases List.mem_append.mp hg with hg | hg
    · exact hother g hg ▸ h.arrived g hg
    · rw [List.mem_singleton.mp hg, hself]
      omega
  · refine List.pairwise_append.mpr ⟨?_, List.pairwise_singleton .., ?_⟩
    · exact h.ascending.imp_of_mem fun hg hk hlt => by rwa [hother _ hg, hother _ hk]
    · intro g hg k hk
      rw [hother g hg, List.mem_singleton.mp hk, hself]
      exact Nat.lt_succ_of_le (stamp_le_length history g)

theorem evict (h : InOrder history queue) (before after : PagedMemory) (pool : PoolKind)
    (copied : Option Word) (f : Word) :
    InOrder (.eviction before after pool copied f :: history) queue :=
  ⟨h.arrived, h.ascending⟩

/-- The order of the queue can be told from the stamps. -/
theorem sublist_iff (h : InOrder history queue) (hf : f ∈ queue) (hg : g ∈ queue) :
    [f, g].Sublist queue ↔ stamp history f < stamp history g := by
  constructor
  · intro hsub
    simpa using h.ascending.sublist hsub
  · intro hlt
    obtain ⟨front, back, rfl⟩ := List.append_of_mem hf
    obtain ⟨-, hback, hbefore⟩ := List.pairwise_append.mp h.ascending
    rcases List.mem_append.mp hg with hg | hg
    · have := hbefore g hg f List.mem_cons_self
      omega
    · rcases List.mem_cons.mp hg with rfl | hg
      · omega
      · exact .trans (.cons_cons f (List.singleton_sublist.mpr hg))
          (List.sublist_append_right front _)

/-- What is found first has the oldest stamp. -/
theorem oldest (h : InOrder history queue) {p : Word → Bool} (hf : queue.find? p = some f)
    (hg : g ∈ queue) (hp : p g = true) (hne : g ≠ f) : stamp history f < stamp history g := by
  obtain ⟨-, front, back, rfl, hfront⟩ := List.find?_eq_some_iff_append.mp hf
  have hback : g ∈ back := by
    rcases List.mem_append.mp hg with hg | hg
    · have hnot := hfront g hg
      rw [hp] at hnot
      cases hnot
    · exact (List.mem_cons.mp hg).resolve_left hne
  exact (List.pairwise_cons.mp (List.pairwise_append.mp h.ascending).2.1).1 g hback

end InOrder

/-! ## Orderly paging -/

structure Orderly (past : List Incident) (c : Chronicle) : Prop where
  since : past <:+ c.history
  order : InOrder c.history c.memory.resident
  turns : InTurn c.history
  tallied : c.memory.counters.evictions.toNat = min (evictions c.history) (2 ^ 64 - 1)

/-- Each frame that has come or gone since then was noted. -/
structure Noted (past c : Chronicle) : Prop extends Orderly past.history c where
  noted :
    ∃ news, c.history = news ++ past.history ∧ Leads past.memory.resident news c.memory.resident

structure Spare (past : Chronicle) (frame : Word) (c : Chronicle) : Prop extends Noted past c where
  absent : frame ∉ c.memory.resident

section

variable {past : List Incident} {c₀ c : Chronicle} {m : PagedMemory} {frame : Word}

theorem Orderly.shed (h : Orderly past c) (hqueue : m.resident.Sublist c.memory.resident)
    (hcount : m.counters.evictions = c.memory.counters.evictions) : Orderly past ⟨m, c.history⟩ :=
  ⟨h.since, h.order.sublist hqueue, h.turns, hcount ▸ h.tallied⟩

theorem Orderly.noted (h : Orderly past c) : Noted c c where
  since := List.suffix_refl _
  order := h.order
  turns := h.turns
  tallied := h.tallied
  noted := ⟨[], rfl, rfl⟩

theorem Noted.still (h : Noted c₀ c) (hqueue : m.resident = c.memory.resident)
    (hcount : m.counters.evictions = c.memory.counters.evictions) : Noted c₀ ⟨m, c.history⟩ :=
  ⟨h.shed (hqueue ▸ List.Sublist.refl _) hcount, hqueue ▸ h.noted⟩

theorem Spare.arrive (h : Spare c₀ frame c) (hqueue : m.resident = c.memory.resident ++ [frame])
    (hcount : m.counters.evictions = c.memory.counters.evictions) :
    Noted c₀ ⟨m, .arrival c.memory m frame :: c.history⟩ := by
  obtain ⟨news, hnews, hleads⟩ := h.noted
  refine ⟨⟨h.since.trans (List.suffix_cons ..), ?_, ⟨⟨h.absent, hqueue⟩, h.turns⟩,
    hcount ▸ h.tallied⟩, .arrival c.memory m frame :: news, ?_, rfl, hleads⟩
  · rw [hqueue]
    exact h.order.arrive c.memory m h.absent
  · rw [hnews]
    rfl

theorem Noted.evict (h : Noted c₀ c) {pool : PoolKind} {pinned : Option Word}
    (hfull : ¬ c.memory.HasFree pool) (hvictim : c.memory.victim? pool pinned = some frame)
    (hqueue : m.resident = c.memory.resident.filter (· != frame))
    (hmoved : ∃ slot, PagedMemory.Relocates (.frame frame) (.slot slot) c.memory m)
    (hcount : m.counters.evictions = c.memory.counters.evictions.succ) :
    Noted c₀ ⟨m, .eviction c.memory m pool pinned frame :: c.history⟩ := by
  have hfound := List.find?_some hvictim
  simp only [Bool.and_eq_true, bne_iff_ne, beq_iff_eq] at hfound
  have hgiven : GivenUp c.history c.memory m pool pinned frame := by
    refine ⟨hfull, List.mem_of_find?_eq_some hvictim, hfound.2, hfound.1,
      fun g hg hpool hpinned hne => ?_, hqueue, hmoved⟩
    exact h.order.oldest hvictim hg (by simp [hpool, hpinned]) hne
  have htallied : m.counters.evictions.toNat =
      min (evictions (.eviction c.memory m pool pinned frame :: c.history)) (2 ^ 64 - 1) := by
    rw [hcount, Counter.succ, Counter.toNat_add, h.tallied, evictions]
    omega
  obtain ⟨news, hnews, hleads⟩ := h.noted
  refine ⟨⟨h.since.trans (List.suffix_cons ..), ?_, ⟨hgiven, h.turns⟩, htallied⟩,
    .eviction c.memory m pool pinned frame :: news, ?_, rfl, hleads⟩
  · exact (h.order.sublist (hqueue ▸ List.filter_sublist)).evict ..
  · rw [hnews]
    rfl

theorem ofRemaining_orderly (past history : List Incident) :
    PagedMemory.OfRemaining fun m => Orderly past ⟨m, history⟩ where
  other h hqueue hcount := h.shed (hqueue ▸ List.Sublist.refl _) hcount
  leave _ _ h := h.shed List.filter_sublist rfl

theorem ofQueue_noted (c₀ : Chronicle) (history : List Incident) :
    PagedMemory.OfQueue fun m => Noted c₀ ⟨m, history⟩ where
  other h hqueue hcount := h.still hqueue hcount

theorem ofQueue_spare (c₀ : Chronicle) (frame : Word) (history : List Incident) :
    PagedMemory.OfQueue fun m => Spare c₀ frame ⟨m, history⟩ where
  other h hqueue hcount := ⟨h.toNoted.still hqueue hcount, hqueue ▸ h.absent⟩

/-- What is left of a queue that only loses frames. -/
theorem ofRemaining_sublist (queue : List Word) (count : Counter) :
    PagedMemory.OfRemaining fun m => m.resident.Sublist queue ∧ m.counters.evictions = count where
  other h hqueue hcount := ⟨hqueue ▸ h.1, hcount.trans h.2⟩
  leave _ _ h := ⟨List.filter_sublist.trans h.1, h.2⟩

end

namespace PagedMemory

variable {m m' : PagedMemory} {frame : Word}

/-- The frame that is handed out was free, so it is not in the queue. -/
theorem Consistent.absent_of_takeFrame (h : Consistent m) {pool : PoolKind} (hpool : pool ≠ .disk)
    {pinned : Option Word} (hstep : Yields (takeFrame pool pinned) m (.ok frame) m') :
    frame ∉ m'.resident := by
  rcases h.takeFrame_exact hpool pinned with ⟨-, frame', m₀, hroom, -, hfree, hrun⟩ | ⟨e, hrun, -⟩
  · obtain ⟨hframe, rfl⟩ := hstep.eq_of_ok hrun
    obtain rfl := Except.ok.inj hframe
    have h₀ := hroom.consistent h
    rw [handOut, Paging.setFree, Paging.resident_setPool, h₀.books.queued]
    exact fun hne => hne (h₀.mappingsOf_of_isFree hfree)
  · cases (hstep.eq_of_error hrun).1

/-- A frame that is evicted leaves the queue, and no other does. -/
theorem Consistent.evict_leaves (h : Consistent m) (hf : m.mappingsOf (.frame frame) ≠ 0)
    {r : Except Fault Unit} (hstep : Yields (PagedMemory.evict frame) m r m') :
    (∃ e, r = .error e ∧ m' = m) ∨ r = .ok () ∧ m'.resident = m.resident.filter (· != frame) ∧
    m'.counters.evictions = m.counters.evictions ∧
        ∃ slot, Relocates (.frame frame) (.slot slot) m m' := by
  cases hkeys : m.diskPool.free.keys with
  | nil => exact .inl ⟨_, hstep.eq_of_error (h.evict_full hf hkeys)⟩
  | cons slot rest =>
    obtain ⟨hrun, hr⟩ := h.evict_ok hf hkeys
    obtain ⟨hr', rfl⟩ := hstep.eq_of_ok hrun
    refine .inr ⟨hr', ?_, ?_, slot, hr⟩
    all_goals simp [evicted, movedOut, Paging.vacate, Paging.occupy, Paging.setFree]

/-- A page that had other mappings too still has one, and is counted, when there is a frame for its
copy. -/
theorem Consistent.count?_of_takeFrame (h : Consistent m) (hshared : 1 < m.refs (.frame frame))
    {copy : Word} (hstep : Yields (takeFrame (m.framePool frame) (some frame)) m (.ok copy) m') :
    copy ≠ frame ∧ m'.count? (.frame frame) = some (m.refs (.frame frame)) := by
  rcases h.takeFrame_exact (m.framePool_ne_disk frame) (some frame) with
    ⟨-, copy', m₀, hroom, -, hfree, hrun⟩ | ⟨e, hrun, -⟩
  · obtain ⟨hcopy, rfl⟩ := hstep.eq_of_ok hrun
    obtain rfl := Except.ok.inj hcopy
    have h₀ := hroom.consistent h
    rw [h.refs_eq] at hshared ⊢
    have hmaps : m₀.mappingsOf (.frame frame) = m.mappingsOf (.frame frame) :=
      hroom.mappingsOf_pinned (by omega)
    constructor
    · rintro rfl
      have := h₀.mappingsOf_of_isFree hfree
      omega
    · have hcounted := h₀.count?_eq (l := .frame frame) (by omega)
      rw [hmaps] at hcounted
      simpa [handOut, Paging.setFree, Paging.count?] using hcounted
  · cases (hstep.eq_of_error hrun).1

end PagedMemory

namespace Narrated

open PagedMemory (Consistent Represents)

variable {α β : Type} {c₀ c c' : Chronicle}

theorem keeps_silently {I : Chronicle → Prop} {x : Paged α}
    (hx : ∀ history, Keeps (fun m => I ⟨m, history⟩) x) : Keeps I (silently x) := by
  intro c r c' hc hstep
  obtain ⟨m, hm, rfl⟩ := yields_silently hstep
  exact hx c.history c.memory r m hc hm

theorem of_lookup_bind {P : Chronicle → Prop}
    (hP : ∀ history, PagedMemory.OfQueue fun m => P ⟨m, history⟩)
    {page address : Word} {access : Access} {f : Mapping → Narrated α} {r : Except Fault α}
    (hc : P c) (hf : ∀ mp, c.memory.mapping? page = some mp → Yields (f mp) c r c' → P c')
    (hstep : Yields (silently (PagedMemory.lookup page address access) >>= f) c r c') : P c' := by
  rcases hstep.of_bind with ⟨mp, c₁, hlookup, hrest⟩ | ⟨e, -, hlookup⟩
  · obtain ⟨m, hreal, rfl⟩ := yields_silently hlookup
    cases hm : c.memory.mapping? page with
    | some mp' =>
      obtain ⟨hsame, rfl⟩ := hreal.eq_of_ok (PagedMemory.lookup_run hm address access)
      obtain rfl := Except.ok.inj hsame
      exact hf mp hm hrest
    | none =>
      obtain ⟨counters, hrun⟩ := PagedMemory.lookup_unmapped hm address access
      cases (hreal.eq_of_error hrun).1
  · exact keeps_silently (fun history => (hP history).lookup page address access) c _ c' hc hlookup

theorem of_physical_bind {P : Chronicle → Prop} {n : Narrated Word} {offset : Nat}
    {r : Except Fault Word} (hn : ∀ {r c₁}, Yields n c r c₁ → P c₁)
    (hstep : Yields (n >>= fun frame => silently (PagedMemory.physical frame offset)) c r c') :
    P c' := by
  rcases hstep.of_bind with ⟨frame, c₁, hfound, hrest⟩ | ⟨e, -, hfound⟩
  · exact keeps_silently (fun _ => keeps_get_bind fun _ _ => keeps_pure _) c₁ r c' (hn hfound) hrest
  · exact hn hfound

/-! ### Room for a frame -/

theorem noted_makeRoom {pool : PoolKind} {pinned : Option Word} {r : Except Fault Unit}
    (h : Consistent c.memory) (hc : Noted c₀ c) (hstep : Yields (makeRoom pool pinned) c r c') :
    Noted c₀ c' := by
  have hstep := hstep.of_get_bind
  by_cases hempty : (c.memory.pool pool).free.isEmpty = true
  · have hfull : ¬ c.memory.HasFree pool :=
      fun hf => by simp [PagedMemory.isEmpty_eq_false hf] at hempty
    rw [if_pos hempty] at hstep
    cases hvictim : c.memory.victim? pool pinned with
    | none =>
      rw [hvictim] at hstep
      exact hstep.of_throw.2 ▸ hc
    | some frame =>
      rw [hvictim] at hstep
      have hmapped := (h.victim?_some hvictim).1
      rcases hstep.of_bind with ⟨_, c₁, hevict, hrest⟩ | ⟨e, -, hevict⟩
      · obtain ⟨m, hm, rfl⟩ := yields_silently hevict
        rcases h.evict_leaves hmapped hm with ⟨e, he, -⟩ | ⟨-, hqueue, hcount, slot, hr⟩
        · cases he
        · obtain ⟨-, rfl⟩ := hrest.eq_of_ok rfl
          exact hc.evict hfull hvictim hqueue ⟨slot, hr.with_counters _⟩
            (congrArg Counter.succ hcount)
      · obtain ⟨m, hm, rfl⟩ := yields_silently hevict
        rcases h.evict_leaves hmapped hm with ⟨-, -, rfl⟩ | ⟨he, -⟩
        · exact hc
        · cases he
  · rw [if_neg hempty] at hstep
    exact hstep.of_pure.2 ▸ hc

theorem noted_takeFrame {pool : PoolKind} {pinned : Option Word} {r : Except Fault Word}
    (h : Consistent c.memory) (hc : Noted c₀ c) (hstep : Yields (takeFrame pool pinned) c r c') :
    Noted c₀ c' := by
  rcases Yields.of_bind hstep with ⟨_, c₁, hroom, hrest⟩ | ⟨e, -, hroom⟩
  · exact keeps_silently (fun history => (ofQueue_noted c₀ history).onPool _ _) c₁ r c'
      (noted_makeRoom h hc hroom) hrest
  · exact noted_makeRoom h hc hroom

def Places (c₀ : Chronicle) (frame : Word) (n : Narrated α) : Prop :=
  ∀ c r c', Spare c₀ frame c → Yields n c r c' → Noted c₀ c'

def counted (frame : Word) (count : Nat) (m : PagedMemory) : PagedMemory :=
  { m with frameRefs := m.frameRefs.insert frame count, resident := m.resident ++ [frame] }

theorem yields_track {frame : Word} {count : Nat} {r : Except Fault Unit}
    (h : Yields (track frame count) c r c') :
    r = .ok () ∧
      c' = ⟨counted frame count c.memory,
        .arrival c.memory (counted frame count c.memory) frame :: c.history⟩ :=
  h.eq_of_ok rfl

theorem places_track_bind (frame : Word) (count : Nat) {f : Unit → Narrated α}
    (hf : ∀ a, Keeps (Noted c₀) (f a)) : Places c₀ frame (track frame count >>= f) := by
  intro c r c' hc hstep
  have hplaced : ∀ {r c₁}, Yields (track frame count) c r c₁ → Noted c₀ c₁ := by
    intro r c₁ htrack
    obtain ⟨-, rfl⟩ := yields_track htrack
    exact hc.arrive rfl rfl
  rcases hstep.of_bind with ⟨a, c₁, htrack, hrest⟩ | ⟨e, -, htrack⟩
  · exact hf a c₁ r c' (hplaced htrack) hrest
  · exact hplaced htrack

theorem places_silently_bind {frame : Word} {x : Paged α} {f : α → Narrated β}
    (hx : ∀ history, Keeps (fun m => Spare c₀ frame ⟨m, history⟩) x)
    (hf : ∀ a, Places c₀ frame (f a)) : Places c₀ frame (silently x >>= f) := by
  intro c r c' hc hstep
  rcases hstep.of_bind with ⟨a, c₁, hn, hrest⟩ | ⟨e, -, hn⟩
  · exact hf a c₁ r c' (keeps_silently hx c _ c₁ hc hn) hrest
  · exact (keeps_silently hx c _ c' hc hn).toNoted

theorem places_get_bind {frame : Word} {f : Chronicle → Narrated α}
    (hf : ∀ c, Places c₀ frame (f c)) : Places c₀ frame (get >>= f) :=
  fun c r c' hc hstep => hf c c r c' hc hstep.of_get_bind

theorem places_throw (frame : Word) (e : Fault) : Places c₀ frame (throw e : Narrated α) := by
  intro c r c' hc hstep
  exact hstep.of_throw.2 ▸ hc.toNoted

theorem spare_of_takeFrame {pool : PoolKind} {pinned : Option Word} {frame : Word}
    (h : Consistent c.memory) (hpool : pool ≠ .disk) (hc : Noted c₀ c)
    (hstep : Yields (takeFrame pool pinned) c (.ok frame) c') : Spare c₀ frame c' :=
  ⟨noted_takeFrame h hc hstep,
    h.absent_of_takeFrame hpool (tells_takeFrame pool pinned c _ c' hstep)⟩

theorem noted_takeFrame_bind {pool : PoolKind} {pinned : Option Word} {f : Word → Narrated α}
    {r : Except Fault α} (h : Consistent c.memory) (hpool : pool ≠ .disk) (hc : Noted c₀ c)
    (hf : ∀ frame, Places c₀ frame (f frame))
    (hstep : Yields (takeFrame pool pinned >>= f) c r c') : Noted c₀ c' := by
  rcases hstep.of_bind with ⟨frame, c₁, htake, hrest⟩ | ⟨e, -, htake⟩
  · exact hf frame c₁ r c' (spare_of_takeFrame h hpool hc htake) hrest
  · exact noted_takeFrame h hc htake

/-! ### The operations that need a frame -/

theorem noted_pageIn {slot : Word} {pool : PoolKind} {r : Except Fault Word}
    (h : Consistent c.memory) (hpool : pool ≠ .disk) (hc : Noted c₀ c)
    (hstep : Yields (pageIn slot pool) c r c') : Noted c₀ c' := by
  rcases hstep.of_get_bind.of_outcome_bind with ⟨page, -, hstep⟩ | ⟨-, rfl⟩
  · refine noted_takeFrame_bind h hpool hc (fun frame => ?_) hstep
    have hspare := ofQueue_spare c₀ frame
    refine places_silently_bind (fun history => (hspare history).onRam _) fun _ =>
      places_get_bind fun c₁ => ?_
    cases c₁.memory.slotRefs.find? slot with
    | none => exact places_throw _ _
    | some count =>
      refine places_silently_bind (fun history => keeps_modify fun m hm =>
        (hspare history).other hm rfl rfl) fun _ => ?_
      refine places_silently_bind (fun history => (hspare history).onPool _ _) fun _ => ?_
      refine places_silently_bind (fun history => (hspare history).repoint _ _) fun _ => ?_
      refine places_track_bind frame count fun _ => Keeps.bind ?_ fun _ => keeps_pure _
      exact keeps_silently fun history => (ofQueue_noted c₀ history).tally fun _ => rfl
  · exact hc

theorem keeps_own (page target : Word) : Keeps (Noted c₀)
    (do silently (PagedMemory.updateCurrent
      (·.update page (PagedMemory.own target))); return target) := by
  refine Keeps.bind ?_ fun _ => keeps_pure _
  exact keeps_silently fun history => (ofQueue_noted c₀ history).updateCurrent _

/-- The copy comes into the queue, and what it was made from, which others map, stays there. -/
theorem noted_copy {page frame copy : Word} {count : Nat} {r : Except Fault Word}
    (hc : Spare c₀ copy c) (hne : copy ≠ frame)
    (hcount : c.memory.count? (.frame frame) = some count) (hshared : 1 < count) (hstep : Yields (do
      silently (PagedMemory.onRam (Ram.copyFrame frame copy))
      track copy 1
      silently (PagedMemory.release (.frame frame))
      silently (PagedMemory.tally fun c => { c with copies := c.copies.succ })
      silently (PagedMemory.updateCurrent (·.update page (PagedMemory.own copy)))
      return copy) c r c') : Noted c₀ c' := by
  rcases Yields.of_bind hstep with ⟨_, c₁, hcopy, hstep⟩ | ⟨e, -, hcopy⟩
  case inr =>
    exact (keeps_silently (fun history =>
      (ofQueue_spare c₀ copy history).onRam _) c _ c' hc hcopy).toNoted
  have hc₁ :=
    keeps_silently (fun history => (ofQueue_spare c₀ copy history).onRam _) c _ c₁ hc hcopy
  obtain ⟨m₁, hram, rfl⟩ := yields_silently hcopy
  obtain ⟨ram, -, rfl⟩ := PagedMemory.yields_onRam hram
  rcases Yields.of_bind hstep with ⟨_, c₂, htrack, hstep⟩ | ⟨e, -, htrack⟩
  case inr => cases (yields_track htrack).1
  obtain ⟨-, rfl⟩ := yields_track htrack
  have hc₂ := hc₁.arrive (m := counted copy 1 { c.memory with ram := ram }) rfl rfl
  have htally :
      Keeps (Noted c₀) (silently (PagedMemory.tally fun c => { c with copies := c.copies.succ })) :=
    keeps_silently fun history => (ofQueue_noted c₀ history).tally fun _ => rfl
  have hcount₂ : (c.memory.frameRefs.insert copy 1).find? frame = some count := by
    rw [Table.find?_insert, if_neg hne.symm]
    exact hcount
  rcases Yields.of_bind hstep with ⟨_, c₃, hrelease, hstep⟩ | ⟨e, -, hrelease⟩
  · obtain ⟨m₃, hrun, rfl⟩ := yields_silently hrelease
    obtain ⟨-,
        rfl⟩ := hrun.eq_of_ok (PagedMemory.release_run_recount (l := .frame frame) hcount₂ hshared)
    refine htally.bind (fun _ => keeps_own page copy) _ r c' ?_ hstep
    exact hc₂.still rfl rfl
  · obtain ⟨m₃, hrun, rfl⟩ := yields_silently hrelease
    cases (hrun.eq_of_ok (PagedMemory.release_run_recount (l := .frame frame) hcount₂ hshared)).1

theorem noted_privatise {page frame : Word}
    {r : Except Fault Word} (h : Consistent c.memory) (hc : Noted c₀ c)
    (hstep : Yields (privatise page frame) c r c') : Noted c₀ c' := by
  have hstep := hstep.of_get_bind
  dsimp only at hstep
  split at hstep
  · rename_i hshared
    rcases Yields.of_bind hstep with ⟨copy, c₁, htake, hstep⟩ | ⟨e, -, htake⟩
    · have hreal := tells_takeFrame _ _ c _ c₁ htake
      obtain ⟨hne, hcount⟩ := h.count?_of_takeFrame hshared hreal
      have hspare := spare_of_takeFrame h (c.memory.framePool_ne_disk frame) hc htake
      simp only [pure_bind] at hstep
      exact noted_copy hspare hne hcount hshared hstep
    · exact noted_takeFrame h hc htake
  · exact (keeps_pure frame).bind (keeps_own page) c r c' hc hstep

theorem noted_addPage {page : Word} {permissions : Permissions} {copyOnWrite : Bool}
    {r : Except Fault Word} (h : Consistent c.memory) (hc : Noted c₀ c)
    (hstep : Yields (addPage page permissions copyOnWrite) c r c') : Noted c₀ c' := by
  rcases Yields.of_outcome_bind hstep with ⟨_, -, hstep⟩ | ⟨-, rfl⟩
  · rcases hstep.of_get_bind.of_outcome_bind with ⟨d, -, hstep⟩ | ⟨-, rfl⟩
    · split at hstep
      · exact keeps_throw_bind _ _ c r c' hc hstep
      · refine noted_takeFrame_bind h (PagedMemory.pool_ne_disk permissions) hc (fun frame =>
          ?_) hstep
        refine places_silently_bind (fun history => (ofQueue_spare c₀ frame history).onRam _)
          fun _ => ?_
        refine places_track_bind frame 1 fun _ => Keeps.bind ?_ fun _ => keeps_pure _
        exact keeps_silently fun history => (ofQueue_noted c₀ history).updateCurrent _
    · exact hc
  · exact hc

theorem noted_bringIn {mp : Mapping} {r : Except Fault Word} (h : Consistent c.memory)
    (hc : Noted c₀ c) (hstep : Yields (bringIn mp) c r c') : Noted c₀ c' := by
  unfold bringIn at hstep
  split at hstep
  · exact hstep.of_pure.2 ▸ hc
  · exact noted_pageIn h (PagedMemory.pool_ne_disk _) hc hstep

variable {v : Virtual.Memory}

theorem noted_materialise {page : Word} {mp : Mapping} {access : Access} {r : Except Fault Word}
    (h : Consistent c.memory) (hv : Represents c.memory v) (hm : c.memory.mapping? page = some mp)
    (hc : Noted c₀ c) (hstep : Yields (materialise page mp access) c r c') : Noted c₀ c' := by
  rcases Yields.of_bind hstep with ⟨frame, c₁, hin, hrest⟩ | ⟨e, -, hin⟩
  · have hc₁ := noted_bringIn h hc hin
    split at hrest
    · -- the copy is made from a memory in which the page is in a frame
      have hreal := tells_bringIn mp c _ c₁ hin
      rcases h.bringIn hv hm with ⟨-, _, _, hrun, hfollows, -⟩ | ⟨hrun, -⟩
      · obtain ⟨-, hsame⟩ := hreal.eq_of_ok hrun
        exact noted_privatise (hsame ▸ hfollows.consistent) hc₁ hrest
      · cases (hreal.eq_of_error hrun).1
    · exact hrest.of_pure.2 ▸ hc₁
  · exact noted_bringIn h hc hin

theorem noted_resolve {page address : Word} {access : Access} {privilege : Privilege}
    {r : Except Fault Word} (h : Consistent c.memory) (hv : Represents c.memory v) (hc : Noted c₀ c)
    (hstep : Yields (resolve page address access privilege) c r c') : Noted c₀ c' := by
  refine of_lookup_bind (ofQueue_noted c₀) hc (fun mp hm hrest => ?_) hstep
  split at hrest
  · exact noted_materialise h hv hm hc hrest
  · refine Keeps.bind ?_ (fun _ => keeps_throw _) c r c' hc hrest
    exact keeps_silently fun history => (ofQueue_noted c₀ history).tally fun _ => rfl

end Narrated

theorem PagingOperation.narrated_eq_silently {op : PagingOperation} (h : op.needsFrame = false) :
    op.narrated = Narrated.silently op.perform := by
  cases op with
  | addPage | translate | translatePage | translateHostWrite => cases h
  | _ => rfl

open PagedMemory in
theorem Noted.step {c₀ c c' : Chronicle} {op : PagingOperation} {r : Except Fault Answer}
    {v : Virtual.Memory} (hc : Noted c₀ c) (h : Consistent c.memory) (hv : Represents c.memory v)
    (hneeds : op.needsFrame = true) (hstep : op.Told c r c') : Noted c₀ c' := by
  cases op with
  | addPage page permissions cow =>
    obtain ⟨r₁, -, hadd⟩ := Yields.of_map hstep
    exact Narrated.noted_addPage h hc hadd
  | translate address access privilege =>
    obtain ⟨r₁, -, htranslate⟩ := Yields.of_map hstep
    exact Narrated.of_physical_bind (Narrated.noted_resolve h hv hc) htranslate
  | translatePage page access privilege =>
    obtain ⟨r₁, -, htranslate⟩ := Yields.of_map hstep
    rcases Yields.of_outcome_bind htranslate with ⟨_, -, hresolve⟩ | ⟨-, rfl⟩
    · exact Narrated.noted_resolve h hv hc hresolve
    · exact hc
  | translateHostWrite address =>
    obtain ⟨r₁, -, htranslate⟩ := Yields.of_map hstep
    refine Narrated.of_lookup_bind (ofQueue_noted c₀) hc (fun mp hm hrest => ?_) htranslate
    exact Narrated.of_physical_bind (Narrated.noted_materialise h hv hm hc) hrest
  | _ => cases hneeds

open PagedMemory in
theorem Orderly.step {past : List Incident} {c c' : Chronicle} {op : PagingOperation}
    {r : Except Fault Answer} {v : Virtual.Memory} (hc : Orderly past c) (h : Consistent c.memory)
    (hv : Represents c.memory v) (hstep : op.Told c r c') : Orderly c.history c' := by
  cases hneeds : op.needsFrame with
  | true => exact (hc.noted.step h hv hneeds hstep).toOrderly
  | false =>
    rw [PagingOperation.Told, PagingOperation.narrated_eq_silently hneeds] at hstep
    exact Narrated.keeps_silently (fun history =>
      (ofRemaining_orderly c.history history).perform hneeds) c r c'
      hc.noted.toOrderly hstep

end PagedMachine

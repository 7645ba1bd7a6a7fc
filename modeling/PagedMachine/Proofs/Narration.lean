import PagedMachine.Proofs.Runs
import PagedMachine.Proofs.Stability

/-!
# Narrated paging

Paged memory with a history beside it. Whenever a frame becomes resident, and
whenever a pool gives one up, the narrated operations note it; otherwise they do
what the operations do, so that every run of operations has its narration.
-/

namespace PagedMachine

/-- What becomes of a frame, with the memory before it and after it. -/
inductive Incident where
  /-- The frame becomes resident. -/
  | arrival (before after : PagedMemory) (frame : Word)
  /-- The pool needs a frame and gives this one up. It would not have given up the one that is being
  copied. -/
  | eviction (before after : PagedMemory) (pool : PoolKind) (copied : Option Word) (frame : Word)

structure Chronicle where
  memory : PagedMemory
  history : List Incident

abbrev Narrated (α : Type) := EStateM Fault Chronicle α

namespace Narrated

open PagedMemory (own)

def silently {α : Type} (x : Paged α) : Narrated α :=
  focus (fun c => (c.memory, fun m => { c with memory := m })) x

def note (incident : PagedMemory → Incident) : Narrated Unit :=
  modify fun c => { c with history := incident c.memory :: c.history }

def track (frame : Word) (count : Nat) : Narrated Unit := do
  let before := (← get).memory
  silently (PagedMemory.track frame count)
  note fun after => .arrival before after frame

def makeRoom (pool : PoolKind) (pinned : Option Word) : Narrated Unit := do
  let before := (← get).memory
  if (before.pool pool).free.isEmpty then
    match before.victim? pool pinned with
    | none => throw (.resourceExhausted pool)
    | some frame =>
      silently (PagedMemory.evict frame)
      silently (PagedMemory.tally fun c => { c with evictions := c.evictions.succ })
      note fun after => .eviction before after pool pinned frame

def takeFrame (pool : PoolKind) (pinned : Option Word) : Narrated Word := do
  makeRoom pool pinned
  silently (PagedMemory.onPool pool Pool.allocate)

def pageIn (slot : Word) (pool : PoolKind) : Narrated Word := do
  let page ← outcome (Disk.readSlot (← get).memory.disk slot)
  let frame ← takeFrame pool none
  silently (PagedMemory.onRam (Ram.writeFrame frame page))
  match (← get).memory.slotRefs.find? slot with
  | none => throw (.consistencyFault .disk slot)
  | some count =>
    silently (modify fun m => { m with slotRefs := m.slotRefs.erase slot })
    silently (PagedMemory.onPool .disk (Pool.release slot))
    silently (PagedMemory.repoint (.slot slot) (.frame frame))
    track frame count
    silently (PagedMemory.tally fun c => { c with pageIns := c.pageIns.succ })
    return frame

def privatise (page frame : Word) : Narrated Word := do
  let before := (← get).memory
  let target ← if 1 < before.refs (.frame frame) then do
      let copy ← takeFrame (before.framePool frame) (some frame)
      silently (PagedMemory.onRam (Ram.copyFrame frame copy))
      track copy 1
      silently (PagedMemory.release (.frame frame))
      silently (PagedMemory.tally fun c => { c with copies := c.copies.succ })
      pure copy
    else pure frame
  silently (PagedMemory.updateCurrent (·.update page (own target)))
  return target

def bringIn (mp : Mapping) : Narrated Word :=
  match mp.location with
  | .frame frame => pure frame
  | .slot slot => pageIn slot mp.permissions.pool

def materialise (page : Word) (mp : Mapping) (access : Access) : Narrated Word := do
  let frame ← bringIn mp
  if access = .write ∧ mp.copyOnWrite then privatise page frame else return frame

def resolve (page address : Word) (access : Access) (privilege : Privilege) : Narrated Word := do
  let mp ← silently (PagedMemory.lookup page address access)
  if mp.permissions.allow access privilege then
    materialise page mp access
  else
    silently (PagedMemory.tally fun c => { c with protectionFaults := c.protectionFaults.succ })
    throw (.protectionFault address access)

def translate (address : Word) (access : Access) (privilege : Privilege) : Narrated Word := do
  let frame ← resolve address.page address access privilege
  silently (PagedMemory.physical frame address.pageOffset)

def translateHostWrite (address : Word) : Narrated Word := do
  let mp ← silently (PagedMemory.lookup address.page address .write)
  let frame ← materialise address.page mp .write
  silently (PagedMemory.physical frame address.pageOffset)

def translatePage (page : Word) (access : Access) (privilege : Privilege) : Narrated Word := do
  outcome (Paging.checkPage page)
  resolve page page.pageAddress access privilege

def addPage (page : Word) (permissions : Permissions) (copyOnWrite : Bool) : Narrated Word := do
  outcome (Paging.checkPage page)
  if (← outcome (← get).memory.currentDirectory).contains page then
    throw (.alreadyMapped page)
  let frame ← takeFrame permissions.pool none
  silently (PagedMemory.onRam (Ram.writeFrame frame zeroPage))
  track frame 1
  silently (PagedMemory.updateCurrent (·.insert page ⟨.frame frame, permissions, copyOnWrite⟩))
  return frame

end Narrated

def PagingOperation.narrated : PagingOperation → Narrated Answer
  | addPage page permissions cow => (fun _ => .done) <$> Narrated.addPage page permissions cow
  | translate address access privilege =>
    (fun _ => .done) <$> Narrated.translate address access privilege
  | translatePage page access privilege =>
    (fun _ => .done) <$> Narrated.translatePage page access privilege
  | translateHostWrite address => (fun _ => .done) <$> Narrated.translateHostWrite address
  | op => Narrated.silently op.perform

/-! ## Nothing else is different -/

/-- From here the narrated action does what the action does. -/
def Tells {α : Type} (n : Narrated α) (x : Paged α) (c : Chronicle) : Prop :=
  ∀ r c', Yields n c r c' → Yields x c.memory r c'.memory

section
variable {α β : Type} {n n' : Narrated α} {x x' : Paged α} {c : Chronicle}

theorem tells_pure (a : α) (c : Chronicle) : Tells (pure a) (pure a) c := by
  intro r c' h
  obtain ⟨rfl, rfl⟩ := h.of_pure
  rfl

theorem tells_throw (e : Fault) (c : Chronicle) : Tells (throw e : Narrated α) (throw e) c := by
  intro r c' h
  obtain ⟨rfl, rfl⟩ := h.of_throw
  rfl

theorem tells_throw_bind (e : Fault) (f : α → Narrated β) (g : α → Paged β) (c : Chronicle) :
    Tells (throw e >>= f) (throw e >>= g) c := by
  intro r c' h
  obtain ⟨rfl, rfl⟩ := h.eq_of_error (bind_error rfl)
  exact bind_error rfl

theorem tells_outcome (r : Except Fault α) (c : Chronicle) : Tells (outcome r) (outcome r) c := by
  intro r' c' h
  obtain ⟨rfl, rfl⟩ := h.of_outcome
  exact yields_outcome _ _

theorem tells_of_get {f : Chronicle → Narrated α} (h : Tells (f c) x c) : Tells (get >>= f) x c :=
  fun r c' hstep => h r c' hstep.of_get_bind

theorem tells_get {f : PagedMemory → Paged α} (h : Tells n (f c.memory) c) :
    Tells n (get >>= f) c :=
  fun r c' hstep => (h r c' hstep).of_run (get_bind f c.memory)

theorem tells_ite {p : Prop} [Decidable p] (h : p → Tells n x c) (h' : ¬ p → Tells n' x' c) :
    Tells (if p then n else n') (if p then x else x') c := by
  by_cases hp : p
  · rw [if_pos hp, if_pos hp]
    exact h hp
  · rw [if_neg hp, if_neg hp]
    exact h' hp

theorem Tells.bind {f : α → Narrated β} {g : α → Paged β} (h : Tells n x c)
    (hf : ∀ a c', Tells (f a) (g a) c') : Tells (n >>= f) (x >>= g) c := by
  intro r c' hstep
  rcases hstep.of_bind with ⟨a, c₁, hn, hrest⟩ | ⟨e, rfl, hn⟩
  · exact (h _ c₁ hn).bind_ok (hf a c₁ r c' hrest)
  · exact (h _ c' hn).bind_error

theorem Tells.map (h : Tells n x c) (g : α → β) : Tells (g <$> n) (g <$> x) c := by
  intro r c' hstep
  obtain ⟨r₁, rfl, hn⟩ := hstep.of_map
  exact (h r₁ c' hn).map g

end

namespace Narrated

variable {α : Type} {c c' : Chronicle}

theorem yields_silently {x : Paged α} {r : Except Fault α} (h : Yields (silently x) c r c') :
    ∃ m, Yields x c.memory r m ∧ c' = { c with memory := m } := by
  obtain ⟨r₁, m, hx⟩ := yields_exists x c.memory
  have hrun : Yields (silently x) c r₁ { c with memory := m } := by
    cases r₁ with
    | ok a => exact focus_ok hx
    | error e => exact focus_error hx
  obtain ⟨rfl, rfl⟩ := h.unique hrun
  exact ⟨m, hx, rfl⟩

theorem yields_note {i : PagedMemory → Incident} {r : Except Fault Unit}
    (h : Yields (note i) c r c') :
    r = .ok () ∧ c' = { c with history := i c.memory :: c.history } :=
  h.eq_of_ok rfl

theorem tells_silently (x : Paged α) (c : Chronicle) : Tells (silently x) x c := by
  intro r c' h
  obtain ⟨m, hx, rfl⟩ := yields_silently h
  exact hx

theorem tells_noted (x : Paged Unit) (i : PagedMemory → Incident) (c : Chronicle) :
    Tells (silently x >>= fun _ => note i) x c := by
  intro r c' h
  rcases h.of_bind with ⟨_, c₁, hn, hnote⟩ | ⟨e, rfl, hn⟩
  · obtain ⟨rfl, rfl⟩ := yields_note hnote
    exact tells_silently x c _ c₁ hn
  · exact tells_silently x c _ c' hn

/-! ### The operations -/

theorem tells_track (frame : Word) (count : Nat) (c : Chronicle) :
    Tells (track frame count) (PagedMemory.track frame count) c :=
  tells_of_get (tells_noted _ _ c)

theorem tells_takeFrame (pool : PoolKind) (pinned : Option Word) (c : Chronicle) :
    Tells (takeFrame pool pinned) (PagedMemory.takeFrame pool pinned) c := by
  rw [PagedMemory.takeFrame_eq]
  refine Tells.bind ?_ fun _ c' => tells_silently _ c'
  refine tells_of_get (tells_get (tells_ite (fun _ => tells_get ?_) fun _ => tells_pure () c))
  cases c.memory.victim? pool pinned with
  | none => exact tells_throw _ c
  | some frame => exact (tells_silently _ c).bind fun _ c₁ => tells_noted _ _ c₁

theorem tells_pageIn (slot : Word) (pool : PoolKind) (c : Chronicle) :
    Tells (pageIn slot pool) (PagedMemory.pageIn slot pool) c := by
  refine tells_of_get (tells_get ((tells_outcome _ c).bind fun page c₁ => ?_))
  refine (tells_takeFrame pool none c₁).bind fun frame c₂ =>
    (tells_silently _ c₂).bind fun _ c₃ => ?_
  refine tells_of_get (tells_get ?_)
  cases c₃.memory.slotRefs.find? slot with
  | none => exact tells_throw _ c₃
  | some count =>
    refine (tells_silently _ c₃).bind fun _ c₄ => (tells_silently _ c₄).bind fun _ c₅ => ?_
    refine (tells_silently _ c₅).bind fun _ c₆ => (tells_track frame count c₆).bind fun _ c₇ => ?_
    exact (tells_silently _ c₇).bind fun _ c₈ => tells_pure frame c₈

theorem tells_privatise (page frame : Word) (c : Chronicle) :
    Tells (privatise page frame) (PagedMemory.privatise page frame) c := by
  refine tells_of_get (tells_get ?_)
  have hrest : ∀ target c', Tells
      (do
        silently (PagedMemory.updateCurrent (·.update page (PagedMemory.own target)))
        return target)
      (do PagedMemory.updateCurrent (·.update page (PagedMemory.own target)); return target) c' :=
    fun target c' => (tells_silently _ c').bind fun _ c'' => tells_pure target c''
  refine tells_ite (fun _ => tells_get ?_) fun _ => hrest frame c
  refine (tells_takeFrame _ _ c).bind fun copy c₁ => (tells_silently _ c₁).bind fun _ c₂ => ?_
  refine (tells_track copy 1 c₂).bind fun _ c₃ => (tells_silently _ c₃).bind fun _ c₄ => ?_
  exact (tells_silently _ c₄).bind fun _ c₅ => hrest copy c₅

theorem tells_bringIn (mp : Mapping) (c : Chronicle) :
    Tells (bringIn mp) (PagedMemory.bringIn mp) c := by
  unfold bringIn PagedMemory.bringIn
  cases mp.location with
  | frame frame => exact tells_pure frame c
  | slot slot => exact tells_pageIn slot _ c

theorem tells_materialise (page : Word) (mp : Mapping) (access : Access) (c : Chronicle) :
    Tells (materialise page mp access) (PagedMemory.materialise page mp access) c := by
  rw [PagedMemory.materialise_eq]
  exact (tells_bringIn mp c).bind fun frame c₁ =>
    tells_ite (fun _ => tells_privatise page frame c₁) fun _ => tells_pure frame c₁

theorem tells_resolve (page address : Word) (access : Access) (privilege : Privilege)
    (c : Chronicle) : Tells (resolve page address access privilege)
    (PagedMemory.resolve page address access privilege) c := by
  refine (tells_silently _ c).bind fun mp c₁ =>
    tells_ite (fun _ => tells_materialise page mp access c₁) fun _ => ?_
  exact (tells_silently _ c₁).bind fun _ c₂ => tells_throw _ c₂

theorem tells_addPage (page : Word) (permissions : Permissions) (copyOnWrite : Bool)
    (c : Chronicle) : Tells (addPage page permissions copyOnWrite)
    (PagedMemory.addPage page permissions copyOnWrite) c := by
  unfold addPage PagedMemory.addPage
  refine (tells_outcome _ c).bind fun _ c₁ =>
    tells_of_get (tells_get ((tells_outcome _ c₁).bind fun d c₂ => ?_))
  refine tells_ite (fun _ => tells_throw_bind _ _ _ c₂) fun _ => ?_
  refine (tells_takeFrame _ _ c₂).bind fun frame c₃ => (tells_silently _ c₃).bind fun _ c₄ => ?_
  exact (tells_track frame 1 c₄).bind fun _ c₅ => (tells_silently _ c₅).bind fun _ c₆ =>
    tells_pure frame c₆

end Narrated

theorem PagingOperation.tells (op : PagingOperation) (c : Chronicle) :
    Tells op.narrated op.perform c := by
  cases op with
  | addPage page permissions cow => exact (Narrated.tells_addPage page permissions cow c).map _
  | translate address access privilege =>
    refine Tells.map ?_ _
    exact (Narrated.tells_resolve _ _ access privilege c).bind fun _ c₁ =>
      Narrated.tells_silently _ c₁
  | translatePage page access privilege =>
    exact ((tells_outcome _ c).bind fun _ c₁ =>
      Narrated.tells_resolve page _ access privilege c₁).map _
  | translateHostWrite address =>
    refine Tells.map ((Narrated.tells_silently _ c).bind fun mp c₁ => ?_) _
    exact (Narrated.tells_materialise _ mp .write c₁).bind fun _ c₂ => Narrated.tells_silently _ c₂
  | beginProcess | endProcess | switchProcess | forkProcess | removePage | removeAll | sharePage
      | pageOut =>
    exact Narrated.tells_silently _ c

/-! ## Narrated runs -/

def PagingOperation.Told (op : PagingOperation) (c : Chronicle) (r : Except Fault Answer)
    (c' : Chronicle) : Prop :=
  Yields op.narrated c r c'

def Event.untold {ω α : Type} (e : Event Chronicle ω α) : Event PagedMemory ω α :=
  ⟨e.operation, e.answer, e.state.memory⟩

theorem creations_untold {ω : Type} (es : List (Event Chronicle ω Answer)) :
    creations (es.map Event.untold) = creations es := by
  induction es with
  | nil => rfl
  | cons e es ih => exact congrArg (created e.answer + ·) ih

theorem PagingOperation.Step.told {op : PagingOperation} {m m' : PagedMemory}
    {r : Except Fault Answer} (h : op.Step m r m') (history : List Incident) :
    ∃ history', op.Told ⟨m, history⟩ r ⟨m', history'⟩ := by
  obtain ⟨r₁, c, hc⟩ := yields_exists op.narrated ⟨m, history⟩
  obtain ⟨rfl, rfl⟩ := h.unique (op.tells _ r₁ c hc)
  exact ⟨c.history, hc⟩

/-- Every run can be narrated, after any history. -/
theorem Run.told {m m' : PagedMemory} {es : List (Event PagedMemory PagingOperation Answer)}
    (h : Run PagingOperation.Step m es m') : ∀ history, ∃ told history',
      Run PagingOperation.Told ⟨m, history⟩ told ⟨m', history'⟩ ∧ told.map Event.untold = es := by
  induction h with
  | done m => exact fun history => ⟨[], history, .done _, rfl⟩
  | next hfirst _ ih =>
    intro history
    obtain ⟨history₁, hstep⟩ := hfirst.told history
    obtain ⟨told, history', hrun, rfl⟩ := ih history₁
    exact ⟨_ :: told, history', .next hstep hrun, rfl⟩

end PagedMachine

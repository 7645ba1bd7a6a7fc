import PagedMachine.Fault
import PagedMachine.Focus

/-!
# Behaviour

The behaviour of an action is the relation between the state before it, its
answer and the state after it. A specification is such a relation too, and may
leave a choice. A run is a list of operations, each with its answer and the state
that it leads to.
-/

namespace PagedMachine

variable {σ τ ω α β : Type}

/-! ## Actions, step by step -/

section
variable {ε : Type} {x : EStateM ε σ α} {f : α → EStateM ε σ β} {s s' : σ}

theorem bind_ok {a : α} (h : x.run s = .ok a s') : (x >>= f).run s = (f a).run s' := by
  simp only [EStateM.run, bind, EStateM.bind] at h ⊢
  rw [h]

theorem bind_error {e : ε} (h : x.run s = .error e s') : (x >>= f).run s = .error e s' := by
  simp only [EStateM.run, bind, EStateM.bind] at h ⊢
  rw [h]

theorem get_bind (f : σ → EStateM ε σ β) (s : σ) : (get >>= f).run s = (f s).run s := rfl

theorem modify_bind (g : σ → σ) (f : Unit → EStateM ε σ β) (s : σ) :
    ((modify g : EStateM ε σ Unit) >>= f).run s = (f ()).run (g s) := rfl

theorem map_ok {g : α → β} {a : α} (h : x.run s = .ok a s') : (g <$> x).run s = .ok (g a) s' := by
  simp only [EStateM.run, Functor.map, EStateM.map] at h ⊢
  rw [h]

theorem map_error {g : α → β} {e : ε} (h : x.run s = .error e s') :
    (g <$> x).run s = .error e s' := by
  simp only [EStateM.run, Functor.map, EStateM.map] at h ⊢
  rw [h]

theorem outcome_ok {r : Except ε α} {a : α} (h : r = .ok a) (s : σ) :
    (outcome r : EStateM ε σ α).run s = .ok a s := by
  rw [h]; rfl

theorem outcome_error {r : Except ε α} {e : ε} (h : r = .error e) (s : σ) :
    (outcome r : EStateM ε σ α).run s = .error e s := by
  rw [h]; rfl

theorem ofExcept_ok {r : Except ε α} {a : α} (h : r = .ok a) (s : σ) :
    (MonadExcept.ofExcept r : EStateM ε σ α).run s = .ok a s := by
  rw [h]; rfl

theorem attempt_ok {a : α} (h : x.run s = .ok a s') : (attempt x).run s = .ok (.ok a) s' := by
  simp only [EStateM.run, attempt] at h ⊢
  rw [h]

theorem attempt_error {e : ε} (h : x.run s = .error e s') :
    (attempt x).run s = .ok (.error e) s' := by
  simp only [EStateM.run, attempt] at h ⊢
  rw [h]

end

section
variable {ε : Type} {split : σ → τ × (τ → σ)} {x : EStateM ε τ α} {s : σ} {t' : τ}

theorem focus_ok {a : α} (h : x.run (split s).1 = .ok a t') :
    (focus split x).run s = .ok a ((split s).2 t') := by
  simp only [EStateM.run, focus] at h ⊢
  rw [h]

theorem focus_error {e : ε} (h : x.run (split s).1 = .error e t') :
    (focus split x).run s = .error e ((split s).2 t') := by
  simp only [EStateM.run, focus] at h ⊢
  rw [h]

end

theorem isOk_map {g : α → β} (r : Except Fault α) : (r.map g).isOk = r.isOk := by cases r <;> rfl

/-- The action goes from one state to the other with this answer. -/
def Yields (x : EStateM Fault σ α) (s : σ) (r : Except Fault α) (s' : σ) : Prop :=
  match r with
  | .ok a => x.run s = .ok a s'
  | .error e => x.run s = .error e s'

theorem yields_exists (x : EStateM Fault σ α) (s : σ) : ∃ r s', Yields x s r s' := by
  cases h : x.run s with
  | ok a s' => exact ⟨.ok a, s', h⟩
  | error e s' => exact ⟨.error e, s', h⟩

theorem Yields.unique {x : EStateM Fault σ α} {s s₁ s₂ : σ} {r₁ r₂ : Except Fault α}
    (h₁ : Yields x s r₁ s₁) (h₂ : Yields x s r₂ s₂) : r₁ = r₂ ∧ s₁ = s₂ := by
  cases r₁ <;> cases r₂ <;> simp_all [Yields]

theorem Yields.eq_of_ok {x : EStateM Fault σ α} {s s₁ s₂ : σ} {r : Except Fault α} {a : α}
    (h : Yields x s r s₁) (hrun : x.run s = .ok a s₂) : r = .ok a ∧ s₁ = s₂ :=
  h.unique (show Yields x s (.ok a) s₂ from hrun)

theorem Yields.eq_of_error {x : EStateM Fault σ α} {s s₁ s₂ : σ} {r : Except Fault α} {e : Fault}
    (h : Yields x s r s₁) (hrun : x.run s = .error e s₂) : r = .error e ∧ s₁ = s₂ :=
  h.unique (show Yields x s (.error e) s₂ from hrun)

theorem Yields.of_run {x y : EStateM Fault σ α} {s t s' : σ} {r : Except Fault α}
    (h : Yields y t r s') (he : x.run s = y.run t) : Yields x s r s' := by
  cases r with
  | ok a => exact he.trans h
  | error e => exact he.trans h

theorem Yields.map {x : EStateM Fault σ α} {s s' : σ} {r : Except Fault α} (h : Yields x s r s')
    (g : α → β) : Yields (g <$> x) s (r.map g) s' := by
  cases r with
  | ok a => exact map_ok h
  | error e => exact map_error h

theorem Yields.bind_ok {x : EStateM Fault σ α} {f : α → EStateM Fault σ β} {s t s' : σ} {a : α}
    {r : Except Fault β} (h : Yields x s (.ok a) t) (h' : Yields (f a) t r s') :
    Yields (x >>= f) s r s' := by
  cases r with
  | ok b => exact (PagedMachine.bind_ok h).trans h'
  | error e => exact (PagedMachine.bind_ok h).trans h'

theorem Yields.bind_error {x : EStateM Fault σ α} {f : α → EStateM Fault σ β} {s s' : σ} {e : Fault}
    (h : Yields x s (.error e) s') : Yields (x >>= f) s (.error e) s' :=
  PagedMachine.bind_error h

/-- What a sequence of two actions can do. -/
theorem Yields.of_bind {x : EStateM Fault σ α} {f : α → EStateM Fault σ β} {s s' : σ}
    {r : Except Fault β} (h : Yields (x >>= f) s r s') :
    (∃ a t, Yields x s (.ok a) t ∧ Yields (f a) t r s') ∨
    ∃ e, r = .error e ∧ Yields x s (.error e) s' := by
  obtain ⟨r₁, t, hx⟩ := yields_exists x s
  cases r₁ with
  | ok a =>
    obtain ⟨r₂, t', hf⟩ := yields_exists (f a) t
    obtain ⟨rfl, rfl⟩ := h.unique (hx.bind_ok hf)
    exact .inl ⟨a, t, hx, hf⟩
  | error e =>
    obtain ⟨rfl, rfl⟩ := h.unique hx.bind_error
    exact .inr ⟨e, rfl, hx⟩

theorem Yields.of_bind_ok {x : EStateM Fault σ α} {f : α → EStateM Fault σ β} {s s' : σ} {b : β}
    (h : Yields (x >>= f) s (.ok b) s') :
    ∃ a t, Yields x s (.ok a) t ∧ Yields (f a) t (.ok b) s' := by
  rcases h.of_bind with hok | ⟨e, he, -⟩
  · exact hok
  · cases he

theorem Yields.of_get_bind {f : σ → EStateM Fault σ β} {s s' : σ} {r : Except Fault β}
    (h : Yields (get >>= f) s r s') : Yields (f s) s r s' :=
  h.of_run (get_bind f s).symm

theorem Yields.of_map {x : EStateM Fault σ α} {s s' : σ} {g : α → β} {r : Except Fault β}
    (h : Yields (g <$> x) s r s') : ∃ r₁, r = r₁.map g ∧ Yields x s r₁ s' := by
  obtain ⟨r₁, t, hx⟩ := yields_exists x s
  obtain ⟨rfl, rfl⟩ := h.unique (hx.map g)
  exact ⟨r₁, rfl, hx⟩

theorem Yields.of_map_ok {x : EStateM Fault σ α} {s s' : σ} {g : α → β} {b : β}
    (h : Yields (g <$> x) s (.ok b) s') : ∃ a, b = g a ∧ Yields x s (.ok a) s' := by
  obtain ⟨r, hr, hx⟩ := h.of_map
  cases r with
  | ok a => exact ⟨a, Except.ok.inj hr, hx⟩
  | error e => cases hr

theorem yields_outcome (x : Except Fault α) (s : σ) : Yields (outcome x) s x s := by cases x <;> rfl

theorem Yields.of_outcome {x : Except Fault α} {s s' : σ} {r : Except Fault α}
    (h : Yields (outcome x) s r s') : r = x ∧ s' = s :=
  h.unique (yields_outcome x s)

theorem Yields.of_outcome_bind {x : Except Fault α} {f : α → EStateM Fault σ β} {s s' : σ}
    {r : Except Fault β} (h : Yields (outcome x >>= f) s r s') :
    (∃ a, x = .ok a ∧ Yields (f a) s r s') ∨ (∃ e, x = .error e ∧ r = .error e) ∧ s' = s := by
  rcases h.of_bind with ⟨a, t, hx, hf⟩ | ⟨e, hr, hx⟩
  · obtain ⟨ha, rfl⟩ := hx.of_outcome
    exact .inl ⟨a, ha.symm, hf⟩
  · obtain ⟨he, rfl⟩ := hx.of_outcome
    exact .inr ⟨⟨e, he.symm, hr⟩, rfl⟩

theorem Yields.of_pure {s s' : σ} {a : α} {r : Except Fault α}
    (h : Yields (pure a : EStateM Fault σ α) s r s') : r = .ok a ∧ s' = s :=
  h.unique (show Yields (pure a : EStateM Fault σ α) s (.ok a) s from rfl)

theorem Yields.of_throw {s s' : σ} {e : Fault} {r : Except Fault α}
    (h : Yields (throw e : EStateM Fault σ α) s r s') : r = .error e ∧ s' = s :=
  h.unique (show Yields (throw e : EStateM Fault σ α) s (.error e) s from rfl)

/-! ## What actions keep -/

def Keeps (I : σ → Prop) (x : EStateM Fault σ α) : Prop := ∀ s r s', I s → Yields x s r s' → I s'

section
variable {I : σ → Prop} {x : EStateM Fault σ α} {f : α → EStateM Fault σ β}

theorem keeps_pure (a : α) : Keeps I (pure a) := by
  intro s r s' hs h
  rwa [h.of_pure.2]

theorem keeps_throw (e : Fault) : Keeps I (throw e : EStateM Fault σ α) := by
  intro s r s' hs h
  rwa [h.of_throw.2]

theorem keeps_outcome (r : Except Fault α) : Keeps I (outcome r) := by
  intro s r s' hs h
  rwa [h.of_outcome.2]

theorem Keeps.bind (h : Keeps I x) (hf : ∀ a, Keeps I (f a)) : Keeps I (x >>= f) := by
  intro s r s' hs hstep
  rcases hstep.of_bind with ⟨a, t, hx, hrest⟩ | ⟨e, -, hx⟩
  · exact hf a t r s' (h s _ t hs hx) hrest
  · exact h s _ s' hs hx

theorem keeps_throw_bind (e : Fault) (f : α → EStateM Fault σ β) : Keeps I (throw e >>= f) := by
  intro s r s' hs hstep
  rwa [(hstep.eq_of_error (PagedMachine.bind_error rfl)).2]

theorem keeps_get_bind {f : σ → EStateM Fault σ β} (hf : ∀ s, I s → Keeps I (f s)) :
    Keeps I (get >>= f) :=
  fun s r s' hs hstep => hf s hs s r s' hs hstep.of_get_bind

theorem Keeps.map (h : Keeps I x) (g : α → β) : Keeps I (g <$> x) := by
  intro s r s' hs hstep
  obtain ⟨r₁, -, hx⟩ := hstep.of_map
  exact h s r₁ s' hs hx

theorem keeps_modify {g : σ → σ} (hg : ∀ s, I s → I (g s)) :
    Keeps I (modify g : EStateM Fault σ Unit) := by
  intro s r s' hs hstep
  obtain ⟨-, rfl⟩ :=
    hstep.eq_of_ok (show (modify g : EStateM Fault σ Unit).run s = .ok () (g s) from rfl)
  exact hg s hs

theorem keeps_set {t : σ} (ht : I t) : Keeps I (set t : EStateM Fault σ PUnit) := by
  intro s r s' _ hstep
  obtain ⟨-, rfl⟩ := hstep.eq_of_ok (show (set t : EStateM Fault σ PUnit).run s = .ok () t from rfl)
  exact ht

theorem keeps_attempt (h : Keeps I x) : Keeps I (attempt x) := by
  intro s r s' hs hstep
  obtain ⟨r₁, t, hx⟩ := yields_exists x s
  have hrun : (attempt x).run s = .ok r₁ t := by
    cases r₁ with
    | ok a => exact attempt_ok hx
    | error e => exact attempt_error hx
  obtain ⟨-, rfl⟩ := hstep.eq_of_ok hrun
  exact h s r₁ _ hs hx

end

/-! ## Behaviours -/

/-- What may happen: the state before, the answer, the state after. -/
structure Behaviour (σ α : Type) where
  allows : σ → Except Fault α → σ → Prop

namespace Behaviour

instance : Monad (Behaviour σ) where
  pure a := ⟨fun s r s' => r = .ok a ∧ s' = s⟩
  bind x f := ⟨fun s r s' =>
    (∃ a t, x.allows s (.ok a) t ∧ (f a).allows t r s') ∨
    ∃ e, r = .error e ∧ x.allows s (.error e) s'⟩

instance : MonadStateOf σ (Behaviour σ) where
  get := ⟨fun s r s' => r = .ok s ∧ s' = s⟩
  set t := ⟨fun _ r s' => r = .ok () ∧ s' = t⟩
  modifyGet f := ⟨fun s r s' => r = .ok (f s).1 ∧ s' = (f s).2⟩

def result (x : Except Fault α) : Behaviour σ α := ⟨fun s r s' => r = x ∧ s' = s⟩

def fault (e : Fault) : Behaviour σ α := result (.error e)

/-- Storage is granted, or the pages of some pool are used up. -/
def claim : Behaviour σ Unit :=
  ⟨fun s r s' => s' = s ∧ (r = .ok () ∨ ∃ pool, r = .error (.resourceExhausted pool))⟩

section
variable {x : Behaviour σ α} {f : α → Behaviour σ β} {s s' t : σ} {r : Except Fault β} {a : α}
    {e : Fault}

theorem bind_ok (h : x.allows s (.ok a) t) (h' : (f a).allows t r s') : (x >>= f).allows s r s' :=
  .inl ⟨a, t, h, h'⟩

theorem bind_error (h : x.allows s (.error e) s') : (x >>= f).allows s (.error e) s' :=
  .inr ⟨e, rfl, h⟩

@[simp] theorem allows_pure {b : β} : (pure b : Behaviour σ β).allows s r s' ↔
    r = .ok b ∧ s' = s := Iff.rfl

@[simp] theorem allows_claim {r : Except Fault Unit} : (claim : Behaviour σ Unit).allows s r s' ↔
    s' = s ∧ (r = .ok () ∨ ∃ pool, r = .error (.resourceExhausted pool)) := Iff.rfl

@[simp] theorem allows_modify {g : σ → σ} {r : Except Fault Unit} :
    (modify g : Behaviour σ Unit).allows s r s' ↔ r = .ok () ∧ s' = g s := Iff.rfl

@[simp] theorem allows_modifyGet {g : σ → β × σ} :
    (modifyGet g : Behaviour σ β).allows s r s' ↔ r = .ok (g s).1 ∧ s' = (g s).2 := Iff.rfl

theorem allows_bind : (x >>= f).allows s r s' ↔
    (∃ a t, x.allows s (.ok a) t ∧ (f a).allows t r s') ∨
    ∃ e, r = .error e ∧ x.allows s (.error e) s' := Iff.rfl

@[simp] theorem allows_map {g : α → β} : (g <$> x).allows s r s' ↔
    ∃ r₀, r = r₀.map g ∧ x.allows s r₀ s' := by
  constructor
  · rintro (⟨a, t, h, hr, hs⟩ | ⟨e, hr, h⟩)
    · exact ⟨.ok a, hr, hs ▸ h⟩
    · exact ⟨.error e, hr, h⟩
  · rintro ⟨r₀ | a, hr, h⟩
    · exact .inr ⟨_, hr, h⟩
    · exact .inl ⟨a, s', h, hr, rfl⟩

/-- What can only go one way is a step of its own. -/
theorem allows_bind_of_forced (h : ∀ r' t', x.allows s r' t' ↔ r' = .ok a ∧ t' = t) :
    (x >>= f).allows s r s' ↔ (f a).allows t r s' := by
  constructor
  · rintro (⟨b, t', hx, hf⟩ | ⟨e, -, hx⟩)
    · obtain ⟨hb, ht⟩ := (h _ _).mp hx
      obtain rfl := Except.ok.inj hb
      exact ht ▸ hf
    · cases ((h _ _).mp hx).1
  · exact fun hf => .inl ⟨a, t, (h _ _).mpr ⟨rfl, rfl⟩, hf⟩

@[simp] theorem allows_get_bind {f : σ → Behaviour σ β} :
    ((get : Behaviour σ σ) >>= f).allows s r s' ↔ (f s).allows s r s' :=
  allows_bind_of_forced fun _ _ => Iff.rfl

@[simp] theorem allows_modify_bind {g : σ → σ} {f : Unit → Behaviour σ β} :
    ((modify g : Behaviour σ Unit) >>= f).allows s r s' ↔ (f ()).allows (g s) r s' :=
  allows_bind_of_forced fun _ _ => Iff.rfl

@[simp] theorem allows_modifyGet_bind {g : σ → α × σ} :
    ((modifyGet g : Behaviour σ α) >>= f).allows s r s' ↔ (f (g s).1).allows (g s).2 r s' :=
  allows_bind_of_forced fun _ _ => Iff.rfl

@[simp] theorem allows_ok_bind : ((result (.ok a) : Behaviour σ α) >>= f).allows s r s' ↔
    (f a).allows s r s' :=
  allows_bind_of_forced fun _ _ => Iff.rfl

@[simp] theorem allows_error_bind :
    ((result (.error e) : Behaviour σ α) >>= f).allows s r s' ↔ r = .error e ∧ s' = s := by
  constructor
  · rintro (⟨a, t, ⟨ha, -⟩, -⟩ | ⟨e, hr, he, hs⟩)
    · cases ha
    · obtain rfl := Except.error.inj he
      exact ⟨hr, hs⟩
  · rintro ⟨hr, hs⟩
    exact .inr ⟨e, hr, rfl, hs⟩

@[simp] theorem allows_fault_bind :
    ((fault e : Behaviour σ α) >>= f).allows s r s' ↔ r = .error e ∧ s' = s := allows_error_bind

@[simp] theorem allows_claim_bind {f : Unit → Behaviour σ β} :
    ((claim : Behaviour σ Unit) >>= f).allows s r s' ↔
    (f ()).allows s r s' ∨ ∃ pool, r = .error (.resourceExhausted pool) ∧ s' = s := by
  constructor
  · rintro (⟨a, t, ⟨ht, -⟩, h⟩ | ⟨e, hr, hs, he | ⟨pool, he⟩⟩)
    · exact .inl (ht ▸ h)
    · cases he
    · obtain rfl := Except.error.inj he
      exact .inr ⟨pool, hr, hs⟩
  · rintro (h | ⟨pool, hr, hs⟩)
    · exact .inl ⟨(), s, ⟨rfl, .inl rfl⟩, h⟩
    · exact .inr ⟨_, hr, hs, .inr ⟨pool, rfl⟩⟩

end

end Behaviour

/-! ## Runs -/

structure Event (σ ω α : Type) where
  operation : ω
  answer : Except Fault α
  state : σ

inductive Run (step : ω → σ → Except Fault α → σ → Prop) : σ → List (Event σ ω α) → σ → Prop
  | done (s : σ) : Run step s [] s
  | next {s s' t : σ} {op : ω} {r : Except Fault α} {rest : List (Event σ ω α)} :
      step op s r s' → Run step s' rest t → Run step s (⟨op, r, s'⟩ :: rest) t

theorem Run.keeps {step : ω → σ → Except Fault α → σ → Prop} {I : σ → Prop}
    (hstep : ∀ op s r s', I s → step op s r s' → I s') {es : List (Event σ ω α)} {s t : σ}
    (hrun : Run step s es t) (h : I s) : I t := by
  induction hrun with
  | done => exact h
  | next hfirst _ ih => exact ih (hstep _ _ _ _ h hfirst)

def Along (P : σ → Event σ ω α → Prop) : σ → List (Event σ ω α) → Prop
  | _, [] => True
  | s, e :: rest => P s e ∧ Along P e.state rest

end PagedMachine

import PagedMachine.Proofs.Behaviour
import PagedMachine.Proofs.Readings

/-!
# Checks

Programs whose operations are checked where the program without checks relies on
its numbers. An operation outside its range ends in a trap, which is no fault and
which nothing catches. A checked program passes if it does what the other does.
-/

namespace PagedMachine

variable {σ τ α β : Type}

/-! ## Numbers of a width -/

def unsigned? (bits : Nat) (n : Int) : Option Nat :=
  if 0 ≤ n ∧ n < 2 ^ bits then some n.toNat else none

def signed? (bits : Nat) (n : Int) : Option Int :=
  if -2 ^ (bits - 1) ≤ n ∧ n < 2 ^ (bits - 1) then some n else none

theorem unsigned?_of_lt {bits : Nat} {n : Int} {k : Nat} (hn : n = k) (h : k < 2 ^ bits) :
    unsigned? bits n = some k := by
  subst hn
  rw [unsigned?, if_pos ⟨Int.natCast_nonneg k, by exact_mod_cast h⟩, Int.toNat_natCast]

theorem signed?_of_mem {bits : Nat} {n : Int} (hl : -2 ^ (bits - 1) ≤ n) (hr : n < 2 ^ (bits - 1)) :
    signed? bits n = some n :=
  if_pos ⟨hl, hr⟩

/-- No number is divided by zero, and the quotient is one of the width. -/
def quotient? (bits : Nat) (a b : Int) : Option Int :=
  if b = 0 then none else signed? bits (a.tdiv b)

theorem quotient?_eq {bits : Nat} {a b : Int} (ha : Fits bits a) (hb : b ≠ 0)
    (hleast : ¬ (a = -2 ^ (bits - 1) ∧ b = -1)) : quotient? bits a b = some (a.tdiv b) := by
  rw [quotient?, if_neg hb]
  exact signed?_of_mem (ha.tdiv hb hleast).1 (ha.tdiv hb hleast).2

namespace Word

def shl? (value : Word) (places : Nat) : Option Word :=
  if places < 32 then some (value <<< UInt32.ofNat places) else none

def shr? (value : Word) (places : Nat) : Option Word :=
  if places < 32 then some (value >>> UInt32.ofNat places) else none

def sar? (value : Word) (places : Nat) : Option Word :=
  if places < 32 then some (ofInt (value.signed / 2 ^ places)) else none

theorem shl?_eq (value : Word) {places : Nat} (h : places < 32) :
    value.shl? places = some (UInt32.ofNat (value.toNat * 2 ^ places)) := by
  rw [shl?, if_pos h, Option.some_inj, ← UInt32.toNat_inj, UInt32.toNat_shiftLeft,
    UInt32.toNat_ofNat', UInt32.toNat_ofNat', Nat.mod_eq_of_lt (by omega : places < 2 ^ 32),
    Nat.mod_eq_of_lt h, Nat.shiftLeft_eq]

theorem shr?_eq (value : Word) {places : Nat} (h : places < 32) :
    value.shr? places = some (UInt32.ofNat (value.toNat / 2 ^ places)) := by
  have hlt : value.toNat / 2 ^ places < 2 ^ 32 :=
    Nat.lt_of_le_of_lt (Nat.div_le_self ..) value.toNat_lt
  rw [shr?, if_pos h, Option.some_inj, ← UInt32.toNat_inj, UInt32.toNat_shiftRight,
    UInt32.toNat_ofNat', UInt32.toNat_ofNat', Nat.mod_eq_of_lt (by omega : places < 2 ^ 32),
    Nat.mod_eq_of_lt h, Nat.shiftRight_eq_div_pow, Nat.mod_eq_of_lt hlt]

theorem sar?_eq (value : Word) {places : Nat} (h : places < 32) :
    value.sar? places = some (ofInt (value.signed / 2 ^ places)) :=
  if_pos h

end Word

example : Word.shl? 1 32 = none := rfl

example : quotient? 32 (-2 ^ 31) (-1) = none := by decide

/-! ## Checked programs -/

inductive Trap where
  | fault (fault : Fault)
  /-- An operation outside of its range. -/
  | outOfRange

abbrev Checked (σ α : Type) := EStateM Trap σ α

namespace Checked

def lift (x : EStateM Fault σ α) : Checked σ α := fun s =>
  match x s with
  | .ok a s' => .ok a s'
  | .error e s' => .error (.fault e) s'

def require (p : Prop) [Decidable p] : Checked σ Unit := if p then pure () else throw .outOfRange

def defined : Option α → Checked σ α
  | some a => pure a
  | none => throw .outOfRange

def result (r : Except Fault α) : Except Trap α := r.mapError .fault

end Checked

open Checked

/-- From this state the checked program does what the program does, so it ends in no trap. -/
def Passes (c : Checked σ α) (x : EStateM Fault σ α) (s : σ) : Prop := c.run s = (lift x).run s

section
variable {c : Checked σ α} {x : EStateM Fault σ α} {s : σ}

theorem lift_ok {a : α} {s' : σ} (h : Yields x s (.ok a) s') : (lift x).run s = .ok a s' := by
  change x s = .ok a s' at h
  change lift x s = .ok a s'
  rw [lift, h]

theorem lift_error {e : Fault} {s' : σ} (h : Yields x s (.error e) s') :
    (lift x).run s = .error (.fault e) s' := by
  change x s = .error e s' at h
  change lift x s = .error (.fault e) s'
  rw [lift, h]

theorem Passes.ok (h : Passes c x s) {a : α} {s' : σ} (hx : Yields x s (.ok a) s') :
    c.run s = .ok a s' :=
  h.trans (lift_ok hx)

theorem Passes.error (h : Passes c x s) {e : Fault} {s' : σ} (hx : Yields x s (.error e) s') :
    c.run s = .error (.fault e) s' :=
  h.trans (lift_error hx)

theorem passes_lift (x : EStateM Fault σ α) (s : σ) : Passes (lift x) x s := rfl

theorem passes_pure (a : α) (s : σ) : Passes (pure a : Checked σ α) (pure a) s := rfl

theorem passes_throw (e : Fault) (s : σ) :
    Passes (throw (.fault e) : Checked σ α) (throw e) s := rfl

theorem passes_modify (f : σ → σ) (s : σ) : Passes (modify f : Checked σ Unit) (modify f) s := rfl

theorem Passes.bind {d : α → Checked σ β} {f : α → EStateM Fault σ β} (h : Passes c x s)
    (hf : ∀ a s', Yields x s (.ok a) s' → Passes (d a) (f a) s') :
    Passes (c >>= d) (x >>= f) s := by
  obtain ⟨r, s', hx⟩ := yields_exists x s
  cases r with
  | ok a =>
    have hrest : Passes (d a) (f a) s' := hf a s' hx
    obtain ⟨r, t, hy⟩ := yields_exists (f a) s'
    cases r with
    | ok b =>
      have hboth : Yields (x >>= f) s (.ok b) t := hx.bind_ok hy
      exact (bind_ok (h.ok hx)).trans ((hrest.ok hy).trans (lift_ok hboth).symm)
    | error e =>
      have hboth : Yields (x >>= f) s (.error e) t := hx.bind_ok hy
      exact (bind_ok (h.ok hx)).trans ((hrest.error hy).trans (lift_error hboth).symm)
  | error e =>
    have hboth : Yields (x >>= f) s (.error e) s' := hx.bind_error
    exact (bind_error (h.error hx)).trans (lift_error hboth).symm

theorem passes_throw_bind (e : Fault) (d : β → Checked σ α) (f : β → EStateM Fault σ α) (s : σ) :
    Passes ((throw (.fault e) : Checked σ β) >>= d) (throw e >>= f) s := rfl

theorem Passes.map (h : Passes c x s) (g : α → β) : Passes (g <$> c) (g <$> x) s := by
  obtain ⟨r, s', hx⟩ := yields_exists x s
  cases r with
  | ok a => exact (map_ok (h.ok hx)).trans (lift_ok (hx.map g)).symm
  | error e => exact (map_error (h.error hx)).trans (lift_error (hx.map g)).symm

theorem passes_get_bind {d : σ → Checked σ β} {f : σ → EStateM Fault σ β}
    (h : Passes (d s) (f s) s) :
    Passes (get >>= d) (get >>= f) s := h

/-- The state is read by the checked program only. -/
theorem passes_get_checked {d : σ → Checked σ β} {x : EStateM Fault σ β} (h : Passes (d s) x s) :
    Passes (get >>= d) x s := h

theorem passes_outcome {e : Except Trap α} {r : Except Fault α} (h : e = result r) (s : σ) :
    Passes (outcome e) (outcome r) s := by
  subst h
  cases r <;> rfl

theorem passes_ofExcept {e : Except Trap α} {r : Except Fault α} (h : e = result r) (s : σ) :
    Passes (MonadExcept.ofExcept e) (MonadExcept.ofExcept r) s := by
  subst h
  cases r <;> rfl

theorem passes_require {p : Prop} [Decidable p] {c : Unit → Checked σ α} (hp : p)
    (h : Passes (c ()) x s) : Passes (require p >>= c) x s := by
  rw [require, if_pos hp]
  exact h

theorem passes_defined {o : Option β} {b : β} {d : β → Checked σ α} (ho : o = some b)
    (h : Passes (d b) x s) : Passes (defined o >>= d) x s := by
  subst ho
  exact h

theorem Passes.focus {split : σ → τ × (τ → σ)} {c : Checked τ α} {x : EStateM Fault τ α}
    (h : Passes c x (split s).1) : Passes (focus split c) (focus split x) s := by
  obtain ⟨r, t, hx⟩ := yields_exists x (split s).1
  cases r with
  | ok a =>
    have hboth : Yields (PagedMachine.focus split x) s (.ok a) ((split s).2 t) := focus_ok hx
    exact (focus_ok (h.ok hx)).trans (lift_ok hboth).symm
  | error e =>
    have hboth : Yields (PagedMachine.focus split x) s (.error e) ((split s).2 t) := focus_error hx
    exact (focus_error (h.error hx)).trans (lift_error hboth).symm

theorem passes_of_ite {p : Prop} [Decidable p] {c c' : Checked σ α} {x x' : EStateM Fault σ α}
    (h : p → Passes c x s) (h' : ¬ p → Passes c' x' s) :
    Passes (if p then c else c') (if p then x else x') s := by
  by_cases hp : p
  · rw [if_pos hp, if_pos hp]
    exact h hp
  · rw [if_neg hp, if_neg hp]
    exact h' hp

end

end PagedMachine

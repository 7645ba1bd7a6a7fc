/-!
# Actions on a part of the state

The machine nests: registers and bus, bus and paged memory, paged memory and
devices. An action on a part is an action on the whole that leaves the rest
alone, also when it faults.
-/

namespace PagedMachine

universe u

variable {ε σ τ α : Type u}

/-- Runs `x` on a part. `split` takes the part out, with the way to put it back. -/
@[inline] def focus (split : σ → τ × (τ → σ)) (x : EStateM ε τ α) : EStateM ε σ α :=
  fun s =>
    let (part, back) := split s
    match x part with
    | .ok a part => .ok a (back part)
    | .error e part => .error e (back part)

@[inline] def attempt (x : EStateM ε σ α) : EStateM ε σ (Except ε α) :=
  fun s =>
    match x s with
    | .ok a s => .ok (.ok a) s
    | .error e s => .ok (.error e) s

/-- A computed result as an action that changes nothing. -/
@[inline] def outcome (x : Except ε α) : EStateM ε σ α :=
  fun s =>
    match x with
    | .ok a => .ok a s
    | .error e => .error e s

end PagedMachine

import PagedMachine.Proofs.Isolation

/-!
# Stores of the host

To the host no permission is denied, and a page that is neither writable nor
flagged is not copied for it. A byte stored in such a page is seen by all who map
the page; any other byte is seen by no other process.
-/

namespace PagedMachine

/-- What is found where some addresses show, after bytes were stored from `base` up: the last one
that shows. -/
def lastShown (shows : Word → Bool) : Word → List UInt8 → Option UInt8 → Option UInt8
  | _, [], x => x
  | base, byte :: rest, x => lastShown shows (base + 1) rest (if shows base then some byte else x)

/-- Bytes that do not show change nothing. -/
theorem lastShown_of_hidden {shows : Word → Bool} (bytes : List UInt8) :
    ∀ {base : Word} (x : Option UInt8),
    (∀ i < bytes.length, shows (base + UInt32.ofNat i) = false) →
    lastShown shows base bytes x = x := by
  induction bytes with
  | nil => exact fun _ _ => rfl
  | cons byte bytes ih =>
    intro base x h
    have hfirst : shows base = false := by simpa using h 0 (Nat.succ_pos _)
    rw [lastShown, hfirst]
    refine ih _ fun i hi => ?_
    have hsucc : base + 1 + UInt32.ofNat i = base + UInt32.ofNat (i + 1) := Word.add_succ base i
    rw [hsucc]
    exact h (i + 1) (Nat.succ_lt_succ hi)

namespace Virtual

section
variable {v v' : Memory} {pid q page address a base : Word} {m : Mapping} {byte : UInt8}
    {x : Option UInt8}

/-- The current process shares the page of `address`, unflagged, with process `q`, which finds the
byte at `a`. -/
def Memory.exposes (v : Memory) (address q a : Word) : Bool :=
  match v.find? address.page, v.mapping? q a.page with
  | some m, some m' => !m.copyOnWrite && m'.page == m.page && offset a == offset address
  | _, _ => false

inductive Loads : Memory → Word → List UInt8 → Memory → Prop
  | nil (v : Memory) (base : Word) : Loads v base [] v
  | cons {v v' : Memory} {base : Word} {m : Mapping} {byte : UInt8} {rest : List UInt8} :
      v.find? base.page = some m →
      Loads ((v.resolved base.page m .write).storeAt base byte) (base + 1) rest v' →
      Loads v base (byte :: rest) v'

namespace Memory

theorem exposes_eq_true : v.exposes address q a = true ↔ ∃ m m', v.find? address.page = some m ∧
    ¬ m.copyOnWrite ∧ v.mapping? q a.page = some m' ∧ m'.page = m.page ∧
    offset a = offset address := by
  unfold exposes
  cases v.find? address.page <;> cases v.mapping? q a.page <;> simp [and_assoc]

/-- What is exposed is not writable, if writable pages are guarded. -/
theorem Guarded.not_exposes (hg : v.Guarded) (hm : v.find? address.page = some m)
    (hwrite : m.permissions.write) (hq : v.current ≠ some q) : v.exposes address q a = false := by
  refine Bool.eq_false_iff.mpr fun he => ?_
  obtain ⟨m₁, m', hm₁, hflag, hm', hpage, -⟩ := exposes_eq_true.mp he
  obtain rfl : m = m₁ := Option.some.inj (hm.symm.trans hm₁)
  obtain ⟨pid, hc, hm⟩ := find?_some.mp hm
  obtain ⟨rfl, -⟩ := hg pid address.page m hm hwrite hflag q a.page m' hm' hpage
  exact hq hc

section
variable (hm : v.find? base.page = some m) (hf : v.Fresh) (hq : v.current ≠ some q)
include hm

theorem find?_resolved (page : Word) : (v.resolved base.page m .write).find? page =
    if page = base.page ∧
    m.copyOnWrite then some { m with page := v.privatePage m, copyOnWrite := false }
    else v.find? page := by
  obtain ⟨pid, hc, hm'⟩ := find?_some.mp hm
  unfold resolved
  by_cases hcow : m.copyOnWrite = true
  · rw [if_pos ⟨rfl, hcow⟩, find?_eq ((current_privatise hc _ _).trans hc),
      mapping?_privatise hc hm', find?_eq hc]
    by_cases hp : page = base.page
    · rw [if_pos ⟨rfl, hp⟩, if_pos ⟨hp, hcow⟩]
    · rw [if_neg fun h => hp h.2, if_neg fun h => hp h.1]
  · rw [if_neg fun h => hcow h.2, if_neg fun h => hcow h.2]

include hq

theorem mapping?_resolved (page : Word) :
    (v.resolved base.page m .write).mapping? q page = v.mapping? q page := by
  obtain ⟨pid, hc, hm'⟩ := find?_some.mp hm
  unfold resolved
  split
  · rw [mapping?_privatise hc hm', if_neg]
    rintro ⟨rfl, -⟩
    exact hq hc
  · rfl

include hf

/-- A resolution exposes no page, and hides none that was not flagged. -/
theorem exposes_resolved (address a : Word) :
    (v.resolved base.page m .write).exposes address q a = v.exposes address q a := by
  obtain ⟨pid, hc, hm'⟩ := find?_some.mp hm
  unfold exposes
  rw [mapping?_resolved hm hq, find?_resolved hm]
  by_cases hp : address.page = base.page ∧ m.copyOnWrite = true
  · rw [if_pos hp, hp.1, hm]
    cases hmq : v.mapping? q a.page with
    | none => rfl
    | some mq =>
      have hne : mq.page ≠ v.privatePage m := privatePage_ne hm' hf hmq fun h => hq (h.1 ▸ hc)
      simp [hp.2, hne]
  · rw [if_neg hp]

/-- A byte that the host stores is seen by another process just where it is exposed. -/
theorem byte?_load (byte : UInt8) (a : Word) :
    ((v.resolved base.page m .write).storeAt base byte).byte? q a =
      if v.exposes base q a then some byte else v.byte? q a := by
  obtain ⟨m₁, hm₁, hflag⟩ : ∃ m₁, (v.resolved base.page m .write).find? base.page = some m₁ ∧
      m₁.copyOnWrite = false := by
    rw [find?_resolved hm]
    by_cases hcow : m.copyOnWrite = true
    · exact ⟨_, if_pos ⟨rfl, hcow⟩, rfl⟩
    · exact ⟨m, (if_neg fun h => hcow h.2).trans hm, Bool.eq_false_iff.mpr hcow⟩
  have hunseen := (privatised_resolved hm .write).unseen hf
  rw [← exposes_resolved hm hf hq, ← hunseen.bytes q a]
  generalize v.resolved base.page m .write = w at hm₁
  have hstored : w.storeAt base byte = w.storeByte m₁.page (offset base) byte := by
    unfold storeAt
    rw [hm₁]
  rw [hstored, byte?_storeByte, exposes, hm₁, byte?]
  cases w.mapping? q a.page with
  | none => rfl
  | some m' =>
    by_cases hpage : m'.page = m₁.page <;> by_cases hoff : offset a = offset base
      <;> simp [hflag, hpage, hoff]

omit hq in
theorem fresh_load (byte : UInt8) : ((v.resolved base.page m .write).storeAt base byte).Fresh := by
  obtain ⟨contents, he⟩ := storeAt_eq (v.resolved base.page m .write) base byte
  rw [he]
  exact ((privatised_resolved hm .write).unseen hf).fresh

end

end Memory

/-- Loaded bytes are seen by another process just where they are exposed to it, the last one
last. -/
theorem Loads.byte? {bytes : List UInt8} (h : Loads v base bytes v') (hf : v.Fresh)
    (hq : v.current ≠ some q) (a : Word) :
    v'.byte? q a = lastShown (v.exposes · q a) base bytes (v.byte? q a) := by
  induction h with
  | nil => rfl
  | @cons v v' base m byte rest hm hrest ih =>
    let w := (v.resolved base.page m .write).storeAt base byte
    have hunseen := (Memory.privatised_resolved hm .write).unseen hf
    obtain ⟨contents, he⟩ := Memory.storeAt_eq (v.resolved base.page m .write) base byte
    have hcurrent : w.current = v.current := by
      rw [← hunseen.current]
      change (Memory.storeAt base byte _).current = _
      rw [he]
    have hexposes : (fun address => w.exposes address q a) = fun address =>
        v.exposes address q a := by
      funext address
      rw [← Memory.exposes_resolved hm hf hq]
      change (Memory.storeAt base byte _).exposes address q a = _
      rw [he]
      rfl
    rw [ih (Memory.fresh_load hm hf byte) (hcurrent.trans_ne hq), Memory.byte?_load hm hf hq]
    exact congrArg (fun shows => lastShown shows (base + 1) rest _) hexposes

end

end Virtual

end PagedMachine

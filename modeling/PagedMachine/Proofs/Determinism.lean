import PagedMachine.Proofs.Virtual

/-!
# Virtual memory decides

What virtual memory leaves open is whether pages run out, and what is found in RAM
by a physical address. Where neither happens it has one answer and one state after.
The number of the next process has no part in that, so two memories that differ in
nothing else give the same answers, and stay so.
-/

namespace PagedMachine

def Supplied {α : Type} (r : Except Fault α) : Prop := ∀ pool, r ≠ .error (.resourceExhausted pool)

theorem Supplied.of_map {α β : Type} {r : Except Fault α} {f : α → β} (h : Supplied (r.map f)) :
    Supplied r := by
  rintro pool rfl
  exact h pool rfl

theorem Supplied.error {α β : Type} {e : Fault} (h : Supplied (.error e : Except Fault α)) :
    Supplied (.error e : Except Fault β) := by
  rintro pool ⟨⟩
  exact h pool rfl

namespace Behaviour

variable {σ α β : Type} {R : σ → σ → Prop} {x y : Behaviour σ α} {s t : σ}

/-- Unless pages run out, both end with one answer, and in states that are related. -/
def Coincide (R : σ → σ → Prop) (x y : Behaviour σ α) (s t : σ) : Prop :=
  ∀ r s' r' t', x.allows s r s' → y.allows t r' t' → Supplied r → Supplied r' → r = r' ∧ R s' t'

theorem Coincide.bind {f g : α → Behaviour σ β} (h : Coincide R x y s t)
    (hf : ∀ a s' t', R s' t' → Coincide R (f a) (g a) s' t') :
    Coincide R (x >>= f) (y >>= g) s t := by
  rintro r s' r' t' (⟨a, u, hx, hrest⟩ | ⟨e, rfl, hx⟩) (⟨b, w, hy, hrest'⟩ | ⟨e', rfl, hy⟩) hr hr'
  · obtain ⟨⟨⟩, hu⟩ := h _ _ _ _ hx hy nofun nofun
    exact hf a u w hu _ _ _ _ hrest hrest' hr hr'
  · cases (h _ _ _ _ hx hy nofun hr'.error).1
  · cases (h _ _ _ _ hx hy hr.error nofun).1
  · obtain ⟨⟨⟩, hu⟩ := h _ _ _ _ hx hy hr.error hr'.error
    exact ⟨rfl, hu⟩

theorem Coincide.get_bind {f g : σ → Behaviour σ β} (h : Coincide R (f s) (g t) s t) :
    Coincide R (get >>= f) (get >>= g) s t :=
  fun r s' r' t' hx hy => h r s' r' t' (allows_get_bind.mp hx) (allows_get_bind.mp hy)

theorem coincide_result (h : R s t) (z : Except Fault α) :
    Coincide R (result z) (result z) s t := by
  rintro _ _ _ _ ⟨rfl, rfl⟩ ⟨rfl, rfl⟩ - -
  exact ⟨rfl, h⟩

theorem coincide_pure (h : R s t) (a : α) : Coincide R (pure a) (pure a) s t :=
  coincide_result h (.ok a)

theorem coincide_claim (h : R s t) : Coincide R claim claim s t := by
  rintro r _ r' _ ⟨rfl, hx⟩ ⟨rfl, hy⟩ hr hr'
  have granted :
      ∀ {r : Except Fault Unit}, (r = .ok () ∨ ∃ pool, r = .error (.resourceExhausted pool)) →
      Supplied r → r = .ok () := fun h hr => h.resolve_right fun ⟨pool, he⟩ => hr pool he
  exact ⟨(granted hx hr).trans (granted hy hr').symm, h⟩

theorem coincide_modify {g : σ → σ} (h : R (g s) (g t)) : Coincide R (modify g) (modify g) s t := by
  rintro _ _ _ _ ⟨rfl, rfl⟩ ⟨rfl, rfl⟩ - -
  exact ⟨rfl, h⟩

theorem coincide_modifyGet {g : σ → α × σ} (ha : (g s).1 = (g t).1) (h : R (g s).2 (g t).2) :
    Coincide R (modifyGet g) (modifyGet g) s t := by
  rintro _ _ _ _ ⟨rfl, rfl⟩ ⟨rfl, rfl⟩ - -
  exact ⟨congrArg _ ha, h⟩

end Behaviour

namespace Virtual

open Behaviour

/-! ## Memory -/

def Memory.Alike (v w : Memory) : Prop := ∃ n, w = { v with nextPid := n }

variable {v w : Memory}

theorem Memory.Alike.privatise (h : v.Alike w) (page : Word) (m : Mapping) :
    (v.privatise page m).Alike (w.privatise page m) := by
  obtain ⟨n, rfl⟩ := h
  refine ⟨n, ?_⟩
  have hupdate : ∀ f,
      Memory.updateCurrent f { v with nextPid := n } = { v.updateCurrent f with nextPid := n } := by
    intro f
    cases hc : v.current with
    | none => simp only [Memory.updateCurrent, hc]
    | some pid => simp only [Memory.updateCurrent, hc, Memory.changed]
  unfold Memory.privatise
  rw [hupdate, hupdate]
  split <;> rename_i hshared
  · rw [if_pos (by exact hshared)]
  · rw [if_neg (by exact hshared)]

theorem Memory.exchangeBytes_alike (t : Transfer) (n : Word) (count : Nat) :
    ∀ (v : Memory) (offset : Nat), Memory.exchangeBytes t { v with nextPid := n } offset count =
      ((v.exchangeBytes t offset count).1,
        { (v.exchangeBytes t offset count).2 with nextPid := n }) := by
  induction count with
  | zero => exact fun _ _ => rfl
  | succ count ih =>
    intro v offset
    have hfind : Memory.find? { v with nextPid := n } (t.address + UInt32.ofNat offset).page =
        v.find? (t.address + UInt32.ofNat offset).page := rfl
    have hpart : ∀ page, Memory.storePart t offset page { v with nextPid := n } =
        { v.storePart t offset page with nextPid := n } := by
      intro page
      unfold Memory.storePart
      cases t.store <;> rfl
    rw [Memory.exchangeBytes, Memory.exchangeBytes]
    dsimp only
    rw [hfind]
    cases v.find? (t.address + UInt32.ofNat offset).page with
    | none => rfl
    | some m =>
      dsimp only
      rw [hpart, ih]

/-! ## Accesses -/

theorem coincide_lookup (h : v.Alike w) (page address : Word) (access : Access) :
    Coincide Memory.Alike (lookup page address access) (lookup page address access) v w := by
  obtain ⟨n, rfl⟩ := h
  refine Coincide.get_bind ((coincide_result ⟨n, rfl⟩ v.currentDirectory).bind fun d v w h => ?_)
  split
  · exact coincide_pure h _
  · exact coincide_result h _

theorem coincide_materialise (h : v.Alike w) (page : Word) (m : Mapping) (access : Access) :
    Coincide Memory.Alike (materialise page m access) (materialise page m access) v w := by
  refine (coincide_claim h).bind fun _ v w h => ?_
  split
  · exact coincide_modify (h.privatise page m)
  · exact coincide_pure h ()

theorem coincide_resolve (h : v.Alike w) (page address : Word) (access : Access)
    (privilege : Privilege) : Coincide Memory.Alike (resolve page address access privilege)
    (resolve page address access privilege) v w := by
  refine (coincide_lookup h page address access).bind fun m v w h => ?_
  split
  · exact coincide_materialise h page m access
  · exact coincide_result h _

theorem coincide_transferMapped (h : v.Alike w) (t : Transfer) (privilege : Privilege) :
    Coincide Memory.Alike (transferMapped t privilege) (transferMapped t privilege) v w := by
  have hexchange : ∀ {v w : Memory}, v.Alike w →
      Coincide Memory.Alike
        (do return UInt32.ofNat (← modifyGet fun v => v.exchangeBytes t 0 t.width.bytes))
        (do return UInt32.ofNat (← modifyGet fun v => v.exchangeBytes t 0 t.width.bytes)) v w := by
    rintro v _ ⟨n, rfl⟩
    have hsame := Memory.exchangeBytes_alike t n t.width.bytes v 0
    exact (coincide_modifyGet (congrArg Prod.fst hsame).symm ⟨n, congrArg Prod.snd hsame⟩).bind
      fun old v w h => coincide_pure h _
  refine (coincide_resolve h _ _ _ privilege).bind fun _ v w h => ?_
  split
  · refine (coincide_resolve h _ _ _ privilege).bind fun _ v w h => ?_
    exact (coincide_claim h).bind fun _ v w h => hexchange h
  · exact hexchange h

/-! ## The bus -/

def Bus.Alike (v w : Bus) : Prop := ∃ n, w = { v with memory := { v.memory with nextPid := n } }

end Virtual

def RegionMap.RamServes (regions : RegionMap) (t : Transfer) : Prop :=
  ∃ region, regions.regionOf? t.address = some region ∧ region.holds t.address t.width = true ∧
    region.kind = .ram

namespace Virtual.Bus

open Behaviour

variable {α : Type} {v w : Bus}

theorem coincide_onMemory (h : v.Alike w) {x : Behaviour Memory α}
    (hx : ∀ {v w : Memory}, v.Alike w → Coincide Memory.Alike x x v w) :
    Coincide Alike (onMemory x) (onMemory x) v w := by
  obtain ⟨n, rfl⟩ := h
  rintro r _ r' _ ⟨v', hv, rfl⟩ ⟨w', hw, rfl⟩ hr hr'
  obtain ⟨rfl, n', rfl⟩ := hx ⟨n, rfl⟩ _ _ _ _ hv hw hr hr'
  exact ⟨rfl, n', rfl⟩

theorem coincide_transfer (h : v.Alike w) {t : Transfer} (hram : ¬ v.regions.RamServes t) :
    Coincide Alike (transfer t) (transfer t) v w := by
  obtain ⟨n, rfl⟩ := h
  have h : v.Alike { v with memory := { v.memory with nextPid := n } } := ⟨n, rfl⟩
  refine Coincide.get_bind ?_
  dsimp only
  cases hregion : v.regions.regionOf? t.address with
  | none => exact coincide_result h _
  | some region =>
    dsimp only
    by_cases hholds : region.holds t.address t.width = true
    · rw [if_pos hholds]
      refine (coincide_result h _).bind fun _ v w h => ?_
      cases hkind : region.kind with
      | rom =>
        obtain ⟨n, rfl⟩ := h
        exact Coincide.get_bind (coincide_result ⟨n, rfl⟩ _)
      | ram => exact absurd ⟨region, hregion, hholds, hkind⟩ hram
      | mapped =>
        obtain ⟨n, rfl⟩ := h
        exact Coincide.get_bind (coincide_onMemory ⟨n, rfl⟩ fun h =>
          coincide_transferMapped h t v.privilege)
    · rw [if_neg hholds]
      exact coincide_result h _

end Virtual.Bus

end PagedMachine

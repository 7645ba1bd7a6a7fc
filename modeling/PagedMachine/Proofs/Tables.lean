import PagedMachine.Paging.Table

/-!
# Tables as finite maps

A table is determined by its lookups. A sum over its values changes with an
insertion, an erasure or an update by the terms of the values that come and go.
-/

namespace PagedMachine

theorem mem_iff_lookup {α : Type} {key : Word} {value : α} : ∀ {l : List (Word × α)},
    l.Pairwise (·.1 < ·.1) → ((key, value) ∈ l ↔ l.lookup key = some value)
  | [], _ => by simp
  | e :: rest, h => by
    obtain ⟨he, hr⟩ := List.pairwise_cons.mp h
    rw [List.mem_cons, mem_iff_lookup hr, lookup_cons_ite]
    by_cases hk : key = e.1
    · have hno : rest.lookup key ≠ some value := fun hl =>
        UInt32.lt_irrefl _ (hk ▸ he _ ((mem_iff_lookup hr).mpr hl))
      obtain ⟨k, v⟩ := e
      subst hk
      simp only [hno, or_false, if_pos, Prod.mk.injEq, true_and, Option.some.injEq]
      exact eq_comm
    · have hne : (key, value) ≠ e := fun h => hk (h ▸ rfl)
      simp [hk, hne]

namespace Table

variable {α β : Type}

theorem mem_entries {t : Table α} {key : Word} {value : α} :
    (key, value) ∈ t.entries ↔ t.find? key = some value :=
  mem_iff_lookup t.sorted

theorem ext_find? {t u : Table α} (h : ∀ key, t.find? key = u.find? key) : t = u := by
  have nodup : ∀ w : Table α, w.entries.Nodup := fun w =>
    List.Pairwise.imp (fun {a b} (hlt : a.1 < b.1) (heq : a = b) =>
      UInt32.lt_irrefl b.1 (heq ▸ hlt)) w.sorted
  have perm : t.entries.Perm u.entries := by
    refine (List.perm_ext_iff_of_nodup (nodup t) (nodup u)).mpr fun ⟨k, v⟩ => ?_
    rw [mem_entries, mem_entries, h]
  have entries : t.entries = u.entries :=
    perm.eq_of_pairwise (fun _ _ _ _ hab hba => absurd hba (UInt32.lt_asymm hab)) t.sorted u.sorted
  cases t; cases u; cases entries; rfl

theorem contains_iff {t : Table α} {key : Word} : t.contains key = true ↔
    ∃ value, t.find? key = some value :=
  Option.isSome_iff_exists

theorem contains_eq_false {t : Table α} {key : Word} : t.contains key = false ↔
    t.find? key = none := by
  simp [contains]

theorem contains_insert (t : Table α) (key q : Word) (value : α) :
    (t.insert key value).contains q = (decide (q = key) || t.contains q) := by
  rw [contains, find?_insert]
  by_cases h : q = key <;> simp [h, contains]

theorem contains_erase (t : Table α) (key q : Word) :
    (t.erase key).contains q = (!decide (q = key) && t.contains q) := by
  rw [contains, find?_erase]
  by_cases h : q = key <;> simp [h, contains]

@[simp] theorem contains_map (f : α → β) (t : Table α) (q : Word) :
    (t.map f).contains q = t.contains q := by
  simp [contains, find?_map]

@[simp] theorem contains_update (t : Table α) (key q : Word) (f : α → α) :
    (t.update key f).contains q = t.contains q := by
  rw [contains, find?_update]
  by_cases h : q = key <;> simp [h, contains]

/-! ## How the operations combine -/

theorem update_eq_insert {t : Table α} {key : Word} {value : α} (h : t.find? key = some value)
    (f : α → α) : t.update key f = t.insert key (f value) := by
  refine ext_find? fun q => ?_
  rw [find?_update, find?_insert]
  by_cases hq : q = key <;> simp [hq, h]

theorem insert_erase (t : Table α) (key : Word) (value : α) :
    (t.erase key).insert key value = t.insert key value := by
  refine ext_find? fun q => ?_
  rw [find?_insert, find?_insert, find?_erase]
  by_cases hq : q = key <;> simp [hq]

theorem map_insert (f : α → β) (t : Table α) (key : Word) (value : α) :
    (t.insert key value).map f = (t.map f).insert key (f value) := by
  refine ext_find? fun q => ?_
  rw [find?_map, find?_insert, find?_insert, find?_map]
  by_cases hq : q = key <;> simp [hq]

theorem map_erase (f : α → β) (t : Table α) (key : Word) :
    (t.erase key).map f = (t.map f).erase key := by
  refine ext_find? fun q => ?_
  rw [find?_map, find?_erase, find?_erase, find?_map]
  by_cases hq : q = key <;> simp [hq]

theorem map_update {f : α → β} {g : α → α} {g' : β → β} (t : Table α) (key : Word)
    (h : ∀ value, t.find? key = some value → f (g value) = g' (f value)) :
    (t.update key g).map f = (t.map f).update key g' := by
  refine ext_find? fun q => ?_
  rw [find?_map, find?_update, find?_update, find?_map]
  by_cases hq : q = key
  · subst hq
    cases hf : t.find? q with
    | none => simp
    | some value => simp [h value hf]
  · simp [hq]

theorem map_congr {f g : α → β} {t : Table α}
    (h : ∀ key value, t.find? key = some value → f value = g value) : t.map f = t.map g := by
  refine ext_find? fun q => ?_
  rw [find?_map, find?_map]
  cases hq : t.find? q with
  | none => rfl
  | some value => simp [h q value hq]

theorem map_map {γ : Type} (f : α → β) (g : β → γ) (t : Table α) :
    (t.map f).map g = t.map (g ∘ f) := by
  refine ext_find? fun q => ?_
  simp [find?_map]

/-! ## Sums -/

def sum (f : α → Nat) (t : Table α) : Nat := t.values.foldr (fun value n => f value + n) 0

theorem sum_map (f : β → Nat) (g : α → β) (t : Table α) : (t.map g).sum f = t.sum (f ∘ g) := by
  simp [sum, values, map, Function.comp_def, List.foldr_map]

theorem sum_insert {t : Table α} {key : Word} (h : t.find? key = none) (value : α) (f : α → Nat) :
    (t.insert key value).sum f = f value + t.sum f := by
  suffices ∀ l : List (Word × α), l.lookup key = none →
      ((insertEntry key value l).map (·.2)).foldr (fun value n => f value + n) 0 =
        f value + (l.map (·.2)).foldr (fun value n => f value + n) 0 from
    this t.entries h
  intro l hl
  induction l with
  | nil => rfl
  | cons e rest ih =>
    rw [lookup_cons_ite] at hl
    split at hl
    · cases hl
    · rename_i hne
      rw [insertEntry]
      split
      · rfl
      · simp only [List.map_cons, List.foldr_cons, ih hl]
        omega

theorem sum_erase {t : Table α} {key : Word} {value : α} (h : t.find? key = some value)
    (f : α → Nat) : f value + (t.erase key).sum f = t.sum f := by
  have hnone : (t.erase key).find? key = none := by simp [find?_erase]
  rw [← sum_insert hnone, insert_erase]
  congr 1
  refine ext_find? fun q => ?_
  rw [find?_insert]
  by_cases hq : q = key <;> simp [hq, h]

theorem sum_update {t : Table α} {key : Word} {value : α} (h : t.find? key = some value)
    (g : α → α) (f : α → Nat) : (t.update key g).sum f + f value = t.sum f + f (g value) := by
  have hnone : (t.erase key).find? key = none := by simp [find?_erase]
  have herase := sum_erase h f
  rw [update_eq_insert h, ← insert_erase, sum_insert hnone]
  omega

theorem le_sum {t : Table α} {key : Word} {value : α} (h : t.find? key = some value) (f : α → Nat) :
    f value ≤ t.sum f := by
  have := sum_erase h f
  omega

theorem add_le_sum {t : Table α} {key key' : Word} {value value' : α} (h : t.find? key = some value)
    (h' : t.find? key' = some value') (hne : key ≠ key') (f : α → Nat) :
    f value + f value' ≤ t.sum f := by
  have hrest : (t.erase key).find? key' = some value' := by rw [find?_erase, if_neg hne.symm, h']
  have := sum_erase h f
  have := le_sum hrest f
  omega

theorem add_le_sum_sum {t : Table (Table α)} {i i' j j' : Word} {u u' : Table α} {value value' : α}
    (hu : t.find? i = some u) (hv : u.find? j = some value) (hu' : t.find? i' = some u')
    (hv' : u'.find? j' = some value') (hne : ¬ (i' = i ∧ j' = j)) (f : α → Nat) :
    f value + f value' ≤ t.sum (·.sum f) := by
  by_cases hi : i' = i
  · subst hi
    obtain rfl : u = u' := Option.some.inj (hu.symm.trans hu')
    have := add_le_sum hv hv' (fun e => hne ⟨rfl, e.symm⟩) f
    have : u.sum f ≤ t.sum (·.sum f) := le_sum hu (·.sum f)
    omega
  · have := le_sum hv f
    have := le_sum hv' f
    have : u.sum f + u'.sum f ≤ t.sum (·.sum f) := add_le_sum hu hu' (Ne.symm hi) (·.sum f)
    omega

theorem sum_insert_le (t : Table α) (key : Word) (value : α) (f : α → Nat) :
    (t.insert key value).sum f ≤ f value + t.sum f := by
  cases h : t.find? key with
  | none => exact Nat.le_of_eq (sum_insert h value f)
  | some old =>
    have hupdate := sum_update h (fun _ => value) f
    rw [update_eq_insert h] at hupdate
    omega

theorem sum_congr {f g : α → Nat} {t : Table α}
    (h : ∀ key value, t.find? key = some value → f value = g value) : t.sum f = t.sum g := by
  have hf : (t.map f).sum id = t.sum f := sum_map id f t
  have hg : (t.map g).sum id = t.sum g := sum_map id g t
  rw [← hf, ← hg, map_congr h]

theorem sum_le_sum {f g : α → Nat} (h : ∀ a, f a ≤ g a) (t : Table α) : t.sum f ≤ t.sum g := by
  unfold sum
  induction t.values with
  | nil => exact Nat.le_refl _
  | cons a as ih =>
    simp only [List.foldr_cons]
    exact Nat.add_le_add (h a) ih

theorem sum_add (f g : α → Nat) (t : Table α) : t.sum (fun a => f a + g a) = t.sum f + t.sum g := by
  unfold sum
  induction t.values with
  | nil => rfl
  | cons a l ih =>
    simp only [List.foldr_cons, ih]
    omega

theorem sum_eq_zero_iff {t : Table α} {f : α → Nat} :
    t.sum f = 0 ↔ ∀ key value, t.find? key = some value → f value = 0 := by
  constructor
  · intro h key value hv
    have := le_sum hv f
    omega
  · intro h
    have hz : t.sum f = t.sum fun _ => 0 := sum_congr h
    rw [hz, sum]
    induction t.values with
    | nil => rfl
    | cons a l ih => exact (Nat.zero_add _).trans ih

theorem sum_ne_zero_iff {t : Table α} {f : α → Nat} :
    t.sum f ≠ 0 ↔ ∃ key value, t.find? key = some value ∧ f value ≠ 0 := by
  rw [Ne, sum_eq_zero_iff]
  simp

end Table

end PagedMachine

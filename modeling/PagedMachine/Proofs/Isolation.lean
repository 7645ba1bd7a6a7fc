import PagedMachine.Proofs.Effects

/-!
# Isolation in virtual memory

When every writable page that is mapped twice is flagged, a store of a program
reaches a page that nobody else maps, for it has been made private first. So it
shows in its own process and at its own addresses only.
-/

namespace PagedMachine

def Transfer.distance (t : Transfer) (address : Word) : Nat := (address - t.address).toNat

def Word.byte (value : Word) (distance : Nat) : UInt8 := UInt8.ofNat (value.field (8 * distance) 8)

namespace Virtual

namespace Memory

variable {v v' : Memory} {pid q page page' address : Word} {m : Mapping} {byte : UInt8}

/-- Every page that is mapped has been handed out. -/
def Fresh (v : Memory) : Prop := ∀ pid page m, v.mapping? pid page = some m → m.page < v.nextPage

def Alone (v : Memory) (pid page : Word) (m : Mapping) : Prop :=
  ∀ q page' m', v.mapping? q page' = some m' → m'.page = m.page → q = pid ∧ page' = page

/-- A writable mapping of a page that another mapping names is flagged. -/
def Guarded (v : Memory) : Prop :=
  ∀ pid page m, v.mapping? pid page = some m → m.permissions.write → ¬ m.copyOnWrite →
    v.Alone pid page m

theorem alone_of_mappingsOf (hm : v.mapping? pid page = some m) (h : ¬ 1 < v.mappingsOf m.page) :
    v.Alone pid page m := by
  intro q page' m' hm' he
  by_contra hne
  exact h (one_lt_mappingsOf hm hm' hne he)

/-! ## Private pages -/

section
variable (hc : v.current = some pid) (hm : v.mapping? pid page = some m) (hf : v.Fresh)
include hc hm hf

omit hc in
/-- No other mapping names the page that a mapping gets for itself. -/
theorem privatePage_ne {m' : Mapping} (hm' : v.mapping? q page' = some m')
    (hne : ¬ (q = pid ∧ page' = page)) : m'.page ≠ v.privatePage m := by
  unfold privatePage
  split
  · exact Nat.ne_of_lt (hf _ _ _ hm')
  · rename_i hone
    intro he
    exact hne (alone_of_mappingsOf hm hone _ _ _ hm' he)

/-- Nobody sees a page become private. -/
theorem byte?_privatise (q address : Word) :
    (v.privatise page m).byte? q address = v.byte? q address := by
  unfold byte?
  rw [mapping?_privatise hc hm, contents_privatise]
  by_cases h : q = pid ∧ address.page = page
  · obtain ⟨rfl, hp⟩ := h
    rw [if_pos ⟨rfl, hp⟩, hp, hm, Option.map_some, Option.map_some, Function.update_self]
  · rw [if_neg h]
    refine Option.map_congr fun m' hm' => ?_
    rw [Function.update_of_ne (privatePage_ne hm hf hm' h)]

theorem fresh_privatise : (v.privatise page m).Fresh := by
  have hnext : v.nextPage ≤ (v.privatise page m).nextPage ∧
      v.privatePage m < (v.privatise page m).nextPage := by
    have hlt := hf _ _ _ hm
    unfold privatise privatePage
    split
    · exact ⟨Nat.le_succ _, Nat.lt_succ_self _⟩
    · rw [updateCurrent_eq hc]
      exact ⟨Nat.le_refl _, hlt⟩
  intro q page' m' hm'
  rw [mapping?_privatise hc hm] at hm'
  split at hm'
  · obtain rfl := Option.some.inj hm'
    exact hnext.2
  · exact Nat.lt_of_lt_of_le (hf _ _ _ hm') hnext.1

theorem guarded_privatise (hg : v.Guarded) : (v.privatise page m).Guarded := by
  intro q page' m' hm' hwrite hflag q₂ page₂ m₂ hm₂ he
  rw [mapping?_privatise hc hm] at hm' hm₂
  split at hm'
  · rename_i hpos
    obtain ⟨rfl, rfl⟩ := hpos
    obtain rfl := Option.some.inj hm'
    by_contra hne
    rw [if_neg hne] at hm₂
    exact privatePage_ne hm hf hm₂ hne he
  · rename_i hne
    split at hm₂
    · obtain rfl := Option.some.inj hm₂
      exact absurd he.symm (privatePage_ne hm hf hm' hne)
    · exact hg q page' m' hm' hwrite hflag q₂ page₂ m₂ hm₂ he

end

end Memory

structure Unseen (v v' : Memory) : Prop where
  current : v'.current = v.current
  bytes : ∀ pid address, v'.byte? pid address = v.byte? pid address
  fresh : v'.Fresh
  guarded : v.Guarded → v'.Guarded

theorem Privatised.unseen {v v' : Memory} (h : Privatised v v') (hf : v.Fresh) : Unseen v v' := by
  induction h with
  | refl v => exact ⟨rfl, fun _ _ => rfl, hf, id⟩
  | next hm _ ih =>
    obtain ⟨pid, hc, hm'⟩ := Memory.find?_some.mp hm
    have ih := ih (Memory.fresh_privatise hc hm' hf)
    exact ⟨ih.current.trans (Memory.current_privatise hc _ _),
      fun q a => (ih.bytes q a).trans (Memory.byte?_privatise hc hm' hf q a), ih.fresh,
      fun hg => ih.guarded (Memory.guarded_privatise hc hm' hf hg)⟩

/-! ## Stores of a program -/

section
variable {v v' : Memory} {pid page address : Word} {m : Mapping} {t : Transfer}
    {privilege : Privilege}

theorem eq_add_ofNat_iff {a b : Word} {o : Nat} (ho : o < 2 ^ 32) : a = b + UInt32.ofNat o ↔
    (a - b).toNat = o := by
  constructor
  · rintro rfl
    rw [UInt32.add_comm, UInt32.add_sub_cancel, UInt32.toNat_ofNat', Nat.mod_eq_of_lt ho]
  · rintro rfl
    rw [UInt32.ofNat_toNat, UInt32.add_comm, UInt32.sub_add_cancel]

theorem eq_of_page_of_offset {a b : Word} (hp : a.page = b.page) (ho : offset a = offset b) :
    a = b := by
  have hoffset : a.toNat % 4096 = b.toNat % 4096 := congrArg Fin.val ho
  have hpage := congrArg UInt32.toNat hp
  unfold Word.page pageSize at hpage
  rw [UInt32.toNat_ofNat', UInt32.toNat_ofNat'] at hpage
  have ha := a.toNat_lt
  have hb := b.toNat_lt
  exact UInt32.toNat_inj.mp (by omega)

namespace Memory

theorem mapping?_storeByte (n : Nat) (o : Fin pageSize) (byte : UInt8) (pid page : Word) :
    (v.storeByte n o byte).mapping? pid page = v.mapping? pid page := rfl

/-- A byte stored in a page is seen by all who map it, at its offset, and by nobody else. -/
theorem byte?_storeByte (n : Nat) (o : Fin pageSize) (byte : UInt8) (pid address : Word) :
    (v.storeByte n o byte).byte? pid address = (v.mapping? pid address.page).map fun m =>
      if m.page = n ∧ offset address = o then byte else v.contents m.page (offset address) := by
  unfold byte?
  rw [mapping?_storeByte]
  refine Option.map_congr fun m _ => ?_
  unfold storeByte
  by_cases hn : m.page = n
  · rw [hn]
    by_cases ho : offset address = o
    · simp [ho]
    · simp [ho]
  · simp [hn]

/-- A byte stored in a page that one process alone maps is seen at one address only. -/
theorem byte?_storeByte_of_alone (hm : v.mapping? pid address.page = some m)
    (ha : v.Alone pid address.page m) (byte : UInt8) (q a : Word) :
    (v.storeByte m.page (offset address) byte).byte? q a =
      if q = pid ∧ a = address then some byte else v.byte? q a := by
  rw [byte?_storeByte]
  by_cases h : q = pid ∧ a = address
  · obtain ⟨rfl, rfl⟩ := h
    rw [hm, Option.map_some, if_pos ⟨rfl, rfl⟩, if_pos ⟨rfl, rfl⟩]
  · rw [if_neg h, byte?]
    refine Option.map_congr fun m' hm' => if_neg ?_
    rintro ⟨hn, ho⟩
    obtain ⟨hq, hp⟩ := ha q a.page m' hm' hn
    exact h ⟨hq, eq_of_page_of_offset hp ho⟩

end Memory

def Owned (v : Memory) (t : Transfer) (pid : Word) : Prop :=
  v.current = some pid ∧ ∀ o < t.width.bytes, ∃ m,
    v.mapping? pid (t.address + UInt32.ofNat o).page = some m ∧
    v.Alone pid (t.address + UInt32.ofNat o).page m

theorem Granted.owned (h : Granted v t privilege) (hg : v.Guarded) (ht : t.access = .write)
    (hc : v.current = some pid) : Owned v t pid := by
  refine ⟨hc, fun o ho => ?_⟩
  obtain ⟨m, hm, hallow, hflag⟩ := h.grants ho
  rw [Memory.find?_eq hc] at hm
  have hwrite : m.permissions.write = true := by
    rw [ht] at hallow
    unfold Permissions.allow at hallow
    exact (Bool.and_eq_true _ _ ▸ hallow).1
  exact ⟨m, hm, hg _ _ _ hm hwrite fun hcow => hflag ⟨ht, hcow⟩⟩

/-- A store in pages of its own changes the bytes that it addresses, for its process. -/
theorem Owned.byte?_exchangeBytes {value : Word} (hs : t.store = some value) (count : Nat) :
    ∀ {v : Memory} (o : Nat), Owned v t pid → o + count ≤ t.width.bytes →
      ∀ q a, (v.exchangeBytes t o count).2.byte? q a =
      if q = pid ∧ o ≤ t.distance a ∧ t.distance a < o + count then some (value.byte (t.distance a))
      else v.byte? q a := by
  induction count with
  | zero =>
    intro v o _ _ q a
    rw [if_neg (by omega)]
    rfl
  | succ count ih =>
    intro v o hown ho q a
    obtain ⟨hc, hpages⟩ := hown
    obtain ⟨m, hm, ha⟩ := hpages o (by omega)
    have hfind := (Memory.find?_eq hc (t.address + UInt32.ofNat o).page).trans hm
    have hone : (v.exchangeBytes t o 1).2 =
        v.storeByte m.page (offset (t.address + UInt32.ofNat o)) (value.byte o) := by
      rw [Memory.exchangeBytes_one hfind, Memory.storePart, hs]
      rfl
    have hbytes : t.width.bytes < 2 ^ 32 := by cases t.width <;> decide
    have hat : a = t.address + UInt32.ofNat o ↔ t.distance a = o := eq_add_ofNat_iff (by omega)
    rw [Memory.exchangeBytes_succ hfind, ih (o + 1) (by rw [hone]; exact ⟨hc, hpages⟩) (by omega),
      hone, Memory.byte?_storeByte_of_alone hm ha]
    -- the byte at `o` is the nearest; those further on are what the induction speaks of
    by_cases hq : q = pid
    · subst hq
      by_cases hd : t.distance a = o
      · rw [if_neg (by omega), if_pos ⟨rfl, hat.mpr hd⟩, if_pos ⟨rfl, by omega⟩, hd]
      · rw [if_neg fun h : q = q ∧ a = t.address + UInt32.ofNat o => hd (hat.mp h.2)]
        by_cases hin : o + 1 ≤ t.distance a ∧ t.distance a < o + 1 + count
        · rw [if_pos ⟨rfl, hin⟩, if_pos ⟨rfl, by omega⟩]
        · rw [if_neg (by omega), if_neg (by omega)]
    · rw [if_neg fun h => hq h.1, if_neg fun h => hq h.1, if_neg fun h => hq h.1]

/-- Isolation: a store that ends well shows in its own process, at its own addresses, and nowhere
else; one that faults shows nowhere. -/
theorem transferMapped_isolated {value : Word} {r : Except Fault Word} (hf : v.Fresh)
    (hg : v.Guarded) (ht : t.access = .write) (hs : t.store = some value)
    (h : (transferMapped t privilege).allows v r v') (q a : Word) : v'.byte? q a =
      if r.isOk ∧ v.current = some q ∧ t.distance a < t.width.bytes
      then some (value.byte (t.distance a)) else v.byte? q a := by
  obtain ⟨v₁, hp, ⟨e, rfl, -, rfl⟩ | ⟨hgr, rfl, rfl⟩⟩ := transferMapped_allows h
  · rw [if_neg (by simp [Except.isOk, Except.toBool]), (hp.unseen hf).bytes]
  · have hunseen := hp.unseen hf
    obtain ⟨m, hm, -⟩ := hgr.1
    obtain ⟨pid, hc, -⟩ := Memory.find?_some.mp hm
    have hown := hgr.owned (hunseen.guarded hg) ht hc
    rw [hown.byte?_exchangeBytes hs t.width.bytes 0 (by omega), hunseen.bytes,
      ← hunseen.current, hc]
    simp only [Except.isOk, Except.toBool, Option.some.injEq, Nat.zero_le, true_and, Nat.zero_add,
      eq_comm]

end

end Virtual

end PagedMachine

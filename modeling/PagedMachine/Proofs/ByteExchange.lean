import PagedMachine.Proofs.Sharing

/-!
# Exchanges byte by byte

The bytes of a transfer are at different offsets. So an exchange answers what was there
before all of it, and leaves the new bytes there, whatever the pages are. When there are
two pages, the second becomes private before any byte is stored, or after those of the
first page: that makes a difference only if both were one page.
-/

namespace PagedMachine

theorem ofBytes_append (xs ys : List UInt8) :
    ofBytes (xs ++ ys) = ofBytes xs + 256 ^ xs.length * ofBytes ys := by
  induction xs with
  | nil => simp [ofBytes]
  | cons x xs ih =>
    rw [List.cons_append, ofBytes, ofBytes, ih, List.length_cons, Nat.pow_succ', Nat.mul_add,
      Nat.mul_assoc, Nat.add_assoc]

namespace Virtual

variable {v v' : Memory} {t : Transfer} {q pid page a : Word} {m : Mapping} {access : Access}
    {offset count i k : Nat} {f : Nat → UInt8} {value : Word}

theorem offset_add_ne {i j : Nat} (hi : i < pageSize) (hj : j < pageSize) (hne : i ≠ j) (a : Word) :
    Virtual.offset (a + UInt32.ofNat i) ≠ Virtual.offset (a + UInt32.ofNat j) := by
  intro h
  have h := congrArg Fin.val h
  unfold Virtual.offset Word.pageOffset pageSize at *
  simp only [UInt32.toNat_add, UInt32.toNat_ofNat'] at h
  omega

theorem bytes_le_pageSize (width : Width) : width.bytes ≤ pageSize := by cases width <;> decide

namespace Memory

/-! ## What is stored where -/

def Hits (v : Memory) (t : Transfer) (i : Nat) (q a : Word) : Prop :=
  ∃ m m', v.find? (t.address + UInt32.ofNat i).page = some m ∧ v.mapping? q a.page = some m' ∧
    m'.page = m.page ∧
    Virtual.offset a = Virtual.offset (t.address + UInt32.ofNat i)

theorem hits_exchangeBytes (v : Memory) (offset count : Nat) :
    (v.exchangeBytes t offset count).2.Hits t i q a ↔ v.Hits t i q a := by
  obtain ⟨contents, he⟩ := exchangeBytes_eq t count v offset
  rw [he]
  rfl

theorem Hits.eq {j : Nat} (h : v.Hits t i q a) (h' : v'.Hits t j q a) (hi : i < pageSize)
    (hj : j < pageSize) : i = j := by
  obtain ⟨-, -, -, -, -, ho⟩ := h
  obtain ⟨-, -, -, -, -, ho'⟩ := h'
  by_contra hne
  exact offset_add_ne hi hj hne t.address (ho.symm.trans ho')

def Covers (v : Memory) (t : Transfer) (offset count : Nat) : Prop :=
  ∀ i, offset ≤ i → i < offset + count → ∃ m, v.find? (t.address + UInt32.ofNat i).page = some m

theorem byte?_exchangeBytes_store (hs : t.store = some value) (q a : Word) (count : Nat) :
    ∀ {v : Memory} (offset : Nat), offset + count ≤ pageSize → v.Covers t offset count →
      (∀ i, offset ≤ i → i < offset + count → v.Hits t i q a →
        (v.exchangeBytes t offset count).2.byte? q a = some (value.byte i)) ∧
      ((∀ i, offset ≤ i → i < offset + count → ¬ v.Hits t i q a) →
        (v.exchangeBytes t offset count).2.byte? q a = v.byte? q a) := by
  induction count with
  | zero => exact fun offset _ _ => ⟨fun i hi hlt => absurd hlt (by omega), fun _ => rfl⟩
  | succ count ih =>
    intro v offset hfit hcovers
    obtain ⟨m, hm⟩ := hcovers offset (Nat.le_refl _) (by omega)
    have hone : (v.exchangeBytes t offset 1).2 =
        v.storeByte m.page (Virtual.offset (t.address + UInt32.ofNat offset))
          (value.byte offset) := by
      rw [exchangeBytes_one hm, storePart, hs]
      rfl
    obtain ⟨hhit, hmiss⟩ :=
      ih (v := (v.exchangeBytes t offset 1).2) (offset + 1) (by omega) fun i hi hlt => by
      rw [find?_exchangeBytes]
      exact hcovers i (by omega) (by omega)
    simp only [hits_exchangeBytes] at hhit hmiss
    rw [exchangeBytes_succ hm]
    refine ⟨fun i hi hlt hits => ?_, fun hnone => ?_⟩
    -- the first byte is at an offset of its own: the rest does not touch it
    · by_cases he : i = offset
      · subst he
        rw [hmiss fun j hj hjlt hits' => absurd (hits.eq hits' (by omega) (by omega)) (by omega),
          hone, byte?_storeByte]
        obtain ⟨m₁, m', hm₁, hm', hpage, ho⟩ := hits
        obtain rfl : m = m₁ := Option.some.inj (hm.symm.trans hm₁)
        rw [hm', Option.map_some, if_pos ⟨hpage, ho⟩]
      · exact hhit i (by omega) (by omega) hits
    · rw [hmiss fun j hj hjlt => hnone j (by omega) (by omega), hone, byte?_storeByte, byte?]
      refine Option.map_congr fun m' hm' => if_neg ?_
      rintro ⟨hpage, ho⟩
      exact hnone offset (Nat.le_refl _) (by omega) ⟨m, m', hm, hm', hpage, ho⟩

theorem byte?_exchangeBytes_of_not_hits (hfit : offset + count ≤ pageSize)
    (hcovers : v.Covers t offset count)
    (hnone : ∀ i, offset ≤ i → i < offset + count → ¬ v.Hits t i q a) :
    (v.exchangeBytes t offset count).2.byte? q a = v.byte? q a := by
  cases hs : t.store with
  | none => rw [exchangeBytes_load hs]
  | some value => exact (byte?_exchangeBytes_store hs q a count offset hfit hcovers).2 hnone

/-! ## What is answered -/

def Finds (v : Memory) (t : Transfer) (q : Word) (f : Nat → UInt8) (offset count : Nat) : Prop :=
  ∀ i, offset ≤ i → i < offset + count → v.byte? q (t.address + UInt32.ofNat i) = some (f i)

theorem Finds.covers (hc : v.current = some q) (h : v.Finds t q f offset count) :
    v.Covers t offset count := by
  intro i hi hlt
  obtain ⟨m, hm, -⟩ := byte?_some.mp (h i hi hlt)
  exact ⟨m, (find?_eq hc _).trans hm⟩

theorem Finds.answer (count : Nat) : ∀ {v : Memory} (offset : Nat), v.current = some q →
    offset + count ≤ pageSize → v.Finds t q f offset count →
    (v.exchangeBytes t offset count).1 = ofBytes ((List.range' offset count).map f) := by
  induction count with
  | zero => exact fun _ _ _ _ => rfl
  | succ count ih =>
    intro v offset hc hfit h
    obtain ⟨m, hm⟩ := h.covers hc offset (Nat.le_refl _) (by omega)
    have hbyte :
        v.contents m.page (Virtual.offset (t.address + UInt32.ofNat offset)) = f offset := by
      obtain ⟨m', hm', hf⟩ := byte?_some.mp (h offset (Nat.le_refl _) (by omega))
      rw [← find?_eq hc, hm] at hm'
      rw [Option.some.inj hm']
      exact hf
    have hone : v.Covers t offset 1 := fun i hi hlt => h.covers hc i hi (by omega)
    -- storing the first byte leaves those above to be found
    have hrest : (v.exchangeBytes t offset 1).2.Finds t q f (offset + 1) count := by
      intro i hi hlt
      rw [byte?_exchangeBytes_of_not_hits (by omega) hone fun j hj hjlt hits => ?_]
      · exact h i (by omega) (by omega)
      · obtain ⟨-, -, -, -, -, ho⟩ := hits
        exact offset_add_ne (by omega) (by omega) (by omega) t.address ho
    have hcurrent : (v.exchangeBytes t offset 1).2.current = some q := by
      obtain ⟨contents, he⟩ := exchangeBytes_eq t 1 v offset
      rw [he]
      exact hc
    rw [exchangeBytes_succ hm, ih (offset + 1) hcurrent (by omega) hrest, exchangeBytes_one hm,
      List.range'_succ, List.map_cons, ofBytes, hbyte]

theorem exchangeBytes_lt (t : Transfer) (count : Nat) : ∀ (v : Memory) (offset : Nat),
    (v.exchangeBytes t offset count).1 < 256 ^ count := by
  induction count with
  | zero => exact fun _ _ => Nat.one_pos
  | succ count ih =>
    intro v offset
    rw [exchangeBytes]
    dsimp only
    cases v.find? (t.address + UInt32.ofNat offset).page with
    | none => exact Nat.pow_pos (by decide)
    | some m =>
      have hrest := ih (v.storePart t offset m.page) (offset + 1)
      have hbyte := (v.contents m.page (Virtual.offset (t.address + UInt32.ofNat offset))).toNat_lt
      rw [Nat.pow_succ']
      dsimp only
      omega

theorem toNat_answer (v : Memory) (t : Transfer) :
    (UInt32.ofNat (v.exchangeBytes t 0 t.width.bytes).1).toNat =
    (v.exchangeBytes t 0 t.width.bytes).1 := by
  have hlt := exchangeBytes_lt t t.width.bytes v 0
  have hwidth : 256 ^ t.width.bytes ≤ 2 ^ 32 := by cases t.width <;> decide
  rw [UInt32.toNat_ofNat', Nat.mod_eq_of_lt (by omega)]

end Memory

/-! ## Two pages -/

structure Splits (t : Transfer) (k : Nat) : Prop where
  pos : 0 < k
  lt : k < t.width.bytes
  first : ∀ i < k, (t.address + UInt32.ofNat i).page = firstPage t
  last : ∀ i, k ≤ i → i < t.width.bytes → (t.address + UInt32.ofNat i).page = lastPage t
  ne : lastPage t ≠ firstPage t

theorem splits_of_crosses (h : crossesPage t.address t.width = true) : ∃ k, Splits t k := by
  have hcross : pageSize < t.address.pageOffset + t.width.bytes := of_decide_eq_true h
  have hwidth := bytes_le_pageSize t.width
  have hlt := t.address.toNat_lt
  have hpages : ∀ i < pageSize,
      (t.address + UInt32.ofNat i).page.toNat = (t.address.toNat + i) % 2 ^ 32 / 4096 := by
    intro i hi
    unfold Word.page pageSize at *
    rw [UInt32.toNat_ofNat', UInt32.toNat_add, UInt32.toNat_ofNat']
    omega
  have hfirst : (firstPage t).toNat = t.address.toNat / 4096 := by
    unfold firstPage Word.page pageSize
    rw [UInt32.toNat_ofNat']
    omega
  unfold Word.pageOffset pageSize at *
  refine ⟨4096 - t.address.toNat % 4096,
    by omega, by omega, fun i hi => ?_, fun i hi hlt => ?_, fun he => ?_⟩
  · exact (Word.add_ofNat_of_lt (by unfold Word.pageOffset pageSize; omega)).1
  · have hlast := hpages (t.width.bytes - 1) (by omega)
    exact UInt32.toNat_inj.mp (by rw [lastPage, hpages i (by omega), hlast]; omega)
  · have hlast := hpages (t.width.bytes - 1) (by omega)
    rw [← lastPage, he, hfirst] at hlast
    omega

namespace Memory

variable {first last : Mapping}

theorem current_resolved (hm : v.find? page = some m) (access : Access) :
    (v.resolved page m access).current = v.current := by
  obtain ⟨pid, hc, -⟩ := find?_some.mp hm
  unfold resolved
  split
  · exact current_privatise hc page m
  · rfl

/-- A resolution changes no mapping, or that of its page in the current process. -/
theorem mapping?_of_resolved (hm : v.find? page = some m) (access : Access) (q page' : Word) :
    (v.resolved page m access).mapping? q page' =
      if (access = .write ∧ m.copyOnWrite) ∧ v.current = some q ∧ page' = page then
        some { m with page := v.privatePage m, copyOnWrite := false }
      else v.mapping? q page' := by
  obtain ⟨pid, hc, hm'⟩ := find?_some.mp hm
  unfold resolved
  by_cases hwrite : access = .write ∧ m.copyOnWrite = true
  · rw [if_pos hwrite, mapping?_privatise hc hm', hc]
    simp only [hwrite, true_and, Option.some.injEq, eq_comm]
  · rw [if_neg hwrite, if_neg fun h => hwrite h.1]

theorem find?_of_resolved (hm : v.find? page = some m) (access : Access) :
    ∃ m', (v.resolved page m access).find? page = some m' := by
  obtain ⟨pid, hc, hm'⟩ := find?_some.mp hm
  rw [find?_eq ((current_resolved hm access).trans hc), mapping?_of_resolved hm]
  split
  · exact ⟨_, rfl⟩
  · exact ⟨m, hm'⟩

theorem find?_resolved_of_ne (hm : v.find? page = some m) (access : Access) {page' : Word}
    (hne : page' ≠ page) : (v.resolved page m access).find? page' = v.find? page' := by
  obtain ⟨pid, hc, -⟩ := find?_some.mp hm
  rw [find?_eq ((current_resolved hm access).trans hc), mapping?_of_resolved hm, if_neg fun h =>
    hne h.2.2, find?_eq hc]

/-- The current process finds at `a` what it gets for its last page in a store. -/
def Diverted (v : Memory) (t : Transfer) (last : Mapping) (q a : Word) : Prop :=
  (t.access = .write ∧ last.copyOnWrite) ∧ v.current = some q ∧ a.page = lastPage t

def exchangeTogether (v : Memory) (t : Transfer) (last : Mapping) : Nat × Memory :=
  (v.resolved (lastPage t) last t.access).exchangeBytes t 0 t.width.bytes

/-- The bytes of the first page are exchanged before the last page is resolved. -/
def exchangeInTurn (v : Memory) (t : Transfer) (last : Mapping) (k : Nat) : Nat × Memory :=
  let low := v.exchangeBytes t 0 k
  let high := (low.2.resolved (lastPage t) last t.access).exchangeBytes t k (t.width.bytes - k)
  (low.1 + 256 ^ k * high.1, high.2)

section
variable (h : Splits t k) (hf : v.Fresh) (hfirst : v.find? (firstPage t) = some first)
  (hlast : v.find? (lastPage t) = some last)
include h hf hfirst hlast

theorem hits_resolved (hi : i < k) : (v.resolved (lastPage t) last t.access).Hits t i q a ↔
    v.Hits t i q a ∧ ¬ v.Diverted t last q a := by
  obtain ⟨pid, hc, hlast'⟩ := find?_some.mp hlast
  have hfind := (find?_resolved_of_ne hlast t.access h.ne.symm).trans hfirst
  unfold Hits Diverted
  rw [h.first i hi, hfind, hfirst, mapping?_of_resolved hlast]
  by_cases hd : (t.access = .write ∧ last.copyOnWrite = true) ∧ v.current = some q ∧
    a.page = lastPage t
  · rw [if_pos hd]
    constructor
    · rintro ⟨m, m', hm, hm', hpage, -⟩
      obtain rfl := Option.some.inj hm
      obtain rfl := Option.some.inj hm'
      rw [find?_eq hc] at hfirst
      exact absurd hpage.symm (privatePage_ne hlast' hf hfirst fun he => h.ne he.2.symm)
    · exact fun hn => absurd hd hn.2
  · rw [if_neg hd]
    simp only [hd, not_false_eq_true, and_true]

omit hf in
theorem covers_of_splits : v.Covers t 0 t.width.bytes := by
  intro i _ hi
  by_cases hlow : i < k
  · exact ⟨first, h.first i hlow ▸ hfirst⟩
  · exact ⟨last, h.last i (Nat.le_of_not_lt hlow) (by omega) ▸ hlast⟩

omit hf in
theorem covers_resolved : (v.resolved (lastPage t) last t.access).Covers t 0 t.width.bytes := by
  obtain ⟨pid, hc, -⟩ := find?_some.mp hlast
  intro i hi hlt
  obtain ⟨m, hm⟩ := covers_of_splits h hfirst hlast i hi hlt
  rw [find?_eq ((current_resolved hlast _).trans hc), mapping?_of_resolved hlast]
  split
  · exact ⟨_, rfl⟩
  · exact ⟨m, (find?_eq hc _).symm.trans hm⟩

end

theorem resolved_with_contents (v : Memory) (contents : Nat → Fin pageSize → UInt8) (page : Word)
    (m : Mapping) (access : Access) :
    ∃ contents', ({ v with contents := contents } : Memory).resolved page m access =
      { v.resolved page m access with contents := contents' } := by
  obtain ⟨processes, bytes, nextPage, current, nextPid⟩ := v
  unfold resolved
  split
  · by_cases hshared : 1 < Memory.mappingsOf ⟨processes, bytes, nextPage, current, nextPid⟩ m.page
    · refine ⟨Function.update contents nextPage (contents m.page), ?_⟩
      rw [privatise, privatise, if_pos (by exact hshared), if_pos hshared]
      cases current <;> rfl
    · refine ⟨contents, ?_⟩
      rw [privatise, privatise, if_neg (by exact hshared), if_neg hshared]
      cases current <;> rfl
  · exact ⟨contents, rfl⟩

theorem exchangeInTurn_eq (v : Memory) (t : Transfer) (last : Mapping) (k : Nat) :
    ∃ contents, (v.exchangeInTurn t last k).2 =
      { (v.exchangeTogether t last).2 with contents := contents } := by
  obtain ⟨c, hlow⟩ := exchangeBytes_eq t k v 0
  obtain ⟨c', hresolved⟩ := resolved_with_contents v c (lastPage t) last t.access
  obtain ⟨c'', hhigh⟩ := exchangeBytes_eq t (t.width.bytes - k)
    ((v.exchangeBytes t 0 k).2.resolved (lastPage t) last t.access) k
  obtain ⟨c₂, hall⟩ := exchangeBytes_eq t t.width.bytes (v.resolved (lastPage t) last t.access) 0
  refine ⟨c'', ?_⟩
  rw [exchangeInTurn, exchangeTogether, hall, hhigh, hlow, hresolved]

/-- The second half hits what it hits when nothing was stored before. -/
theorem hits_halves (v : Memory) (t : Transfer) (last : Mapping) (k i : Nat) (q a : Word) :
    ((v.exchangeBytes t 0 k).2.resolved (lastPage t) last t.access).Hits t i q a ↔
      (v.resolved (lastPage t) last t.access).Hits t i q a := by
  obtain ⟨c, he⟩ := exchangeBytes_eq t k v 0
  obtain ⟨c', hresolved⟩ := resolved_with_contents v c (lastPage t) last t.access
  rw [he, hresolved]
  rfl

theorem fresh_exchangeBytes (hf : v.Fresh) (t : Transfer) (offset count : Nat) :
    (v.exchangeBytes t offset count).2.Fresh := by
  obtain ⟨contents, he⟩ := exchangeBytes_eq t count v offset
  rw [he]
  exact hf

theorem Covers.finds (hc : v.current = some q) (h : v.Covers t offset count) :
    v.Finds t q (fun i => (v.byte? q (t.address + UInt32.ofNat i)).getD 0) offset count := by
  intro i hi hlt
  obtain ⟨m, hm⟩ := h i hi hlt
  dsimp only
  rw [byte?_some.mpr ⟨m, (find?_eq hc _).symm.trans hm, rfl⟩, Option.getD_some]

theorem Finds.resolved (h : v.Finds t q f offset count) (hf : v.Fresh) (hm : v.find? page = some m)
    (access : Access) : (v.resolved page m access).Finds t q f offset count := by
  intro i hi hlt
  rw [((privatised_resolved hm access).unseen hf).bytes]
  exact h i hi hlt

theorem Finds.exchangeBytes {j : Nat} (h : v.Finds t q f j count) (hcovers : v.Covers t offset k)
    (hle : offset + k ≤ j) (hfit : j + count ≤ pageSize) :
    (v.exchangeBytes t offset k).2.Finds t q f j count := by
  intro i hi hlt
  rw [byte?_exchangeBytes_of_not_hits (by omega) hcovers fun j hj hjlt hits => ?_]
  · exact h i hi hlt
  · obtain ⟨-, -, -, -, -, ho⟩ := hits
    exact offset_add_ne (by omega) (by omega) (by omega) t.address ho

section
variable (h : Splits t k) (hf : v.Fresh) (hfirst : v.find? (firstPage t) = some first)
  (hlast : v.find? (lastPage t) = some last)
include h hf hfirst hlast

theorem exchangeInTurn_answer : (v.exchangeInTurn t last k).1 = (v.exchangeTogether t last).1 := by
  obtain ⟨q, hc, -⟩ := find?_some.mp hlast
  have hwidth := bytes_le_pageSize t.width
  have hlt := h.lt
  have hcovers := covers_of_splits h hfirst hlast
  have hlow : v.Covers t 0 k := fun i hi hlt => hcovers i hi (by omega)
  have hfinds := hcovers.finds hc
  generalize (fun i => (v.byte? q (t.address + UInt32.ofNat i)).getD 0) = f at hfinds
  have hall : (v.exchangeTogether t last).1 = ofBytes ((List.range' 0 t.width.bytes).map f) :=
    (hfinds.resolved hf hlast t.access).answer _ 0 ((current_resolved hlast _).trans hc) (by omega)
  have hfirstAnswer : (v.exchangeBytes t 0 k).1 = ofBytes ((List.range' 0 k).map f) :=
    Finds.answer k 0 hc (by omega) fun i hi hik => hfinds i hi (by omega)
  have hrest : (v.exchangeBytes t 0 k).2.Finds t q f k (t.width.bytes - k) :=
    Finds.exchangeBytes (fun i hi hik => hfinds i (by omega) (by omega)) hlow (by omega) (by omega)
  have hfind : (v.exchangeBytes t 0 k).2.find? (lastPage t) = some last :=
    (find?_exchangeBytes ..).trans hlast
  have hcurrent : (v.exchangeBytes t 0 k).2.current = some q := by
    obtain ⟨contents, he⟩ := exchangeBytes_eq t k v 0
    rw [he]
    exact hc
  have hlastAnswer := (hrest.resolved (fresh_exchangeBytes hf t 0 k) hfind t.access).answer _ k
    ((current_resolved hfind _).trans hcurrent) (by omega)
  rw [exchangeInTurn, hall, hfirstAnswer, hlastAnswer]
  -- the bytes on the two pages, one after the other, are those of the whole access
  have happend :
      List.range' 0 t.width.bytes = List.range' 0 k ++ List.range' k (t.width.bytes - k) := by
    have hsplit := List.range'_append_1 (s := 0) (m := k) (n := t.width.bytes - k)
    rw [Nat.zero_add, show k + (t.width.bytes - k) = t.width.bytes by omega] at hsplit
    exact hsplit.symm
  rw [happend, List.map_append, ofBytes_append, List.length_map, List.length_range']

/-- A byte differs only where the copy of the last page misses what was stored in the first. -/
theorem byte?_exchangeInTurn (hs : t.store = some value) (q a : Word) :
    (∀ i < k, v.Hits t i q a → v.Diverted t last q a →
      (v.exchangeInTurn t last k).2.byte? q a = some (value.byte i) ∧
        (v.exchangeTogether t last).2.byte? q a = v.byte? q a) ∧
      ((∀ i < k, v.Hits t i q a → ¬ v.Diverted t last q a) →
        (v.exchangeInTurn t last k).2.byte? q a = (v.exchangeTogether t last).2.byte? q a) := by
  have hwidth := bytes_le_pageSize t.width
  have hlt := h.lt
  have hcovers := covers_of_splits h hfirst hlast
  have hlow : v.Covers t 0 k := fun i hi hlt => hcovers i hi (by omega)
  have hfind : (v.exchangeBytes t 0 k).2.find? (lastPage t) = some last :=
    (find?_exchangeBytes ..).trans hlast
  have hafter : (v.exchangeBytes t 0 k).2.find? (firstPage t) = some first :=
    (find?_exchangeBytes ..).trans hfirst
  have hcoversHigh : ((v.exchangeBytes t 0 k).2.resolved (lastPage t) last t.access).Covers t k
      (t.width.bytes - k) := fun i _ hik =>
    covers_resolved h hafter hfind i (Nat.zero_le _) (by omega)
  obtain ⟨hhitLow, hmissLow⟩ := byte?_exchangeBytes_store hs q a k 0 (by omega) hlow
  obtain ⟨hhitHigh, hmissHigh⟩ := byte?_exchangeBytes_store hs q a _ k (by omega) hcoversHigh
  obtain ⟨hhit, hmiss⟩ :=
    byte?_exchangeBytes_store hs q a _ 0 (by omega) (covers_resolved h hfirst hlast)
  simp only [hits_halves] at hhitHigh hmissHigh
  rw [((privatised_resolved hfind t.access).unseen (fresh_exchangeBytes hf t 0 k)).bytes]
    at hmissHigh
  rw [((privatised_resolved hlast t.access).unseen hf).bytes] at hmiss
  unfold exchangeInTurn exchangeTogether
  dsimp only
  -- a byte of the second half is stored after the copy either way
  by_cases hhigh :
    ∃ i, k ≤ i ∧ i < t.width.bytes ∧ (v.resolved (lastPage t) last t.access).Hits t i q a
  · obtain ⟨i, hi, hilt, hits⟩ := hhigh
    refine ⟨fun j hj hits' => absurd (hits.eq hits' (by omega) (by omega)) (by omega), fun _ => ?_⟩
    rw [hhitHigh i hi (by omega) hits, hhit i (by omega) (by omega) hits]
  · rw [hmissHigh fun i hi hik hits => hhigh ⟨i, hi, by omega, hits⟩]
    have hmiss' : (∀ i < k, ¬ (v.resolved (lastPage t) last t.access).Hits t i q a) →
        ((v.resolved (lastPage t) last t.access).exchangeBytes t 0 t.width.bytes).2.byte? q a =
        v.byte? q a := by
      refine fun hnone => hmiss fun i _ hilt hits => ?_
      by_cases hik : i < k
      · exact hnone i hik hits
      · exact hhigh ⟨i, Nat.le_of_not_lt hik, by omega, hits⟩
    -- a byte of the first half is stored before the copy or after it
    by_cases hbelow : ∃ i, i < k ∧ v.Hits t i q a
    · obtain ⟨i, hi, hits⟩ := hbelow
      rw [hhitLow i (Nat.zero_le _) (by omega) hits]
      by_cases hd : v.Diverted t last q a
      · refine ⟨fun j hj hits' _ => ⟨?_, ?_⟩, fun hnone => absurd hd (hnone i hi hits)⟩
        · rw [hits.eq hits' (by omega) (by omega)]
        · exact hmiss' fun j hj hits' => ((hits_resolved h hf hfirst hlast hj).mp hits').2 hd
      · refine ⟨fun j hj hits' hd' => absurd hd' hd, fun _ => ?_⟩
        rw [hhit i (Nat.zero_le _) (by omega) ((hits_resolved h hf hfirst hlast hi).mpr ⟨hits, hd⟩)]
    · rw [hmissLow fun i _ hik hits => hbelow ⟨i, by omega, hits⟩]
      refine ⟨fun j hj hits' => absurd ⟨j, hj, hits'⟩ hbelow, fun _ => ?_⟩
      rw [hmiss' fun i hi hits => hbelow ⟨i, hi, ((hits_resolved h hf hfirst hlast hi).mp hits).1⟩]

end

end Memory

end Virtual

end PagedMachine

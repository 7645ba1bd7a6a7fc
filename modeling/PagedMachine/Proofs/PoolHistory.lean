import Mathlib.Data.FinEnum
import Mathlib.Data.Set.Card
import PagedMachine.Proofs.Ledger

/-!
# Pages held

The callers of a pool hold the pages that it handed out and has not got back. What
they hold can be read off the calls and their answers alone, also off calls that went
wrong. The pool knows it from its free pages: the others of its range are held.
-/

namespace PagedMachine

inductive PoolCall where
  | allocate
  | release (page : Word)
  deriving DecidableEq, Repr

def PoolCall.perform : PoolCall → EStateM Fault Pool (Option Word)
  | allocate => some <$> Pool.allocate
  | release page => (fun _ => none) <$> Pool.release page

def PoolCall.Step (c : PoolCall) (p : Pool) (r : Except Fault (Option Word)) (p' : Pool) : Prop :=
  Yields c.perform p r p'

abbrev PoolEvent := Event Pool PoolCall (Option Word)

namespace PoolEvent

def HandsOut (e : PoolEvent) (page : Word) : Prop :=
  e.operation = .allocate ∧ e.answer = .ok (some page)

def TakesBack (e : PoolEvent) (page : Word) : Prop :=
  e.operation = .release page ∧ e.answer = .ok none

end PoolEvent

/-- The page was handed out, and not taken back since. -/
def Held (es : List PoolEvent) (page : Word) : Prop :=
  ∃ before e after, es = before ++ e :: after ∧ e.HandsOut page ∧ ∀ e' ∈ after, ¬ e'.TakesBack page

theorem not_held_nil (page : Word) : ¬ Held [] page := by
  rintro ⟨before, e, after, hes, -⟩
  simp at hes

theorem held_concat {es : List PoolEvent} {e : PoolEvent} {page : Word} :
    Held (es ++ [e]) page ↔ e.HandsOut page ∨ Held es page ∧ ¬ e.TakesBack page := by
  constructor
  · rintro ⟨before, e', after, hes, hout, hback⟩
    rcases List.eq_nil_or_concat after with rfl | ⟨after, last, rfl⟩
    · obtain ⟨-, he⟩ := List.append_inj' hes rfl
      exact .inl (List.singleton_inj.mp he ▸ hout)
    · rw [List.concat_eq_append, ← List.cons_append, ← List.append_assoc] at hes
      obtain ⟨rfl, he⟩ := List.append_inj' hes rfl
      obtain rfl := List.singleton_inj.mp he
      rw [List.concat_eq_append] at hback
      have hlater := List.forall_mem_append.mp hback
      exact .inr ⟨⟨before, e', after, rfl, hout, hlater.1⟩, hlater.2 e List.mem_cons_self⟩
  · rintro (hout | ⟨⟨before, e', after, rfl, hout, hback⟩, hlast⟩)
    · exact ⟨es, e, [], rfl, hout, nofun⟩
    · refine ⟨before, e', after ++ [e], by simp, hout, ?_⟩
      exact List.forall_mem_append.mpr ⟨hback, by simpa using hlast⟩

/-! ## What a call does -/

theorem Table.pairwise_keys {α : Type} (t : Table α) : t.keys.Pairwise (· < ·) :=
  List.pairwise_map.mpr t.sorted

theorem Table.nodup_keys {α : Type} (t : Table α) : t.keys.Nodup :=
  t.pairwise_keys.imp fun {a b} (hlt : a < b) (heq : a = b) => UInt32.lt_irrefl b (heq ▸ hlt)

namespace Pool

variable {p q : Pool} {page : Word}

def without (p : Pool) (page : Word) : Pool := { p with free := p.free.erase page }

def withFree (p : Pool) (page : Word) : Pool := { p with free := p.free.insert page () }

theorem isFree_without (p : Pool) (page g : Word) : (p.without page).isFree g ↔
    p.isFree g ∧ g ≠ page := by
  simp [isFree, without, Table.contains_erase, and_comm]

theorem isFree_withFree (p : Pool) (page g : Word) : (p.withFree page).isFree g ↔
    p.isFree g ∨ g = page := by
  simp [isFree, withFree, Table.contains_insert, or_comm]

theorem allocate_cases {r : Except Fault Word} (h : Yields allocate p r q) :
    (∃ page, r = .ok page ∧ IsLeast {g | p.isFree g} page ∧ q = p.without page) ∨
      (∀ g, ¬ p.isFree g) ∧ r = .error (.resourceExhausted p.kind) ∧ q = p := by
  have h := h.of_get_bind
  cases hkeys : p.free.keys with
  | nil =>
    rw [hkeys] at h
    refine .inr ⟨fun g hg => ?_, h.of_throw⟩
    have := Table.mem_keys.mpr hg
    rw [hkeys] at this
    cases this
  | cons page rest =>
    rw [hkeys] at h
    obtain ⟨rfl, rfl⟩ := h.eq_of_ok rfl
    refine .inl ⟨page, rfl, ⟨isFree_of_keys hkeys, fun g hg => ?_⟩, rfl⟩
    have hsorted := p.free.pairwise_keys
    rw [hkeys] at hsorted
    have hmem : g ∈ page :: rest := hkeys ▸ Table.mem_keys.mpr hg
    rcases List.mem_cons.mp hmem with rfl | hrest
    · exact UInt32.le_refl g
    · exact UInt32.le_of_lt (List.rel_of_pairwise_cons hsorted hrest)

theorem release_cases {r : Except Fault Unit} (h : Yields (release page) p r q) :
    (p.owns page ∧ ¬ p.isFree page) ∧ r = .ok () ∧ q = p.withFree page ∨
      ¬ (p.owns page ∧ ¬ p.isFree page) ∧ r = .error (.consistencyFault p.kind page) ∧ q = p := by
  have h := h.of_get_bind
  split at h
  · exact .inl ⟨‹_›, h.eq_of_ok rfl⟩
  · exact .inr ⟨‹_›, h.of_throw⟩

theorem allocate_ok_iff : (∃ q, Yields allocate p (.ok page) q) ↔
    IsLeast {g | p.isFree g} page := by
  constructor
  · rintro ⟨q, h⟩
    rcases allocate_cases h with ⟨page', hr, hleast, -⟩ | ⟨-, hr, -⟩
    · exact Except.ok.inj hr ▸ hleast
    · cases hr
  · intro hleast
    obtain ⟨r, q, h⟩ := yields_exists allocate p
    rcases allocate_cases h with ⟨page', rfl, hleast', -⟩ | ⟨hnone, -, -⟩
    · obtain rfl : page' = page := UInt32.le_antisymm (hleast'.2 hleast.1) (hleast.2 hleast'.1)
      exact ⟨q, h⟩
    · exact absurd hleast.1 (hnone page)

theorem allocate_error_iff {e : Fault} :
    Yields allocate p (.error e) q ↔
    (∀ g, ¬ p.isFree g) ∧ e = .resourceExhausted p.kind ∧ q = p := by
  constructor
  · intro h
    rcases allocate_cases h with ⟨page, hr, -, -⟩ | ⟨hnone, hr, hq⟩
    · cases hr
    · exact ⟨hnone, Except.error.inj hr, hq⟩
  · rintro ⟨hnone, rfl, rfl⟩
    obtain ⟨r, q', h⟩ := yields_exists allocate q
    rcases allocate_cases h with ⟨page, -, hleast, -⟩ | ⟨-, rfl, rfl⟩
    · exact absurd hleast.1 (hnone page)
    · exact h

theorem release_ok_iff : (∃ q, Yields (release page) p (.ok ()) q) ↔
    p.owns page ∧ ¬ p.isFree page := by
  constructor
  · rintro ⟨q, h⟩
    rcases release_cases h with ⟨hout, -, -⟩ | ⟨-, hr, -⟩
    · exact hout
    · cases hr
  · intro hout
    obtain ⟨r, q, h⟩ := yields_exists (release page) p
    rcases release_cases h with ⟨-, rfl, -⟩ | ⟨hnot, -, -⟩
    · exact ⟨q, h⟩
    · exact absurd hout hnot

theorem release_error_iff {e : Fault} : Yields (release page) p (.error e) q ↔
    ¬ (p.owns page ∧ ¬ p.isFree page) ∧ e = .consistencyFault p.kind page ∧ q = p := by
  constructor
  · intro h
    rcases release_cases h with ⟨-, hr, -⟩ | ⟨hnot, hr, hq⟩
    · cases hr
    · exact ⟨hnot, Except.error.inj hr, hq⟩
  · rintro ⟨hnot, rfl, rfl⟩
    obtain ⟨r, q', h⟩ := yields_exists (release page) q
    rcases release_cases h with ⟨hout, -, -⟩ | ⟨-, rfl, rfl⟩
    · exact absurd hout hnot
    · exact h

/-! ## What is held -/

/-- The pool has this range, and of that it has free what is not held. -/
structure Tracks (kind : PoolKind) (low high : Word) (es : List PoolEvent) (p : Pool) : Prop where
  kind : p.kind = kind
  low : p.low = low
  high : p.high = high
  owned : ∀ page, p.isFree page → p.owns page
  held : ∀ page, Held es page ↔ p.owns page ∧ ¬ p.isFree page

variable {kind : PoolKind} {low high : Word} {es : List PoolEvent}

theorem owns_iff_range (p : Pool) (page : Word) : p.owns page ↔ p.low ≤ page ∧ page ≤ p.high := by
  rw [owns, Bool.and_eq_true, decide_eq_true_eq, decide_eq_true_eq]

theorem tracks_ofRange (kind : PoolKind) (low high : Word) :
    Tracks kind low high [] (ofRange kind low high) where
  kind := rfl
  low := rfl
  high := rfl
  owned page := (isFree_ofRange kind low high page).mp
  held page := by
    rw [isFree_ofRange]
    simp [not_held_nil]

theorem Tracks.allocate (h : Tracks kind low high es p) {r : Except Fault Word}
    (hstep : Yields Pool.allocate p r q) :
    Tracks kind low high (es ++ [⟨.allocate, r.map some, q⟩]) q := by
  rcases allocate_cases hstep with ⟨page, rfl, ⟨hfree, -⟩, rfl⟩ | ⟨-, rfl, rfl⟩
  · refine ⟨h.kind, h.low, h.high, fun g hg => h.owned g ((isFree_without p page g).mp hg).1,
      fun g => ?_⟩
    have howned : p.owns page := h.owned page hfree
    have hsame : (p.without page).owns g = p.owns g := rfl
    rw [held_concat, h.held, isFree_without, hsame]
    by_cases hg : g = page
    · simp [PoolEvent.HandsOut, PoolEvent.TakesBack, Except.map, hg, howned]
    · simp [PoolEvent.HandsOut, PoolEvent.TakesBack, Except.map, hg, Ne.symm hg]
  · refine ⟨h.kind, h.low, h.high, h.owned, fun g => ?_⟩
    rw [held_concat, ← h.held]
    simp [PoolEvent.HandsOut, PoolEvent.TakesBack, Except.map]

theorem Tracks.release (h : Tracks kind low high es p) {r : Except Fault Unit}
    (hstep : Yields (Pool.release page) p r q) :
    Tracks kind low high (es ++ [⟨.release page, r.map fun _ => none, q⟩]) q := by
  rcases release_cases hstep with ⟨⟨howned, -⟩, rfl, rfl⟩ | ⟨-, rfl, rfl⟩
  · refine ⟨h.kind, h.low, h.high, fun g hg => ?_, fun g => ?_⟩
    · rcases (isFree_withFree p page g).mp hg with hg | rfl
      · exact h.owned g hg
      · exact howned
    · have hsame : (p.withFree page).owns g = p.owns g := rfl
      rw [held_concat, h.held, isFree_withFree, hsame]
      by_cases hg : g = page
      · simp [PoolEvent.HandsOut, PoolEvent.TakesBack, Except.map, hg]
      · simp [PoolEvent.HandsOut, PoolEvent.TakesBack, Except.map, hg, Ne.symm hg]
  · refine ⟨h.kind, h.low, h.high, h.owned, fun g => ?_⟩
    rw [held_concat, ← h.held]
    simp [PoolEvent.HandsOut, PoolEvent.TakesBack, Except.map]

theorem Tracks.step (h : Tracks kind low high es p) {c : PoolCall} {r : Except Fault (Option Word)}
    (hstep : c.Step p r q) : Tracks kind low high (es ++ [⟨c, r, q⟩]) q := by
  cases c with
  | allocate =>
    obtain ⟨r₁, rfl, hcall⟩ := Yields.of_map hstep
    exact h.allocate hcall
  | release page =>
    obtain ⟨r₁, rfl, hcall⟩ := Yields.of_map hstep
    exact h.release hcall

theorem Tracks.run {fs : List PoolEvent} (hrun : Run PoolCall.Step p fs q) :
    ∀ {es : List PoolEvent}, Tracks kind low high es p → Tracks kind low high (es ++ fs) q := by
  induction hrun with
  | done p =>
    intro es h
    rwa [List.append_nil]
  | next hstep _ ih =>
    intro es h
    rw [List.append_cons]
    exact ih (h.step hstep)

theorem Tracks.isFree_iff (h : Tracks kind low high es p) (page : Word) :
    p.isFree page ↔ (low ≤ page ∧ page ≤ high) ∧ ¬ Held es page := by
  have howned := h.owned page
  rw [h.held, ← h.low, ← h.high, ← owns_iff_range]
  tauto

/-! ## How many -/

theorem freeCount_eq_ncard (p : Pool) : p.freeCount = {page | p.isFree page}.ncard := by
  have hkeys : {page | p.isFree page} = (p.free.keys.toFinset : Set Word) := by
    ext page
    rw [List.coe_toFinset]
    exact Table.mem_keys.symm
  rw [hkeys, Set.ncard_coe_finset, List.toFinset_card_of_nodup p.free.nodup_keys]
  exact (List.length_map _).symm

theorem ncard_range (low high : Word) :
    {page : Word | low ≤ page ∧ page ≤ high}.ncard = high.toNat + 1 - low.toNat := by
  rw [← freeCount_ofRange .user low high, freeCount_eq_ncard]
  congr 1
  ext page
  exact ((isFree_ofRange .user low high page).trans (owns_iff_range _ page)).symm

theorem Tracks.freeCount_add (h : Tracks kind low high es p) :
    p.freeCount + {page | Held es page}.ncard = high.toNat + 1 - low.toNat := by
  have hunion : {page : Word | low ≤ page ∧ page ≤ high} =
      {page | p.isFree page} ∪ {page | Held es page} := by
    ext page
    have hrange := p.owns_iff_range page
    rw [h.low, h.high] at hrange
    have hheld := h.held page
    have hfree := h.isFree_iff page
    simp only [Set.mem_union, Set.mem_ofPred_eq]
    tauto
  have hdisjoint : Disjoint {page | p.isFree page} {page | Held es page} :=
    Set.disjoint_left.mpr fun page hfree hheld => ((h.held page).mp hheld).2 hfree
  rw [freeCount_eq_ncard, ← Set.ncard_union_eq hdisjoint (Set.toFinite _) (Set.toFinite _),
    ← hunion, ncard_range]

/-! ## Every call after every history -/

/-- Whatever the calls were, also those that went wrong: free is what is in the range and not held,
the least free page is handed out, and a page is taken back exactly if it is held. -/
theorem history_exact (hrun : Run PoolCall.Step (ofRange kind low high) es p) :
    (∀ page, p.isFree page ↔ (low ≤ page ∧ page ≤ high) ∧ ¬ Held es page) ∧
      p.freeCount + {page | Held es page}.ncard = high.toNat + 1 - low.toNat ∧
      (∀ page, (∃ q, Yields allocate p (.ok page) q) ↔ IsLeast {g | p.isFree g} page) ∧
      (∀ e q, Yields allocate p (.error e) q ↔
        (∀ g, ¬ p.isFree g) ∧ e = .resourceExhausted kind ∧ q = p) ∧
      (∀ page, (∃ q, Yields (release page) p (.ok ()) q) ↔ Held es page) ∧
      ∀ page e q, Yields (release page) p (.error e) q ↔
        ¬ Held es page ∧ e = .consistencyFault kind page ∧ q = p := by
  have h : Tracks kind low high es p := (tracks_ofRange kind low high).run hrun
  refine ⟨h.isFree_iff, h.freeCount_add, fun page => allocate_ok_iff, fun e q => ?_, fun page =>
    ?_, fun page e q => ?_⟩
  · rw [allocate_error_iff, h.kind]
  · rw [release_ok_iff, h.held]
  · rw [release_error_iff, h.held, h.kind]

end Pool

/-! ## Two pages

A release before anything was handed out, one of a page outside the range, a page that
goes back twice, and a call too many.
-/

namespace TwoPages

def pool (free : Table Unit) : Pool := ⟨.user, 4, 5, free⟩

def both : Table Unit := (Table.empty.insert 5 ()).insert 4 ()

def events : List PoolEvent :=
  [⟨.release 4, .error (.consistencyFault .user 4), pool both⟩,
    ⟨.allocate, .ok (some 4), pool (both.erase 4)⟩,
    ⟨.release 9, .error (.consistencyFault .user 9), pool (both.erase 4)⟩,
    ⟨.release 4, .ok none, pool both⟩,
    ⟨.release 4, .error (.consistencyFault .user 4), pool both⟩,
    ⟨.allocate, .ok (some 4), pool (both.erase 4)⟩,
    ⟨.allocate, .ok (some 5), pool .empty⟩,
    ⟨.allocate, .error (.resourceExhausted .user), pool .empty⟩,
    ⟨.release 5, .ok none, pool (both.erase 4)⟩]

theorem run : Run PoolCall.Step (.ofRange .user 4 5) events (pool (both.erase 4)) :=
  .next rfl
    (.next rfl
      (.next rfl (.next rfl (.next rfl (.next rfl (.next rfl (.next rfl (.next rfl (.done _)))))))))

/-- One page is held in the end. -/
theorem one_held : Held events 4 ∧ ¬ Held events 5 ∧ {page | Held events page}.ncard = 1 := by
  obtain ⟨hfree, hcount, -, -, hrelease, -⟩ := Pool.history_exact run
  have hfour : Held events 4 := (hrelease 4).mp ⟨pool both, rfl⟩
  have hfive : ¬ Held events 5 := ((hfree 5).mp rfl).2
  refine ⟨hfour, hfive, ?_⟩
  have hone : (pool (both.erase 4)).freeCount = 1 := rfl
  rw [hone] at hcount
  exact Nat.add_left_cancel hcount

end TwoPages

end PagedMachine

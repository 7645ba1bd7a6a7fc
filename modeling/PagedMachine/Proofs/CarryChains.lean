import Mathlib.Data.Nat.Digits.Lemmas
import PagedMachine.Proofs.Results
import PagedMachine.Proofs.Sums

/-!
# Arithmetic on several limbs

Numbers longer than a word are added and subtracted limb by limb, the least significant
first, and the carry passes from each to the next. The limbs then hold the exact result,
and the flags of the last limb are those of the whole number.
-/

namespace PagedMachine

/-! ## Numbers of several limbs -/

def ofLimbs (ws : List Word) : Nat := Nat.ofDigits (2 ^ 32) (ws.map UInt32.toNat)

def signedOfLimbs (ws : List Word) : Int :=
  if ofLimbs ws < 2 ^ (32 * ws.length - 1) then ofLimbs ws else ofLimbs ws - 2 ^ (32 * ws.length)

@[simp] theorem ofLimbs_nil : ofLimbs [] = 0 := rfl

theorem ofLimbs_cons (w : Word) (ws : List Word) :
    ofLimbs (w :: ws) = w.toNat + 2 ^ 32 * ofLimbs ws := rfl

theorem ofLimbs_concat (ws : List Word) (w : Word) :
    ofLimbs (ws ++ [w]) = ofLimbs ws + 2 ^ (32 * ws.length) * w.toNat := by
  rw [ofLimbs, ofLimbs, List.map_append, Nat.ofDigits_append, List.length_map, List.map_singleton,
    Nat.ofDigits_singleton, ← Nat.pow_mul]

theorem ofLimbs_lt (ws : List Word) : ofLimbs ws < 2 ^ (32 * ws.length) := by
  have hdigits : ∀ d ∈ ws.map UInt32.toNat, d < 2 ^ 32 := by
    simp only [List.mem_map]
    rintro _ ⟨w, -, rfl⟩
    exact w.toNat_lt
  have hlt := Nat.ofDigits_lt_base_pow_length (by decide) hdigits
  rwa [List.length_map, ← Nat.pow_mul] at hlt

theorem add_mul_lt_mul_iff {low base x y : Int} (hlow : 0 ≤ low) (hlt : low < base) :
    low + base * x < base * y ↔ x < y := by
  constructor
  · intro h
    by_contra hle
    have hmul : base * y ≤ base * x := Int.mul_le_mul_of_nonneg_left (Int.not_lt.mp hle) (by omega)
    omega
  · intro h
    have hmul : base * (x + 1) ≤ base * y := Int.mul_le_mul_of_nonneg_left h (by omega)
    rw [Int.mul_add] at hmul
    omega

theorem two_pow_limbs (n : Nat) : 2 ^ (32 * (n + 1)) = 2 ^ 32 * 2 ^ (32 * n) := by
  rw [Nat.mul_succ, Nat.pow_add, Nat.mul_comm]

theorem two_pow_top (n : Nat) : 2 ^ (32 * (n + 1) - 1) = 2 ^ (32 * n) * 2 ^ 31 := by
  rw [← Nat.pow_add]
  congr 1

theorem fits_concat_iff {n : Nat} {low x : Int} (hlow : 0 ≤ low) (hlt : low < 2 ^ (32 * n)) :
    Fits (32 * (n + 1)) (low + 2 ^ (32 * n) * x) ↔ Fits 32 x := by
  have htop : (2 : Int) ^ (32 * (n + 1) - 1) = 2 ^ (32 * n) * 2 ^ 31 := by
    exact_mod_cast two_pow_top n
  rw [fits_word_iff, Fits, htop, ← Int.mul_neg, add_mul_lt_mul_iff hlow hlt, ← Int.not_lt,
    add_mul_lt_mul_iff hlow hlt, Int.not_lt]

theorem top_iff (ws : List Word) (w : Word) :
    2 ^ (32 * (ws.length + 1) - 1) ≤ ofLimbs (ws ++ [w]) ↔ w.negative = true := by
  have hpos : 0 < 2 ^ (32 * ws.length) := Nat.two_pow_pos _
  rw [Word.negative_iff, ofLimbs_concat, two_pow_top, Nat.mul_comm _ (2 ^ 31),
    ← Nat.le_div_iff_mul_le hpos,
    Nat.add_mul_div_left _ _ hpos, Nat.div_eq_of_lt (ofLimbs_lt ws), Nat.zero_add]

theorem signedOfLimbs_concat (ws : List Word) (w : Word) :
    signedOfLimbs (ws ++ [w]) = ofLimbs ws + 2 ^ (32 * ws.length) * w.signed := by
  have hpow : (2 : Int) ^ (32 * (ws.length + 1)) = 2 ^ (32 * ws.length) * 2 ^ 32 := Int.pow_add ..
  have htop := top_iff ws w
  rw [Word.negative_iff] at htop
  rw [signedOfLimbs, Word.signed, List.length_append, List.length_singleton]
  by_cases hsign : w.toNat < 2 ^ 31
  · rw [if_pos (by omega), if_pos hsign, ofLimbs_concat]
    push_cast
    rfl
  · rw [if_neg (by omega), if_neg hsign, ofLimbs_concat, hpow, Int.mul_sub]
    push_cast
    omega

theorem ofLimbs_complement (ws : List Word) :
    ofLimbs (ws.map (~~~ ·)) + ofLimbs ws + 1 = 2 ^ (32 * ws.length) := by
  induction ws with
  | nil => rfl
  | cons w ws ih =>
    have hw := w.toNat_lt
    rw [List.map_cons, ofLimbs_cons, ofLimbs_cons, Word.toNat_complement, List.length_cons,
      two_pow_limbs, ← ih]
    omega

theorem signedOfLimbs_complement {ws : List Word} (h : ws ≠ []) :
    signedOfLimbs (ws.map (~~~ ·)) = -1 - signedOfLimbs ws := by
  obtain ⟨ws, w, rfl⟩ := ws.eq_nil_or_concat'.resolve_left h
  have hcomplement :
      ((ofLimbs (ws.map (~~~ ·)) + ofLimbs ws + 1 : Nat) : Int) = (2 ^ (32 * ws.length) : Nat) :=
    congrArg _ (ofLimbs_complement ws)
  push_cast at hcomplement
  rw [List.map_append, List.map_singleton, signedOfLimbs_concat, signedOfLimbs_concat,
    Word.signed_complement, List.length_map, Int.mul_sub, Int.mul_neg, Int.mul_one]
  omega

/-! ## Adders in a row -/

def ripple (carry : Bool) : List (Word × Word) → List Sum
  | [] => []
  | (a, b) :: ps => addWithCarry a b carry :: ripple (addWithCarry a b carry).carry ps

def carryAfter (carry : Bool) (ps : List (Word × Word)) : Bool :=
  ps.foldl (fun carry p => (addWithCarry p.1 p.2 carry).carry) carry

theorem carryAfter_concat (carry : Bool) (ps : List (Word × Word)) (a b : Word) :
    carryAfter carry (ps ++ [(a, b)]) = (addWithCarry a b (carryAfter carry ps)).carry :=
  List.foldl_concat ..

theorem ripple_concat (carry : Bool) (ps : List (Word × Word)) (a b : Word) :
    ripple carry (ps ++ [(a, b)]) =
    ripple carry ps ++ [addWithCarry a b (carryAfter carry ps)] := by
  induction ps generalizing carry with
  | nil => rfl
  | cons p ps ih =>
    rw [List.cons_append, ripple, ripple, ih, List.cons_append]
    rfl

@[simp] theorem length_ripple (carry : Bool) (ps : List (Word × Word)) :
    (ripple carry ps).length = ps.length := by
  induction ps generalizing carry with
  | nil => rfl
  | cons p ps ih => rw [ripple, List.length_cons, ih, List.length_cons]

/-- The results lack of the sum what the last carry is worth. -/
theorem ripple_exact (carry : Bool) (ps : List (Word × Word)) :
    ofLimbs ((ripple carry ps).map Sum.result) +
    2 ^ (32 * ps.length) * (carryAfter carry ps).toNat =
      ofLimbs (ps.map Prod.fst) + ofLimbs (ps.map Prod.snd) + carry.toNat := by
  induction ps generalizing carry with
  | nil => simp [ripple, carryAfter]
  | cons p ps ih =>
    obtain ⟨a, b⟩ := p
    have hlimb := addWithCarry_exact a b carry
    have hrest := ih (addWithCarry a b carry).carry
    have hcarry :
        carryAfter carry ((a, b) :: ps) = carryAfter (addWithCarry a b carry).carry ps := rfl
    rw [hcarry, ripple, List.map_cons, List.map_cons, List.map_cons, ofLimbs_cons, ofLimbs_cons,
      ofLimbs_cons, List.length_cons, two_pow_limbs, Nat.mul_assoc]
    dsimp only
    omega

theorem ripple_lt (carry : Bool) (ps : List (Word × Word)) :
    ofLimbs ((ripple carry ps).map Sum.result) < 2 ^ (32 * ps.length) := by
  have hlt := ofLimbs_lt ((ripple carry ps).map Sum.result)
  rwa [List.length_map, length_ripple] at hlt

theorem carryAfter_iff (carry : Bool) (ps : List (Word × Word)) : carryAfter carry ps = true ↔
    2 ^ (32 * ps.length) ≤ ofLimbs (ps.map Prod.fst) + ofLimbs (ps.map Prod.snd) + carry.toNat := by
  have hexact := ripple_exact carry ps
  have hlt := ripple_lt carry ps
  cases hcarry : carryAfter carry ps with
  | false =>
    rw [hcarry, Bool.toNat_false] at hexact
    simp only [Bool.false_eq_true, false_iff]
    omega
  | true =>
    rw [hcarry, Bool.toNat_true] at hexact
    simp only [true_iff]
    omega

theorem overflow_concat_iff (carry : Bool) (ps : List (Word × Word)) (a b : Word) :
    (addWithCarry a b (carryAfter carry ps)).overflow = true ↔
      ¬ Fits (32 * (ps.length + 1)) (signedOfLimbs (ps.map Prod.fst ++ [a]) +
        signedOfLimbs (ps.map Prod.snd ++ [b]) + carry.toNat) := by
  have hexact : ((_ : Nat) : Int) = (_ : Nat) := congrArg _ (ripple_exact carry ps)
  have hlt := ripple_lt carry ps
  push_cast at hexact
  have hsum : signedOfLimbs (ps.map Prod.fst ++ [a]) + signedOfLimbs (ps.map Prod.snd ++ [b]) +
      carry.toNat =
      ofLimbs ((ripple carry ps).map Sum.result) +
        2 ^ (32 * ps.length) * (a.signed + b.signed + (carryAfter carry ps).toNat) := by
    rw [signedOfLimbs_concat, signedOfLimbs_concat, List.length_map, List.length_map, Int.mul_add,
      Int.mul_add]
    omega
  rw [overflow_iff, hsum, fits_concat_iff (by omega) (by exact_mod_cast hlt)]

def outcomes (carry : Bool) (ps : List (Word × Word)) : List (Word × Flags) :=
  (ripple carry ps).map fun r => (r.result, r.flags)

theorem words_outcomes (carry : Bool) (ps : List (Word × Word)) :
    (outcomes carry ps).map Prod.fst = (ripple carry ps).map Sum.result := by
  rw [outcomes, List.map_map]
  rfl

/-- The words spell the number modulo what they can hold. The last flags tell of the number as a
whole: what it carries, whether it fits when it is read as signed, and its top bit. Each word has
its own Z. -/
structure Spells (limbs : Nat) (number signed : Int) (carries : Prop)
    (results : List (Word × Flags)) : Prop where
  length : results.length = limbs
  value : (ofLimbs (results.map Prod.fst) : Int) = number % 2 ^ (32 * limbs)
  zero : ∀ x ∈ results, x.2.zero = true ↔ x.1 = 0
  last : ∃ final, results.getLast?.map Prod.snd = some final ∧
    (final.carry = true ↔ carries) ∧
    (final.overflow = true ↔ ¬ Fits (32 * limbs) signed) ∧
    (final.negative = true ↔ 2 ^ (32 * limbs - 1) ≤ ofLimbs (results.map Prod.fst))

theorem spells_sum (carry : Bool) {ps : List (Word × Word)} (h : ps ≠ []) :
    Spells ps.length (ofLimbs (ps.map Prod.fst) + ofLimbs (ps.map Prod.snd) + carry.toNat)
      (signedOfLimbs (ps.map Prod.fst) + signedOfLimbs (ps.map Prod.snd) + carry.toNat)
      (2 ^ (32 * ps.length) ≤ ofLimbs (ps.map Prod.fst) + ofLimbs (ps.map Prod.snd) + carry.toNat)
      (outcomes carry ps) where
  length := by rw [outcomes, List.length_map, length_ripple]
  value := by
    have hlt := ripple_lt carry ps
    rw [words_outcomes]
    norm_cast
    rw [← ripple_exact, Nat.add_mul_mod_self_left, Nat.mod_eq_of_lt hlt]
  zero := by
    simp only [outcomes, List.mem_map]
    rintro _ ⟨r, -, rfl⟩
    exact beq_iff_eq
  last := by
    obtain ⟨ps, ⟨a, b⟩, rfl⟩ := ps.eq_nil_or_concat'.resolve_left h
    have hcarry := carryAfter_iff carry (ps ++ [(a, b)])
    have htop :=
      top_iff ((ripple carry ps).map Sum.result) (addWithCarry a b (carryAfter carry ps)).result
    have hoverflow := overflow_concat_iff carry ps a b
    rw [List.length_map, length_ripple] at htop
    rw [carryAfter_concat] at hcarry
    refine ⟨(addWithCarry a b (carryAfter carry ps)).flags, ?_, hcarry, ?_, ?_⟩
    · rw [outcomes, ripple_concat, List.map_append, List.map_singleton, List.getLast?_concat,
        Option.map_some]
    · rw [List.map_append, List.map_append, List.length_append]
      exact hoverflow
    · rw [words_outcomes, ripple_concat, List.map_append, List.length_append]
      exact htop.symm

theorem spells_difference (carry : Bool) {ps : List (Word × Word)} (h : ps ≠ []) :
    let number : Int := ofLimbs (ps.map Prod.fst) - ofLimbs (ps.map Prod.snd) - (1 - carry.toNat)
    Spells ps.length number
      (signedOfLimbs (ps.map Prod.fst) - signedOfLimbs (ps.map Prod.snd) - (1 - carry.toNat))
      (0 ≤ number) (outcomes carry (ps.map fun p => (p.1, ~~~p.2))) := by
  intro number
  -- a difference is the sum with the complement, which is one less than the negative number
  have hne : (ps.map fun p => (p.1, ~~~p.2)) ≠ [] := by simpa using h
  have hsubtracted : ps.map Prod.snd ≠ [] := by simpa using h
  obtain ⟨hlength, hvalue, hzero, final, hfinal, hcarry, hoverflow, hnegative⟩ :=
    spells_sum carry hne
  have hcomplement := ofLimbs_complement (ps.map Prod.snd)
  have hsigned := signedOfLimbs_complement hsubtracted
  have hfst : (ps.map fun p => (p.1, ~~~p.2)).map Prod.fst = ps.map Prod.fst := by
    rw [List.map_map]; rfl
  have hsnd : (ps.map fun p => (p.1, ~~~p.2)).map Prod.snd = (ps.map Prod.snd).map (~~~ ·) := by
    rw [List.map_map, List.map_map]; rfl
  have hnumber :
      (ofLimbs (ps.map Prod.fst) + ofLimbs ((ps.map Prod.snd).map (~~~ ·)) + carry.toNat : Int) =
      number + 2 ^ (32 * ps.length) := by
    rw [List.length_map] at hcomplement
    have hcast : ((_ : Nat) : Int) = (_ : Nat) := congrArg _ hcomplement
    push_cast at hcast
    omega
  rw [List.length_map] at hlength hvalue hcarry hoverflow hnegative
  rw [hfst, hsnd] at hvalue hcarry hoverflow
  rw [hnumber, Int.add_emod_right] at hvalue
  refine ⟨hlength, hvalue, hzero, final, hfinal, ?_, ?_, hnegative⟩
  · rw [hcarry, ← Int.ofNat_le]
    push_cast
    rw [hnumber]
    omega
  · rw [hoverflow, hsigned]
    have hdifference :
        signedOfLimbs (ps.map Prod.fst) + (-1 - signedOfLimbs (ps.map Prod.snd)) + carry.toNat =
        signedOfLimbs (ps.map Prod.fst) - signedOfLimbs (ps.map Prod.snd) - (1 - carry.toNat) :=
          by omega
    rw [hdifference]

/-! ## Instructions in a row -/

/-- One limb of a long sum: the registers it is made in, and its operands there. -/
structure Limb where
  registers : Registers
  rd : Register
  rn : Register
  operand : Operand2

namespace Limb

def a (l : Limb) : Word := l.registers.get l.rn

def b (l : Limb) : Word := (l.operand.value l.registers l.registers.flags.carry).1

theorem exists_of_words (a b : Word) : ∃ l : Limb, l.a = a ∧ l.b = b :=
  ⟨⟨(Registers.zero.set 0 a).set 1 b, 0, 0, .shifted 1 .lsl (.immediate 0)⟩, rfl, rfl⟩

end Limb

namespace Instruction

/-- Executes `o` with its flags on each limb. The carry passes from one to the next, and for
each the word in `rd` and the flags are kept. -/
def executeLimbs (o : Opcode) : Bool → List Limb → OnBus (List (Word × Flags))
  | _, [] => return []
  | carry, l :: ls => do
    let s := l.registers.withCarry carry
    let e ← execute ⟨o, .dataProcessing true l.rd l.rn l.operand⟩ s
    let s' := e.commit s
    return (s'.get l.rd, s'.flags) :: (← executeLimbs o s'.flags.carry ls)

/-- An instruction that adds what `f` makes of its operands, with the carry, is an adder for each
limb. -/
theorem executeLimbs_eq {o : Opcode} {f : Word → Word → Word × Word}
    (h : ∀ x : Sources, x.arithmetic? o = some (Sources.sum (f x.a x.b).1 (f x.a x.b).2 x.carry))
    (carry : Bool) (ls : List Limb) :
    executeLimbs o carry ls = pure (outcomes carry (ls.map fun l => f l.a l.b)) := by
  induction ls generalizing carry with
  | nil => rfl
  | cons l ls ih =>
    have hsum : (Sources.ofOperands (l.registers.withCarry carry) l.rn l.operand).arithmetic? o =
        some (Sources.sum (f l.a l.b).1 (f l.a l.b).2 carry) := by
      rw [h, Sources.ofOperands_withCarry]
      rfl
    obtain ⟨e, hexecute, hcommit⟩ := completes_sum hsum l.rd
    rw [executeLimbs, hexecute, pure_bind]
    simp only [hcommit, Registers.get_next, Registers.get_set_self, Registers.flags_next]
    rw [ih, pure_bind]
    rfl

theorem execute_eq_withCarry {o o' : Opcode} {s : Registers} {rn : Register} {operand : Operand2}
    {carry : Bool} {r : Word × FlagsUpdate}
    (h : (Sources.ofOperands s rn operand).arithmetic? o = some r)
    (h' : ({ Sources.ofOperands s rn operand with carry := carry } : Sources).arithmetic? o' =
      some r) (setFlags : Bool)
      (rd : Register) : execute ⟨o, .dataProcessing setFlags rd rn operand⟩ s =
      execute ⟨o', .dataProcessing setFlags rd rn operand⟩ (s.withCarry carry) := by
  rw [← Sources.ofOperands_withCarry] at h'
  rw [execute_arithmetic h, execute_arithmetic h']
  rfl

def Chains (o : Opcode) (carry : Bool) (ls : List Limb) (number signed : Int)
    (carries : Prop) : Prop :=
  ∃ results, executeLimbs o carry ls = pure results ∧ Spells ls.length number signed carries results

theorem chains_sum {o : Opcode}
    (h : ∀ x : Sources, x.arithmetic? o = some (Sources.sum x.a x.b x.carry))
    (carry : Bool) {ls : List Limb} (hne : ls ≠ []) :
    Chains o carry ls (ofLimbs (ls.map Limb.a) + ofLimbs (ls.map Limb.b) + carry.toNat)
      (signedOfLimbs (ls.map Limb.a) + signedOfLimbs (ls.map Limb.b) + carry.toNat)
      (2 ^ (32 * ls.length) ≤ ofLimbs (ls.map Limb.a) + ofLimbs (ls.map Limb.b) + carry.toNat) := by
  have hpairs : ls.map (fun l => (l.a, l.b)) ≠ [] := by simpa using hne
  have hspells := spells_sum carry hpairs
  rw [List.map_map, List.map_map, List.length_map] at hspells
  exact ⟨_, executeLimbs_eq (f := fun a b => (a, b)) h carry ls, hspells⟩

theorem chains_difference {o : Opcode} {f : Word → Word → Word × Word}
    (h : ∀ x : Sources,
      x.arithmetic? o = some (Sources.sum (f x.a x.b).1 (~~~(f x.a x.b).2) x.carry))
    (carry : Bool) {ls : List Limb} (hne : ls ≠ []) :
    let as := ls.map fun l => (f l.a l.b).1
    let bs := ls.map fun l => (f l.a l.b).2
    Chains o carry ls (ofLimbs as - ofLimbs bs - (1 - carry.toNat))
      (signedOfLimbs as - signedOfLimbs bs - (1 - carry.toNat))
      (0 ≤ (ofLimbs as - ofLimbs bs - (1 - carry.toNat) : Int)) := by
  have hpairs : ls.map (fun l => f l.a l.b) ≠ [] := by simpa using hne
  have hspells := spells_difference carry hpairs
  rw [List.map_map, List.map_map, List.map_map, List.length_map] at hspells
  exact ⟨_, executeLimbs_eq (f := fun a b => ((f a b).1, ~~~(f a b).2)) h carry ls, hspells⟩

/-- Sums and differences of any number of limbs are exact. `add`, `sub` and `rsb` are single limbs
with a fixed carry, and comparisons set the flags that these set. -/
theorem chains_exact :
    (∀ (l : Limb) (ls : List Limb) (carry : Bool),
      let as := (l :: ls).map Limb.a
      let bs := (l :: ls).map Limb.b
      let borrow : Int := 1 - carry.toNat
      Chains .adc carry (l :: ls) (ofLimbs as + ofLimbs bs + carry.toNat)
        (signedOfLimbs as + signedOfLimbs bs + carry.toNat)
        (2 ^ (32 * (l :: ls).length) ≤ ofLimbs as + ofLimbs bs + carry.toNat) ∧
      Chains .sbc carry (l :: ls) (ofLimbs as - ofLimbs bs - borrow)
        (signedOfLimbs as - signedOfLimbs bs - borrow) (0 ≤ ofLimbs as - ofLimbs bs - borrow) ∧
      Chains .rsc carry (l :: ls) (ofLimbs bs - ofLimbs as - borrow)
        (signedOfLimbs bs - signedOfLimbs as - borrow) (0 ≤ ofLimbs bs - ofLimbs as - borrow)) ∧
    (∀ a b : Word, ∃ l : Limb, l.a = a ∧ l.b = b) ∧
    ∀ (s : Registers) (setFlags : Bool) (rd rn : Register) (operand : Operand2),
      let operands := Operands.dataProcessing setFlags rd rn operand
      execute ⟨.add, operands⟩ s = execute ⟨.adc, operands⟩ (s.withCarry false) ∧
      execute ⟨.sub, operands⟩ s = execute ⟨.sbc, operands⟩ (s.withCarry true) ∧
      execute ⟨.rsb, operands⟩ s = execute ⟨.rsc, operands⟩ (s.withCarry true) ∧
      (∃ f r, Completes ⟨.sub, .dataProcessing true rd rn operand⟩ s ((s.set rd r).next f) ∧
        Completes ⟨.cmp, .compare rn operand⟩ s (s.next f)) ∧
      ∃ f r, Completes ⟨.add, .dataProcessing true rd rn operand⟩ s ((s.set rd r).next f) ∧
        Completes ⟨.cmn, .compare rn operand⟩ s (s.next f) := by
  refine ⟨fun l ls carry => ⟨?_, ?_, ?_⟩, Limb.exists_of_words, fun s setFlags rd rn operand => ?_⟩
  · exact chains_sum (fun _ => rfl) carry (List.cons_ne_nil l ls)
  · exact chains_difference (f := fun a b => (a, b)) (fun _ => rfl) carry (List.cons_ne_nil l ls)
  · exact chains_difference (f := fun a b => (b, a)) (fun _ => rfl) carry (List.cons_ne_nil l ls)
  · refine ⟨execute_eq_withCarry rfl rfl setFlags rd, execute_eq_withCarry rfl rfl setFlags rd,
      execute_eq_withCarry rfl rfl setFlags rd,
      ⟨_, _, completes_sum rfl rd, completes_compared rfl⟩,
      ⟨_, _, completes_sum rfl rd, completes_compared rfl⟩⟩

end Instruction

end PagedMachine

import Mathlib.Tactic.SplitIfs
import PagedMachine.Isa.Assembly

/-!
# Names and numbers in text

A name is a run of letters, digits and underscores. Where a text goes on behind a
name with any other character, the name ends there and nowhere else, so two such
texts are equal only piece by piece. Registers and numbers are written as names,
and each is written in its own way.
-/

namespace PagedMachine.Text

/-! ## Names -/

def nameChar (c : Char) : Bool := c.isAlphanum || c == '_'

structure IsName (s : String) : Prop where
  nonempty : s ≠ ""
  chars : s.toList.all nameChar = true

def Stops (s : String) : Prop := s.toList.head?.any nameChar = false

instance (s : String) : Decidable (Stops s) := inferInstanceAs (Decidable (_ = false))

variable {a b s t : String}

@[simp] theorem stops_empty : Stops "" := by simp [Stops]

theorem Stops.append (h : Stops s) (hne : s ≠ "") (t : String) : Stops (s ++ t) := by
  have hhead : (s ++ t).toList.head? = s.toList.head? := by
    obtain ⟨c, cs, hc⟩ := List.exists_cons_of_ne_nil (l := s.toList) (by simpa using hne)
    simp [hc]
  rw [Stops, hhead]
  exact h

theorem IsName.append (ha : IsName a) (hb : b.toList.all nameChar = true) : IsName (a ++ b) :=
  ⟨by simp [ha.nonempty],
    by rw [String.toList_append, List.all_append, ha.chars, hb, Bool.and_self]⟩

theorem IsName.append_ne (ha : IsName a) (ht : Stops t) : a ++ s ≠ t := by
  rintro rfl
  obtain ⟨c, cs, hc⟩ := List.exists_cons_of_ne_nil (l := a.toList) (by simpa using ha.nonempty)
  have hname : nameChar c = true := List.all_eq_true.mp ha.chars c (by simp [hc])
  simp [Stops, hc, hname] at ht

theorem IsName.ne (ha : IsName a) (ht : Stops t) : a ≠ t := by
  simpa using ha.append_ne (s := "") ht

/-- The longest run of name characters in front is the name. -/
theorem IsName.takeWhile_append (ha : IsName a) (hs : Stops s) :
    (a ++ s).toList.takeWhile nameChar = a.toList := by
  rw [String.toList_append, List.takeWhile_append_of_pos (List.all_eq_true.mp ha.chars)]
  cases hcs : s.toList with
  | nil => simp
  | cons c cs =>
    have hstop : nameChar c = false := by simpa [Stops, hcs] using hs
    simp [hstop]

theorem IsName.append_eq_iff (ha : IsName a) (hb : IsName b) (hs : Stops s) (ht : Stops t) :
    a ++ s = b ++ t ↔ a = b ∧ s = t := by
  constructor
  · intro h
    obtain rfl : a = b := by
      rw [← String.toList_inj, ← ha.takeWhile_append hs, h, hb.takeWhile_append ht]
    exact ⟨rfl, (String.append_right_inj a).mp h⟩
  · rintro ⟨rfl, rfl⟩
    rfl

/-! ## Digits -/

/-- The letters from `a` up go on where the ten digits end. -/
def digitValue (c : Char) : Nat :=
  if c.isDigit then c.toNat - '0'.toNat else c.toNat - 'a'.toNat + 10

def number (base : Nat) (digits : List Char) : Nat :=
  digits.foldl (fun n c => base * n + digitValue c) 0

theorem digitValue_digitChar {n : Nat} (h : n < 16) : digitValue n.digitChar = n := by
  revert n
  decide

theorem nameChar_digitChar {n : Nat} (h : n < 16) : nameChar n.digitChar = true := by
  revert n
  decide

section

variable {base : Nat}

theorem number_zeros (k : Nat) (digits : List Char) :
    number base (List.replicate k '0' ++ digits) = number base digits := by
  induction k with
  | zero => rfl
  | succ k ih => exact ih

variable (hlow : 1 < base)
include hlow

/-- A number is written as a digit, or as its quotient with one more digit behind. -/
theorem toDigits_induction {motive : Nat → List Char → Prop}
    (digit : ∀ d < base, motive d [d.digitChar])
    (more : ∀ n ds, ∀ d < base, motive n ds → motive (base * n + d) (ds ++ [d.digitChar]))
    (n : Nat) : motive n (Nat.toDigits base n) := by
  induction n using Nat.strongRecOn with
  | ind n ih =>
    rw [Nat.toDigits_eq_if hlow]
    split_ifs with hn
    · exact digit n hn
    · have hquotient := ih (n / base) (Nat.div_lt_self (by omega) hlow)
      have hmore := more _ _ (n % base) (Nat.mod_lt n (by omega)) hquotient
      rwa [Nat.div_add_mod] at hmore

variable (hhigh : base ≤ 16)
include hhigh

theorem number_toDigits (n : Nat) : number base (Nat.toDigits base n) = n := by
  induction n using toDigits_induction hlow with
  | digit d hd => simp [number, digitValue_digitChar (Nat.lt_of_lt_of_le hd hhigh)]
  | more n ds d hd ih =>
    rw [number, List.foldl_append, ← number, ih]
    simp [digitValue_digitChar (Nat.lt_of_lt_of_le hd hhigh)]

theorem nameChar_toDigits (n : Nat) : (Nat.toDigits base n).all nameChar = true := by
  induction n using toDigits_induction hlow with
  | digit d hd => simp [nameChar_digitChar (Nat.lt_of_lt_of_le hd hhigh)]
  | more n ds d hd ih =>
    rw [List.all_append, ih]
    simp [nameChar_digitChar (Nat.lt_of_lt_of_le hd hhigh)]

end

/-! ## Numbers -/

theorem decimal_inj {m n : Nat} : decimal m = decimal n ↔ m = n := by
  refine ⟨fun h => ?_, congrArg decimal⟩
  have hnumber := congrArg (number 10) (String.ofList_injective h)
  rwa [number_toDigits (by decide) (by decide), number_toDigits (by decide) (by decide)] at hnumber

theorem hex_inj {m n : Nat} : hex m = hex n ↔ m = n := by
  refine ⟨fun h => ?_, congrArg hex⟩
  have hnumber := congrArg (number 16) (String.ofList_injective ((String.append_right_inj _).mp h))
  rwa [number_toDigits (by decide) (by decide), number_toDigits (by decide) (by decide)] at hnumber

theorem paddedHex_inj {m n : Nat} : paddedHex m = paddedHex n ↔ m = n := by
  refine ⟨fun h => ?_, congrArg paddedHex⟩
  have hnumber := congrArg (number 16) (String.ofList_injective ((String.append_right_inj _).mp h))
  rwa [List.leftpad, List.leftpad, number_zeros, number_zeros,
    number_toDigits (by decide) (by decide), number_toDigits (by decide) (by decide)] at hnumber

theorem isName_decimal (n : Nat) : IsName (decimal n) where
  nonempty := by simp [decimal]
  chars := by
    rw [decimal, String.toList_ofList]
    exact nameChar_toDigits (by decide) (by decide) n

theorem signedDecimal_inj {m n : Int} : signedDecimal m = signedDecimal n ↔ m = n := by
  refine ⟨fun h => ?_, congrArg signedDecimal⟩
  unfold signedDecimal at h
  have hne (k : Nat) (s : String) : decimal k ≠ "-" ++ s :=
    (isName_decimal k).ne (Stops.append (by decide) (by decide) s)
  split_ifs at h
  · have := decimal_inj.mp ((String.append_right_inj _).mp h)
    omega
  · exact absurd h.symm (hne _ _)
  · exact absurd h (hne _ _)
  · have := decimal_inj.mp h
    omega

end PagedMachine.Text

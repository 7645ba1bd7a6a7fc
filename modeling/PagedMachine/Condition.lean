import PagedMachine.Flags

/-!
# Branch conditions

A condition is a test of the flags. After a comparison of `a` with `b` the
unsigned orders read C and Z, the signed orders N, V and Z.
-/

namespace PagedMachine

inductive Condition where
  | eq
  | ne
  | cs
  | cc
  | mi
  | pl
  | vs
  | vc
  | hi
  | ls
  | ge
  | lt
  | gt
  | le
  | al
  deriving DecidableEq, Repr

namespace Condition

def all : List Condition := [eq, ne, cs, cc, mi, pl, vs, vc, hi, ls, ge, lt, gt, le, al]

def code : Condition → Nat
  | eq => 0
  | ne => 1
  | cs => 2
  | cc => 3
  | mi => 4
  | pl => 5
  | vs => 6
  | vc => 7
  | hi => 8
  | ls => 9
  | ge => 10
  | lt => 11
  | gt => 12
  | le => 13
  | al => 14

def ofCode? (code : Nat) : Option Condition := all.find? (·.code == code)

theorem ofCode?_eq_some_iff {n : Nat} {c : Condition} : ofCode? n = some c ↔ c.code = n := by
  constructor
  · intro h
    simpa using List.find?_some h
  · intro h
    subst h
    cases c <;> rfl

theorem code_lt (c : Condition) : c.code < 15 := by cases c <;> decide

def passes (c : Condition) (f : Flags) : Bool :=
  match c with
  | eq => f.zero
  | ne => !f.zero
  | cs => f.carry
  | cc => !f.carry
  | mi => f.negative
  | pl => !f.negative
  | vs => f.overflow
  | vc => !f.overflow
  | hi => f.carry && !f.zero
  | ls => !f.carry || f.zero
  | ge => f.negative == f.overflow
  | lt => f.negative != f.overflow
  | gt => !f.zero && f.negative == f.overflow
  | le => f.zero || f.negative != f.overflow
  | al => true

def suffix : Condition → String
  | eq => "eq"
  | ne => "ne"
  | cs => "cs"
  | cc => "cc"
  | mi => "mi"
  | pl => "pl"
  | vs => "vs"
  | vc => "vc"
  | hi => "hi"
  | ls => "ls"
  | ge => "ge"
  | lt => "lt"
  | gt => "gt"
  | le => "le"
  | al => ""

def name (c : Condition) : String := if c = al then "al" else c.suffix

end Condition

end PagedMachine

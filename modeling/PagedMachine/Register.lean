import PagedMachine.Flags

/-!
# Registers

Sixteen general registers, of which two have a conventional name, the program
counter and the flags.
-/

namespace PagedMachine

abbrev Register := Fin 16

namespace Register

def stack : Register := 13

def link : Register := 14

def all : List Register := List.finRange 16

def ofField (w : Word) (low : Nat) : Register :=
  ⟨w.field low 4, Nat.mod_lt _ (by decide)⟩

def ofCode? (code : Nat) : Option Register := if h : code < 16 then some ⟨code, h⟩ else none

def name (r : Register) : String :=
  if r = stack then "sp" else if r = link then "lr" else "x" ++ Text.decimal r.val

end Register

structure Registers where
  general : Vector Word 16
  pc : Word
  flags : Flags
  deriving DecidableEq, Repr

namespace Registers

def zero : Registers := ⟨Vector.replicate 16 0, 0, Flags.clear⟩

instance : Inhabited Registers := ⟨zero⟩

def get (s : Registers) (r : Register) : Word := s.general[r.val]

def set (s : Registers) (r : Register) (value : Word) : Registers :=
  { s with general := s.general.set r.val value }

@[simp] theorem get_set_self (s : Registers) (r : Register) (v : Word) :
    (s.set r v).get r = v := by
  simp [get, set]

theorem get_set_of_ne (s : Registers) {r q : Register} (v : Word) (h : q ≠ r) :
    (s.set r v).get q = s.get q := by
  have : r.val ≠ q.val := fun e => h (Fin.ext e.symm)
  simp [get, set, this]

@[simp] theorem pc_set (s : Registers) (r : Register) (v : Word) : (s.set r v).pc = s.pc := rfl

@[simp] theorem flags_set (s : Registers) (r : Register) (v : Word) :
    (s.set r v).flags = s.flags := rfl

/-- Writes in order, so that of two writes to one register the later stays. -/
def setAll (s : Registers) (writes : List (Register × Word)) : Registers :=
  writes.foldl (fun s w => s.set w.1 w.2) s

end Registers

end PagedMachine

/-!
# Cycle costs
-/

namespace PagedMachine

inductive Cost where
  | control
  | softwareInterrupt
  | alu
  | multiply
  | divide
  | shift
  | load
  | store
  | swap
  | branchNotTaken
  | branchTaken
  | floatArith
  | floatDivide
  | floatCompare
  deriving DecidableEq, Repr

namespace Cost

def all : List Cost :=
  [control, softwareInterrupt, alu, multiply, divide, shift, load, store, swap,
    branchNotTaken, branchTaken, floatArith, floatDivide, floatCompare]

def name : Cost → String
  | control => "Control"
  | softwareInterrupt => "SoftwareInterrupt"
  | alu => "Alu"
  | multiply => "Multiply"
  | divide => "Divide"
  | shift => "Shift"
  | load => "Load"
  | store => "Store"
  | swap => "Swap"
  | branchNotTaken => "BranchNotTaken"
  | branchTaken => "BranchTaken"
  | floatArith => "FloatArith"
  | floatDivide => "FloatDivide"
  | floatCompare => "FloatCompare"

def cycles : Cost → Nat
  | control => 1
  | softwareInterrupt => 3
  | alu => 1
  | multiply => 3
  | divide => 12
  | shift => 1
  | load => 2
  | store => 2
  | swap => 4
  | branchNotTaken => 1
  | branchTaken => 3
  | floatArith => 4
  | floatDivide => 14
  | floatCompare => 2

end Cost

end PagedMachine

import PagedMachine.Fault
import PagedMachine.Paging.Table

/-!
# Page directories

A directory maps the virtual pages of one process. A mapping says where the page
is, who may use it how, and whether a store must copy it first.
-/

namespace PagedMachine

inductive Privilege where
  /-- Kernel pages are out of reach. -/
  | user
  | kernel
  deriving DecidableEq, Repr

def Privilege.name : Privilege → String
  | .user => "User"
  | .kernel => "Kernel"

structure Permissions where
  /-- Only the kernel may use the page. -/
  kernel : Bool
  write : Bool
  execute : Bool
  deriving DecidableEq, Repr

namespace Permissions

def readOnly : Permissions := ⟨false, false, false⟩

def readWrite : Permissions := ⟨false, true, false⟩

def readExecute : Permissions := ⟨false, false, true⟩

def all : Permissions := ⟨false, true, true⟩

def kernelOnly (p : Permissions) : Permissions := { p with kernel := true }

def pool (p : Permissions) : PoolKind := if p.kernel then .kernel else .user

def allow (p : Permissions) (access : Access) (privilege : Privilege) : Bool :=
  (match access with
    | .read => true
    | .write => p.write
    | .execute => p.execute) && !(p.kernel && privilege == .user)

end Permissions

inductive Location where
  | frame (number : Word)
  | slot (number : Word)
  deriving DecidableEq, Repr

structure Mapping where
  location : Location
  permissions : Permissions
  copyOnWrite : Bool
  deriving DecidableEq, Repr

abbrev Directory := Table Mapping

namespace Directory

/-- Every writable page is copied before the next store to it. -/
def protectWritable (d : Directory) : Directory :=
  d.map fun m => if m.permissions.write then { m with copyOnWrite := true } else m

def repoint (d : Directory) (source target : Location) : Directory :=
  d.map fun m => if m.location = source then { m with location := target } else m

def locations (d : Directory) : List Location := d.values.map (·.location)

end Directory

def maxPage : Word := 0xFFFFF

end PagedMachine

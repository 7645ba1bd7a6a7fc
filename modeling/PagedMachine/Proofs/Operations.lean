import PagedMachine.Bus
import PagedMachine.Proofs.Behaviour

/-!
# Operations

What the host and the program can do to paged memory and to the bus, each an
action with an answer. Frames are no part of an answer: a program never sees
them.
-/

namespace PagedMachine

inductive Answer where
  | done
  | process (pid : Word)
  | value (value : Word)
  deriving DecidableEq, Repr

def created : Except Fault Answer → Nat
  | .ok (.process _) => 1
  | _ => 0

inductive PagingOperation where
  | beginProcess
  | endProcess (pid : Word)
  | switchProcess (pid : Word)
  | forkProcess
  | addPage (page : Word) (permissions : Permissions) (copyOnWrite : Bool)
  | removePage (page : Word)
  | removeAll
  | sharePage (pid source target : Word) (copyOnWrite : Bool)
  | pageOut (page : Word)
  | translate (address : Word) (access : Access) (privilege : Privilege)
  | translatePage (page : Word) (access : Access) (privilege : Privilege)
  | translateHostWrite (address : Word)
  deriving DecidableEq, Repr

inductive Operation where
  | paging (op : PagingOperation)
  | read (address : Word) (width : Width)
  | fetch (address : Word)
  | write (address : Word) (width : Width) (value : Word)
  | swap (address : Word) (width : Width) (value : Word)
  | loadImage (base : Word) (image : List UInt8)
  | setPrivilege (privilege : Privilege)
  deriving DecidableEq, Repr

open PagedMemory in
def PagingOperation.perform : PagingOperation → Paged Answer
  | beginProcess => .process <$> PagedMemory.beginProcess
  | endProcess pid => (fun _ => .done) <$> PagedMemory.endProcess pid
  | switchProcess pid => (fun _ => .done) <$> PagedMemory.switchProcess pid
  | forkProcess => .process <$> PagedMemory.forkProcess
  | addPage page permissions cow => (fun _ => .done) <$> PagedMemory.addPage page permissions cow
  | removePage page => (fun _ => .done) <$> PagedMemory.removePage page
  | removeAll => (fun _ => .done) <$> PagedMemory.removeAll
  | sharePage pid source target cow =>
    (fun _ => .done) <$> PagedMemory.sharePage pid source target cow
  | pageOut page => (fun _ => .done) <$> PagedMemory.pageOut page
  | translate address access privilege =>
    (fun _ => .done) <$> PagedMemory.translate address access privilege
  | translatePage page access privilege =>
    (fun _ => .done) <$> PagedMemory.translatePage page access privilege
  | translateHostWrite address => (fun _ => .done) <$> PagedMemory.translateHostWrite address

def Operation.perform : Operation → OnBus Answer
  | paging op => Bus.onMemory op.perform
  | read address width => .value <$> Bus.read address width
  | fetch address => .value <$> Bus.fetch address
  | write address width value => (fun _ => .done) <$> Bus.write address width value
  | swap address width value => .value <$> Bus.swap address width value
  | loadImage base image => (fun _ => .done) <$> Bus.loadImage base image
  | setPrivilege privilege => (fun _ => .done) <$> Bus.setPrivilege privilege

end PagedMachine

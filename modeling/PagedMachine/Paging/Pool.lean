import PagedMachine.Fault
import PagedMachine.Paging.Table

/-!
# Page pools

The free pages of a range. The lowest free page is handed out first, and only a
page that is out can be given back.
-/

namespace PagedMachine

structure Pool where
  kind : PoolKind
  low : Word
  high : Word
  free : Table Unit
  deriving DecidableEq

namespace Pool

/-- All pages from `low` to `high` are free; there are none when `low` is above `high`. -/
def ofRange (kind : PoolKind) (low high : Word) : Pool where
  kind := kind
  low := low
  high := high
  free := (List.range' low.toNat (high.toNat + 1 - low.toNat)).foldr
    (fun page free => free.insert (UInt32.ofNat page) ()) .empty

def owns (p : Pool) (page : Word) : Bool := p.low ≤ page && page ≤ p.high

def isFree (p : Pool) (page : Word) : Bool := p.free.contains page

def freeCount (p : Pool) : Nat := p.free.size

def allocate : EStateM Fault Pool Word := do
  let p ← get
  match p.free.keys with
  | [] => throw (.resourceExhausted p.kind)
  | page :: _ =>
    set { p with free := p.free.erase page }
    return page

def release (page : Word) : EStateM Fault Pool Unit := do
  let p ← get
  if p.owns page ∧ ¬ p.isFree page then set { p with free := p.free.insert page () }
  else throw (.consistencyFault p.kind page)

end Pool

end PagedMachine

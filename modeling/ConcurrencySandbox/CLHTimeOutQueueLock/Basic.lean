import ConcurrencySandbox.Interleaving.System

/-!
# CLHTimeOutQueueLock

`Lock/QueueLock/CLHTimeOutQueueLock`: a waiting thread watches `mPred` of the node before its own,
which is null while that node's thread waits or has the lock, `&sAvaiable` once it has released it,
and the node before when it has given up. The allocator may return the address of a deleted node.

`sMyNode` is the `node` of the program counter: every `tryLock` sets it, and nothing reads it after
the end of the call or of the `unlock` that follows. `births` counts the nodes that have been made
at an address and `deleted` lists the nodes that have been deleted.
-/

namespace ConcurrencySandbox

open Interleaving

namespace CLHTimeOutQueueLock

/-- A value of `mPred`. -/
inductive Pred (A : Type*)
  | null
  | avaiable
  | node (a : A)
  deriving DecidableEq

structure Shared (A : Type*) where
  mTail : Option A
  mPred : A → Pred A
  allocated : A → Bool
  births : A → ℕ
  deleted : List (A × ℕ)

/-- Where a thread is; `idle` when it does not have the lock and makes no call. -/
inductive PC (A : Type*)
  | idle
  -- tryLock
  | store (node : A)
  | exchange (node : A)
  | test (node pred : A)
  | load (node pred : A)
  | take (node pred : A)
  | skip (node pred predPred : A)
  | clock (node pred : A)
  | withdraw (node pred : A)
  | abandon (node pred : A)
  | deleteWithdrawn (node : A)
  -- unlock
  | held (node : A)
  | release (node : A)
  | deleteHeld (node : A)
  deriving DecidableEq

/-- `alloc` begins a `tryLock`; `expire` is a clock past the deadline. -/
inductive Act (A : Type*)
  | alloc (a : A)
  | run
  | expire

variable {τ A : Type*} [DecidableEq A]

namespace Shared

variable (s : Shared A)

def make (a : A) : Shared A :=
  { s with mPred := Function.update s.mPred a .null
           allocated := Function.update s.allocated a true
           births := Function.update s.births a (s.births a + 1) }

def delete (a : A) : Shared A :=
  { s with allocated := Function.update s.allocated a false
           deleted := s.deleted ++ [(a, s.births a)] }

def storePred (a : A) (p : Pred A) : Shared A := { s with mPred := Function.update s.mPred a p }

end Shared

def initial : Shared A := ⟨none, fun _ => .null, fun _ => false, fun _ => 0, []⟩

/-- One atomic step. -/
def next (act : Act A) (s : Shared A) : PC A → Option (Shared A × PC A)
  | .idle =>
    match act with
    | .alloc a => if s.allocated a then none else some (s.make a, .store a)
    | _ => none
  | .store node => some (s.storePred node .null, .exchange node)
  | .exchange node => some ({ s with mTail := some node },
      match s.mTail with
      | none => .held node
      | some pred => .test node pred)
  | .test node pred => some (s,
      if s.mPred pred = .avaiable then .take node pred else .load node pred)
  | .load node pred => some (s,
      match s.mPred pred with
      | .avaiable => .take node pred
      | .node predPred => .skip node pred predPred
      | .null => .clock node pred)
  | .take node pred => some (s.delete pred, .held node)
  | .skip node pred predPred => some (s.delete pred, .clock node predPred)
  | .clock node pred =>
    match act with
    | .expire => some (s, .withdraw node pred)
    | _ => some (s, .load node pred)
  | .withdraw node pred =>
    if s.mTail = some node then some ({ s with mTail := some pred }, .deleteWithdrawn node)
    else some (s, .abandon node pred)
  | .abandon node pred => some (s.storePred node (.node pred), .idle)
  | .deleteWithdrawn node => some (s.delete node, .idle)
  | .held node =>
    if s.mTail = some node then some ({ s with mTail := none }, .deleteHeld node)
    else some (s, .release node)
  | .release node => some (s.storePred node .avaiable, .idle)
  | .deleteHeld node => some (s.delete node, .idle)

def program : Program τ (Shared A) (PC A) (Act A) := ⟨fun _ act s pc => next act s pc⟩

variable [DecidableEq τ]

def system : System (Conf τ (Shared A) (PC A)) (τ × Act A) :=
  program.system (fun s => s = initial) .idle

end CLHTimeOutQueueLock

end ConcurrencySandbox

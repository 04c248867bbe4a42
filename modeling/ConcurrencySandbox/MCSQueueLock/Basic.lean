import Mathlib.Data.List.Nodup
import ConcurrencySandbox.Interleaving.Instances

/-!
# MCSQueueLock

`Lock/QueueLock/MCSQueueLock`: a waiting thread spins on its own node, and the thread before it in
the queue releases it. Every thread has one node for all instances, so nodes are named by their
threads.
-/

namespace ConcurrencySandbox

open Interleaving

namespace MCSQueueLock

variable {τ I : Type*}

/-- `mNext` and `mLocked` of `sMyNode` of every thread. -/
structure Shared (τ I : Type*) where
  mTail : I → Option τ
  mNext : τ → Option τ
  mLocked : τ → Bool

inductive PC (τ : Type*)
  | storeLocked
  | storeNext
  | exchange
  | link (pred : τ)
  | spin
  | loadNext
  | compareExchange
  | waitNext
  | reload
  | check (next : Option τ)
  | release (next : τ)
  | clear
  deriving DecidableEq

variable [DecidableEq τ] [DecidableEq I]

/-- One atomic step of `lock` or `unlock`; neither goes on from a failed `assert(next->mLocked)`. -/
def step (t : τ) (i : I) (s : Shared τ I) : PC τ → Option (Shared τ I × Outcome (PC τ))
  | .storeLocked => some ({ s with mLocked := Function.update s.mLocked t true }, .next .storeNext)
  | .storeNext => some ({ s with mNext := Function.update s.mNext t none }, .next .exchange)
  | .exchange => some ({ s with mTail := Function.update s.mTail i (some t) },
      match s.mTail i with
      | none => .locked
      | some pred => .next (.link pred))
  | .link pred => some ({ s with mNext := Function.update s.mNext pred (some t) }, .next .spin)
  | .spin => some (s, if s.mLocked t then .next .spin else .locked)
  | .loadNext => some (s, .next (if s.mNext t = none then .compareExchange else .reload))
  | .compareExchange =>
    if s.mTail i = some t then
      some ({ s with mTail := Function.update s.mTail i none }, .unlocked)
    else some (s, .next .waitNext)
  | .waitNext => some (s, .next (if s.mNext t = none then .waitNext else .reload))
  | .reload => some (s, .next (.check (s.mNext t)))
  | .check none => none
  | .check (some next) => if s.mLocked next then some (s, .next (.release next)) else none
  | .release next =>
    some ({ s with mLocked := Function.update s.mLocked next false }, .next .clear)
  | .clear => some ({ s with mNext := Function.update s.mNext t none }, .unlocked)

variable (τ I)

def lockClass : LockClass τ I (Shared τ I) (PC τ) := ⟨.storeLocked, .loadNext, step⟩

def initial : Shared τ I := ⟨fun _ => none, fun _ => none, fun _ => false⟩

def system : System (Conf τ (Shared τ I) (Place I (PC τ))) (τ × Call I) :=
  (lockClass τ I).program.system (fun s => s = initial τ I) (.out [])

variable {τ I}

/-- A thread waits from its exchange of `mTail` on, and holds the lock until it gives it on. -/
def PC.phase : PC τ → Phase
  | .storeLocked | .storeNext | .exchange | .clear => .idle
  | .link _ | .spin => .waiting
  | _ => .held

end MCSQueueLock

end ConcurrencySandbox

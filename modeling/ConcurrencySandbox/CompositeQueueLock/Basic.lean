import Mathlib.Algebra.Group.Nat.Defs
import Mathlib.Data.Fin.Basic
import ConcurrencySandbox.Interleaving.System

/-!
# CompositeQueueLock

A queue lock with timeouts whose nodes come from a small array. A thread takes a free node, or the
last node of the queue when that is released or aborted (`getNode`), puts it at the end of the
queue (`spliceNode`) and waits for the node before it (`waitForPredecessor`).

The deadline may pass at any test of the clock, and `getNode` may draw any node of the array.
-/

namespace ConcurrencySandbox

open Interleaving

namespace CompositeQueueLock

abbrev sArraySize : ℕ := 16

/-- A node, by its index in `mArray`. -/
abbrev Node := Fin sArraySize

inductive State
  | Free
  | Waiting
  | Released
  | Aborted
  deriving DecidableEq

structure Shared where
  mState : Node → State
  mPred : Node → Option Node
  mTail : Option Node × ℕ

inductive PC
  | idle
  -- getNode
  | getState (node : Node)
  | getTail (node : Node) (state : State)
  | getPred (node : Node) (stamp : ℕ)
  | getCas (node : Node) (state : State) (pred : Option Node) (stamp : ℕ)
  | getStore (node : Node)
  | getAgain (node : Node)
  -- spliceNode
  | spliceLoad (node : Node)
  | spliceCas (node : Node) (tail : Option Node) (stamp : ℕ)
  | spliceAgain (node : Node) (tail : Option Node) (stamp : ℕ)
  | spliceFree (node : Node)
  -- waitForPredecessor
  | waitLoad (node : Node) (pred : Option Node)
  | waitFree (node pred : Node)
  | waitPred (node pred : Node)
  | waitDrop (node pred : Node) (predPred : Option Node)
  | waitAgain (node : Node) (pred : Option Node)
  | abortPred (node : Node) (pred : Option Node)
  | abortState (node : Node)
  -- what tryLock returned
  | failed
  | locked (node : Node)
  -- unlock
  | unlockPred (node : Node)
  | unlockState (node : Node)

/-- `call node` begins a `tryLock` that draws `node`, or the `unlock` of a locked thread; `timeout`
ends a loop whose deadline has passed. -/
inductive Act
  | call (node : Node)
  | unlock
  | run
  | timeout

namespace Shared

variable (s : Shared)

def setState (node : Node) (state : State) : Shared :=
  { s with mState := Function.update s.mState node state }

def setPred (node : Node) (pred : Option Node) : Shared :=
  { s with mPred := Function.update s.mPred node pred }

/-- A successful compare-and-swap of `mTail`, with the next stamp. -/
def setTail (tail : Option Node) (stamp : ℕ) : Shared :=
  { s with mTail := (tail, (stamp + 1) % 2 ^ 16) }

end Shared

def initial : Shared where
  mState := fun _ => .Free
  mPred := fun _ => none
  mTail := (none, 0)

/-- One atomic step of a thread. -/
def next (act : Act) (s : Shared) (pc : PC) : Option (Shared × PC) :=
  match pc, act with
  | .idle, .call node => some (s, .getState node)
  | .getState node, .run =>
    if s.mState node = .Free then some (s.setState node .Waiting, .spliceLoad node)
    else some (s, .getTail node (s.mState node))
  | .getTail node state, .run =>
    if s.mTail.1 = some node ∧ state = .Released then
      some (s, .getCas node state none s.mTail.2)
    else if s.mTail.1 = some node ∧ state = .Aborted then some (s, .getPred node s.mTail.2)
    else some (s, .getAgain node)
  | .getPred node stamp, .run => some (s, .getCas node .Aborted (s.mPred node) stamp)
  | .getCas node _ pred stamp, .run =>
    if s.mTail = (some node, stamp) then some (s.setTail pred stamp, .getStore node)
    else some (s, .getAgain node)
  | .getStore node, .run => some (s.setState node .Waiting, .spliceLoad node)
  | .getAgain node, .run => some (s, .getState node)
  | .getAgain _, .timeout => some (s, .failed)
  | .spliceLoad node, .run => some (s, .spliceCas node s.mTail.1 s.mTail.2)
  | .spliceCas node tail stamp, .run =>
    if s.mTail = (tail, stamp) then
      -- without a predecessor waitForPredecessor returns at once
      if tail = none then some (s.setTail (some node) stamp, .locked node)
      else some (s.setTail (some node) stamp, .waitLoad node tail)
    else some (s, .spliceAgain node s.mTail.1 s.mTail.2)
  | .spliceAgain node tail stamp, .run => some (s, .spliceCas node tail stamp)
  | .spliceAgain node _ _, .timeout => some (s, .spliceFree node)
  | .spliceFree node, .run => some (s.setState node .Free, .failed)
  | .waitLoad node (some pred), .run =>
    if s.mState pred = .Released then some (s, .waitFree node pred)
    else if s.mState pred = .Aborted then some (s, .waitPred node pred)
    else some (s, .waitAgain node (some pred))
  | .waitFree node pred, .run => some (s.setState pred .Free, .locked node)
  | .waitPred node pred, .run => some (s, .waitDrop node pred (s.mPred pred))
  | .waitDrop node pred predPred, .run => some (s.setState pred .Free, .waitAgain node predPred)
  | .waitAgain node pred, .run => some (s, .waitLoad node pred)
  | .waitAgain node pred, .timeout => some (s, .abortPred node pred)
  | .abortPred node pred, .run => some (s.setPred node pred, .abortState node)
  | .abortState node, .run => some (s.setState node .Aborted, .failed)
  | .failed, .run => some (s, .idle)
  | .locked node, .unlock => some (s, .unlockPred node)
  | .unlockPred node, .run => some (s.setPred node none, .unlockState node)
  | .unlockState node, .run => some (s.setState node .Released, .idle)
  | _, _ => none

variable {τ : Type*} [DecidableEq τ]

def program : Program τ Shared PC Act := ⟨fun _ => next⟩

/-- Any threads calling `tryLock` and, when it succeeded, `unlock`. -/
def system : System (Conf τ Shared PC) (τ × Act) :=
  program.system (fun s => s = initial) .idle

/-- The thread is between a `tryLock` that returned true and the end of its `unlock`. -/
def critical : PC → Prop
  | .locked _ | .unlockPred _ | .unlockState _ => True
  | _ => False

/-- The node of a running `tryLock` or of the lock holder. -/
def holds : PC → Option Node
  | .getStore a | .spliceLoad a | .spliceCas a _ _ | .spliceAgain a _ _ | .spliceFree a
  | .waitLoad a _ | .waitFree a _ | .waitPred a _ | .waitDrop a _ _ | .waitAgain a _
  | .abortPred a _ | .abortState a | .locked a | .unlockPred a | .unlockState a => some a
  | _ => none

/-- `getNode` takes the tail only while the node's state, and for an aborted node its predecessor,
are still what it read. -/
def ReclaimsCurrent (c : Conf τ Shared PC) (l : τ × Act) : Prop :=
  ∀ node state pred stamp, c.pc l.1 = .getCas node state pred stamp →
    c.shared.mTail = (some node, stamp) →
      c.shared.mState node = state ∧ (state = .Aborted → c.shared.mPred node = pred)

end CompositeQueueLock

end ConcurrencySandbox

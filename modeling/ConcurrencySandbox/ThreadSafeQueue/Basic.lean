import Mathlib.Data.Finset.Insert
import Mathlib.Data.Finset.Erase
import ConcurrencySandbox.Interleaving.System

/-!
# ThreadSafeQueue

The queue of `LockBasedDataStructure/Queue`: a linked list whose last node is an empty dummy,
`mHeadLock` for the consumers, `mTailLock` for the producers, and `mCond` to wait for data.

A lock is held by at most one thread, and a thread that wants it waits for it to be free. `getTail`
locks `mTailLock`, reads `mTail` and unlocks: one step that needs `mTailLock` free. The waiting
`mCond.wait(lk, pred)` evaluates `pred`, and if it is false it releases `mHeadLock` and joins the
sleepers in one step; `notify_one` wakes one sleeper if there is one. `empty` and the `tryPop` into
a `T&` do not compile where they are used (a call of the non-const `getTail`, a pointer returned for
a `bool`); they are here for what their bodies do.
-/

namespace ConcurrencySandbox

open Interleaving

namespace ThreadSafeQueue

structure Node (A V : Type*) where
  mData : Option V
  mNext : Option A

/-- What the threads share. `sleepers` are the threads that wait on `mCond`; `allocated` are the
addresses in use. -/
structure Shared (τ A V : Type*) where
  mHeadLock : Option τ
  mHead : Option A
  mTailLock : Option τ
  mTail : A
  sleepers : Finset τ
  heap : A → Node A V
  allocated : A → Bool

inductive Op (V : Type*)
  | push (val : V)
  /-- `byRef`: the overload that moves the value into a `T&` before it unlinks the head. -/
  | tryPop (byRef : Bool)
  | waitAndPop (byRef : Bool)
  | empty

/-- Where a thread is. `wait` in the popping part tells `waitPopHead` from `tryPopHead`. -/
inductive PC (A V : Type*)
  | idle
  -- pushImpl
  | pushNode (val : V)
  | pushLock (val : V) (newNode : A)
  | pushData (val : V) (newNode : A)
  | pushNext (newNode : A)
  | pushTail
  | pushUnlock
  | notify
  -- waitForData
  | waitLock (byRef : Bool)
  | waitPred (byRef : Bool)
  | waitTest (byRef : Bool) (tail : A)
  | asleep (byRef : Bool)
  -- tryPopHead
  | tryLock (byRef : Bool)
  | tryTail (byRef : Bool)
  | tryTest (byRef : Bool) (tail : A)
  | tryUnlock
  -- the rest of waitPopHead and tryPopHead, and the caller's read of the node
  | moveData (wait : Bool)
  | popHead (wait : Bool) (val : Option (Option V))
  | popUnlock (oldHead : A) (val : Option (Option V))
  | popRead (oldHead : A) (val : Option (Option V))
  -- empty
  | emptyLock
  | emptyTail
  | emptyTest (tail : A)
  | emptyUnlock (res : Bool)
  -- what the call returns
  | popped (val : Option V)
  | pushed
  | isEmpty (res : Bool)

/-- `call` begins an operation; `alloc` is the address `make_unique` returns; `wake` is the sleeper
`notify_one` picks. -/
inductive Act (τ A V : Type*)
  | call (op : Op V)
  | run
  | alloc (a : A)
  | wake (u : τ)

variable {τ A V : Type*} [DecidableEq τ] [DecidableEq A]

namespace Shared

variable (s : Shared τ A V)

def setNext (a : A) (n : Option A) : Shared τ A V :=
  { s with heap := Function.update s.heap a { s.heap a with mNext := n } }

def setData (a : A) (d : Option V) : Shared τ A V :=
  { s with heap := Function.update s.heap a { s.heap a with mData := d } }

/-- `make_unique<Node>()` at address `a`. -/
def make (a : A) : Shared τ A V :=
  { s with heap := Function.update s.heap a ⟨none, none⟩
           allocated := Function.update s.allocated a true }

def free (a : A) : Shared τ A V :=
  { s with allocated := Function.update s.allocated a false }

def lockHead (t : τ) : Shared τ A V := { s with mHeadLock := some t }

def unlockHead : Shared τ A V := { s with mHeadLock := none }

end Shared

def initial (a : A) : Shared τ A V where
  mHeadLock := none
  mHead := some a
  mTailLock := none
  mTail := a
  sleepers := ∅
  heap := fun _ => ⟨none, none⟩
  allocated := Function.update (fun _ => false) a true

/-- One atomic step of thread `t`. -/
def next (t : τ) (act : Act τ A V) (s : Shared τ A V) (pc : PC A V) :
    Option (Shared τ A V × PC A V) :=
  match pc, act with
  | .idle, .call (.push val) => some (s, .pushNode val)
  | .idle, .call (.tryPop byRef) => some (s, .tryLock byRef)
  | .idle, .call (.waitAndPop byRef) => some (s, .waitLock byRef)
  | .idle, .call .empty => some (s, .emptyLock)
  | .pushNode val, .alloc a =>
    if s.allocated a then none else some (s.make a, .pushLock val a)
  | .pushLock val newNode, .run =>
    if s.mTailLock = none then some ({ s with mTailLock := some t }, .pushData val newNode)
    else none
  | .pushData val newNode, .run => some (s.setData s.mTail (some val), .pushNext newNode)
  | .pushNext newNode, .run => some (s.setNext s.mTail (some newNode), .pushTail)
  | .pushTail, .run =>
    match (s.heap s.mTail).mNext with
    | some n => some ({ s with mTail := n }, .pushUnlock)
    | none => none
  | .pushUnlock, .run => some ({ s with mTailLock := none }, .notify)
  | .notify, .run => if s.sleepers = ∅ then some (s, .pushed) else none
  | .notify, .wake u =>
    if u ∈ s.sleepers then some ({ s with sleepers := s.sleepers.erase u }, .pushed) else none
  | .waitLock byRef, .run =>
    if s.mHeadLock = none then some (s.lockHead t, .waitPred byRef) else none
  | .waitPred byRef, .run =>
    if s.mTailLock = none then some (s, .waitTest byRef s.mTail) else none
  | .waitTest byRef tail, .run =>
    if s.mHead = some tail then
      -- the predicate is false: release `mHeadLock` and sleep
      some ({ s.unlockHead with sleepers := insert t s.sleepers }, .asleep byRef)
    else if byRef then some (s, .moveData true) else some (s, .popHead true none)
  | .asleep byRef, .run =>
    -- woken: lock again, then evaluate the predicate again
    if t ∉ s.sleepers ∧ s.mHeadLock = none then some (s.lockHead t, .waitPred byRef) else none
  | .tryLock byRef, .run =>
    if s.mHeadLock = none then some (s.lockHead t, .tryTail byRef) else none
  | .tryTail byRef, .run =>
    if s.mTailLock = none then some (s, .tryTest byRef s.mTail) else none
  | .tryTest byRef tail, .run =>
    if s.mHead = some tail then some (s, .tryUnlock)
    else if byRef then some (s, .moveData false) else some (s, .popHead false none)
  | .tryUnlock, .run => some (s.unlockHead, .popped none)
  | .moveData wait, .run =>
    match s.mHead with
    | some h => some (s, .popHead wait (some (s.heap h).mData))
    | none => none
  | .popHead _ val, .run =>
    match s.mHead with
    | some h => some (({ s with mHead := (s.heap h).mNext }).setNext h none, .popUnlock h val)
    | none => none
  | .popUnlock oldHead val, .run => some (s.unlockHead, .popRead oldHead val)
  | .popRead oldHead val, .run =>
    some (s.free oldHead, .popped (val.getD (s.heap oldHead).mData))
  | .emptyLock, .run =>
    if s.mHeadLock = none then some (s.lockHead t, .emptyTail) else none
  | .emptyTail, .run =>
    if s.mTailLock = none then some (s, .emptyTest s.mTail) else none
  | .emptyTest tail, .run => some (s, .emptyUnlock (s.mHead = some tail))
  | .emptyUnlock res, .run => some (s.unlockHead, .isEmpty res)
  | .popped _, .run => some (s, .idle)
  | .pushed, .run => some (s, .idle)
  | .isEmpty _, .run => some (s, .idle)
  | _, _ => none

attribute [elab_as_elim] next.fun_cases_unfolding

def program : Program τ (Shared τ A V) (PC A V) (Act τ A V) := ⟨next⟩

/-- Any threads calling any operations, on a queue that starts empty. -/
def system : System (Conf τ (Shared τ A V) (PC A V)) (τ × Act τ A V) :=
  program.system (fun s => ∃ a, s = initial a) .idle

end ThreadSafeQueue

end ConcurrencySandbox

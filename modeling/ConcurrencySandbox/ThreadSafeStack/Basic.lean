import Mathlib.Data.Finset.Insert
import Mathlib.Data.Finset.Erase
import ConcurrencySandbox.Interleaving.System
import ConcurrencySandbox.Structures.Histories

/-!
# ThreadSafeStack

The stack of `LockBasedDataStructure/Stack`: owning pointers under one mutex, with `mCond` to wait
for data. A null pointer is `none`. `pop` moves the top out, which leaves a null pointer there, and
then pops it; it waits with its predicate `!mStack.empty()`, and `push` notifies one waiter before
it unlocks. `try_pop` and `empty` do not wait.

`history` has the values pushed and moved out, in order, and `returned` those of the calls that have
returned.
-/

namespace ConcurrencySandbox

open Interleaving Structures

namespace ThreadSafeStack

/-- `sleepers` are the threads in `mCond.wait` that nobody has notified. -/
structure Shared (τ T : Type*) where
  mLock : Option τ
  sleepers : Finset τ
  mStack : List (Option T)
  history : List (τ × Event T)
  returned : List (τ × Event T)

/-- `wait` tells `pop` from `try_pop`. -/
inductive PC (T : Type*)
  | idle
  -- pushImpl
  | pushLock (val : T)
  | pushPush (val : T)
  | pushNotify (val : T)
  | pushUnlock (val : T)
  -- pop and try_pop
  | lock (wait : Bool)
  | test (wait : Bool)
  | asleep
  | top (wait : Bool)
  | popTop (wait : Bool) (ans : Option T)
  | unlock (wait : Bool) (ans : Option T)
  -- empty
  | emptyLock
  | emptyTest
  | emptyUnlock (res : Bool)
  -- what the call returns
  | pushed (val : T)
  | popped (wait : Bool) (ans : Option T)
  | isEmpty (res : Bool)

/-- `notify u` is a `notify_one` that wakes `u`. -/
inductive Act (τ T : Type*)
  | push (val : T)
  | pop
  | tryPop
  | empty
  | run
  | notify (u : τ)
  /-- A spurious wakeup. -/
  | wake

variable {τ T : Type*} [DecidableEq τ]

namespace Shared

variable (s : Shared τ T)

def lock (t : τ) : Shared τ T := { s with mLock := some t }

def unlock : Shared τ T := { s with mLock := none }

/-- The top is moved out. -/
def move (t : τ) (val : T) (rest : List (Option T)) : Shared τ T :=
  { s with mStack := none :: rest, history := s.history ++ [(t, .pop val)] }

def answer (t : τ) (e : Event T) : Shared τ T := { s with returned := s.returned ++ [(t, e)] }

end Shared

def initial : Shared τ T := ⟨none, ∅, [], [], []⟩

/-- One atomic step of thread `t`. -/
def next (t : τ) (act : Act τ T) (s : Shared τ T) (pc : PC T) : Option (Shared τ T × PC T) :=
  match pc, act with
  | .idle, .push val => some (s, .pushLock val)
  | .idle, .pop => some (s, .lock true)
  | .idle, .tryPop => some (s, .lock false)
  | .idle, .empty => some (s, .emptyLock)
  | .pushLock val, .run => if s.mLock = none then some (s.lock t, .pushPush val) else none
  | .pushPush val, .run =>
    some ({ s with mStack := some val :: s.mStack, history := s.history ++ [(t, .push val)] },
      .pushNotify val)
  | .pushNotify val, .run => if s.sleepers = ∅ then some (s, .pushUnlock val) else none
  | .pushNotify val, .notify u =>
    if u ∈ s.sleepers then some ({ s with sleepers := s.sleepers.erase u }, .pushUnlock val)
    else none
  | .pushUnlock val, .run => some (s.unlock, .pushed val)
  | .lock wait, .run => if s.mLock = none then some (s.lock t, .test wait) else none
  | .test wait, .run =>
    if s.mStack.isEmpty then
      if wait then some ({ s.unlock with sleepers := insert t s.sleepers }, .asleep)
      else some (s, .unlock wait none)
    else some (s, .top wait)
  | .asleep, .run =>
    if t ∉ s.sleepers ∧ s.mLock = none then some (s.lock t, .test true) else none
  | .asleep, .wake => some ({ s with sleepers := s.sleepers.erase t }, .asleep)
  | .top wait, .run =>
    match s.mStack with
    | some val :: rest => some (s.move t val rest, .popTop wait (some val))
    | none :: _ => some (s, .popTop wait none)
    | [] => none
  | .popTop wait ans, .run => some ({ s with mStack := s.mStack.tail }, .unlock wait ans)
  | .unlock wait ans, .run => some (s.unlock, .popped wait ans)
  | .emptyLock, .run => if s.mLock = none then some (s.lock t, .emptyTest) else none
  | .emptyTest, .run => some (s, .emptyUnlock s.mStack.isEmpty)
  | .emptyUnlock res, .run => some (s.unlock, .isEmpty res)
  | .pushed val, .run => some (s.answer t (.push val), .idle)
  | .popped _ (some val), .run => some (s.answer t (.pop val), .idle)
  | .popped _ none, .run => some (s, .idle)
  | .isEmpty _, .run => some (s, .idle)
  | _, _ => none

attribute [elab_as_elim] next.fun_cases_unfolding

def program : Program τ (Shared τ T) (PC T) (Act τ T) := ⟨next⟩

/-- Any threads calling any operations, on a stack that is empty at first. -/
def system : System (Conf τ (Shared τ T) (PC T)) (τ × Act τ T) :=
  program.system (fun s => s = initial) .idle

end ThreadSafeStack

end ConcurrencySandbox

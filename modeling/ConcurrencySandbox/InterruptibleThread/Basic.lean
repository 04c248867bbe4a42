import ConcurrencySandbox.Interleaving.Mutex

/-!
# InterruptibleThread

`Misc/InterruptibleThread`: the `InterruptFlag` of one thread (`owner`), which waits on condition
variables one call after the other, while any threads call `interrupt()` on it. What the user's
mutex does is left out: `wait_for` returns when it returns, after a millisecond or because of a
notification. Nothing in the source calls `clearConditionVariable`, or resets `mFlag`.
-/

namespace ConcurrencySandbox

open Interleaving

namespace InterruptibleThread

structure InterruptFlag (τ V : Type*) where
  mFlag : Bool
  mCond : Option V
  mSetClearCondLock : Option τ

/-- The flag `pred` tells the two overloads of `interruptibleWait` apart. -/
inductive PC (V : Type*)
  | ready
  -- interruptibleWait
  | firstPoint (cond : V) (pred : Bool)
  | setConditionVariable (cond : V) (pred : Bool)
  | storeCond (cond : V) (pred : Bool)
  | unlockCond (cond : V) (pred : Bool)
  | secondPoint (cond : V) (pred : Bool)
  | loopTest (cond : V) (pred : Bool)
  | predicate (cond : V)
  | waitFor (cond : V) (pred : Bool)
  | lastPoint (cond : V)
  -- InterruptFlag::set
  | setFlag
  | setLock
  | setNotify
  | setUnlock

inductive Act (V : Type*)
  | run
  /-- The predicate's answer, or none if it throws. -/
  | answer (b : Option Bool)
  | interruptibleWait (cond : V) (pred : Bool)
  | interrupt

variable {τ V : Type*}

/-- `interruptionPoint()`, and where the call goes on if it does not throw. -/
def interruptionPoint (s : InterruptFlag τ V) (p : PC V) : PC V := if s.mFlag then .ready else p

section Model

variable [DecidableEq τ]

def acquire (t : τ) (s : InterruptFlag τ V) : Option (InterruptFlag τ V) :=
  if s.mSetClearCondLock = none then some { s with mSetClearCondLock := some t } else none

/-- The steps inside a call. -/
def nextRun (t : τ) (s : InterruptFlag τ V) : PC V → Option (InterruptFlag τ V × PC V)
  | .firstPoint cond pred => some (s, interruptionPoint s (.setConditionVariable cond pred))
  | .setConditionVariable cond pred => (acquire t s).map fun s => (s, .storeCond cond pred)
  | .storeCond cond pred => some ({ s with mCond := some cond }, .unlockCond cond pred)
  | .unlockCond cond pred => some ({ s with mSetClearCondLock := none }, .secondPoint cond pred)
  | .secondPoint cond pred => some (s, interruptionPoint s (.loopTest cond pred))
  | .loopTest cond pred =>
    if s.mFlag then some (s, .lastPoint cond)
    else some (s, if pred then .predicate cond else .waitFor cond pred)
  | .waitFor cond pred => some (s, .loopTest cond pred)
  | .lastPoint _ => some (s, interruptionPoint s .ready)
  | .setFlag => some ({ s with mFlag := true }, .setLock)
  | .setLock => (acquire t s).map fun s => (s, .setNotify)
  | .setNotify => some (s, .setUnlock)
  | .setUnlock => some ({ s with mSetClearCondLock := none }, .ready)
  | .ready | .predicate _ => none

/-- One atomic step of thread `t`. -/
def next (owner t : τ) (act : Act V) (s : InterruptFlag τ V) (p : PC V) :
    Option (InterruptFlag τ V × PC V) :=
  match p, act with
  | .ready, .interruptibleWait cond pred =>
    if t = owner then some (s, .firstPoint cond pred) else none
  | .ready, .interrupt => some (s, .setFlag)
  | .predicate cond, .answer (some true) => some (s, .lastPoint cond)
  | .predicate cond, .answer (some false) => some (s, .waitFor cond true)
  | .predicate _, .answer none => some (s, .ready)
  | p, .run => nextRun t s p
  | _, _ => none

attribute [elab_as_elim] nextRun.fun_cases_unfolding next.fun_cases_unfolding

/-- Any threads interrupting the thread `owner`. -/
def system (owner : τ) : System (Conf τ (InterruptFlag τ V) (PC V)) (τ × Act V) :=
  Program.system ⟨next owner⟩ (fun s => s = ⟨false, none, none⟩) .ready

end Model

end InterruptibleThread

end ConcurrencySandbox

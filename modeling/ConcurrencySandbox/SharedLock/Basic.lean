import ConcurrencySandbox.Interleaving.Monitor
import ConcurrencySandbox.Interleaving.Count

/-!
# SharedLock

The reader-writer lock of `Lock/SharedLock`. A writer first claims `mWriter`, which keeps out other
writers and new readers, and then waits for the readers to drain; all wait on `mCond`. `claims` and
`shares` are what the threads have in `mWriter` and `mReader`, and `drained` is a writer that has
found no reader left.

`mReader` is an integer here, so that an underflow would show. The source's wraps at 2^64 shared
holds at a time, which the model leaves out.
-/

namespace ConcurrencySandbox

open Interleaving

namespace SharedLock

variable {τ : Type*}

structure Shared (τ : Type*) where
  monitor : Monitor τ
  mReader : ℤ
  mWriter : Bool

/-- What a thread holds: from the return of `lock` or `lock_shared` until `unlock` or
`unlock_shared` gives it back. -/
structure Holds where
  exclusive : ℕ
  shared : ℕ

inductive At
  | out
  -- lock
  | lockEnter
  | lockTest
  | lockWait
  | lockAsleep
  | lockClaim
  | drainTest
  | drainWait
  | drainAsleep
  | lockReturn
  -- unlock
  | unlockEnter
  | unlockAssert
  | unlockClear
  | unlockNotify
  | unlockReturn
  -- lock_shared
  | sharedEnter
  | sharedTest
  | sharedWait
  | sharedAsleep
  | sharedAdd
  | sharedReturn
  -- unlock_shared
  | unsharedEnter
  | unsharedSub
  | unsharedAssert
  | unsharedNotify
  | unsharedReturn
  /-- An assertion has failed. -/
  | aborted
  deriving DecidableEq

structure PC where
  holds : Holds
  step : At

inductive Act
  | run
  | lock
  | unlock
  | lockShared
  | unlockShared
  /-- A spurious wakeup. -/
  | wake

def initial : Shared τ := ⟨.free, 0, false⟩

section Model

variable [DecidableEq τ]

def Shared.enter (s : Shared τ) (t : τ) : Option (Shared τ) :=
  (s.monitor.acquire t).map fun m => { s with monitor := m }

def Shared.leave (s : Shared τ) : Shared τ := { s with monitor := s.monitor.release }

def Shared.sleep (s : Shared τ) (t : τ) : Shared τ := { s with monitor := s.monitor.wait t }

def Shared.resume (s : Shared τ) (t : τ) : Option (Shared τ) :=
  (s.monitor.resume t).map fun m => { s with monitor := m }

def Shared.wake (s : Shared τ) (t : τ) : Shared τ := { s with monitor := s.monitor.wake t }

def Shared.notify (s : Shared τ) : Shared τ := { s with monitor := s.monitor.notifyAll }

/-- One atomic step: `Test` is the outer loop, `Wait` the predicate of `mCond.wait`. -/
def next (t : τ) (act : Act) (s : Shared τ) (p : PC) : Option (Shared τ × PC) :=
  match p, act with
  | ⟨h, .out⟩, .lock => some (s, ⟨h, .lockEnter⟩)
  | ⟨h, .out⟩, .lockShared => some (s, ⟨h, .sharedEnter⟩)
  | ⟨h, .out⟩, .unlock => if h.exclusive = 0 then none else some (s, ⟨h, .unlockEnter⟩)
  | ⟨h, .out⟩, .unlockShared => if h.shared = 0 then none else some (s, ⟨h, .unsharedEnter⟩)
  | ⟨h, .lockEnter⟩, .run => (s.enter t).map (·, ⟨h, .lockTest⟩)
  | ⟨h, .lockTest⟩, .run =>
    if s.mWriter then some (s, ⟨h, .lockWait⟩) else some (s, ⟨h, .lockClaim⟩)
  | ⟨h, .lockWait⟩, .run =>
    if s.mWriter then some (s.sleep t, ⟨h, .lockAsleep⟩) else some (s, ⟨h, .lockTest⟩)
  | ⟨h, .lockAsleep⟩, .wake => some (s.wake t, ⟨h, .lockAsleep⟩)
  | ⟨h, .lockAsleep⟩, .run => (s.resume t).map (·, ⟨h, .lockWait⟩)
  | ⟨h, .lockClaim⟩, .run => some ({ s with mWriter := true }, ⟨h, .drainTest⟩)
  | ⟨h, .drainTest⟩, .run =>
    if s.mReader = 0 then some (s, ⟨h, .lockReturn⟩) else some (s, ⟨h, .drainWait⟩)
  | ⟨h, .drainWait⟩, .run =>
    if s.mReader = 0 then some (s, ⟨h, .drainTest⟩)
    else some (s.sleep t, ⟨h, .drainAsleep⟩)
  | ⟨h, .drainAsleep⟩, .wake => some (s.wake t, ⟨h, .drainAsleep⟩)
  | ⟨h, .drainAsleep⟩, .run => (s.resume t).map (·, ⟨h, .drainWait⟩)
  | ⟨h, .lockReturn⟩, .run =>
    some (s.leave, ⟨{ h with exclusive := h.exclusive + 1 }, .out⟩)
  | ⟨h, .unlockEnter⟩, .run => (s.enter t).map (·, ⟨h, .unlockAssert⟩)
  | ⟨h, .unlockAssert⟩, .run =>
    if s.mReader = 0 then some (s, ⟨h, .unlockClear⟩) else some (s, ⟨h, .aborted⟩)
  | ⟨h, .unlockClear⟩, .run => some ({ s with mWriter := false },
      ⟨{ h with exclusive := h.exclusive - 1 }, .unlockNotify⟩)
  | ⟨h, .unlockNotify⟩, .run => some (s.notify, ⟨h, .unlockReturn⟩)
  | ⟨h, .unlockReturn⟩, .run => some (s.leave, ⟨h, .out⟩)
  | ⟨h, .sharedEnter⟩, .run => (s.enter t).map (·, ⟨h, .sharedTest⟩)
  | ⟨h, .sharedTest⟩, .run =>
    if s.mWriter then some (s, ⟨h, .sharedWait⟩) else some (s, ⟨h, .sharedAdd⟩)
  | ⟨h, .sharedWait⟩, .run =>
    if s.mWriter then some (s.sleep t, ⟨h, .sharedAsleep⟩)
    else some (s, ⟨h, .sharedTest⟩)
  | ⟨h, .sharedAsleep⟩, .wake => some (s.wake t, ⟨h, .sharedAsleep⟩)
  | ⟨h, .sharedAsleep⟩, .run => (s.resume t).map (·, ⟨h, .sharedWait⟩)
  | ⟨h, .sharedAdd⟩, .run => some ({ s with mReader := s.mReader + 1 }, ⟨h, .sharedReturn⟩)
  | ⟨h, .sharedReturn⟩, .run =>
    some (s.leave, ⟨{ h with shared := h.shared + 1 }, .out⟩)
  | ⟨h, .unsharedEnter⟩, .run => (s.enter t).map (·, ⟨h, .unsharedSub⟩)
  | ⟨h, .unsharedSub⟩, .run => some ({ s with mReader := s.mReader - 1 },
      ⟨{ h with shared := h.shared - 1 }, .unsharedAssert⟩)
  | ⟨h, .unsharedAssert⟩, .run =>
    if 0 ≤ s.mReader then some (s, ⟨h, .unsharedNotify⟩) else some (s, ⟨h, .aborted⟩)
  | ⟨h, .unsharedNotify⟩, .run => some (s.notify, ⟨h, .unsharedReturn⟩)
  | ⟨h, .unsharedReturn⟩, .run => some (s.leave, ⟨h, .out⟩)
  | _, _ => none

attribute [elab_as_elim] next.fun_cases_unfolding

variable (τ)

/-- Any threads calling anything, but for unlocking what they do not hold. -/
def system : System (Conf τ (Shared τ) PC) (τ × Act) :=
  Program.system ⟨next⟩ (fun s => s = initial) ⟨⟨0, 0⟩, .out⟩

end Model

def At.role : At → Role
  | .out | .lockEnter | .unlockEnter | .sharedEnter | .unsharedEnter => .away
  | .lockAsleep | .drainAsleep | .sharedAsleep => .waiting
  | _ => .inside

/-- What the thread has in `mWriter`. -/
def claims (p : PC) : ℕ :=
  p.holds.exclusive + match p.step with
    | .drainTest | .drainWait | .drainAsleep | .lockReturn => 1
    | _ => 0

/-- What the thread has in `mReader`. -/
def shares (p : PC) : ℕ := p.holds.shared + if p.step = .sharedReturn then 1 else 0

def drained (p : PC) : Prop := 0 < p.holds.exclusive ∨ p.step = .lockReturn

def notifying (p : PC) : Bool :=
  match p.step with
  | .unlockNotify | .unsharedAssert | .unsharedNotify => true
  | _ => false

/-- What the thread waits for does not hold. -/
def Blocked (s : Shared τ) (p : PC) : Prop :=
  match p.step with
  | .lockAsleep | .sharedAsleep => s.mWriter = true
  | .drainAsleep => s.mReader ≠ 0
  | _ => True

/-- What the lock keeps as it is for the thread inside, and what it has to give back. -/
def Placed (s : Shared τ) (p : PC) : Prop :=
  match p.step with
  | .lockClaim | .sharedAdd => s.mWriter = false
  | .lockReturn => s.mReader = 0
  | .unlockEnter | .unlockAssert => 0 < p.holds.exclusive
  | .unlockClear => 0 < p.holds.exclusive
  | .unsharedEnter | .unsharedSub => 0 < p.holds.shared
  | .unsharedAssert => 0 ≤ s.mReader
  | .aborted => False
  | _ => True

end SharedLock

end ConcurrencySandbox

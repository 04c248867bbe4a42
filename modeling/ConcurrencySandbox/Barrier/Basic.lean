import ConcurrencySandbox.Interleaving.Monitor
import ConcurrencySandbox.Interleaving.Count

/-!
# Barrier

`Misc/Barrier`: the last of `mNum` threads to arrive starts a new generation, and the others wait
until `mGeneration` is not the one they have come in. Both counters are 32 bits wide.
-/

namespace ConcurrencySandbox

open Interleaving

namespace Barrier

variable {τ : Type*}

structure Shared (τ : Type*) where
  monitor : Monitor τ
  mGeneration : BitVec 32
  mCount : BitVec 32
  mNum : BitVec 32

/-- Where a thread is in `wait`. -/
inductive At
  | out
  | enter
  | read
  | decrement (curGen : BitVec 32)
  | test (curGen : BitVec 32)
  | bump
  | reset
  | notify
  | pred (curGen : BitVec 32)
  | asleep (curGen : BitVec 32)
  | leave
  deriving DecidableEq

/-- With the number of calls the thread has returned from. -/
structure PC where
  returned : ℕ
  step : At

/-- The calls the thread has started. -/
def PC.started (p : PC) : ℕ := p.returned + if p.step = .out then 0 else 1

inductive Act
  | run
  | wait
  /-- A spurious wakeup. -/
  | wake

def initial (n : BitVec 32) : Shared τ := ⟨.free, 0, n, n⟩

section Model

variable [DecidableEq τ]

/-- One atomic step of `wait`. -/
def next (t : τ) (act : Act) (s : Shared τ) (p : PC) : Option (Shared τ × PC) :=
  match p, act with
  | ⟨r, .out⟩, .wait => some (s, ⟨r, .enter⟩)
  | ⟨r, .enter⟩, .run =>
    (s.monitor.acquire t).map fun m => ({ s with monitor := m }, ⟨r, .read⟩)
  | ⟨r, .read⟩, .run => some (s, ⟨r, .decrement s.mGeneration⟩)
  | ⟨r, .decrement curGen⟩, .run => some ({ s with mCount := s.mCount - 1 }, ⟨r, .test curGen⟩)
  | ⟨r, .test curGen⟩, .run =>
    if s.mCount = 0 then some (s, ⟨r, .bump⟩) else some (s, ⟨r, .pred curGen⟩)
  | ⟨r, .bump⟩, .run => some ({ s with mGeneration := s.mGeneration + 1 }, ⟨r, .reset⟩)
  | ⟨r, .reset⟩, .run => some ({ s with mCount := s.mNum }, ⟨r, .notify⟩)
  | ⟨r, .notify⟩, .run => some ({ s with monitor := s.monitor.notifyAll }, ⟨r, .leave⟩)
  | ⟨r, .pred curGen⟩, .run =>
    if curGen = s.mGeneration then
      some ({ s with monitor := s.monitor.wait t }, ⟨r, .asleep curGen⟩)
    else some (s, ⟨r, .leave⟩)
  | ⟨r, .asleep curGen⟩, .wake =>
    some ({ s with monitor := s.monitor.wake t }, ⟨r, .asleep curGen⟩)
  | ⟨r, .asleep curGen⟩, .run =>
    (s.monitor.resume t).map fun m => ({ s with monitor := m }, ⟨r, .pred curGen⟩)
  | ⟨r, .leave⟩, .run => some ({ s with monitor := s.monitor.release }, ⟨r + 1, .out⟩)
  | _, _ => none

variable (τ)

attribute [elab_as_elim] next.fun_cases_unfolding

/-- The threads of `τ` calling `wait` on a `Barrier(n)`, again and again. -/
def system (n : BitVec 32) : System (Conf τ (Shared τ) PC) (τ × Act) :=
  Program.system ⟨next⟩ (fun s => s = initial n) ⟨0, .out⟩

end Model

def At.role : At → Role
  | .out | .enter => .away
  | .asleep _ => .waiting
  | _ => .inside

/-- In round `k`, counted from 0, the thread has not arrived yet. -/
def late (k : ℕ) (p : PC) : ℕ :=
  match p.step with
  | .out | .enter | .read | .decrement _ => 1
  | _ => if p.returned = k then 0 else 1

/-- Where a thread can be in round `k`: a thread that has arrived in it, or is still on its way out
of the one before. -/
def Placed (k : ℕ) (s : Shared τ) (p : PC) : Prop :=
  match p.step with
  | .out | .enter | .read => p.returned = k
  | .decrement curGen | .test curGen => p.returned = k ∧ curGen = s.mGeneration
  | .bump => p.returned = k ∧ s.mCount = 0
  | .pred curGen | .asleep curGen =>
    curGen = BitVec.ofNat 32 p.returned ∧ (p.returned = k ∨ p.returned + 1 = k)
  | .reset | .notify | .leave => p.returned + 1 = k

/-- The thread has started a new generation, and the others do not know yet. -/
def notifying (p : PC) : Bool :=
  match p.step with
  | .reset | .notify => true
  | _ => false

/-- What the thread waits for does not hold. -/
def Blocked (s : Shared τ) (p : PC) : Prop := ∀ curGen, p.step = .asleep curGen →
    curGen = s.mGeneration

/-- The thread is about to find that it is the last. -/
def PC.Last (p : PC) : Prop := p.step = .bump ∨ ∃ curGen, p.step = .test curGen

/-- `mCount` threads are late, but for the moment between a new generation and its count. -/
def Counted [Fintype τ] (k : ℕ) (s : Shared τ) (f : τ → PC) : Prop :=
  (∃ t, (f t).step = .reset) ∧ count (late k) f = Fintype.card τ ∨
    (∀ t, (f t).step ≠ .reset) ∧ s.mCount.toNat = count (late k) f ∧
      (count (late k) f = 0 → ∃ t, (f t).Last)

structure Inv [Fintype τ] (k : ℕ) (s : Shared τ) (f : τ → PC) : Prop where
  valid : s.monitor.Valid (fun p : PC => p.step.role) f
  num : s.mNum.toNat = Fintype.card τ
  generation : s.mGeneration = BitVec.ofNat 32 k
  placed : ∀ t, Placed k s (f t)
  counted : Counted k s f
  awake : Monitor.Awake notifying (Blocked s) s.monitor f

end Barrier

end ConcurrencySandbox

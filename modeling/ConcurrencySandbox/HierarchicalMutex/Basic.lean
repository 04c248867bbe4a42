import Mathlib.Logic.Function.Basic
import ConcurrencySandbox.Interleaving.System

/-!
# HierarchicalMutex

`Lock/HierarchicalMutex`: a mutex with a level, which a thread may lock only while all it holds is
on higher levels. The level of the thread is thread-local, and the one before is saved in the mutex.
-/

namespace ConcurrencySandbox

open Interleaving

namespace HierarchicalMutex

/-- `HierarchyType` is `unsigned long long`. -/
abbrev HierarchyType := BitVec 64

/-- `std::numeric_limits<HierarchyType>::max()`. -/
def maxHierarchy : HierarchyType := BitVec.allOnes 64

variable {τ M : Type*}

structure Shared (τ M : Type*) where
  mPreviousHierarchy : M → HierarchyType
  mLock : M → Option τ
  sThisThreadHierarchy : τ → HierarchyType

inductive At (M : Type*)
  | out
  | lockCheck (m : M)
  | lockWait (m : M)
  | lockSave (m : M)
  | lockEnter (m : M)
  | tryCheck (m : M)
  | tryLock (m : M)
  | trySave (m : M)
  | tryEnter (m : M)
  | unlockCheck (m : M)
  | unlockRestore (m : M)
  | unlockRelease (m : M)
  /-- The call throws. -/
  | threw

/-- Where a thread is, with the mutexes it holds, the latest first. -/
structure PC (M : Type*) where
  held : List M
  step : At M

/-- `fail` is a `try_lock` of the mutex that fails, spuriously or not. -/
inductive Act (M : Type*)
  | run
  | fail
  | lock (m : M)
  | tryLock (m : M)
  | unlock (m : M)

section Model

variable [DecidableEq τ] [DecidableEq M] (mHierarchy : M → HierarchyType)

namespace Shared

def setLock (s : Shared τ M) (m : M) (holder : Option τ) : Shared τ M :=
  { s with mLock := Function.update s.mLock m holder }

def save (s : Shared τ M) (m : M) (h : HierarchyType) : Shared τ M :=
  { s with mPreviousHierarchy := Function.update s.mPreviousHierarchy m h }

def setThis (s : Shared τ M) (t : τ) (h : HierarchyType) : Shared τ M :=
  { s with sThisThreadHierarchy := Function.update s.sThisThreadHierarchy t h }

end Shared

/-- One atomic step of `lock`, `try_lock` or `unlock`. -/
def next (t : τ) (act : Act M) (s : Shared τ M) (p : PC M) : Option (Shared τ M × PC M) :=
  match p, act with
  | ⟨held, .out⟩, .lock m => some (s, ⟨held, .lockCheck m⟩)
  | ⟨held, .out⟩, .tryLock m => some (s, ⟨held, .tryCheck m⟩)
  | ⟨held, .out⟩, .unlock m => if m ∈ held then some (s, ⟨held, .unlockCheck m⟩) else none
  | ⟨held, .lockCheck m⟩, .run =>
    if s.sThisThreadHierarchy t ≤ mHierarchy m then some (s, ⟨held, .threw⟩)
    else some (s, ⟨held, .lockWait m⟩)
  | ⟨held, .lockWait m⟩, .run =>
    if s.mLock m = none then
      some (s.setLock m (some t), ⟨held, .lockSave m⟩)
    else none
  | ⟨held, .lockSave m⟩, .run =>
    some (s.save m (s.sThisThreadHierarchy t), ⟨held, .lockEnter m⟩)
  | ⟨held, .lockEnter m⟩, .run =>
    some (s.setThis t (mHierarchy m), ⟨m :: held, .out⟩)
  | ⟨held, .tryCheck m⟩, .run =>
    if s.sThisThreadHierarchy t ≤ mHierarchy m then some (s, ⟨held, .threw⟩)
    else some (s, ⟨held, .tryLock m⟩)
  | ⟨held, .tryLock _⟩, .fail => some (s, ⟨held, .out⟩)
  | ⟨held, .tryLock m⟩, .run =>
    if s.mLock m = none then
      some (s.setLock m (some t), ⟨held, .trySave m⟩)
    else none
  | ⟨held, .trySave m⟩, .run =>
    some (s.save m (s.sThisThreadHierarchy t), ⟨held, .tryEnter m⟩)
  | ⟨held, .tryEnter m⟩, .run =>
    some (s.setThis t (mHierarchy m), ⟨m :: held, .out⟩)
  | ⟨held, .unlockCheck m⟩, .run =>
    if s.sThisThreadHierarchy t = mHierarchy m then some (s, ⟨held, .unlockRestore m⟩)
    else some (s, ⟨held, .threw⟩)
  | ⟨held, .unlockRestore m⟩, .run =>
    some (s.setThis t (s.mPreviousHierarchy m), ⟨held, .unlockRelease m⟩)
  | ⟨held, .unlockRelease m⟩, .run =>
    some (s.setLock m none, ⟨held.erase m, .out⟩)
  | ⟨held, .threw⟩, .run => some (s, ⟨held, .out⟩)
  | _, _ => none

attribute [elab_as_elim] next.fun_cases_unfolding

/-- `mPreviousHierarchy` is not initialized. -/
def Initial (s : Shared τ M) : Prop :=
  (∀ m, s.mLock m = none) ∧ ∀ t, s.sThisThreadHierarchy t = maxHierarchy

variable (τ)

/-- Any threads calling anything, but for unlocking what they do not hold. -/
def system : System (Conf τ (Shared τ M) (PC M)) (τ × Act M) :=
  Program.system ⟨next mHierarchy⟩ Initial ⟨[], .out⟩

end Model

/-- The level of a thread that holds these mutexes. -/
def level (mHierarchy : M → HierarchyType) (held : List M) : HierarchyType :=
  (held.head?.map mHierarchy).getD maxHierarchy

/-- The mutex the thread is blocked at. -/
def PC.Wants (p : PC M) (m : M) : Prop := p.step = .lockWait m

end HierarchicalMutex

end ConcurrencySandbox

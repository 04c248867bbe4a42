import Mathlib.Algebra.Group.Nat.Defs
import ConcurrencySandbox.RefinableThreadSafeHashmap.Sections

/-!
# StripedThreadSafeHashmap

The hash map of `LockBasedDataStructure/HashMap` whose number of mutexes stays while the number of
buckets grows. A mutex is its holder, a bucket the list of its pairs and an iterator the position in
it, and a step of `rehash` copies a pair, as in `RefinableThreadSafeHashmap`; calls are the same.
-/

namespace ConcurrencySandbox

open Interleaving Structures
open RefinableThreadSafeHashmap (Op)

namespace StripedThreadSafeHashmap

def sThreshold : ℕ := 4

structure Shared (τ K V : Type*) where
  mBuckets : List (List (K × V))
  mLocks : List (Option τ)
  mSize : UInt64
  history : List (Op K V × Option V)

/-- Where a thread is; `lk` is the mutex that `acquire` returned. -/
inductive PC (K V : Type*)
  | idle
  | acquire (op : Op K V)
  -- find, addOrUpdate, remove
  | bucketFind (op : Op K V) (lk : ℕ)
  | bucketApply (op : Op K V) (lk index it : ℕ)
  | sizeAdd (lk : ℕ)
  | sizeSub (lk : ℕ)
  | unlock (lk : ℕ) (ans : Option V)
  -- rehash
  | rehashSize (lk : ℕ)
  | rehashUnlock (lk prevBucketSize : ℕ)
  | rehashLock (prevBucketSize l : ℕ)
  | rehashTest (prevBucketSize : ℕ)
  | rehashCopy (prevBucketSize : ℕ) (newBucket : List (List (K × V))) (n : ℕ)
  | rehashSwap (newBucket : List (List (K × V)))
  | unlockAll (l : ℕ)

inductive Act (K V : Type*)
  | call (op : Op K V)
  | run

variable {τ K V : Type*}

namespace Shared

variable (s : Shared τ K V)

def setLock (i : ℕ) (holder : Option τ) : Shared τ K V := { s with mLocks := s.mLocks.set i holder }

def setBucket (index : ℕ) (bucket : List (K × V)) : Shared τ K V :=
  { s with mBuckets := s.mBuckets.set index bucket }

def log (op : Op K V) (ans : Option V) : Shared τ K V :=
  { s with history := s.history ++ [(op, ans)] }

end Shared

def initial (initialBucketSize : ℕ) : Shared τ K V :=
  ⟨List.replicate initialBucketSize [], List.replicate initialBucketSize none, 0, []⟩

variable [DecidableEq τ] [DecidableEq K]

/-- The steps of `find`, `addOrUpdate` and `remove`. -/
def nextCall (mHasher : K → ℕ) (t : τ) (s : Shared τ K V) :
    PC K V → Option (Shared τ K V × PC K V)
  | .acquire op =>
    if s.mLocks[mHasher op.key % s.mLocks.length]? = some none then
      some (s.setLock (mHasher op.key % s.mLocks.length) (some t),
        .bucketFind op (mHasher op.key % s.mLocks.length))
    else none
  | .bucketFind op lk =>
    let index := mHasher op.key % s.mBuckets.length
    some (s, .bucketApply op lk index (position (s.mBuckets.getD index []) op.key))
  | .bucketApply op lk index it =>
    let bucket := s.mBuckets.getD index []
    match op with
    | .find key => some (s.log (.find key) (bucket[it]?.map Prod.snd),
        .unlock lk (bucket[it]?.map Prod.snd))
    | .addOrUpdate key val =>
      if it = bucket.length then
        some ((s.setBucket index (bucket ++ [(key, val)])).log (.addOrUpdate key val) none,
          .sizeAdd lk)
      else
        some ((s.setBucket index (bucket.modify it fun x => (x.1, val))).log
        (.addOrUpdate key val) none,
          .unlock lk none)
    | .remove key =>
      if it = bucket.length then some (s.log (.remove key) none, .unlock lk none)
      else some ((s.setBucket index (bucket.eraseIdx it)).log (.remove key) none, .sizeSub lk)
  | .sizeAdd lk =>
    if sThreshold < s.mSize.toNat / s.mBuckets.length then
      some ({ s with mSize := s.mSize + 1 }, .rehashSize lk)
    else some ({ s with mSize := s.mSize + 1 }, .unlock lk none)
  | .sizeSub lk => some ({ s with mSize := s.mSize - 1 }, .unlock lk none)
  | .unlock lk _ => some (s.setLock lk none, .idle)
  | _ => none

/-- The steps of `rehash`, with the destructor of `fin`. -/
def nextRehash (mHasher : K → ℕ) (t : τ) (s : Shared τ K V) :
    PC K V → Option (Shared τ K V × PC K V)
  | .rehashSize lk => some (s, .rehashUnlock lk s.mBuckets.length)
  | .rehashUnlock lk prev => some (s.setLock lk none, .rehashLock prev 0)
  | .rehashLock prev l =>
    if l < s.mLocks.length then
      if s.mLocks[l]? = some none then
        some (s.setLock l (some t), .rehashLock prev (l + 1)) else none
    else some (s, .rehashTest prev)
  | .rehashTest prev =>
    if prev ≠ s.mBuckets.length then some (s, .unlockAll 0)
    else some (s, .rehashCopy prev (List.replicate (2 * prev) []) 0)
  | .rehashCopy prev newBucket n =>
    match s.mBuckets.flatten[n]? with
    | some pair =>
      let index := mHasher pair.1 % (2 * prev)
      some (s, .rehashCopy prev (newBucket.set index (newBucket.getD index [] ++ [pair])) (n + 1))
    | none => some (s, .rehashSwap newBucket)
  | .rehashSwap newBucket => some ({ s with mBuckets := newBucket }, .unlockAll 0)
  | .unlockAll l =>
    if l < s.mLocks.length then some (s.setLock l none, .unlockAll (l + 1)) else some (s, .idle)
  | _ => none

/-- One atomic step of thread `t`. -/
def next (mHasher : K → ℕ) (t : τ) (act : Act K V) (s : Shared τ K V) (pc : PC K V) :
    Option (Shared τ K V × PC K V) :=
  match act, pc with
  | .call op, .idle => some (s, .acquire op)
  | .run, pc => (nextCall mHasher t s pc).or (nextRehash mHasher t s pc)
  | _, _ => none

attribute [elab_as_elim] nextCall.fun_cases_unfolding nextRehash.fun_cases_unfolding
  next.fun_cases_unfolding

def program (mHasher : K → ℕ) : Program τ (Shared τ K V) (PC K V) (Act K V) := ⟨next mHasher⟩

/-- Any threads, on an empty map. -/
def system (mHasher : K → ℕ) (initialBucketSize : ℕ) :
    System (Conf τ (Shared τ K V) (PC K V)) (τ × Act K V) :=
  (program mHasher).system (fun s => s = initial initialBucketSize) .idle

end StripedThreadSafeHashmap

end ConcurrencySandbox

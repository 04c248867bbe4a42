import ConcurrencySandbox.HazardPointer.Domain
import ConcurrencySandbox.Interleaving.System
import ConcurrencySandbox.Structures.Table

/-!
# RefinableThreadSafeHashmap

The hash map of `LockBasedDataStructure/HashMap` whose array of mutexes is replaced when it grows.
The old array is retired to a hazard pointer domain, and an array is made at any free address.

A mutex is its holder. A bucket is the list of its pairs and an iterator the position in it. The two
loops of `rehash` over the old buckets are one over `mBuckets.flatten`, a pair at a step. A critical
section takes two steps on its bucket, `find` and then what it does there; the second also adds the
call and its result to `history`. A hash value is a natural number.
-/

namespace ConcurrencySandbox

open Interleaving Structures HazardPointer

namespace RefinableThreadSafeHashmap

def sThreshold : ℕ := 4

inductive Op (K V : Type*)
  | find (key : K)
  | addOrUpdate (key : K) (val : V)
  | remove (key : K)

namespace Op

variable {K V : Type*}

def key : Op K V → K
  | .find key | .addOrUpdate key _ | .remove key => key

/-- What the call returns, with its iterator at a place in the bucket. -/
def result (bucket : List (K × V)) (it : ℕ) : Op K V → Option V
  | .find _ => bucket[it]?.map Prod.snd
  | .addOrUpdate .. | .remove _ => none

end Op

structure Shared (τ L K V : Type*) where
  domain : Domain τ L
  mBuckets : List (List (K × V))
  mLocks : L
  mRehash : Bool
  mSize : UInt64
  locks : L → List (Option τ)
  allocated : L → Bool
  history : List (Op K V × Option V)

/-- Where a thread is; `domain .ready` is between calls. `lk` is the mutex of `locks` that
`acquire` returned. -/
inductive PC (τ L K V : Type*)
  | domain (f : Frame τ L)
  -- acquire
  | acquireSpin (op : Op K V)
  | acquireLoad (op : Op K V)
  | acquireStore (op : Op K V) (locks : L)
  | acquireCheck (op : Op K V) (locks : L)
  | acquireLock (op : Op K V) (locks : L)
  | acquireTest (op : Op K V) (locks : L) (lk : ℕ)
  | acquireRecheck (op : Op K V) (locks : L) (lk : ℕ)
  | acquireUnlock (op : Op K V) (locks : L) (lk : ℕ)
  | acquireRelease (op : Op K V)
  | acquireReturn (op : Op K V) (locks : L) (lk : ℕ)
  -- find, addOrUpdate, remove
  | bucketFind (op : Op K V) (locks : L) (lk : ℕ)
  | bucketApply (op : Op K V) (locks : L) (lk index it : ℕ)
  | sizeAdd (locks : L) (lk : ℕ)
  | sizeSub (locks : L) (lk : ℕ)
  | unlock (locks : L) (lk : ℕ) (ans : Option V)
  | returned (ans : Option V)
  -- rehash
  | rehashSize (locks : L) (lk : ℕ)
  | rehashUnlock (locks : L) (lk prevBucketSize : ℕ)
  | rehashExchange (prevBucketSize : ℕ)
  | rehashTest (prevBucketSize : ℕ)
  | rehashReset
  | rehashLoad (prevBucketSize : ℕ)
  | waitLock (prevBucketSize : ℕ) (oldLocks : L) (l : ℕ)
  | waitUnlock (prevBucketSize : ℕ) (oldLocks : L) (l : ℕ)
  | rehashCopy (prevBucketSize : ℕ) (oldLocks : L) (newBucket : List (List (K × V))) (n : ℕ)
  | rehashSwap (newBucketSize : ℕ) (oldLocks : L) (newBucket : List (List (K × V)))
  | rehashNew (newBucketSize : ℕ) (oldLocks : L)
  | rehashLocks (oldLocks newLocks : L)
  | rehashDone (oldLocks : L)
  | rehashRetire (oldLocks : L)
  | retiring (f : Frame τ L)

inductive Act (L K V : Type*)
  | call (op : Op K V)
  | exit (listFirst : Bool)
  | run (ok : Bool)
  | alloc (a : L)

variable {τ L K V : Type*} [DecidableEq τ] [DecidableEq L] [DecidableEq K]

namespace Shared

variable (s : Shared τ L K V)

def setLock (a : L) (i : ℕ) (holder : Option τ) : Shared τ L K V :=
  { s with locks := Function.update s.locks a ((s.locks a).set i holder) }

/-- `new std::vector<std::mutex>(n)` at address `a`. -/
def make (a : L) (n : ℕ) : Shared τ L K V :=
  { s with locks := Function.update s.locks a (List.replicate n none)
           allocated := Function.update s.allocated a true }

def free (a : L) : Shared τ L K V :=
  { s with allocated := Function.update s.allocated a false }

def setBucket (index : ℕ) (bucket : List (K × V)) : Shared τ L K V :=
  { s with mBuckets := s.mBuckets.set index bucket }

def log (op : Op K V) (ans : Option V) : Shared τ L K V :=
  { s with history := s.history ++ [(op, ans)] }

/-- A store to the thread's hazard pointer. -/
def storeHp (t : τ) (v : Option L) : Shared τ L K V := { s with domain := s.domain.store t 0 v }

/-- A step inside the domain; a deleter is `deleter`. -/
def domainStep (t : τ) (ok : Bool) (f : Frame τ L) : Option (Shared τ L K V × Frame τ L) :=
  match s.domain.step 1 t ok f with
  | some (d, f', .free a) => some ({ s with domain := d }.free a, f')
  | some (d, f', _) => some ({ s with domain := d }, f')
  | none => none

end Shared

def initial (a : L) (initialBucketSize : ℕ) : Shared τ L K V where
  domain := .initial
  mBuckets := List.replicate initialBucketSize []
  mLocks := a
  mRehash := false
  mSize := 0
  locks := fun _ => List.replicate initialBucketSize none
  allocated := Function.update (fun _ => false) a true
  history := []

/-- The steps of `acquire`. -/
def nextAcquire (mHasher : K → ℕ) (t : τ) (act : Act L K V) (s : Shared τ L K V)
    (pc : PC τ L K V) : Option (Shared τ L K V × PC τ L K V) :=
  match pc, act with
  | .acquireSpin op, .run _ =>
    if s.mRehash then some (s, .acquireSpin op) else some (s, .acquireLoad op)
  | .acquireLoad op, .run _ => some (s, .acquireStore op s.mLocks)
  | .acquireStore op locks, .run _ => some (s.storeHp t (some locks), .acquireCheck op locks)
  | .acquireCheck op locks, .run _ =>
    if s.mLocks = locks then some (s, .acquireLock op locks) else some (s, .acquireSpin op)
  | .acquireLock op locks, .run _ =>
    if (s.locks locks)[mHasher op.key % (s.locks locks).length]? = some none then
      some (s.setLock locks (mHasher op.key % (s.locks locks).length) (some t),
        .acquireTest op locks (mHasher op.key % (s.locks locks).length))
    else none
  | .acquireTest op locks lk, .run _ =>
    if s.mRehash then some (s, .acquireUnlock op locks lk)
    else some (s, .acquireRecheck op locks lk)
  | .acquireRecheck op locks lk, .run _ =>
    if locks = s.mLocks then some (s, .acquireReturn op locks lk)
    else some (s, .acquireUnlock op locks lk)
  | .acquireUnlock op locks lk, .run _ => some (s.setLock locks lk none, .acquireRelease op)
  | .acquireRelease op, .run _ => some (s.storeHp t none, .acquireSpin op)
  | .acquireReturn op locks lk, .run _ => some (s.storeHp t none, .bucketFind op locks lk)
  | _, _ => none

/-- The steps of `find`, `addOrUpdate` and `remove` once the lock is held. -/
def nextSection (mHasher : K → ℕ) (act : Act L K V) (s : Shared τ L K V) (pc : PC τ L K V) :
    Option (Shared τ L K V × PC τ L K V) :=
  match pc, act with
  | .bucketFind op locks lk, .run _ =>
    let index := mHasher op.key % s.mBuckets.length
    some (s, .bucketApply op locks lk index (position (s.mBuckets.getD index []) op.key))
  | .bucketApply op locks lk index it, .run _ =>
    let bucket := s.mBuckets.getD index []
    match op with
    | .find key =>
      some (s.log (.find key) (bucket[it]?.map Prod.snd),
      .unlock locks lk (bucket[it]?.map Prod.snd))
    | .addOrUpdate key val =>
      if it = bucket.length then
        some ((s.setBucket index (bucket ++ [(key, val)])).log (.addOrUpdate key val) none,
          .sizeAdd locks lk)
      else
        some ((s.setBucket index (bucket.modify it fun x => (x.1, val))).log
        (.addOrUpdate key val) none,
          .unlock locks lk none)
    | .remove key =>
      if it = bucket.length then some (s.log (.remove key) none, .unlock locks lk none)
      else
        some ((s.setBucket index (bucket.eraseIdx it)).log (.remove key) none, .sizeSub locks lk)
  | .sizeAdd locks lk, .run _ =>
    if sThreshold < s.mSize.toNat / s.mBuckets.length then
      some ({ s with mSize := s.mSize + 1 }, .rehashSize locks lk)
    else some ({ s with mSize := s.mSize + 1 }, .unlock locks lk none)
  | .sizeSub locks lk, .run _ =>
    some ({ s with mSize := s.mSize - 1 }, .unlock locks lk none)
  | .unlock locks lk ans, .run _ => some (s.setLock locks lk none, .returned ans)
  | .returned _, .run _ => some (s, .domain .ready)
  | _, _ => none

/-- The steps of `rehash`. -/
def nextRehash (mHasher : K → ℕ) (t : τ) (act : Act L K V) (s : Shared τ L K V)
    (pc : PC τ L K V) : Option (Shared τ L K V × PC τ L K V) :=
  match pc, act with
  | .rehashSize locks lk, .run _ => some (s, .rehashUnlock locks lk s.mBuckets.length)
  | .rehashUnlock locks lk prev, .run _ => some (s.setLock locks lk none, .rehashExchange prev)
  | .rehashExchange prev, .run _ =>
    if s.mRehash then some (s, .rehashExchange prev)
    else some ({ s with mRehash := true }, .rehashTest prev)
  | .rehashTest prev, .run _ =>
    if prev ≠ s.mBuckets.length then some (s, .rehashReset) else some (s, .rehashLoad prev)
  | .rehashReset, .run _ => some ({ s with mRehash := false }, .returned none)
  | .rehashLoad prev, .run _ => some (s, .waitLock prev s.mLocks 0)
  | .waitLock prev oldLocks l, .run _ =>
    if l < (s.locks oldLocks).length then
      if (s.locks oldLocks)[l]? = some none then
        some (s.setLock oldLocks l (some t), .waitUnlock prev oldLocks l)
      else none
    else some (s, .rehashCopy prev oldLocks (List.replicate (2 * prev) []) 0)
  | .waitUnlock prev oldLocks l, .run _ =>
    some (s.setLock oldLocks l none, .waitLock prev oldLocks (l + 1))
  | .rehashCopy prev oldLocks newBucket n, .run _ =>
    match s.mBuckets.flatten[n]? with
    | some pair =>
      let index := mHasher pair.1 % (2 * prev)
      some (s, .rehashCopy prev oldLocks (newBucket.set index (newBucket.getD index [] ++ [pair]))
        (n + 1))
    | none => some (s, .rehashSwap (2 * prev) oldLocks newBucket)
  | .rehashSwap n oldLocks newBucket, .run _ =>
    some ({ s with mBuckets := newBucket }, .rehashNew n oldLocks)
  | .rehashNew n oldLocks, .alloc a =>
    if s.allocated a then none else some (s.make a n, .rehashLocks oldLocks a)
  | .rehashLocks oldLocks newLocks, .run _ =>
    some ({ s with mLocks := newLocks }, .rehashDone oldLocks)
  | .rehashDone oldLocks, .run _ => some ({ s with mRehash := false }, .rehashRetire oldLocks)
  | .rehashRetire oldLocks, .run _ =>
    some ({ s with domain := s.domain.retire t oldLocks }, .retiring .retireTest)
  | .retiring .ready, .run _ => some (s, .returned none)
  | .retiring f, .run ok =>
    match s.domainStep t ok f with
    | some (s', f') => some (s', .retiring f')
    | none => none
  | _, _ => none

/-- One atomic step of thread `t`. -/
def next (mHasher : K → ℕ) (t : τ) (act : Act L K V) (s : Shared τ L K V) (pc : PC τ L K V) :
    Option (Shared τ L K V × PC τ L K V) :=
  match pc, act with
  | .domain .ready, .call op => some (s, .acquireSpin op)
  | .domain .ready, .exit listFirst =>
    some (s, .domain (if listFirst then .exitList true else .exitOwner 1 true))
  | .domain f, .run ok =>
    match s.domainStep t ok f with
    | some (s', f') => some (s', .domain f')
    | none => none
  | .domain _, _ => none
  | pc, act =>
    match nextAcquire mHasher t act s pc with
    | some r => some r
    | none =>
      match nextSection mHasher act s pc with
      | some r => some r
      | none => nextRehash mHasher t act s pc

attribute [elab_as_elim] nextAcquire.fun_cases_unfolding nextSection.fun_cases_unfolding
  nextRehash.fun_cases_unfolding next.fun_cases_unfolding

def program (mHasher : K → ℕ) : Program τ (Shared τ L K V) (PC τ L K V) (Act L K V) :=
  ⟨next mHasher⟩

/-- Any threads that start, call and exit, on an empty map. -/
def system (mHasher : K → ℕ) : System (Conf τ (Shared τ L K V) (PC τ L K V)) (τ × Act L K V) :=
  (program mHasher).system
    (fun s => ∃ a initialBucketSize, 1 ≤ initialBucketSize ∧ s = initial a initialBucketSize)
    (.domain .unstarted)

end RefinableThreadSafeHashmap

end ConcurrencySandbox

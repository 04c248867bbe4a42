import Mathlib.Data.Finset.Insert
import Mathlib.Data.Finset.Erase
import ConcurrencySandbox.RefinableThreadSafeHashmap.Sections

/-!
# FixedSizeThreadSafeHashMap

The hash map of `LockBasedDataStructure/HashMap` whose number of buckets stays. Every bucket has a
`shared_mutex`: `find` holds it shared, `addOrUpdate` and `remove` hold it alone, and `getSnapShot`
locks all buckets, one after the other, before it reads them.

A `shared_mutex` is who holds it alone and who holds it shared. The three calls on a bucket are
those of `RefinableThreadSafeHashmap`; the map that `getSnapShot` returns is the list of its pairs.
-/

namespace ConcurrencySandbox

open Interleaving Structures

namespace FixedSizeThreadSafeHashMap

open RefinableThreadSafeHashmap (Op)

structure Shared (τ K V : Type*) where
  mBuckets : List (List (K × V))
  writer : ℕ → Option τ
  readers : ℕ → Finset τ

/-- Where a thread is; `index` is that of `getBucket`. -/
inductive PC (K V : Type*)
  | idle
  -- find, addOrUpdate, remove
  | lock (op : Op K V)
  | search (op : Op K V) (index : ℕ)
  | apply (op : Op K V) (index it : ℕ)
  | unlock (op : Op K V) (index : ℕ) (ans : Option V)
  | done (op : Op K V) (ans : Option V)
  -- getSnapShot
  | snapLock (bucket : ℕ)
  | snapCopy (bucket it : ℕ) (ans : List (K × V))
  | snapUnlock (bucket : ℕ) (ans : List (K × V))
  | snapDone (ans : List (K × V))

inductive Act (K V : Type*)
  | call (op : Op K V)
  | getSnapShot
  | run

variable {τ K V : Type*}

namespace Shared

section

variable (s : Shared τ K V)

def setBucket (index : ℕ) (bucket : List (K × V)) : Shared τ K V :=
  { s with mBuckets := s.mBuckets.set index bucket }

def setWriter (index : ℕ) (holder : Option τ) : Shared τ K V :=
  { s with writer := Function.update s.writer index holder }

def setReaders (index : ℕ) (readers : Finset τ) : Shared τ K V :=
  { s with readers := Function.update s.readers index readers }

/-- Nobody holds the bucket's lock. -/
def Free (index : ℕ) : Prop := s.writer index = none ∧ s.readers index = ∅

instance [DecidableEq τ] (index : ℕ) : Decidable (s.Free index) :=
  inferInstanceAs (Decidable (_ ∧ _))

end

end Shared

def initial (bucketSize : ℕ) : Shared τ K V :=
  ⟨List.replicate bucketSize [], fun _ => none, fun _ => ∅⟩

section Model

variable [DecidableEq τ] [DecidableEq K]

/-- `unordered_map::insert` leaves a key that is there. -/
def insert (ans : List (K × V)) (pair : K × V) : List (K × V) :=
  if position ans pair.1 = ans.length then ans ++ [pair] else ans

/-- The steps of `find`, `addOrUpdate` and `remove`. -/
def nextCall (mHasher : K → ℕ) (t : τ) (s : Shared τ K V) : PC K V → Option (Shared τ K V × PC K V)
  | .lock (.find key) =>
    let index := mHasher key % s.mBuckets.length
    if s.writer index = none then
      some (s.setReaders index (Insert.insert t (s.readers index)), .search (.find key) index)
    else none
  | .lock op =>
    let index := mHasher op.key % s.mBuckets.length
    if s.Free index then some (s.setWriter index (some t), .search op index) else none
  | .search op index =>
    some (s, .apply op index (position (s.mBuckets.getD index []) op.key))
  | .apply op index it =>
    let bucket := s.mBuckets.getD index []
    match op with
    | .find key => some (s, .unlock (.find key) index (bucket[it]?.map Prod.snd))
    | .addOrUpdate key val =>
      if it = bucket.length then
        some (s.setBucket index (bucket ++ [(key, val)]), .unlock (.addOrUpdate key val) index none)
      else
        some (s.setBucket index (bucket.modify it fun x => (x.1, val)),
          .unlock (.addOrUpdate key val) index none)
    | .remove key =>
      if it = bucket.length then some (s, .unlock (.remove key) index none)
      else some (s.setBucket index (bucket.eraseIdx it), .unlock (.remove key) index none)
  | .unlock (.find key) index ans =>
    some (s.setReaders index ((s.readers index).erase t), .done (.find key) ans)
  | .unlock op index ans => some (s.setWriter index none, .done op ans)
  | .done _ _ => some (s, .idle)
  | _ => none

/-- The steps of `getSnapShot`. -/
def nextSnap (t : τ) (s : Shared τ K V) : PC K V → Option (Shared τ K V × PC K V)
  | .snapLock bucket =>
    if bucket < s.mBuckets.length then
      if s.Free bucket then some (s.setWriter bucket (some t), .snapLock (bucket + 1)) else none
    else some (s, .snapCopy 0 0 [])
  | .snapCopy bucket it ans =>
    if bucket < s.mBuckets.length then
      match (s.mBuckets.getD bucket [])[it]? with
      | some pair => some (s, .snapCopy bucket (it + 1) (insert ans pair))
      | none => some (s, .snapCopy (bucket + 1) 0 ans)
    else some (s, .snapUnlock 0 ans)
  | .snapUnlock bucket ans =>
    if bucket < s.mBuckets.length then
      some (s.setWriter bucket none, .snapUnlock (bucket + 1) ans)
    else some (s, .snapDone ans)
  | .snapDone _ => some (s, .idle)
  | _ => none

/-- One atomic step of thread `t`. -/
def next (mHasher : K → ℕ) (t : τ) (act : Act K V) (s : Shared τ K V) (p : PC K V) :
    Option (Shared τ K V × PC K V) :=
  match p, act with
  | .idle, .call op => some (s, .lock op)
  | .idle, .getSnapShot => some (s, .snapLock 0)
  | p, .run => (nextCall mHasher t s p).or (nextSnap t s p)
  | _, _ => none

attribute [elab_as_elim] nextCall.fun_cases_unfolding nextSnap.fun_cases_unfolding
  next.fun_cases_unfolding

/-- Any threads calling anything on a map with `bucketSize` buckets. -/
def system (mHasher : K → ℕ) (bucketSize : ℕ) :
    System (Conf τ (Shared τ K V) (PC K V)) (τ × Act K V) :=
  Program.system ⟨next mHasher⟩ (fun s => s = initial bucketSize) .idle

end Model

end FixedSizeThreadSafeHashMap

end ConcurrencySandbox

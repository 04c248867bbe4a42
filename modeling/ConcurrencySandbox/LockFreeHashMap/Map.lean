import ConcurrencySandbox.LockFreeHashMap.Sequential

/-!
# LockFreeHashMap in any threads

`insert`, `remove` and `find` of the map over the list: the sentinel of the key's bucket, with those
of its parents where they are missing, then the call on the list, and what is done to `mSize` after
it. The steps inside a call on the list are the list's own.

`mBuckets` has a slot for every index, and `extend` doubles `size()` by a compare-and-swap.
`started` counts the calls of `insert`.
-/

namespace ConcurrencySandbox

open Interleaving HazardPointer

namespace LockFreeHashMap

namespace Map

open LockFreeHashMap.Sequential (Op sThreshold)

structure State (τ A K V : Type*) where
  list : Shared τ A K V
  /-- `mBuckets.size()` -/
  bucketSize : HashValueType
  mSize : BitVec 32
  started : ℕ

/-- Where a thread is; `domain .ready` is between calls. -/
inductive Place (τ A K V : Type*)
  | domain (f : Frame τ A)
  -- getSentinelNode
  | sizeLoad (op : Op K V)
  | sentinelTest (op : Op K V) (bucketSize index : HashValueType)
  -- insertSentinel; `stack` has the indices whose own turn comes after their parent's
  | parentTest (op : Op K V) (bucketSize index : HashValueType) (stack : List HashValueType)
  | sentinelBegin (op : Op K V) (bucketSize index : HashValueType) (stack : List HashValueType)
  | sentinel (op : Op K V) (bucketSize index : HashValueType) (stack : List HashValueType)
      (pc : PC τ A K V)
  -- add, remove and get
  | callBegin (op : Op K V) (index : HashValueType)
  | call (op : Op K V) (pc : PC τ A K V)
  -- insert and remove, after the list
  | sizeAdd
  | loadFactor (prevSize : BitVec 32)
  | extendLoad
  | extendCas (bucketSize : HashValueType)
  | sizeSub
  | returned (r : Result V)

inductive Act (A K V : Type*)
  | call (op : Op K V)
  | exit (listFirst : Bool)
  | run (ok : Bool)
  | alloc (a : A)

variable {τ A K V : Type*}

def key : Op K V → K
  | .insert key _ | .remove key | .find key => key

/-- The call on the list from the sentinel in a slot. -/
def listCall (slot : HashValueType) : Op K V → Call K V
  | .insert key value => .add slot key value
  | .remove key => .remove slot key
  | .find key => .get slot key

/-- What comes after the call on the list. -/
def afterCall : Op K V → Result V → Place τ A K V
  | .insert _ _, .bool true => .sizeAdd
  | .remove _, .bool true => .sizeSub
  | _, r => .returned r

/-- What comes after `insertSentinel`. -/
def afterSentinel (op : Op K V) (bucketSize index : HashValueType) :
    List HashValueType → Place τ A K V
  | [] => .callBegin op index
  | i :: stack => .sentinelBegin op bucketSize i stack

/-- The steps of the list that `run` and `alloc` stand for. -/
def Act.list : Act A K V → Option (LockFreeHashMap.Act A K V)
  | .call _ => none
  | .exit listFirst => some (.exit listFirst)
  | .run ok => some (.run ok)
  | .alloc a => some (.alloc a)

def initial [DecidableEq A] (head last : A) : State τ A K V where
  list := LockFreeHashMap.initial head last
  bucketSize := 2
  mSize := 0
  started := 0

section Steps

variable [DecidableEq τ] [DecidableEq A] [DecidableEq K] (mHash : K → HashValueType)

/-- A step of the list. -/
def listStep (t : τ) (act : LockFreeHashMap.Act A K V) (s : State τ A K V) (pc : PC τ A K V) :
    Option (State τ A K V × PC τ A K V) :=
  (LockFreeHashMap.next mHash t act s.list pc).map fun r => ({ s with list := r.1 }, r.2)

/-- One atomic step of thread `t`. -/
def next (t : τ) (act : Act A K V) (s : State τ A K V) (p : Place τ A K V) :
    Option (State τ A K V × Place τ A K V) :=
  match p, act with
  | .domain .ready, .call (.insert key value) =>
    some ({ s with started := s.started + 1 }, .sizeLoad (.insert key value))
  | .domain .ready, .call op => some (s, .sizeLoad op)
  | .sizeLoad op, .run _ => some (s, .sentinelTest op s.bucketSize (mHash (key op) % s.bucketSize))
  | .sentinelTest op n index, .run _ =>
    if s.list.mBuckets index = none then some (s, .parentTest op n index [])
    else some (s, .callBegin op index)
  | .parentTest op n index stack, .run _ =>
    if s.list.mBuckets (getParentIndex index n) = none then
      some (s, .parentTest op n (getParentIndex index n) (index :: stack))
    else some (s, .sentinelBegin op n index stack)
  | .sentinelBegin op n index stack, .run _ =>
    (listStep mHash t (.call (.insertSentinel (getParentIndex index n) index)) s
      (.domain .ready)).map
      fun r => (r.1, .sentinel op n index stack r.2)
  | .callBegin op index, .run _ =>
    (listStep mHash t (.call (listCall index op)) s (.domain .ready)).map
      fun r => (r.1, .call op r.2)
  | .sentinel op n index stack (.returned _ _), .run _ => some (s, afterSentinel op n index stack)
  | .call op (.returned _ r), .run _ => some (s, afterCall op r)
  | .domain f, act =>
    match act.list.bind fun act => listStep mHash t act s (.domain f) with
    | some (s', .domain f') => some (s', .domain f')
    | _ => none
  | .sentinel op n index stack pc, act =>
    (act.list.bind fun act => listStep mHash t act s pc).map fun r =>
      (r.1, .sentinel op n index stack r.2)
  | .call op pc, act =>
    (act.list.bind fun act => listStep mHash t act s pc).map fun r => (r.1, .call op r.2)
  | .sizeAdd, .run _ => some ({ s with mSize := s.mSize + 1 }, .loadFactor s.mSize)
  | .loadFactor prevSize, .run _ =>
    if sThreshold < prevSize.setWidth 64 / s.bucketSize then some (s, .extendLoad)
    else some (s, .returned (.bool true))
  | .extendLoad, .run _ => some (s, .extendCas s.bucketSize)
  | .extendCas n, .run _ =>
    if s.bucketSize = n then some ({ s with bucketSize := n <<< 1 }, .returned (.bool true))
    else some (s, .returned (.bool true))
  | .sizeSub, .run _ => some ({ s with mSize := s.mSize - 1 }, .returned (.bool true))
  | .returned _, .run _ => some (s, .domain .ready)
  | _, _ => none

def program : Program τ (State τ A K V) (Place τ A K V) (Act A K V) := ⟨next mHash⟩

/-- Any threads that start, call and exit, on a map that starts empty. -/
def system : System (Conf τ (State τ A K V) (Place τ A K V)) (τ × Act A K V) :=
  (program mHash).system (fun s => ∃ head last, head ≠ last ∧ s = initial head last)
    (.domain .unstarted)

end Steps

end Map

end LockFreeHashMap

end ConcurrencySandbox

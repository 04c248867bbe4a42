import ConcurrencySandbox.LockFreeHashMap.Basic

/-!
# LockFreeHashMap in one thread

The whole map of `LockFreeDataStructure/HashMap` as one thread runs it: `insert`, `remove` and
`find` with the lazy, recursive creation of sentinels and the doubling of the table. Claims and
hazard pointers, which only matter between threads, are left out: a claim is one load, and a node
that was unlinked or deleted is not used again, nor is its address.

`mBuckets` has a slot for every index and `extend` doubles `size()`. What is a loop or a recursion
in the source takes `fuel` turns at most here, and is `none` when it would take more, as is a step
at a null pointer.
-/

namespace ConcurrencySandbox

namespace LockFreeHashMap

namespace Sequential

structure State (K V : Type*) where
  mBuckets : HashValueType → Option ℕ
  /-- `mBuckets.size()` -/
  bucketSize : HashValueType
  mSize : BitVec 32
  heap : ℕ → Node ℕ K V
  /-- The addresses from here on are free. -/
  made : ℕ

def sThreshold : BitVec 64 := 2

variable {K V : Type*}

namespace State

variable (s : State K V)

def setNext (a : ℕ) (n : Option ℕ × Bool) : State K V :=
  { s with heap := Function.update s.heap a { s.heap a with mNext := n } }

/-- `mNext.compare_exchange_strong` of the node at `a`. -/
def exchange (a : ℕ) (expected desired : Option ℕ × Bool) : Option (State K V) :=
  if (s.heap a).mNext = expected then some (s.setNext a desired) else none

/-- `make_unique<Node>()`, and the stores to its first two fields. -/
def make (hashValue : HashValueType) (value : Option (K × V)) : State K V :=
  { s with heap := Function.update s.heap s.made ⟨hashValue, value, none, false⟩
           made := s.made + 1 }

def setBucket (index : HashValueType) (a : ℕ) : State K V :=
  { s with mBuckets := Function.update s.mBuckets index (some a) }

/-- `mBuckets.extend()`. -/
def extend : State K V := { s with bucketSize := s.bucketSize <<< 1 }

end State

/-- The constructor: the list has a first and a last node, and bucket 0 begins at the first. -/
def initial : State K V where
  mBuckets := fun i => if i = 0 then some 0 else none
  bucketSize := 2
  mSize := 0
  heap := fun a => if a = 0 then ⟨0, none, some 1, false⟩ else ⟨maxHashValue, none, none, false⟩
  made := 2

variable [DecidableEq K]

namespace LockFreeList

/-- The inner loop of `find` and its retry. -/
def findLoop (hashValue : HashValueType) (key : Option K) (head : ℕ) :
    ℕ → State K V → ℕ → ℕ → Option (State K V × ℕ × ℕ)
  | 0, _, _, _ => none
  | fuel + 1, s, pred, cur =>
    if (s.heap cur).mNext.2 then
      match s.exchange pred (some cur, false) ((s.heap cur).mNext.1, false) with
      | some s => (s.heap cur).mNext.1.bind fun succ => findLoop hashValue key head fuel s pred succ
      | none => (s.heap head).mNext.1.bind fun cur => findLoop hashValue key head fuel s head cur
    else if (s.heap cur).Stops hashValue key then some (s, pred, cur)
    else (s.heap cur).mNext.1.bind fun succ => findLoop hashValue key head fuel s cur succ

/-- `find` from the sentinel in bucket `slot`. -/
def find (fuel : ℕ) (s : State K V) (slot hashValue : HashValueType) (key : Option K) :
    Option (State K V × ℕ × ℕ) :=
  (s.mBuckets slot).bind fun head =>
    (s.heap head).mNext.1.bind fun cur => findLoop hashValue key head fuel s head cur

def getLoop (hashValue : HashValueType) (key : K) : ℕ → State K V → ℕ → Bool → Option (Option V)
  | 0, _, _, _ => none
  | fuel + 1, s, cur, mark =>
    let node := s.heap cur
    if node.mHashValue < hashValue ∨ (node.mHashValue = hashValue ∧ node.key ≠ some key) then
      node.mNext.1.bind fun succ => getLoop hashValue key fuel s succ node.mNext.2
    else if node.mHashValue ≠ hashValue ∨ node.key ≠ some key ∨ mark then some none
    else some (node.mValue.map Prod.snd)

def get (fuel : ℕ) (s : State K V) (slot hashValue : HashValueType) (key : K) : Option (Option V) :=
  (s.mBuckets slot).bind fun head =>
    (s.heap head).mNext.1.bind fun cur => getLoop hashValue key fuel s cur (s.heap head).mNext.2

/-- The loop of `add` with its new node. -/
def addLoop (slot hashValue : HashValueType) (key : K) (newNode : ℕ) :
    ℕ → State K V → Option (State K V × Bool)
  | 0, _ => none
  | fuel + 1, s =>
    (find fuel s slot hashValue (some key)).bind fun (s, pred, cur) =>
      if (s.heap cur).mHashValue = hashValue ∧ (s.heap cur).key = some key then some (s, false)
      else
        let s := s.setNext newNode (some cur, false)
        match s.exchange pred (some cur, false) (some newNode, false) with
        | some s => some (s, true)
        | none => addLoop slot hashValue key newNode fuel s

def add (fuel : ℕ) (s : State K V) (slot hashValue : HashValueType) (key : K) (value : V) :
    Option (State K V × Bool) :=
  addLoop slot hashValue key s.made fuel (s.make hashValue (some (key, value)))

def remove (slot hashValue : HashValueType) (key : K) : ℕ → State K V → Option (State K V × Bool)
  | 0, _ => none
  | fuel + 1, s =>
    (find fuel s slot hashValue (some key)).bind fun (s, pred, cur) =>
      if (s.heap cur).mHashValue ≠ hashValue ∨ (s.heap cur).key ≠ some key then some (s, false)
      else
        let succ := (s.heap cur).mNext.1
        match s.exchange cur (succ, false) (succ, true) with
        | some s =>
          match s.exchange pred (some cur, false) (succ, false) with
          | some s => some (s, true)
          | none => some (s, true)
        | none => remove slot hashValue key fuel s

end LockFreeList

open LockFreeList

/-- The loop of `insertSentinel` with its new node. -/
def sentinelLoop (parent sentinelKey : HashValueType) (newNode : ℕ) :
    ℕ → State K V → Option (State K V × ℕ)
  | 0, _ => none
  | fuel + 1, s =>
    (find fuel s parent sentinelKey none).bind fun (s, pred, cur) =>
      if (s.heap cur).mHashValue = sentinelKey then some (s, cur)
      else
        let s := s.setNext newNode (some cur, false)
        match s.exchange pred (some cur, false) (some newNode, false) with
        | some s => some (s, newNode)
        | none => sentinelLoop parent sentinelKey newNode fuel s

def insertSentinel (bucketSize : HashValueType) : ℕ → State K V → HashValueType → Option (State K V)
  | 0, _, _ => none
  | fuel + 1, s, index =>
    let parentIndex := getParentIndex index bucketSize
    let parent := if s.mBuckets parentIndex = none then insertSentinel bucketSize fuel s parentIndex
      else some s
    parent.bind fun s =>
      let sentinelKey := makeSentinelKey index
      (sentinelLoop parentIndex sentinelKey s.made fuel (s.make sentinelKey none)).bind
        fun (s, sentinelNode) =>
          if s.mBuckets index = none then some (s.setBucket index sentinelNode) else some s

variable (mHash : K → HashValueType)

/-- The slot that `getSentinelNode` returns is that of an index. -/
def getSentinelNode (fuel : ℕ) (s : State K V) (key : K) : Option (State K V × HashValueType) :=
  let index := mHash key % s.bucketSize
  if s.mBuckets index = none then
    (insertSentinel s.bucketSize fuel s index).map fun s => (s, index)
  else some (s, index)

def insert (fuel : ℕ) (s : State K V) (key : K) (value : V) : Option (State K V × Bool) :=
  (getSentinelNode mHash fuel s key).bind fun (s, sentinel) =>
    (add fuel s sentinel (makeOrdinaryKey (mHash key)) key value).bind fun (s, added) =>
      if added then
        let prevSize := s.mSize
        let s := { s with mSize := s.mSize + 1 }
        if sThreshold < prevSize.setWidth 64 / s.bucketSize then some (s.extend, true)
        else some (s, true)
      else some (s, false)

def remove (fuel : ℕ) (s : State K V) (key : K) : Option (State K V × Bool) :=
  (getSentinelNode mHash fuel s key).bind fun (s, sentinel) =>
    (LockFreeList.remove sentinel (makeOrdinaryKey (mHash key)) key fuel s).bind fun (s, removed) =>
      if removed then some ({ s with mSize := s.mSize - 1 }, true) else some (s, false)

def find (fuel : ℕ) (s : State K V) (key : K) : Option (State K V × Option V) :=
  (getSentinelNode mHash fuel s key).bind fun (s, sentinel) =>
    (get fuel s sentinel (makeOrdinaryKey (mHash key)) key).map fun ans => (s, ans)

inductive Op (K V : Type*)
  | insert (key : K) (value : V)
  | remove (key : K)
  | find (key : K)

def call (fuel : ℕ) (s : State K V) : Op K V → Option (State K V × Result V)
  | .insert key value => (insert mHash fuel s key value).map fun r => (r.1, .bool r.2)
  | .remove key => (remove mHash fuel s key).map fun r => (r.1, .bool r.2)
  | .find key => (find mHash fuel s key).map fun r => (r.1, .value r.2)

/-- The calls, one after the other, with their results. -/
def calls (fuel : ℕ) : State K V → List (Op K V) → Option (State K V × List (Result V))
  | s, [] => some (s, [])
  | s, op :: ops =>
    (call mHash fuel s op).bind fun (s, r) =>
      (calls fuel s ops).map fun (s, rs) => (s, r :: rs)

end Sequential

end LockFreeHashMap

end ConcurrencySandbox

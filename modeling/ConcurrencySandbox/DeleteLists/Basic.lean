import ConcurrencySandbox.Interleaving.System

/-!
# The delete lists

`GlobalDeleteList` and `LocalDeleteList` of `LockFreeDataStructure/HazardPointer`, node by node: a
`DeleteListNode` is in a list by its `mNext` alone, and is linked anew each time it moves. What is
retired is an object, an allocation that has an address (`address`); the nodes' own addresses are
handed out again once they are deleted.

The hazard pointers are there for what the lists read of them: the slots, their number and the list
of those constructed. A thread may use its slots and its lists in any order and exit at any time in
between, with the destructors of both in either order. The sizes are natural numbers, `int`s of the
source that are taken not to reach 2^31.
-/

namespace ConcurrencySandbox

open Interleaving

namespace DeleteLists

structure Shared (τ N A P : Type*) where
  -- DeleteListNode
  mData : N → A
  mNext : N → Option N
  allocated : N → Bool
  -- GlobalDeleteList
  globalHead : Option N
  -- LocalDeleteList
  localHead : τ → Option N
  mSize : τ → ℕ
  -- HazardPointerList
  mPointer : τ × ℕ → Option P
  hazardPointerList : List (τ × ℕ)
  hazardPointerSize : ℕ
  constructed : τ → Bool

/-- What follows on `LocalDeleteList::append`. -/
inductive After (τ N P : Type*)
  | retire
  | gather (next : Option N)
  | filter (next : Option N) (arr : List (Option P))

inductive PC (τ N P : Type*)
  | ready
  -- HazardPointerOwner
  | owner (i : ℕ)
  | appendOwner (i : ℕ)
  -- LocalDeleteList::append
  | appendNext (node : N) (after : After τ N P)
  | appendHead (node : N) (after : After τ N P)
  -- retire
  | retireTest
  -- tryDeallocateLocalList
  | loadGlobal
  | resetGlobal
  | gather (cur : Option N)
  | loadHead
  | getPointers (rest : List (τ × ℕ)) (arr : List (Option P))
  | filter (cur : Option N) (arr : List (Option P))
  | delete (cur : N) (next : Option N) (arr : List (Option P))
  -- the thread's exit; the flag tells whether the other destructor is still to come
  | exitOwner (i : ℕ) (listLeft : Bool)
  | exitList (ownersLeft : Bool)
  | exitWalk (last : N) (ownersLeft : Bool)
  | exitLoad (last : N) (ownersLeft : Bool)
  | exitCas (last : N) (ownersLeft : Bool)
  | exited

inductive Act (N A P : Type*)
  | useHazardPointer
  | store (i : ℕ) (v : Option P)
  | retire (data : A) (node : N)
  | tryDeallocateLocalList
  | exit (listFirst : Bool)
  | run (ok : Bool)

variable {τ N A P : Type*}

def After.pc : After τ N P → PC τ N P
  | .retire => .retireTest
  | .gather next => .gather next
  | .filter next arr => .filter next arr

section Model

variable [DecidableEq τ] [DecidableEq N]

namespace Shared

variable (s : Shared τ N A P)

/-- `new DeleteListNode(data, deleter)`. -/
def make (node : N) (data : A) : Shared τ N A P :=
  { s with
    mData := Function.update s.mData node data
    mNext := Function.update s.mNext node none
    allocated := Function.update s.allocated node true }

/-- `delete node`, after the deleter has run. -/
def free (node : N) : Shared τ N A P :=
  { s with allocated := Function.update s.allocated node false }

def setNext (node : N) (next : Option N) : Shared τ N A P :=
  { s with mNext := Function.update s.mNext node next }

def setHead (t : τ) (head : Option N) : Shared τ N A P :=
  { s with localHead := Function.update s.localHead t head }

def setSize (t : τ) (size : ℕ) : Shared τ N A P :=
  { s with mSize := Function.update s.mSize t size }

def store (t : τ) (i : ℕ) (v : Option P) : Shared τ N A P :=
  { s with mPointer := Function.update s.mPointer (t, i) v }

def construct (t : τ) : Shared τ N A P :=
  { s with constructed := Function.update s.constructed t true }

end Shared

/-- Where the destructors of the slots begin. -/
def slots (slotNum : ℕ) (s : Shared τ N A P) (t : τ) : ℕ := if s.constructed t then slotNum else 0

/-- What comes after the destructor of the local list. -/
def afterList (slotNum : ℕ) (s : Shared τ N A P) (t : τ) (ownersLeft : Bool) : PC τ N P :=
  if ownersLeft then .exitOwner (slots slotNum s t) false else .exited

variable [DecidableEq P]

/-- `std::find`. -/
local instance decidableFind (p : Option P) (arr : List (Option P)) : Decidable (p ∈ arr) :=
  decidable_of_iff (∃ q ∈ arr, q = p) (by simp)

/-- The steps inside the domain. -/
def nextRun (slotNum : ℕ) (address : A → P) (t : τ) (ok : Bool) (s : Shared τ N A P) :
    PC τ N P → Option (Shared τ N A P × PC τ N P)
  | .owner i =>
    if i < slotNum then
      some ({ s with hazardPointerSize := s.hazardPointerSize + 1 }, .appendOwner i)
    else some (s, .ready)
  | .appendOwner i =>
    if ok then some ({ s with hazardPointerList := (t, i) :: s.hazardPointerList }, .owner (i + 1))
    else some (s, .appendOwner i)
  | .appendNext node after =>
    some ((s.setSize t (s.mSize t + 1)).setNext node (s.localHead t), .appendHead node after)
  | .appendHead node after => some (s.setHead t (some node), after.pc)
  | .retireTest =>
    if 2 * s.hazardPointerSize < s.mSize t then some (s, .loadGlobal) else some (s, .ready)
  | .loadGlobal => if s.globalHead = none then some (s, .loadHead) else some (s, .resetGlobal)
  | .resetGlobal => some ({ s with globalHead := none }, .gather s.globalHead)
  | .gather (some cur) => some (s, .appendNext cur (.gather (s.mNext cur)))
  | .gather none => some (s, .loadHead)
  | .loadHead => some (s, .getPointers s.hazardPointerList [])
  | .getPointers (slot :: rest) arr => some (s, .getPointers rest (arr ++ [s.mPointer slot]))
  | .getPointers [] arr => some ((s.setHead t none).setSize t 0, .filter (s.localHead t) arr)
  | .filter (some cur) arr =>
    if some (address (s.mData cur)) ∈ arr then some (s, .appendNext cur (.filter (s.mNext cur) arr))
    else some (s, .delete cur (s.mNext cur) arr)
  | .filter none _ => some (s, .ready)
  | .delete cur next arr => some (s.free cur, .filter next arr)
  | .exitOwner (i + 1) listLeft => some (s.store t i none, .exitOwner i listLeft)
  | .exitOwner 0 listLeft => some (s, if listLeft then .exitList false else .exited)
  | .exitList ownersLeft =>
    match s.localHead t with
    | some head => some (s, .exitWalk head ownersLeft)
    | none => some (s, afterList slotNum s t ownersLeft)
  | .exitWalk last ownersLeft =>
    match s.mNext last with
    | some next => some (s, .exitWalk next ownersLeft)
    | none => some (s, .exitLoad last ownersLeft)
  | .exitLoad last ownersLeft => some (s.setNext last s.globalHead, .exitCas last ownersLeft)
  | .exitCas last ownersLeft =>
    if s.globalHead = s.mNext last ∧ ok then
      some ({ s with globalHead := s.localHead t }, afterList slotNum s t ownersLeft)
    else some (s.setNext last s.globalHead, .exitCas last ownersLeft)
  | .ready | .exited => none

/-- One atomic step of thread `t`. -/
def next (slotNum : ℕ) (address : A → P) (t : τ) (act : Act N A P) (s : Shared τ N A P)
    (p : PC τ N P) : Option (Shared τ N A P × PC τ N P) :=
  match p, act with
  | .ready, .useHazardPointer =>
    if s.constructed t then some (s, .ready) else some (s.construct t, .owner 0)
  | .ready, .store i v =>
    if s.constructed t ∧ i < slotNum then some (s.store t i v, .ready) else none
  | .ready, .retire data node =>
    if s.allocated node then none else some (s.make node data, .appendNext node .retire)
  | .ready, .tryDeallocateLocalList => some (s, .loadGlobal)
  | .ready, .exit listFirst =>
    some (s, if listFirst then .exitList true else .exitOwner (slots slotNum s t) true)
  | p, .run ok => nextRun slotNum address t ok s p
  | _, _ => none

attribute [elab_as_elim] nextRun.fun_cases_unfolding next.fun_cases_unfolding

/-- Nothing is retired and no slot constructed; memory holds anything. -/
structure Initial (s : Shared τ N A P) : Prop where
  allocated : s.allocated = fun _ => false
  globalHead : s.globalHead = none
  localHead : s.localHead = fun _ => none
  mSize : s.mSize = fun _ => 0
  mPointer : s.mPointer = fun _ => none
  hazardPointerList : s.hazardPointerList = []
  hazardPointerSize : s.hazardPointerSize = 0
  constructed : s.constructed = fun _ => false

/-- Any threads doing anything on a domain with `slotNum` slots for each of them. -/
def system (slotNum : ℕ) (address : A → P) :
    System (Conf τ (Shared τ N A P) (PC τ N P)) (τ × Act N A P) :=
  Program.system ⟨next slotNum address⟩ Initial .ready

end Model

end DeleteLists

end ConcurrencySandbox

import ConcurrencySandbox.HazardPointer.Domain
import ConcurrencySandbox.Interleaving.System

/-!
# MSQueue

The lock-free queue of `LockFreeDataStructure/MSQueue` with the memory under it: nodes are made at
any free address, popped nodes are retired to the hazard pointer domain (one slot for each thread),
and a node its deleter has run on gives its address back.

A step at a null pointer, or with a call that is not due, does not exist. `hp.release()` before a
return and the holder's destructor after it are one store here.
-/

namespace ConcurrencySandbox

open Interleaving HazardPointer

namespace MSQueue

structure Node (A V : Type*) where
  mData : Option V
  mNext : Option A

structure Shared (τ A V : Type*) where
  domain : Domain τ A
  mHead : Option A
  mTail : Option A
  heap : A → Node A V
  allocated : A → Bool

/-- Where a thread is; `domain .ready` is between calls. `left` is the new node of a `push` that
was not linked, `newTail` that of a `tryPop`. -/
inductive PC (τ A V : Type*)
  | domain (f : Frame τ A)
  -- push
  | pushNew (val : V)
  | pushTail (val : V) (node : A)
  | pushStore (val : V) (node : A) (tail : Option A)
  | pushCheck (val : V) (node : A) (tail : Option A)
  | pushData (val : V) (node tail : A)
  | pushNext (node tail : A)
  | pushSwing (left : Option A) (tail newNext : A)
  | pushDelete (left : A)
  | pushRelease
  | pushHelp (val : V) (node tail : A)
  | pushHelpNew (val : V) (tail newNext : A)
  | pushHelpSwing (val : V) (node tail newNext : A)
  | pushed
  -- tryPop
  | popHead (newTail : Option A)
  | popStore (newTail head : Option A)
  | popTail (newTail head : Option A)
  | popCheck (newTail head : Option A)
  | popHeadNext (newTail : Option A) (head : A)
  | popCas (newTail : Option A) (head : A) (next : Option A)
  | popRead (newTail : Option A) (head : A)
  | popRelease (newTail : Option A) (head : A) (ans : Option V)
  | popRetire (newTail : Option A) (head : A) (ans : Option V)
  | retiring (f : Frame τ A) (newTail : Option A) (ans : Option V)
  -- tryPop on an empty queue, and the dummy filled by a push that has not linked the next one
  | popStoreTail (newTail tail : Option A)
  | popTailCheck (newTail tail : Option A)
  | popData (newTail : Option A) (tail : A)
  | popEmpty (newTail : Option A)
  | popNext (newTail : Option A) (tail : A)
  | popNew (tail : A)
  | popLink (newTail tail : A)
  | popReload (newTail tail : A)
  | popSwing (newTail : Option A) (tail : A) (next : Option A)
  | popAgain (newTail : Option A)
  | popDelete (newTail : Option A) (ans : Option V)
  | popped (ans : Option V)

inductive Act (A V : Type*)
  | push (val : V)
  | tryPop
  | exit (listFirst : Bool)
  | run (ok : Bool)
  | alloc (a : A)

variable {τ A V : Type*} [DecidableEq τ] [DecidableEq A]

namespace Shared

variable (s : Shared τ A V)

def setData (a : A) (d : Option V) : Shared τ A V :=
  { s with heap := Function.update s.heap a { s.heap a with mData := d } }

def setNext (a : A) (n : Option A) : Shared τ A V :=
  { s with heap := Function.update s.heap a { s.heap a with mNext := n } }

/-- `make_unique<Node>()` at address `a`. -/
def make (a : A) : Shared τ A V :=
  { s with heap := Function.update s.heap a ⟨none, none⟩
           allocated := Function.update s.allocated a true }

def free (a : A) : Shared τ A V :=
  { s with allocated := Function.update s.allocated a false }

/-- A store to the thread's hazard pointer. -/
def storeHp (t : τ) (v : Option A) : Shared τ A V := { s with domain := s.domain.store t 0 v }

/-- A successful or failing `mTail.compare_exchange_strong(tail, next)`. -/
def swing (tail : A) (next : Option A) : Shared τ A V :=
  if s.mTail = some tail then { s with mTail := next } else s

/-- A step inside the domain; a deleter is `deleteNode`. -/
def domainStep (t : τ) (ok : Bool) (f : Frame τ A) : Option (Shared τ A V × Frame τ A) :=
  match s.domain.step 1 t ok f with
  | some (d, f', .free a) => some ({ s with domain := d }.free a, f')
  | some (d, f', _) => some ({ s with domain := d }, f')
  | none => none

end Shared

def initial (a : A) : Shared τ A V where
  domain := .initial
  mHead := some a
  mTail := some a
  heap := fun _ => ⟨none, none⟩
  allocated := Function.update (fun _ => false) a true

/-- The steps of `push`. -/
def nextPush (t : τ) (act : Act A V) (s : Shared τ A V) (pc : PC τ A V) :
    Option (Shared τ A V × PC τ A V) :=
  match pc, act with
  | .pushNew val, .alloc a => if s.allocated a then none else some (s.make a, .pushTail val a)
  | .pushTail val node, .run _ => some (s, .pushStore val node s.mTail)
  | .pushStore val node tail, .run _ => some (s.storeHp t tail, .pushCheck val node tail)
  | .pushCheck val node tail, .run _ =>
    if s.mTail = tail then
      match tail with
      | some a => some (s, .pushData val node a)
      | none => none
    else some (s, .pushTail val node)
  | .pushData val node tail, .run _ =>
    if (s.heap tail).mData.isNone then some (s.setData tail (some val), .pushNext node tail)
    else some (s, .pushHelp val node tail)
  | .pushNext node tail, .run _ =>
    match (s.heap tail).mNext with
    | none => some (s.setNext tail (some node), .pushSwing none tail node)
    | some n => some (s, .pushSwing (some node) tail n)
  | .pushSwing left tail newNext, .run _ =>
    match left with
    | some a => some (s.swing tail (some newNext), .pushDelete a)
    | none => some (s.swing tail (some newNext), .pushRelease)
  | .pushDelete left, .run _ => some (s.free left, .pushRelease)
  | .pushRelease, .run _ => some (s.storeHp t none, .pushed)
  | .pushHelp val node tail, .run _ =>
    match (s.heap tail).mNext with
    | none => some (s.setNext tail (some node), .pushHelpNew val tail node)
    | some n => some (s, .pushHelpSwing val node tail n)
  | .pushHelpNew val tail newNext, .alloc a =>
    if s.allocated a then none else some (s.make a, .pushHelpSwing val a tail newNext)
  | .pushHelpSwing val node tail newNext, .run _ =>
    some (s.swing tail (some newNext), .pushTail val node)
  | .pushed, .run _ => some (s, .domain .ready)
  | _, _ => none

/-- The steps of `tryPop`. -/
def nextPop (t : τ) (act : Act A V) (s : Shared τ A V) (pc : PC τ A V) :
    Option (Shared τ A V × PC τ A V) :=
  match pc, act with
  | .popHead newTail, .run _ => some (s, .popStore newTail s.mHead)
  | .popStore newTail head, .run _ => some (s.storeHp t head, .popTail newTail head)
  | .popTail newTail head, .run _ =>
    if head = s.mTail then some (s, .popStoreTail newTail s.mTail)
    else some (s, .popCheck newTail head)
  | .popCheck newTail head, .run _ =>
    if s.mHead = head then
      match head with
      | some a => some (s, .popHeadNext newTail a)
      | none => none
    else some (s, .popHead newTail)
  | .popHeadNext newTail head, .run _ => some (s, .popCas newTail head (s.heap head).mNext)
  | .popCas newTail head next, .run _ =>
    if s.mHead = some head then some ({ s with mHead := next }, .popRead newTail head)
    else some (s, .popHead newTail)
  | .popRead newTail head, .run _ => some (s, .popRelease newTail head (s.heap head).mData)
  | .popRelease newTail head ans, .run _ => some (s.storeHp t none, .popRetire newTail head ans)
  | .popRetire newTail head ans, .run _ =>
    some ({ s with domain := s.domain.retire t head }, .retiring .retireTest newTail ans)
  | .retiring .ready newTail ans, .run _ => some (s, .popDelete newTail ans)
  | .retiring f newTail ans, .run ok =>
    match s.domainStep t ok f with
    | some (s', f') => some (s', .retiring f' newTail ans)
    | none => none
  | .popStoreTail newTail tail, .run _ => some (s.storeHp t tail, .popTailCheck newTail tail)
  | .popTailCheck newTail tail, .run _ =>
    if s.mTail = tail then
      match tail with
      | some a => some (s, .popData newTail a)
      | none => none
    else some (s, .popAgain newTail)
  | .popData newTail tail, .run _ =>
    if (s.heap tail).mData.isNone then some (s, .popEmpty newTail)
    else some (s, .popNext newTail tail)
  | .popEmpty newTail, .run _ => some (s.storeHp t none, .popDelete newTail none)
  | .popNext newTail tail, .run _ =>
    match (s.heap tail).mNext, newTail with
    | some n, _ => some (s, .popSwing newTail tail (some n))
    | none, some a => some (s, .popLink a tail)
    | none, none => some (s, .popNew tail)
  | .popNew tail, .alloc a => if s.allocated a then none else some (s.make a, .popLink a tail)
  | .popLink newTail tail, .run _ =>
    match (s.heap tail).mNext with
    | none => some (s.setNext tail (some newTail), .popSwing none tail (some newTail))
    | some _ => some (s, .popReload newTail tail)
  | .popReload newTail tail, .run _ => some (s, .popSwing (some newTail) tail (s.heap tail).mNext)
  | .popSwing newTail tail next, .run _ => some (s.swing tail next, .popAgain newTail)
  | .popAgain newTail, .run _ => some (s.storeHp t none, .popHead newTail)
  | .popDelete newTail ans, .run _ =>
    match newTail with
    | some a => some (s.free a, .popped ans)
    | none => some (s, .popped ans)
  | .popped _, .run _ => some (s, .domain .ready)
  | _, _ => none

/-- One atomic step of thread `t`. -/
def next (t : τ) (act : Act A V) (s : Shared τ A V) (pc : PC τ A V) :
    Option (Shared τ A V × PC τ A V) :=
  match pc, act with
  | .domain .ready, .push val => some (s, .pushNew val)
  | .domain .ready, .tryPop => some (s, .popHead none)
  | .domain .ready, .exit listFirst =>
    some (s, .domain (if listFirst then .exitList true else .exitOwner 1 true))
  | .domain f, .run ok =>
    match s.domainStep t ok f with
    | some (s', f') => some (s', .domain f')
    | none => none
  | .domain _, _ => none
  | pc, act =>
    match nextPush t act s pc with
    | some r => some r
    | none => nextPop t act s pc

attribute [elab_as_elim] nextPush.fun_cases_unfolding nextPop.fun_cases_unfolding
  next.fun_cases_unfolding

def program : Program τ (Shared τ A V) (PC τ A V) (Act A V) := ⟨next⟩

/-- Any threads that start, push, pop and exit, on a queue that starts empty. -/
def system : System (Conf τ (Shared τ A V) (PC τ A V)) (τ × Act A V) :=
  program.system (fun s => ∃ a, s = initial a) (.domain .unstarted)

end MSQueue

end ConcurrencySandbox

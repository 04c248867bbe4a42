import ConcurrencySandbox.HazardPointer.Domain
import ConcurrencySandbox.Interleaving.System
import ConcurrencySandbox.Structures.Histories

/-!
# LockFreeStack

The stack of `LockFreeDataStructure/Stack` with the memory under it: `push` makes its node at any
free address, `pop` retires the node it took to the hazard pointer domain (one slot for each
thread), and a node its deleter has run on gives its address back.

A `compare_exchange_weak` may fail at any time (`ok`); it then writes `mHead` to the `mNext` of the
new node. A step at a null pointer, or with a call that is not due, does not exist. `history` has
the successful `compare_exchange` steps in order, with the `mData` of the node, and `returned` the
calls that have returned, but not the `pop`s that returned null.
-/

namespace ConcurrencySandbox

open Interleaving Structures HazardPointer

namespace LockFreeStack

structure Node (A T : Type*) where
  mData : Option T
  mNext : Option A

structure Shared (τ A T : Type*) where
  domain : Domain τ A
  mHead : Option A
  heap : A → Node A T
  allocated : A → Bool
  history : List (τ × Event (Option T))
  returned : List (τ × Event (Option T))

/-- Where a thread is; `domain .ready` is between calls. -/
inductive PC (τ A T : Type*)
  | domain (f : Frame τ A)
  -- push
  | pushNew (val : T)
  | pushLoad (val : T) (node : A)
  | pushCas (val : T) (node : A)
  | pushed (val : T)
  -- pop
  | popLoad
  | popStore (oldHead : Option A)
  | popCheck (oldHead : Option A)
  | popNext (oldHead : A)
  | popCas (oldHead : A) (next : Option A)
  | popRelease (oldHead : Option A)
  | popSwap (oldHead : A)
  | popRetire (oldHead : A) (ans : Option T)
  | retiring (f : Frame τ A) (ans : Option T)
  | popped (ans : Option T)

inductive Act (A T : Type*)
  | push (val : T)
  | pop
  | exit (listFirst : Bool)
  | run (ok : Bool)
  | alloc (a : A)

variable {τ A T : Type*} [DecidableEq τ] [DecidableEq A]

namespace Shared

variable (s : Shared τ A T)

def setData (a : A) (d : Option T) : Shared τ A T :=
  { s with heap := Function.update s.heap a { s.heap a with mData := d } }

def setNext (a : A) (n : Option A) : Shared τ A T :=
  { s with heap := Function.update s.heap a { s.heap a with mNext := n } }

/-- `new Node(val)` at address `a`. -/
def make (a : A) (val : T) : Shared τ A T :=
  { s with heap := Function.update s.heap a ⟨some val, none⟩
           allocated := Function.update s.allocated a true }

def free (a : A) : Shared τ A T :=
  { s with allocated := Function.update s.allocated a false }

/-- A successful `mHead.compare_exchange`. -/
def exchange (t : τ) (head : Option A) (e : Event (Option T)) : Shared τ A T :=
  { s with mHead := head, history := s.history ++ [(t, e)] }

/-- The return from a call. -/
def answer (t : τ) (e : Event (Option T)) : Shared τ A T :=
  { s with returned := s.returned ++ [(t, e)] }

/-- A store to the thread's hazard pointer. -/
def storeHp (t : τ) (v : Option A) : Shared τ A T := { s with domain := s.domain.store t 0 v }

/-- A step inside the domain; a deleter is `deleteNode`. -/
def domainStep (t : τ) (ok : Bool) (f : Frame τ A) : Option (Shared τ A T × Frame τ A) :=
  match s.domain.step 1 t ok f with
  | some (d, f', .free a) => some ({ s with domain := d }.free a, f')
  | some (d, f', _) => some ({ s with domain := d }, f')
  | none => none

end Shared

def initial : Shared τ A T where
  domain := .initial
  mHead := none
  heap := fun _ => ⟨none, none⟩
  allocated := fun _ => false
  history := []
  returned := []

/-- The steps of `push` and `pop`. -/
def nextCall (t : τ) (act : Act A T) (s : Shared τ A T) (pc : PC τ A T) :
    Option (Shared τ A T × PC τ A T) :=
  match pc, act with
  | .pushNew val, .alloc a => if s.allocated a then none else some (s.make a val, .pushLoad val a)
  | .pushLoad val node, .run _ => some (s.setNext node s.mHead, .pushCas val node)
  | .pushCas val node, .run ok =>
    if ok = true ∧ s.mHead = (s.heap node).mNext then
      some (s.exchange t (some node) (.push (some val)), .pushed val)
    else some (s.setNext node s.mHead, .pushCas val node)
  | .pushed val, .run _ => some (s.answer t (.push (some val)), .domain .ready)
  | .popLoad, .run _ => some (s, .popStore s.mHead)
  | .popStore oldHead, .run _ => some (s.storeHp t oldHead, .popCheck oldHead)
  | .popCheck oldHead, .run _ =>
    if oldHead = s.mHead then
      match oldHead with
      | some a => some (s, .popNext a)
      | none => some (s, .popRelease none)
    else some (s, .popLoad)
  | .popNext oldHead, .run _ => some (s, .popCas oldHead (s.heap oldHead).mNext)
  | .popCas oldHead next, .run _ =>
    if s.mHead = some oldHead then
      some (s.exchange t next (.pop (s.heap oldHead).mData), .popRelease (some oldHead))
    else some (s, .popLoad)
  | .popRelease (some a), .run _ => some (s.storeHp t none, .popSwap a)
  | .popRelease none, .run _ => some (s.storeHp t none, .popped none)
  | .popSwap oldHead, .run _ =>
    some (s.setData oldHead none, .popRetire oldHead (s.heap oldHead).mData)
  | .popRetire oldHead ans, .run _ =>
    some ({ s with domain := s.domain.retire t oldHead }, .retiring .retireTest ans)
  | .retiring .ready ans, .run _ => some (s, .popped ans)
  | .retiring f ans, .run ok =>
    match s.domainStep t ok f with
    | some (s', f') => some (s', .retiring f' ans)
    | none => none
  | .popped none, .run _ => some (s, .domain .ready)
  | .popped (some ans), .run _ => some (s.answer t (.pop (some ans)), .domain .ready)
  | _, _ => none

/-- One atomic step of thread `t`. -/
def next (t : τ) (act : Act A T) (s : Shared τ A T) (pc : PC τ A T) :
    Option (Shared τ A T × PC τ A T) :=
  match pc, act with
  | .domain .ready, .push val => some (s, .pushNew val)
  | .domain .ready, .pop => some (s, .popLoad)
  | .domain .ready, .exit listFirst =>
    some (s, .domain (if listFirst then .exitList true else .exitOwner 1 true))
  | .domain f, .run ok =>
    match s.domainStep t ok f with
    | some (s', f') => some (s', .domain f')
    | none => none
  | .domain _, _ => none
  | pc, act => nextCall t act s pc

attribute [elab_as_elim] nextCall.fun_cases_unfolding next.fun_cases_unfolding

def program : Program τ (Shared τ A T) (PC τ A T) (Act A T) := ⟨next⟩

/-- Any threads that start, push, pop and exit, on a stack that starts empty. -/
def system : System (Conf τ (Shared τ A T) (PC τ A T)) (τ × Act A T) :=
  program.system (fun s => s = initial) (.domain .unstarted)

end LockFreeStack

end ConcurrencySandbox

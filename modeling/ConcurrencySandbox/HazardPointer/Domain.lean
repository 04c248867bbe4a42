import ConcurrencySandbox.Interleaving.Hazards

/-!
# HazardPointerDomain

The hazard pointer domain of `LockFreeDataStructure/HazardPointer`: a list of slots that only
grows, `N` for each thread, and lists of retired addresses, one local to each thread and a global
one for what threads leave behind when they exit.

A `Frame` is where a thread is inside the domain. `step` moves it on by one atomic access, or to
the next turn of a loop over a list the thread has to itself; between its frames a thread stores to
its slots (`store`) and retires addresses (`retire`). The lists of nodes are lists here: a slot's
node is never unlinked, and a `compare_exchange_weak` in front of a list (`ok`) may fail at any
time and takes the head it finds when it succeeds. A deleter is one step, the event `free`. The two
sizes are natural numbers: the source's are `int`s, which the model takes not to reach 2^31.
-/

namespace ConcurrencySandbox

open Interleaving

namespace HazardPointer

structure Domain (τ A : Type*) where
  mPointer : τ × ℕ → Option A
  hazardPointerList : List (τ × ℕ)
  mSize : ℕ
  globalDeleteList : List A
  localDeleteList : τ → List A

inductive Frame (τ A : Type*)
  | unstarted
  -- HazardPointerOwner
  | owner (i : ℕ)
  | append (i : ℕ)
  | ready
  -- retire
  | retireTest
  -- tryDeallocateLocalList
  | loadGlobal
  | resetGlobal
  | loadHead
  | getPointers (rest : List (τ × ℕ)) (arr : List (Option A))
  | filter (cur : List A) (arr : List (Option A))
  -- the thread's exit; the flag tells whether the other destructor is still to come
  | exitOwner (i : ℕ) (listLeft : Bool)
  | exitList (ownersLeft : Bool)
  | exited

variable {τ A : Type*} [DecidableEq τ] [DecidableEq A]

namespace Domain

variable (d : Domain τ A)

omit [DecidableEq τ] [DecidableEq A] in
def initial : Domain τ A where
  mPointer := fun _ => none
  hazardPointerList := []
  mSize := 0
  globalDeleteList := []
  localDeleteList := fun _ => []

/-- `HazardPointerHolder::store` to slot `i` of thread `t`. -/
def store (t : τ) (i : ℕ) (v : Option A) : Domain τ A :=
  { d with mPointer := Function.update d.mPointer (t, i) v }

def setLocal (t : τ) (l : List A) : Domain τ A :=
  { d with localDeleteList := Function.update d.localDeleteList t l }

/-- The beginning of `retire`: the address goes to the front of the local list. -/
def retire (t : τ) (a : A) : Domain τ A := d.setLocal t (a :: d.localDeleteList t)

/-- One step of thread `t` inside the domain of `N` slots for each thread, and what it does to the
slots and the retired addresses. -/
def step (N : ℕ) (t : τ) (ok : Bool) :
    Frame τ A → Option (Domain τ A × Frame τ A × Hazards.Event (τ × ℕ) A)
  | .unstarted => some (d, .owner 0, .skip)
  | .owner i =>
    if i < N then some ({ d with mSize := d.mSize + 1 }, .append i, .skip)
    else some (d, .ready, .skip)
  | .append i =>
    if ok then
      some ({ d with hazardPointerList := (t, i) :: d.hazardPointerList }, .owner (i + 1), .skip)
    else some (d, .append i, .skip)
  | .retireTest =>
    if 2 * d.mSize < (d.localDeleteList t).length then some (d, .loadGlobal, .skip)
    else some (d, .ready, .skip)
  | .loadGlobal =>
    if d.globalDeleteList = [] then some (d, .loadHead, .skip) else some (d, .resetGlobal, .skip)
  | .resetGlobal =>
    some ({ d.setLocal t (d.globalDeleteList.reverse ++ d.localDeleteList t) with
      globalDeleteList := [] }, .loadHead, .skip)
  | .loadHead => some (d, .getPointers d.hazardPointerList [], .skip)
  | .getPointers (s :: rest) arr => some (d, .getPointers rest (arr ++ [d.mPointer s]), .skip)
  | .getPointers [] arr => some (d.setLocal t [], .filter (d.localDeleteList t) arr, .skip)
  | .filter [] _ => some (d, .ready, .skip)
  | .filter (a :: cur) arr =>
    if some a ∈ arr then some (d.retire t a, .filter cur arr, .skip)
    else some (d, .filter cur arr, .free a)
  | .exitOwner (i + 1) listLeft =>
    some (d.store t i none, .exitOwner i listLeft, .store (t, i) none)
  | .exitOwner 0 listLeft =>
    if listLeft then some (d, .exitList false, .skip) else some (d, .exited, .skip)
  | .exitList ownersLeft =>
    if ok then
      some ({ d.setLocal t [] with
        globalDeleteList := d.localDeleteList t ++ d.globalDeleteList },
        if ownersLeft then .exitOwner N false else .exited, .skip)
    else some (d, .exitList ownersLeft, .skip)
  | .ready | .exited => none

end Domain

end HazardPointer

end ConcurrencySandbox

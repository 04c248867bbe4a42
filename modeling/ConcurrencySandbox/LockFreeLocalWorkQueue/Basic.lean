import Mathlib.Algebra.Group.Int.Defs
import Mathlib.Algebra.Group.Nat.Defs
import ConcurrencySandbox.HazardPointer.Domain
import ConcurrencySandbox.Interleaving.System

/-!
# LockFreeLocalWorkQueue

The work stealing queue of `Misc/ThreadPool`: a ring of task pointers that the owner replaces by a
larger one, retiring the old one to the hazard pointer domain. Arrays and tasks are made at any free
address.

`long long` is `ℤ` and `toSize` its cast to `std::size_t`; `mTasks` is null only after the
destructor. The copy of `resize` takes one step for each index. A step at a null pointer, or at a
task that was deleted, does not exist. `pushed` and `returned` are the history of the calls: the
tasks whose `push` has stored `mBottom`, and what `pop` and `steal` returned.
-/

namespace ConcurrencySandbox

open Interleaving HazardPointer

namespace LockFreeLocalWorkQueue

/-- `static_cast<std::size_t>`. -/
def toSize (x : ℤ) : ℕ := (x % 2 ^ 64).toNat

structure CircularArray (P : Type*) where
  mTasks : List (Option P)

namespace CircularArray

variable {P : Type*} (r : CircularArray P)

def new (capacity : ℕ) : CircularArray P := ⟨List.replicate capacity none⟩

def capacity : ℕ := r.mTasks.length

def get (i : ℕ) : Option P := r.mTasks.getD (i % r.mTasks.length) none

def put (i : ℕ) (p : Option P) : CircularArray P := ⟨r.mTasks.set (i % r.mTasks.length) p⟩

end CircularArray

structure Shared (τ C P T : Type*) where
  domain : Domain τ C
  mTasks : C
  mBottom : ℤ
  mTop : ℤ
  arrays : C → CircularArray P
  allocated : C → Bool
  tasks : P → Option T
  pushed : List T
  returned : List T

/-- Which call claims `mTasks`. -/
inductive Claim
  | pop (newBottom oldTop : ℤ)
  | steal (oldTop : ℤ)

/-- Where a thread is; `domain .ready` is between calls. -/
inductive PC (τ C P T : Type*)
  | domain (f : Frame τ C)
  -- push
  | pushBottom (task : T)
  | pushTop (task : T) (b : ℤ)
  | pushTasks (task : T) (b t : ℤ)
  | pushReload (task : T) (b t : ℤ) (tasks : C)
  | pushResize (task : T) (b t : ℤ) (tasks cur : C)
  | pushCopy (task : T) (b : ℤ) (tasks cur newTasks : C) (i : ℕ)
  | pushTasksStore (task : T) (b : ℤ) (tasks newTasks : C)
  | pushRetire (task : T) (b : ℤ) (tasks newTasks : C)
  | retiring (f : Frame τ C) (task : T) (b : ℤ) (newTasks : C)
  | pushNew (task : T) (b : ℤ) (tasks : C)
  | pushPut (task : T) (b : ℤ) (tasks : C) (p : P)
  | pushBottomStore (task : T) (b : ℤ) (p : P)
  | pushed
  -- pop
  | popBottom
  | popBottomStore (newBottom : ℤ)
  | popTop (newBottom : ℤ)
  | popEmpty (oldTop : ℤ)
  | popCas (oldTop : ℤ) (p : Option P)
  | popRestore (oldTop : ℤ) (ans : Option T)
  -- steal
  | stealTop
  | stealBottom (oldTop : ℤ)
  | stealCas (oldTop : ℤ) (p : Option P)
  -- claimPointer, and the load from the claimed array
  | claimLoad (w : Claim)
  | claimStore (w : Claim) (tasks : C)
  | claimCheck (w : Claim) (tasks : C)
  | get (w : Claim) (tasks : C)
  -- the task is moved out and deleted; a pop that took the last one has mBottom to restore
  | take (p : Option P) (restore : Option ℤ)
  | release (ans : Option T)
  | returned (ans : Option T)

inductive Act (C P T : Type*)
  | push (task : T)
  | pop
  | steal
  | exit (listFirst : Bool)
  | run (ok : Bool)
  | alloc (a : C)
  | allocTask (p : P)

variable {τ C P T : Type*} [DecidableEq τ] [DecidableEq C] [DecidableEq P]

namespace Shared

variable (s : Shared τ C P T)

/-- `make_unique<CircularArray>(capacity)` at address `a`. -/
def make (a : C) (capacity : ℕ) : Shared τ C P T :=
  { s with arrays := Function.update s.arrays a (.new capacity)
           allocated := Function.update s.allocated a true }

def put (a : C) (i : ℕ) (p : Option P) : Shared τ C P T :=
  { s with arrays := Function.update s.arrays a ((s.arrays a).put i p) }

def free (a : C) : Shared τ C P T :=
  { s with allocated := Function.update s.allocated a false }

/-- `new Task` at address `p`. -/
def makeTask (p : P) (task : T) : Shared τ C P T :=
  { s with tasks := Function.update s.tasks p (some task) }

def freeTask (p : P) : Shared τ C P T :=
  { s with tasks := Function.update s.tasks p none }

/-- A store to the thread's hazard pointer. -/
def storeHp (t : τ) (v : Option C) : Shared τ C P T := { s with domain := s.domain.store t 0 v }

/-- A step inside the domain; a deleter is `CircularArray::deleter`. -/
def domainStep (t : τ) (ok : Bool) (f : Frame τ C) : Option (Shared τ C P T × Frame τ C) :=
  match s.domain.step 1 t ok f with
  | some (d, f', .free a) => some ({ s with domain := d }.free a, f')
  | some (d, f', _) => some ({ s with domain := d }, f')
  | none => none

end Shared

def initial (a : C) (initialCapacity : ℕ) : Shared τ C P T where
  domain := .initial
  mTasks := a
  mBottom := 0
  mTop := 0
  arrays := fun _ => .new initialCapacity
  allocated := Function.update (fun _ => false) a true
  tasks := fun _ => none
  pushed := []
  returned := []

/-- The index a call loads from the array it claimed. -/
def Claim.index : Claim → ℤ
  | .pop newBottom _ => newBottom
  | .steal oldTop => oldTop

/-- The steps of `push`. -/
def nextPush (t : τ) (act : Act C P T) (s : Shared τ C P T) (pc : PC τ C P T) :
    Option (Shared τ C P T × PC τ C P T) :=
  match pc, act with
  | .pushBottom task, .run _ => some (s, .pushTop task s.mBottom)
  | .pushTop task b, .run _ => some (s, .pushTasks task b s.mTop)
  | .pushTasks task b top, .run _ =>
    if (s.arrays s.mTasks).capacity - 1 ≤ toSize (b - top) then
      some (s, .pushReload task b top s.mTasks)
    else some (s, .pushNew task b s.mTasks)
  | .pushReload task b top tasks, .run _ => some (s, .pushResize task b top tasks s.mTasks)
  | .pushResize task b top tasks cur, .alloc a =>
    if s.allocated a then none
    else some (s.make a ((s.arrays cur).capacity * 2), .pushCopy task b tasks cur a (toSize top))
  | .pushCopy task b tasks cur newTasks i, .run _ =>
    if i < toSize b then
      some (s.put newTasks i ((s.arrays cur).get i), .pushCopy task b tasks cur newTasks (i + 1))
    else some (s, .pushTasksStore task b tasks newTasks)
  | .pushTasksStore task b tasks newTasks, .run _ =>
    some ({ s with mTasks := newTasks }, .pushRetire task b tasks newTasks)
  | .pushRetire task b tasks newTasks, .run _ =>
    some ({ s with domain := s.domain.retire t tasks }, .retiring .retireTest task b newTasks)
  | .retiring .ready task b newTasks, .run _ => some (s, .pushNew task b newTasks)
  | .retiring f task b newTasks, .run ok =>
    match s.domainStep t ok f with
    | some (s', f') => some (s', .retiring f' task b newTasks)
    | none => none
  | .pushNew task b tasks, .allocTask p =>
    if (s.tasks p).isSome then none else some (s.makeTask p task, .pushPut task b tasks p)
  | .pushPut task b tasks p, .run _ =>
    some (s.put tasks (toSize b) (some p), .pushBottomStore task b p)
  | .pushBottomStore task b _, .run _ =>
    some ({ s with mBottom := b + 1, pushed := s.pushed ++ [task] }, .pushed)
  | .pushed, .run _ => some (s, .domain .ready)
  | _, _ => none

/-- The steps of `pop` and `steal`. -/
def nextPop (t : τ) (act : Act C P T) (s : Shared τ C P T) (pc : PC τ C P T) :
    Option (Shared τ C P T × PC τ C P T) :=
  match pc, act with
  | .popBottom, .run _ => some (s, .popBottomStore (s.mBottom - 1))
  | .popBottomStore newBottom, .run _ => some ({ s with mBottom := newBottom }, .popTop newBottom)
  | .popTop newBottom, .run _ =>
    if newBottom - s.mTop < 0 then some (s, .popEmpty s.mTop)
    else some (s, .claimLoad (.pop newBottom s.mTop))
  | .popEmpty oldTop, .run _ => some ({ s with mBottom := oldTop }, .returned none)
  | .popCas oldTop p, .run _ =>
    if s.mTop = oldTop then some ({ s with mTop := oldTop + 1 }, .take p (some oldTop))
    else some (s, .popRestore oldTop none)
  | .popRestore oldTop ans, .run _ => some ({ s with mBottom := oldTop + 1 }, .release ans)
  | .stealTop, .run _ => some (s, .stealBottom s.mTop)
  | .stealBottom oldTop, .run _ =>
    if s.mBottom - oldTop ≤ 0 then some (s, .returned none)
    else some (s, .claimLoad (.steal oldTop))
  | .stealCas oldTop p, .run _ =>
    if s.mTop = oldTop then some ({ s with mTop := oldTop + 1 }, .take p none)
    else some (s, .release none)
  | .claimLoad w, .run _ => some (s, .claimStore w s.mTasks)
  | .claimStore w tasks, .run _ => some (s.storeHp t (some tasks), .claimCheck w tasks)
  | .claimCheck w tasks, .run _ =>
    if s.mTasks = tasks then some (s, .get w tasks) else some (s, .claimLoad w)
  | .get w tasks, .run _ =>
    match w with
    | .pop newBottom oldTop =>
      if 0 < newBottom - oldTop then some (s, .take ((s.arrays tasks).get (toSize newBottom)) none)
      else some (s, .popCas oldTop ((s.arrays tasks).get (toSize newBottom)))
    | .steal oldTop => some (s, .stealCas oldTop ((s.arrays tasks).get (toSize oldTop)))
  | .take (some p) restore, .run _ =>
    match s.tasks p, restore with
    | some task, some oldTop => some (s.freeTask p, .popRestore oldTop (some task))
    | some task, none => some (s.freeTask p, .release (some task))
    | none, _ => none
  | .release ans, .run _ => some (s.storeHp t none, .returned ans)
  | .returned (some task), .run _ =>
    some ({ s with returned := s.returned ++ [task] }, .domain .ready)
  | .returned none, .run _ => some (s, .domain .ready)
  | _, _ => none

/-- One atomic step of thread `t`; only the owner calls `push` and `pop`. -/
def next (owner t : τ) (act : Act C P T) (s : Shared τ C P T) (pc : PC τ C P T) :
    Option (Shared τ C P T × PC τ C P T) :=
  match pc, act with
  | .domain .ready, .push task => if t = owner then some (s, .pushBottom task) else none
  | .domain .ready, .pop => if t = owner then some (s, .popBottom) else none
  | .domain .ready, .steal => some (s, .stealTop)
  | .domain .ready, .exit listFirst =>
    some (s, .domain (if listFirst then .exitList true else .exitOwner 1 true))
  | .domain f, .run ok =>
    match s.domainStep t ok f with
    | some (s', f') => some (s', .domain f')
    | none => none
  | .domain _, _ => none
  | pc, act =>
    match nextPush t act s pc with
    | some r => some r
    | none => nextPop t act s pc

attribute [elab_as_elim] nextPush.fun_cases_unfolding nextPop.fun_cases_unfolding
  next.fun_cases_unfolding

def program (owner : τ) : Program τ (Shared τ C P T) (PC τ C P T) (Act C P T) := ⟨next owner⟩

/-- One owner, and any threads that start, steal and exit. -/
def system (owner : τ) : System (Conf τ (Shared τ C P T) (PC τ C P T)) (τ × Act C P T) :=
  (program owner).system
    (fun s => ∃ a initialCapacity, 1 ≤ initialCapacity ∧ s = initial a initialCapacity)
    (.domain .unstarted)

end LockFreeLocalWorkQueue

end ConcurrencySandbox

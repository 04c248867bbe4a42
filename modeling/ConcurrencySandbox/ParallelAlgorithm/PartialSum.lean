import ConcurrencySandbox.Interleaving.System
import ConcurrencySandbox.ParallelAlgorithm.Partition

/-!
# parallel_partial_sum

Thread `t` runs `process` on block `t`; the last is the caller, who starts the others first, and
afterwards destroys `promises` and `futures` and joins `threads`. A `+=` may throw in its place, and
leaves the element as it was. `thrown` has what was thrown so.

Allocating and starting threads does not fail here.
-/

namespace ConcurrencySandbox

open Interleaving

namespace ParallelPartialSum

/-- What is caught: what a `+=` has thrown, or a `std::future_error`. -/
inductive Exn (ε : Type*)
  | thrown (e : ε)
  | futureError
deriving DecidableEq

/-- How the program stands. -/
inductive Fate
  | running
  /-- An exception has left the function of a thread. -/
  | terminated
  /-- A promise or future has been used that was destroyed. -/
  | undefined
deriving DecidableEq

structure State (α ε : Type*) where
  range : ℕ → α
  /-- What is in the shared state of `promises[i]` and `futures[i]`. -/
  results : ℕ → Option (Except (Exn ε) α)
  /-- `promises` and `futures` exist. -/
  promises : Bool
  futures : Bool
  /-- `threads.size()` -/
  threads : ℕ
  /-- The function of `threads[i]` has returned. -/
  finished : ℕ → Bool
  thrown : List ε
  fate : Fate

inductive Place (α ε : Type*)
  | unstarted
  -- the caller at its loop
  | launch (i : ℕ)
  -- process
  | sum (it : ℕ)
  | get
  | addLast (prevVal : α)
  | setValue (prevVal : α)
  | fix (prevVal : α) (first : ℕ)
  | handler (e : Exn ε)
  /-- `process` has returned, or thrown. -/
  | done (r : Option (Exn ε))
  -- the caller on its way out
  | dropFutures (r : Option (Exn ε))
  | join (r : Option (Exn ε)) (i : ℕ)
  | ended (r : Option (Exn ε))

inductive Act (ε : Type*)
  | run
  | throw (e : ε)

variable {α ε : Type*} {n : ℕ}

namespace State

variable (s : State α ε)

/-- `*i += v` -/
def add [Add α] (i : ℕ) (v : α) : State α ε :=
  { s with range := Function.update s.range i (s.range i + v) }

def raise (e : ε) : State α ε := { s with thrown := s.thrown ++ [e] }

/-- `promises[t].set_value` and `set_exception`, on a promise not satisfied. -/
def fulfil (t : ℕ) (r : Except (Exn ε) α) : State α ε :=
  { s with results := Function.update s.results t (some r) }

/-- `promises` is destroyed, with a broken promise for every result that was not set. -/
def dropPromises (promised : ℕ) : State α ε :=
  { s with
    promises := false
    results := fun i => if i < promised ∧ s.results i = none then some (.error .futureError)
      else s.results i }

end State

def initial (a : ℕ → α) : State α ε where
  range := a
  results := fun _ => none
  promises := true
  futures := true
  threads := 0
  finished := fun _ => false
  thrown := []
  fate := .running

section Steps

variable [Add α] [Inhabited α] (b : Blocks n)

/-- After `set_value`: the elements before the last, if there is a block before. -/
def afterValue (t : ℕ) (prevVal : α) : Place α ε :=
  if t = 0 then .done none else .fix prevVal (b.first t)

/-- `process`, on block `t`. -/
def process (t : ℕ) (act : Act ε) (s : State α ε) : Place α ε → Option (State α ε × Place α ε)
  | .sum it =>
    if it ≠ b.last t + 1 then
      match act with
      | .run => some (s.add it (s.range (it - 1)), .sum (it + 1))
      | .throw e => some (s.raise e, .handler (.thrown e))
    else
      match act with
      | .run => some (s, if t = 0 then .setValue default else .get)
      | .throw _ => none
  | .get =>
    match act with
    | .run =>
      if s.futures then
        match s.results (t - 1) with
        | some (.ok prevVal) => some (s, .addLast prevVal)
        | some (.error e) => some (s, .handler e)
        | none => none
      else some ({ s with fate := .undefined }, .get)
    | .throw _ => none
  | .addLast prevVal =>
    match act with
    | .run => some (s.add (b.last t) prevVal, .setValue prevVal)
    | .throw e => some (s.raise e, .handler (.thrown e))
  | .setValue prevVal =>
    match act with
    | .run =>
      if t + 1 < b.numThreads then
        if s.promises then
          if s.results t = none then
            some (s.fulfil t (.ok (s.range (b.last t))), afterValue b t prevVal)
          else some (s, .handler .futureError)
        else some ({ s with fate := .undefined }, .setValue prevVal)
      else some (s, afterValue b t prevVal)
    | .throw _ => none
  | .fix prevVal first =>
    if first ≠ b.last t then
      match act with
      | .run => some (s.add first prevVal, .fix prevVal (first + 1))
      | .throw e => some (s.raise e, .handler (.thrown e))
    else
      match act with
      | .run => some (s, .done none)
      | .throw _ => none
  | .handler e =>
    match act with
    | .run =>
      if t + 1 < b.numThreads then
        if s.promises then
          if s.results t = none then some (s.fulfil t (.error e), .done none)
          else some (s, .done (some .futureError))
        else some ({ s with fate := .undefined }, .handler e)
      else some (s, .done (some e))
    | .throw _ => none
  | _ => none

/-- The function of `threads[t]`, around `process`. -/
def thread (t : ℕ) (s : State α ε) : Place α ε → Option (State α ε × Place α ε)
  | .unstarted => if t < s.threads then some (s, .sum (b.first t + 1)) else none
  | .done none => some ({ s with finished := Function.update s.finished t true }, .ended none)
  | .done (some e) => some ({ s with fate := .terminated }, .done (some e))
  | _ => none

/-- The caller, before and after its own `process`. -/
def caller (t : ℕ) (s : State α ε) : Place α ε → Option (State α ε × Place α ε)
  | .unstarted => some (s, .launch 0)
  | .launch i =>
    if i + 1 < b.numThreads then some ({ s with threads := i + 1 }, .launch (i + 1))
    else some (s, .sum (b.first t + 1))
  | .done r => some (s.dropPromises (b.numThreads - 1), .dropFutures r)
  | .dropFutures r => some ({ s with futures := false }, .join r 0)
  | .join r i =>
    if i + 1 < b.numThreads then
      if s.finished i then some (s, .join r (i + 1)) else none
    else some (s, .ended r)
  | _ => none

/-- One atomic step of thread `t`. -/
def next (t : Fin b.numThreads) (act : Act ε) (s : State α ε) (p : Place α ε) :
    Option (State α ε × Place α ε) :=
  if s.fate = .running then
    match process b t act s p, act with
    | some r, _ => some r
    | none, .throw _ => none
    | none, .run => if t + 1 < b.numThreads then thread b t s p else caller b t s p
  else none

def program : Program (Fin b.numThreads) (State α ε) (Place α ε) (Act ε) := ⟨next b⟩

/-- The call, from where `threads`, `futures` and `promises` are there. -/
def system (a : ℕ → α) : System (Conf (Fin b.numThreads) (State α ε) (Place α ε))
    (Fin b.numThreads × Act ε) :=
  (program b).system (· = initial a) .unstarted

end Steps

end ParallelPartialSum

end ConcurrencySandbox

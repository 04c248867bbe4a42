import ConcurrencySandbox.Interleaving.System

/-!
# ThreadPool

The pools of `Misc/ThreadPool` with one type of local work queues. A thread is a worker of a pool or
comes from outside; it has a stack of what it is inside of, since a task may submit tasks, run
pending ones, and construct and destroy other pools. `sIndex` and `sLocalWorkQueue` are one for each
thread and for all pools of the type.

A queue is a list of tasks and an operation on it one step. With `lockFree` the local queues are
`LockFreeLocalWorkQueue`s: `pop` and `steal` may then come back without a task at any time, which
allows whatever such a queue does (`localQueue_simulates`), and their destructor deletes the array
and not the tasks.
-/

namespace ConcurrencySandbox

open Interleaving

namespace ThreadPool

inductive Stage
  | unborn
  | alive
  | dying
  | dead
  deriving DecidableEq

structure Pool (T : Type*) where
  mDone : Bool
  mGlobalWorkQueue : List T
  mLocalTasks : List (List T)
  -- mWorkerThreads: how many, and which of them have returned
  numThread : ℕ
  ended : ℕ → Bool
  stage : Stage

inductive Thread (τ P : Type*)
  | outside (t : τ)
  | worker (pool : P) (i : ℕ)
  deriving DecidableEq

structure Shared (τ P T : Type*) where
  pool : P → Pool T
  -- thread_local
  sIndex : Thread τ P → ℕ
  sLocalWorkQueue : Thread τ P → Option (P × ℕ)
  -- what has become of the tasks
  submitted : T → Option P
  invoked : List T
  finished : List T
  destroyed : List T
  leaked : List T

/-- What a thread is inside of. -/
inductive Frame (P T : Type*)
  | start
  -- work
  | loop
  -- what calls the pools: an outside thread, or a task that `runPendingTask` of a pool invokes
  | code (task : Option (P × T))
  -- submit
  | push (pool : P) (task : T)
  -- runPendingTask
  | fromLocal (pool : P)
  | fromGlobal (pool : P)
  | fromOther (pool : P) (i : ℕ)
  | invoke (pool : P) (task : T)
  -- ~ThreadPool
  | setDone (pool : P)
  | join (pool : P) (i : ℕ)
  | freeLocal (pool : P)
  | freeGlobal (pool : P)
  deriving DecidableEq

inductive Act (P T : Type*)
  | construct (pool : P) (numThread : ℕ)
  | submit (pool : P) (task : T)
  | runPendingTask (pool : P)
  | destroy (pool : P)
  | finish
  | run (ok : Bool)

variable {τ P T : Type*}

/-- A pool that `ThreadPool(numThread)` has made. -/
def Pool.make (numThread : ℕ) : Pool T :=
  ⟨false, [], List.replicate numThread [], numThread, fun _ => false, .alive⟩

/-- The end where the owner pushes is the front. -/
def pop (lockFree ok : Bool) : List T → Option (T × List T)
  | x :: queue => if lockFree && !ok then none else some (x, queue)
  | [] => none

def steal (lockFree ok : Bool) (queue : List T) : Option (T × List T) :=
  match queue.getLast? with
  | some x => if lockFree && !ok then none else some (x, queue.dropLast)
  | none => none

section Model

variable [DecidableEq τ] [DecidableEq P]

namespace Shared

variable (s : Shared τ P T)

def setPool (pool : P) (x : Pool T) : Shared τ P T :=
  { s with pool := Function.update s.pool pool x }

def setGlobal (pool : P) (queue : List T) : Shared τ P T :=
  s.setPool pool { s.pool pool with mGlobalWorkQueue := queue }

def localQueue (pool : P) (i : ℕ) : List T := (s.pool pool).mLocalTasks.getD i []

def setLocal (pool : P) (i : ℕ) (queue : List T) : Shared τ P T :=
  s.setPool pool { s.pool pool with mLocalTasks := (s.pool pool).mLocalTasks.set i queue }

/-- The beginning of `work`. -/
def setThreadLocal (t : Thread τ P) (pool : P) (i : ℕ) : Shared τ P T :=
  { s with
    sIndex := Function.update s.sIndex t i
    sLocalWorkQueue := Function.update s.sLocalWorkQueue t (some (pool, i)) }

/-- A worker thread returns. -/
def setEnded (pool : P) (i : ℕ) : Shared τ P T :=
  s.setPool pool { s.pool pool with ended := Function.update (s.pool pool).ended i true }

def setDone (pool : P) : Shared τ P T := s.setPool pool { s.pool pool with mDone := true }

def setStage (pool : P) (stage : Stage) : Shared τ P T :=
  s.setPool pool { s.pool pool with stage := stage }

/-- The destructors of the local queues. -/
def freeLocal (lockFree : Bool) (pool : P) : Shared τ P T :=
  let tasks := (s.pool pool).mLocalTasks.flatten
  { s.setPool pool { s.pool pool with mLocalTasks := [] } with
    destroyed := if lockFree then s.destroyed else tasks ++ s.destroyed
    leaked := if lockFree then tasks ++ s.leaked else s.leaked }

/-- The destructor of the global queue, the last of the pool. -/
def freeGlobal (pool : P) : Shared τ P T :=
  { s.setPool pool { s.pool pool with mGlobalWorkQueue := [], stage := .dead } with
    destroyed := (s.pool pool).mGlobalWorkQueue ++ s.destroyed }

end Shared

/-- One step of the innermost thing that thread `t` is inside of, and what comes in its place. -/
def nextRun (lockFree : Bool) (t : Thread τ P) (ok : Bool) (s : Shared τ P T) :
    Frame P T → Option (Shared τ P T × List (Frame P T))
  | .start =>
    match t with
    | .outside _ => some (s, [.code none])
    | .worker pool i =>
      if i < (s.pool pool).mLocalTasks.length then
        some (s.setThreadLocal t pool i, [.loop]) else none
  | .loop =>
    match t with
    | .outside _ => none
    | .worker pool i =>
      if (s.pool pool).mDone then some (s.setEnded pool i, [])
      else some (s, [.fromLocal pool, .loop])
  | .code _ => none
  | .push pool task =>
    match s.sLocalWorkQueue t with
    | some (q, i) => some (s.setLocal q i (task :: s.localQueue q i), [])
    | none => some (s.setGlobal pool ((s.pool pool).mGlobalWorkQueue ++ [task]), [])
  | .fromLocal pool =>
    match s.sLocalWorkQueue t with
    | some (q, i) =>
      match pop lockFree ok (s.localQueue q i) with
      | some (task, queue) => some (s.setLocal q i queue, [.invoke pool task])
      | none => some (s, [.fromGlobal pool])
    | none => some (s, [.fromGlobal pool])
  | .fromGlobal pool =>
    match (s.pool pool).mGlobalWorkQueue with
    | task :: queue => some (s.setGlobal pool queue, [.invoke pool task])
    | [] => some (s, [.fromOther pool 0])
  | .fromOther pool i =>
    if i < (s.pool pool).mLocalTasks.length then
      let j := (s.sIndex t + i + 1) % (s.pool pool).mLocalTasks.length
      match steal lockFree ok (s.localQueue pool j) with
      | some (task, queue) => some (s.setLocal pool j queue, [.invoke pool task])
      | none => some (s, [.fromOther pool (i + 1)])
    else some (s, [])
  | .invoke pool task => some ({ s with invoked := task :: s.invoked }, [.code (some (pool, task))])
  | .setDone pool => some (s.setDone pool, [.join pool 0])
  | .join pool i =>
    if i < (s.pool pool).numThread then
      if (s.pool pool).ended i then some (s, [.join pool (i + 1)]) else none
    else some (s, [.freeLocal pool])
  | .freeLocal pool => some (s.freeLocal lockFree pool, [.freeGlobal pool])
  | .freeGlobal pool => some (s.freeGlobal pool, [])

variable [DecidableEq T]

/-- One atomic step of thread `t`. A pool is constructed once, and a task submitted once. -/
def next (lockFree : Bool) (t : Thread τ P) (act : Act P T) (s : Shared τ P T)
    (p : List (Frame P T)) : Option (Shared τ P T × List (Frame P T)) :=
  match p, act with
  | .code task :: k, .construct pool numThread =>
    if (s.pool pool).stage = .unborn then
      some (s.setPool pool (.make numThread), .code task :: k)
    else none
  | .code task :: k, .submit pool x =>
    if s.submitted x = none then
      some ({ s with submitted := Function.update s.submitted x (some pool) },
        .push pool x :: .code task :: k)
    else none
  | .code task :: k, .runPendingTask pool => some (s, .fromLocal pool :: .code task :: k)
  | .code task :: k, .destroy pool =>
    if (s.pool pool).stage = .alive then
      some (s.setStage pool .dying, .setDone pool :: .code task :: k)
    else none
  | .code (some (_, x)) :: k, .finish => some ({ s with finished := x :: s.finished }, k)
  | frame :: k, .run ok => (nextRun lockFree t ok s frame).map fun r => (r.1, r.2 ++ k)
  | _, _ => none

attribute [elab_as_elim] nextRun.fun_cases_unfolding next.fun_cases_unfolding

def initial : Shared τ P T where
  pool := fun _ => ⟨false, [], [], 0, fun _ => false, .unborn⟩
  sIndex := fun _ => 0
  sLocalWorkQueue := fun _ => none
  submitted := fun _ => none
  invoked := []
  finished := []
  destroyed := []
  leaked := []

/-- Any number of pools, their workers and any other threads. -/
def system (lockFree : Bool) :
    System (Conf (Thread τ P) (Shared τ P T) (List (Frame P T))) (Thread τ P × Act P T) :=
  Program.system ⟨next lockFree⟩ (fun s => s = initial) [.start]

end Model

section Callers

def Thread.WorksFor (t : Thread τ P) (pool : P) : Prop := ∃ i, t = .worker pool i

/-- The pool of which a thread runs a member function. -/
def Frame.member : Frame P T → Option P
  | .push pool _ | .fromLocal pool | .fromGlobal pool | .fromOther pool _ | .invoke pool _
  | .code (some (pool, _)) => some pool
  | _ => none

/-- A pool is used while it is there, from the beginning of its destructor on only by its workers,
and it is destroyed when nobody else is inside one of its functions. -/
def InLifetime (c : Conf (Thread τ P) (Shared τ P T) (List (Frame P T)))
    (l : Thread τ P × Act P T) : Prop :=
  match l.2 with
  | .submit pool _ | .runPendingTask pool =>
    (c.shared.pool pool).stage = .alive ∨
      (c.shared.pool pool).stage = .dying ∧ l.1.WorksFor pool
  | .destroy pool => ¬ l.1.WorksFor pool ∧
    ∀ u, ¬ u.WorksFor pool → ∀ frame ∈ c.pc u, frame.member ≠ some pool
  | _ => True

/-- Whoever has a local queue submits to the pool it is of. -/
def SubmitsOwn (c : Conf (Thread τ P) (Shared τ P T) (List (Frame P T)))
    (l : Thread τ P × Act P T) : Prop :=
  ∀ pool x, l.2 = .submit pool x → ∀ q i, c.shared.sLocalWorkQueue l.1 = some (q, i) → q = pool

/-- Lock-free local queues are empty when they are destroyed. -/
def FreesEmpty (lockFree : Bool) (c : Conf (Thread τ P) (Shared τ P T) (List (Frame P T)))
    (l : Thread τ P × Act P T) : Prop :=
  lockFree = true → ∀ pool k, c.pc l.1 = .freeLocal pool :: k →
    ∀ queue ∈ (c.shared.pool pool).mLocalTasks, queue = []

end Callers

end ThreadPool

end ConcurrencySandbox

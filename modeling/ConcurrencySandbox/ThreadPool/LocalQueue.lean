import ConcurrencySandbox.LockFreeLocalWorkQueue.Deque
import ConcurrencySandbox.ThreadPool.Basic

/-!
# The lock-free local queues

An operation of a `LockFreeLocalWorkQueue` takes many steps, and does to the tasks what one of them
does, which is one step of the pool here: whatever the queue answers, a local queue that holds the
same tasks may answer it to the thread that asks, and holds the same tasks again
(`localQueue_simulates`).
-/

namespace ConcurrencySandbox

open Interleaving Structures

namespace ThreadPool

variable {τ P T : Type*} [DecidableEq τ] [DecidableEq P] {s : Shared τ P T} {t : Thread τ P} {q : P}
  {j : ℕ} {frame : Frame P T} {e : Deque.Event T} {l : List T}

/-- The thread calls the operation, on the local queue `j` of the pool `q`. -/
def Asks (s : Shared τ P T) (t : Thread τ P) (q : P) (j : ℕ) : Deque.Event T → Frame P T → Prop
  | .push x, .push _ task => x = task ∧ s.sLocalWorkQueue t = some (q, j)
  | .pop _, .fromLocal _ => s.sLocalWorkQueue t = some (q, j)
  | .steal _, .fromOther p i => p = q ∧ i < (s.pool p).mLocalTasks.length ∧
    (s.sIndex t + i + 1) % (s.pool p).mLocalTasks.length = j
  | _, _ => False

/-- What the thread goes on with when the queue has answered. -/
def goesOn : Deque.Event T → Frame P T → List (Frame P T)
  | .pop (some x), .fromLocal p | .steal (some x), .fromOther p _ => [.invoke p x]
  | .pop none, .fromLocal p => [.fromGlobal p]
  | .steal none, .fromOther p i => [.fromOther p (i + 1)]
  | _, _ => []

omit [DecidableEq τ] in
theorem setLocal_self (s : Shared τ P T) (p : P) (i : ℕ) :
    s.setLocal p i (s.localQueue p i) = s := by
  have hset : (s.pool p).mLocalTasks.set i (s.localQueue p i) = (s.pool p).mLocalTasks := by
    refine List.ext_getElem? fun k => ?_
    rw [List.getElem?_set]
    split_ifs with hik hi
    · subst hik
      simp [Shared.localQueue, hi]
    · subst hik
      exact (List.getElem?_eq_none (by omega)).symm
    · rfl
  simp [Shared.setLocal, Shared.setPool, hset]

/-- The pool has a step for every answer of a deque. -/
theorem nextRun_of_step (ha : Asks s t q j e frame)
    (h : Deque.Step e (s.localQueue q j).reverse l) :
    ∃ ok, nextRun true t ok s frame = some (s.setLocal q j l.reverse, goesOn e frame) := by
  have hself := setLocal_self s q j
  generalize hl : (s.localQueue q j).reverse = l₀ at h
  rw [List.reverse_eq_iff] at hl
  rw [hl] at hself
  unfold Asks at ha
  split at ha
  · obtain ⟨rfl, hlocal⟩ := ha
    cases h
    exact ⟨true, by simp [nextRun, hlocal, hl, goesOn]⟩
  · cases h with
    | pop v l => exact ⟨true, by simp [nextRun, ha, hl, pop, goesOn]⟩
    | empty =>
      rw [hself]
      exact ⟨true, by simp [nextRun, ha, hl, pop, goesOn]⟩
  · obtain ⟨rfl, hi, rfl⟩ := ha
    cases h with
    | steal v l => exact ⟨true, by simp [nextRun, hi, hl, steal, goesOn]⟩
    | fail l =>
      have hnone : steal true false l.reverse = none := by
        unfold steal
        cases l.reverse.getLast? <;> rfl
      rw [hself]
      exact ⟨false, by simp [nextRun, hi, hl, hnone, goesOn]⟩
  · exact ha.elim

/-- A step of a `LockFreeLocalWorkQueue` that does something to its tasks is one of the pool. -/
theorem localQueue_simulates {σ C A : Type*} [DecidableEq σ] [DecidableEq C] [DecidableEq A]
    {o : σ} {n i : ℕ} (r : (LockFreeLocalWorkQueue.system (τ := σ) (C := C) (P := A) (T := T) o).Run
      LockFreeLocalWorkQueue.Few n) (hi : i < n)
    (he : e ∈ LockFreeLocalWorkQueue.commit (r.state i).shared ((r.state i).pc (r.label i).1))
    (hs : LockFreeLocalWorkQueue.content o (r.state i) = (s.localQueue q j).reverse.map some)
    (ha : Asks s t q j e frame) :
    ∃ ok queue, nextRun true t ok s frame = some (s.setLocal q j queue, goesOn e frame) ∧
      LockFreeLocalWorkQueue.content o (r.state (i + 1)) = queue.reverse.map some := by
  obtain ⟨l, hl⟩ := LockFreeLocalWorkQueue.content_spec (r := r) hi
  have hsome : ∀ l : List T, (l.map some).reduceOption = l := fun l => by
    simp [List.reduceOption, List.filterMap_map]
  rcases LockFreeLocalWorkQueue.content_step (r := r) hi with ⟨hc, -⟩ | ⟨e', hc, hstep⟩
  · rw [hc] at he
    cases he
  · rw [hc, List.mem_singleton] at he
    subst he
    rw [hs, hl, hsome, hsome] at hstep
    obtain ⟨ok, hn⟩ := nextRun_of_step ha hstep
    exact ⟨ok, l.reverse, hn, by rw [hl, List.reverse_reverse]⟩

end ThreadPool

end ConcurrencySandbox

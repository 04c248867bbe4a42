import Mathlib.Data.Fintype.Sum
import ConcurrencySandbox.MCSQueueLock.Fifo
import ConcurrencySandbox.CLHQueueLock.Basic
import ConcurrencySandbox.ArrayQueueLock.Basic

/-!
# Instances of the queue locks

The node or slot of a thread is shared by all instances of its class. Instances are independent as
long as a thread that locks one holds no other (`instances_independent`). A thread that holds two
lends one of them its node twice, and lets a second thread into the other (`instances_interfere`).
-/

namespace ConcurrencySandbox

open Interleaving

namespace QueueLock

variable (τ I N : Type*) [DecidableEq τ] [DecidableEq I] [DecidableEq N]

theorem instances_independent :
    (∀ n, ∀ r : (CLHQueueLock.system τ I N).Run Unnested n,
      Independent CLHQueueLock.PC.phase r) ∧
    (∀ n, ∀ r : (MCSQueueLock.system τ I).Run Unnested n,
      Independent MCSQueueLock.PC.phase r) ∧
    ∀ [Fintype τ], Fintype.card τ ≤ 64 → ∀ n, ∀ r : (ArrayQueueLock.system τ I).Run Unnested n,
      Independent ArrayQueueLock.PC.phase r :=
  ⟨fun _ r => CLHQueueLock.queues.independent r, fun _ r => MCSQueueLock.queues.independent r,
    fun hcard _ r => (ArrayQueueLock.queues hcard).independent r⟩

/-- Two threads hold one instance each, in turn. -/
theorem instances_independent_two : ∃ r : (ArrayQueueLock.system (Fin 2) (Fin 2)).Run Unnested 12,
    Independent ArrayQueueLock.PC.phase r ∧
      ((r.state 12).pc 0).phase ArrayQueueLock.PC.phase 1 = .held ∧
      ((r.state 12).pc 1).phase ArrayQueueLock.PC.phase 0 = .held := by
  let as : List (Fin 2 × Call (Fin 2)) := [(0, .lock 0), (0, .run), (0, .run), (0, .unlock),
    (0, .run), (0, .run), (1, .lock 0), (1, .run), (1, .run), (0, .lock 1), (0, .run), (0, .run)]
  let c₀ : Conf (Fin 2) (ArrayQueueLock.Shared (Fin 2) (Fin 2)) (Place (Fin 2) ArrayQueueLock.PC) :=
    ⟨ArrayQueueLock.initial _ _, fun _ => .out []⟩
  have hex : ((ArrayQueueLock.system (Fin 2) (Fin 2)).execIf Unnested c₀ as).any (fun c =>
      (c.pc 0).phase ArrayQueueLock.PC.phase 1 = .held ∧
        (c.pc 1).phase ArrayQueueLock.PC.phase 0 = .held) = true := by
    decide +kernel
  have hinit : (ArrayQueueLock.system (Fin 2) (Fin 2)).init c₀ := ⟨rfl, rfl⟩
  obtain ⟨r, hheld⟩ := System.exists_run_any (0, .run) hinit hex
  exact ⟨r, (instances_independent (Fin 2) (Fin 2) ℕ).2.2 (by decide) _ r, of_decide_eq_true hheld⟩

/-- A thread locks `0` and `1`, and the other waits for `0`. Unlocking `1` lets it in. -/
theorem instances_interfere :
    (∃ n, ∃ r : (CLHQueueLock.system (Fin 2) (Fin 2) ℕ).Run (fun _ _ => True) n,
      ¬ Independent CLHQueueLock.PC.phase r) ∧
    (∃ n, ∃ r : (MCSQueueLock.system (Fin 2) (Fin 2)).Run (fun _ _ => True) n,
      ¬ Independent MCSQueueLock.PC.phase r) ∧
    ∃ n, ∃ r : (ArrayQueueLock.system (Fin 3) (Fin 2)).Run (fun _ _ => True) n,
      ¬ Independent ArrayQueueLock.PC.phase r := by
  refine ⟨?_, ?_, ?_⟩
  · refine not_independent (i := 0) (t := 0) (u := 1)
      (s := ⟨fun i => 2 + i, fun _ => false, fun t => t, fun _ => none⟩) CLHQueueLock.PC.phase ?_
      ([(0, .lock 0), (0, .run), (0, .run), (0, .run), (1, .lock 0), (1, .run), (1, .run),
        (0, .lock 1), (0, .run), (0, .run), (0, .run), (0, .unlock), (0, .run), (1, .run)])
      (by decide) (by decide +kernel)
    exact ⟨by decide, fun _ => rfl⟩
  · exact not_independent (i := 0) (t := 0) (u := 1) MCSQueueLock.PC.phase rfl
      ([(0, .lock 0), (0, .run), (0, .run), (0, .run), (0, .lock 1), (0, .run), (0, .run),
        (0, .run), (1, .lock 0), (1, .run), (1, .run), (1, .run), (1, .run), (0, .unlock),
        (0, .run), (0, .run), (0, .run), (0, .run), (0, .run), (1, .run)])
      (by decide) (by decide +kernel)
  · let lock (t : Fin 3) (i : Fin 2) : List (Fin 3 × Call (Fin 2)) :=
      [(t, .lock i), (t, .run), (t, .run)]
    let unlock (t : Fin 3) : List (Fin 3 × Call (Fin 2)) := [(t, .unlock), (t, .run), (t, .run)]
    exact not_independent (i := 0) (t := 0) (u := 2) ArrayQueueLock.PC.phase rfl
      (lock 0 0 ++ lock 0 1 ++ unlock 0 ++ lock 0 1 ++ unlock 0 ++ unlock 0 ++ lock 1 0 ++
        (List.replicate 61 (lock 0 0 ++ unlock 0)).flatten ++ lock 0 0 ++ lock 2 0)
      (by decide) (by decide +kernel)

end QueueLock

end ConcurrencySandbox

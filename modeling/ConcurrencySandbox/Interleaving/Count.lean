import Mathlib.Algebra.BigOperators.Fin
import Mathlib.Algebra.Order.BigOperators.Group.Finset

/-!
# Counting threads

`count w f` adds up a weight over all threads, as `f` places them. One thread's move changes the
sum by the difference of its two weights (`count_update`).
-/

namespace Interleaving

variable {τ pc : Type*} [Fintype τ]

/-- The total weight of the threads. -/
def count (w : pc → ℕ) (f : τ → pc) : ℕ := ∑ t, w (f t)

theorem le_count (w : pc → ℕ) (f : τ → pc) (t : τ) : w (f t) ≤ count w f :=
  Finset.single_le_sum (f := fun t => w (f t)) (fun _ _ => Nat.zero_le _) (Finset.mem_univ t)

/-- Threads of positive weight are no more than the total. -/
theorem card_le_count {w : pc → ℕ} {f : τ → pc} {k : Finset τ} (h : ∀ t ∈ k, 1 ≤ w (f t)) :
    k.card ≤ count w f :=
  calc k.card = ∑ _t ∈ k, 1 := Finset.card_eq_sum_ones k
    _ ≤ ∑ t ∈ k, w (f t) := Finset.sum_le_sum h
    _ ≤ count w f := Finset.sum_le_univ_sum_of_nonneg fun _ => Nat.zero_le _

/-- Only these threads have a weight, of at most 1. -/
theorem count_le_card {w : pc → ℕ} {f : τ → pc} {k : Finset τ} (h0 : ∀ t, t ∉ k → w (f t) = 0)
    (h1 : ∀ t, w (f t) ≤ 1) : count w f ≤ k.card :=
  calc count w f = ∑ t ∈ k, w (f t) :=
        (Finset.sum_subset (Finset.subset_univ k) fun t _ => h0 t).symm
    _ ≤ ∑ _t ∈ k, 1 := Finset.sum_le_sum fun t _ => h1 t
    _ = k.card := (Finset.card_eq_sum_ones k).symm

theorem count_congr {w w' : pc → ℕ} {f : τ → pc} (h : ∀ t, w (f t) = w' (f t)) :
    count w f = count w' f :=
  Finset.sum_congr rfl fun t _ => h t

theorem count_eq_card {w : pc → ℕ} {f : τ → pc} (h : ∀ t, w (f t) = 1) :
    count w f = Fintype.card τ := by
  simp [count, h]

theorem count_eq_zero {w : pc → ℕ} {f : τ → pc} : count w f = 0 ↔ ∀ t, w (f t) = 0 := by
  simp [count, Finset.sum_eq_zero_iff]

variable [DecidableEq τ]

theorem add_le_count (w : pc → ℕ) (f : τ → pc) {t u : τ} (htu : t ≠ u) :
    w (f t) + w (f u) ≤ count w f := by
  rw [count, ← Finset.add_sum_erase _ _ (Finset.mem_univ t)]
  refine Nat.add_le_add_left (Finset.single_le_sum (f := fun t => w (f t))
    (fun _ _ => Nat.zero_le _) (Finset.mem_erase.2 ⟨htu.symm, Finset.mem_univ u⟩)) _

theorem count_update (w : pc → ℕ) (f : τ → pc) (t : τ) (p : pc) :
    count w (Function.update f t p) + w (f t) = count w f + w p := by
  have h1 : count w f = w (f t) + ∑ u ∈ Finset.univ.erase t, w (f u) :=
    (Finset.add_sum_erase _ (fun u => w (f u)) (Finset.mem_univ t)).symm
  have h2 : count w (Function.update f t p)
      = w p + ∑ u ∈ Finset.univ.erase t, w (f u) := by
    rw [count, ← Finset.add_sum_erase _ _ (Finset.mem_univ t), Function.update_self]
    congr 1
    refine Finset.sum_congr rfl fun u hu => ?_
    rw [Function.update_of_ne (Finset.ne_of_mem_erase hu)]
  omega

end Interleaving

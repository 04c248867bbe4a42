import Mathlib.Algebra.Group.Basic
import Mathlib.Data.Nat.Init

/-!
# Sums of segments

`partialSum a k` adds up `a 0` to `a k`, and `segment a f l` adds up `a f` to `a l`, in a type that
need not have a zero.
-/

namespace Structures

variable {α : Type*}

def partialSum [Add α] (a : ℕ → α) : ℕ → α
  | 0 => a 0
  | k + 1 => partialSum a k + a (k + 1)

/-- From `a f` up to `a l`, for `f ≤ l`. -/
def segment [Add α] (a : ℕ → α) (f l : ℕ) : α := partialSum (fun i => a (f + i)) (l - f)

section Add

variable [Add α] (a : ℕ → α) {f l : ℕ}

theorem segment_zero : segment a 0 l = partialSum a l := by
  simp [segment]

theorem segment_self : segment a f f = a f := by
  simp [segment, partialSum]

theorem segment_succ (h : f ≤ l) : segment a f (l + 1) = segment a f l + a (l + 1) := by
  rw [segment, segment, Nat.succ_sub h, partialSum]
  exact congrArg _ (congrArg a (by omega))

end Add

/-- Two segments that meet. -/
theorem segment_trans [AddSemigroup α] (a : ℕ → α) {f m l : ℕ} (hf : f ≤ m) (hl : m + 1 ≤ l) :
    segment a f m + segment a (m + 1) l = segment a f l := by
  induction l, hl using Nat.le_induction with
  | base => rw [segment_self, segment_succ a hf]
  | succ l hl ih => rw [segment_succ a hl, segment_succ a (by omega), ← add_assoc, ih]

end Structures

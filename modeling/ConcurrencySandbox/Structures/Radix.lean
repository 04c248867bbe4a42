import Mathlib.Logic.Relation
import Mathlib.Tactic.Ring
import Mathlib.Tactic.Common

/-!
# Radix trees

A node of height `h` and width `w` covers `w ^ (h + 1)` consecutive indices. `Down` walks from a
node towards the leaf that holds an index, one digit at a time. The walk is deterministic, so an
index has at most one place (`Down.unique`); where every node has its first index (`Indexed`), a
place has at most one index (`Down.index`). Both survive a new link and a new root.
-/

namespace Structures

namespace Radix

variable {A : Type*}

/-- A place in the tree: a height, a node of that height and an index relative to it. -/
structure At (A : Type*) where
  height : ℕ
  node : A
  index : ℕ

variable (w : ℕ) (child : A → ℕ → Option A)

/-- One digit of the index selects the child. -/
def Step (p q : At A) : Prop :=
  p.height = q.height + 1 ∧ child p.node (p.index / w ^ p.height) = some q.node ∧
    q.index = p.index % w ^ p.height

def Down : At A → At A → Prop := Relation.ReflTransGen (Step w child)

/-- `start` is the first index a node covers, for the nodes of the tree. -/
def Indexed (height : A → ℕ) (start : A → Option ℕ) : Prop :=
  ∀ a i k b, start a = some i → child a k = some b →
    start b = some (i + k * w ^ height a) ∧ height a = height b + 1

variable {w child} {child' : A → ℕ → Option A} {p q r : At A} {height : A → ℕ}
  {start : A → Option ℕ}

theorem step_unique : Relator.RightUnique (Step w child) := by
  rintro ⟨h, a, i⟩ ⟨h₁, b₁, i₁⟩ ⟨h₂, b₂, i₂⟩ ⟨e1, c1, d1⟩ ⟨e2, c2, d2⟩
  simp only at e1 c1 d1 e2 c2 d2
  obtain rfl : b₁ = b₂ := Option.some.inj (c1.symm.trans c2)
  obtain rfl : h₁ = h₂ := by omega
  rw [d1, d2]

/-- An index has at most one place among the leaves. -/
theorem Down.unique (hq : Down w child p q) (hr : Down w child p r) (hq0 : q.height = 0)
    (hr0 : r.height = 0) : q = r := by
  rcases Relation.ReflTransGen.total_of_right_unique step_unique hq hr with h | h
  · rcases h.cases_head with rfl | ⟨_, hs, -⟩
    · rfl
    · have := hs.1
      omega
  · rcases h.cases_head with rfl | ⟨_, hs, -⟩
    · rfl
    · have := hs.1
      omega

/-- A walk among nodes that keep their links is still a walk. -/
theorem Down.mono {P : A → Prop} (h : Down w child p q) (hp : P p.node)
    (hc : ∀ a k b, P a → child a k = some b → P b ∧ child' a k = some b) :
    Down w child' p q := by
  have : Down w child' p q ∧ P q.node := by
    induction h with
    | refl => exact ⟨.refl, hp⟩
    | tail _ hs ih =>
      obtain ⟨h1, h2, h3⟩ := hs
      obtain ⟨hb, hc'⟩ := hc _ _ _ ih.2 h2
      exact ⟨ih.1.tail ⟨h1, hc', h3⟩, hb⟩
  exact this.1

theorem Down.height_le (h : Down w child p q) : q.height ≤ p.height := by
  induction h with
  | refl => exact le_rfl
  | tail _ hs ih =>
    have := hs.1
    omega

theorem Down.snoc (h : Down w child p q) {b : A} {k : ℕ} (hh : q.height = k + 1)
    (hc : child q.node (q.index / w ^ (k + 1)) = some b) :
    Down w child p ⟨k, b, q.index % w ^ (k + 1)⟩ :=
  Relation.ReflTransGen.tail h ⟨hh, hh ▸ hc, by rw [hh]⟩

/-- Walking down from a tree whose first child is the old root first finds the old root. -/
theorem Down.newRoot {a b : A} {h i : ℕ} (hd : Down w child ⟨h, a, i⟩ q)
    (hc : child b 0 = some a) (hi : i < w ^ (h + 1)) : Down w child ⟨h + 1, b, i⟩ q :=
  Relation.ReflTransGen.head
    ⟨rfl, by simpa [Nat.div_eq_of_lt hi] using hc, by simp [Nat.mod_eq_of_lt hi]⟩ hd

/-- The relative index stays in the range of the node. -/
theorem Down.lt (h : Down w child p q) (hw : 0 < w) (hp : p.index < w ^ (p.height + 1)) :
    q.index < w ^ (q.height + 1) := by
  induction h with
  | refl => exact hp
  | tail _ hs _ =>
    obtain ⟨h1, -, h3⟩ := hs
    rw [h3, ← h1]
    exact Nat.mod_lt _ (Nat.pow_pos hw)

/-- The digit of an index in the range of a node is below the width. -/
theorem digit_lt {h i : ℕ} (hi : i < w ^ (h + 1)) : i / w ^ h < w := by
  refine Nat.div_lt_of_lt_mul ?_
  rwa [pow_succ] at hi

/-- Walking down keeps the first index of the node plus the relative index. -/
theorem Down.index (h : Down w child p q) (hI : Indexed w child height start)
    (hp : p.height = height p.node) {i : ℕ} (hs : start p.node = some i) :
    q.height = height q.node ∧ ∃ j, start q.node = some j ∧ j + q.index = i + p.index := by
  induction h with
  | refl => exact ⟨hp, i, hs, rfl⟩
  | tail _ hst ih =>
    obtain ⟨hb, j, hj, hsum⟩ := ih
    obtain ⟨h1, h2, h3⟩ := hst
    obtain ⟨hk, hh⟩ := hI _ _ _ _ hj h2
    refine ⟨by omega, _, hk, ?_⟩
    rw [h3, ← hsum, ← hb, add_assoc, Nat.div_add_mod']

end Radix

end Structures

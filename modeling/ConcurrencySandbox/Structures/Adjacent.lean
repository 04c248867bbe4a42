import Mathlib.Data.List.Nodup
import Mathlib.Data.List.Basic

/-!
# Neighbours in a list

`Adjacent l x y`: `y` comes right after `x`. In a list without repetition a member has one neighbour
on either side, the first and the last none on theirs.
-/

namespace Structures

variable {A : Type*} {l : List A} {x y z : A}

/-- `y` comes right after `x`. -/
def Adjacent (l : List A) (x y : A) : Prop := [x, y] <:+: l

theorem Adjacent.mem (h : Adjacent l x y) : x ∈ l ∧ y ∈ l :=
  ⟨h.subset (by simp), h.subset (by simp)⟩

@[simp] theorem not_adjacent_nil : ¬ Adjacent [] x y := fun h => by cases h.mem.1

theorem adjacent_cons : Adjacent (z :: l) x y ↔ x = z ∧ l.head? = some y ∨ Adjacent l x y := by
  unfold Adjacent
  rw [List.infix_cons_iff, List.cons_prefix_cons]
  refine or_congr_left (and_congr_right fun _ => ?_)
  cases l with
  | nil => simp
  | cons a l => simp [eq_comm]

theorem adjacent_concat :
    Adjacent (l ++ [z]) x y ↔ Adjacent l x y ∨ l.getLast? = some x ∧ y = z := by
  induction l with
  | nil => simp [adjacent_cons]
  | cons a l ih =>
    rw [List.cons_append, adjacent_cons, adjacent_cons, ih]
    cases l with
    | nil => simp [eq_comm]
    | cons b l => simp [or_assoc]

theorem adjacent_append {r : List A} : Adjacent (l ++ r) x y ↔
    Adjacent l x y ∨ Adjacent r x y ∨ l.getLast? = some x ∧ r.head? = some y := by
  induction l with
  | nil => simp
  | cons a l ih =>
    rw [List.cons_append, adjacent_cons, adjacent_cons, ih]
    cases l with
    | nil => simp [eq_comm, or_comm]
    | cons b l =>
      simp only [List.cons_append, List.head?_cons, List.getLast?_cons_cons]
      tauto

/-- Of several lists, one loses its first element: no two elements become neighbours. -/
theorem Adjacent.of_update {I : Type*} [DecidableEq I] {f : I → List A} {i j : I}
    (hf : f i = z :: l) (h : Adjacent (Function.update f i l j) x y) : Adjacent (f j) x y := by
  rcases eq_or_ne j i with rfl | hji
  · rw [Function.update_self] at h
    rw [hf]
    exact adjacent_cons.2 (.inr h)
  · rwa [Function.update_of_ne hji] at h

theorem exists_adjacent_left (h : y ∈ l) (hy : l.head? ≠ some y) : ∃ x, Adjacent l x y := by
  induction l with
  | nil => cases h
  | cons a l ih =>
    rcases List.mem_cons.1 h with rfl | h
    · exact absurd rfl hy
    · by_cases hl : l.head? = some y
      · exact ⟨a, adjacent_cons.2 (.inl ⟨rfl, hl⟩)⟩
      · obtain ⟨x, hx⟩ := ih h hl
        exact ⟨x, adjacent_cons.2 (.inr hx)⟩

theorem exists_adjacent_right (h : x ∈ l) (hx : l.getLast? ≠ some x) : ∃ y, Adjacent l x y := by
  induction l with
  | nil => cases h
  | cons a l ih =>
    cases l with
    | nil =>
      obtain rfl := List.mem_singleton.1 h
      exact absurd rfl hx
    | cons b l =>
      rcases List.mem_cons.1 h with rfl | h
      · exact ⟨b, adjacent_cons.2 (.inl ⟨rfl, rfl⟩)⟩
      · obtain ⟨y, hy⟩ := ih h (by simpa using hx)
        exact ⟨y, adjacent_cons.2 (.inr hy)⟩

/-- What is left when a member is taken out. -/
theorem Adjacent.cut {r : List A} (h : Adjacent (l ++ z :: r) x y) (hx : x ≠ z) (hy : y ≠ z) :
    Adjacent (l ++ r) x y := by
  rw [adjacent_append, adjacent_cons] at h
  rw [adjacent_append]
  rcases h with h | (⟨h, -⟩ | h) | ⟨-, h⟩
  · exact .inl h
  · exact absurd h hx
  · exact .inr (.inl h)
  · exact absurd (Option.some.inj h).symm hy

section Nodup

variable (hl : l.Nodup)
include hl

theorem Adjacent.ne_head (h : Adjacent l x y) : l.head? ≠ some y := by
  intro hy
  cases l with
  | nil => cases hy
  | cons a l =>
    obtain rfl : a = y := Option.some.inj hy
    have ha := (List.nodup_cons.1 hl).1
    rcases adjacent_cons.1 h with ⟨-, hy⟩ | h
    · exact ha (List.mem_of_head? hy)
    · exact ha h.mem.2

theorem Adjacent.ne_last (h : Adjacent l x y) : l.getLast? ≠ some x := by
  induction l with
  | nil => simp at h
  | cons a l ih =>
    obtain ⟨ha, hnd⟩ := List.nodup_cons.1 hl
    cases l with
    | nil => simp [adjacent_cons] at h
    | cons b l =>
      rw [List.getLast?_cons_cons]
      rcases adjacent_cons.1 h with ⟨rfl, -⟩ | h
      · exact fun hx => ha (List.mem_of_getLast? hx)
      · exact ih hnd h

theorem Adjacent.left_unique (h : Adjacent l x z) (h' : Adjacent l y z) : x = y := by
  induction l with
  | nil => simp at h
  | cons a l ih =>
    have hnd := (List.nodup_cons.1 hl).2
    rcases adjacent_cons.1 h with ⟨rfl, h1⟩ | h1 <;> rcases adjacent_cons.1 h' with ⟨rfl, h2⟩ | h2
    · rfl
    · exact absurd h1 (h2.ne_head hnd)
    · exact absurd h2 (h1.ne_head hnd)
    · exact ih hnd h1 h2

theorem Adjacent.right_unique (h : Adjacent l x y) (h' : Adjacent l x z) : y = z := by
  induction l with
  | nil => simp at h
  | cons a l ih =>
    obtain ⟨ha, hnd⟩ := List.nodup_cons.1 hl
    rcases adjacent_cons.1 h with ⟨rfl, h1⟩ | h1 <;> rcases adjacent_cons.1 h' with ⟨h3, h2⟩ | h2
    · exact Option.some.inj (h1.symm.trans h2)
    · exact absurd h2.mem.1 ha
    · exact absurd h1.mem.1 (h3 ▸ ha)
    · exact ih hnd h1 h2

end Nodup

end Structures

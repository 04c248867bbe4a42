import Mathlib.Data.List.Nodup
import Mathlib.Data.List.Basic

/-!
# Positions in a list

`Precedes l x y`: the list has `x` somewhere before `y`. In a list without repetition this tells
what stands on either side of a node (`precedes_left_iff`, `precedes_right_iff`).
-/

namespace Structures

variable {A : Type*} {l r : List A} {x y z : A}

/-- The list has `x` somewhere before `y`. -/
def Precedes (l : List A) (x y : A) : Prop := [x, y].Sublist l

theorem Precedes.mono (h : Precedes l x y) (hl : l.Sublist r) : Precedes r x y :=
  List.Sublist.trans h hl

theorem Precedes.mem (h : Precedes l x y) : x ∈ l ∧ y ∈ l :=
  ⟨List.Sublist.subset h (by simp), List.Sublist.subset h (by simp)⟩

theorem pairwise_iff_precedes {R : A → A → Prop} :
    l.Pairwise R ↔ ∀ x y, Precedes l x y → R x y := by
  rw [List.pairwise_iff_forall_sublist]
  exact ⟨fun h x y => h, fun h x y => h x y⟩

@[simp] theorem precedes_nil : ¬ Precedes [] x y := fun h => by cases h.mem.1

theorem precedes_cons : Precedes (z :: l) x y ↔ Precedes l x y ∨ x = z ∧ y ∈ l := by
  simp [Precedes, List.cons_sublist_cons']

theorem precedes_append :
    Precedes (l ++ r) x y ↔ Precedes l x y ∨ Precedes r x y ∨ x ∈ l ∧ y ∈ r := by
  induction l with
  | nil => simp
  | cons z l ih =>
    rw [List.cons_append, precedes_cons, precedes_cons, ih, List.mem_append, List.mem_cons]
    tauto

theorem precedes_total (hx : x ∈ l) (hy : y ∈ l) : x = y ∨ Precedes l x y ∨ Precedes l y x := by
  obtain ⟨l, r, rfl⟩ := List.append_of_mem hx
  rw [precedes_append, precedes_append, precedes_cons, precedes_cons]
  rw [List.mem_append, List.mem_cons] at hy
  rcases hy with hy | rfl | hy
  · exact .inr (.inr (.inr (.inr ⟨hy, List.mem_cons_self⟩)))
  · exact .inl rfl
  · exact .inr (.inl (.inr (.inl (.inr ⟨rfl, hy⟩))))

variable (h : (l ++ z :: r).Nodup)
include h

/-- What comes after a node. -/
theorem precedes_left_iff : Precedes (l ++ z :: r) z y ↔ y ∈ r := by
  simp only [List.nodup_append, List.nodup_cons] at h
  obtain ⟨-, ⟨hr, -⟩, hdis⟩ := h
  have hl : z ∉ l := fun hm => hdis z hm z List.mem_cons_self rfl
  rw [precedes_append, precedes_cons]
  have h1 : ¬ Precedes l z y := fun hp => hl hp.mem.1
  have h2 : ¬ Precedes r z y := fun hp => hr hp.mem.1
  tauto

/-- What comes before a node. -/
theorem precedes_right_iff : Precedes (l ++ z :: r) x z ↔ x ∈ l := by
  simp only [List.nodup_append, List.nodup_cons] at h
  obtain ⟨-, ⟨hr, -⟩, hdis⟩ := h
  have hl : z ∉ l := fun hm => hdis z hm z List.mem_cons_self rfl
  rw [precedes_append, precedes_cons]
  have h1 : ¬ Precedes l x z := fun hp => hl hp.mem.2
  have h2 : ¬ Precedes r x z := fun hp => hr hp.mem.2
  simp [h1, h2, hr]

end Structures

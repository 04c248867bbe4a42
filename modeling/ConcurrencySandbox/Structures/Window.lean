import Mathlib.Data.List.Basic

/-!
# Windows of cells

`Window cell i q`: the cells from index `i` on hold the elements `q`, in order. Cells that share an
index modulo a capacity are apart inside a window no longer than the capacity (`mod_ne`).
-/

namespace Structures

variable {α : Type*}

def Window (cell : ℕ → Option α) : ℕ → List α → Prop
  | _, [] => True
  | i, x :: q => cell i = some x ∧ Window cell (i + 1) q

namespace Window

variable {cell cell' : ℕ → Option α} {i k : ℕ} {x : α} {q r : List α}

@[simp] theorem nil : Window cell i [] := trivial

@[simp] theorem cons_iff :
    Window cell i (x :: q) ↔ cell i = some x ∧ Window cell (i + 1) q := Iff.rfl

theorem append_iff : ∀ {i : ℕ} {q : List α},
    Window cell i (q ++ r) ↔ Window cell i q ∧ Window cell (i + q.length) r
  | i, [] => by simp
  | i, x :: q => by
    simp only [List.cons_append, cons_iff, append_iff (q := q), List.length_cons, and_assoc]
    rw [show i + 1 + q.length = i + (q.length + 1) by omega]

theorem snoc_iff : Window cell i (q ++ [x]) ↔ Window cell i q ∧ cell (i + q.length) = some x := by
  simp [append_iff]

theorem congr : ∀ {i : ℕ} {q : List α}, Window cell i q →
    (∀ k, i ≤ k → k < i + q.length → cell' k = cell k) → Window cell' i q
  | _, [], _, _ => trivial
  | i, x :: q, h, hc => by
    refine ⟨(hc i (Nat.le_refl i) (by simp)).trans h.1, congr h.2 fun k h1 h2 => hc k (by omega) ?_⟩
    rw [List.length_cons]
    omega

theorem exists_mem (h : Window cell i q) (hk : i ≤ k ∧ k < i + q.length) :
    ∃ x ∈ q, cell k = some x := by
  obtain ⟨l₁, x, l₂, rfl, hl⟩ : ∃ l₁ x l₂, q = l₁ ++ x :: l₂ ∧ i + l₁.length = k := by
    have hd : k - i < q.length := by omega
    refine ⟨q.take (k - i), q[k - i], q.drop (k - i + 1), ?_, ?_⟩
    · rw [← List.drop_eq_getElem_cons hd, List.take_append_drop]
    · rw [List.length_take]
      omega
  rw [append_iff, cons_iff, hl] at h
  exact ⟨x, List.mem_append_right _ List.mem_cons_self, h.2.1⟩

theorem map_range : ∀ {i : ℕ} {q : List α}, Window cell i q →
    (List.range q.length).map (fun k => cell (i + k)) = q.map some
  | _, [], _ => rfl
  | i, x :: q, h => by
    have hq := map_range h.2
    rw [List.length_cons, List.range_succ_eq_map, List.map_cons, List.map_cons, List.map_map]
    refine congrArg₂ _ h.1 (Eq.trans (List.map_congr_left fun k _ => ?_) hq)
    simp only [Function.comp]
    rw [show i + (k + 1) = i + 1 + k by omega]

theorem unique : ∀ {i : ℕ} {q r : List α}, Window cell i q → Window cell i r →
    q.length = r.length → q = r
  | _, [], [], _, _, _ => rfl
  | _, x :: q, y :: r, h, h', hl => by
    obtain rfl : x = y := Option.some.inj (h.1.symm.trans h'.1)
    rw [h.2.unique h'.2 (Nat.succ.inj hl)]

theorem drop (h : Window cell i q) {d : ℕ} (hd : d ≤ q.length) :
    Window cell (i + d) (q.drop d) := by
  rw [← List.take_append_drop d q, append_iff, List.length_take, Nat.min_eq_left hd] at h
  exact h.2

end Window

/-- Two indices less than `n` apart are different modulo `n`. -/
theorem mod_ne {i j n : ℕ} (h1 : i < j) (h2 : j < i + n) : i % n ≠ j % n := by
  intro h
  have hd := Nat.sub_mod_eq_zero_of_mod_eq h.symm
  rw [Nat.mod_eq_of_lt (by omega)] at hd
  omega

end Structures

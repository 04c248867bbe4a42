import Mathlib.Data.List.Perm.Basic
import Mathlib.Logic.Function.Basic

/-!
# Custody

What is kept in several places, each thing in one of them and there once. Things move between two
places (`Custody.transfer`), come in where they are new (`Custody.add`) and leave (`Custody.drop`),
or whole places are emptied (`Custody.clear`).
-/

namespace Structures

variable {P N : Type*}

/-- No place has a thing twice, and no two places have the same. -/
structure Custody (c : P → List N) : Prop where
  nodup : ∀ p, (c p).Nodup
  eq : ∀ {p q n}, n ∈ c p → n ∈ c q → p = q

/-- What is in one of these places. -/
def Kept (D : P → Prop) (c : P → List N) (n : N) : Prop := ∃ p, D p ∧ n ∈ c p

/-- The same contents, but for two places. -/
def put [DecidableEq P] (c : P → List N) (p q : P) (l l' : List N) : P → List N :=
  Function.update (Function.update c p l) q l'

section Put

variable [DecidableEq P] {c : P → List N} {p q r : P} {l l' : List N}

theorem put_left (hpq : p ≠ q) : put c p q l l' p = l := by
  rw [put, Function.update_of_ne hpq, Function.update_self]

theorem put_right : put c p q l l' q = l' := Function.update_self ..

theorem put_other (hp : r ≠ p) (hq : r ≠ q) : put c p q l l' r = c r := by
  rw [put, Function.update_of_ne hq, Function.update_of_ne hp]

end Put

namespace Custody

variable {D : P → Prop} {c c' : P → List N} {p q r : P} {l : List N} {n : N}

theorem kept_transfer (hD : D p ↔ D q) (hl : (c' p ++ c' q).Perm (c p ++ c q))
    (hout : ∀ r, r ≠ p → r ≠ q → c' r = c r) : Kept D c' n ↔ Kept D c n := by
  -- one direction, for either side
  have hsub : ∀ {c c' : P → List N}, (c' p ++ c' q).Perm (c p ++ c q) →
      (∀ r, r ≠ p → r ≠ q → c' r = c r) → Kept D c' n → Kept D c n := by
    rintro c c' hl hout ⟨r, hDr, hr⟩
    by_cases hrpq : r = p ∨ r = q
    · have hm : D p ∧ n ∈ c p ++ c q := by
        rw [← hl.mem_iff, List.mem_append]
        rcases hrpq with rfl | rfl
        · exact ⟨hDr, .inl hr⟩
        · exact ⟨hD.2 hDr, .inr hr⟩
      rcases List.mem_append.1 hm.2 with h | h
      · exact ⟨p, hm.1, h⟩
      · exact ⟨q, hD.1 hm.1, h⟩
    · rw [not_or] at hrpq
      exact ⟨r, hDr, hout r hrpq.1 hrpq.2 ▸ hr⟩
  exact ⟨hsub hl hout, hsub hl.symm fun r hp hq => (hout r hp hq).symm⟩

/-- From a place that does not count, one thing moves to one that does. -/
theorem kept_enter (hp : ¬ D p) (hq : D q) (hl : c' q = n :: c q)
    (hout : ∀ r, r ≠ p → r ≠ q → c' r = c r) (m : N) : Kept D c' m ↔ m = n ∨ Kept D c m := by
  constructor
  · rintro ⟨r, hDr, hr⟩
    by_cases hrq : r = q
    · rw [hrq, hl, List.mem_cons] at hr
      exact hr.imp id fun h => ⟨q, hq, h⟩
    · have hrp : r ≠ p := fun he => hp (he ▸ hDr)
      exact .inr ⟨r, hDr, hout r hrp hrq ▸ hr⟩
  · rintro (rfl | ⟨r, hDr, hr⟩)
    · exact ⟨q, hq, hl ▸ List.mem_cons_self⟩
    · by_cases hrq : r = q
      · exact ⟨q, hq, hl ▸ List.mem_cons_of_mem _ (hrq ▸ hr)⟩
      · have hrp : r ≠ p := fun he => hp (he ▸ hDr)
        exact ⟨r, hDr, (hout r hrp hrq).symm ▸ hr⟩

/-- What two places have is shared out anew between them. -/
theorem transfer (h : Custody c) (hpq : p ≠ q) (hl : (c' p ++ c' q).Perm (c p ++ c q))
    (hout : ∀ r, r ≠ p → r ≠ q → c' r = c r) : Custody c' := by
  have hnd : (c' p ++ c' q).Nodup := by
    rw [hl.nodup_iff, List.nodup_append]
    exact ⟨h.nodup p, h.nodup q, fun a ha b hb hab => hpq (h.eq ha (hab ▸ hb))⟩
  rw [List.nodup_append] at hnd
  -- what one of the two has now, one of them has had
  have hin : ∀ {r n}, n ∈ c' r → r = p ∨ r = q → n ∈ c p ∨ n ∈ c q := fun hn hr => by
    rw [← List.mem_append, ← hl.mem_iff, List.mem_append]
    rcases hr with rfl | rfl
    · exact .inl hn
    · exact .inr hn
  have hsep : ∀ {r n}, n ∈ c p ∨ n ∈ c q → n ∈ c r → r = p ∨ r = q := fun hn hr =>
    hn.imp (fun h' => h.eq hr h') fun h' => h.eq hr h'
  refine ⟨fun r => ?_, fun {r r' n} hr hr' => ?_⟩
  · by_cases hp : r = p
    · exact hp ▸ hnd.1
    · by_cases hq : r = q
      · exact hq ▸ hnd.2.1
      · exact hout r hp hq ▸ h.nodup r
  · by_cases h1 : r = p ∨ r = q <;> by_cases h2 : r' = p ∨ r' = q
    · rcases h1 with rfl | rfl <;> rcases h2 with rfl | rfl
      · rfl
      · exact absurd rfl (hnd.2.2 n hr n hr')
      · exact absurd rfl (hnd.2.2 n hr' n hr)
      · rfl
    · rw [not_or] at h2
      rw [hout r' h2.1 h2.2] at hr'
      exact absurd (hsep (hin hr h1) hr') (not_or.2 h2)
    · rw [not_or] at h1
      rw [hout r h1.1 h1.2] at hr
      exact absurd (hsep (hin hr' h2) hr) (not_or.2 h1)
    · rw [not_or] at h1 h2
      exact h.eq (hout r h1.1 h1.2 ▸ hr) (hout r' h2.1 h2.2 ▸ hr')

/-- Some places are emptied. -/
theorem clear (h : Custody c) (hD : ∀ p, D p → c' p = []) (hout : ∀ p, ¬ D p → c' p = c p) :
    Custody c' ∧ ∀ n, Kept (fun _ => True) c' n ↔ Kept (fun _ => True) c n ∧ ¬ Kept D c n := by
  have hmem : ∀ {p n}, n ∈ c' p ↔ ¬ D p ∧ n ∈ c p := fun {p n} => by
    by_cases hp : D p
    · simp [hD p hp, hp]
    · simp [hout p hp, hp]
  refine ⟨⟨fun p => ?_, fun hp hq => h.eq (hmem.1 hp).2 (hmem.1 hq).2⟩, fun n => ?_⟩
  · by_cases hp : D p
    · rw [hD p hp]
      exact List.nodup_nil
    · rw [hout p hp]
      exact h.nodup p
  · constructor
    · rintro ⟨p, -, hp⟩
      obtain ⟨h1, h2⟩ := hmem.1 hp
      refine ⟨⟨p, trivial, h2⟩, ?_⟩
      rintro ⟨q, hq, h3⟩
      exact h1 (h.eq h3 h2 ▸ hq)
    · rintro ⟨⟨p, -, hp⟩, hn⟩
      exact ⟨p, trivial, hmem.2 ⟨fun hD => hn ⟨p, hD, hp⟩, hp⟩⟩

variable [DecidableEq P]

/-- A new thing comes in. -/
theorem add (h : Custody c) (hn : ∀ q, n ∉ c q) :
    Custody (Function.update c p (n :: c p)) ∧
      ∀ D m, Kept D (Function.update c p (n :: c p)) m ↔ m = n ∧ D p ∨ Kept D c m := by
  have hmem : ∀ {q m}, m ∈ Function.update c p (n :: c p) q ↔ m ∈ c q ∨ m = n ∧ q = p :=
    fun {q m} => by
      by_cases hq : q = p
      · subst hq
        rw [Function.update_self, List.mem_cons]
        tauto
      · rw [Function.update_of_ne hq]
        tauto
  refine ⟨⟨fun q => ?_, fun {q r m} hq hr => ?_⟩, fun D m => ?_⟩
  · by_cases hq : q = p
    · subst hq
      rw [Function.update_self]
      exact List.nodup_cons.2 ⟨hn q, h.nodup q⟩
    · rw [Function.update_of_ne hq]
      exact h.nodup q
  · rcases hmem.1 hq with hq | ⟨rfl, rfl⟩ <;> rcases hmem.1 hr with hr | ⟨h1, h2⟩
    · exact h.eq hq hr
    · exact absurd (h1 ▸ hq) (hn q)
    · exact absurd hr (hn r)
    · exact h2.symm
  · constructor
    · rintro ⟨q, hD, hq⟩
      rcases hmem.1 hq with hq | ⟨rfl, rfl⟩
      · exact .inr ⟨q, hD, hq⟩
      · exact .inl ⟨rfl, hD⟩
    · rintro (⟨rfl, hD⟩ | ⟨q, hD, hq⟩)
      · exact ⟨p, hD, hmem.2 (.inr ⟨rfl, rfl⟩)⟩
      · exact ⟨q, hD, hmem.2 (.inl hq)⟩

/-- The first thing of a place leaves. -/
theorem drop (h : Custody c) (hl : c p = n :: l) :
    Custody (Function.update c p l) ∧
      ∀ D m, Kept D (Function.update c p l) m ↔ Kept D c m ∧ m ≠ n := by
  have hmem : ∀ {q m}, m ∈ Function.update c p l q ↔ m ∈ c q ∧ m ≠ n := fun {q m} => by
    have hnd := hl ▸ h.nodup p
    rw [List.nodup_cons] at hnd
    by_cases hq : q = p
    · subst hq
      rw [Function.update_self, hl, List.mem_cons]
      constructor
      · exact fun hm => ⟨.inr hm, fun he => hnd.1 (he ▸ hm)⟩
      · exact fun hm => hm.1.resolve_left hm.2
    · rw [Function.update_of_ne hq]
      refine ⟨fun hm => ⟨hm, fun he => ?_⟩, fun hm => hm.1⟩
      exact hq (h.eq hm (he ▸ hl ▸ List.mem_cons_self))
  refine ⟨⟨fun q => ?_, fun hq hr => h.eq (hmem.1 hq).1 (hmem.1 hr).1⟩, fun D m => ?_⟩
  · by_cases hq : q = p
    · subst hq
      rw [Function.update_self]
      exact (List.nodup_cons.1 (hl ▸ h.nodup q)).2
    · rw [Function.update_of_ne hq]
      exact h.nodup q
  · constructor
    · rintro ⟨q, hD, hq⟩
      exact ⟨⟨q, hD, (hmem.1 hq).1⟩, (hmem.1 hq).2⟩
    · rintro ⟨⟨q, hD, hq⟩, hne⟩
      exact ⟨q, hD, hmem.2 ⟨hq, hne⟩⟩

end Custody

end Structures

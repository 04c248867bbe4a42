import Mathlib.Logic.Function.Basic
import Mathlib.Data.List.Basic
import Mathlib.Data.List.Nodup
import Mathlib.Logic.Relation
import ConcurrencySandbox.Structures.Precedes

/-!
# Chains of linked nodes

`Seg next a q b`: following `next` from `a` passes the nodes `q` and then stands at `b`. A chain
that runs out has no node twice (`Seg.nodup`), and changing the link of a node outside it leaves
it as it is (`Seg.update`).
-/

namespace Structures

variable {A : Type*}

/-- Following `next` from one node leads to another. -/
def Reaches (next : A → Option A) : A → A → Prop := Relation.ReflTransGen fun x y => next x = some y

/-- The first nodes from `x` on, at most `n + 1`. -/
def walk (next : A → Option A) : ℕ → A → List A
  | 0, x => [x]
  | n + 1, x => x :: (next x).elim [] (walk next n)

theorem reaches_of_mem_walk {next : A → Option A} {n : ℕ} {x y : A} (h : y ∈ walk next n x) :
    Reaches next x y := by
  induction n generalizing x with
  | zero => exact List.mem_singleton.1 h ▸ .refl
  | succ n ih =>
    rcases List.mem_cons.1 h with rfl | h
    · exact .refl
    · cases hn : next x with
      | none => simp [hn] at h
      | some z =>
        rw [hn] at h
        exact .head hn (ih h)

/-- At most `n + 1` nodes follow from `x` on. -/
def ends (next : A → Option A) : ℕ → A → Bool
  | 0, x => (next x).isNone
  | n + 1, x => (next x).elim true (ends next n)

theorem mem_walk_of_reaches {next : A → Option A} {n : ℕ} {x y : A} (he : ends next n x = true)
    (h : Reaches next x y) : y ∈ walk next n x := by
  induction n generalizing x with
  | zero =>
    rcases h.cases_head with rfl | ⟨z, hz, -⟩
    · exact List.mem_singleton_self _
    · simp [ends, hz] at he
  | succ n ih =>
    rcases h.cases_head with rfl | ⟨z, hz, h⟩
    · exact List.mem_cons_self
    · rw [ends, hz] at he
      refine List.mem_cons_of_mem _ ?_
      rw [hz]
      exact ih he h

/-- Following `next` from `a` passes the nodes `q`, in order, and then stands at `b`. -/
def Seg (next : A → Option A) : Option A → List A → Option A → Prop
  | a, [], b => a = b
  | a, x :: xs, b => a = some x ∧ Seg next (next x) xs b

namespace Seg

variable {next : A → Option A} {a b c : Option A} {x : A} {q r : List A}

@[simp] theorem nil_iff : Seg next a [] b ↔ a = b := Iff.rfl

@[simp] theorem cons_iff : Seg next a (x :: q) b ↔ a = some x ∧ Seg next (next x) q b := Iff.rfl

theorem append_iff : ∀ {a : Option A} {q : List A},
    Seg next a (q ++ r) c ↔ ∃ b, Seg next a q b ∧ Seg next b r c
  | a, [] => by simp
  | a, x :: q => by simp [append_iff (q := q), and_assoc]

theorem snoc (h : Seg next a q (some x)) : Seg next a (q ++ [x]) (next x) :=
  append_iff.2 ⟨_, h, by simp⟩

/-- A chain up to a node continues with that node. -/
theorem split (h : Seg next a q b) (hx : x ∈ q) :
    ∃ q₁ q₂, q = q₁ ++ x :: q₂ ∧ Seg next a q₁ (some x) ∧ Seg next (next x) q₂ b := by
  obtain ⟨q₁, q₂, rfl⟩ := List.append_of_mem hx
  obtain ⟨c, h1, h2, h3⟩ := append_iff.1 h
  exact ⟨q₁, q₂, rfl, h2 ▸ h1, h3⟩

/-- A list in which every node is followed by its successor is a chain. -/
theorem of_getElem? {q : List A} (h : ∀ k x, q[k]? = some x → next x = q[k + 1]?) :
    Seg next q[0]? q none := by
  induction q with
  | nil => rfl
  | cons x q ih =>
    refine ⟨rfl, ?_⟩
    rw [h 0 x rfl]
    exact ih fun k y hk => h (k + 1) y hk

theorem unique : ∀ {a : Option A} {q r : List A},
    Seg next a q none → Seg next a r none → q = r
  | a, [], [], _, _ => rfl
  | a, [], x :: r, h1, h2 => by simp_all
  | a, x :: q, [], h1, h2 => by simp_all
  | a, x :: q, y :: r, h1, h2 => by
    obtain rfl : x = y := Option.some.inj (h1.1.symm.trans h2.1)
    rw [unique h1.2 h2.2]

theorem eq_nil (h : Seg next none q none) : q = [] := unique h rfl

theorem eq_cons (h : Seg next (some x) q none) : ∃ r, q = x :: r ∧ Seg next (next x) r none := by
  cases q with
  | nil => cases h
  | cons y r =>
    obtain rfl : x = y := Option.some.inj h.1
    exact ⟨r, rfl, h.2⟩

theorem nodup : ∀ {a : Option A} {q : List A}, Seg next a q none → q.Nodup
  | a, [], _ => List.nodup_nil
  | a, x :: q, h => by
    refine List.nodup_cons.2 ⟨fun hx => ?_, nodup h.2⟩
    obtain ⟨q₁, q₂, rfl, -, h2⟩ := split h.2 hx
    -- the rest of the chain after `x` would be a proper part of itself
    have := congrArg List.length (unique h.2 h2)
    simp at this
    omega

theorem head_mem (h : Seg next (some x) q none) : x ∈ q := by
  obtain ⟨r, rfl, -⟩ := h.eq_cons
  exact List.mem_cons_self

/-- A chain that runs out holds the successors of its nodes. -/
theorem next_mem {y : A} (h : Seg next a q none) (hx : x ∈ q) (hy : next x = some y) : y ∈ q := by
  obtain ⟨q₁, q₂, rfl, -, h2⟩ := h.split hx
  exact List.mem_append_right _ (List.mem_cons_of_mem _ (head_mem (hy ▸ h2)))

/-- In a chain that runs out no two nodes have the same successor, or both none. -/
theorem next_inj {y : A} (h : Seg next a q none) (hx : x ∈ q) (hy : y ∈ q)
    (hn : next x = next y) : x = y := by
  obtain ⟨q₁, q₂, rfl, -, h2⟩ := h.split hx
  obtain ⟨r₁, r₂, hr, -, h4⟩ := h.split hy
  obtain rfl : q₂ = r₂ := unique h2 (hn ▸ h4)
  have hlen := congrArg List.length hr
  simp only [List.length_append, List.length_cons] at hlen
  exact (List.cons.inj (List.append_inj hr (by omega)).2).1

/-- The first node of a chain that runs out follows none of its nodes. -/
theorem head_ne_next (h : Seg next (some x) q none) {y : A} (hy : y ∈ q) : next y ≠ some x := by
  intro he
  obtain ⟨q₁, q₂, rfl, -, h2⟩ := h.split hy
  have := congrArg List.length (unique h (he ▸ h2))
  simp only [List.length_append, List.length_cons] at this
  omega

theorem congr {next' : A → Option A} :
    ∀ {a : Option A} {q : List A}, (∀ x ∈ q, next' x = next x) → Seg next a q b →
      Seg next' a q b
  | a, [], _, h => h
  | a, x :: q, hq, h => by
    refine ⟨h.1, ?_⟩
    rw [hq x List.mem_cons_self]
    exact congr (fun y hy => hq y (List.mem_cons_of_mem _ hy)) h.2

/-- What a chain that runs out passes is what can be reached from its first node. -/
theorem reaches_iff {y : A} (h : Seg next (some x) q none) : Reaches next x y ↔ y ∈ q := by
  constructor
  · intro hr
    induction hr with
    | refl => exact h.head_mem
    | tail _ hn ih => exact h.next_mem ih hn
  · intro hy
    induction q generalizing x with
    | nil => cases hy
    | cons z q ih =>
      obtain rfl : x = z := Option.some.inj h.1
      rcases List.mem_cons.1 hy with rfl | hy
      · exact .refl
      · cases hn : next x with
        | none =>
          have h2 := h.2
          rw [hn] at h2
          obtain rfl : q = [] := unique h2 rfl
          cases hy
        | some z => exact .head hn (ih (hn ▸ h.2) hy)

/-- A chain that runs out at a node has it last. -/
theorem split_last (h : Seg next a q none) (hx : x ∈ q) (hn : next x = none) :
    ∃ r, q = r ++ [x] ∧ Seg next a r (some x) := by
  obtain ⟨q₁, q₂, rfl, h1, h2⟩ := h.split hx
  rw [hn] at h2
  exact ⟨q₁, by rw [h2.eq_nil], h1⟩

/-- The last node of a chain that runs out has no successor. -/
theorem getLast?_eq (h : Seg next a q none) (hx : x ∈ q) (hn : next x = none) :
    q.getLast? = some x := by
  obtain ⟨q₁, q₂, rfl, -, h2⟩ := h.split hx
  rw [hn] at h2
  obtain rfl : q₂ = [] := unique h2 rfl
  simp

/-- Before the successor of a node stand the node and what is before it. -/
theorem precedes_next {y z : A} (h : Seg next a q none) (hx : x ∈ q) (hy : next x = some y) :
    Precedes q z y ↔ z = x ∨ Precedes q z x := by
  obtain ⟨q₁, q₂, rfl, -, h2⟩ := h.split hx
  rw [hy] at h2
  cases q₂ with
  | nil => cases h2
  | cons w q₂ =>
    obtain rfl : y = w := Option.some.inj h2.1
    rw [precedes_right_iff h.nodup]
    rw [List.append_cons, precedes_right_iff (by simpa using h.nodup)]
    simp [or_comm]

/-- Behind a node stand its successor and what is behind it. -/
theorem next_precedes {y z : A} (h : Seg next a q none) (hx : x ∈ q) (hy : next x = some y) :
    Precedes q x z ↔ z = y ∨ Precedes q y z := by
  obtain ⟨q₁, q₂, rfl, -, h2⟩ := h.split hx
  rw [hy] at h2
  cases q₂ with
  | nil => cases h2
  | cons w q₂ =>
    obtain rfl : y = w := Option.some.inj h2.1
    rw [precedes_left_iff h.nodup, List.mem_cons]
    rw [List.append_cons, precedes_left_iff (by simpa using h.nodup)]

variable [DecidableEq A]

theorem update {y : A} {v : Option A} (hy : y ∉ q) (h : Seg next a q b) :
    Seg (Function.update next y v) a q b :=
  h.congr fun x hx => Function.update_of_ne (by rintro rfl; exact hy hx) _ _

/-- Linking a new node behind `x`. -/
theorem insert_at {y : A} (h : Seg next a (q ++ x :: r) none) (hy : y ∉ q ++ x :: r)
    (hn : next y = next x) : Seg (Function.update next x (some y)) a (q ++ x :: y :: r) none := by
  have hnd := h.nodup
  obtain ⟨b, h1, rfl, h2⟩ := append_iff.1 h
  simp only [List.nodup_append, List.nodup_cons, List.mem_append, List.mem_cons, not_or] at hnd hy
  have hxq : x ∉ q := fun hm => hnd.2.2 x hm x (.inl rfl) rfl
  refine append_iff.2 ⟨_, h1.update hxq, rfl, ?_⟩
  rw [Function.update_self]
  refine ⟨rfl, ?_⟩
  rw [Function.update_of_ne hy.2.1, hn]
  exact h2.update hnd.2.1.1

/-- Unlinking the node behind `x`. -/
theorem unlink_at {y : A} (h : Seg next a (q ++ x :: y :: r) none) :
    Seg (Function.update next x (next y)) a (q ++ x :: r) none := by
  have hnd := h.nodup
  obtain ⟨b, h1, rfl, h2⟩ := append_iff.1 h
  simp only [List.nodup_append, List.nodup_cons, List.mem_cons, not_or] at hnd
  have hxq : x ∉ q := fun hm => hnd.2.2 x hm x (.inl rfl) rfl
  refine append_iff.2 ⟨_, h1.update hxq, rfl, ?_⟩
  rw [Function.update_self]
  exact h2.2.update hnd.2.1.1.2

/-- What comes before what, once a new node is linked behind `x`. -/
theorem insert {y : A} (h : Seg next a q none) (hx : x ∈ q) (hy : y ∉ q) (hn : next y = next x) :
    ∃ q', Seg (Function.update next x (some y)) a q' none ∧ (∀ z, z ∈ q' ↔ z = y ∨ z ∈ q) ∧
      ∀ u v, Precedes q' u v → Precedes q u v ∨ v = y ∧ (u = x ∨ Precedes q u x) ∨
        u = y ∧ Precedes q x v := by
  obtain ⟨q₁, q₂, rfl⟩ := List.append_of_mem hx
  refine ⟨_, h.insert_at hy hn, fun z => ?_, fun u v hp => ?_⟩
  · simp only [List.mem_append, List.mem_cons]
    tauto
  · simp only [precedes_right_iff h.nodup, precedes_left_iff h.nodup]
    simp only [precedes_append, precedes_cons, List.mem_cons] at hp ⊢
    tauto

theorem unlink {y : A} (h : Seg next a q none) (hx : x ∈ q) (hy : next x = some y) :
    ∃ q', Seg (Function.update next x (next y)) a q' none ∧ (∀ z, z ∈ q' ↔ z ∈ q ∧ z ≠ y) ∧
      q'.Sublist q := by
  obtain ⟨q₁, q₂, rfl, -, h2⟩ := h.split hx
  rw [hy] at h2
  cases q₂ with
  | nil => cases h2
  | cons z q₂ =>
    obtain rfl : y = z := Option.some.inj h2.1
    have hnd := h.nodup
    refine ⟨_, h.unlink_at, fun z => ?_, by simp⟩
    simp only [List.nodup_append, List.nodup_cons, List.mem_cons] at hnd
    simp only [List.mem_append, List.mem_cons]
    constructor
    · rintro (hz | rfl | hz)
      · exact ⟨.inl hz, fun e => hnd.2.2 z hz y (.inr (.inl rfl)) e⟩
      · exact ⟨.inr (.inl rfl), fun e => hnd.2.1.1 (.inl e)⟩
      · exact ⟨.inr (.inr (.inr hz)), fun e => hnd.2.1.2.1 (e ▸ hz)⟩
    · tauto

end Seg

end Structures

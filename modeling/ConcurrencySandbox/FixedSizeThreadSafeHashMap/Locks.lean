import ConcurrencySandbox.FixedSizeThreadSafeHashMap.Basic
import ConcurrencySandbox.Interleaving.Waiting

/-!
# Who holds which bucket

The locks are what the program counters say: a call on a bucket holds one while it is in its
section, a snapshot all those it has passed. A thread waits for a lock above all that it holds, so
no threads wait for each other.
-/

namespace ConcurrencySandbox

open Interleaving Structures

namespace FixedSizeThreadSafeHashMap

open RefinableThreadSafeHashmap (Op)

variable {τ K V : Type*}

def IsFind : Op K V → Prop
  | .find _ => True
  | _ => False

/-- The buckets a thread has to itself, of `n`. -/
def Alone (n : ℕ) : PC K V → ℕ → Prop
  | .search op index, i | .apply op index _, i | .unlock op index _, i => ¬ IsFind op ∧ i = index
  | .snapLock bucket, i => i < bucket ∧ i < n
  | .snapCopy .., i => i < n
  | .snapUnlock bucket _, i => bucket ≤ i ∧ i < n
  | _, _ => False

def Sharing : PC K V → ℕ → Prop
  | .search op index, i | .apply op index _, i | .unlock op index _, i => IsFind op ∧ i = index
  | _, _ => False

structure Locks (n : ℕ) (s : Shared τ K V) (f : τ → PC K V) : Prop where
  writer : ∀ i t, s.writer i = some t ↔ Alone n (f t) i
  readers : ∀ i t, t ∈ s.readers i ↔ Sharing (f t) i
  apart : ∀ i, s.writer i ≠ none → s.readers i = ∅

variable {n i : ℕ} {s s' : Shared τ K V} {f : τ → PC K V} {t u : τ} {p p' : PC K V}

section Steps

variable [DecidableEq τ]

theorem Locks.keep (h : Locks n s f) (hp : f t = p) (hw : s'.writer = s.writer)
    (hr : s'.readers = s.readers) (ha : ∀ i, Alone n p' i ↔ Alone n p i)
    (hs : ∀ i, Sharing p' i ↔ Sharing p i) : Locks n s' (Function.update f t p') := by
  refine ⟨fun i => ?_, fun i => ?_, fun i hi => ?_⟩
  · refine Program.forall_update (L := fun u p => s'.writer i = some u ↔ Alone n p i) ?_
      fun u _ => ?_
    · rw [hw, ha, ← hp]
      exact h.writer i t
    · rw [hw]
      exact h.writer i u
  · refine Program.forall_update (L := fun u p => u ∈ s'.readers i ↔ Sharing p i) ?_ fun u _ => ?_
    · rw [hr, hs, ← hp]
      exact h.readers i t
    · rw [hr]
      exact h.readers i u
  · rw [hr]
    exact h.apart i (hw ▸ hi)

/-- A change of the writer of a bucket by one thread. -/
theorem Locks.own (h : Locks n s f) (hp : f t = p) {w : Option τ}
    (hu : ∀ u, u ≠ t → s.writer i ≠ some u) (hu' : ∀ u, u ≠ t → w ≠ some u)
    (ht : w = some t ↔ Alone n p' i) (hr : w ≠ none → s.readers i = ∅)
    (ha : ∀ j, j ≠ i → (Alone n p' j ↔ Alone n p j)) (hs : ∀ j, Sharing p' j ↔ Sharing p j) :
    Locks n (s.setWriter i w) (Function.update f t p') := by
  have hself : (s.setWriter i w).writer i = w := Function.update_self ..
  have hne : ∀ j, j ≠ i → (s.setWriter i w).writer j = s.writer j := fun j hj =>
    Function.update_of_ne hj _ _
  refine ⟨fun j => ?_, fun j => ?_, fun j hj => ?_⟩
  · refine Program.forall_update
      (L := fun u p => (s.setWriter i w).writer j = some u ↔ Alone n p j) ?_ fun u hut => ?_
    · by_cases hji : j = i
      · rw [hji, hself, ht]
      · rw [hne j hji, ha j hji, ← hp]
        exact h.writer j t
    · by_cases hji : j = i
      · rw [hji, hself, ← h.writer i u]
        exact iff_of_false (hu' u hut) (hu u hut)
      · rw [hne j hji]
        exact h.writer j u
  · refine Program.forall_update (L := fun u p => u ∈ s.readers j ↔ Sharing p j) ?_
      fun u _ => h.readers j u
    rw [hs, ← hp]
    exact h.readers j t
  · by_cases hji : j = i
    · subst hji
      exact hr (hself ▸ hj)
    · exact h.apart j (hne j hji ▸ hj)

/-- Locking a bucket that nobody holds. -/
theorem Locks.take (h : Locks n s f) (hp : f t = p) (hfree : s.Free i)
    (ha : ∀ j, Alone n p' j ↔ Alone n p j ∨ j = i) (hs : ∀ j, Sharing p' j ↔ Sharing p j) :
    Locks n (s.setWriter i (some t)) (Function.update f t p') := by
  obtain ⟨hw, hr⟩ := hfree
  refine h.own hp (fun u _ => ?_) (fun u hu he => hu (Option.some.inj he).symm) ?_ (fun _ => hr)
    (fun j hj => (ha j).trans (or_iff_left hj)) hs
  · rw [hw]
    exact (Option.some_ne_none u).symm
  · exact iff_of_true rfl ((ha i).2 (.inr rfl))

theorem Locks.drop (h : Locks n s f) (hp : f t = p) (hi : Alone n p i)
    (ha : ∀ j, Alone n p' j ↔ Alone n p j ∧ j ≠ i) (hs : ∀ j, Sharing p' j ↔ Sharing p j) :
    Locks n (s.setWriter i none) (Function.update f t p') := by
  have hw : s.writer i = some t := (h.writer i t).2 (hp ▸ hi)
  refine h.own hp (fun u hu he => hu ?_) (fun u _ => (Option.some_ne_none u).symm) ?_
    (fun hne => absurd rfl hne) (fun j hj => (ha j).trans (and_iff_left hj)) hs
  · exact (Option.some.inj (hw.symm.trans he)).symm
  · exact iff_of_false (Option.some_ne_none t).symm fun hi' => ((ha i).1 hi').2 rfl

/-- A change of the readers of a bucket by one reader. -/
theorem Locks.share (h : Locks n s f) (hp : f t = p) {r : Finset τ}
    (hu : ∀ u, u ≠ t → (u ∈ r ↔ u ∈ s.readers i)) (ht : t ∈ r ↔ Sharing p' i)
    (hr : s.writer i ≠ none → r = ∅) (ha : ∀ j, Alone n p' j ↔ Alone n p j)
    (hs : ∀ j, j ≠ i → (Sharing p' j ↔ Sharing p j)) :
    Locks n (s.setReaders i r) (Function.update f t p') := by
  refine ⟨fun j => ?_, fun j => ?_, fun j hj => ?_⟩
  · refine Program.forall_update (L := fun u p => s.writer j = some u ↔ Alone n p j) ?_
      fun u _ => h.writer j u
    rw [ha, ← hp]
    exact h.writer j t
  · by_cases hji : j = i
    · subst hji
      refine Program.forall_update
        (L := fun u p => u ∈ (s.setReaders j r).readers j ↔ Sharing p j) ?_ fun u hut => ?_
      · simpa [Shared.setReaders] using ht
      · rw [← h.readers j u]
        simpa [Shared.setReaders] using hu u hut
    · refine Program.forall_update
        (L := fun u p => u ∈ (s.setReaders i r).readers j ↔ Sharing p j) ?_ fun u _ => ?_
      · rw [hs j hji, ← hp, ← h.readers j t]
        simp [Shared.setReaders, hji]
      · rw [← h.readers j u]
        simp [Shared.setReaders, hji]
  · by_cases hji : j = i
    · subst hji
      simpa [Shared.setReaders] using hr hj
    · simpa [Shared.setReaders, hji] using h.apart j hj

variable [DecidableEq K] {mHasher : K → ℕ} {act : Act K V}

theorem locks_call (h : Locks n s f) (hp : f t = p)
    (hn : nextCall mHasher t s p = some (s', p')) : Locks n s' (Function.update f t p') := by
  revert hn
  fun_cases nextCall mHasher t s p <;> intro hn <;> cases hn
  · rename_i hw
    refine h.share hp (fun u hu => by simp [hu]) ?_ (fun hne => absurd hw hne) ?_ fun j hj => ?_
    · simp [Sharing, IsFind]
    · simp [Alone, IsFind]
    · simp [Sharing, hj]
  · -- not a `find`
    rename_i op hop _ hfree
    have hfind : ¬ IsFind op := by
      cases op <;> simp_all [IsFind]
    exact h.take hp hfree (fun j => by simp [Alone, hfind]) fun j => by simp [Sharing, hfind]
  all_goals try exact h.keep hp rfl rfl (fun _ => Iff.rfl) fun _ => Iff.rfl
  · rename_i key index ans
    have hr : t ∈ s.readers index := (h.readers index t).2 (by simp [hp, Sharing, IsFind])
    refine h.share hp (fun u hu => by simp [hu]) ?_ (fun hne => ?_) ?_ fun j hj => ?_
    · simp [Sharing]
    · rw [h.apart index hne] at hr
      simp at hr
    · simp [Alone, IsFind]
    · simp [Sharing, hj]
  · rename_i op index ans hop
    have hfind : ¬ IsFind op := by
      cases op <;> simp_all [IsFind]
    exact h.drop hp ⟨hfind, rfl⟩ (fun j => by simp [Alone]) fun j => by simp [Sharing, hfind]

theorem locks_snap (h : Locks n s f) (hlen : s.mBuckets.length = n) (hp : f t = p)
    (hn : nextSnap t s p = some (s', p')) : Locks n s' (Function.update f t p') := by
  subst hlen
  revert hn
  fun_cases nextSnap t s p <;> intro hn <;> cases hn
  · rename_i hlt hfree
    exact h.take hp hfree (fun j => by simp only [Alone]; omega) fun _ => Iff.rfl
  · rename_i hge
    exact h.keep hp rfl rfl (fun j => by simp only [Alone]; omega) fun _ => Iff.rfl
  · exact h.keep hp rfl rfl (fun _ => Iff.rfl) fun _ => Iff.rfl
  · exact h.keep hp rfl rfl (fun _ => Iff.rfl) fun _ => Iff.rfl
  · exact h.keep hp rfl rfl (fun j => by simp [Alone]) fun _ => Iff.rfl
  · rename_i hlt
    exact h.drop hp ⟨le_rfl, hlt⟩ (fun j => by simp only [Alone]; omega) fun _ => Iff.rfl
  · rename_i hge
    exact h.keep hp rfl rfl (fun j => by simp only [Alone, false_iff]; omega) fun _ => Iff.rfl
  · exact h.keep hp rfl rfl (fun _ => Iff.rfl) fun _ => Iff.rfl

theorem locks_step (h : Locks n s f) (hlen : s.mBuckets.length = n) (hp : f t = p)
    (hn : next mHasher t act s p = some (s', p')) : Locks n s' (Function.update f t p') := by
  revert hn
  fun_cases next mHasher t act s p <;> intro hn
  · cases hn
    exact h.keep hp rfl rfl (fun _ => Iff.rfl) fun _ => Iff.rfl
  · cases hn
    exact h.keep hp rfl rfl (fun j => by simp [Alone]) fun _ => Iff.rfl
  · rcases Option.or_eq_some_iff.1 hn with hn | ⟨-, hn⟩
    · exact locks_call h hp hn
    · exact locks_snap h hlen hp hn
  · cases hn

end Steps

section Waiting

/-- The bucket a thread waits to lock, when it is locked. -/
def wants (mHasher : K → ℕ) (n : ℕ) : PC K V → ℕ → Prop
  | .lock op, i => i = mHasher op.key % n
  | .snapLock bucket, i => i = bucket ∧ bucket < n
  | _, _ => False

def holds (s : Shared τ K V) (t : τ) (i : ℕ) : Prop := s.writer i = some t ∨ t ∈ s.readers i

/-- A snapshot locks the buckets in their order, and the other calls hold nothing while they
wait. -/
theorem Locks.ranked (h : Locks n s f) (mHasher : K → ℕ) :
    Ranked (fun i => n - i) (fun t => wants mHasher n (f t)) (holds s) := by
  intro t i j hw hh
  unfold holds at hh
  rw [h.writer, h.readers] at hh
  unfold wants at hw
  split at hw
  · rename_i hp
    rw [hp] at hh
    rcases hh with hh | hh <;> exact hh.elim
  · rename_i bucket _ hp
    rw [hp] at hh
    obtain ⟨rfl, hlt⟩ := hw
    rcases hh with ⟨h1, -⟩ | hh
    · exact Nat.sub_lt_sub_left (h1.trans hlt) h1
    · exact hh.elim
  · exact hw.elim

end Waiting

end FixedSizeThreadSafeHashMap

end ConcurrencySandbox

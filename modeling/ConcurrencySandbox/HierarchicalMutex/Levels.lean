import Mathlib.Data.List.Basic
import ConcurrencySandbox.HierarchicalMutex.Basic
import ConcurrencySandbox.Interleaving.Waiting

/-!
# Levels fall, and nobody waits in a circle

The mutexes a thread holds are on rising levels from the latest to the first, and each has saved the
level of those before it (`Stacked`). A thread unlocks the latest only, which restores the level of
the rest. What a thread waits for is on a lower level than all it holds.
-/

namespace ConcurrencySandbox

open Interleaving

namespace HierarchicalMutex

variable {τ M : Type*} {mHierarchy : M → HierarchyType}

/-- Every mutex is on a lower level than those before it, and has saved their level. -/
def Stacked (mHierarchy prev : M → HierarchyType) : List M → Prop
  | [] => True
  | m :: held => mHierarchy m < level mHierarchy held ∧ prev m = level mHierarchy held ∧
      Stacked mHierarchy prev held

/-- What a call has locked and not given to the thread yet. -/
def entering : At M → Option M
  | .lockSave m | .lockEnter m | .trySave m | .tryEnter m => some m
  | _ => none

def PC.Owns (p : PC M) (m : M) : Prop := m ∈ p.held ∨ entering p.step = some m

def Placed (mHierarchy : M → HierarchyType) (s : Shared τ M) (t : τ) (p : PC M) : Prop :=
  match p.step with
  | .out | .lockCheck _ | .tryCheck _ | .threw => s.sThisThreadHierarchy t = level mHierarchy p.held
  | .lockWait m | .tryLock m | .lockSave m | .trySave m =>
    s.sThisThreadHierarchy t = level mHierarchy p.held ∧ mHierarchy m < level mHierarchy p.held
  | .lockEnter m | .tryEnter m =>
    mHierarchy m < level mHierarchy p.held ∧ s.mPreviousHierarchy m = level mHierarchy p.held
  | .unlockCheck m => s.sThisThreadHierarchy t = level mHierarchy p.held ∧ m ∈ p.held
  | .unlockRestore m => ∃ held, p.held = m :: held
  | .unlockRelease m => ∃ held, p.held = m :: held ∧
      s.sThisThreadHierarchy t = level mHierarchy held

structure Inv (mHierarchy : M → HierarchyType) (s : Shared τ M) (f : τ → PC M) : Prop where
  owner : ∀ t m, (f t).Owns m ↔ s.mLock m = some t
  stacked : ∀ t, Stacked mHierarchy s.mPreviousHierarchy (f t).held
  placed : ∀ t, Placed mHierarchy s t (f t)

variable {prev prev' : M → HierarchyType} {held : List M} {m m' : M}

theorem level_cons : level mHierarchy (m :: held) = mHierarchy m := rfl

namespace Stacked

theorem level_le (h : Stacked mHierarchy prev held) (hm : m ∈ held) :
    level mHierarchy held ≤ mHierarchy m := by
  induction held with
  | nil => cases hm
  | cons m' held ih =>
    obtain ⟨hlt, -, h⟩ := h
    rw [level_cons]
    rcases List.mem_cons.1 hm with rfl | hm
    · exact BitVec.le_refl _
    · exact Std.le_of_lt (Std.lt_of_lt_of_le hlt (ih h hm))

theorem pairwise (h : Stacked mHierarchy prev held) :
    held.Pairwise fun m m' => mHierarchy m < mHierarchy m' := by
  induction held with
  | nil => exact .nil
  | cons m held ih =>
    obtain ⟨hlt, -, h⟩ := h
    exact .cons (fun m' hm' => Std.lt_of_lt_of_le hlt (h.level_le hm')) (ih h)

theorem not_mem (h : Stacked mHierarchy prev held) (hm : mHierarchy m < level mHierarchy held) :
    m ∉ held := fun hmem =>
  BitVec.lt_irrefl _ (Std.lt_of_lt_of_le hm (h.level_le hmem))

theorem congr (h : Stacked mHierarchy prev held) (hp : ∀ m ∈ held, prev' m = prev m) :
    Stacked mHierarchy prev' held := by
  induction held with
  | nil => trivial
  | cons m held ih =>
    obtain ⟨hlt, hsaved, h⟩ := h
    exact ⟨hlt, (hp m List.mem_cons_self).trans hsaved,
      ih h fun m' hm' => hp m' (List.mem_cons_of_mem _ hm')⟩

/-- The mutex on the thread's own level is the latest. -/
theorem eq_cons (h : Stacked mHierarchy prev held) (hm : m ∈ held)
    (hl : level mHierarchy held = mHierarchy m) : ∃ rest, held = m :: rest := by
  cases held with
  | nil => cases hm
  | cons m' held =>
    obtain ⟨hlt, -, h⟩ := h
    rcases List.mem_cons.1 hm with rfl | hm
    · exact ⟨held, rfl⟩
    · rw [level_cons] at hl
      exact absurd (h.level_le hm) (Std.not_le_of_gt (hl ▸ hlt))

end Stacked

variable {s s' : Shared τ M} {f : τ → PC M} {t u : τ} {p p' : PC M} {a a' : At M}

/-- A thread's part is about its own level and what its mutexes have saved. -/
theorem Placed.frame (h : Placed mHierarchy s u p)
    (hs : s'.sThisThreadHierarchy u = s.sThisThreadHierarchy u)
    (hp : ∀ m, p.Owns m → s'.mPreviousHierarchy m = s.mPreviousHierarchy m) :
    Placed mHierarchy s' u p := by
  obtain ⟨held, a⟩ := p
  cases a with
  | lockEnter m | tryEnter m => exact ⟨h.1, (hp m (.inr rfl)).trans h.2⟩
  | out | lockCheck | tryCheck | threw => exact hs.trans h
  | lockWait | tryLock | lockSave | trySave | unlockCheck => exact ⟨hs.trans h.1, h.2⟩
  | unlockRestore => exact h
  | unlockRelease =>
    obtain ⟨rest, h1, h2⟩ := h
    exact ⟨rest, h1, hs.trans h2⟩

theorem Inv.owner_eq (h : Inv mHierarchy s f) (ht : (f t).Owns m) (hu : (f u).Owns m) : t = u :=
  Option.some.inj (((h.owner t m).1 ht).symm.trans ((h.owner u m).1 hu))

section Step

variable [DecidableEq τ]

/-- A step that writes nothing. -/
theorem Inv.stay (h : Inv mHierarchy s f) (hp : f t = ⟨held, a⟩) (ha : entering a' = entering a)
    (hpl : Placed mHierarchy s t ⟨held, a'⟩) :
    Inv mHierarchy s (Function.update f t ⟨held, a'⟩) where
  owner u m := by
    rw [← h.owner u m]
    by_cases hu : u = t
    · rw [hu, Function.update_self, hp, PC.Owns, PC.Owns, ha]
    · rw [Function.update_of_ne hu]
  stacked := Program.forall_update
    (L := fun _ (p : PC M) => Stacked mHierarchy s.mPreviousHierarchy p.held)
    (by simpa [hp] using h.stacked t) fun u _ => h.stacked u
  placed := Program.forall_update hpl fun u _ => h.placed u

variable [DecidableEq M]

theorem Inv.lock (h : Inv mHierarchy s f) (hp : f t = ⟨held, a⟩) (ha : entering a = none)
    (hl : s.mLock m = none) (ha' : entering a' = some m)
    (hpl : Placed mHierarchy s t ⟨held, a'⟩) :
    Inv mHierarchy (s.setLock m (some t)) (Function.update f t ⟨held, a'⟩) where
  owner u m' := by
    have hu := h.owner u m'
    by_cases hm : m' = m
    · subst hm
      rw [hl] at hu
      by_cases hut : u = t
      · subst hut
        simp [Shared.setLock, PC.Owns, ha']
      · simpa [Shared.setLock, hut, Ne.symm hut] using hu
    · by_cases hut : u = t
      · subst hut
        rw [hp] at hu
        simpa [Shared.setLock, PC.Owns, ha, ha', hm, Ne.symm hm] using hu
      · simpa [Shared.setLock, hut, hm] using hu
  stacked := Program.forall_update
    (L := fun _ (p : PC M) => Stacked mHierarchy s.mPreviousHierarchy p.held)
    (by simpa [hp] using h.stacked t) fun u _ => h.stacked u
  placed := Program.forall_update (hpl.frame rfl fun _ _ => rfl)
    fun u _ => (h.placed u).frame rfl fun _ _ => rfl

theorem Inv.save (h : Inv mHierarchy s f) (hp : f t = ⟨held, a⟩) (ha : entering a = some m)
    (ha' : entering a' = some m) (hm : mHierarchy m < level mHierarchy held) {l : HierarchyType}
    (hpl : Placed mHierarchy (s.save m l) t ⟨held, a'⟩) :
    Inv mHierarchy (s.save m l) (Function.update f t ⟨held, a'⟩) := by
  have hst : Stacked mHierarchy s.mPreviousHierarchy held := by simpa [hp] using h.stacked t
  have hown : (f t).Owns m := .inr (by rw [hp]; exact ha)
  have hsave : ∀ m', m' ≠ m → (s.save m l).mPreviousHierarchy m' = s.mPreviousHierarchy m' :=
    fun m' hm' => Function.update_of_ne hm' _ _
  have hne : ∀ u, u ≠ t → ∀ m', (f u).Owns m' → m' ≠ m := fun u hu m' hm' he =>
    hu (h.owner_eq hm' (he ▸ hown))
  refine ⟨fun u m' => ?_, Program.forall_update
    (L := fun _ (p : PC M) => Stacked mHierarchy (s.save m l).mPreviousHierarchy p.held)
    (hst.congr fun m' hm' => hsave m' ?_)
    fun u hu => (h.stacked u).congr fun m' hm' => hsave m' (hne u hu m' (.inl hm')),
    Program.forall_update hpl fun u hu =>
      (h.placed u).frame rfl fun m' hm' => hsave m' (hne u hu m' hm')⟩
  · change _ ↔ s.mLock m' = some u
    rw [← h.owner u m']
    by_cases hu : u = t
    · rw [hu, Function.update_self, hp, PC.Owns, PC.Owns, ha, ha']
    · rw [Function.update_of_ne hu]
  · rintro rfl
    exact hst.not_mem hm hm'

omit [DecidableEq M] in
theorem Inv.enter (h : Inv mHierarchy s f) (hp : f t = ⟨held, a⟩) (ha : entering a = some m)
    (hm : mHierarchy m < level mHierarchy held)
    (hs : s.mPreviousHierarchy m = level mHierarchy held) :
    Inv mHierarchy (s.setThis t (mHierarchy m)) (Function.update f t ⟨m :: held, .out⟩) := by
  have hst : Stacked mHierarchy s.mPreviousHierarchy held := by simpa [hp] using h.stacked t
  refine ⟨fun u m' => ?_, Program.forall_update
    (L := fun _ (p : PC M) => Stacked mHierarchy s.mPreviousHierarchy p.held)
    ⟨hm, hs, hst⟩ fun u _ => h.stacked u,
    Program.forall_update ?_ fun u hu => (h.placed u).frame (Function.update_of_ne hu _ _)
      fun _ _ => rfl⟩
  · change _ ↔ s.mLock m' = some u
    rw [← h.owner u m']
    by_cases hu : u = t
    · rw [hu, Function.update_self, hp, PC.Owns, PC.Owns, ha]
      simp [entering, or_comm, eq_comm]
    · rw [Function.update_of_ne hu]
  · exact Function.update_self ..

omit [DecidableEq M] in
theorem Inv.restore (h : Inv mHierarchy s f) {rest : List M}
    (hp : f t = ⟨m :: rest, .unlockRestore m⟩) :
    Inv mHierarchy (s.setThis t (s.mPreviousHierarchy m))
      (Function.update f t ⟨m :: rest, .unlockRelease m⟩) := by
  have hst : Stacked mHierarchy s.mPreviousHierarchy (m :: rest) := by simpa [hp] using h.stacked t
  refine ⟨fun u m' => ?_, Program.forall_update
    (L := fun _ (p : PC M) => Stacked mHierarchy s.mPreviousHierarchy p.held)
    hst fun u _ => h.stacked u,
    Program.forall_update ⟨rest, rfl, ?_⟩ fun u hu => (h.placed u).frame
      (Function.update_of_ne hu _ _) fun _ _ => rfl⟩
  · change _ ↔ s.mLock m' = some u
    rw [← h.owner u m']
    by_cases hu : u = t
    · rw [hu, Function.update_self, hp]
      rfl
    · rw [Function.update_of_ne hu]
  · change Function.update s.sThisThreadHierarchy t (s.mPreviousHierarchy m) t = _
    rw [Function.update_self]
    exact hst.2.1

theorem Inv.release (h : Inv mHierarchy s f) {rest : List M}
    (hp : f t = ⟨m :: rest, .unlockRelease m⟩)
    (hl : s.sThisThreadHierarchy t = level mHierarchy rest) :
    Inv mHierarchy (s.setLock m none) (Function.update f t ⟨rest, .out⟩) := by
  have hst : Stacked mHierarchy s.mPreviousHierarchy (m :: rest) := by simpa [hp] using h.stacked t
  have hrest : m ∉ rest := hst.2.2.not_mem hst.1
  have hown : (f t).Owns m := .inl (by rw [hp]; exact List.mem_cons_self)
  refine ⟨fun u m' => ?_, Program.forall_update
    (L := fun _ (p : PC M) => Stacked mHierarchy s.mPreviousHierarchy p.held)
    hst.2.2 fun u _ => h.stacked u,
    Program.forall_update hl fun u hu => (h.placed u).frame rfl fun _ _ => rfl⟩
  have hu := h.owner u m'
  by_cases hm : m' = m
  · subst hm
    by_cases hut : u = t
    · subst hut
      simp [Shared.setLock, PC.Owns, entering, hrest]
    · have hnot : ¬ (f u).Owns m' := fun ho => hut (h.owner_eq ho hown)
      simpa [Shared.setLock, hut] using hnot
  · by_cases hut : u = t
    · subst hut
      rw [hp] at hu
      simpa [Shared.setLock, PC.Owns, entering, hm] using hu
    · simpa [Shared.setLock, hut, hm] using hu

theorem Inv.step {act : Act M} (h : Inv mHierarchy s f)
    (hn : next mHierarchy t act s (f t) = some (s', p')) :
    Inv mHierarchy s' (Function.update f t p') := by
  have hP := h.placed t
  have hst := h.stacked t
  generalize hp : f t = p at hn hP hst
  revert hn
  fun_cases next mHierarchy t act s p <;> intro hn <;> cases hn
  · exact h.stay hp rfl hP
  · exact h.stay hp rfl hP
  · exact h.stay hp rfl ⟨hP, ‹_›⟩
  · exact h.stay hp rfl hP
  · rename_i hle
    refine h.stay hp rfl ⟨hP, ?_⟩
    rw [← show s.sThisThreadHierarchy t = _ from hP]
    exact Std.not_le.1 hle
  · exact h.lock hp rfl ‹_› rfl hP
  · exact h.save hp rfl rfl hP.2 ⟨hP.2, (Function.update_self ..).trans hP.1⟩
  · exact h.enter hp rfl hP.1 hP.2
  · exact h.stay hp rfl hP
  · rename_i hle
    refine h.stay hp rfl ⟨hP, ?_⟩
    rw [← show s.sThisThreadHierarchy t = _ from hP]
    exact Std.not_le.1 hle
  · exact h.stay hp rfl hP.1
  · exact h.lock hp rfl ‹_› rfl hP
  · exact h.save hp rfl rfl hP.2 ⟨hP.2, (Function.update_self ..).trans hP.1⟩
  · exact h.enter hp rfl hP.1 hP.2
  · exact h.stay hp rfl (hst.eq_cons hP.2 (hP.1.symm.trans ‹_›))
  · exact h.stay hp rfl hP.1
  · rename_i held m
    obtain ⟨rest, rfl⟩ : ∃ rest, held = m :: rest := hP
    exact h.restore hp
  · rename_i held m
    obtain ⟨rest, rfl, hl⟩ : ∃ rest, held = m :: rest ∧
        s.sThisThreadHierarchy t = level mHierarchy rest := hP
    rw [List.erase_cons_head]
    exact h.release hp hl
  · exact h.stay hp rfl hP

theorem inv_reach {c : Conf τ (Shared τ M) (PC M)} (h : (system τ mHierarchy).Reachable c) :
    Inv mHierarchy c.shared c.pc := by
  refine h.induct (P := fun c => Inv mHierarchy c.shared c.pc) ?_ ?_
  · rintro ⟨s, f⟩ ⟨⟨hl, hs⟩, rfl⟩
    have hl : ∀ m, s.mLock m = none := hl
    refine ⟨fun t m => ?_, fun t => trivial, fun t => hs t⟩
    simp [PC.Owns, entering, hl]
  · rintro c ⟨t, act⟩ c' - hI - hst
    obtain ⟨s', p', hn, rfl⟩ := Program.step_eq_some.1 hst
    exact hI.step hn

/-- Outside the calls, or in one that has changed nothing yet. -/
def Early : At M → Prop
  | .out | .lockCheck _ | .tryCheck _ | .unlockCheck _ | .threw => True
  | _ => False

/-- A call leaves its beginning with its first change, and ends then; a thread's level is its
own. -/
theorem next_phase {act : Act M} (hn : next mHierarchy t act s p = some (s', p')) :
    (Early p.step → ¬ Early p'.step ∨ p'.held = p.held ∧ s' = s) ∧
      (¬ Early p.step → p'.step = .out ∨ ¬ Early p'.step) ∧
        ∀ u, u ≠ t → s'.sThisThreadHierarchy u = s.sThisThreadHierarchy u := by
  revert hn
  fun_cases next mHierarchy t act s p <;> intro hn <;> cases hn <;>
    refine ⟨fun hp => ?_, fun hp => ?_, fun u hu => ?_⟩
  all_goals first
    | rfl
    | exact Function.update_of_ne hu _ _
    | exact .inr ⟨rfl, rfl⟩
    | exact absurd hp id
    | exact .inl rfl
    | exact .inr id
    | exact absurd trivial hp

/-- What a run promises. -/
structure Correct {n : ℕ} (r : (system τ mHierarchy).Run (fun _ _ => True) n) : Prop where
  levels : ∀ k ≤ n, ∀ t, ((r.state k).pc t).step = .out →
    ((r.state k).pc t).held.Pairwise (fun m m' => mHierarchy m < mHierarchy m') ∧
      (r.state k).shared.sThisThreadHierarchy t = level mHierarchy ((r.state k).pc t).held ∧
      ∀ m, m ∈ ((r.state k).pc t).held ↔ (r.state k).shared.mLock m = some t
  throws : ∀ i j t, i ≤ j → j ≤ n → ((r.state i).pc t).step = .out →
    (∀ k, i < k → k ≤ j → ((r.state k).pc t).step ≠ .out) → ((r.state j).pc t).step = .threw →
      ((r.state j).pc t).held = ((r.state i).pc t).held ∧
        (r.state j).shared.sThisThreadHierarchy t = (r.state i).shared.sThisThreadHierarchy t
  acyclic : ∀ k ≤ n, ∀ t, ¬ Relation.TransGen (Waits (fun t => ((r.state k).pc t).Wants)
    fun t m => (r.state k).shared.mLock m = some t) t t

omit [DecidableEq τ] [DecidableEq M] in
theorem Inv.ranked (h : Inv mHierarchy s f) : Ranked (fun m => (mHierarchy m).toNat)
    (fun t => (f t).Wants) fun t m => s.mLock m = some t := by
  intro t m m' hw hl
  have hP := h.placed t
  have hst := h.stacked t
  have hown := (h.owner t m').2 hl
  rw [PC.Wants] at hw
  rw [Placed, hw] at hP
  have hm : m' ∈ (f t).held := hown.resolve_right (by rw [hw]; nofun)
  exact BitVec.lt_def.1 (Std.lt_of_lt_of_le hP.2 (hst.level_le hm))

theorem throws_run {n : ℕ} (r : (system τ mHierarchy).Run (fun _ _ => True) n) {i j : ℕ}
    (hij : i ≤ j) (hj : j ≤ n)
    (hcall : ∀ k, i < k → k ≤ j → ((r.state k).pc t).step ≠ .out) :
    ¬ Early ((r.state j).pc t).step ∨ ((r.state j).pc t).held = ((r.state i).pc t).held ∧
      (r.state j).shared.sThisThreadHierarchy t = (r.state i).shared.sThisThreadHierarchy t := by
  induction j, hij using Nat.le_induction with
  | base => exact .inr ⟨rfl, rfl⟩
  | succ j hij ih =>
    obtain ⟨hn, hother⟩ := Program.run_step r hj
    have hih := ih (by omega) fun k h1 h2 => hcall k h1 (by omega)
    by_cases ht : t = (r.label j).1
    · rw [← ht] at hn
      by_cases he : Early ((r.state j).pc t).step
      · obtain ⟨h1, h2⟩ := hih.resolve_left fun h => h he
        rcases (next_phase hn).1 he with h | ⟨h3, h4⟩
        · exact .inl h
        · exact .inr ⟨h3.trans h1, h4 ▸ h2⟩
      · exact .inl (((next_phase hn).2.1 he).resolve_left (hcall (j + 1) (by omega) le_rfl))
    · rw [hother t ht, (next_phase hn).2.2 t ht]
      exact hih

/-- The levels of what a thread holds fall, a call that throws has changed nothing, and threads
never wait for each other in a circle. -/
theorem deadlock_free (n : ℕ) (r : (system τ mHierarchy).Run (fun _ _ => True) n) : Correct r where
  levels k hk t ht := by
    have hI := inv_reach (r.reach hk)
    have hP := hI.placed t
    rw [Placed, ht] at hP
    refine ⟨(hI.stacked t).pairwise, hP, fun m => ?_⟩
    rw [← hI.owner t m, PC.Owns, ht]
    simp [entering]
  throws i j t hij hj _ hcall ht :=
    (throws_run r hij hj hcall).resolve_left fun h => h (by rw [ht]; trivial)
  acyclic k hk := (inv_reach (r.reach hk)).ranked.acyclic

end Step

end HierarchicalMutex

end ConcurrencySandbox

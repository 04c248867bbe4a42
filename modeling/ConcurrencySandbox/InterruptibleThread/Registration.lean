import ConcurrencySandbox.InterruptibleThread.Basic

/-!
# What interrupts notify

A call of `interruptibleWait` that gets past its first interruption point registers its condition
variable, and no way out of the call takes that back. So `mCond` is that of the call the thread is
in, until the first call that has registered ends: from then on it points to what may be gone.
-/

namespace ConcurrencySandbox

open Interleaving

namespace InterruptibleThread

variable {τ V : Type*}

/-- The condition variable of the `interruptibleWait` call that the thread is in. -/
def waitsOn : PC V → Option V
  | .firstPoint cond _ | .setConditionVariable cond _ | .storeCond cond _ | .unlockCond cond _
  | .secondPoint cond _ | .loopTest cond _ | .predicate cond | .waitFor cond _
  | .lastPoint cond => some cond
  | _ => none

/-- The condition variable that the call has registered. -/
def registered : PC V → Option V
  | .unlockCond cond _ | .secondPoint cond _ | .loopTest cond _ | .predicate cond
  | .waitFor cond _ | .lastPoint cond => some cond
  | _ => none

variable {owner t : τ} {s s' : InterruptFlag τ V} {p p' : PC V} {act : Act V}

theorem registered_le {v : V} (h : registered p = some v) : waitsOn p = some v := by
  cases p <;> first | exact h | cases h

section Steps

variable [DecidableEq τ]

omit [DecidableEq τ] in
theorem interruptionPoint_eq (s : InterruptFlag τ V) (p : PC V) :
    interruptionPoint s p = .ready ∨ interruptionPoint s p = p := by
  unfold interruptionPoint
  split_ifs
  · exact .inl rfl
  · exact .inr rfl

omit [DecidableEq τ] in
theorem acquire_mCond (h : acquire t s = some s') : s'.mCond = s.mCond := by
  unfold acquire at h
  split_ifs at h
  cases h
  rfl

/-- Another thread neither waits nor registers. -/
theorem next_other (hn : next owner t act s p = some (s', p')) (ht : t ≠ owner)
    (hp : waitsOn p = none) : s'.mCond = s.mCond ∧ waitsOn p' = none := by
  revert hn
  fun_cases next owner t act s p <;> intro hn
  case case7 =>
    revert hn
    fun_cases nextRun t s p <;> intro hn
    all_goals try cases hp
    · cases hn
      exact ⟨rfl, rfl⟩
    · obtain ⟨s₁, ha, he⟩ := Option.map_eq_some_iff.1 hn
      cases he
      exact ⟨acquire_mCond ha, rfl⟩
    · cases hn
      exact ⟨rfl, rfl⟩
    · cases hn
      exact ⟨rfl, rfl⟩
    all_goals cases hn
  all_goals cases hn
  all_goals first | exact absurd ‹t = owner› ht | exact ⟨rfl, rfl⟩ | cases hp

/-- The thread itself registers, or leaves what it has registered behind. -/
theorem next_self (hn : next owner t act s p = some (s', p')) (hs : s.mCond = registered p) :
    s'.mCond = registered p' ∨ registered p ≠ none ∧ waitsOn p' = none ∧ s'.mCond = s.mCond := by
  revert hn
  fun_cases next owner t act s p <;> intro hn
  case case7 =>
    revert hn
    fun_cases nextRun t s p <;> intro hn
    all_goals try
      obtain ⟨s₁, ha, he⟩ := Option.map_eq_some_iff.1 hn
      cases he
      exact .inl ((acquire_mCond ha).trans hs)
    all_goals cases hn
    · rename_i cond pred
      rcases interruptionPoint_eq s (.setConditionVariable cond pred) with h | h <;> rw [h]
      · exact .inl hs
      · exact .inl hs
    · exact .inl rfl
    · exact .inl hs
    · rename_i cond pred
      rcases interruptionPoint_eq s (.loopTest cond pred) with h | h <;> rw [h]
      · exact .inr ⟨nofun, rfl, rfl⟩
      · exact .inl hs
    · exact .inl hs
    · rename_i cond pred hflag
      cases pred <;> exact .inl hs
    · exact .inl hs
    · rename_i cond
      refine .inr ⟨nofun, ?_, rfl⟩
      rcases interruptionPoint_eq s (.ready : PC V) with h | h <;> rw [h] <;> rfl
    all_goals exact .inl hs
  all_goals cases hn
  all_goals first | exact .inl hs | exact .inr ⟨nofun, rfl, rfl⟩

omit [DecidableEq τ] in
theorem interruptionPoint_out (h : waitsOn (interruptionPoint s p) = none) (hp : waitsOn p ≠ none) :
    s.mFlag = true := by
  unfold interruptionPoint at h
  split_ifs at h with hf
  · exact hf
  · exact absurd h hp

/-- A call ends before it has registered because the flag is set, or leaves `mCond` behind. -/
theorem call_end (hn : next owner t act s p = some (s', p')) (hp : waitsOn p ≠ none)
    (hp' : waitsOn p' = none) :
    (∃ cond pred, p = .firstPoint cond pred ∧ s.mFlag = true) ∨
      registered p ≠ none ∧ s'.mCond = s.mCond := by
  revert hn
  fun_cases next owner t act s p <;> intro hn
  case case7 =>
    revert hn
    fun_cases nextRun t s p <;> intro hn
    all_goals try exact absurd rfl hp
    all_goals try
      obtain ⟨s₁, ha, he⟩ := Option.map_eq_some_iff.1 hn
      cases he
      cases hp'
    all_goals cases hn
    all_goals try cases hp'
    · exact .inl ⟨_, _, rfl, interruptionPoint_out hp' nofun⟩
    · exact .inr ⟨nofun, rfl⟩
    · rename_i cond pred hflag
      cases pred <;> cases hp'
    · exact .inr ⟨nofun, rfl⟩
  all_goals cases hn
  all_goals first | exact absurd rfl hp | exact .inr ⟨nofun, rfl⟩

end Steps

section Runs

variable [DecidableEq τ] {n i : ℕ} (r : (system (V := V) owner).Run (fun _ _ => True) n)

/-- `mCond` is null while the thread is in no call of `interruptibleWait`, and what `set` notifies
is what the thread waits on. -/
structure Live : Prop where
  cleared : ∀ i ≤ n, waitsOn ((r.state i).pc owner) = none → (r.state i).shared.mCond = none
  notifies : ∀ i < n, (r.state i).pc (r.label i).1 = .setNotify → ∀ cond,
    (r.state i).shared.mCond = some cond → waitsOn ((r.state i).pc owner) = some cond

/-- The calls that end do so at their first interruption point, finding the flag set. -/
def EndAtOnce : Prop :=
  ∀ i < n, (r.label i).1 = owner → waitsOn ((r.state i).pc owner) ≠ none →
    waitsOn ((r.state (i + 1)).pc owner) = none →
      ∃ cond pred, (r.state i).pc owner = .firstPoint cond pred ∧ (r.state i).shared.mFlag = true

/-- `mCond` is what the call that the thread is in has registered. -/
structure Inv (owner : τ) (c : Conf τ (InterruptFlag τ V) (PC V)) : Prop where
  other : ∀ t, t ≠ owner → waitsOn (c.pc t) = none
  cond : c.shared.mCond = registered (c.pc owner)

variable {r}

/-- The step is no end of a call, or one at the first interruption point. -/
theorem inv_step (hi : i < n) (h : Inv owner (r.state i))
    (hend : (r.label i).1 = owner → waitsOn ((r.state i).pc owner) ≠ none →
      waitsOn ((r.state (i + 1)).pc owner) = none → registered ((r.state i).pc owner) = none) :
    Inv owner (r.state (i + 1)) := by
  obtain ⟨hn, hother⟩ := Program.run_step r hi
  by_cases ht : (r.label i).1 = owner
  · refine ⟨fun u hu => ?_, ?_⟩
    · rw [hother u fun he => hu (he.trans ht)]
      exact h.other u hu
    · have hpc := hend ht
      rw [ht] at hn
      rcases next_self hn h.cond with hs | ⟨hreg, hout, -⟩
      · exact hs
      · obtain ⟨v, hv⟩ := Option.ne_none_iff_exists'.1 hreg
        refine absurd (hpc ?_ hout) hreg
        rw [registered_le hv]
        nofun
  · have hself : (r.state (i + 1)).pc owner = (r.state i).pc owner :=
      hother owner fun h => ht h.symm
    obtain ⟨hc, hw⟩ := next_other hn ht (h.other _ ht)
    refine ⟨fun u hu => ?_, ?_⟩
    · by_cases hut : u = (r.label i).1
      · rw [hut]
        exact hw
      · rw [hother u hut]
        exact h.other u hu
    · rw [hc, hself]
      exact h.cond

theorem inv_zero : Inv owner (r.state 0) := by
  obtain ⟨hs, hp⟩ := r.init
  refine ⟨fun t _ => ?_, ?_⟩
  · rw [hp]
    rfl
  · rw [hs, hp]
    rfl

theorem inv_run (h : EndAtOnce r) : ∀ i ≤ n, Inv owner (r.state i) := by
  intro i
  induction i with
  | zero => exact fun _ => inv_zero
  | succ i ih =>
    intro hi
    refine inv_step hi (ih (by omega)) fun ht hin hout => ?_
    obtain ⟨cond, pred, hp, -⟩ := h i hi ht hin hout
    rw [hp]
    rfl

/-- Interrupts touch what the thread waits on, and nothing else, in just the runs where no call ends
that has registered its condition variable. -/
theorem live_iff : Live r ↔ EndAtOnce r := by
  constructor
  · intro h
    -- call by call, the earlier ones having ended at once
    have hall : ∀ i ≤ n, Inv owner (r.state i) ∧ ∀ j < i, (r.label j).1 = owner →
        waitsOn ((r.state j).pc owner) ≠ none → waitsOn ((r.state (j + 1)).pc owner) = none →
          ∃ cond pred, (r.state j).pc owner = .firstPoint cond pred ∧
          (r.state j).shared.mFlag = true := by
      intro i
      induction i with
      | zero => exact fun _ => ⟨inv_zero, nofun⟩
      | succ i ih =>
        intro hi
        obtain ⟨hI, hend⟩ := ih (by omega)
        have hlast : (r.label i).1 = owner → waitsOn ((r.state i).pc owner) ≠ none →
            waitsOn ((r.state (i + 1)).pc owner) = none →
            ∃ cond pred, (r.state i).pc owner = .firstPoint cond pred ∧
              (r.state i).shared.mFlag = true := by
          intro ht hin hout
          obtain ⟨hn, -⟩ := Program.run_step r hi
          rw [ht] at hn
          refine (call_end hn hin hout).resolve_right ?_
          rintro ⟨hreg, hcond⟩
          rw [h.cleared (i + 1) hi hout, hI.cond] at hcond
          exact hreg hcond.symm
        refine ⟨inv_step hi hI fun ht hin hout => ?_, fun j hj => ?_⟩
        · obtain ⟨cond, pred, hp, -⟩ := hlast ht hin hout
          rw [hp]
          rfl
        · rcases Nat.lt_succ_iff_lt_or_eq.1 hj with hj | rfl
          · exact hend j hj
          · exact hlast
    exact (hall n le_rfl).2
  · intro h
    refine ⟨fun i hi hout => ?_, fun i hi _ cond hc => ?_⟩
    · rw [(inv_run h i hi).cond]
      refine Option.eq_none_iff_forall_ne_some.2 fun v hv => ?_
      rw [registered_le hv] at hout
      cases hout
    · rw [(inv_run h i hi.le).cond] at hc
      exact registered_le hc

end Runs

/-- The predicate is true, the call returns, and the next interrupt notifies what it has waited
on. -/
theorem not_live : ∃ r : (system (τ := Bool) (V := ℕ) true).Run (fun _ _ => True) 13,
    (r.state 12).pc false = .setNotify ∧ (r.state 12).shared.mCond = some 7 ∧
      (r.state 12).pc true = .ready ∧ ¬ Live r := by
  let run (t : Bool) (n : ℕ) : List (Bool × Act ℕ) := List.replicate n (t, .run)
  let as := (true, .interruptibleWait 7 true) :: run true 6 ++ (true, .answer (some true)) ::
    run true 1 ++ (false, .interrupt) :: run false 3
  obtain ⟨c, hc⟩ : ∃ c, (system true).exec ⟨⟨false, none, none⟩, fun _ => .ready⟩ as = some c :=
    ⟨_, rfl⟩
  obtain ⟨r, hr, -⟩ := System.exists_run (S := system true) (C := fun _ _ => True) (true, .run)
    ⟨rfl, rfl⟩ hc fun _ _ _ _ => trivial
  obtain ⟨c, hc, hnote, hcond, hready⟩ :
    ∃ c, (system true).exec ⟨⟨false, none, none⟩, fun _ => .ready⟩
      (as.take 12) = some c ∧ c.pc false = .setNotify ∧ c.shared.mCond = some 7 ∧
      c.pc true = .ready :=
    ⟨_, rfl, rfl, rfl, rfl⟩
  rw [hr 12 (by decide), Option.some.injEq] at hc
  subst hc
  refine ⟨r, hnote, hcond, hready, fun h => ?_⟩
  have hnull := h.cleared 12 (by decide) (by rw [hready]; rfl)
  rw [hcond] at hnull
  cases hnull

end InterruptibleThread

end ConcurrencySandbox

import ConcurrencySandbox.LockFreeHashMap.Invariant

/-!
# Calls on the list along a run

From its first step to its return a thread is in one call (`next_call`). `call_since` is the rule
for what a call has seen: in some state during the call `Q` held, or the thread's place still tells
`J`.
-/

namespace ConcurrencySandbox

open Interleaving Structures HazardPointer

namespace LockFreeHashMap

variable {τ A K V : Type*}

/-- The call a thread is in, its return included. -/
def PC.call : PC τ A K V → Option (Call K V)
  | .returned call _ => some call
  | p => p.caller.map Caller.call

def After.result : After A V → Option (Result V)
  | .ret r => some r
  | _ => none

/-- What the call returns, from the step that decides it. -/
def PC.result : PC τ A K V → Option (Result V)
  | .removeUnlink .. | .removeDrop .. | .removeRetire .. | .removeRetiring .. => some (.bool true)
  | .release _ _ k => k.result
  | .delete _ r | .returned _ r => some r
  | _ => none

/-- Where a call begins. -/
def PC.Begins (call : Call K V) (p : PC τ A K V) : Prop :=
  p = .new call ∨ p = .claimLoad ⟨call, none⟩ .initial .head

/-- The steps of a call are those of its own function. -/
def PC.Suits : PC τ A K V → Prop
  | .findUnlink c .. | .findDrop c .. | .findRetire c .. | .findRetiring _ c .. | .findTest c ..
  | .findReturn c .. | .found c .. => c.call.isGet = false
  | .getTest c .. => c.call.isGet = true
  | .insertStore c .. | .insertCas c .. =>
    (∃ slot key value, c.call = .add slot key value) ∨
    ∃ parent index, c.call = .insertSentinel parent index
  | .removeLoad c .. | .removeMark c .. | .removeUnlink c .. | .removeDrop c .. | .removeRetire c ..
  | .removeRetiring _ c .. => ∃ slot key, c.call = .remove slot key
  | _ => True

variable [DecidableEq τ] [DecidableEq A] {mHash : K → HashValueType} {g g' : Ghost τ A}
  {s s' : Shared τ A K V} {t u : τ} {act : Act A K V} {p p' : PC τ A K V} {call : Call K V}
  {ok : Bool} {fr fr' : Frame τ A} {site : Site A} {c : Caller A K V} {h : Holders} {mark : Bool}
  {q : Option A}

theorem domainStep_heap (h : s.domainStep t ok fr = some (s', fr')) : s'.heap = s.heap := by
  revert h
  unfold Shared.domainStep
  split <;> rintro ⟨⟩ <;> rfl

omit [DecidableEq τ] [DecidableEq A] in
theorem claimed_call (hn : claimed c h mark site q = some p') :
    p'.call = some c.call ∧ p'.result = none ∧ p'.Suits := by
  revert hn
  fun_cases claimed (τ := τ) c h mark site q <;> intro hn
  · cases hn
    exact ⟨rfl, rfl, trivial⟩
  · rename_i hget
    cases hn
    exact ⟨rfl, rfl, hget⟩
  · cases hn
    exact ⟨rfl, rfl, trivial⟩
  · rename_i hget
    obtain ⟨a, -, rfl⟩ := Option.map_eq_some_iff.1 hn
    exact ⟨rfl, rfl, hget⟩
  · rename_i hget hm
    cases hn
    exact ⟨rfl, rfl, Bool.eq_false_of_not_eq_true hget⟩
  · rename_i hget hm
    cases hn
    exact ⟨rfl, rfl, Bool.eq_false_of_not_eq_true hget⟩
  · cases hn

theorem nextClaim_call (hn : nextClaim t act s p = some (s', p')) :
    p'.call = p.call ∧ p.result = none ∧ p'.result = none := by
  revert hn
  fun_cases nextClaim t act s p <;> intro hn
  · cases hn
    exact ⟨rfl, rfl, rfl⟩
  · cases hn
    exact ⟨rfl, rfl, rfl⟩
  · obtain ⟨pc, hpc, he⟩ := Option.map_eq_some_iff.1 hn
    cases he
    exact ⟨(claimed_call hpc).1, rfl, (claimed_call hpc).2.1⟩
  · cases hn
    exact ⟨rfl, rfl, rfl⟩
  · cases hn

variable [DecidableEq K]

theorem nextFind_call (hn : nextFind mHash t act s p = some (s', p')) :
    p'.call = p.call ∧ p.result = none ∧ p'.result = none := by
  revert hn
  fun_cases nextFind mHash t act s p <;> intro hn <;> cases hn <;> exact ⟨rfl, rfl, rfl⟩

omit [DecidableEq τ] [DecidableEq A] in
theorem nextGet_call (hn : nextGet mHash act s p = some (s', p')) :
    p'.call = p.call ∧ p.result = none := by
  revert hn
  fun_cases nextGet mHash act s p <;> intro hn <;> cases hn <;> exact ⟨rfl, rfl⟩

omit [DecidableEq τ] [DecidableEq K] in
theorem nextInsert_call (hn : nextInsert act s p = some (s', p')) :
    p'.call = p.call ∧ p.result = none := by
  revert hn
  fun_cases nextInsert act s p <;> intro hn <;> cases hn <;> exact ⟨rfl, rfl⟩

omit [DecidableEq K] in
theorem nextRemove_call (hn : nextRemove t act s p = some (s', p')) :
    p'.call = p.call ∧ ∀ r, p.result = some r → p'.result = some r := by
  revert hn
  fun_cases nextRemove t act s p <;> intro hn <;> cases hn <;>
    exact ⟨rfl, by simp [PC.result, After.result]⟩

theorem nextReturn_call (hn : nextReturn mHash t act s p = some (s', p')) :
    p'.call = none ∨ p'.call = p.call ∧ ∀ r, p.result = some r → p'.result = some r := by
  revert hn
  fun_cases nextReturn mHash t act s p <;> intro hn <;> cases hn
  case case19.refl => exact .inl rfl
  all_goals exact .inr ⟨rfl, by simp [PC.result, After.result]⟩

/-- The step of a thread that is in a call. -/
theorem next_cases (hc : p.call = some call) (hn : next mHash t act s p = some (s', p')) :
    (∃ a, p = .new call ∧ act = .alloc a ∧ ¬ s.allocated a = true ∧
      s' = s.make a (call.hashValue mHash) call.value ∧
        p' = .claimLoad ⟨call, some a⟩ .initial .head) ∨
    nextClaim t act s p = some (s', p') ∨ nextFind mHash t act s p = some (s', p') ∨
    nextGet mHash act s p = some (s', p') ∨ nextInsert act s p = some (s', p') ∨
    nextRemove t act s p = some (s', p') ∨ nextReturn mHash t act s p = some (s', p') := by
  revert hn
  fun_cases next mHash t act s p <;> intro hn <;> first | cases hc | skip
  · cases hn
  · cases hn
    exact .inl ⟨_, rfl, rfl, ‹_›, rfl, rfl⟩
  · exact .inr (.inl (hn ▸ ‹_›))
  · exact .inr (.inr (.inl (hn ▸ ‹_›)))
  · exact .inr (.inr (.inr (.inl (hn ▸ ‹_›))))
  · exact .inr (.inr (.inr (.inr (.inl (hn ▸ ‹_›)))))
  · exact .inr (.inr (.inr (.inr (.inr (.inl (hn ▸ ‹_›))))))
  · exact .inr (.inr (.inr (.inr (.inr (.inr hn)))))

/-- Only the constructor of a node allocates. -/
theorem next_alloc {a : A} (hc : p.call = some call)
    (hn : next mHash t (.alloc a) s p = some (s', p')) :
    ¬ s.allocated a = true ∧ p' = .claimLoad ⟨call, some a⟩ .initial .head := by
  rcases next_cases hc hn with ⟨b, rfl, hb, hfree, -, rfl⟩ | hn | hn | hn | hn | hn | hn
  · cases hb
    exact ⟨hfree, rfl⟩
  · cases p <;> simp [nextClaim] at hn
  · cases p <;> simp [nextFind] at hn
  · cases p <;> simp [nextGet] at hn
  · cases p <;> simp [nextInsert] at hn
  · cases p <;> simp [nextRemove] at hn
  · cases p <;> simp [nextReturn] at hn

omit [DecidableEq τ] [DecidableEq A] [DecidableEq K] in
theorem PC.idle (hc : p.call = none) : ∃ f, p = .domain f := by
  cases p <;> first | exact ⟨_, rfl⟩ | cases hc

/-- The step of a thread that is in no call. -/
theorem next_idle (hc : p.call = none) (hn : next mHash t act s p = some (s', p')) :
    s' = s ∨ ∃ ok f f', s.domainStep t ok f = some (s', f') := by
  obtain ⟨f, rfl⟩ := PC.idle hc
  cases act with
  | call c =>
    left
    cases f <;> simp only [next, reduceCtorEq] at hn
    split at hn
    · split_ifs at hn
      cases c <;> cases hn <;> rfl
    · cases hn
  | exit listFirst =>
    left
    cases f <;> simp only [next, reduceCtorEq] at hn
    cases hn
    rfl
  | run ok =>
    right
    simp only [next] at hn
    split at hn
    · cases hn
      exact ⟨_, _, _, ‹_›⟩
    · cases hn
  | alloc a => cases f <;> simp [next] at hn

/-- A thread that is in no call begins one, or is in none still. -/
theorem next_begins (hc : p.call = none) (hn : next mHash t act s p = some (s', p')) :
    p'.call = none ∨ ∃ call, act = .call call ∧ PC.Begins call p' := by
  revert hn
  fun_cases next mHash t act s p <;> intro hn
  · cases hn
    exact .inr ⟨_, rfl, .inl rfl⟩
  · cases hn
    exact .inr ⟨_, rfl, .inl rfl⟩
  · cases hn
    exact .inr ⟨_, rfl, .inr rfl⟩
  · cases hn
    exact .inr ⟨_, rfl, .inr rfl⟩
  · cases hn
  · cases hn
  · cases hn
    exact .inl rfl
  · cases hn
    exact .inl rfl
  · cases hn
  · cases hn
  · cases hn
  · cases hc
  · cases hn
    exact .inl ((nextClaim_call ‹_›).1.trans hc)
  · cases hn
    exact .inl ((nextFind_call ‹_›).1.trans hc)
  · cases hn
    exact .inl ((nextGet_call ‹_›).1.trans hc)
  · cases hn
    exact .inl ((nextInsert_call ‹_›).1.trans hc)
  · cases hn
    exact .inl ((nextRemove_call ‹_›).1.trans hc)
  · exact .inl ((nextReturn_call hn).elim id fun h => h.1.trans hc)

/-- Until it has returned a thread stays in its call, and what is decided stays. -/
theorem next_call (hc : p.call = some call) (hn : next mHash t act s p = some (s', p')) :
    p'.call = none ∨ p'.call = some call ∧ ∀ r, p.result = some r → p'.result = some r := by
  rcases next_cases hc hn with ⟨a, rfl, -, -, -, rfl⟩ | hn | hn | hn | hn | hn | hn
  · exact .inr ⟨rfl, nofun⟩
  · obtain ⟨h1, h2, -⟩ := nextClaim_call hn
    exact .inr ⟨h1.trans hc, by simp [h2]⟩
  · obtain ⟨h1, h2, -⟩ := nextFind_call hn
    exact .inr ⟨h1.trans hc, by simp [h2]⟩
  · obtain ⟨h1, h2⟩ := nextGet_call hn
    exact .inr ⟨h1.trans hc, by simp [h2]⟩
  · obtain ⟨h1, h2⟩ := nextInsert_call hn
    exact .inr ⟨h1.trans hc, by simp [h2]⟩
  · obtain ⟨h1, h2⟩ := nextRemove_call hn
    exact .inr ⟨h1.trans hc, h2⟩
  · exact (nextReturn_call hn).imp id fun h => ⟨h.1.trans hc, h.2⟩

theorem next_suits (hp : p.Suits) (hn : next mHash t act s p = some (s', p')) : p'.Suits := by
  cases hc : p.call with
  | none =>
    rcases next_begins hc hn with h | ⟨call, -, rfl | rfl⟩
    · cases p' <;> trivial
    · trivial
    · trivial
  | some call =>
    rcases next_cases hc hn with ⟨a, rfl, -, -, -, rfl⟩ | hn | hn | hn | hn | hn | hn
    · trivial
    · revert hn
      fun_cases nextClaim t act s p <;> intro hn
      · cases hn
        trivial
      · cases hn
        trivial
      · obtain ⟨pc, hpc, he⟩ := Option.map_eq_some_iff.1 hn
        cases he
        exact (claimed_call hpc).2.2
      · cases hn
        trivial
      · cases hn
    · revert hn
      fun_cases nextFind mHash t act s p <;> intro hn <;> cases hn <;> first | exact hp | trivial
    · revert hn
      fun_cases nextGet mHash act s p <;> intro hn <;> cases hn <;> trivial
    · revert hn
      fun_cases nextInsert act s p <;> intro hn <;> cases hn <;> first | exact hp | trivial
    · revert hn
      fun_cases nextRemove t act s p <;> intro hn <;> cases hn <;> first | exact hp | trivial
    · revert hn
      fun_cases nextReturn mHash t act s p <;> intro hn <;> cases hn <;> first | trivial | skip
      · exact .inl ⟨_, _, _, ‹_›⟩
      · exact ⟨_, _, ‹_›⟩
      · exact .inr ⟨_, _, ‹_›⟩

section Run

variable {C : Conf τ (Shared τ A K V) (PC τ A K V) → τ × Act A K V → Prop}
  {cf cf' : Conf τ (Shared τ A K V) (PC τ A K V)} {n : ℕ}

theorem suits_reach (h : (system mHash).Reach C cf) (t : τ) : (cf.pc t).Suits := by
  refine h.induct (P := fun c => ∀ t, (c.pc t).Suits) ?_ ?_ t
  · rintro ⟨s, f⟩ ⟨-, rfl⟩ t
    trivial
  · rintro c ⟨t, act⟩ c' - hp - hs
    obtain ⟨s', p', hn, rfl⟩ := Program.step_eq_some.1 hs
    exact Program.forall_update (L := fun _ => PC.Suits) (next_suits (hp t) hn) fun u _ => hp u

variable (r : (system mHash).Run C n)

/-- From `l` to `i` the thread is in the call. -/
def During (t : τ) (call : Call K V) (l i : ℕ) : Prop :=
  l ≤ i ∧ ∀ m, l ≤ m → m ≤ i → ((r.state m).pc t).call = some call

omit C in
theorem run_begins {C : Conf τ (Shared τ A K V) (PC τ A K V) → τ × Act A K V → Prop}
    (r : (system mHash).Run C n) {i : ℕ} (hi : i < n) (hnot : ((r.state i).pc t).call ≠ some call)
    (hc : ((r.state (i + 1)).pc t).call = some call) : PC.Begins call ((r.state (i + 1)).pc t) := by
  obtain ⟨hn, hothers⟩ := Program.run_step r hi
  by_cases ht : t = (r.label i).1
  · subst ht
    cases hc' : ((r.state i).pc (r.label i).1).call with
    | none =>
      rcases next_begins hc' hn with h | ⟨call', -, h⟩
      · cases h.symm.trans hc
      · have hcall : ((r.state (i + 1)).pc (r.label i).1).call = some call' := by
          rcases h with h | h <;> rw [h] <;> rfl
        cases hcall.symm.trans hc
        exact h
    | some call' =>
      rcases next_call hc' hn with h | ⟨h, -⟩
      · cases h.symm.trans hc
      · cases h.symm.trans hc
        exact absurd hc' hnot
  · rw [hothers t ht] at hc
    exact absurd hc hnot

/-- What every step of a call keeps until `Q` holds tells, at any point of the call, that `Q` held
in a state during it. -/
theorem call_since {t : τ} {call : Call K V} {Q : Shared τ A K V → Prop}
    {J : Ghost τ A → Shared τ A K V → PC τ A K V → Prop}
    (enter : ∀ g s p, PC.Begins call p → J g s p)
    (own : ∀ g c act g' x e s' p', Sound mHash g c → (c.pc t).Suits → C c (t, act) →
      Effect mHash t act x (change c.shared (c.pc t)) g g' c.shared s' e →
      Placed mHash g' s' t p' → next mHash t act c.shared (c.pc t) = some (s', p') →
      (c.pc t).call = some call → p'.call = some call → J g c.shared (c.pc t) →
      Q s' ∨ J g' s' p')
    (other : ∀ g c u act g' x e s', u ≠ t → Sound mHash g c → (c.pc t).Suits → C c (u, act) →
      Effect mHash u act x (change c.shared (c.pc u)) g g' c.shared s' e →
      Placed mHash g' s' t (c.pc t) → (c.pc t).call = some call → J g c.shared (c.pc t) →
      Q s' ∨ J g' s' (c.pc t))
    {i : ℕ} (hi : i ≤ n) (hc : ((r.state i).pc t).call = some call) :
    (∃ l, During r t call l i ∧ Q (r.state l).shared) ∨
      ∃ g, Sound mHash g (r.state i) ∧ J g (r.state i).shared ((r.state i).pc t) := by
  have hsince := r.since (P := fun c => (c.pc t).call = some call) (Q := fun c => Q c.shared)
    (J := fun c => ∃ g, Sound mHash g c ∧ J g c.shared (c.pc t)) ?_ ?_ i hi hc
  · exact hsince.imp (fun ⟨l, hl, hd, hQ⟩ => ⟨l, ⟨hl, hd⟩, hQ⟩) id
  · intro i hi hbefore hP
    obtain ⟨g, hS⟩ := sound_reach (r.reach hi)
    refine .inr ⟨g, hS, enter g _ _ ?_⟩
    cases i with
    | zero =>
      rw [r.init.2] at hP
      cases hP
    | succ i => exact run_begins r hi (hbefore i rfl) hP
  · rintro i hi hP hP' ⟨g, hS, hJ⟩
    obtain ⟨g', x, e, hE, hS'⟩ := sound_step hS (r.step i hi)
    obtain ⟨hn, hothers⟩ := Program.run_step r hi
    have hsuits := suits_reach (r.reach hi.le) t
    have hp' := hS'.2.2 t
    have hkeep : Q (r.state (i + 1)).shared ∨
        J g' (r.state (i + 1)).shared ((r.state (i + 1)).pc t) := by
      by_cases hu : t = (r.label i).1
      · subst hu
        exact own g _ _ g' x e _ _ hS hsuits (r.meets i hi) hE hp' hn hP hP' hJ
      · rw [hothers t hu] at hp' ⊢
        exact other g _ _ _ g' x e _ (fun h => hu h.symm) hS hsuits (r.meets i hi) hE hp' hP hJ
    exact hkeep.imp id fun h => ⟨g', hS', h⟩

end Run

end LockFreeHashMap

end ConcurrencySandbox

import Mathlib.Data.BitVec
import ConcurrencySandbox.ParallelAlgorithm.Failures
import ConcurrencySandbox.Structures.Segment

/-!
# The partial sums

With a `+` that does not throw, every run of `parallel_partial_sum` ends with the partial sums in
the range, when its `int`s do not overflow and `hardware_concurrency()` is one (`partial_sum_iff`):
a block first has the sums from its own first element, then, from its end, those from the first
element of all.
-/

namespace ConcurrencySandbox

open Interleaving Structures

namespace ParallelPartialSum

variable {α ε : Type*} {n : ℕ}

section Content

variable [Add α] (a : ℕ → α) (b : Blocks n)

/-- The elements of block `t` when its thread is there, without an exception. -/
def content (t : ℕ) : Place α ε → ℕ → α
  | .unstarted, i | .launch _, i => a i
  | .sum it, i => if i < it then segment a (b.first t) i else a i
  | .get, i | .addLast _, i => segment a (b.first t) i
  | .setValue _, i => if i < b.last t then segment a (b.first t) i else partialSum a i
  | .fix _ it, i =>
    if it ≤ i ∧ i < b.last t then segment a (b.first t) i else partialSum a i
  | _, i => partialSum a i

def Place.prevVal : Place α ε → Option α
  | .addLast v | .setValue v | .fix v _ => some v
  | _ => none

/-- Block `t` has what it should have, and so has its `prevVal`. -/
structure Summed (s : State α ε) (t : ℕ) (p : Place α ε) : Prop where
  content : ∀ i, b.first t ≤ i → i ≤ b.last t → s.range i = content a b t p i
  prevVal : ∀ v, p.prevVal = some v → 0 < t → v = partialSum a (b.first t - 1)

/-- What a block gives to the next one is the sum up to its last element. -/
def Given (s : State α ε) : Prop :=
  ∀ t v, s.results t = some (.ok v) → v = partialSum a (b.last t)

/-- A step of thread `t`: what it does to the range, it does to its own block. -/
structure Grown (s s' : State α ε) (t : ℕ) (p' : Place α ε) : Prop where
  own : Summed a b s' t p'
  outside : ∀ i, ¬ (b.first t ≤ i ∧ i ≤ b.last t) → s'.range i = s.range i
  given : Given a b s'

end Content

section Steps

variable [AddCommSemigroup α] [Inhabited α] {a : ℕ → α} {b : Blocks n} {s s' : State α ε} {t : ℕ}
  {p p' : Place α ε}

omit [Inhabited α] in
theorem Grown.of_range (hs : Summed a b s t p) (hg : Given a b s) (hrange : s'.range = s.range)
    (hresults : s'.results = s.results)
    (hcontent : ∀ i, b.first t ≤ i → i ≤ b.last t → content a b t p' i = content a b t p i)
    (hprev : ∀ v, p'.prevVal = some v → 0 < t → v = partialSum a (b.first t - 1)) :
    Grown a b s s' t p' := by
  refine ⟨⟨fun i h1 h2 => ?_, hprev⟩, fun i _ => congrFun hrange i, ?_⟩
  · rw [hrange, hs.content i h1 h2, hcontent i h1 h2]
  · unfold Given
    rw [hresults]
    exact hg

omit [Inhabited α] in
/-- `*j += v`, in the thread's own block. -/
theorem Grown.add {j : ℕ} {v : α} (hs : Summed a b s t p) (hg : Given a b s) (h1 : b.first t ≤ j)
    (h2 : j ≤ b.last t) (hj : content a b t p j + v = content a b t p' j)
    (hcontent : ∀ i, b.first t ≤ i → i ≤ b.last t → i ≠ j →
      content a b t p' i = content a b t p i)
    (hprev : ∀ v, p'.prevVal = some v → 0 < t → v = partialSum a (b.first t - 1)) :
    Grown a b s (s.add j v) t p' := by
  refine ⟨⟨fun i hi1 hi2 => ?_, hprev⟩, fun i hi => ?_, hg⟩
  · by_cases hij : i = j
    · subst hij
      exact (Function.update_self _ _ _).trans (by rw [hs.content i h1 h2, hj])
    · exact (Function.update_of_ne hij _ _).trans
        (by rw [hs.content i hi1 hi2, hcontent i hi1 hi2 hij])
  · refine Function.update_of_ne (fun hij => hi ?_) _ _
    subst hij
    exact ⟨h1, h2⟩

omit [Inhabited α] in
/-- After `set_value`, the elements before the last are still those of the block alone. -/
theorem content_afterValue (hT : t < b.numThreads) (v : α) {i : ℕ} (h1 : b.first t ≤ i)
    (h2 : i ≤ b.last t) : content a b t (afterValue b t v : Place α ε) i =
      content a b t (.setValue v : Place α ε) i := by
  unfold afterValue
  split_ifs with h0
  · subst h0
    simp only [content, Blocks.first_zero, segment_zero, ite_self]
  · simp only [content, h1, true_and]

omit [AddCommSemigroup α] [Inhabited α] in
theorem prevVal_afterValue {v w : α} (h : (afterValue b t v : Place α ε).prevVal = some w) :
    w = v := by
  revert h
  unfold afterValue
  split_ifs
  · exact nofun
  · rintro ⟨⟩
    rfl

omit [Inhabited α] in
/-- The sum of a block and of what is before it. -/
theorem segment_add_partialSum (ht : 0 < t) (hT : t < b.numThreads) {i : ℕ} (hi : b.first t ≤ i) :
    segment a (b.first t) i + partialSum a (b.first t - 1) = partialSum a i := by
  have hlast := b.last_add_one (t := t - 1) (by omega)
  rw [Nat.sub_add_cancel ht] at hlast
  rw [add_comm, ← segment_zero, ← segment_zero,
    ← segment_trans a (Nat.zero_le (b.first t - 1)) (show b.first t - 1 + 1 ≤ i by omega),
    show b.first t - 1 + 1 = b.first t by omega]

theorem process_grown (hT : t < b.numThreads) (hk : Known b s t p) (hs : Summed a b s t p)
    (hg : Given a b s) (hexc : p.exception = none) (hexc' : p'.exception = none)
    (hn : process b t .run s p = some (s', p')) : Grown a b s s' t p' := by
  have hle := b.first_le_last hT
  have hin := hk.inside
  revert hn
  fun_cases process b t .run s p <;> intro hn <;> cases hn
  case case1 it hit =>
    obtain ⟨h1, h2⟩ := hin
    refine .add hs hg h1.le (by omega) ?_ (fun i hi1 hi2 hij => ?_) (by rintro _ ⟨⟩)
    · rw [hs.content (it - 1) (by omega) (by omega)]
      have hsucc := segment_succ a (show b.first t ≤ it - 1 by omega)
      rw [Nat.sub_add_cancel (by omega)] at hsucc
      simp only [content]
      rw [if_neg (by omega), if_pos (by omega), if_pos (by omega), hsucc, add_comm]
    · simp only [content]
      split_ifs <;> first | rfl | omega
  case case3 it hit =>
    have hend : ∀ i, b.first t ≤ i → i ≤ b.last t →
        content a b t (.sum it : Place α ε) i = segment a (b.first t) i := fun i _ hi =>
      if_pos (by omega)
    split_ifs with h0
    · subst h0
      refine .of_range hs hg rfl rfl (fun i hi1 hi2 => ?_) (fun v _ h => absurd h (Nat.lt_irrefl 0))
      rw [hend i hi1 hi2]
      simp only [content, Blocks.first_zero, segment_zero, ite_self]
    · exact .of_range hs hg rfl rfl (fun i hi1 hi2 => (hend i hi1 hi2).symm) (by rintro _ ⟨⟩)
  case case5 v hv =>
    refine .of_range hs hg rfl rfl (fun _ _ _ => rfl) ?_
    rintro _ ⟨⟩ h0
    have hlast := b.last_add_one (t := t - 1) (by omega)
    rw [Nat.sub_add_cancel h0] at hlast
    rw [hg (t - 1) v hv]
    exact congrArg _ (by omega)
  case case10 v =>
    refine .add hs hg hle le_rfl ?_ (fun i _ hi hne => ?_) hs.prevVal
    · rw [hs.prevVal v rfl hin]
      simp only [content, lt_irrefl, if_false]
      exact segment_add_partialSum hin hT hle
    · exact if_pos (by omega)
  case case12 v hlt hprom hres =>
    refine ⟨⟨fun i hi1 hi2 => ?_, ?_⟩, fun _ _ => rfl, fun u w hw => ?_⟩
    · rw [content_afterValue hT v hi1 hi2]
      exact hs.content i hi1 hi2
    · intro w hw
      rw [prevVal_afterValue hw]
      exact hs.prevVal v rfl
    · by_cases hu : u = t
      · subst hu
        rw [fulfil_self, Option.some.injEq, Except.ok.injEq] at hw
        rw [← hw, hs.content _ hle le_rfl]
        exact if_neg (lt_irrefl _)
      · exact hg u w ((Function.update_of_ne hu _ _).symm.trans hw)
  case case15 v hlt =>
    refine .of_range hs hg rfl rfl (fun i hi1 hi2 => content_afterValue hT v hi1 hi2) ?_
    intro w hw
    rw [prevVal_afterValue hw]
    exact hs.prevVal v rfl
  case case17 v it hit =>
    obtain ⟨h0, h1, h2⟩ := hin
    refine .add hs hg h1 h2 ?_ (fun i hi1 hi2 hij => ?_) hs.prevVal
    · rw [hs.prevVal v rfl h0]
      simp only [content]
      rw [if_pos (by omega), if_neg (by omega)]
      exact segment_add_partialSum h0 hT h1
    · simp only [content]
      split_ifs <;> first | rfl | omega
  case case19 v it hit =>
    refine .of_range hs hg rfl rfl (fun i _ hi => ?_) (by rintro _ ⟨⟩)
    simp only [content]
    rw [if_neg (by omega)]
  case case8 | case14 => exact .of_range hs hg rfl rfl (fun _ _ _ => rfl) hs.prevVal
  case case21 | case22 | case23 | case24 => cases hexc
  all_goals cases hexc'

omit [Inhabited α] in
theorem thread_grown (hs : Summed a b s t p) (hg : Given a b s) (hexc : p.exception = none)
    (hn : thread b t s p = some (s', p')) : Grown a b s s' t p' := by
  revert hn
  fun_cases thread b t s p <;> intro hn <;> cases hn
  case case1 ht =>
    refine .of_range hs hg rfl rfl (fun i hi1 hi2 => ?_) (by rintro _ ⟨⟩)
    simp only [content]
    split_ifs with hi
    · obtain rfl : i = b.first t := by omega
      exact segment_self a
    · rfl
  case case3 => exact .of_range hs hg rfl rfl (fun _ _ _ => rfl) (by rintro _ ⟨⟩)
  case case4 => cases hexc

omit [Inhabited α] in
theorem caller_grown (hs : Summed a b s t p) (hg : Given a b s)
    (hn : caller b t s p = some (s', p')) : Grown a b s s' t p' := by
  revert hn
  fun_cases caller b t s p <;> intro hn <;> cases hn
  case case3 i hi =>
    refine .of_range hs hg rfl rfl (fun i hi1 hi2 => ?_) (by rintro _ ⟨⟩)
    simp only [content]
    split_ifs with hi
    · obtain rfl : i = b.first t := by omega
      exact segment_self a
    · rfl
  case case4 r =>
    refine ⟨⟨hs.content, by rintro _ ⟨⟩⟩, fun _ _ => rfl, fun u v hv => ?_⟩
    simp only [State.dropPromises] at hv
    split_ifs at hv
    · cases hv
    · exact hg u v hv
  all_goals exact .of_range hs hg rfl rfl (fun _ _ _ => rfl) (by rintro _ ⟨⟩)

end Steps

section Runs

variable [AddCommSemigroup α] [Inhabited α] {a : ℕ → α} {b : Blocks n}
  {c : Conf (Fin b.numThreads) (State α Empty) (Place α Empty)}

omit [AddCommSemigroup α] [Inhabited α] in
theorem exception_eq_none {s : State α Empty} {t : ℕ} {p : Place α Empty} (hk : Known b s t p) :
    p.exception = none := by
  by_contra h
  obtain ⟨e, he⟩ := Option.ne_none_iff_exists'.1 h
  obtain ⟨x, -⟩ := hk.threw e he
  exact x.elim

omit [AddCommSemigroup α] [Inhabited α] in
/-- The caller leaves `process` after every thread has given its result. -/
theorem Sound.contained (hS : Sound b c) (l : Fin b.numThreads × Act Empty) : Contained b c l := by
  obtain ⟨t, act⟩ := l
  cases act with
  | throw e => exact e.elim
  | run =>
    refine fun hleaving => or_iff_not_imp_left.2 fun hlt u hu => ?_
    cases eq_caller hlt
    have hexc := exception_eq_none (hS.known b.caller)
    rw [(hS.worker hu).delivered]
    refine (hS.all_passed ?_ hu).isSome
    revert hleaving hexc
    cases c.pc b.caller with
    | done r =>
      rintro - rfl
      rfl
    | _ => exact nofun

/-- Every block has what it should have. -/
structure Right (a : ℕ → α) (b : Blocks n)
    (c : Conf (Fin b.numThreads) (State α Empty) (Place α Empty)) : Prop where
  sound : Sound b c
  summed : ∀ t : Fin b.numThreads, Summed a b c.shared t (c.pc t)
  given : Given a b c.shared

theorem next_grown {t : Fin b.numThreads} {act : Act Empty} {s' : State α Empty}
    {p' : Place α Empty} (hR : Right a b c) (hk : Known b s' t p')
    (hn : next b t act c.shared (c.pc t) = some (s', p')) : Grown a b c.shared s' t p' := by
  have hexc := exception_eq_none (hR.sound.known t)
  cases act with
  | throw e => exact e.elim
  | run =>
    unfold next at hn
    rw [if_pos hR.sound.running] at hn
    split at hn
    · rename_i hp
      cases hn
      exact process_grown t.isLt (hR.sound.known t) (hR.summed t) hR.given hexc
        (exception_eq_none hk) hp
    · cases hn
    · split_ifs at hn
      · exact thread_grown (hR.summed t) hR.given hexc hn
      · exact caller_grown (hR.summed t) hR.given hn

theorem right_reach (h : (system b a).Reachable c) : Right a b c := by
  refine System.Reach.induct (P := Right a b) ?_ ?_ h
  · rintro ⟨s, f⟩ ⟨rfl, rfl⟩
    exact ⟨sound_init b a, fun t => ⟨fun _ _ _ => rfl, nofun⟩, nofun⟩
  · rintro c ⟨t, act⟩ c' - hR - hst
    obtain ⟨s', p', hn, rfl⟩ := Program.step_eq_some.1 hst
    have hM := next_moved hR.sound (hR.sound.contained _) hn
    have hG := next_grown hR hM.known hn
    refine ⟨sound_step hR.sound hM, ?_, hG.given⟩
    refine Program.forall_update hG.own fun u hu => ⟨fun i hi1 hi2 => ?_, (hR.summed u).prevVal⟩
    rw [hG.outside i fun hi => hu (Fin.ext (b.block_unique u.isLt t.isLt hi1 hi2 hi.1 hi.2))]
    exact (hR.summed u).content i hi1 hi2

/-- With a `+` that does not throw every run ends, and at its end the call has returned, and element
`k` is the sum of the elements up to `k`. -/
def Agrees (n : ℕ) (hardwareConcurrency : BitVec 32) (a : ℕ → α) : Prop :=
  ∃ b : Blocks n, setup n hardwareConcurrency = .ready b ∧
    (∃ N, ∀ m, (system (ε := Empty) b a).Run (fun _ _ => True) m → m ≤ N) ∧
    ∀ c, (system (ε := Empty) b a).Reachable c → Propagates b c ∧
      ∀ r, c.pc b.caller = .ended r → r = none ∧ ∀ k < n, c.shared.range k = partialSum a k

theorem Right.range_eq (hR : Right a b c) (hend : c.pc b.caller = .ended none) {k : ℕ}
    (hk : k < n) : c.shared.range k = partialSum a k := by
  obtain ⟨t, ht, h1, h2⟩ := b.exists_block hk
  have hplace : c.pc ⟨t, ht⟩ = .ended none := by
    by_cases hlt : t + 1 < b.numThreads
    · exact hR.sound.propagates.joined none hend ⟨t, ht⟩ hlt
    · rw [eq_caller (t := ⟨t, ht⟩) hlt, hend]
  have hc := (hR.summed ⟨t, ht⟩).content k h1 h2
  rwa [hplace] at hc

theorem agrees (b : Blocks n) {hardwareConcurrency : BitVec 32}
    (hb : setup n hardwareConcurrency = .ready b) (a : ℕ → α) : Agrees n hardwareConcurrency a := by
  refine ⟨b, hb, ⟨_, fun m r => run_le (fun c l hr _ => ?_) r⟩, fun c hc => ?_⟩
  · have hS := (right_reach hr).sound
    exact ⟨hS, hS.contained l⟩
  · have hR := right_reach hc
    refine ⟨hR.sound.propagates, fun r hr => ?_⟩
    have hexc := exception_eq_none (hR.sound.known b.caller)
    rw [hr] at hexc
    cases (show r = none from hexc)
    exact ⟨rfl, fun k hk => hR.range_eq hr hk⟩

/-- `parallel_partial_sum` agrees with `std::partial_sum` on the lengths whose `int`s do not
overflow, when `hardware_concurrency()` is an `int`. -/
theorem partial_sum_iff (h1 : 1 ≤ n) (h2 : n ≤ 2 ^ 31 - 32) (hardwareConcurrency : BitVec 32)
    (a : ℕ → α) : Agrees n hardwareConcurrency a ↔
      n < 2 ^ 31 - 32 ∧ hardwareConcurrency.toNat < 2 ^ 31 := by
  rw [← ready_iff h1 (by omega)]
  exact ⟨fun ⟨b, hb, _⟩ => ⟨b, hb⟩, fun ⟨b, hb⟩ => agrees b hb a⟩

/-- 70 elements on a machine of four threads. -/
theorem partial_sum_seventy : Agrees 70 4 fun i : ℕ => i :=
  (partial_sum_iff (by decide) (by decide) 4 fun i => i).2 ⟨by decide, by decide⟩

/-- The addition of `minPerThread` overflows, and a `hardware_concurrency()` beyond `int` gives a
negative number of threads. -/
theorem partial_sum_not_agrees : ¬ Agrees (2 ^ 31 - 32) 4 (fun i : ℕ => i) ∧
    ¬ Agrees 1 (2 ^ 32 - 1) fun i : ℕ => i := by
  constructor
  · rintro ⟨b, hb, -⟩
    have := ((ready_iff (by decide) (by decide)).1 ⟨b, hb⟩).1
    omega
  · rintro ⟨b, hb, -⟩
    have := ((ready_iff (by decide) (by decide)).1 ⟨b, hb⟩).2
    exact absurd this (by decide)

end Runs

end ParallelPartialSum

end ConcurrencySandbox

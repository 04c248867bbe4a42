import Mathlib.Data.List.ReduceOption
import ConcurrencySandbox.Interleaving.Count
import ConcurrencySandbox.Interleaving.Mutex
import ConcurrencySandbox.ThreadSafeStack.Basic

/-!
# The stack is linearizable and loses no wakeup

Everything happens under `mLock`, so what the holder is about to do is all that can be out of order:
between the move and the `pop` the top is a null pointer. As `push` notifies under the lock, a
waiter has either seen the value or sleeps already: the stack holds no more values, while anybody
sleeps, than notifications are due and waiters are awake.
-/

namespace ConcurrencySandbox

open Interleaving Structures

namespace ThreadSafeStack

variable {τ T : Type*}

/-- The thread has `mLock`. -/
def holds : PC T → Bool
  | .pushPush _ | .pushNotify _ | .pushUnlock _ | .test _ | .top _ | .popTop .. | .unlock ..
  | .emptyTest | .emptyUnlock _ => true
  | _ => false

/-- What the stack is like for the thread that has the lock. -/
def Good (stack : List (Option T)) : PC T → Prop
  | .top _ => ∃ v l, stack = some v :: List.map some l
  | .popTop _ ans => ∃ v l, ans = some v ∧ stack = none :: List.map some l
  | _ => ∃ l : List T, stack = l.map some

theorem good_iff {stack : List (Option T)} {p : PC T} (hp : holds p = false) :
    Good stack p ↔ ∃ l : List T, stack = l.map some := by
  cases p with
  | top | popTop => cases hp
  | _ => exact Iff.rfl

/-- A call of `pop` has a value. -/
def Answered : PC T → Prop
  | .popTop _ ans => ans ≠ none
  | .unlock wait ans | .popped wait ans => wait = true → ans ≠ none
  | _ => True

/-- What a thread has done in its call and not returned from. -/
def pending : PC T → List (Event T)
  | .pushNotify val | .pushUnlock val | .pushed val => [.push val]
  | .popTop _ ans | .unlock _ ans | .popped _ ans => (ans.map .pop).toList
  | _ => []

variable [DecidableEq τ] {t u : τ} {act : Act τ T} {s s' : Shared τ T} {f : τ → PC T} {p p' : PC T}

/-! ### What a step does -/

theorem next_lock (hn : next t act s p = some (s', p')) :
    LockStep t (holds p) s.mLock (holds p') s'.mLock := by
  revert hn
  fun_cases next t act s p <;> intro hn <;> cases hn <;>
    first | exact .keep _ _ | exact .acquire ‹_› | exact .release _ | exact .acquire (And.right ‹_›)

/-- The stack and its history change in the hands of the holder only. -/
theorem next_keep (hp : holds p = false) (hn : next t act s p = some (s', p')) :
    s'.mStack = s.mStack ∧ s'.history = s.history := by
  revert hn
  fun_cases next t act s p <;> intro hn <;> cases hn <;> first | exact ⟨rfl, rfl⟩ | cases hp

theorem next_events (hut : u ≠ t) (hn : next t act s p = some (s', p')) :
    eventsOf u s'.history = eventsOf u s.history ∧
      eventsOf u s'.returned = eventsOf u s.returned := by
  revert hn
  fun_cases next t act s p <;> intro hn <;> cases hn <;>
    simp only [Shared.move, Shared.answer, Shared.lock, Shared.unlock, eventsOf_concat_of_ne hut,
      and_self]

/-- The stack after a step, for what the thread then is about to do. -/
theorem next_good (hg : Good s.mStack p) (hn : next t act s p = some (s', p')) :
    Good s'.mStack p' := by
  revert hn
  fun_cases next t act s p <;> intro hn <;> cases hn <;> try exact hg
  · -- push
    obtain ⟨l, hl⟩ := hg
    exact ⟨_ :: l, by rw [hl]; rfl⟩
  · -- the stack is not empty
    rename_i hne
    obtain ⟨l, hl⟩ := hg
    cases l with
    | nil => exact absurd (by rw [hl]; rfl) hne
    | cons v l => exact ⟨v, l, hl⟩
  · -- the top is moved out
    rename_i htop
    obtain ⟨v, l, hl⟩ := hg
    rw [htop] at hl
    obtain ⟨⟨⟩, rfl⟩ := List.cons.inj hl
    exact ⟨_, l, rfl, rfl⟩
  · -- there is no null pointer to move out
    rename_i htop
    obtain ⟨v, l, hl⟩ := hg
    rw [htop] at hl
    cases hl
  · -- mStack.pop
    obtain ⟨v, l, -, hl⟩ := hg
    exact ⟨l, by rw [hl]; rfl⟩

theorem next_leaves (hg : holds p = true → Good s.mStack p)
    (hl : Stack.Leaves (s.history.map Prod.snd) s.mStack.reduceOption)
    (hn : next t act s p = some (s', p')) :
    Stack.Leaves (s'.history.map Prod.snd) s'.mStack.reduceOption := by
  revert hn
  fun_cases next t act s p <;> intro hn <;> cases hn <;> try exact hl
  · rw [List.map_append, List.map_singleton, List.reduceOption_cons_of_some]
    exact hl.push _
  · rename_i htop
    rw [htop, List.reduceOption_cons_of_some] at hl
    rw [Shared.move, List.map_append, List.map_singleton, List.reduceOption_cons_of_none]
    exact hl.pop
  · obtain ⟨v, l, -, hs⟩ := hg rfl
    rw [hs, List.reduceOption_cons_of_none] at hl
    rwa [hs]

theorem next_answered (hg : holds p = true → Good s.mStack p) (ha : Answered p)
    (hn : next t act s p = some (s', p')) : Answered p' := by
  revert hn
  fun_cases next t act s p <;> intro hn <;> cases hn <;> try trivial
  · rename_i hw
    exact fun h => absurd h hw
  · nofun
  · rename_i htop
    obtain ⟨v, l, hl⟩ := hg rfl
    rw [htop] at hl
    cases hl
  · exact fun _ => ha

theorem next_calls (hc : eventsOf t s.history = eventsOf t s.returned ++ pending p)
    (hn : next t act s p = some (s', p')) :
    eventsOf t s'.history = eventsOf t s'.returned ++ pending p' := by
  revert hn
  fun_cases next t act s p <;> intro hn <;> cases hn <;> try exact hc
  all_goals
    simp only [Shared.move, Shared.answer, eventsOf_concat_self, hc]
    simp [pending]

theorem next_asleep (h : t ∈ s.sleepers → p = .asleep) (hn : next t act s p = some (s', p')) :
    (t ∈ s'.sleepers → p' = .asleep) ∧ ∀ u ∈ s'.sleepers, u ≠ t → u ∈ s.sleepers := by
  revert hn
  fun_cases next t act s p <;> intro hn <;> cases hn
  case case10 =>
    -- notify_one
    exact ⟨fun hm => absurd (h (Finset.mem_of_mem_erase hm)) nofun,
      fun _ hu _ => Finset.mem_of_mem_erase hu⟩
  case case15 =>
    -- the thread falls asleep
    exact ⟨fun _ => rfl, fun u hu hne => (Finset.mem_insert.1 hu).resolve_left hne⟩
  case case18 hwoken => exact ⟨fun hm => absurd hm hwoken.1, fun _ hu _ => hu⟩
  case case20 =>
    -- a spurious wakeup
    exact ⟨fun _ => rfl, fun _ hu _ => Finset.mem_of_mem_erase hu⟩
  all_goals exact ⟨fun hm => absurd (h hm) nofun, fun _ hu _ => hu⟩

/-! ### Wakeups -/

/-- The push has its value on the stack and has not notified yet. -/
def due : PC T → ℕ
  | .pushNotify _ => 1
  | _ => 0

/-- A call of `pop` that has no value yet, asleep or awake. -/
def waiting : PC T → ℕ
  | .lock wait | .test wait | .top wait => wait.toNat
  | .asleep => 1
  | _ => 0

section Wakeups

variable [Fintype τ]

/-- With `n` values and `k` sleepers: the notifications due and the calls of `pop` that are awake
are as many as the values, unless nobody sleeps. -/
def Covered (n k : ℕ) (f : τ → PC T) : Prop := k = 0 ∨ n + k ≤ count due f + count waiting f

theorem next_covered (hg : holds (f t) = true → Good s.mStack (f t))
    (hc : Covered s.mStack.reduceOption.length s.sleepers.card f)
    (hs : ∀ u ∈ s.sleepers, f u = .asleep) (hn : next t act s (f t) = some (s', p')) :
    Covered s'.mStack.reduceOption.length s'.sleepers.card (Function.update f t p') := by
  have h1 := count_update due f t p'
  have h2 := count_update waiting f t p'
  have h3 := le_count due f t
  have h4 := le_count waiting f t
  have h5 : ∀ wait, f t = .test wait → wait = true → s.sleepers.card + 1 ≤ count waiting f := by
    rintro wait ht rfl
    have hnot : t ∉ s.sleepers := fun hm => by cases ht.symm.trans (hs t hm)
    rw [← Finset.card_insert_of_notMem hnot]
    refine card_le_count fun u hu => ?_
    rcases Finset.mem_insert.1 hu with rfl | hu
    · rw [ht]
      rfl
    · rw [hs u hu]
      rfl
  unfold Covered at hc ⊢
  revert hn
  generalize count due (Function.update f t p') = D' at *
  generalize count waiting (Function.update f t p') = W' at *
  generalize f t = p at *
  fun_cases next t act s p <;> intro hn <;> cases hn
  all_goals simp only [due, waiting, Bool.toNat_true, Bool.toNat_false] at h1 h2 h3 h4
  case case7 =>
    -- push
    simp only [List.reduceOption_cons_of_some, List.length_cons]
    omega
  case case8 hempty =>
    -- notify_one without sleepers
    exact .inl (by rw [hempty, Finset.card_empty])
  case case10 hu =>
    -- notify_one wakes a sleeper
    have := Finset.card_erase_add_one hu
    simp only
    omega
  case case15 hempty =>
    -- the thread falls asleep
    have hle := Finset.card_insert_le t s.sleepers
    have hwaiters := h5 _ rfl rfl
    rw [List.isEmpty_iff] at hempty
    simp only [Shared.unlock, hempty, List.reduceOption_nil, List.length_nil]
    omega
  case case16 hwait =>
    rw [Bool.eq_false_iff.2 hwait, Bool.toNat_false] at h2
    omega
  case case22 htop =>
    obtain ⟨v, l, hl⟩ := hg rfl
    rw [htop] at hl
    cases hl
  case case20 =>
    -- a spurious wakeup
    have := Finset.card_le_card (Finset.erase_subset t s.sleepers)
    simp only
    omega
  case case21 htop =>
    -- the top is moved out
    rw [htop, List.reduceOption_cons_of_some, List.length_cons] at hc
    simp only [Shared.move, List.reduceOption_cons_of_none]
    have := Bool.toNat_le ‹Bool›
    omega
  case case24 =>
    have : s.mStack.tail.reduceOption.length ≤ s.mStack.reduceOption.length := by
      cases s.mStack with
      | nil => exact le_rfl
      | cons x l => cases x <;> simp
    simp only
    omega
  all_goals
    try simp only [Shared.lock, Shared.unlock, Shared.answer]
    omega

end Wakeups

/-! ### Every reachable state -/

structure Inv (s : Shared τ T) (f : τ → PC T) : Prop where
  lock : Held holds s.mLock f
  good : ∀ t, s.mLock = some t → Good s.mStack (f t)
  full : s.mLock = none → ∃ l : List T, s.mStack = l.map some
  leaves : Stack.Leaves (s.history.map Prod.snd) s.mStack.reduceOption
  answered : ∀ t, Answered (f t)
  calls : ∀ t, eventsOf t s.history = eventsOf t s.returned ++ pending (f t)
  asleep : ∀ t ∈ s.sleepers, f t = .asleep

theorem Inv.step (h : Inv s f) (hn : next t act s (f t) = some (s', p')) :
    Inv s' (Function.update f t p') := by
  have hlock := h.lock.step (next_lock hn)
  have hgood : holds (f t) = true → Good s.mStack (f t) := fun ht => h.good t ((h.lock t).1 ht)
  have hasleep := next_asleep (h.asleep t) hn
  have hother : ∀ u, u ≠ t → (s'.mLock = some u ↔ s.mLock = some u) := by
    intro u hu
    rw [← h.lock u, ← hlock u, Function.update_of_ne hu]
  -- no other thread has the lock: the stack is as the thread expects it
  have hmine : (∀ u, u ≠ t → s'.mLock ≠ some u) → Good s'.mStack p' := by
    intro hfree
    refine next_good ?_ hn
    cases ht : holds (f t) with
    | true => exact hgood ht
    | false =>
      refine (good_iff ht).2 (h.full ?_)
      by_contra hne
      obtain ⟨u, hu⟩ := Option.ne_none_iff_exists'.1 hne
      have hut : u ≠ t := by
        rintro rfl
        rw [(h.lock u).2 hu] at ht
        cases ht
      exact hfree u hut ((hother u hut).2 hu)
  refine ⟨hlock, fun u hu => ?_, fun hfree => ?_, next_leaves hgood h.leaves hn,
    Program.forall_update (L := fun _ => Answered) (next_answered hgood (h.answered t) hn)
      fun u _ => h.answered u,
    Program.forall_update (L := fun u p =>
      eventsOf u s'.history = eventsOf u s'.returned ++ pending p)
      (next_calls (h.calls t) hn) fun u hu => ?_, fun u hu => ?_⟩
  · rcases eq_or_ne u t with rfl | hut
    · rw [Function.update_self]
      refine hmine fun v hv hl => hv ?_
      exact Option.some.inj (hl.symm.trans hu)
    · have hold := (hother u hut).1 hu
      have ht : holds (f t) = false := by
        by_contra hne
        have := (h.lock t).1 (by simpa using hne)
        exact hut (Option.some.inj (hold.symm.trans this))
      rw [Function.update_of_ne hut, (next_keep ht hn).1]
      exact h.good u hold
  · have hp' : holds p' = false := by
      by_contra hne
      have := (hlock t).1 (by rw [Function.update_self]; simpa using hne)
      cases hfree.symm.trans this
    exact (good_iff hp').1 (hmine fun u _ hu => by cases hfree.symm.trans hu)
  · rw [(next_events hu hn).1, (next_events hu hn).2]
    exact h.calls u
  · rcases eq_or_ne u t with rfl | hut
    · rw [Function.update_self]
      exact hasleep.1 hu
    · rw [Function.update_of_ne hut]
      exact h.asleep u (hasleep.2 u hu hut)

theorem inv_reach {c : Conf τ (Shared τ T) (PC T)} (h : system.Reachable c) :
    Inv c.shared c.pc := by
  refine h.induct (P := fun c => Inv c.shared c.pc) ?_ ?_
  · rintro ⟨s, f⟩ ⟨hs, hf⟩
    obtain rfl : s = initial := hs
    obtain rfl : f = fun _ => .idle := hf
    exact ⟨.init rfl, nofun, fun _ => ⟨[], rfl⟩, .nil, fun _ => trivial, fun _ => rfl, nofun⟩
  · rintro c ⟨t, act⟩ c' - hinv - hs
    obtain ⟨s', p', hn, rfl⟩ := Program.step_eq_some.1 hs
    exact hinv.step hn

theorem covered_reach [Fintype τ] {c : Conf τ (Shared τ T) (PC T)} (h : system.Reachable c) :
    Covered c.shared.mStack.reduceOption.length c.shared.sleepers.card c.pc := by
  refine h.induct (P := fun c =>
    Covered c.shared.mStack.reduceOption.length c.shared.sleepers.card c.pc) ?_ ?_
  · rintro ⟨s, f⟩ ⟨hs, -⟩
    obtain rfl : s = initial := hs
    exact .inl rfl
  · rintro c ⟨t, act⟩ c' hr hc - hs
    obtain ⟨s', p', hn, rfl⟩ := Program.step_eq_some.1 hs
    have hinv := inv_reach hr
    exact next_covered (fun ht => hinv.good t ((hinv.lock t).1 ht)) hc hinv.asleep hn

/-- The values moved out and pushed are those of one stack, and each is of one call; what `pop`
returns is not null; and with the lock free the stack has no null pointer. -/
structure Linearized (c : Conf τ (Shared τ T) (PC T)) : Prop where
  leaves : Stack.Leaves (c.shared.history.map Prod.snd) c.shared.mStack.reduceOption
  calls : ∀ t, eventsOf t c.shared.history = eventsOf t c.shared.returned ++ pending (c.pc t)
  once : ((c.shared.returned.map Prod.snd).filterMap Event.popped?).Subperm
    ((c.shared.history.map Prod.snd).filterMap Event.pushed?)
  answered : ∀ t ans, c.pc t = .popped true ans → ans ≠ none
  full : c.shared.mLock = none → ∃ l : List T, c.shared.mStack = l.map some

variable {n : ℕ}

variable [Fintype τ]

/-- While a thread sleeps there are no more values than notifications due and waiters awake. So with
all calls returned or asleep the stack is empty. -/
structure Woken (c : Conf τ (Shared τ T) (PC T)) : Prop where
  covered : Covered c.shared.mStack.reduceOption.length c.shared.sleepers.card c.pc
  settled : (∀ t, c.pc t = .idle ∨ t ∈ c.shared.sleepers) → c.shared.sleepers.Nonempty →
    c.shared.mStack = []

theorem woken_reach {c : Conf τ (Shared τ T) (PC T)} (h : system.Reachable c) : Woken c := by
  have hinv := inv_reach h
  have hcov := covered_reach h
  refine ⟨hcov, fun hall hne => ?_⟩
  have hfree : c.shared.mLock = none := by
    by_contra hl
    obtain ⟨u, hu⟩ := Option.ne_none_iff_exists'.1 hl
    have hholds := (hinv.lock u).2 hu
    rcases hall u with h | h
    · rw [h] at hholds
      cases hholds
    · rw [hinv.asleep u h] at hholds
      cases hholds
  obtain ⟨l, hl⟩ := hinv.full hfree
  have hdue : count due c.pc = 0 := count_eq_zero.2 fun t => by
    rcases hall t with h | h
    · rw [h]
      rfl
    · rw [hinv.asleep t h]
      rfl
  have hwait : count waiting c.pc ≤ c.shared.sleepers.card := by
    refine count_le_card (fun t ht => ?_) fun t => ?_
    · rw [(hall t).resolve_right ht]
      rfl
    · rcases hall t with h | h
      · rw [h]
        exact Nat.zero_le 1
      · rw [hinv.asleep t h]
        exact le_rfl
  have hcard := hne.card_pos
  have hlen : c.shared.mStack.reduceOption.length = 0 := by
    unfold Covered at hcov
    omega
  rw [hl] at hlen ⊢
  cases l with
  | nil => rfl
  | cons v l => simp at hlen

structure Wakeful (r : (system (τ := τ) (T := T)).Run (fun _ _ => True) n) : Prop where
  woken : ∀ i ≤ n, Woken (r.state i)

/-- No wakeup is lost, whatever the order in which values are pushed and taken. -/
theorem stack_wakes (r : (system (τ := τ) (T := T)).Run (fun _ _ => True) n) : Wakeful r :=
  ⟨fun _ hi => woken_reach (r.reach hi)⟩

end ThreadSafeStack

end ConcurrencySandbox

import Mathlib.Algebra.Group.Nat.Defs
import ConcurrencySandbox.Interleaving.Count
import ConcurrencySandbox.Interleaving.Monitor

/-!
# Latch

`Misc/Latch`: a call of `wait` counts down and waits for the count to be 0; the one that brings it
to 0 notifies the others. The count is a `std::size_t`, and nothing stops it at 0: while as many
calls have come as the latch is for, all are let go (`Correct.opened`), and a call more closes it
again for whoever has not looked at the count in between (`Correct.closed`).
-/

namespace ConcurrencySandbox

open Interleaving

namespace Latch

variable {τ : Type*}

structure Shared (τ : Type*) where
  monitor : Monitor τ
  mCount : BitVec 64

/-- Where a thread is in `wait`. -/
inductive At
  | out
  | enter
  | decrement
  | test
  | notify
  | pred
  | asleep
  | leave
  deriving DecidableEq

/-- With the number of calls the thread has returned from. -/
structure PC where
  returned : ℕ
  step : At

inductive Act
  | run
  | wait
  /-- A spurious wakeup. -/
  | wake

def initial (count : BitVec 64) : Shared τ := ⟨.free, count⟩

section Model

variable [DecidableEq τ]

/-- One atomic step of `wait`. -/
def next (t : τ) (act : Act) (s : Shared τ) (p : PC) : Option (Shared τ × PC) :=
  match p, act with
  | ⟨r, .out⟩, .wait => some (s, ⟨r, .enter⟩)
  | ⟨r, .enter⟩, .run =>
    (s.monitor.acquire t).map fun m => ({ s with monitor := m }, ⟨r, .decrement⟩)
  | ⟨r, .decrement⟩, .run => some ({ s with mCount := s.mCount - 1 }, ⟨r, .test⟩)
  | ⟨r, .test⟩, .run => if s.mCount ≠ 0 then some (s, ⟨r, .pred⟩) else some (s, ⟨r, .notify⟩)
  | ⟨r, .notify⟩, .run => some ({ s with monitor := s.monitor.notifyAll }, ⟨r, .leave⟩)
  | ⟨r, .pred⟩, .run =>
    if s.mCount = 0 then some (s, ⟨r, .leave⟩)
    else some ({ s with monitor := s.monitor.wait t }, ⟨r, .asleep⟩)
  | ⟨r, .asleep⟩, .wake => some ({ s with monitor := s.monitor.wake t }, ⟨r, .asleep⟩)
  | ⟨r, .asleep⟩, .run =>
    (s.monitor.resume t).map fun m => ({ s with monitor := m }, ⟨r, .pred⟩)
  | ⟨r, .leave⟩, .run => some ({ s with monitor := s.monitor.release }, ⟨r + 1, .out⟩)
  | _, _ => none

variable (τ)

/-- The threads of `τ` calling `wait` on a `Latch(count)`, any number of times. -/
def system (count : BitVec 64) : System (Conf τ (Shared τ) PC) (τ × Act) :=
  Program.system ⟨next⟩ (fun s => s = initial count) ⟨0, .out⟩

end Model

def At.role : At → Role
  | .out | .enter => .away
  | .asleep => .waiting
  | _ => .inside

/-- The calls of the thread that have counted down. -/
def arrived (p : PC) : ℕ :=
  match p.step with
  | .out | .enter | .decrement => p.returned
  | _ => p.returned + 1

/-- The calls of the thread that have been let go. -/
def passed (p : PC) : ℕ :=
  match p.step with
  | .notify | .leave => p.returned + 1
  | _ => p.returned

/-- A thread that finds the count 0 is about to tell the others. -/
def notifying (p : PC) : Prop := p.step = .test ∨ p.step = .notify

structure Inv [Fintype τ] (n : BitVec 64) (s : Shared τ) (f : τ → PC) : Prop where
  valid : s.monitor.Valid (fun p : PC => p.step.role) f
  counted : s.mCount + BitVec.ofNat 64 (count arrived f) = n
  early : 0 < count passed f → n.toNat ≤ count arrived f
  woken : s.mCount = 0 → (∀ t, ¬ notifying (f t)) → s.monitor.sleepers = ∅

variable [DecidableEq τ] {t : τ} {act : Act} {s s' : Shared τ} {p p' : PC} {f : τ → PC}
  {n : BitVec 64}

/-- What a step does. -/
structure Moved (t : τ) (s : Shared τ) (p : PC) (s' : Shared τ) (p' : PC) : Prop where
  monitor : Monitor.Step t p.step.role s.monitor p'.step.role s'.monitor
  -- a call counts down once
  counted : s'.mCount = s.mCount ∧ arrived p' = arrived p ∨
    s'.mCount = s.mCount - 1 ∧ arrived p' = arrived p + 1 ∧ p'.step = .test
  -- it passes when the count is 0
  passed : passed p' = passed p ∨ s.mCount = 0 ∧ s'.mCount = s.mCount ∧ passed p' = passed p + 1
  told : notifying p → notifying p' ∨ s'.mCount ≠ 0 ∨ s'.monitor.sleepers = ∅
  asleep : t ∈ s'.monitor.sleepers → t ∈ s.monitor.sleepers ∨ s'.mCount ≠ 0

theorem next_moved (hn : next t act s p = some (s', p')) : Moved t s p s' p' := by
  revert hn
  fun_cases next t act s p <;> intro hn
  all_goals try simp only [Option.map_eq_some_iff] at hn
  all_goals first
    | obtain ⟨m, hm, hq⟩ := hn; cases hq
    | cases hn
  case case2 | case10 =>
    refine ⟨?_, .inl ⟨rfl, rfl⟩, .inl rfl, ?_, fun ht => .inl ?_⟩
    · first
        | exact .acquire hm
        | exact .resume hm
    · rintro (h | h) <;> cases h
    · first
        | rwa [(Monitor.acquire_eq_some.1 hm).2] at ht
        | rwa [(Monitor.resume_eq_some.1 hm).2.2] at ht
  case case3 => exact ⟨.keep _ _, .inr ⟨rfl, rfl, rfl⟩, .inl rfl, fun _ => .inl (.inl rfl), .inl⟩
  case case4 hne => exact ⟨.keep _ _, .inl ⟨rfl, rfl⟩, .inl rfl, fun _ => .inr (.inl hne), .inl⟩
  case case5 hz =>
    exact ⟨.keep _ _, .inl ⟨rfl, rfl⟩, .inr ⟨by simpa using hz, rfl, rfl⟩, fun _ => .inl (.inr rfl),
      .inl⟩
  case case6 => exact ⟨.notifyAll _, .inl ⟨rfl, rfl⟩, .inl rfl, fun _ => .inr (.inr rfl), nofun⟩
  case case7 hz =>
    refine ⟨.keep _ _, .inl ⟨rfl, rfl⟩, .inr ⟨hz, rfl, rfl⟩, ?_, .inl⟩
    rintro (h | h) <;> cases h
  case case8 hne =>
    refine ⟨.wait _, .inl ⟨rfl, rfl⟩, .inl rfl, ?_, fun _ => .inr hne⟩
    rintro (h | h) <;> cases h
  case case9 =>
    refine ⟨.wake _, .inl ⟨rfl, rfl⟩, .inl rfl, ?_, fun ht => absurd ht (Finset.notMem_erase t _)⟩
    rintro (h | h) <;> cases h
  all_goals
    refine ⟨?_, .inl ⟨rfl, rfl⟩, .inl rfl, ?_, .inl⟩
    · first
        | exact .keep _ _
        | exact .release _
    · rintro (h | h) <;> cases h

variable [Fintype τ]

omit [DecidableEq τ] in
theorem Inv.count_mod (h : Inv n s f) (hz : s.mCount = 0) :
    count arrived f % 2 ^ 64 = n.toNat := by
  have hc : BitVec.ofNat 64 (count arrived f) = n := by
    have := h.counted
    bv_omega
  rw [← hc, BitVec.toNat_ofNat]

omit [DecidableEq τ] in
theorem Inv.count_le (h : Inv n s f) (hz : s.mCount = 0) : n.toNat ≤ count arrived f := by
  rw [← h.count_mod hz]
  exact Nat.mod_le _ _

theorem Inv.step (h : Inv n s f) (hm : Moved t s (f t) s' p') :
    Inv n s' (Function.update f t p') := by
  have ha := count_update arrived f t p'
  have hp := count_update passed f t p'
  have hc := h.counted
  refine ⟨h.valid.step hm.monitor, ?_, fun hpos => ?_, fun hz hnone => ?_⟩
  · rcases hm.counted with ⟨h1, h2⟩ | ⟨h1, h2, -⟩
    · rw [h1, show count arrived (Function.update f t p') = count arrived f by omega, hc]
    · rw [h1, show count arrived (Function.update f t p') = count arrived f + 1 by omega,
        BitVec.ofNat_add]
      bv_omega
  · have hle : count arrived f ≤ count arrived (Function.update f t p') := by
      rcases hm.counted with ⟨-, h2⟩ | ⟨-, h2, -⟩ <;> omega
    rcases hm.passed with h1 | ⟨hz, -, -⟩
    · exact (h.early (by omega)).trans hle
    · exact (h.count_le hz).trans hle
  · have hp' : ¬ notifying p' := by
      have := hnone t
      rwa [Function.update_self] at this
    by_cases ht : notifying (f t)
    · exact ((hm.told ht).resolve_left hp').resolve_left (not_not.2 hz)
    have hsame : s'.mCount = s.mCount := by
      rcases hm.counted with ⟨h1, -⟩ | ⟨-, -, h3⟩
      · exact h1
      · exact absurd (.inl h3) hp'
    have hempty := h.woken (hsame ▸ hz) fun u => by
      rcases eq_or_ne u t with rfl | hut
      · exact ht
      · have := hnone u
        rwa [Function.update_of_ne hut] at this
    refine Finset.eq_empty_of_forall_notMem fun u hu => ?_
    rcases eq_or_ne u t with rfl | hut
    · rcases hm.asleep hu with h1 | h1
      · rw [hempty] at h1
        cases h1
      · exact h1 hz
    · have hold := hm.monitor.sleepers_subset u hu hut
      rw [hempty] at hold
      cases hold

theorem inv_reach {c : Conf τ (Shared τ) PC} (h : (system τ n).Reachable c) :
    Inv n c.shared c.pc := by
  refine h.induct (P := fun c => Inv n c.shared c.pc) ?_ ?_
  · rintro ⟨s, f⟩ ⟨hs, hf⟩
    obtain rfl : s = initial n := hs
    obtain rfl : f = fun _ => ⟨0, .out⟩ := hf
    have h0 : count arrived (fun _ : τ => (⟨0, .out⟩ : PC)) = 0 := count_eq_zero.2 fun _ => rfl
    have h1 : count passed (fun _ : τ => (⟨0, .out⟩ : PC)) = 0 := count_eq_zero.2 fun _ => rfl
    refine ⟨.init rfl, ?_, fun hpos => ?_, fun _ _ => rfl⟩
    · rw [h0]
      exact BitVec.add_zero n
    · rw [h1] at hpos
      cases hpos
  · rintro c ⟨t, act⟩ c' - hinv - hs
    obtain ⟨s', p', hn, rfl⟩ := Program.step_eq_some.1 hs
    exact hinv.step (next_moved hn)

/-- Nobody passes before `n` calls have come. When `n` have come and the threads have settled, no
call is left. After that the count is not 0 for `2 ^ 64 - 1` calls more, and none of them passes. -/
structure Correct {k : ℕ} (r : (system τ n).Run (fun _ _ => True) k) : Prop where
  early : ∀ i ≤ k, 0 < count passed (r.state i).pc → n.toNat ≤ count arrived (r.state i).pc
  opened : ∀ i ≤ k, count arrived (r.state i).pc = n.toNat →
    (∀ t, ((r.state i).pc t).step = .out ∨ t ∈ (r.state i).shared.monitor.sleepers) →
      ∀ t, ((r.state i).pc t).step = .out
  closed : ∀ i < k, n.toNat < count arrived (r.state i).pc →
    count arrived (r.state i).pc < n.toNat + 2 ^ 64 →
      count passed (r.state (i + 1)).pc = count passed (r.state i).pc

theorem latch {k : ℕ} (r : (system τ n).Run (fun _ _ => True) k) : Correct r where
  early i hi := (inv_reach (r.reach hi)).early
  opened i hi hn hall t := by
    have hinv := inv_reach (r.reach hi)
    have hz : (r.state i).shared.mCount = 0 := by
      have hc := hinv.counted
      rw [hn, BitVec.ofNat_toNat, BitVec.setWidth_eq] at hc
      bv_omega
    have hempty := hinv.woken hz fun u hu => by
      rcases hall u with h | h
      · rcases hu with hu | hu <;> cases h.symm.trans hu
      · have hw := hinv.valid.sleepers u h
        rcases hu with hu | hu <;> rw [hu] at hw <;> cases hw
    refine (hall t).resolve_right fun ht => ?_
    rw [hempty] at ht
    cases ht
  closed i hi hlt hlt' := by
    have hinv := inv_reach (r.reach hi.le)
    obtain ⟨⟨t, act⟩, hl⟩ : ∃ l, r.label i = l := ⟨_, rfl⟩
    have hs := r.step i hi
    rw [hl] at hs
    obtain ⟨s', p', hn, he⟩ := Program.step_eq_some.1 hs
    have hp := count_update passed (r.state i).pc t p'
    rw [he]
    change count passed (Function.update (r.state i).pc t p') = _
    rcases (next_moved hn).passed with h | ⟨hz, -, -⟩
    · omega
    · have := hinv.count_mod hz
      omega

end Latch

end ConcurrencySandbox

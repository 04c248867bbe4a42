import Mathlib.Data.List.Nodup
import Mathlib.Order.Nat
import ConcurrencySandbox.Interleaving.System
import ConcurrencySandbox.Structures.Precedes

/-!
# Waiting in turn

A lock whose waiters form a queue: a step of a thread puts the thread at the end, lets it have the
lock when it is the first, or takes it out of the queue (`Turn`). Along such a sequence of steps the
lock has one holder (`Turns.exclusive`) and goes to the threads in the order of the queue
(`Turns.served`).
-/

namespace Interleaving

open Structures

variable {τ : Type*}

inductive Phase
  | idle
  | waiting
  | held
  deriving DecidableEq

/-- What a step of the thread does to the queue and to the thread's phase. -/
inductive Turn (t : τ) (q : List τ) : Phase → List τ → Phase → Prop
  | away : Turn t q .idle q .idle
  | take (b : Phase) (hb : b ≠ .idle) (hq : b = .held → q = []) : Turn t q .idle (q ++ [t]) b
  | wait (a b : Phase) (ha : a ≠ .idle) (hb : b ≠ .idle)
      (hq : b = .held → ∃ q', q = t :: q') : Turn t q a q b
  | leave (q' : List τ) (hq : q = t :: q') : Turn t q .held q' .idle

/-- `n` steps, with the thread that makes each, the phase of every thread and the queue. -/
structure Turns (n : ℕ) (who : ℕ → τ) (phase : ℕ → τ → Phase) (queue : ℕ → List τ) : Prop where
  idle : ∀ t, phase 0 t = .idle
  empty : queue 0 = []
  turn : ∀ i < n, Turn (who i) (queue i) (phase i (who i)) (queue (i + 1)) (phase (i + 1) (who i))
  others : ∀ i < n, ∀ t, t ≠ who i → phase (i + 1) t = phase i t

/-- The thread joins the queue. -/
def Takes (who : ℕ → τ) (phase : ℕ → τ → Phase) (t : τ) (i : ℕ) : Prop :=
  who i = t ∧ phase i t = .idle ∧ phase (i + 1) t ≠ .idle

def Acquires (phase : ℕ → τ → Phase) (t : τ) (i : ℕ) : Prop :=
  phase i t ≠ .held ∧ phase (i + 1) t = .held

/-- The queue has the threads that are not idle, and only its first has the lock. -/
structure Standing (phase : τ → Phase) (q : List τ) : Prop where
  nodup : q.Nodup
  mem : ∀ t, t ∈ q ↔ phase t ≠ .idle
  head : ∀ t, phase t = .held → ∃ q', q = t :: q'

theorem Standing.step {phase phase' : τ → Phase} {q q' : List τ} {t : τ} (h : Standing phase q)
    (ht : Turn t q (phase t) q' (phase' t)) (hothers : ∀ u, u ≠ t → phase' u = phase u) :
    Standing phase' q' := by
  have hmem := h.mem t
  have hhead := h.head t
  have hmem' : ∀ u, u ≠ t → (u ∈ q ↔ phase' u ≠ .idle) := fun u hu => hothers u hu ▸ h.mem u
  have hhead' : ∀ u, u ≠ t → phase' u = .held → ∃ q', q = u :: q' :=
    fun u hu hp => h.head u (hothers u hu ▸ hp)
  generalize phase t = a at ht hmem hhead
  generalize hb : phase' t = b at ht
  cases ht with
  | away =>
    refine ⟨h.nodup, fun u => ?_, fun u hu => ?_⟩
    · rcases eq_or_ne u t with rfl | hut
      · simpa [hb] using hmem
      · exact hmem' u hut
    · rcases eq_or_ne u t with rfl | hut
      · cases hb.symm.trans hu
      · exact hhead' u hut hu
  | take b hne hq =>
    have ht : t ∉ q := by simpa using hmem
    refine ⟨List.nodup_append.2 ⟨h.nodup, List.nodup_singleton t, fun u hu v hv he => ?_⟩,
      fun u => ?_, fun u hu => ?_⟩
    · rw [List.mem_singleton] at hv
      exact ht (hv ▸ he ▸ hu)
    · rcases eq_or_ne u t with rfl | hut
      · simpa [hb] using hne
      · simpa [hut] using hmem' u hut
    · rcases eq_or_ne u t with rfl | hut
      · exact ⟨[], by rw [hq (hb ▸ hu), List.nil_append]⟩
      · obtain ⟨q', rfl⟩ := hhead' u hut hu
        exact ⟨_, rfl⟩
  | wait a b ha hne hq =>
    refine ⟨h.nodup, fun u => ?_, fun u hu => ?_⟩
    · rcases eq_or_ne u t with rfl | hut
      · simpa [hb, hne] using hmem.2 ha
      · exact hmem' u hut
    · rcases eq_or_ne u t with rfl | hut
      · exact hq (hb ▸ hu)
      · exact hhead' u hut hu
  | leave q' hq =>
    subst hq
    obtain ⟨ht, hnd⟩ := List.nodup_cons.1 h.nodup
    refine ⟨hnd, fun u => ?_, fun u hu => ?_⟩
    · rcases eq_or_ne u t with rfl | hut
      · simpa [hb] using ht
      · simpa [hut] using hmem' u hut
    · rcases eq_or_ne u t with rfl | hut
      · cases hb.symm.trans hu
      · obtain ⟨q₁, hq₁⟩ := hhead' u hut hu
        exact absurd (List.cons.inj hq₁).1.symm hut

namespace Turns

variable {n : ℕ} {who : ℕ → τ} {phase : ℕ → τ → Phase} {queue : ℕ → List τ}
  (h : Turns n who phase queue)
include h

theorem standing {k : ℕ} (hk : k ≤ n) : Standing (phase k) (queue k) := by
  induction k with
  | zero =>
    rw [h.empty]
    exact ⟨List.nodup_nil, fun t => by simp [h.idle t], fun t ht => by simp [h.idle t] at ht⟩
  | succ k ih => exact (ih (by omega)).step (h.turn k hk) (h.others k hk)

theorem exclusive {k : ℕ} (hk : k ≤ n) {t u : τ} (ht : phase k t = .held)
    (hu : phase k u = .held) : t = u := by
  obtain ⟨q, hq⟩ := (h.standing hk).head t ht
  obtain ⟨q', hq'⟩ := (h.standing hk).head u hu
  exact (List.cons.inj (hq.symm.trans hq')).1

/-- Until it has the lock, a thread is before all that have joined after it. -/
theorem waiting_before {i k : ℕ} {t : τ} (ht : Takes who phase t i) (hik : i < k) (hk : k ≤ n) :
    (∃ l, i ≤ l ∧ l < k ∧ Acquires phase t l) ∨
      t ∈ queue k ∧ phase k t ≠ .held ∧ ∀ u j, i < j → j < k → Takes who phase u j →
        (∀ l, j < l → l ≤ k → phase l u ≠ .idle) → Precedes (queue k) t u := by
  induction k, hik using Nat.le_induction with
  | base =>
    obtain ⟨-, hidle, hne⟩ := ht
    by_cases hheld : phase (i + 1) t = .held
    · exact .inl ⟨i, le_rfl, by omega, by simp [hidle], hheld⟩
    · exact .inr ⟨((h.standing hk).mem t).2 hne, hheld, fun u j h1 h2 => by omega⟩
  | succ k hik ih =>
    rcases ih (by omega) with ⟨l, h1, h2, h3⟩ | ⟨hm, hnot, hall⟩
    · exact .inl ⟨l, h1, by omega, h3⟩
    by_cases hacq : phase (k + 1) t = .held
    · exact .inl ⟨k, by omega, by omega, hnot, hacq⟩
    -- who has joined before this step is behind `t` already
    have hold : ∀ u j, i < j → j < k → Takes who phase u j →
        (∀ l, j < l → l ≤ k + 1 → phase l u ≠ .idle) → Precedes (queue k) t u :=
      fun u j h1 h2 h3 h4 => hall u j h1 h2 h3 fun l h5 h6 => h4 l h5 (by omega)
    have hnow : ∀ u, Takes who phase u k →
        phase k (who k) = .idle ∧ phase (k + 1) (who k) ≠ .idle := by
      rintro u ⟨rfl, h1, h2⟩
      exact ⟨h1, h2⟩
    have hturn := h.turn k hk
    have hwho : phase k (who k) = .held → t ≠ who k := by
      rintro hp rfl
      exact hnot hp
    generalize phase k (who k) = a at hturn hnow hwho
    generalize phase (k + 1) (who k) = b at hturn hnow
    right
    generalize queue (k + 1) = q at hturn ⊢
    cases hturn with
    | away =>
      refine ⟨hm, hacq, fun u j h1 h2 h3 h4 => ?_⟩
      rcases Nat.lt_or_ge j k with hjk | hjk
      · exact hold u j h1 hjk h3 h4
      · obtain rfl : j = k := by omega
        exact absurd rfl (hnow u h3).2
    | take b hb =>
      refine ⟨List.mem_append_left _ hm, hacq, fun u j h1 h2 h3 h4 => ?_⟩
      rw [precedes_append]
      rcases Nat.lt_or_ge j k with hjk | hjk
      · exact .inl (hold u j h1 hjk h3 h4)
      · obtain rfl : j = k := by omega
        exact .inr (.inr ⟨hm, by simp [h3.1]⟩)
    | wait a b ha =>
      refine ⟨hm, hacq, fun u j h1 h2 h3 h4 => ?_⟩
      rcases Nat.lt_or_ge j k with hjk | hjk
      · exact hold u j h1 hjk h3 h4
      · obtain rfl : j = k := by omega
        exact absurd (hnow u h3).1 ha
    | leave q' hcons =>
      have hne := hwho rfl
      rw [hcons, List.mem_cons, or_iff_right hne] at hm
      refine ⟨hm, hacq, fun u j h1 h2 h3 h4 => ?_⟩
      rcases Nat.lt_or_ge j k with hjk | hjk
      · have hp := hold u j h1 hjk h3 h4
        rw [hcons, precedes_cons] at hp
        exact hp.resolve_right fun h5 => hne h5.1
      · obtain rfl : j = k := by omega
        exact absurd rfl (hnow u h3).2

/-- The lock goes to the threads in the order in which they have joined. -/
theorem served {i j m : ℕ} {t u : τ} (hij : i < j) (hjm : j ≤ m) (hm : m < n)
    (ht : Takes who phase t i) (hu : Takes who phase u j)
    (hwait : ∀ l, j < l → l ≤ m → phase l u ≠ .idle) (hacq : Acquires phase u m) :
    ∃ l, i ≤ l ∧ l < m ∧ Acquires phase t l := by
  rcases h.waiting_before ht (by omega) hm.le with hl | ⟨htq, hnot, hall⟩
  · exact hl
  obtain ⟨hu1, hu2⟩ := hacq
  have hwho : who m = u := by
    by_contra hne
    exact hu1 ((h.others m hm u (Ne.symm hne)).symm.trans hu2)
  have hturn := h.turn m hm
  rw [hwho, hu2] at hturn
  generalize hb : Phase.held = b at hturn
  generalize ha : phase m u = a at hturn
  generalize queue (m + 1) = q₁ at hturn
  cases hturn with
  | away => cases hb
  | take b hne hq =>
    rw [hq hb.symm] at htq
    cases htq
  | wait a b hne hne' hq =>
    obtain ⟨q', hq'⟩ := hq hb.symm
    have hnd := (h.standing hm.le).nodup
    rcases Nat.lt_or_eq_of_le hjm with hlt | rfl
    · have hp := hall u j hij hlt hu hwait
      rw [hq'] at hp hnd
      exact absurd ((precedes_right_iff (l := []) hnd).1 hp) (by simp)
    · exact absurd (ha.symm.trans hu.2.1) hne
  | leave q' hq => cases hb

end Turns

/-- A ghost that every step can update has a value at every step. -/
theorem exists_ghost {γ : Type*} {n : ℕ} {P : ℕ → γ → Prop} {R : ℕ → γ → γ → Prop} {g : γ}
    (h0 : P 0 g) (hs : ∀ i < n, ∀ g, P i g → ∃ g', P (i + 1) g' ∧ R i g g') :
    ∃ f : ℕ → γ, f 0 = g ∧ (∀ i ≤ n, P i (f i)) ∧ ∀ i < n, R i (f i) (f (i + 1)) := by
  classical
  have : Nonempty γ := ⟨g⟩
  choose! e he using hs
  let f : ℕ → γ := fun i => Nat.rec g (fun i g => e i g) i
  have hP : ∀ i ≤ n, P i (f i) := by
    intro i
    induction i with
    | zero => exact fun _ => h0
    | succ i ih => exact fun hi => (he i hi _ (ih (by omega))).1
  exact ⟨f, rfl, hP, fun i hi => (he i hi _ (hP i hi.le)).2⟩

section Run

variable [DecidableEq τ] {sh pc act : Type*} {P : Program τ sh pc act} {init : sh → Prop}
  {start : pc} {C : Conf τ sh pc → τ × act → Prop} {n : ℕ}

/-- The thread that makes each step. -/
def System.Run.who (r : (P.system init start).Run C n) (i : ℕ) : τ := (r.label i).1

def System.Run.phases (r : (P.system init start).Run C n) (phase : pc → Phase) (i : ℕ) (t : τ) :
    Phase :=
  phase ((r.state i).pc t)

/-- The lock has one holder at a time and serves the threads as they have come: one that has joined
after `t`, and not left since, gets it after `t` only. -/
structure Fifo (r : (P.system init start).Run C n) (phase : pc → Phase) : Prop where
  exclusive : ∀ i ≤ n, ∀ t u, r.phases phase i t = .held → r.phases phase i u = .held → t = u
  served : ∀ i j m t u, i < j → j ≤ m → m < n → Takes r.who (r.phases phase) t i →
    Takes r.who (r.phases phase) u j → (∀ l, j < l → l ≤ m → r.phases phase l u ≠ .idle) →
      Acquires (r.phases phase) u m → ∃ l, i ≤ l ∧ l < m ∧ Acquires (r.phases phase) t l

/-- A lock whose waiters always form a queue is fair. -/
theorem Fifo.of_turns {phase : pc → Phase} {Q : List τ → Conf τ sh pc → Prop}
    (hstart : phase start = .idle) (h0 : ∀ c, (P.system init start).init c → Q [] c)
    (hs : ∀ q c t a c', (P.system init start).Reach C c → Q q c → C c (t, a) →
      (P.system init start).step c (t, a) = some c' →
        ∃ q', Q q' c' ∧ Turn t q (phase (c.pc t)) q' (phase (c'.pc t)))
    (r : (P.system init start).Run C n) : Fifo r phase := by
  obtain ⟨queue, h1, -, h2⟩ := exists_ghost (P := fun i q => Q q (r.state i)) (n := n)
    (R := fun i q q' => Turn (r.who i) q (r.phases phase i (r.who i)) q'
      (r.phases phase (i + 1) (r.who i)))
    (h0 _ r.init) fun i hi q hq =>
      hs q _ _ _ _ (r.reach hi.le) hq (r.meets i hi) (r.step i hi)
  have hturns : Turns n r.who (r.phases phase) queue := by
    refine ⟨fun t => ?_, h1, h2, fun i hi t ht => ?_⟩
    · rw [System.Run.phases, r.init.2, hstart]
    · rw [System.Run.phases, (Program.run_step r hi).2 t ht]
      rfl
  exact ⟨fun i hi t u => hturns.exclusive hi, fun i j m t u => hturns.served⟩

end Run

end Interleaving

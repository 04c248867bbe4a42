import Mathlib.Data.Fintype.Basic
import Mathlib.Data.Finset.Card
import ConcurrencySandbox.Interleaving.Count
import ConcurrencySandbox.ThreadSafeQueue.Shape

/-!
# Lost wakeups

`pushImpl` changes what `waitForData` waits for under `mTailLock`, and notifies under no lock. A
consumer that has evaluated its predicate holds `mHeadLock` until it sleeps, which keeps out other
consumers but no producer: a push and its `notify_one` between the predicate and the blocking step
wake nobody, and the consumer sleeps beside a value (`lost_wakeup`).

Otherwise the count of notifications still due covers the sleepers, or together with the awake
`waitAndPop` calls it covers the values (`Covered`). Blocking is the only step that can break it.
-/

namespace ConcurrencySandbox

open Interleaving Structures

namespace ThreadSafeQueue

variable {τ A V : Type*} [Fintype τ] [DecidableEq τ] [DecidableEq A]

/-- The push has linked its value and not yet notified. -/
def pending : PC A V → ℕ
  | .pushUnlock | .notify => 1
  | _ => 0

/-- A `waitAndPop` that has not taken its value, asleep or awake. -/
def waiting : PC A V → ℕ
  | .waitLock _ | .waitPred _ | .waitTest .. | .asleep _ | .moveData true | .popHead true _ => 1
  | _ => 0

/-- With `n` values and `k` sleepers: the pushes still to notify are as many as the sleepers, or
these pushes and the awake `waitAndPop` calls are as many as the values. -/
def Covered (n k : ℕ) (f : τ → PC A V) : Prop :=
  k ≤ count pending f ∨ n + k ≤ count pending f + count waiting f

/-- The values in the queue: the nodes from `mHead` up to `mTail`. -/
def Queued (s : Shared τ A V) (n : ℕ) : Prop :=
  ∃ q, (q ++ [s.mTail]).Nodup ∧ Seg s.links s.mHead q (some s.mTail) ∧ q.length = n

/-- The step, if it blocks a consumer, leaves the queue `Covered` with one more sleeper. -/
def BlocksCovered (c : Conf τ (Shared τ A V) (PC A V)) (l : τ × Act τ A V) : Prop :=
  ∀ byRef tail n, c.pc l.1 = .waitTest byRef tail → c.shared.mHead = some tail →
    Queued c.shared n → Covered n (c.shared.sleepers.card + 1) c.pc

/-- Every call that has started has returned or is a `waitAndPop` among the sleepers. -/
def Settled (c : Conf τ (Shared τ A V) (PC A V)) : Prop :=
  ∀ t, c.pc t = .idle ∨ (∃ byRef, c.pc t = .asleep byRef) ∧ t ∈ c.shared.sleepers

variable {t : τ} {act : Act τ A V} {s s' : Shared τ A V} {f : τ → PC A V} {p' : PC A V}

omit [Fintype τ] in
/-- The sleepers are at their blocking call. -/
theorem asleep_step (hL : ∀ u ∈ s.sleepers, ∃ byRef, f u = .asleep byRef)
    (hn : next t act s (f t) = some (s', p')) :
    ∀ u ∈ s'.sleepers, ∃ byRef, Function.update f t p' u = .asleep byRef := by
  have keep : ∀ k : Finset τ, k ⊆ s.sleepers → t ∉ k →
      ∀ u ∈ k, ∃ byRef, Function.update f t p' u = .asleep byRef := fun k hk ht u hu => by
    have hne : u ≠ t := fun h => ht (h ▸ hu)
    simpa [hne] using hL u (hk hu)
  have ht := hL t
  revert hn
  generalize f t = p at ht
  fun_cases next t act s p <;> intro hn <;> cases hn
  all_goals try exact keep _ subset_rfl fun h => by simpa using ht h
  · -- notify_one
    exact keep _ (Finset.erase_subset _ _) fun h => by simpa using ht (Finset.mem_of_mem_erase h)
  · -- the blocking step
    intro u hu
    rcases Finset.mem_insert.1 hu with rfl | hu
    · simp
    · exact keep _ subset_rfl (fun h => by simpa using ht h) u hu
  · -- a woken thread
    exact keep _ subset_rfl (by tauto)

/-- Only blocking can leave values and sleepers uncovered. -/
theorem covered_step {q : List A} (hc : Covered q.length s.sleepers.card f)
    (hne : popping (f t) = true → q ≠ []) (hs : t ∈ s.sleepers → ∃ byRef, f t = .asleep byRef)
    (hB : ∀ byRef tail, f t = .waitTest byRef tail → s.mHead = some tail →
      Covered q.length (s.sleepers.card + 1) f)
    (hn : next t act s (f t) = some (s', p')) :
    Covered (nodesAfter s q (f t)).length s'.sleepers.card (Function.update f t p') := by
  have h1 := count_update pending f t p'
  have h2 := count_update waiting f t p'
  have h3 := le_count pending f t
  have h4 := le_count waiting f t
  unfold Covered at hc hB ⊢
  revert hn
  generalize count pending (Function.update f t p') = P' at *
  generalize count waiting (Function.update f t p') = W' at *
  generalize f t = p at *
  fun_cases next t act s p <;> intro hn <;> cases hn
  all_goals simp only [pending, waiting] at h1 h2 h3 h4
  all_goals
    try (simp only [nodesAfter, Shared.make, Shared.setData, Shared.setNext, Shared.free,
      Shared.lockHead, Shared.unlockHead, List.length_append, List.length_singleton]; omega)
  · -- notify_one without sleepers
    have : s.sleepers.card = 0 := by simp [‹s.sleepers = ∅›]
    simp only [nodesAfter]
    omega
  · -- notify_one wakes a sleeper
    have := Finset.card_erase_add_one (s := s.sleepers) ‹_ ∈ _›
    simp only [nodesAfter]
    omega
  · -- the blocking step
    have hcard : (insert t s.sleepers).card = s.sleepers.card + 1 :=
      Finset.card_insert_of_notMem fun h => by simpa using hs h
    have := hB _ _ rfl ‹_›
    simp only [nodesAfter]
    omega
  · -- moveData
    rename_i wait _ _
    cases wait <;> simp only [nodesAfter] at * <;> omega
  · -- popHead
    have := List.length_pos_of_ne_nil (hne rfl)
    rename_i wait _ _ _
    cases wait <;> simp only [nodesAfter, Shared.setNext, List.length_tail] at * <;> omega

/-- The invariant of the runs whose blocking steps are covered. -/
structure Counted (g : Ghost τ A) (s : Shared τ A V) (f : τ → PC A V) : Prop where
  chained : Chained g s
  placed : ∀ t, Placed g s t (f t)
  headLock : Held holdsHead s.mHeadLock f
  tailLock : Held holdsTail s.mTailLock f
  sleep : ∀ t ∈ s.sleepers, ∃ byRef, f t = .asleep byRef
  covered : Covered g.nodes.length s.sleepers.card f

omit [DecidableEq τ] in
theorem counted_init (a : A) :
    Counted ⟨[], fun _ => none⟩ (initial a : Shared τ A V) fun _ => .idle where
  chained := ⟨by simp [initial], by simp, by simp [initial], by simp⟩
  placed _ := ⟨by simp [owned], by simp [popping], by simp [ThreadSafeQueue.seen]⟩
  headLock := .init rfl
  tailLock := .init rfl
  sleep := by simp [initial]
  covered := .inl (by simp [initial])

theorem counted_reach {c : Conf τ (Shared τ A V) (PC A V)} (h : system.Reach BlocksCovered c) :
    ∃ g, Counted g c.shared c.pc := by
  refine h.induct (P := fun c => ∃ g, Counted g c.shared c.pc) ?_ ?_
  · rintro ⟨s, f⟩ ⟨⟨a, rfl⟩, rfl⟩
    exact ⟨_, counted_init a⟩
  · rintro c ⟨t, act⟩ c' - ⟨g, hg⟩ hC hst
    obtain ⟨s', p', hn, rfl⟩ := Program.step_eq_some.1 hst
    obtain ⟨g', hq, hG, hown, hother⟩ :=
      shape_step hg.chained hg.placed hg.headLock hg.tailLock hn
    refine ⟨g', hG, Program.forall_update hown hother, hg.headLock.step (next_head hn),
      hg.tailLock.step (next_tail hn), asleep_step hg.sleep hn, ?_⟩
    rw [hq]
    exact covered_step hg.covered (hg.placed t).pops (hg.sleep t)
      (fun byRef tail hp hh => hC byRef tail _ hp hh
        ⟨g.nodes, hg.chained.nodup, hg.chained.seg, rfl⟩) hn

omit [DecidableEq A] in
/-- With every call returned or asleep, nothing is pending and only sleepers wait. -/
theorem settled_counts {c : Conf τ (Shared τ A V) (PC A V)} (h : Settled c) :
    count pending c.pc = 0 ∧ count waiting c.pc ≤ c.shared.sleepers.card := by
  refine ⟨count_eq_zero.2 fun t => ?_, ?_⟩
  · rcases h t with ht | ⟨⟨_, ht⟩, -⟩ <;> rw [ht] <;> rfl
  · calc count waiting c.pc ≤ ∑ t, if t ∈ c.shared.sleepers then 1 else 0 := by
          refine Finset.sum_le_sum fun t _ => ?_
          rcases h t with ht | ⟨⟨_, ht⟩, hs⟩
          · simp [ht, waiting]
          · simp [ht, waiting, hs]
      _ = c.shared.sleepers.card := by simp

/-- No wakeup is lost in a run whose blocking steps are covered. -/
theorem no_lost_wakeup {c : Conf τ (Shared τ A V) (PC A V)} (h : system.Reach BlocksCovered c)
    (hs : Settled c) (hk : c.shared.sleepers.Nonempty) : c.shared.mHead = some c.shared.mTail := by
  obtain ⟨g, hg⟩ := counted_reach h
  obtain ⟨hp, hw⟩ := settled_counts hs
  have hcard := hk.card_pos
  have hlen : g.nodes.length = 0 := by
    have := hg.covered
    unfold Covered at this
    omega
  have hseg := hg.chained.seg
  rwa [List.length_eq_zero_iff.1 hlen, Seg.nil_iff] at hseg

omit [Fintype τ] [DecidableEq τ] [DecidableEq A] in
theorem Queued.eq_zero {s : Shared τ A V} {n : ℕ} (hq : Queued s n) (h : s.mHead = some s.mTail) :
    n = 0 := by
  obtain ⟨q, hnd, hseg, rfl⟩ := hq
  cases q with
  | nil => rfl
  | cons x q =>
    obtain rfl : x = s.mTail := Option.some.inj (hseg.1.symm.trans h)
    simp at hnd

/-- The tail that the predicate compares `mHead` with. -/
def PC.tests : PC A V → Option A
  | .waitTest _ tail => some tail
  | _ => none

/-- When the thread blocks there is a push to notify every sleeper, or nothing to wake them for. -/
def CoveredNow (c : Conf τ (Shared τ A V) (PC A V)) (l : τ × Act τ A V) : Prop :=
  ∀ tail ∈ (c.pc l.1).tests, c.shared.mHead = some tail →
    c.shared.sleepers.card + 1 ≤ count pending c.pc ∨ c.shared.mHead = some c.shared.mTail ∧
      c.shared.sleepers.card + 1 ≤ count pending c.pc + count waiting c.pc

instance (c : Conf τ (Shared τ A V) (PC A V)) (l : τ × Act τ A V) : Decidable (CoveredNow c l) :=
  inferInstanceAs (Decidable (∀ tail ∈ (c.pc l.1).tests, _ → _ ∨ _ ∧ _))

omit [DecidableEq τ] [DecidableEq A] in
theorem CoveredNow.blocksCovered {c : Conf τ (Shared τ A V) (PC A V)} {l : τ × Act τ A V}
    (h : CoveredNow c l) : BlocksCovered c l := by
  intro byRef tail n hp hh hq
  rcases h tail (by rw [hp]; rfl) hh with h | ⟨hempty, h⟩
  · exact .inl h
  · obtain rfl := hq.eq_zero hempty
    exact .inr (by rwa [Nat.zero_add])

/-- A consumer blocks when the value is already there, and the push that has put it there still
notifies: it wakes the consumer, which takes the value. Then another one sleeps on the empty
queue. -/
theorem no_lost_wakeup_notified : ∃ (n : ℕ) (r : (system (τ := Fin 3) (A := ℕ) (V := ℕ)).Run
    BlocksCovered n), ((r.state 11).shared.sleepers = {1} ∧ (r.state 11).shared.mHead = some 0 ∧
      (r.state 11).shared.mTail = 1 ∧ (r.state 11).pc 2 = .notify) ∧
    (r.state 12).shared.sleepers = ∅ ∧ (r.state 19).pc 1 = .popped (some 7) ∧
    (r.state n).shared.sleepers = {0} ∧
      (r.state n).shared.mHead = some (r.state n).shared.mTail := by
  let run (t : Fin 3) (n : ℕ) : List (Fin 3 × Act (Fin 3) ℕ ℕ) := List.replicate n (t, .run)
  let as : List (Fin 3 × Act (Fin 3) ℕ ℕ) := (1, .call (.waitAndPop false)) :: run 1 2 ++
    (2, .call (.push 7)) :: (2, .alloc 1) :: run 2 5 ++ run 1 1 ++ (2, .wake 1) :: run 2 1 ++
    run 1 7 ++ (0, .call (.waitAndPop false)) :: run 0 3
  obtain ⟨r, hr⟩ := System.exists_run_through (S := system) (C := BlocksCovered) (D := CoveredNow)
    as (0, .run) (s := ⟨initial 0, fun _ => .idle⟩) ⟨⟨0, rfl⟩, rfl⟩
    (fun _ _ => CoveredNow.blocksCovered) (by decide +kernel)
  have hblocked := hr 11 (by decide) (fun c => c.shared.sleepers = {1} ∧ c.shared.mHead = some 0 ∧
    c.shared.mTail = 1 ∧ c.pc 2 = .notify) ⟨_, rfl, rfl, rfl, rfl, rfl⟩
  have hwoken := hr 12 (by decide) (fun c => c.shared.sleepers = ∅) ⟨_, rfl, rfl⟩
  have htaken := hr 19 (by decide) (fun c => c.pc 1 = .popped (some 7)) ⟨_, rfl, rfl⟩
  obtain ⟨hsleepers, h0, h1, h2⟩ := hr as.length le_rfl (fun c => c.shared.sleepers = {0} ∧
    c.pc 0 = .asleep false ∧ c.pc 1 = .idle ∧ c.pc 2 = .idle) ⟨_, rfl, rfl, rfl, rfl, rfl⟩
  refine ⟨_, r, hblocked, hwoken, htaken, hsleepers,
    no_lost_wakeup (r.reach le_rfl) (fun t => ?_) ⟨0, by simp [hsleepers]⟩⟩
  match t with
  | 0 => exact .inr ⟨⟨false, h0⟩, by simp [hsleepers]⟩
  | 1 => exact .inl h1
  | 2 => exact .inl h2

/-- The producer pushes and notifies between the consumer's predicate and its sleep. -/
theorem lost_wakeup : ¬ ∀ c : Conf (Fin 2) (Shared (Fin 2) ℕ ℕ) (PC ℕ ℕ), system.Reachable c →
    Settled c → c.shared.sleepers.Nonempty → c.shared.mHead = some c.shared.mTail := by
  intro h
  have hex : ∃ c, system.exec (⟨initial 0, fun _ => .idle⟩ : Conf (Fin 2) _ (PC ℕ ℕ))
      [(0, .call (.waitAndPop false)), (0, .run), (0, .run),
        (1, .call (.push 7)), (1, .alloc 1), (1, .run), (1, .run), (1, .run), (1, .run), (1, .run),
        (1, .run), (1, .run), (0, .run)] = some c ∧
      (∀ t, c.pc t = .idle ∨ (∃ byRef, c.pc t = .asleep byRef) ∧ t ∈ c.shared.sleepers) ∧
      c.shared.sleepers = {0} ∧ c.shared.mHead = some 0 ∧ c.shared.mTail = 1 := by
    refine ⟨_, rfl, ?_, rfl, rfl, rfl⟩
    intro t
    match t with
    | 0 => exact .inr ⟨⟨false, rfl⟩, by decide⟩
    | 1 => exact .inl rfl
  obtain ⟨c, hc, hset, hsl, hh, ht⟩ := hex
  have hr : system.Reachable c := .exec (.init ⟨⟨0, rfl⟩, rfl⟩) hc
  have := h c hr hset (by simp [hsl])
  simp [hh, ht] at this

end ThreadSafeQueue

end ConcurrencySandbox

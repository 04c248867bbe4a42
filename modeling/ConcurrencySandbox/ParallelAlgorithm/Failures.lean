import ConcurrencySandbox.ParallelAlgorithm.Handover

/-!
# A failing `+=`

An exception goes from block to block to the caller, who throws it (`failure_propagates`), unless
the last loop of a thread throws, whose `set_exception` finds the promise satisfied, or the caller
leaves while a thread has still to use what the caller destroys.
-/

namespace ConcurrencySandbox

open Interleaving

namespace ParallelPartialSum

variable {α ε : Type*} {n : ℕ} {b : Blocks n}
  {c : Conf (Fin b.numThreads) (State α ε) (Place α ε)}

/-- What the caller sees of what `+=` has thrown. -/
structure Propagates [Add α] [Inhabited α] (b : Blocks n)
    (c : Conf (Fin b.numThreads) (State α ε) (Place α ε)) : Prop where
  /-- No exception has left a thread, and nothing has been used that was destroyed. -/
  running : c.shared.fate = .running
  /-- The threads do not all wait. -/
  moves : (∀ r, c.pc b.caller ≠ .ended r) → ∃ t, next b t .run c.shared (c.pc t) ≠ none
  /-- All threads have ended when the call has. -/
  joined : ∀ r, c.pc b.caller = .ended r →
    ∀ t : Fin b.numThreads, (t : ℕ) + 1 < b.numThreads → c.pc t = .ended none
  returned : c.pc b.caller = .ended none → c.shared.thrown = []
  threw : ∀ e, c.pc b.caller = .ended (some e) → c.shared.Threw e

/-- When the value of a block is there, so are those of the blocks before. -/
theorem Sound.passed (hS : Sound b c) {u : ℕ} (hu : u + 1 < b.numThreads)
    (hp : c.shared.Passed u) : ∀ w ≤ u, c.shared.Passed w := by
  induction u with
  | zero =>
    intro w hw
    rwa [Nat.le_zero.1 hw]
  | succ u ih =>
    intro w hw
    rcases Nat.le_succ_iff.1 hw with h | rfl
    · exact ih (by omega) ((hS.worker (t := ⟨u + 1, by omega⟩) hu).passed hp u.succ_pos) w h
    · exact hp

/-- When the caller has returned from `process`, every block has had its value. -/
theorem Sound.all_passed (hS : Sound b c) (hret : (c.pc b.caller).returned = true) {u : ℕ}
    (hu : u + 1 < b.numThreads) : c.shared.Passed u := by
  have hcaller : (b.caller : ℕ) = b.numThreads - 1 := rfl
  exact hS.passed (by omega) (hS.caller.returned hret (by omega)) u (by omega)

theorem Sound.thrown_eq_nil (hS : Sound b c) (hret : c.pc b.caller = .ended none) :
    c.shared.thrown = [] := by
  by_contra hne
  obtain ⟨t, hf⟩ := hS.failing hne
  by_cases hlt : (t : ℕ) + 1 < b.numThreads
  · obtain ⟨v, hv⟩ := hS.all_passed (by rw [hret]; rfl) hlt
    rcases hf with hexc | ⟨e, he⟩
    · have hw := hS.worker hlt
      have hd := hw.delivered
      have hplace := hw.place
      rw [hv, Option.isSome_some] at hd
      revert hexc hd hplace
      generalize c.pc t = p
      intro hexc hd hplace
      cases p with
      | fix v it => cases hexc
      | done r | ended r =>
        cases hplace
        cases hexc
      | _ => cases hd
    · rw [hv] at he
      cases he
  · cases eq_caller hlt
    rcases hf with hexc | ⟨e, he⟩
    · rw [hret] at hexc
      cases hexc
    · rw [hS.caller.results] at he
      cases he

variable [Add α] [Inhabited α]

theorem Sound.propagates (hS : Sound b c) : Propagates b c := by
  refine ⟨hS.running, exists_next hS, fun r hr t ht => ?_, hS.thrown_eq_nil, fun e he => ?_⟩
  · have hj := hS.caller.joined
    rw [hr] at hj
    exact (hS.worker ht).finished.1 (hj t ht)
  · exact (hS.known b.caller).threw e (by rw [he]; rfl)

/-- In a run in which no `+=` of the last loop throws but in the caller, and the caller leaves
`process` when every thread has given its result to the next block: the run is bounded, and ends
with the call throwing what some `+=` threw, if any did. -/
theorem failure_propagates (n : ℕ) (hardwareConcurrency : BitVec 32) (a : ℕ → α) :
    ∀ b, setup n hardwareConcurrency = .ready b →
      (∃ N, ∀ m, (system (ε := ε) b a).Run (Contained b) m → m ≤ N) ∧
        ∀ m (r : (system (ε := ε) b a).Run (Contained b) m), ∀ i ≤ m, Propagates b (r.state i) :=
  fun _ _ => ⟨⟨_, fun _ r => run_le (fun _ _ hr hc => ⟨sound_reach hr, hc⟩) r⟩,
    fun _ r _ hi => (sound_reach (r.reach hi)).propagates⟩

section Example

def twoBlocks : Blocks 33 := ⟨2, 16, by decide, by decide, by decide⟩

def threeBlocks : Blocks 65 := ⟨3, 21, by decide, by decide, by decide⟩

theorem setup_two : setup 33 2 = .ready twoBlocks :=
  setup_eq_ready.2 ⟨2, by decide, by decide, rfl⟩

theorem setup_three : setup 65 3 = .ready threeBlocks :=
  setup_eq_ready.2 ⟨3, by decide, by decide, rfl⟩

def runs {T : ℕ} (t : Fin T) (k : ℕ) : List (Fin T × Act Unit) := List.replicate k (t, .run)

/-- A call that ends with what `+=` has thrown. -/
def threw : Place ℕ Unit → Bool
  | .ended (some (.thrown _)) => true
  | _ => false

theorem eq_of_threw {p : Place ℕ Unit} (h : threw p = true) : p = .ended (some (.thrown ())) := by
  unfold threw at h
  split at h
  · rfl
  · cases h

/-- The first `+=` of thread 0 throws, and then all goes on. -/
def threadFails : List (Fin 2 × Act Unit) :=
  runs 1 3 ++ runs 0 1 ++ (0, .throw ()) :: runs 0 2 ++ runs 1 23

theorem failure_propagates_two : ∃ (m : ℕ)
    (r : (system (ε := Unit) twoBlocks fun i => i).Run (Contained twoBlocks) m),
      (r.state m).pc twoBlocks.caller = .ended (some (.thrown ())) ∧
        Propagates twoBlocks (r.state m) := by
  have h : (((system twoBlocks fun i => i).execIf (Contained twoBlocks)
      ⟨initial fun i => i, fun _ => .unstarted⟩ threadFails).any fun c =>
        threw (c.pc twoBlocks.caller)) = true := by
    decide +kernel
  obtain ⟨r, h⟩ := System.exists_run_any (S := system twoBlocks fun i => i)
    ((1, .run) : Fin 2 × Act Unit) ⟨rfl, rfl⟩ h
  exact ⟨_, r, eq_of_threw h,
    (failure_propagates 33 2 (fun i => i) twoBlocks setup_two).2 _ r _ le_rfl⟩

/-- The first `+=` of the caller throws. -/
def callerFails : List (Fin 2 × Act Unit) :=
  runs 1 3 ++ (1, .throw ()) :: runs 1 2 ++ runs 0 18

/-- Block `u` gives its result to block `v`, and its next `+=` throws. -/
def fixFails (t u v : Fin 3) : List (Fin 3 × Act Unit) :=
  runs v 4 ++ runs t 23 ++ runs u 25 ++ (u, .throw ()) :: runs u 2

/-- One exception, and the program is undefined, or is terminated. -/
theorem failure_not_contained :
    (setup 33 2 = .ready twoBlocks ∧ ∃ c, (system (ε := Unit) twoBlocks fun i => i).Reachable c ∧
      c.shared.thrown = [()] ∧ c.shared.fate = .undefined) ∧
    setup 65 3 = .ready threeBlocks ∧ ∃ c, (system (ε := Unit) threeBlocks fun i => i).Reachable c ∧
      c.shared.thrown = [()] ∧ c.shared.fate = .terminated := by
  have h2 : (((system twoBlocks fun i => i).exec ⟨initial fun i => i, fun _ => .unstarted⟩
      callerFails).any fun c => decide (c.shared.thrown = [()] ∧ c.shared.fate = .undefined)) =
        true := by
    decide +kernel
  have h3 : (((system threeBlocks fun i => i).exec ⟨initial fun i => i, fun _ => .unstarted⟩
      (fixFails 0 1 2)).any fun c =>
        decide (c.shared.thrown = [()] ∧ c.shared.fate = .terminated)) = true := by
    decide +kernel
  obtain ⟨c, hc, h⟩ := System.exists_reachable (S := system twoBlocks _) ⟨rfl, rfl⟩ h2
  obtain ⟨c', hc', h'⟩ := System.exists_reachable (S := system threeBlocks _) ⟨rfl, rfl⟩ h3
  exact ⟨⟨setup_two, c, hc, of_decide_eq_true h⟩, setup_three, c', hc', of_decide_eq_true h'⟩

end Example

end ParallelPartialSum

end ConcurrencySandbox

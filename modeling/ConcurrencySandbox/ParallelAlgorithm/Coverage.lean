import Mathlib.Data.List.Range
import ConcurrencySandbox.ParallelAlgorithm.Partition

/-!
# The ranges of process

The iterators that `parallel_partial_sum` gives to `process`, block after block (`calls`), and when
they cut the range of the call into pieces (`soundPartition_iff`): when the range is not empty and
`int` holds both the length rounded up and `hardware_concurrency()`.
-/

namespace ConcurrencySandbox

namespace ParallelPartialSum

variable {n : ℕ} {hardwareConcurrency : BitVec 32}

/-- The closed ranges `[first, last]` of `l` cut `n` elements into pieces, in order. -/
structure Cuts (n : ℕ) (l : List (ℕ × ℕ)) : Prop where
  nonempty : ∀ r ∈ l, r.1 ≤ r.2
  consecutive : l.IsChain fun r s => r.2 + 1 = s.1
  disjoint : l.Pairwise fun r s => r.2 < s.1
  covers : ∀ p, p < n ↔ ∃ r ∈ l, r.1 ≤ p ∧ p ≤ r.2

namespace Blocks

variable (b : Blocks n)

/-- The arguments of `process` from `first` on: those of `k` more threads, and of the caller. -/
def callsFrom : ℕ → ℕ → List (ℕ × ℕ)
  | 0, first => [(first, n - 1)]
  | k + 1, first =>
    let it := first + (b.blockSize - 1)
    (first, it) :: callsFrom k (it + 1)

def calls : List (ℕ × ℕ) := b.callsFrom (b.numThreads - 1) 0

/-- With `first` at the beginning of a block, the loop goes through the blocks from there on. -/
theorem callsFrom_first (k : ℕ) {t : ℕ} (h : t + k + 1 = b.numThreads) :
    b.callsFrom k (b.first t) = (List.range' t (k + 1)).map fun u => (b.first u, b.last u) := by
  induction k generalizing t with
  | zero =>
    rw [callsFrom, List.range'_one, List.map_singleton, b.last_of_not (by omega)]
  | succ k ih =>
    have hlast : b.first t + (b.blockSize - 1) = b.last t := (if_pos (by omega)).symm
    rw [callsFrom, List.range'_succ, List.map_cons, hlast, b.last_add_one (by omega),
      ih (by omega)]

theorem calls_eq : b.calls = (List.range b.numThreads).map fun t => (b.first t, b.last t) := by
  have hpos := b.numThreads_pos
  have hcalls := b.callsFrom_first (b.numThreads - 1) (t := 0) (by omega)
  rwa [b.first_zero, Nat.sub_add_cancel hpos, ← List.range_eq_range'] at hcalls

theorem mem_calls {r : ℕ × ℕ} : r ∈ b.calls ↔ ∃ t < b.numThreads, (b.first t, b.last t) = r := by
  rw [calls_eq, List.mem_map]
  simp only [List.mem_range]

/-- The calls of `process` share out the range. -/
theorem cuts_calls : Cuts n b.calls where
  nonempty r hr := by
    obtain ⟨t, ht, rfl⟩ := b.mem_calls.1 hr
    exact b.first_le_last ht
  consecutive := by
    rw [calls_eq, List.isChain_map, List.isChain_range]
    intro t ht
    exact b.last_add_one (by omega)
  disjoint := by
    rw [calls_eq, List.pairwise_map]
    refine List.Pairwise.imp_of_mem (fun _ hu htu => ?_) List.pairwise_lt_range
    exact b.last_lt_first htu (List.mem_range.1 hu)
  covers p := by
    constructor
    · intro hp
      obtain ⟨t, ht, h1, h2⟩ := b.exists_block hp
      exact ⟨_, b.mem_calls.2 ⟨t, ht, rfl⟩, h1, h2⟩
    · rintro ⟨r, hr, -, h2⟩
      obtain ⟨t, ht, rfl⟩ := b.mem_calls.1 hr
      exact h2.trans_lt (b.last_lt ht)

end Blocks

/-- What is to hold of the blocks of a range of length `n`. -/
structure SoundPartition (n : ℕ) (hardwareConcurrency : BitVec 32) : Prop where
  /-- The conversion to `int` keeps the length. -/
  dist_eq : dist n = n
  /-- No `int` overflows, and `numThreads - 1` and `dist / numThreads` are defined. -/
  numThreads_pos : ∃ T, numThreads n hardwareConcurrency = some T ∧ 1 ≤ T
  cuts : 1 ≤ n → ∃ b, setup n hardwareConcurrency = .ready b ∧ Cuts n b.calls

/-- `dist` is the length only below `2 ^ 31`. -/
theorem dist_eq_iff : dist n = n ↔ n < 2 ^ 31 := by
  refine ⟨fun h => ?_, dist_eq⟩
  have := BitVec.toInt_lt (x := BitVec.ofNat 32 n)
  rw [dist] at h
  omega

theorem soundPartition_iff : SoundPartition n hardwareConcurrency ↔
    1 ≤ n ∧ n < 2 ^ 31 - 32 ∧ hardwareConcurrency.toNat < 2 ^ 31 := by
  constructor
  · rintro ⟨hdist, ⟨T, h, hT⟩, -⟩
    have hle := numThreads_le h hT
    have hpos : 1 ≤ n := by omega
    exact ⟨hpos, (ready_iff hpos (dist_eq_iff.1 hdist)).1
      ⟨_, setup_eq_ready.2 ⟨T, h, hT, rfl⟩⟩⟩
  · rintro ⟨h1, h2, h3⟩
    have hlt : n < 2 ^ 31 := by omega
    obtain ⟨b, hb⟩ := (ready_iff h1 hlt).2 ⟨h2, h3⟩
    obtain ⟨T, h, hT, -⟩ := setup_eq_ready.1 hb
    exact ⟨dist_eq hlt, ⟨T, h, hT⟩, fun _ => ⟨b, hb, b.cuts_calls⟩⟩

/-- An empty range has no threads, and `threads.reserve` is asked for `-1`. -/
theorem not_soundPartition : numThreads 0 8 = some 0 ∧ setup 0 8 = .lengthError ∧
    ¬ SoundPartition 0 8 := by
  have hzero : numThreads 0 8 = some 0 := by decide
  refine ⟨hzero, ?_, fun hS => ?_⟩
  · rfl
  · obtain ⟨T, h, hT⟩ := hS.numThreads_pos
    cases hzero.symm.trans h
    omega

end ParallelPartialSum

end ConcurrencySandbox

import Mathlib.Data.Int.Order.Basic
import Mathlib.Tactic.Ring
import Mathlib.Tactic.Zify

/-!
# The blocks of parallel_partial_sum

The `int`s that `parallel_partial_sum` computes from the length of the range and
`hardware_concurrency()`, and the blocks it cuts the range into: all but the last have `blockSize`
elements, the last has the rest.
-/

namespace ConcurrencySandbox

namespace ParallelPartialSum

def minPerThread : ℤ := 32

/-- A result of `int` arithmetic; `none` is overflow. -/
def int (x : ℤ) : Option ℤ := if -2 ^ 31 ≤ x ∧ x < 2 ^ 31 then some x else none

/-- `std::distance(first, last)`, stored in an `int`. -/
def dist (n : ℕ) : ℤ := (BitVec.ofNat 32 n).toInt

def numThreads (n : ℕ) (hardwareConcurrency : BitVec 32) : Option ℤ := do
  let sum ← int (dist n + minPerThread)
  let sum ← int (sum - 1)
  let hardwareNumThreads := hardwareConcurrency.toInt
  some (min (sum.tdiv minPerThread) (if hardwareNumThreads = 0 then 2 else hardwareNumThreads))

/-- A range of length `n` in blocks, none of them empty. -/
structure Blocks (n : ℕ) where
  numThreads : ℕ
  blockSize : ℕ
  numThreads_pos : 0 < numThreads
  blockSize_pos : 0 < blockSize
  fits : numThreads * blockSize ≤ n

variable {n : ℕ} {hardwareConcurrency : BitVec 32} {T : ℤ}

theorem int_eq_some {x y : ℤ} : int x = some y ↔ y = x ∧ -2 ^ 31 ≤ x ∧ x < 2 ^ 31 := by
  unfold int
  split_ifs with h
  · rw [Option.some.injEq, and_iff_left h, eq_comm]
  · exact ⟨nofun, fun h' => absurd h'.2 h⟩

theorem dist_le (n : ℕ) : dist n ≤ n := by
  rw [dist, BitVec.toInt_eq_toNat_cond, BitVec.toNat_ofNat]
  have := Nat.mod_le n (2 ^ 32)
  split_ifs <;> omega

theorem dist_eq (h : n < 2 ^ 31) : dist n = n := by
  rw [dist, BitVec.toInt_eq_toNat_cond, BitVec.toNat_ofNat, Nat.mod_eq_of_lt (by omega)]
  split_ifs <;> omega

theorem numThreads_eq_some : numThreads n hardwareConcurrency = some T ↔
    (-2 ^ 31 ≤ dist n + 32 ∧ dist n + 32 < 2 ^ 31) ∧ -2 ^ 31 ≤ dist n + 31 ∧
      T = min ((dist n + 31).tdiv 32)
        (if hardwareConcurrency.toInt = 0 then 2 else hardwareConcurrency.toInt) := by
  simp only [numThreads, minPerThread, Option.bind_eq_bind, Option.bind_eq_some_iff, int_eq_some,
    Option.some.injEq]
  constructor
  · rintro ⟨_, ⟨rfl, h⟩, _, ⟨rfl, h1, h2⟩, rfl⟩
    rw [show dist n + 32 - 1 = dist n + 31 by ring] at *
    exact ⟨h, h1, rfl⟩
  · rintro ⟨h, h1, rfl⟩
    refine ⟨_, ⟨rfl, h⟩, _, ⟨rfl, by omega, by omega⟩, ?_⟩
    rw [show dist n + 32 - 1 = dist n + 31 by ring]

/-- There are no more threads than elements. -/
theorem numThreads_le (h : numThreads n hardwareConcurrency = some T) (hT : 1 ≤ T) :
    T ≤ dist n := by
  obtain ⟨-, -, hmin⟩ := numThreads_eq_some.1 h
  have hle : T ≤ (dist n + 31).tdiv 32 := hmin ▸ min_le_left _ _
  have hpos : 1 ≤ (dist n + 31).tdiv 32 := hT.trans hle
  have hnonneg : 0 ≤ dist n + 31 := by
    by_contra hneg
    have h := Int.tdiv_nonneg (a := -(dist n + 31)) (b := 32) (by omega) (by omega)
    rw [Int.neg_tdiv] at h
    omega
  rw [Int.tdiv_eq_ediv_of_nonneg hnonneg] at hle hpos
  omega

theorem blockSize_pos (h : numThreads n hardwareConcurrency = some T) (hT : 1 ≤ T) :
    1 ≤ (dist n).tdiv T := by
  have hle := numThreads_le h hT
  rw [Int.tdiv_eq_ediv_of_nonneg (by omega), Int.le_ediv_iff_mul_le (by omega)]
  omega

theorem mul_blockSize_le (h : numThreads n hardwareConcurrency = some T) (hT : 1 ≤ T) :
    T * (dist n).tdiv T ≤ dist n := by
  have hle := numThreads_le h hT
  rw [Int.tdiv_eq_ediv_of_nonneg (by omega)]
  exact Int.mul_ediv_self_le (by omega)

/-- `numThreads` blocks of `dist / numThreads` elements, the last one longer. -/
def blocks (h : numThreads n hardwareConcurrency = some T) (hT : 1 ≤ T) : Blocks n where
  numThreads := T.toNat
  blockSize := ((dist n).tdiv T).toNat
  numThreads_pos := by omega
  blockSize_pos := by
    have := blockSize_pos h hT
    omega
  fits := by
    zify
    rw [Int.toNat_of_nonneg (by omega), Int.toNat_of_nonneg (by have := blockSize_pos h hT; omega)]
    exact (mul_blockSize_le h hT).trans (dist_le n)

/-- How the call begins. -/
inductive Setup (n : ℕ)
  /-- An `int` overflows, which is undefined. -/
  | overflow
  /-- Thrown by `threads.reserve`. -/
  | lengthError
  | ready (b : Blocks n)

def setup (n : ℕ) (hardwareConcurrency : BitVec 32) : Setup n :=
  match h : numThreads n hardwareConcurrency with
  | none => .overflow
  | some T =>
    if int (T - 1) = none then .overflow
    else if hT : T - 1 < 0 then .lengthError
    else .ready (blocks h (by omega))

theorem setup_eq_ready {b : Blocks n} : setup n hardwareConcurrency = .ready b ↔
    ∃ (T : ℤ) (h : numThreads n hardwareConcurrency = some T) (hT : 1 ≤ T), b = blocks h hT := by
  unfold setup
  split
  · rename_i h
    exact ⟨nofun, fun ⟨T, h', _⟩ => absurd (h.symm.trans h') nofun⟩
  · rename_i T h
    split_ifs with h1 h2
    · refine ⟨nofun, fun ⟨T', h', hT, _⟩ => ?_⟩
      cases h.symm.trans h'
      have hle := numThreads_le h hT
      have hlt := (numThreads_eq_some.1 h).1.2
      exact nomatch h1.symm.trans (int_eq_some.2 ⟨rfl, by omega, by omega⟩)
    · refine ⟨nofun, fun ⟨T', h', hT, _⟩ => ?_⟩
      cases h.symm.trans h'
      omega
    · constructor
      · rintro ⟨⟩
        exact ⟨T, h, by omega, rfl⟩
      · rintro ⟨T', h', hT, rfl⟩
        cases h.symm.trans h'
        rfl

/-- There are blocks when neither `dist` nor the number of threads leaves `int`. -/
theorem ready_iff (h1 : 1 ≤ n) (h2 : n < 2 ^ 31) :
    (∃ b, setup n hardwareConcurrency = .ready b) ↔
      n < 2 ^ 31 - 32 ∧ hardwareConcurrency.toNat < 2 ^ 31 := by
  have htoInt : hardwareConcurrency.toInt = if 2 * hardwareConcurrency.toNat < 2 ^ 32
      then (hardwareConcurrency.toNat : ℤ) else hardwareConcurrency.toNat - 2 ^ 32 := by
    exact_mod_cast BitVec.toInt_eq_toNat_cond hardwareConcurrency
  have hlt := hardwareConcurrency.isLt
  have hdiv : (((n : ℤ) + 31).tdiv 32) = (n + 31) / 32 := Int.tdiv_eq_ediv_of_nonneg (by omega)
  constructor
  · rintro ⟨b, hb⟩
    obtain ⟨T, h, hT, -⟩ := setup_eq_ready.1 hb
    obtain ⟨⟨-, hn⟩, -, hmin⟩ := numThreads_eq_some.1 h
    rw [dist_eq h2] at hn
    have hle := hT.trans (hmin ▸ min_le_right _ _)
    refine ⟨by omega, ?_⟩
    split_ifs at hle htoInt <;> omega
  · rintro ⟨hn, hhw⟩
    rw [if_pos (by omega)] at htoInt
    refine ⟨_, setup_eq_ready.2 ⟨_, numThreads_eq_some.2 ⟨?_, ?_, rfl⟩, ?_, rfl⟩⟩
    · rw [dist_eq h2]
      omega
    · rw [dist_eq h2]
      omega
    · rw [dist_eq h2, hdiv]
      refine le_min (by omega) ?_
      split_ifs <;> omega

namespace Blocks

variable (b : Blocks n) {t u p : ℕ}

/-- The first element of block `t`. -/
def first (t : ℕ) : ℕ := t * b.blockSize

/-- The last element of block `t`. -/
def last (t : ℕ) : ℕ := if t + 1 < b.numThreads then b.first t + (b.blockSize - 1) else n - 1

theorem first_zero : b.first 0 = 0 := Nat.zero_mul _

/-- A block begins where the one before it ends. -/
theorem last_add_one (h : t + 1 < b.numThreads) : b.last t + 1 = b.first (t + 1) := by
  have := b.blockSize_pos
  rw [last, if_pos h, first, first, Nat.succ_mul]
  omega

/-- The last block ends with the range. -/
theorem last_of_not (h : ¬ t + 1 < b.numThreads) : b.last t = n - 1 := if_neg h

theorem first_add_le (h : t < b.numThreads) : b.first t + b.blockSize ≤ n := by
  have := (Nat.mul_le_mul_right b.blockSize h).trans b.fits
  rwa [Nat.succ_mul] at this

theorem first_le_last (h : t < b.numThreads) : b.first t ≤ b.last t := by
  have := b.first_add_le h
  have := b.blockSize_pos
  unfold last
  split_ifs <;> omega

theorem last_lt (h : t < b.numThreads) : b.last t < n := by
  have := b.first_add_le h
  have := b.blockSize_pos
  unfold last
  split_ifs <;> omega

theorem last_lt_first (htu : t < u) (hu : u < b.numThreads) : b.last t < b.first u := by
  have hmul := Nat.mul_le_mul_right b.blockSize (show t + 1 ≤ u from htu)
  have := b.last_add_one (t := t) (by omega)
  unfold first at this
  unfold first
  omega

/-- No element is in two blocks. -/
theorem block_unique (ht : t < b.numThreads) (hu : u < b.numThreads) (h1 : b.first t ≤ p)
    (h2 : p ≤ b.last t) (h3 : b.first u ≤ p) (h4 : p ≤ b.last u) : t = u := by
  rcases Nat.lt_trichotomy t u with h | h | h
  · have := b.last_lt_first h hu
    omega
  · exact h
  · have := b.last_lt_first h ht
    omega

/-- Every element is in a block. -/
theorem exists_block (hp : p < n) :
    ∃ t < b.numThreads, b.first t ≤ p ∧ p ≤ b.last t := by
  have hpos := b.numThreads_pos
  by_cases h : p / b.blockSize + 1 < b.numThreads
  · have hlast := b.last_add_one h
    have hlt := Nat.lt_mul_div_succ p b.blockSize_pos
    rw [first, Nat.mul_comm] at hlast
    exact ⟨p / b.blockSize, by omega, Nat.div_mul_le_self _ _, by omega⟩
  · refine ⟨b.numThreads - 1, by omega, ?_, ?_⟩
    · exact (Nat.le_div_iff_mul_le b.blockSize_pos).1 (by omega)
    · rw [b.last_of_not (by omega)]
      omega

end Blocks

end ParallelPartialSum

end ConcurrencySandbox

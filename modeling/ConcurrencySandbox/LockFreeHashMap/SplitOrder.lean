import Mathlib.Logic.Function.Iterate
import ConcurrencySandbox.LockFreeHashMap.FiniteMap

/-!
# Buckets are contiguous

In a table of `2 ^ n` buckets the keys of the hash values of bucket `i` agree with the key of its
sentinel on the `n` highest bits, where the keys of all sentinels differ: so they are behind their
own sentinel and in front of every later one. A bucket's parent has its index without the highest
bit, so the recursion of `insertSentinel` goes through fewer and fewer bits to bucket 0.
-/

namespace ConcurrencySandbox

namespace LockFreeHashMap

variable {n : ℕ} {i j h index bucketSize : HashValueType}

theorem getLsbD_of_lt (hi : i.toNat < 2 ^ n) {b : ℕ} (hb : n ≤ b) : i.getLsbD b = false := by
  rw [BitVec.getLsbD]
  exact Nat.testBit_lt_two_pow (Nat.lt_of_lt_of_le hi (Nat.pow_le_pow_right (by decide) hb))

/-- The key of the sentinel of bucket `i` is in the `n` highest bits. -/
theorem makeSentinelKey_low (hn : n ≤ 62) (hi : i.toNat < 2 ^ n) :
    2 ^ (64 - n) * ((makeSentinelKey i).toNat / 2 ^ (64 - n)) = (makeSentinelKey i).toNat := by
  have hlow : (makeSentinelKey i).toNat % 2 ^ (64 - n) = 0 := by
    refine Nat.eq_of_testBit_eq fun b => ?_
    rw [Nat.testBit_mod_two_pow, Nat.zero_testBit]
    rcases Nat.lt_or_ge b (64 - n) with hb | hb
    · have hbit := getLsbD_makeSentinelKey i (j := b) (by omega)
      rw [getLsbD_of_lt hi (by omega), Bool.false_and] at hbit
      rw [show (makeSentinelKey i).toNat.testBit b = false from hbit, Bool.and_false]
    · rw [decide_eq_false (by omega), Bool.false_and]
  have hdiv := Nat.div_add_mod (makeSentinelKey i).toNat (2 ^ (64 - n))
  omega

/-- A key agrees with the sentinel of its bucket on the `n` highest bits. -/
theorem makeOrdinaryKey_high (hn : n ≤ 62) (hmod : h.toNat % 2 ^ n = i.toNat) :
    (makeOrdinaryKey h).toNat / 2 ^ (64 - n) = (makeSentinelKey i).toNat / 2 ^ (64 - n) := by
  refine Nat.eq_of_testBit_eq fun b => ?_
  rw [Nat.testBit_div_two_pow, Nat.testBit_div_two_pow]
  rcases Nat.lt_or_ge (b + (64 - n)) 64 with hb | hb
  · have hbit : i.getLsbD (63 - (b + (64 - n))) = h.getLsbD (63 - (b + (64 - n))) := by
      rw [BitVec.getLsbD, BitVec.getLsbD, ← hmod, Nat.testBit_mod_two_pow,
        decide_eq_true (by omega), Bool.true_and]
    have hord := getLsbD_makeOrdinaryKey h (b + (64 - n))
    rw [getLsbD_makeSentinelKey h hb, ← hbit, ← getLsbD_makeSentinelKey i hb,
      decide_eq_false (show ¬ b + (64 - n) = 0 by omega), Bool.or_false] at hord
    exact hord
  · have hge : ∀ x : HashValueType, x.toNat.testBit (b + (64 - n)) = false := fun x =>
      BitVec.getLsbD_of_ge x _ hb
    rw [hge, hge]

theorem makeOrdinaryKey_lt (hn : n ≤ 62) (hi : i.toNat < 2 ^ n) (hj : j.toNat < 2 ^ n)
    (hij : makeSentinelKey i < makeSentinelKey j) (hmod : h.toNat % 2 ^ n = i.toNat) :
    makeOrdinaryKey h < makeSentinelKey j := by
  rw [BitVec.lt_def] at hij ⊢
  have hhigh := makeOrdinaryKey_high hn hmod
  have hlowi := makeSentinelKey_low hn hi
  have hlowj := makeSentinelKey_low hn hj
  have hlt : (makeSentinelKey i).toNat / 2 ^ (64 - n) <
      (makeSentinelKey j).toNat / 2 ^ (64 - n) := by
    refine Nat.lt_of_mul_lt_mul_left (a := 2 ^ (64 - n)) ?_
    omega
  refine Nat.lt_of_not_le fun hle => ?_
  have := Nat.div_le_div_right (c := 2 ^ (64 - n)) hle
  omega

/-- The turns of the loop, until its test fails. -/
theorem parentLoop_turns (turns : ℕ) (index i : HashValueType) {e : ℕ} (he : e ≤ turns)
    (hi : i.toNat = 2 ^ e) (h0 : index.toNat ≠ 0) (hlt : index.toNat < 2 ^ e) :
    ∃ k < e, (∀ m < k, index < i >>> (m + 1)) ∧ ¬ index < i >>> (k + 1) ∧
      parentLoop turns index i = index - i >>> (k + 1) := by
  induction turns generalizing i e with
  | zero =>
    obtain rfl : e = 0 := by omega
    simp at hlt
    omega
  | succ turns ih =>
    cases e with
    | zero =>
      simp at hlt
      omega
    | succ e =>
      have hi' : (i >>> 1).toNat = 2 ^ e := by
        rw [BitVec.toNat_ushiftRight, hi, Nat.shiftRight_eq_div_pow, Nat.pow_succ]
        omega
      have hshift : ∀ m, i >>> 1 >>> (m + 1) = i >>> (m + 1 + 1) := fun m => by
        rw [← BitVec.shiftRight_add, Nat.add_comm 1]
      unfold parentLoop
      simp only []
      split_ifs with hgo
      · obtain ⟨k, hk, hbefore, hstop, heq⟩ :=
          ih (i >>> 1) (by omega) hi' (by rwa [BitVec.lt_def, hi'] at hgo)
        refine ⟨k + 1, by omega, fun m hm => ?_, hshift k ▸ hstop, hshift k ▸ heq⟩
        cases m with
        | zero => exact hgo
        | succ m => exact hshift m ▸ hbefore m (by omega)
      · exact ⟨0, by omega, by simp, hgo, rfl⟩

/-- Parent by parent to bucket 0, in front of each other. -/
theorem parents_end (hn : n ≤ 62) (hb : bucketSize.toNat = 2 ^ n) (hlt : index < bucketSize) {m : ℕ}
    (hm : index.toNat < 2 ^ m) : ∃ d ≤ m, (getParentIndex · bucketSize)^[d] index = 0 ∧
      ∀ e < d, (getParentIndex · bucketSize)^[e] index ≠ 0 ∧
        makeSentinelKey ((getParentIndex · bucketSize)^[e + 1] index) <
          makeSentinelKey ((getParentIndex · bucketSize)^[e] index) := by
  induction m generalizing index with
  | zero =>
    refine ⟨0, le_rfl, BitVec.eq_of_toNat_eq ?_, nofun⟩
    simpa using hm
  | succ m ih =>
    by_cases h0 : index = 0
    · exact ⟨0, Nat.zero_le _, h0, nofun⟩
    · obtain ⟨k, hk, h1, h2⟩ := getParentIndex_spec (by omega) hb h0 hlt
      have hkm : 2 ^ k ≤ 2 ^ m := by
        refine Nat.pow_le_pow_right (by decide) (Nat.le_of_lt_succ ?_)
        exact (Nat.pow_lt_pow_iff_right (by decide)).1 (show 2 ^ k < 2 ^ (m + 1) by omega)
      have hplt : getParentIndex index bucketSize < bucketSize := by
        rw [BitVec.lt_def] at hlt ⊢
        omega
      obtain ⟨d, hd, hend, hall⟩ := ih hplt (by omega)
      refine ⟨d + 1, by omega, hend, fun e he => ?_⟩
      cases e with
      | zero => exact ⟨h0, makeSentinelKey_parent hn hb h0 hlt⟩
      | succ e => exact hall e (by omega)

/-- The keys of a bucket are between its sentinel's and every later sentinel's, and are no
sentinel's and not the last node's. A parent is found, has the lower index and comes first; bucket
0, which has its sentinel from the constructor on, is reached after at most `n` parents. -/
theorem split_order (hn : n ≤ 62) (hb : bucketSize.toNat = 2 ^ n) :
    (∀ i h : HashValueType, i < bucketSize → h % bucketSize = i →
      makeSentinelKey i < makeOrdinaryKey h ∧
      (∀ j < bucketSize, makeSentinelKey i < makeSentinelKey j →
      makeOrdinaryKey h < makeSentinelKey j) ∧
      (∀ index, makeOrdinaryKey h ≠ makeSentinelKey index) ∧ makeOrdinaryKey h ≠ maxHashValue) ∧
    ∀ i : HashValueType, 0 < i → i < bucketSize →
      (∃ k < n, (∀ m < k, i < bucketSize >>> (m + 1)) ∧ ¬ i < bucketSize >>> (k + 1) ∧
        getParentIndex i bucketSize = i - bucketSize >>> (k + 1)) ∧
      getParentIndex i bucketSize < i ∧
      makeSentinelKey (getParentIndex i bucketSize) < makeSentinelKey i ∧
      ∃ d ≤ n, (getParentIndex · bucketSize)^[d] i = 0 ∧
        ∀ e < d, (getParentIndex · bucketSize)^[e] i ≠ 0 ∧
          makeSentinelKey ((getParentIndex · bucketSize)^[e + 1] i) <
            makeSentinelKey ((getParentIndex · bucketSize)^[e] i) := by
  refine ⟨fun i h hi hmod => ?_, fun i h0 hi => ?_⟩
  · have hmod' : h.toNat % 2 ^ n = i.toNat := by rw [← hmod, BitVec.toNat_umod, hb]
    rw [BitVec.lt_def, hb] at hi
    refine ⟨?_, fun j hj hij => ?_, fun index => (makeSentinelKey_ne index h).symm,
      (maxHashValue_ne h).symm⟩
    · rw [← hmod]
      exact Sequential.makeSentinelKey_lt hb
    · rw [BitVec.lt_def, hb] at hj
      exact makeOrdinaryKey_lt hn hi hj hij hmod'
  · have hne : i ≠ 0 := fun h => by
      rw [h] at h0
      exact absurd h0 (by decide)
    have hi' : i.toNat < 2 ^ n := by rwa [BitVec.lt_def, hb] at hi
    have h0' : i.toNat ≠ 0 := fun h => hne (BitVec.eq_of_toNat_eq h)
    obtain ⟨m, hm, h1, h2⟩ := getParentIndex_spec (by omega) hb hne hi
    refine ⟨parentLoop_turns 64 i bucketSize (by omega) hb h0' hi', ?_,
      makeSentinelKey_parent hn hb hne hi, parents_end hn hb hi hi'⟩
    rw [BitVec.lt_def]
    have : 0 < 2 ^ m := Nat.pow_pos (by decide)
    omega

/-- In a table of 8 buckets, the hash value 13 is in bucket 5, between bucket 5 and bucket 3. -/
theorem split_order_eight : makeSentinelKey 5 < makeOrdinaryKey 13 ∧
    makeOrdinaryKey 13 < makeSentinelKey 3 ∧ getParentIndex 5 8 < 5 :=
  have h := split_order (show 3 ≤ 62 by decide) (show (8 : HashValueType).toNat = 2 ^ 3 from rfl)
  have hk := h.1 5 13 (by decide) (by decide)
  ⟨hk.1, hk.2.1 3 (by decide) (by decide +kernel), (h.2 5 (by decide) (by decide)).2.1⟩

end LockFreeHashMap

end ConcurrencySandbox

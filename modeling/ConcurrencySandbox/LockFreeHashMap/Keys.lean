import Mathlib.Algebra.Group.Nat.Defs
import Mathlib.Data.Nat.Notation
import Mathlib.Tactic.Common

/-!
# Split-ordered keys

The keys the lock-free hash map of `LockFreeDataStructure/HashMap` orders its list by: hash values
with their bits reversed and the two highest masked out before. An ordinary key has its lowest bit
set, so no sentinel has it; and the bit above it is clear, so it is not the key of the last node.
-/

namespace ConcurrencySandbox

namespace LockFreeHashMap

/-- The type `std::hash` gives its values in. -/
abbrev HashValueType := BitVec 64

/-- The loop of `reverse`, with `i` turns left. -/
def reverseLoop : ℕ → HashValueType → HashValueType → HashValueType
  | 0, ans, _ => ans
  | i + 1, ans, value => reverseLoop i (ans <<< 1 ||| (value &&& 1)) (value >>> 1)

def reverse (value : HashValueType) : HashValueType := reverseLoop 64 0 value

def sHiMask : HashValueType := 3 <<< 62

def sMask : HashValueType := ~~~ sHiMask

def makeSentinelKey (value : HashValueType) : HashValueType := reverse (value &&& sMask)

def makeOrdinaryKey (value : HashValueType) : HashValueType := reverse (value &&& sMask) ||| 1

/-- The key of the last node. -/
def maxHashValue : HashValueType := ~~~ 0

/-- The loop of `getParentIndex`, with `n` turns left. -/
def parentLoop : ℕ → HashValueType → HashValueType → HashValueType
  | 0, index, i => index - i
  | n + 1, index, i =>
    let i := i >>> 1
    if index < i then parentLoop n index i else index - i

/-- The shift leaves nothing of `bucketSize` after 64 turns. -/
def getParentIndex (index bucketSize : HashValueType) : HashValueType :=
  parentLoop 64 index bucketSize

theorem getLsbD_one (j : ℕ) : (1 : HashValueType).getLsbD j = decide (j = 0) := by
  show (1#64).getLsbD j = _
  simp [BitVec.getLsbD_one]

theorem getLsbD_reverseLoop (i : ℕ) (ans value : HashValueType) {j : ℕ} (hj : j < 64) :
    (reverseLoop i ans value).getLsbD j =
      if j < i then value.getLsbD (i - 1 - j) else ans.getLsbD (j - i) := by
  induction i generalizing ans value with
  | zero => simp [reverseLoop]
  | succ i ih =>
    rw [reverseLoop, ih]
    rcases Nat.lt_trichotomy j i with h | rfl | h
    · have h1 : j < i + 1 := by omega
      have h2 : 1 + (i - 1 - j) = i + 1 - 1 - j := by omega
      simp [h, h1, h2]
    · simp
    · have h1 : ¬ j < i := by omega
      have h2 : ¬ j < i + 1 := by omega
      have h3 : j - i ≠ 0 := by omega
      have h4 : j - i < 64 := by omega
      have h5 : j - i - 1 = j - (i + 1) := by omega
      have h6 : ¬ j - i < 1 := by omega
      simp only [h1, h2, h3, h4, h5, h6, if_false, BitVec.getLsbD_or, BitVec.getLsbD_shiftLeft,
        BitVec.getLsbD_and, getLsbD_one, decide_true, decide_false, Bool.not_false, Bool.true_and,
        Bool.and_false, Bool.or_false]

/-- The bits in the opposite order. -/
theorem getLsbD_reverse (value : HashValueType) {j : ℕ} (hj : j < 64) :
    (reverse value).getLsbD j = value.getLsbD (63 - j) := by
  rw [reverse, getLsbD_reverseLoop 64 0 value hj, if_pos hj]

theorem getLsbD_masked (value : HashValueType) {j : ℕ} (hj : j < 2) :
    (makeSentinelKey value).getLsbD j = false := by
  have hm : sMask.getLsbD (63 - j) = false := by
    rcases (by omega : j = 0 ∨ j = 1) with rfl | rfl <;> decide
  rw [makeSentinelKey, getLsbD_reverse _ (by omega), BitVec.getLsbD_and, hm, Bool.and_false]

theorem getLsbD_makeOrdinaryKey (value : HashValueType) (j : ℕ) :
    (makeOrdinaryKey value).getLsbD j = ((makeSentinelKey value).getLsbD j || decide (j = 0)) := by
  rw [makeOrdinaryKey, BitVec.getLsbD_or, getLsbD_one]
  rfl

theorem makeSentinelKey_ne (i value : HashValueType) :
    makeSentinelKey i ≠ makeOrdinaryKey value := by
  intro h
  have h0 : (makeSentinelKey i).getLsbD 0 = (makeOrdinaryKey value).getLsbD 0 := by rw [h]
  rw [getLsbD_makeOrdinaryKey, getLsbD_masked i (by decide)] at h0
  simp only [decide_true, Bool.or_true, Bool.false_eq_true] at h0

theorem maxHashValue_ne (value : HashValueType) : maxHashValue ≠ makeOrdinaryKey value := by
  intro h
  have h1 : maxHashValue.getLsbD 1 = (makeOrdinaryKey value).getLsbD 1 := by rw [h]
  rw [getLsbD_makeOrdinaryKey, getLsbD_masked value (by decide)] at h1
  revert h1
  decide

@[simp] theorem makeSentinelKey_zero : makeSentinelKey 0 = 0 := by
  refine BitVec.eq_of_getLsbD_eq fun j hj => ?_
  rw [makeSentinelKey, getLsbD_reverse _ hj]
  simp

theorem getLsbD_makeSentinelKey (value : HashValueType) {j : ℕ} (hj : j < 64) :
    (makeSentinelKey value).getLsbD j = (value.getLsbD (63 - j) && decide (2 ≤ j)) := by
  rcases Nat.lt_or_ge j 2 with h | h
  · rw [getLsbD_masked value h]
    simp [Nat.not_le.2 h]
  · have hm : ∀ i < 62, sMask.getLsbD i = true := by decide
    rw [makeSentinelKey, getLsbD_reverse _ hj, BitVec.getLsbD_and, hm _ (by omega)]
    simp [h]

theorem le_of_getLsbD {x y : HashValueType} (h : ∀ j, x.getLsbD j = true → y.getLsbD j = true) :
    x ≤ y := by
  have hand : x &&& y = x := BitVec.eq_of_getLsbD_eq fun j _ => by
    rw [BitVec.getLsbD_and]
    cases hx : x.getLsbD j
    · rfl
    · simp [h j hx]
  rw [BitVec.le_def, ← hand, BitVec.toNat_and]
  exact Nat.and_le_right

/-- Fewer bits make a lower key. -/
theorem makeSentinelKey_le {u v : HashValueType}
    (h : ∀ j, u.getLsbD j = true → v.getLsbD j = true) :
    makeSentinelKey u ≤ makeSentinelKey v := by
  refine le_of_getLsbD fun j hj => ?_
  have hlt : j < 64 := BitVec.lt_of_getLsbD hj
  rw [getLsbD_makeSentinelKey _ hlt, Bool.and_eq_true] at hj ⊢
  exact ⟨h _ hj.1, hj.2⟩

/-- Below the masked bits the keys of sentinels are different. -/
theorem makeSentinelKey_inj {u v : HashValueType} (hu : u.toNat < 2 ^ 62) (hv : v.toNat < 2 ^ 62)
    (h : makeSentinelKey u = makeSentinelKey v) : u = v := by
  refine BitVec.eq_of_getLsbD_eq fun j hj => ?_
  rcases Nat.lt_or_ge j 62 with hj' | hj'
  · have hk := congrArg (fun x => x.getLsbD (63 - j)) h
    simp only [getLsbD_makeSentinelKey _ (show 63 - j < 64 by omega)] at hk
    rw [show 63 - (63 - j) = j by omega] at hk
    simpa [show 2 ≤ 63 - j by omega] using hk
  · have hpow : 2 ^ 62 ≤ 2 ^ j := Nat.pow_le_pow_right (by decide) hj'
    rw [BitVec.getLsbD, BitVec.getLsbD, Nat.testBit_lt_two_pow (Nat.lt_of_lt_of_le hu hpow),
      Nat.testBit_lt_two_pow (Nat.lt_of_lt_of_le hv hpow)]

theorem parentLoop_spec (n : ℕ) (index i : HashValueType) {e : ℕ} (he : e ≤ n)
    (hi : i.toNat = 2 ^ e) (h0 : index.toNat ≠ 0) (hlt : index.toNat < 2 ^ e) :
    ∃ m < e, 2 ^ m ≤ index.toNat ∧ index.toNat < 2 ^ (m + 1) ∧
      (parentLoop n index i).toNat = index.toNat - 2 ^ m := by
  induction n generalizing i e with
  | zero =>
    obtain rfl : e = 0 := by omega
    simp at hlt
    omega
  | succ n ih =>
    cases e with
    | zero =>
      simp at hlt
      omega
    | succ e =>
      have hi' : (i >>> 1).toNat = 2 ^ e := by
        rw [BitVec.toNat_ushiftRight, hi, Nat.shiftRight_eq_div_pow, Nat.pow_succ]
        omega
      unfold parentLoop
      simp only []
      split_ifs with hgo
      · rw [BitVec.lt_def, hi'] at hgo
        obtain ⟨m, hm, h⟩ := ih (i >>> 1) (by omega) hi' hgo
        exact ⟨m, by omega, h⟩
      · rw [BitVec.lt_def, hi'] at hgo
        refine ⟨e, by omega, by omega, hlt, ?_⟩
        rw [BitVec.toNat_sub_of_le (by rw [BitVec.le_def, hi']; omega), hi']

/-- The parent has the index without its highest bit. -/
theorem getParentIndex_spec {index bucketSize : HashValueType} {e : ℕ} (he : e ≤ 64)
    (hb : bucketSize.toNat = 2 ^ e) (h0 : index ≠ 0) (hlt : index < bucketSize) :
    ∃ m < e, index.toNat = 2 ^ m + (getParentIndex index bucketSize).toNat ∧
      (getParentIndex index bucketSize).toNat < 2 ^ m := by
  have h0' : index.toNat ≠ 0 := fun h => h0 (BitVec.eq_of_toNat_eq h)
  rw [BitVec.lt_def, hb] at hlt
  obtain ⟨m, hm, h1, h2, h3⟩ := parentLoop_spec 64 index bucketSize he hb h0' hlt
  rw [getParentIndex, h3]
  rw [Nat.pow_succ] at h2
  exact ⟨m, hm, by omega, by omega⟩

/-- A parent's sentinel is in front. -/
theorem makeSentinelKey_parent {index bucketSize : HashValueType} {e : ℕ} (he : e ≤ 62)
    (hb : bucketSize.toNat = 2 ^ e) (h0 : index ≠ 0) (hlt : index < bucketSize) :
    makeSentinelKey (getParentIndex index bucketSize) < makeSentinelKey index := by
  obtain ⟨m, hm, h1, h2⟩ := getParentIndex_spec (by omega) hb h0 hlt
  have hpow : 2 ^ e ≤ 2 ^ 62 := Nat.pow_le_pow_right (by decide) he
  have hidx : index.toNat < 2 ^ 62 := by
    rw [BitVec.lt_def, hb] at hlt
    omega
  have hpos : 0 < 2 ^ m := Nat.pow_pos (by decide)
  refine Std.lt_of_le_of_ne (makeSentinelKey_le fun j hj => ?_) fun h => ?_
  · have hjm : j < m := by
      by_contra hge
      have hmj : 2 ^ m ≤ 2 ^ j := Nat.pow_le_pow_right (by decide) (by omega)
      rw [BitVec.getLsbD, Nat.testBit_lt_two_pow (Nat.lt_of_lt_of_le h2 hmj)] at hj
      cases hj
    rw [BitVec.getLsbD, h1, Nat.testBit_two_pow_add_gt hjm]
    exact hj
  · have := congrArg BitVec.toNat (makeSentinelKey_inj (by omega) hidx h)
    omega

end LockFreeHashMap

end ConcurrencySandbox

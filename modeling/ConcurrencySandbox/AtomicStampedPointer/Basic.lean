import Mathlib.Data.Nat.Notation
import Mathlib.Tactic.Common

/-!
# The words of AtomicStampedPointer

A pointer and a stamp in one word: `zip` puts the stamp above the lower 48 bits of the pointer, and
`unzip` repeats bit 47 upward, which gives back every pointer that AMD64 allows (`unzip_zip`). No
two words hold the same pair (`zip_unzip`).
-/

namespace ConcurrencySandbox

namespace AtomicStampedPointer

/-- The values of a `T*`. -/
abbrev Pointer := BitVec 64

abbrev StampType := BitVec 16

abbrev InternalRep := BitVec 64

def sPointerMask : InternalRep := 0x0000FFFFFFFFFFFF

def zip (pointer : Pointer) (stamp : StampType) : InternalRep :=
  stamp.setWidth 64 <<< 48 ||| (sPointerMask &&& pointer)

def unzip (data : InternalRep) : Pointer × StampType :=
  let stamp := (data >>> 48).setWidth 16
  let tmp := sPointerMask &&& data
  let sign := tmp >>> 47
  let signExtensionMask := (0 - sign) <<< 48
  let pointer := (sPointerMask &&& data) ||| signExtensionMask
  (pointer, stamp)

/-- Bits 63 to 47 are equal. -/
def Canonical (pointer : Pointer) : Prop :=
  ∀ i < 64, 47 ≤ i → pointer.getLsbD i = pointer.getLsbD 47

instance : DecidablePred Canonical := fun pointer =>
  inferInstanceAs (Decidable (∀ i < 64, 47 ≤ i → pointer.getLsbD i = pointer.getLsbD 47))

variable (pointer : Pointer) (stamp : StampType) (data : InternalRep)

theorem getLsbD_sPointerMask (i : ℕ) : sPointerMask.getLsbD i = decide (i < 48) := by
  rw [show sPointerMask = (BitVec.allOnes 48).setWidth 64 from rfl, BitVec.getLsbD_setWidth,
    BitVec.getLsbD_allOnes, ← Bool.decide_and, decide_eq_decide]
  omega

theorem getLsbD_zip {i : ℕ} (hi : i < 64) : (zip pointer stamp).getLsbD i =
    if i < 48 then pointer.getLsbD i else stamp.getLsbD (i - 48) := by
  rw [zip, BitVec.getLsbD_or, BitVec.getLsbD_and, BitVec.getLsbD_shiftLeft, BitVec.getLsbD_setWidth,
    getLsbD_sPointerMask]
  by_cases h : i < 48
  · simp [h]
  · have hsub : i - 48 < 64 := by omega
    simp [h, hi, hsub]

theorem sign_eq : (sPointerMask &&& data) >>> 47 = if data.getLsbD 47 then 1 else 0 := by
  refine BitVec.eq_of_getLsbD_eq fun i _ => ?_
  rw [BitVec.getLsbD_ushiftRight, BitVec.getLsbD_and, getLsbD_sPointerMask]
  rcases Nat.eq_zero_or_pos i with rfl | h
  · cases data.getLsbD 47 <;> rfl
  · rw [decide_eq_false (by omega), Bool.false_and]
    split_ifs
    · simp [Nat.ne_of_gt h]
    · simp

/-- The subtraction makes 64 bits of the sign. -/
theorem getLsbD_zero_sub_sign {i : ℕ} (hi : i < 64) :
    ((0 : InternalRep) - (sPointerMask &&& data) >>> 47).getLsbD i = data.getLsbD 47 := by
  rw [sign_eq]
  cases data.getLsbD 47
  · rw [if_neg Bool.false_ne_true, show (0 : InternalRep) - 0 = 0#64 from rfl, BitVec.getLsbD_zero]
  · rw [if_pos rfl, show (0 : InternalRep) - 1 = BitVec.allOnes 64 from rfl,
      BitVec.getLsbD_allOnes, decide_eq_true hi]

theorem getLsbD_unzip_fst {i : ℕ} (hi : i < 64) :
    (unzip data).1.getLsbD i = data.getLsbD (min i 47) := by
  simp only [unzip]
  rw [BitVec.getLsbD_or, BitVec.getLsbD_and, getLsbD_sPointerMask, BitVec.getLsbD_shiftLeft,
    getLsbD_zero_sub_sign data (by omega)]
  by_cases h : i < 48
  · simp [h, show min i 47 = i by omega]
  · simp [h, hi, show min i 47 = 47 by omega]

theorem getLsbD_unzip_snd {i : ℕ} (hi : i < 16) :
    (unzip data).2.getLsbD i = data.getLsbD (48 + i) := by
  simp [unzip, hi]

theorem canonical_unzip : Canonical (unzip data).1 := by
  intro i hi hi'
  rw [getLsbD_unzip_fst data hi, getLsbD_unzip_fst data (by omega), Nat.min_eq_right hi',
    Nat.min_self]

theorem zip_unzip : zip (unzip data).1 (unzip data).2 = data := by
  refine BitVec.eq_of_getLsbD_eq fun i hi => ?_
  rw [getLsbD_zip _ _ hi]
  split_ifs with h
  · rw [getLsbD_unzip_fst data hi, Nat.min_eq_left (by omega)]
  · rw [getLsbD_unzip_snd data (by omega), show 48 + (i - 48) = i by omega]

variable {pointer}

theorem unzip_zip (h : Canonical pointer) : unzip (zip pointer stamp) = (pointer, stamp) := by
  refine Prod.ext (BitVec.eq_of_getLsbD_eq fun i hi => ?_) (BitVec.eq_of_getLsbD_eq fun i hi => ?_)
  · rw [getLsbD_unzip_fst _ hi, getLsbD_zip _ _ (by omega), if_pos (by omega)]
    rcases Nat.le_total i 47 with hle | hle
    · rw [Nat.min_eq_left hle]
    · rw [Nat.min_eq_right hle, h i hi hle]
  · rw [getLsbD_unzip_snd _ hi, getLsbD_zip _ _ (by omega), if_neg (by omega),
      Nat.add_sub_cancel_left]

end AtomicStampedPointer

end ConcurrencySandbox

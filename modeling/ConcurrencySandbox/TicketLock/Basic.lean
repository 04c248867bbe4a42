import Mathlib.Algebra.Group.Nat.Defs
import Mathlib.Data.Fintype.Card
import ConcurrencySandbox.Interleaving.System

/-!
# TicketLock

`Lock/QueueLock/TicketLock`: the next ticket in the high half of `mData`, the ticket that is served
in the low half, each advanced by an addition to the whole word.
-/

namespace ConcurrencySandbox

open Interleaving

namespace TicketLock

def sNextIncr : BitVec 64 := 1 <<< 32

def sOwnerIncr : BitVec 64 := 1

/-- `owner` and `next`. -/
def unzip (data : BitVec 64) : BitVec 32 × BitVec 32 :=
  ((data &&& 0xFFFFFFFF).setWidth 32, (data >>> 32).setWidth 32)

inductive PC
  | idle
  | spin (next : BitVec 32)
  | held
  deriving DecidableEq

/-- One atomic step: `mData.fetch_add` of `lock`, `mData.load` in its loop, `mData.fetch_add` of
`unlock`. -/
def next (mData : BitVec 64) : PC → BitVec 64 × PC
  | .idle => (mData + sNextIncr,
      if (unzip mData).1 = (unzip mData).2 then .held else .spin (unzip mData).2)
  | .spin next => (mData, if (unzip mData).1 ≠ next then .spin next else .held)
  | .held => (mData + sOwnerIncr, .idle)

variable (τ : Type*)

def program : Program τ (BitVec 64) PC Unit := ⟨fun _ _ mData pc => some (next mData pc)⟩

/-- Threads that lock and unlock any number of times. -/
def system [DecidableEq τ] : System (Conf τ (BitVec 64) PC) (τ × Unit) :=
  (program τ).system (fun mData => mData = 0) .idle

theorem unzip_fst (data : BitVec 64) : (unzip data).1.toNat = data.toNat % 2 ^ 32 := by
  rw [unzip, BitVec.toNat_setWidth, BitVec.toNat_and,
    show (0xFFFFFFFF : BitVec 64).toNat = 2 ^ 32 - 1 from rfl, Nat.and_two_pow_sub_one_eq_mod,
    Nat.mod_mod]

theorem unzip_snd (data : BitVec 64) : (unzip data).2.toNat = data.toNat / 2 ^ 32 := by
  have := data.isLt
  rw [unzip, BitVec.toNat_setWidth, BitVec.toNat_ushiftRight, Nat.shiftRight_eq_div_pow]
  omega

/-- `lock` takes a ticket; the high half wraps around by itself. -/
theorem unzip_lock (data : BitVec 64) :
    unzip (data + sNextIncr) = ((unzip data).1, (unzip data).2 + 1) := by
  have := data.isLt
  have hincr : sNextIncr.toNat = 2 ^ 32 := rfl
  refine Prod.ext (BitVec.eq_of_toNat_eq ?_) (BitVec.eq_of_toNat_eq ?_)
  · rw [unzip_fst, unzip_fst, BitVec.toNat_add, hincr]
    omega
  · rw [unzip_snd, BitVec.toNat_add, BitVec.toNat_add, unzip_snd, hincr,
      show (1 : BitVec 32).toNat = 1 from rfl]
    omega

/-- `unlock` advances the low half, and the high half with it when the low one wraps around. -/
theorem unzip_unlock (data : BitVec 64) : unzip (data + sOwnerIncr) = ((unzip data).1 + 1,
    if (unzip data).1 = 0xFFFFFFFF then (unzip data).2 + 1 else (unzip data).2) := by
  have := data.isLt
  have hincr : sOwnerIncr.toNat = 1 := rfl
  have hmax : (unzip data).1 = 0xFFFFFFFF ↔ data.toNat % 2 ^ 32 = 2 ^ 32 - 1 := by
    rw [← BitVec.toNat_inj, unzip_fst]
    exact Iff.rfl
  refine Prod.ext (BitVec.eq_of_toNat_eq ?_) (BitVec.eq_of_toNat_eq ?_)
  · rw [unzip_fst, BitVec.toNat_add, BitVec.toNat_add, unzip_fst, hincr,
      show (1 : BitVec 32).toNat = 1 from rfl]
    omega
  · rw [unzip_snd, BitVec.toNat_add, hincr]
    simp only [hmax]
    split_ifs with h
    · rw [BitVec.toNat_add, unzip_snd, show (1 : BitVec 32).toNat = 1 from rfl]
      omega
    · rw [unzip_snd]
      omega

end TicketLock

end ConcurrencySandbox

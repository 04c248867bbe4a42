import ConcurrencySandbox.AtomicStampedPointer.Basic
import ConcurrencySandbox.Structures.Cell
import ConcurrencySandbox.Structures.Histories

/-!
# AtomicStampedPointer is a cell of pairs

A call makes one access to `mData`; what it does before and after is its own. So calls, of one
thread or of many, follow each other in the order of these accesses, and their results are those of
a cell that holds the pointer and the stamp (`atomic_cell`).
-/

namespace ConcurrencySandbox

open Structures

namespace AtomicStampedPointer

/-- What `mData` is after `store`, and after the constructor. -/
def store (desired : Pointer) (stamp : StampType) : InternalRep := zip desired stamp

def load (mData : InternalRep) : Pointer × StampType := unzip mData

def exchange (desired : Pointer) (stamp : StampType) (mData : InternalRep) :
    (Pointer × StampType) × InternalRep := (unzip mData, zip desired stamp)

/-- The answer, `expected_pointer` and `expected_stamp`, and `mData`. -/
def compareExchangeStrong (expectedPointer desiredPointer : Pointer)
    (expectedStamp desiredStamp : StampType) (mData : InternalRep) :
    Bool × (Pointer × StampType) × InternalRep :=
  let expected := zip expectedPointer expectedStamp
  let (ans, expected, mData) :=
    Cell.compareExchange expected (zip desiredPointer desiredStamp) mData
  if !ans then (ans, unzip expected, mData) else (ans, (expectedPointer, expectedStamp), mData)

def call : Cell.Op (Pointer × StampType) → InternalRep →
    Cell.Result (Pointer × StampType) × InternalRep
  | .store (desired, stamp), _ => (.stored, store desired stamp)
  | .load, mData => (.value (load mData), mData)
  | .exchange (desired, stamp), mData =>
    let (value, mData) := exchange desired stamp mData
    (.value value, mData)
  | .compareExchange (expectedPointer, expectedStamp) (desiredPointer, desiredStamp), mData =>
    let (ans, expected, mData) :=
      compareExchangeStrong expectedPointer desiredPointer expectedStamp desiredStamp mData
    (.compared ans expected, mData)

/-- The pairs in their words. -/
def coding : Cell.Coding (fun c : Pointer × StampType => Canonical c.1) InternalRep where
  enc c := zip c.1 c.2
  dec := unzip
  dec_enc c hc := unzip_zip c.2 hc
  enc_dec := zip_unzip

variable (expectedPointer desiredPointer pointer : Pointer)
  (expectedStamp desiredStamp stamp : StampType) (mData data : InternalRep)

theorem compareExchangeStrong_eq :
    compareExchangeStrong expectedPointer desiredPointer expectedStamp desiredStamp mData =
      if mData = zip expectedPointer expectedStamp
        then (true, (expectedPointer, expectedStamp), zip desiredPointer desiredStamp)
        else (false, unzip mData, mData) := by
  simp only [compareExchangeStrong, Cell.compareExchange]
  by_cases h : mData = zip expectedPointer expectedStamp
  · simp only [if_pos h]
    rfl
  · simp only [if_neg h]
    rfl

theorem call_eq (op : Cell.Op (Pointer × StampType)) : call op mData = coding.spec op mData := by
  cases op with
  | store desired => rfl
  | load => rfl
  | exchange desired => rfl
  | compareExchange expected desired =>
    have henc : coding.enc expected = zip expected.1 expected.2 := rfl
    rw [Cell.Coding.spec_compareExchange, henc]
    simp only [call, compareExchangeStrong_eq]
    split_ifs <;> rfl

theorem atomic_cell (ops : List (Cell.Op (Pointer × StampType))) (hpointer : Canonical pointer)
    (hops : ∀ op ∈ ops, op.All fun c => Canonical c.1) :
    unzip (zip pointer stamp) = (pointer, stamp) ∧ zip (unzip data).1 (unzip data).2 = data ∧
      replay Cell.spec ops (unzip data) =
        ((replay call ops data).1, unzip (replay call ops data).2) := by
  refine ⟨unzip_zip stamp hpointer, zip_unzip data, ?_⟩
  refine replay_map unzip (fun op mData hop => ?_) hops data
  rw [call_eq]
  exact coding.spec_dec hop mData

/-- A pointer to the upper half, and a stamp that is not the expected one. -/
theorem atomic_cell_upper_half :
    unzip (zip 0xFFFF800000000001 7) = (0xFFFF800000000001, 7) ∧
      zip (unzip 0x0007800000000001).1 (unzip 0x0007800000000001).2 = 0x0007800000000001 ∧
      replay Cell.spec [.compareExchange (0xFFFF800000000001, 6) (1, 8), .exchange (1, 8)]
          ((0xFFFF800000000001, 7) : Pointer × StampType) =
        ([.compared false (0xFFFF800000000001, 7), .value (0xFFFF800000000001, 7)], (1, 8)) := by
  obtain ⟨h1, h2, h3⟩ := atomic_cell 0xFFFF800000000001 7 0x0007800000000001
    [.compareExchange (0xFFFF800000000001, 6) (1, 8), .exchange (1, 8)] (by decide) (by decide)
  exact ⟨h1, h2, h3⟩

end AtomicStampedPointer

end ConcurrencySandbox

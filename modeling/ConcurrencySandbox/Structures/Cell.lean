import Mathlib.Data.Nat.Notation
import Mathlib.Tactic.Common

/-!
# Atomic cells

A cell that holds one value, and calls that read it, write it, or both. Where values are kept in
another type (`Coding`), the calls on their codes are those of a cell that holds the values
(`Coding.spec_dec`).
-/

namespace Structures

namespace Cell

variable {A B : Type*}

inductive Op (A : Type*)
  | store (desired : A)
  | load
  | exchange (desired : A)
  | compareExchange (expected desired : A)

/-- The arguments have a property. -/
def Op.All (P : A → Prop) : Op A → Prop
  | .store desired => P desired
  | .load => True
  | .exchange desired => P desired
  | .compareExchange expected desired => P expected ∧ P desired

instance (P : A → Prop) [DecidablePred P] : DecidablePred (Op.All P)
  | .store desired => inferInstanceAs (Decidable (P desired))
  | .load => inferInstanceAs (Decidable True)
  | .exchange desired => inferInstanceAs (Decidable (P desired))
  | .compareExchange expected desired => inferInstanceAs (Decidable (P expected ∧ P desired))

inductive Result (A : Type*)
  | stored
  | value (a : A)
  /-- The answer, and what is in `expected` afterwards. -/
  | compared (ans : Bool) (expected : A)
  deriving DecidableEq

/-- The answer, `expected` and the cell. -/
def compareExchange [DecidableEq A] (expected desired cell : A) : Bool × A × A :=
  if cell = expected then (true, expected, desired) else (false, cell, cell)

/-- What a call on the cell returns, and what the cell holds then. -/
def spec [DecidableEq A] : Op A → A → Result A × A
  | .store desired, _ => (.stored, desired)
  | .load, cell => (.value cell, cell)
  | .exchange desired, cell => (.value cell, desired)
  | .compareExchange expected desired, cell =>
    let (ans, expected, cell) := compareExchange expected desired cell
    (.compared ans expected, cell)

theorem spec_compareExchange [DecidableEq A] (expected desired cell : A) :
    spec (.compareExchange expected desired) cell =
      if cell = expected then (.compared true expected, desired)
        else (.compared false cell, cell) := by
  simp only [spec, compareExchange]
  split_ifs <;> rfl

/-- Every code is that of a value; those of the values with a property give them back. -/
structure Coding (P : A → Prop) (B : Type*) where
  enc : A → B
  dec : B → A
  dec_enc : ∀ a, P a → dec (enc a) = a
  enc_dec : ∀ b, enc (dec b) = b

namespace Coding

variable {P : A → Prop} (c : Coding P B)

theorem eq_enc_iff {a : A} (ha : P a) {b : B} : b = c.enc a ↔ c.dec b = a := by
  constructor
  · rintro rfl
    exact c.dec_enc a ha
  · rintro rfl
    exact (c.enc_dec b).symm

variable [DecidableEq B]

/-- A call on the code: the arguments are encoded, a value that comes back is decoded. -/
def spec : Op A → B → Result A × B
  | .store desired, _ => (.stored, c.enc desired)
  | .load, cell => (.value (c.dec cell), cell)
  | .exchange desired, cell => (.value (c.dec cell), c.enc desired)
  | .compareExchange expected desired, cell =>
    let (ans, b, cell) := Cell.compareExchange (c.enc expected) (c.enc desired) cell
    (.compared ans (if ans then expected else c.dec b), cell)

theorem spec_compareExchange (expected desired : A) (cell : B) :
    c.spec (.compareExchange expected desired) cell =
      if cell = c.enc expected then (.compared true expected, c.enc desired)
        else (.compared false (c.dec cell), cell) := by
  simp only [spec, Cell.compareExchange]
  by_cases h : cell = c.enc expected
  · simp only [if_pos h, if_true]
  · simp only [if_neg h, Bool.false_eq_true, if_false]

/-- A cell of codes is a cell of values. -/
theorem spec_dec [DecidableEq A] {op : Op A} (hop : op.All P) (b : B) :
    Cell.spec op (c.dec b) = ((c.spec op b).1, c.dec (c.spec op b).2) := by
  cases op with
  | store desired => rw [Cell.spec, spec, c.dec_enc desired hop]
  | load => rfl
  | exchange desired => rw [Cell.spec, spec, c.dec_enc desired hop]
  | compareExchange expected desired =>
    have hiff := c.eq_enc_iff (b := b) hop.1
    rw [Cell.spec_compareExchange, spec_compareExchange]
    by_cases h : b = c.enc expected
    · rw [if_pos h, if_pos (hiff.1 h), c.dec_enc desired hop.2]
    · rw [if_neg h, if_neg fun h' => h (hiff.2 h')]

end Coding

end Cell

end Structures

import Mathlib.Data.List.Basic

/-!
# Deques

A deque is a list; `push` and `pop` work at its end, `steal` at its front. A `pop` is told when
there is nothing, a `steal` may fail at any time. `Leaves` says which deque a history leaves.
-/

namespace Structures

namespace Deque

/-- What a call does to a deque, with its answer. -/
inductive Event (T : Type*)
  | push (v : T)
  | pop (ans : Option T)
  | steal (ans : Option T)

variable {T : Type*}

namespace Event

def pushed? : Event T → Option T
  | .push v => some v
  | .pop _ | .steal _ => none

def answer? : Event T → Option (Option T)
  | .push _ => none
  | .pop ans | .steal ans => some ans

end Event

inductive Step : Event T → List T → List T → Prop
  | push (v : T) (l : List T) : Step (.push v) l (l ++ [v])
  | pop (v : T) (l : List T) : Step (.pop (some v)) (l ++ [v]) l
  | empty : Step (.pop none) [] []
  | steal (v : T) (l : List T) : Step (.steal (some v)) (v :: l) l
  | fail (l : List T) : Step (.steal none) l l

/-- The events, one after the other from the empty deque, lead to the deque `l`. -/
inductive Leaves : List (Event T) → List T → Prop
  | nil : Leaves [] []
  | snoc {h : List (Event T)} {e : Event T} {l l' : List T} :
    Leaves h l → Step e l l' → Leaves (h ++ [e]) l'

end Deque

end Structures

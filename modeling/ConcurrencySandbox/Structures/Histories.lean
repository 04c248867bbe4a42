import Mathlib.Data.List.Perm.Subperm

/-!
# Histories

A history is what threads did, in order; `eventsOf` is one thread's part of it. `Replays` compares
the results of calls with those of a sequential object, `replay` computes these. `Stack.Leaves` and
`Queue.Leaves` say which stack or queue a history of pushes and pops leaves: what was popped and
what is left are what was pushed, for a queue in the same order.
-/

namespace Structures

section Threads

variable {τ E : Type*} [DecidableEq τ]

/-- The events of one thread. -/
def eventsOf (t : τ) (h : List (τ × E)) : List E :=
  h.filterMap fun x => if x.1 = t then some x.2 else none

theorem eventsOf_append (t : τ) (h h' : List (τ × E)) :
    eventsOf t (h ++ h') = eventsOf t h ++ eventsOf t h' := List.filterMap_append

@[simp] theorem eventsOf_concat_self (t : τ) (h : List (τ × E)) (e : E) :
    eventsOf t (h ++ [(t, e)]) = eventsOf t h ++ [e] := by
  simp [eventsOf]

theorem eventsOf_concat_of_ne {t u : τ} (hu : u ≠ t) (h : List (τ × E)) (e : E) :
    eventsOf u (h ++ [(t, e)]) = eventsOf u h := by
  simp [eventsOf, hu.symm]

@[simp] theorem eventsOf_map_self (t : τ) (l : List E) : eventsOf t (l.map (t, ·)) = l := by
  simp [eventsOf, List.filterMap_map]

theorem eventsOf_map_of_ne {t u : τ} (hu : u ≠ t) (l : List E) :
    eventsOf u (l.map (t, ·)) = [] := by
  simp [eventsOf, List.filterMap_map, hu.symm]

end Threads

/-- From `s₀`, the calls, one after the other, have these results and lead to a state. -/
inductive Replays {O R S : Type*} (spec : O → S → R × S) (s₀ : S) : List (O × R) → S → Prop
  | nil : Replays spec s₀ [] s₀
  | snoc {h : List (O × R)} {s : S} (op : O) : Replays spec s₀ h s →
    Replays spec s₀ (h ++ [(op, (spec op s).1)]) (spec op s).2

section Replay

variable {O R S S' : Type*} {spec : O → S → R × S} {spec' : O → S' → R × S'}

/-- The results of calls, one after the other, and the state they lead to. -/
def replay (spec : O → S → R × S) : List O → S → List R × S
  | [], s => ([], s)
  | op :: ops, s =>
    let (r, s) := spec op s
    let (rs, s) := replay spec ops s
    (r :: rs, s)

/-- Where the calls of one object are those of another on `f` of its state, so are sequences of
them. -/
theorem replay_map {P : O → Prop} (f : S → S')
    (hf : ∀ op s, P op → spec' op (f s) = ((spec op s).1, f (spec op s).2)) {ops : List O}
    (hops : ∀ op ∈ ops, P op) (s : S) :
    replay spec' ops (f s) = ((replay spec ops s).1, f (replay spec ops s).2) := by
  induction ops generalizing s with
  | nil => rfl
  | cons op ops ih =>
    have hop := hf op s (hops op List.mem_cons_self)
    have htail := ih (fun op h => hops op (List.mem_cons_of_mem _ h)) (spec op s).2
    simp only [replay, hop, htail]

end Replay

/-- What a call does to a stack or a queue. -/
inductive Event (T : Type*)
  | push (v : T)
  | pop (v : T)
  deriving DecidableEq

namespace Event

variable {T : Type*}

def pushed? : Event T → Option T
  | .push v => some v
  | .pop _ => none

def popped? : Event T → Option T
  | .push _ => none
  | .pop v => some v

@[simp] theorem pushed?_push (v : T) : (push v).pushed? = some v := rfl

@[simp] theorem pushed?_pop (v : T) : (pop v).pushed? = none := rfl

@[simp] theorem popped?_push (v : T) : (push v).popped? = none := rfl

@[simp] theorem popped?_pop (v : T) : (pop v).popped? = some v := rfl

end Event

namespace Stack

variable {T : Type*}

/-- The events, one after the other from the empty stack, lead to the stack `l`. -/
inductive Leaves : List (Event T) → List T → Prop
  | nil : Leaves [] []
  | push {h : List (Event T)} {l : List T} (v : T) : Leaves h l → Leaves (h ++ [.push v]) (v :: l)
  | pop {h : List (Event T)} {l : List T} {v : T} : Leaves h (v :: l) → Leaves (h ++ [.pop v]) l

variable {h : List (Event T)} {l : List T}

theorem Leaves.perm (hl : Leaves h l) :
    (h.filterMap Event.popped? ++ l).Perm (h.filterMap Event.pushed?) := by
  induction hl with
  | nil => exact .nil
  | @push h l v _ ih =>
    simp only [List.filterMap_append, List.filterMap_cons, List.filterMap_nil, Event.popped?_push,
      Event.pushed?_push, List.append_nil]
    exact List.perm_middle.trans ((ih.cons v).trans (List.perm_append_singleton v _).symm)
  | @pop h l v _ ih =>
    simp only [List.filterMap_append, List.filterMap_cons, List.filterMap_nil, Event.popped?_pop,
      Event.pushed?_pop, List.append_nil, List.append_assoc, List.singleton_append]
    exact ih

end Stack

namespace Queue

variable {T : Type*}

/-- The events, one after the other from the empty queue, lead to the queue `l`. -/
inductive Leaves : List (Event T) → List T → Prop
  | nil : Leaves [] []
  | push {h : List (Event T)} {l : List T} (v : T) :
    Leaves h l → Leaves (h ++ [.push v]) (l ++ [v])
  | pop {h : List (Event T)} {l : List T} {v : T} : Leaves h (v :: l) → Leaves (h ++ [.pop v]) l

theorem Leaves.eq {h : List (Event T)} {l : List T} (hl : Leaves h l) :
    h.filterMap Event.popped? ++ l = h.filterMap Event.pushed? := by
  induction hl with
  | nil => rfl
  | @push h l v _ ih => simp [← ih]
  | @pop h l v _ ih => simpa [List.filterMap_cons] using ih

end Queue

end Structures

import ConcurrencySandbox.Interleaving.System

/-!
# Locks

`Held hold l f`: the lock `l` is held by exactly the threads whose program counter is inside its
section. `LockStep` is all a step of one thread can do to a lock and to its own place: nothing,
take it while it is free, or leave the section and free it.
-/

namespace Interleaving

variable {τ pc : Type*}

/-- The holder of the lock `l` is the one thread inside its section. -/
def Held (hold : pc → Bool) (l : Option τ) (f : τ → pc) : Prop :=
  ∀ t, hold (f t) = true ↔ l = some t

/-- A step of thread `t`, by whether it is inside the section and who holds the lock, before and
after. -/
inductive LockStep (t : τ) : Bool → Option τ → Bool → Option τ → Prop
  | keep (b : Bool) (l : Option τ) : LockStep t b l b l
  | acquire {l : Option τ} (h : l = none) : LockStep t false l true (some t)
  | release (l : Option τ) : LockStep t true l false none

namespace Held

variable {hold : pc → Bool} {l l' : Option τ} {f : τ → pc} {t u : τ} {p' : pc}

theorem init {p : pc} (h : hold p = false) : Held hold (none : Option τ) fun _ => p :=
  fun _ => by simp [h]

/-- Two threads inside one section are the same thread. -/
theorem eq (h : Held hold l f) (ht : hold (f t) = true) (hu : hold (f u) = true) : t = u :=
  Option.some.inj (((h t).1 ht).symm.trans ((h u).1 hu))

theorem step [DecidableEq τ] (h : Held hold l f)
    (hs : LockStep t (hold (f t)) l (hold p') l') : Held hold l' (Function.update f t p') := by
  have ht := h t
  generalize hb : hold (f t) = b at hs ht
  generalize hb' : hold p' = b' at hs
  refine Program.forall_update (L := fun u p => hold p = true ↔ l' = some u) ?_ fun u hu => ?_
  · cases hs <;> simp_all
  · have hu' := h u
    cases hs <;> simp_all [Ne.symm hu]

end Held

end Interleaving

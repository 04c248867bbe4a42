import Mathlib.Data.Finset.Insert
import Mathlib.Data.Finset.Erase
import ConcurrencySandbox.Interleaving.System

/-!
# Monitors

A `Monitor` is a mutex with a condition variable: who holds the lock, and who sleeps on the
condition and has not been notified. `Monitor.Step` is all a step of one thread can do to it. A
thread's `Role` says whether it is inside the critical section or in `wait`; `Monitor.Valid` ties
the roles to the state. `Monitor.Awake` is the rule against lost wakeups: who makes a predicate true
is about to notify the others.
-/

namespace Interleaving

variable {τ pc : Type*}

/-- `sleepers` are the threads in `wait` that nobody has notified. -/
structure Monitor (τ : Type*) where
  lock : Option τ
  sleepers : Finset τ

/-- A thread in `wait`, asleep or notified, has given up the lock and is to take it again. -/
inductive Role
  | away
  | inside
  | waiting
  deriving DecidableEq

namespace Monitor

def free : Monitor τ := ⟨none, ∅⟩

def acquire (t : τ) (m : Monitor τ) : Option (Monitor τ) :=
  if m.lock = none then some { m with lock := some t } else none

def release (m : Monitor τ) : Monitor τ := { m with lock := none }

def notifyAll (m : Monitor τ) : Monitor τ := { m with sleepers := ∅ }

/-- The holder is the one thread inside, and the sleepers are in `wait`. -/
structure Valid (role : pc → Role) (m : Monitor τ) (f : τ → pc) : Prop where
  inside : ∀ t, role (f t) = .inside ↔ m.lock = some t
  sleepers : ∀ t ∈ m.sleepers, role (f t) = .waiting

variable {role : pc → Role} {m m' : Monitor τ} {f : τ → pc} {t u : τ} {p' : pc}

theorem acquire_eq_some : m.acquire t = some m' ↔
    m.lock = none ∧ m' = { m with lock := some t } := by
  unfold acquire
  split_ifs with h <;> simp [h, eq_comm]

theorem Valid.init {p : pc} (h : role p = .away) : Valid role (free : Monitor τ) fun _ => p :=
  ⟨fun _ => by simp [h, free], by simp [free]⟩

/-- Two threads inside are the same thread. -/
theorem Valid.eq (h : Valid role m f) (ht : role (f t) = .inside) (hu : role (f u) = .inside) :
    t = u :=
  Option.some.inj (((h.inside t).1 ht).symm.trans ((h.inside u).1 hu))

theorem Valid.not_inside (h : Valid role m f) (hl : m.lock = none) : role (f t) ≠ .inside :=
  fun ht => by
    rw [(h.inside t).1 ht] at hl
    cases hl

variable [DecidableEq τ]

/-- Give up the lock and sleep, in one step. -/
def wait (t : τ) (m : Monitor τ) : Monitor τ := ⟨none, insert t m.sleepers⟩

/-- The end of `wait`: a thread that was notified takes the lock again. -/
def resume (t : τ) (m : Monitor τ) : Option (Monitor τ) :=
  if t ∈ m.sleepers then none else m.acquire t

/-- A spurious wakeup. -/
def wake (t : τ) (m : Monitor τ) : Monitor τ := { m with sleepers := m.sleepers.erase t }

/-- A step of thread `t`, by its role before and after. -/
inductive Step (t : τ) : Role → Monitor τ → Role → Monitor τ → Prop
  | keep (r : Role) (m : Monitor τ) : Step t r m r m
  | acquire {m m' : Monitor τ} (h : m.acquire t = some m') : Step t .away m .inside m'
  | release (m : Monitor τ) : Step t .inside m .away m.release
  | wait (m : Monitor τ) : Step t .inside m .waiting (m.wait t)
  | resume {m m' : Monitor τ} (h : m.resume t = some m') : Step t .waiting m .inside m'
  | wake (m : Monitor τ) : Step t .waiting m .waiting (m.wake t)
  | notifyAll (m : Monitor τ) : Step t .inside m .inside m.notifyAll

theorem resume_eq_some : m.resume t = some m' ↔
    t ∉ m.sleepers ∧ m.lock = none ∧ m' = { m with lock := some t } := by
  unfold resume
  split_ifs with h
  · simp [h]
  · simp [h, acquire_eq_some]

/-- No thread falls asleep but the one that waits. -/
theorem Step.sleepers_subset {r r' : Role} (h : Step t r m r' m') :
    ∀ u ∈ m'.sleepers, u ≠ t → u ∈ m.sleepers := by
  intro u hu hut
  cases h with
  | keep | release => exact hu
  | acquire h =>
    obtain ⟨-, rfl⟩ := acquire_eq_some.1 h
    exact hu
  | resume h =>
    obtain ⟨-, -, rfl⟩ := resume_eq_some.1 h
    exact hu
  | wait => exact (Finset.mem_insert.1 hu).resolve_left hut
  | wake => exact Finset.mem_of_mem_erase hu
  | notifyAll => cases hu

theorem Valid.step (h : Valid role m f) (hs : Step t (role (f t)) m (role p') m') :
    Valid role m' (Function.update f t p') := by
  have hin := h.inside
  have hsl := h.sleepers
  have hsub := hs.sleepers_subset
  have ht := h.inside t
  have hst := h.sleepers t
  refine ⟨Program.forall_update (L := fun u p => role p = .inside ↔ m'.lock = some u) ?_
    fun u hu => ?_,
    fun u hu => ?_⟩
  · generalize role (f t) = r at hs ht
    generalize role p' = r' at hs
    cases hs with
    | keep => exact ht
    | acquire h => simp [(acquire_eq_some.1 h).2]
    | resume h => simp [(resume_eq_some.1 h).2.2]
    | release | wait | wake => simp_all [release, wait, wake]
    | notifyAll => exact ht
  · rw [hin u]
    generalize role (f t) = r at hs ht
    generalize role p' = r' at hs
    have hne : t ≠ u := hu.symm
    cases hs with
    | keep | wake | notifyAll => rfl
    | acquire h =>
      obtain ⟨hl, rfl⟩ := acquire_eq_some.1 h
      simp [hl, hne]
    | resume h =>
      obtain ⟨-, hl, rfl⟩ := resume_eq_some.1 h
      simp [hl, hne]
    | release | wait => simp [release, wait, ht.1 rfl, hne]
  · by_cases hut : u = t
    · subst hut
      rw [Function.update_self]
      generalize role (f u) = r at hs hst
      generalize role p' = r' at hs
      cases hs with
      | keep => exact hst hu
      | acquire h =>
        obtain ⟨-, rfl⟩ := acquire_eq_some.1 h
        cases hst hu
      | release => cases hst hu
      | wait | wake => rfl
      | resume h =>
        obtain ⟨hns, -, rfl⟩ := resume_eq_some.1 h
        exact absurd hu hns
      | notifyAll => cases hu
    · rw [Function.update_of_ne hut]
      exact hsl u (hsub u hu hut)

/-- Every sleeper waits for something that does not hold, or a thread is about to notify them. -/
def Awake (notifying : pc → Bool) (blocked : pc → Prop) (m : Monitor τ) (f : τ → pc) : Prop :=
  (∃ u, notifying (f u) = true) ∨ ∀ u ∈ m.sleepers, blocked (f u)

variable {notifying : pc → Bool} {blocked blocked' : pc → Prop} {r r' : Role}

/-- A thread that is to notify goes on to do so, and who lets another's predicate come true is to
notify. -/
theorem Awake.step (h : Awake notifying blocked m f) (hs : Step t r m r' m')
    (hn : notifying (f t) = true → notifying p' = true ∨ m'.sleepers = ∅)
    (ht : t ∈ m'.sleepers → blocked' p')
    (hb : notifying p' = true ∨ ∀ u ∈ m.sleepers, u ≠ t → blocked (f u) → blocked' (f u)) :
    Awake notifying blocked' m' (Function.update f t p') := by
  by_cases hp : notifying p' = true
  · exact .inl ⟨t, by rwa [Function.update_self]⟩
  have hb := hb.resolve_left hp
  have hn := fun hf => (hn hf).resolve_left hp
  rcases h with ⟨u, hu⟩ | hall
  · by_cases hut : u = t
    · right
      intro v hv
      rw [hn (hut ▸ hu)] at hv
      cases hv
    · exact .inl ⟨u, by rwa [Function.update_of_ne hut]⟩
  · right
    intro u hu
    by_cases hut : u = t
    · subst hut
      rw [Function.update_self]
      exact ht hu
    · rw [Function.update_of_ne hut]
      have hold := hs.sleepers_subset u hu hut
      exact hb u hold hut (hall u hold)

omit [DecidableEq τ] in
/-- With the lock free, no sleeper's predicate is true. -/
theorem Awake.sleepers_blocked (h : Awake notifying blocked m f) (hv : Valid role m f)
    (hn : ∀ p, notifying p = true → role p = .inside) (hl : m.lock = none) :
    ∀ u ∈ m.sleepers, blocked (f u) :=
  h.resolve_left fun ⟨_, hu⟩ => hv.not_inside hl (hn _ hu)

end Monitor

end Interleaving

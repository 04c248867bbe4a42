import Mathlib.Data.List.Perm.Basic
import ConcurrencySandbox.HazardPointer.Refinement
import ConcurrencySandbox.LockFreeLocalWorkQueue.Basic
import ConcurrencySandbox.Structures.Window

/-!
# The tasks in the queue

The tasks that can still be taken are the window of the current array from `mTop` on. It ends at the
bottom, which is `mBottom` except inside a `pop`: a `pop` that sees more than one task owns the last
one from its load of `mTop` on, and one that sees a single task leaves the bottom where it was until
it stores it again.

A thief holds an old top. While `mTop` is still that, the cell of any array that was ever current
since then is the current array's: the owner writes behind the bottom only, and less than a capacity
from the top.
-/

namespace ConcurrencySandbox

open Interleaving Structures HazardPointer

namespace LockFreeLocalWorkQueue

variable {τ C P T : Type*}

theorem toSize_natCast {k : ℕ} (h : k < 2 ^ 63) : toSize k = k := by
  unfold toSize
  omega

namespace CircularArray

variable {r : CircularArray P} {i j : ℕ} {p : Option P}

@[simp] theorem capacity_new (n : ℕ) : (new n : CircularArray P).capacity = n := by
  simp [capacity, new]

@[simp] theorem capacity_put : (r.put i p).capacity = r.capacity := by
  simp [capacity, put]

theorem get_put_self (h : 0 < r.capacity) : (r.put i p).get i = p := by
  have hi : i % r.mTasks.length < r.mTasks.length := Nat.mod_lt _ h
  simp [get, put, List.getD, hi]

theorem get_put_ne (h : i % r.capacity ≠ j % r.capacity) : (r.put i p).get j = r.get j := by
  unfold capacity at h
  simp [get, put, List.getD, List.getElem?_set_ne h]

end CircularArray

def Shared.cell (s : Shared τ C P T) (a : C) (i : ℕ) : Option P := (s.arrays a).get i

def Shared.capacity (s : Shared τ C P T) (a : C) : ℕ := (s.arrays a).capacity

/-- What the proof keeps track of beside the state: the hazard slots, the arrays that were current
and not freed since, the top and the task pointers from there on, which thread has a pointer to
itself, and the tasks taken and not returned yet. -/
structure Ghost (τ C P T : Type*) where
  hazards : Hazards (τ × ℕ) C
  published : Set C
  top : ℕ
  items : List P
  owner : P → Option τ
  held : List (τ × T)

def Ghost.bottom (g : Ghost τ C P T) : ℕ := g.top + g.items.length

/-- The thread holds no task. -/
def Ghost.Free (g : Ghost τ C P T) (t : τ) : Prop := t ∉ g.held.map Prod.fst

structure Shape (g : Ghost τ C P T) (s : Shared τ C P T) : Prop where
  top : s.mTop = g.top
  window : Window (s.cell s.mTasks) g.top g.items
  within : -1 ≤ s.mBottom ∧ s.mBottom ≤ g.bottom
  capacity : g.items.length < s.capacity s.mTasks
  bottom : g.bottom ≤ s.pushed.length
  few : s.pushed.length < 2 ^ 63
  nodup : g.items.Nodup
  queued : ∀ p ∈ g.items, g.owner p = none
  alive : ∀ p, g.owner p ≠ none → s.tasks p ≠ none
  keys : (g.held.map Prod.fst).Nodup
  account : ∃ stored, g.items.map s.tasks = stored.map some ∧
    (s.returned ++ g.held.map Prod.snd ++ stored).Perm s.pushed
  current : s.mTasks ∈ g.published ∧ s.mTasks ∉ g.hazards.retired
  retired : ∀ a ∈ g.hazards.retired, a ∈ g.published
  allocated : ∀ a ∈ g.published, s.allocated a = true

/-- An old top. -/
def Ahead (g : Ghost τ C P T) (k : ℕ) : Prop := k ≤ g.top ∧ (k = g.top → g.items ≠ [])

/-- An array that was current and that the thread's slot keeps from being freed. -/
def Claimed (g : Ghost τ C P T) (t : τ) (a : C) : Prop :=
  a ∈ g.published ∧ g.hazards.Guarded (t, 0) a

/-- The thread has the task pointer to itself. -/
def Owns (g : Ghost τ C P T) (s : Shared τ C P T) (t : τ) (p : P) (task : T) : Prop :=
  g.owner p = some t ∧ s.tasks p = some task

def Holds (g : Ghost τ C P T) (s : Shared τ C P T) (t : τ) (p : Option P) : Prop :=
  ∃ q task, p = some q ∧ Owns g s t q task ∧ (t, task) ∈ g.held

def Keeps (g : Ghost τ C P T) (t : τ) : Option T → Prop
  | some task => (t, task) ∈ g.held
  | none => g.Free t

/-- The owner is not inside a `pop`. -/
def Settled (g : Ghost τ C P T) (s : Shared τ C P T) : Prop := s.mBottom = g.bottom

def Pushing (o t : τ) (g : Ghost τ C P T) (s : Shared τ C P T) (b : ℤ) : Prop :=
  t = o ∧ g.Free t ∧ Settled g s ∧ b = g.bottom ∧ s.pushed.length + 1 < 2 ^ 63

/-- One more task fits. -/
def Room (g : Ghost τ C P T) (s : Shared τ C P T) : Prop :=
  g.items.length + 1 < s.capacity s.mTasks

/-- What a call has before it claims the current array, with the cell it will load. -/
def Claiming (o t : τ) (g : Ghost τ C P T) (s : Shared τ C P T) : Claim → Prop
  | .pop newBottom oldTop => t = o ∧ ∃ k : ℕ, newBottom = k ∧
      if 0 < newBottom - oldTop then
        Settled g s ∧ g.bottom = k ∧ Holds g s t (s.cell s.mTasks k)
      else g.Free t ∧ g.bottom = k + 1 ∧ oldTop = k ∧ k ≤ g.top
  | .steal oldTop => g.Free t ∧ (t = o → Settled g s) ∧ ∃ k : ℕ, oldTop = k ∧ Ahead g k

def Placed (o t : τ) (g : Ghost τ C P T) (s : Shared τ C P T) : PC τ C P T → Prop
  | .domain _ | .stealTop | .pushed => g.Free t ∧ (t = o → Settled g s)
  -- push
  | .pushBottom _ => Pushing o t g s s.mBottom
  | .pushTop _ b => Pushing o t g s b
  | .pushTasks _ b top => Pushing o t g s b ∧ ∃ k : ℕ, top = k ∧ k ≤ g.top ∧
      g.bottom < k + s.capacity s.mTasks
  | .pushReload _ b top tasks => Pushing o t g s b ∧ tasks = s.mTasks ∧ ∃ k : ℕ, top = k ∧
      k ≤ g.top ∧ g.bottom < k + s.capacity s.mTasks
  | .pushResize _ b top tasks cur => Pushing o t g s b ∧ (tasks = s.mTasks ∧ cur = s.mTasks) ∧
      ∃ k : ℕ, top = k ∧ k ≤ g.top ∧ g.bottom < k + s.capacity s.mTasks
  | .pushCopy _ b tasks cur newTasks i => Pushing o t g s b ∧
      (tasks = s.mTasks ∧ cur = s.mTasks ∧ newTasks ∉ g.published ∧ s.allocated newTasks = true) ∧
      ∃ k : ℕ, k ≤ g.top ∧ k ≤ i ∧ g.bottom + 1 < k + s.capacity newTasks ∧
        ∀ j, k ≤ j → j < i → s.cell newTasks j = s.cell s.mTasks j
  | .pushTasksStore _ b tasks newTasks => Pushing o t g s b ∧
      (tasks = s.mTasks ∧ newTasks ∉ g.published ∧ s.allocated newTasks = true) ∧
      g.items.length + 1 < s.capacity newTasks ∧
        ∀ j, g.top ≤ j → j < g.bottom → s.cell newTasks j = s.cell s.mTasks j
  | .pushRetire _ b tasks newTasks => (Pushing o t g s b ∧ newTasks = s.mTasks ∧ Room g s) ∧
      tasks ∈ g.published ∧ tasks ∉ g.hazards.retired ∧ tasks ≠ s.mTasks
  | .retiring _ _ b tasks | .pushNew _ b tasks =>
    Pushing o t g s b ∧ tasks = s.mTasks ∧ Room g s
  | .pushPut task b tasks p =>
    (Pushing o t g s b ∧ tasks = s.mTasks ∧ Room g s) ∧ Owns g s t p task
  | .pushBottomStore task b p =>
    (Pushing o t g s b ∧ s.cell s.mTasks g.bottom = some p ∧ Room g s) ∧ Owns g s t p task
  -- pop
  | .popBottom => t = o ∧ g.Free t ∧ Settled g s
  | .popBottomStore newBottom => t = o ∧ g.Free t ∧ newBottom + 1 = g.bottom
  | .popTop newBottom => t = o ∧ g.Free t ∧ newBottom + 1 = g.bottom ∧ s.mBottom = newBottom
  | .popEmpty oldTop => t = o ∧ g.Free t ∧ oldTop = g.bottom
  | .popCas oldTop p => t = o ∧ g.Free t ∧ ∃ k : ℕ, oldTop = k ∧ g.bottom = k + 1 ∧ k ≤ g.top ∧
      (g.top = k → p = s.cell s.mTasks k)
  | .popRestore oldTop ans => t = o ∧ Keeps g t ans ∧ oldTop + 1 = g.bottom
  -- steal
  | .stealBottom oldTop => g.Free t ∧ (t = o → Settled g s) ∧ ∃ k : ℕ, oldTop = k ∧ k ≤ g.top
  | .stealCas oldTop p => g.Free t ∧ (t = o → Settled g s) ∧ ∃ k : ℕ, oldTop = k ∧ Ahead g k ∧
      (g.top = k → p = s.cell s.mTasks k)
  -- claimPointer
  | .claimLoad w | .claimStore w _ => Claiming o t g s w
  | .claimCheck w tasks => Claiming o t g s w ∧ g.hazards.pointer (t, 0) = some tasks
  | .get w tasks => Claiming o t g s w ∧ Claimed g t tasks ∧
      ∀ k : ℕ, w.index = k → g.top ≤ k → s.cell tasks k = s.cell s.mTasks k
  | .take p restore => Holds g s t p ∧
      match restore with
      | some oldTop => t = o ∧ oldTop + 1 = g.bottom
      | none => t = o → Settled g s
  | .release ans | .returned ans => Keeps g t ans ∧ (t = o → Settled g s)

/-- What the owner relies on while another thread steps. -/
structure Steady (g g' : Ghost τ C P T) (s s' : Shared τ C P T) : Prop where
  mBottom : s'.mBottom = s.mBottom := by rfl
  mTasks : s'.mTasks = s.mTasks := by rfl
  arrays : s'.arrays = s.arrays := by rfl
  pushed : s'.pushed = s.pushed := by rfl
  bottom : g'.bottom = g.bottom := by rfl
  published : ∀ a ∈ g'.published, a ∈ g.published := by exact fun _ h => h
  retired : ∀ a ∈ g'.hazards.retired, a ∈ g.hazards.retired := by exact fun _ h => h
  allocated : ∀ a ∉ g.published, s'.allocated a = s.allocated a := by exact fun _ _ => rfl

/-- What a step of thread `t` may do: others keep their tasks and pointers, an array stays published
until it is freed, and while the top stays so do the cells there. -/
structure Effect [DecidableEq τ] [DecidableEq C] (o t : τ) (g g' : Ghost τ C P T)
    (s s' : Shared τ C P T) (e : Hazards.Event (τ × ℕ) C) : Prop where
  shape : Shape g' s'
  hazards : g'.hazards = g.hazards.apply e := by rfl
  enabled : g.hazards.Enabled e := by trivial
  store : ∀ x v, e = .store x v → x.1 = t := by nofun
  held : ∀ u, u ≠ t → ∀ x, (u, x) ∈ g'.held ↔ (u, x) ∈ g.held := by exact fun _ _ _ => Iff.rfl
  own : ∀ u, u ≠ t → ∀ p, g.owner p = some u → g'.owner p = some u ∧ s'.tasks p = s.tasks p := by
    exact fun _ _ _ h => ⟨h, rfl⟩
  published : ∀ a ∈ g.published, e ≠ .free a → a ∈ g'.published := by exact fun _ h _ => h
  top : g.top ≤ g'.top := by exact le_rfl
  ahead : ∀ k, Ahead g k → Ahead g' k := by exact fun _ h => h
  cells : ∀ k, ∀ a ∈ g.published, Ahead g k → g'.top = k → s'.cell a k = s.cell a k := by
    exact fun _ _ _ _ _ => rfl
  found : ∀ k, Ahead g k → g'.top = k → s'.cell s'.mTasks k = s.cell s.mTasks k := by
    exact fun _ _ _ => rfl
  steady : t ≠ o → Steady g g' s s'

variable {g g' : Ghost τ C P T} {s s' : Shared τ C P T} {o t u : τ} {a b : C} {p : Option P}
  {q : P} {task : T} {pc pc' : PC τ C P T}

theorem Ghost.free_iff : g.Free t ↔ ∀ x, (t, x) ∉ g.held := by
  simp [Ghost.Free]

theorem Steady.length_le (hS : Steady g g' s s') (ht : g.top ≤ g'.top) :
    g'.items.length ≤ g.items.length := by
  have hb := hS.bottom
  unfold Ghost.bottom at hb
  omega

theorem Steady.cell (hS : Steady g g' s s') (a : C) (k : ℕ) : s'.cell a k = s.cell a k := by
  unfold Shared.cell
  rw [hS.arrays]

theorem Steady.capacity (hS : Steady g g' s s') (a : C) : s'.capacity a = s.capacity a := by
  unfold Shared.capacity
  rw [hS.arrays]

theorem Steady.settled (hS : Steady g g' s s') (h : Settled g s) : Settled g' s' := by
  unfold Settled
  rw [hS.mBottom, hS.bottom]
  exact h

section Others

variable [DecidableEq τ] [DecidableEq C] {e : Hazards.Event (τ × ℕ) C}

theorem Effect.free (hE : Effect o t g g' s s' e) (hu : u ≠ t) (h : g.Free u) : g'.Free u :=
  Ghost.free_iff.2 fun x hx => Ghost.free_iff.1 h x ((hE.held u hu x).1 hx)

theorem Effect.keeps (hE : Effect o t g g' s s' e) (hu : u ≠ t) {ans : Option T}
    (h : Keeps g u ans) : Keeps g' u ans := by
  cases ans with
  | none => exact hE.free hu h
  | some x => exact (hE.held u hu x).2 h

theorem Effect.owns (hE : Effect o t g g' s s' e) (hu : u ≠ t) (h : Owns g s u q task) :
    Owns g' s' u q task := by
  obtain ⟨h1, h2⟩ := hE.own u hu q h.1
  exact ⟨h1, h2.trans h.2⟩

theorem Effect.holds (hE : Effect o t g g' s s' e) (hu : u ≠ t) (h : Holds g s u p) :
    Holds g' s' u p := by
  obtain ⟨q, task, h1, h2, h3⟩ := h
  exact ⟨q, task, h1, hE.owns hu h2, (hE.held u hu _).2 h3⟩

theorem Effect.claimed (hE : Effect o t g g' s s' e) (hu : u ≠ t) (h : Claimed g u a) :
    Claimed g' u a := by
  obtain ⟨hg, hf⟩ := h.2.apply hE.enabled fun v he => absurd (hE.store _ _ he) hu
  exact ⟨hE.published a h.1 hf, hE.hazards ▸ hg⟩

theorem Effect.pointer (hE : Effect o t g g' s s' e) (hu : u ≠ t) {n : Option C}
    (h : g.hazards.pointer (u, 0) = n) : g'.hazards.pointer (u, 0) = n := by
  rw [hE.hazards]
  cases e with
  | store x v =>
    have hne : (u, 0) ≠ x := fun hx => hu (hE.store x v rfl ▸ congrArg Prod.fst hx)
    simpa [Hazards.apply, hne] using h
  | _ => exact h

theorem Effect.settled (hE : Effect o t g g' s s' e) (hu : u ≠ t) (h : u = o → Settled g s) :
    u = o → Settled g' s' :=
  fun huo => (hE.steady fun hto => hu (huo.trans hto.symm)).settled (h huo)

theorem Effect.pushing (hE : Effect o t g g' s s' e) (hu : u ≠ t) {b : ℤ}
    (h : Pushing o u g s b) : Pushing o u g' s' b ∧ Steady g g' s s' := by
  obtain ⟨rfl, h2, h3, h4, h5⟩ := h
  have hS := hE.steady hu.symm
  exact ⟨⟨rfl, hE.free hu h2, hS.settled h3, hS.bottom ▸ h4, hS.pushed ▸ h5⟩, hS⟩

theorem Effect.room (hE : Effect o t g g' s s' e) (hS : Steady g g' s s') (h : Room g s) :
    Room g' s' := by
  have hl := hS.length_le hE.top
  unfold Room at h ⊢
  rw [hS.mTasks, hS.capacity]
  omega

theorem Effect.claiming (hE : Effect o t g g' s s' e) (hu : u ≠ t) {w : Claim}
    (h : Claiming o u g s w) : Claiming o u g' s' w := by
  cases w with
  | pop newBottom oldTop =>
    obtain ⟨rfl, k, hk, h⟩ := h
    have hS := hE.steady hu.symm
    refine ⟨rfl, k, hk, ?_⟩
    split_ifs at h ⊢
    · refine ⟨hS.settled h.1, hS.bottom.trans h.2.1, ?_⟩
      rw [hS.mTasks, hS.cell]
      exact hE.holds hu h.2.2
    · exact ⟨hE.free hu h.1, hS.bottom.trans h.2.1, h.2.2.1, h.2.2.2.trans hE.top⟩
  | steal oldTop =>
    obtain ⟨h1, h2, k, hk, h3⟩ := h
    exact ⟨hE.free hu h1, hE.settled hu h2, k, hk, hE.ahead k h3⟩

/-- While the top is an old top, the current array's cell there is what it was. -/
theorem Effect.seen (hE : Effect o t g g' s s' e) {k : ℕ} (hk : Ahead g k) (ht : g'.top ≤ k) :
    g.top = k ∧ s'.cell s'.mTasks k = s.cell s.mTasks k := by
  have h1 := hE.top
  have h2 := hk.1
  exact ⟨by omega, hE.found k hk (by omega)⟩

/-- Another thread's place survives. -/
theorem Placed.effect (h : Placed o u g s pc) (hE : Effect o t g g' s s' e) (hu : u ≠ t) :
    Placed o u g' s' pc := by
  cases pc with
  | domain _ | stealTop | pushed => exact ⟨hE.free hu h.1, hE.settled hu h.2⟩
  | pushBottom _ =>
    obtain ⟨h1, hS⟩ := hE.pushing hu h
    exact (congrArg (Pushing o u g' s') hS.mBottom).mpr h1
  | pushTop _ _ => exact (hE.pushing hu h).1
  | pushTasks _ _ _ =>
    obtain ⟨h1, k, hk, h2, h3⟩ := h
    obtain ⟨h1, hS⟩ := hE.pushing hu h1
    exact ⟨h1, k, hk, h2.trans hE.top, by rwa [hS.bottom, hS.mTasks, hS.capacity]⟩
  | pushReload _ _ _ _ =>
    obtain ⟨h1, h4, k, hk, h2, h3⟩ := h
    obtain ⟨h1, hS⟩ := hE.pushing hu h1
    exact ⟨h1, hS.mTasks ▸ h4, k, hk, h2.trans hE.top,
      by rwa [hS.bottom, hS.mTasks, hS.capacity]⟩
  | pushResize _ _ _ _ _ =>
    obtain ⟨h1, h4, k, hk, h2, h3⟩ := h
    obtain ⟨h1, hS⟩ := hE.pushing hu h1
    exact ⟨h1, hS.mTasks ▸ h4, k, hk, h2.trans hE.top,
      by rwa [hS.bottom, hS.mTasks, hS.capacity]⟩
  | pushCopy _ _ _ _ newTasks _ =>
    obtain ⟨h1, ⟨h2, h3, h4, h5⟩, k, h6, h7, h8, h9⟩ := h
    obtain ⟨h1, hS⟩ := hE.pushing hu h1
    refine ⟨h1, ⟨hS.mTasks ▸ h2, hS.mTasks ▸ h3, fun hn => h4 (hS.published _ hn),
      (hS.allocated _ h4).trans h5⟩, k, h6.trans hE.top, h7, ?_, fun j h10 h11 => ?_⟩
    · rwa [hS.bottom, hS.capacity]
    · rw [hS.cell, hS.mTasks, hS.cell]
      exact h9 j h10 h11
  | pushTasksStore _ _ _ newTasks =>
    obtain ⟨h1, ⟨h2, h3, h4⟩, h5, h6⟩ := h
    obtain ⟨h1, hS⟩ := hE.pushing hu h1
    have hl := hS.length_le hE.top
    refine ⟨h1, ⟨hS.mTasks ▸ h2, fun hn => h3 (hS.published _ hn), (hS.allocated _ h3).trans h4⟩,
      ?_, fun j h7 h8 => ?_⟩
    · rw [hS.capacity]
      omega
    · rw [hS.cell, hS.mTasks, hS.cell]
      exact h6 j (hE.top.trans h7) (hS.bottom ▸ h8)
  | pushRetire _ _ tasks newTasks =>
    obtain ⟨⟨h1, h2, h3⟩, h4, h5, h6⟩ := h
    obtain ⟨h1, hS⟩ := hE.pushing hu h1
    have hne : e ≠ .free tasks := fun he => by
      have := hE.enabled
      rw [he] at this
      exact h5 this.1
    exact ⟨⟨h1, hS.mTasks ▸ h2, hE.room hS h3⟩, hE.published _ h4 hne,
      fun hr => h5 (hS.retired _ hr), hS.mTasks ▸ h6⟩
  | retiring _ _ _ _ | pushNew _ _ _ =>
    obtain ⟨h1, h2, h3⟩ := h
    obtain ⟨h1, hS⟩ := hE.pushing hu h1
    exact ⟨h1, hS.mTasks ▸ h2, hE.room hS h3⟩
  | pushPut _ _ _ _ =>
    obtain ⟨⟨h1, h2, h3⟩, h4⟩ := h
    obtain ⟨h1, hS⟩ := hE.pushing hu h1
    exact ⟨⟨h1, hS.mTasks ▸ h2, hE.room hS h3⟩, hE.owns hu h4⟩
  | pushBottomStore _ _ _ =>
    obtain ⟨⟨h1, h2, h3⟩, h4⟩ := h
    obtain ⟨h1, hS⟩ := hE.pushing hu h1
    refine ⟨⟨h1, ?_, hE.room hS h3⟩, hE.owns hu h4⟩
    rw [hS.mTasks, hS.cell, hS.bottom]
    exact h2
  | popBottom =>
    obtain ⟨rfl, h1, h2⟩ := h
    exact ⟨rfl, hE.free hu h1, (hE.steady hu.symm).settled h2⟩
  | popBottomStore _ | popEmpty _ =>
    obtain ⟨rfl, h1, h2⟩ := h
    exact ⟨rfl, hE.free hu h1, (hE.steady hu.symm).bottom ▸ h2⟩
  | popTop _ =>
    obtain ⟨rfl, h1, h2, h3⟩ := h
    have hS := hE.steady hu.symm
    exact ⟨rfl, hE.free hu h1, hS.bottom ▸ h2, hS.mBottom.trans h3⟩
  | popCas _ _ =>
    obtain ⟨rfl, h1, k, hk, h2, h3, h4⟩ := h
    have hS := hE.steady hu.symm
    refine ⟨rfl, hE.free hu h1, k, hk, hS.bottom.trans h2, h3.trans hE.top, fun ht => ?_⟩
    have htop := hE.top
    rw [hS.mTasks, hS.cell]
    exact h4 (by omega)
  | popRestore _ _ =>
    obtain ⟨rfl, h1, h2⟩ := h
    exact ⟨rfl, hE.keeps hu h1, (hE.steady hu.symm).bottom ▸ h2⟩
  | stealBottom _ =>
    obtain ⟨h1, h2, k, hk, h3⟩ := h
    exact ⟨hE.free hu h1, hE.settled hu h2, k, hk, h3.trans hE.top⟩
  | stealCas _ _ =>
    obtain ⟨h1, h2, k, hk, h3, h4⟩ := h
    refine ⟨hE.free hu h1, hE.settled hu h2, k, hk, hE.ahead k h3, fun ht => ?_⟩
    obtain ⟨h5, h6⟩ := hE.seen h3 ht.le
    exact (h4 h5).trans h6.symm
  | claimLoad _ | claimStore _ _ => exact hE.claiming hu h
  | claimCheck _ _ => exact ⟨hE.claiming hu h.1, hE.pointer hu h.2⟩
  | get w a =>
    obtain ⟨h1, h2, h3⟩ := h
    refine ⟨hE.claiming hu h1, hE.claimed hu h2, fun k hk ht => ?_⟩
    cases w with
    | pop _ _ =>
      obtain ⟨rfl, -⟩ := h1
      have hS := hE.steady hu.symm
      rw [hS.cell, hS.mTasks, hS.cell]
      exact h3 k hk (hE.top.trans ht)
    | steal oldTop =>
      obtain ⟨-, -, l, hl, h4⟩ := h1
      obtain rfl : l = k := by
        have : oldTop = k := hk
        omega
      obtain ⟨h5, h6⟩ := hE.seen h4 ht
      have htop := hE.top
      rw [h6, hE.cells l a h2.1 h4 (by omega)]
      exact h3 l hk (by omega)
  | take _ restore =>
    refine ⟨hE.holds hu h.1, ?_⟩
    cases restore with
    | none => exact hE.settled hu h.2
    | some oldTop =>
      obtain ⟨rfl, h2⟩ := h.2
      exact ⟨rfl, (hE.steady hu.symm).bottom ▸ h2⟩
  | release _ | returned _ => exact ⟨hE.keeps hu h.1, hE.settled hu h.2⟩

end Others

end LockFreeLocalWorkQueue

end ConcurrencySandbox

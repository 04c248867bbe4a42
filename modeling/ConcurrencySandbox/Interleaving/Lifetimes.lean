import Mathlib.Tactic.Common
import ConcurrencySandbox.Interleaving.Hazards

/-!
# Lifetimes of nodes under hazard slots

A node is made by a thread, linked, removed, retired and freed, and its address may then be that of
a new node. Between the removal and the retirement, as before the link, one thread has it to itself.
A node that a thread found linked while its slot held it is not freed (`Claimed.apply`).
-/

namespace Interleaving

/-- The linked nodes, those removed and not freed since, and the threads that have a node to
themselves. -/
structure Lifetimes (τ A : Type*) where
  hazards : Hazards (τ × ℕ) A
  linked : Set A
  removed : Set A
  owner : A → Option τ

namespace Lifetimes

variable {τ A : Type*}

inductive Event (τ A : Type*)
  | quiet
  | store (t : τ) (i : ℕ) (v : Option A)
  | make (t : τ) (a : A)
  | link (t : τ) (a : A)
  | remove (t : τ) (a : A)
  | retire (t : τ) (a : A)
  | free (a : A)

namespace Event

/-- The thread whose slots or nodes change hands. -/
def thread : Event τ A → Option τ
  | .quiet | .free _ => none
  | .store t .. | .make t _ | .link t _ | .remove t _ | .retire t _ => some t

def hazard : Event τ A → Hazards.Event (τ × ℕ) A
  | .store t i v => .store (t, i) v
  | .retire _ a => .retire a
  | .free a => .free a
  | _ => .skip

def ofHazard (t : τ) : Hazards.Event (τ × ℕ) A → Event τ A
  | .skip => .quiet
  | .store s v => .store s.1 s.2 v
  | .retire a => .retire t a
  | .free a => .free a

/-- What is allocated afterwards. -/
def memory [DecidableEq A] : Event τ A → (A → Bool) → A → Bool
  | .make _ a, m => Function.update m a true
  | .free a, m => Function.update m a false
  | _, m => m

end Event

def Published (n : Lifetimes τ A) (a : A) : Prop := a ∈ n.linked ∨ a ∈ n.removed

/-- A new node of the thread. -/
def Private (n : Lifetimes τ A) (t : τ) (a : A) : Prop := n.owner a = some t ∧ a ∉ n.removed

/-- A removed node the thread is to retire. -/
def Taken (n : Lifetimes τ A) (t : τ) (a : A) : Prop := n.owner a = some t ∧ a ∈ n.removed

/-- A published node that the thread's first slot keeps from being freed. -/
def Claimed (n : Lifetimes τ A) (t : τ) (a : A) : Prop :=
  n.Published a ∧ n.hazards.Guarded (t, 0) a

structure Valid (n : Lifetimes τ A) (allocated : A → Bool) : Prop where
  linked : ∀ a ∈ n.linked, n.owner a = none ∧ a ∉ n.removed
  retired : ∀ a, a ∈ n.hazards.retired ↔ a ∈ n.removed ∧ n.owner a = none
  allocated : ∀ a, n.Published a ∨ n.owner a ≠ none → allocated a = true

def Enabled (n : Lifetimes τ A) (allocated : A → Bool) : Event τ A → Prop
  | .quiet | .store .. => True
  | .make _ a => allocated a = false
  | .link t a => n.Private t a
  | .remove _ a => a ∈ n.linked
  | .retire t a => n.Taken t a
  | .free a => n.hazards.Enabled (.free a)

variable {n : Lifetimes τ A} {allocated : A → Bool} {e : Event τ A} {t u : τ} {a : A}

/-- Nothing that is linked is retired, so a thread that finds linked what its slot holds has claimed
it. -/
theorem Valid.claimed (hn : n.Valid allocated) (hp : n.hazards.pointer (t, 0) = some a)
    (ha : a ∈ n.linked) : n.Claimed t a :=
  ⟨.inl ha, hp, fun h => absurd ((hn.retired a).1 h).1 (hn.linked a ha).2⟩

theorem Valid.not_retired (hn : n.Valid allocated) (ha : n.owner a ≠ none) :
    a ∉ n.hazards.retired := fun h => ha ((hn.retired a).1 h).2

theorem Valid.hazard (hn : n.Valid allocated) (he : n.Enabled allocated e) :
    n.hazards.Enabled e.hazard := by
  cases e with
  | retire t a => exact hn.not_retired (by simp [he.1])
  | free a => exact he
  | _ => trivial

variable [DecidableEq τ] [DecidableEq A]

def apply (n : Lifetimes τ A) : Event τ A → Lifetimes τ A
  | .quiet => n
  | .store t i v => { n with hazards := n.hazards.apply (.store (t, i) v) }
  | .make t a => { n with owner := Function.update n.owner a (some t) }
  | .link _ a => { n with linked := insert a n.linked, owner := Function.update n.owner a none }
  | .remove t a =>
    { n with linked := n.linked \ {a}, removed := insert a n.removed,
             owner := Function.update n.owner a (some t) }
  | .retire _ a =>
    { n with hazards := n.hazards.apply (.retire a), owner := Function.update n.owner a none }
  | .free a => { n with hazards := n.hazards.apply (.free a), removed := n.removed \ {a} }

@[simp] theorem apply_ofHazard_linked (n : Lifetimes τ A) (t : τ) (e : Hazards.Event (τ × ℕ) A) :
    (n.apply (.ofHazard t e)).linked = n.linked := by
  cases e <;> rfl

theorem apply_hazards (n : Lifetimes τ A) (e : Event τ A) :
    (n.apply e).hazards = n.hazards.apply e.hazard := by
  cases e <;> rfl

theorem Valid.apply (hn : n.Valid allocated) (he : n.Enabled allocated e) :
    (n.apply e).Valid (e.memory allocated) := by
  cases e with
  | quiet => exact hn
  | store t i v => exact ⟨hn.linked, hn.retired, hn.allocated⟩
  | make t a =>
    have hal : ∀ b, n.Published b ∨ n.owner b ≠ none → b ≠ a := fun b hb hba => by
      simpa [hba, show allocated a = false from he] using hn.allocated b hb
    refine ⟨fun b hb => ?_, fun b => ?_, fun b hb => ?_⟩
    · simpa [Lifetimes.apply, hal b (.inl (.inl hb))] using hn.linked b hb
    · refine (hn.retired b).trans (and_congr_right fun hb => ?_)
      simp [Lifetimes.apply, hal b (.inl (.inr hb))]
    · by_cases hba : b = a
      · simp [Event.memory, hba]
      · simpa [Event.memory, hba] using hn.allocated b
          (by simpa [Lifetimes.apply, Published, hba] using hb)
  | link t a =>
    obtain ⟨ho, hr⟩ := he
    refine ⟨fun b hb => ?_, fun b => ?_, fun b hb => ?_⟩
    · rcases hb with rfl | hb
      · exact ⟨Function.update_self .., hr⟩
      · have hba : b ≠ a := fun hba => by simpa [hba ▸ ho] using (hn.linked b hb).1
        simpa [Lifetimes.apply, hba] using hn.linked b hb
    · refine (hn.retired b).trans (and_congr_right fun hb => ?_)
      have hba : b ≠ a := fun hba => hr (hba ▸ hb)
      simp [Lifetimes.apply, hba]
    · by_cases hba : b = a
      · exact hn.allocated b (.inr (by simp [hba, ho]))
      · exact hn.allocated b (by simpa [Lifetimes.apply, Published, hba] using hb)
  | remove t a =>
    obtain ⟨ho, hr⟩ := hn.linked a he
    refine ⟨fun b hb => ?_, fun b => ?_, fun b hb => ?_⟩
    · have hba : b ≠ a := hb.2
      simpa [Lifetimes.apply, hba] using hn.linked b hb.1
    · refine (hn.retired b).trans ?_
      by_cases hba : b = a
      · simp [Lifetimes.apply, hba, hr]
      · simp [Lifetimes.apply, hba]
    · by_cases hba : b = a
      · exact hn.allocated b (.inl (.inl (hba ▸ he)))
      · exact hn.allocated b (by simpa [Lifetimes.apply, Published, hba] using hb)
  | retire t a =>
    obtain ⟨ho, hr⟩ := he
    refine ⟨fun b hb => ?_, fun b => ?_, fun b hb => ?_⟩
    · have hba : b ≠ a := fun hba => (hn.linked b hb).2 (hba ▸ hr)
      simpa [Lifetimes.apply, hba] using hn.linked b hb
    · by_cases hba : b = a
      · simp [Lifetimes.apply, Hazards.apply, hba, hr]
      · simpa [Lifetimes.apply, Hazards.apply, hba] using hn.retired b
    · by_cases hba : b = a
      · exact hn.allocated b (.inl (.inr (hba ▸ hr)))
      · exact hn.allocated b (by simpa [Lifetimes.apply, Published, hba] using hb)
  | free a =>
    obtain ⟨hr, ho⟩ := (hn.retired a).1 he.1
    refine ⟨fun b hb => ⟨(hn.linked b hb).1, fun h => (hn.linked b hb).2 h.1⟩,
      fun b => ?_, fun b hb => ?_⟩
    · have := hn.retired b
      simp only [Lifetimes.apply, Hazards.apply, Set.mem_sdiff, Set.mem_singleton_iff]
      tauto
    · have hba : b ≠ a := by
        rintro rfl
        rcases hb with (hb | hb) | hb
        · exact (hn.linked b hb).2 hr
        · exact hb.2 rfl
        · exact hb ho
      refine (Function.update_of_ne hba _ _).trans (hn.allocated b ?_)
      exact hb.imp (Or.imp id fun h => h.1) id

/-- What is published stays so until it is freed. -/
theorem Published.apply (ha : n.Published a) (he : e ≠ .free a) : (n.apply e).Published a := by
  cases e with
  | link t b => exact ha.imp .inr id
  | remove t b =>
    by_cases hab : a = b
    · exact .inr (.inl hab)
    · exact ha.imp (⟨·, hab⟩) .inr
  | free b => exact ha.imp id fun h => ⟨h, fun hab => he (hab ▸ rfl)⟩
  | _ => exact ha

/-- A claimed node is not freed, and stays claimed until the thread stores to its slots. -/
theorem Claimed.apply (ha : n.Claimed u a) (hn : n.Valid allocated) (he : n.Enabled allocated e)
    (hs : ∀ i v, e ≠ .store u i v) : (n.apply e).Claimed u a := by
  obtain ⟨hp, hg⟩ := ha
  have hs' : ∀ v, e.hazard = .store (u, 0) v → v = some a := fun v hv => by
    cases e with
    | store t i w =>
      obtain ⟨rfl, rfl⟩ := Prod.mk.inj (Hazards.Event.store.inj hv).1
      exact absurd rfl (hs 0 w)
    | _ => cases hv
  obtain ⟨hg', hf⟩ := hg.apply (hn.hazard he) hs'
  exact ⟨hp.apply fun h => hf (h ▸ rfl), apply_hazards n e ▸ hg'⟩

theorem pointer_apply (hs : ∀ i v, e ≠ .store u i v) :
    (n.apply e).hazards.pointer (u, 0) = n.hazards.pointer (u, 0) := by
  cases e with
  | store t i v =>
    have hne : (u, 0) ≠ (t, i) := fun h => by
      obtain ⟨rfl, rfl⟩ := Prod.mk.inj h
      exact hs 0 v rfl
    simp [Lifetimes.apply, Hazards.apply, hne]
  | _ => rfl

/-- A thread's own nodes are not touched by what the others do. -/
theorem Valid.own_apply (hn : n.Valid allocated) (he : n.Enabled allocated e)
    (ht : e.thread ≠ some u) (ha : n.owner a = some u) :
    (n.apply e).owner a = some u ∧ (a ∈ (n.apply e).removed ↔ a ∈ n.removed) := by
  have hne : ∀ {b : A}, n.owner b ≠ some u → a ≠ b := fun hb hab => hb (hab ▸ ha)
  cases e with
  | quiet | store t i v => exact ⟨ha, Iff.rfl⟩
  | make t b =>
    have hab : a ≠ b := fun hab => by
      simpa [hab, show allocated b = false from he] using hn.allocated a (.inr (by simp [ha]))
    exact ⟨(Function.update_of_ne hab _ _).trans ha, Iff.rfl⟩
  | link t b =>
    have hab : a ≠ b := hne fun hb => ht (he.1.symm.trans hb)
    exact ⟨(Function.update_of_ne hab _ _).trans ha, Iff.rfl⟩
  | remove t b =>
    have hab : a ≠ b := hne (by simp [(hn.linked b he).1])
    exact ⟨(Function.update_of_ne hab _ _).trans ha, by simp [Lifetimes.apply, hab]⟩
  | retire t b =>
    have hab : a ≠ b := hne fun hb => ht (he.1.symm.trans hb)
    exact ⟨(Function.update_of_ne hab _ _).trans ha, Iff.rfl⟩
  | free b =>
    have hab : a ≠ b := hne (by simp [((hn.retired b).1 he.1).2])
    exact ⟨ha, by simp [Lifetimes.apply, hab]⟩

theorem Private.apply (ha : n.Private u a) (hn : n.Valid allocated) (he : n.Enabled allocated e)
    (ht : e.thread ≠ some u) : (n.apply e).Private u a := by
  obtain ⟨h1, h2⟩ := hn.own_apply he ht ha.1
  exact ⟨h1, h2.not.2 ha.2⟩

theorem Taken.apply (ha : n.Taken u a) (hn : n.Valid allocated) (he : n.Enabled allocated e)
    (ht : e.thread ≠ some u) : (n.apply e).Taken u a := by
  obtain ⟨h1, h2⟩ := hn.own_apply he ht ha.1
  exact ⟨h1, h2.2 ha.2⟩

end Lifetimes

end Interleaving

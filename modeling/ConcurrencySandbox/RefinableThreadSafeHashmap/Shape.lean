import ConcurrencySandbox.HazardPointer.Refinement
import ConcurrencySandbox.RefinableThreadSafeHashmap.Basic

/-!
# Critical sections and the rehash

A critical section holds a mutex of the current array. A rehash first passes over the mutexes of
that array, and a section it has not met holds one it has not passed yet: a thread that locks a
mutex after the pass sees `mRehash`, and one that locks a mutex of an array replaced earlier finds
another array in `mLocks`, for the old one is not freed, so not made again, while its hazard pointer
has it. Behind the pass there is no section, and buckets and locks may be replaced.
-/

namespace ConcurrencySandbox

open Interleaving Structures HazardPointer

namespace RefinableThreadSafeHashmap

variable {τ L K V : Type*}

section Map

variable [DecidableEq K]

/-- What a call returns on a finite map, and the map after it. -/
def Op.spec : Op K V → (K → Option V) → Option V × (K → Option V)
  | .find key, m => (m key, m)
  | .addOrUpdate key val, m => (none, Function.update m key (some val))
  | .remove key, m => (none, Function.update m key none)

/-- The calls have these results, one after the other from the empty map, and lead to the map. -/
inductive Explained : List (Op K V × Option V) → (K → Option V) → Prop
  | nil : Explained [] fun _ => none
  | snoc {history : List (Op K V × Option V)} {m : K → Option V} (op : Op K V)
      (h : Explained history m) : Explained (history ++ [(op, (op.spec m).1)]) (op.spec m).2

end Map

def Holds (s : Shared τ L K V) (t : τ) (a : L) (i : ℕ) : Prop := (s.locks a)[i]? = some (some t)

/-- What the proof keeps track of beside the state: the hazard slots, the arrays that were current
and not freed since, whose the new array is before it is current and the old one until it is
retired, who is inside a rehash, and how many mutexes of the current array it has passed. -/
structure Ghost (τ L : Type*) where
  hazards : Hazards (τ × ℕ) L
  published : Set L
  owner : L → Option τ
  rehash : Option τ
  passed : ℕ

structure Shape [DecidableEq K] (mHasher : K → ℕ) (g : Ghost τ L) (s : Shared τ L K V) : Prop where
  current : s.mLocks ∈ g.published ∧ s.mLocks ∉ g.hazards.retired ∧ g.owner s.mLocks = none
  retired : ∀ a ∈ g.hazards.retired, a ∈ g.published ∧ g.owner a = none
  allocated : ∀ a, a ∈ g.published ∨ g.owner a ≠ none → s.allocated a = true
  flag : s.mRehash = g.rehash.isSome
  quiet : g.rehash = none → g.passed = 0
  length : g.passed < (s.locks s.mLocks).length → (s.locks s.mLocks).length = s.mBuckets.length
  table : Table mHasher s.mBuckets
  explained : Explained s.history (Table.get mHasher s.mBuckets)

/-- An array that was current and that the thread's slot keeps from being freed. -/
def Claimed (g : Ghost τ L) (t : τ) (a : L) : Prop :=
  a ∈ g.published ∧ g.hazards.Guarded (t, 0) a

/-- The thread is in the critical section of mutex `i`. -/
def Critical (g : Ghost τ L) (s : Shared τ L K V) (t : τ) (a : L) (i : ℕ) : Prop :=
  a = s.mLocks ∧ Holds s t a i ∧ g.passed ≤ i

def Rehashing (g : Ghost τ L) (s : Shared τ L K V) (t : τ) (prev : ℕ) (a : L) : Prop :=
  g.rehash = some t ∧ a = s.mLocks ∧ prev = s.mBuckets.length

/-- The rehash has passed all mutexes. -/
def Alone (g : Ghost τ L) (s : Shared τ L K V) (t : τ) (a : L) : Prop :=
  g.rehash = some t ∧ a = s.mLocks ∧ (s.locks s.mLocks).length ≤ g.passed

def Placed [DecidableEq K] (mHasher : K → ℕ) (g : Ghost τ L) (s : Shared τ L K V) (t : τ) :
    PC τ L K V → Prop
  | .acquireCheck _ a => g.hazards.pointer (t, 0) = some a
  | .acquireLock _ a => Claimed g t a
  | .acquireTest op a i =>
    Claimed g t a ∧ Holds s t a i ∧ i = mHasher op.key % (s.locks a).length
  | .acquireRecheck op a i =>
    (Claimed g t a ∧ Holds s t a i ∧ i = mHasher op.key % (s.locks a).length) ∧
      (a = s.mLocks → g.passed ≤ i)
  | .acquireUnlock _ a i => Claimed g t a ∧ Holds s t a i
  | .acquireReturn op a i | .bucketFind op a i =>
    Critical g s t a i ∧ i = mHasher op.key % s.mBuckets.length
  | .bucketApply op a i index it =>
    (Critical g s t a i ∧ i = mHasher op.key % s.mBuckets.length) ∧ index = i ∧
      it = position (s.mBuckets.getD i []) op.key
  | .sizeAdd a i | .sizeSub a i | .unlock a i _ | .rehashSize a i | .rehashUnlock a i _ =>
    Critical g s t a i
  | .rehashTest _ | .rehashReset => g.rehash = some t ∧ g.passed = 0
  | .rehashLoad prev => (g.rehash = some t ∧ g.passed = 0) ∧ prev = s.mBuckets.length
  | .waitLock prev a l => Rehashing g s t prev a ∧ g.passed = l
  | .waitUnlock prev a l => Rehashing g s t prev a ∧ g.passed = l + 1 ∧ Holds s t a l
  | .rehashCopy prev a newBucket n => Alone g s t a ∧ prev = s.mBuckets.length ∧
      Table mHasher newBucket ∧ newBucket.length = 2 * prev ∧
        ∀ x, x ∈ newBucket.flatten ↔ x ∈ s.mBuckets.flatten.take n
  | .rehashSwap m a newBucket => Alone g s t a ∧ Table mHasher newBucket ∧ newBucket.length = m ∧
      ∀ x, x ∈ newBucket.flatten ↔ x ∈ s.mBuckets.flatten
  | .rehashNew m a => Alone g s t a ∧ m = s.mBuckets.length
  | .rehashLocks a b => Alone g s t a ∧ g.owner b = some t ∧ b ∉ g.published ∧
      s.locks b = List.replicate s.mBuckets.length none
  | .rehashDone a => (g.rehash = some t ∧ g.passed = 0) ∧ g.owner a = some t ∧ a ∈ g.published
  | .rehashRetire a => g.owner a = some t ∧ a ∈ g.published
  | _ => True

/-- What a step of thread `t` may do: a mutex stays with its holder, a critical section keeps its
array, its bucket and its distance from the rehash, and a rehash keeps what it has read once it has
passed all mutexes. -/
structure Effect [DecidableEq τ] [DecidableEq L] [DecidableEq K] (mHasher : K → ℕ) (t : τ)
    (g g' : Ghost τ L) (s s' : Shared τ L K V) (e : Hazards.Event (τ × ℕ) L) : Prop where
  shape : Shape mHasher g' s'
  hazards : g'.hazards = g.hazards.apply e := by rfl
  enabled : g.hazards.Enabled e := by trivial
  store : ∀ x v, e = .store x v → x.1 = t := by nofun
  holds : ∀ u, u ≠ t → ∀ a ∈ g.published, ∀ i, Holds s u a i → Holds s' u a i := by
    exact fun _ _ _ _ _ h => h
  size : ∀ a ∈ g.published, (s'.locks a).length = (s.locks a).length := by exact fun _ _ => rfl
  published : ∀ a ∈ g.published, e ≠ .free a → a ∈ g'.published := by exact fun _ h _ => h
  own : ∀ u, u ≠ t → ∀ a, g.owner a = some u → g'.owner a = some u ∧
      (a ∉ g.published → s'.locks a = s.locks a) ∧ (a ∈ g'.published ↔ a ∈ g.published) := by
    exact fun _ _ _ h => ⟨h, fun _ => rfl, Iff.rfl⟩
  locks : s'.mLocks = s.mLocks ∨ s'.mLocks ∉ g.published := by exact .inl rfl
  critical : ∀ u, u ≠ t → ∀ i, Holds s u s.mLocks i → g.passed ≤ i →
      s'.mLocks = s.mLocks ∧ g'.passed ≤ i ∧ s'.mBuckets.length = s.mBuckets.length ∧
        s'.mBuckets[i]? = s.mBuckets[i]? := by
    exact fun _ _ _ _ h => ⟨rfl, h, rfl, rfl⟩
  rehash : ∀ u, u ≠ t → g.rehash = some u → g'.rehash = some u ∧ g'.passed = g.passed ∧
      s'.mLocks = s.mLocks ∧ s'.mBuckets.length = s.mBuckets.length ∧
        ((s.locks s.mLocks).length ≤ g.passed → s'.mBuckets = s.mBuckets) := by
    exact fun _ _ h => ⟨h, rfl, rfl, rfl, fun _ => rfl⟩

variable {g g' : Ghost τ L} {s s' : Shared τ L K V} {t u : τ} {a b : L} {i : ℕ}
  {pc pc' : PC τ L K V} {mHasher : K → ℕ}

section Others

variable [DecidableEq τ] [DecidableEq L] [DecidableEq K] {e : Hazards.Event (τ × ℕ) L}

theorem Effect.claimed (hE : Effect mHasher t g g' s s' e) (hu : u ≠ t) (h : Claimed g u a) :
    Claimed g' u a := by
  obtain ⟨hg, hf⟩ := h.2.apply hE.enabled fun v he => absurd (hE.store _ _ he) hu
  exact ⟨hE.published a h.1 hf, hE.hazards ▸ hg⟩

theorem Effect.pointer (hE : Effect mHasher t g g' s s' e) (hu : u ≠ t) {n : Option L}
    (h : g.hazards.pointer (u, 0) = n) : g'.hazards.pointer (u, 0) = n := by
  rw [hE.hazards]
  cases e with
  | store x v =>
    have hne : (u, 0) ≠ x := fun hx => hu (hE.store x v rfl ▸ congrArg Prod.fst hx)
    simpa [Hazards.apply, hne] using h
  | _ => exact h

theorem Effect.section (hE : Effect mHasher t g g' s s' e) (hG : Shape mHasher g s) (hu : u ≠ t)
    (h : Critical g s u a i) : Critical g' s' u a i ∧ s'.mBuckets.length = s.mBuckets.length ∧
      s'.mBuckets[i]? = s.mBuckets[i]? := by
  obtain ⟨rfl, h1, h2⟩ := h
  obtain ⟨h3, h4, h5⟩ := hE.critical u hu i h1 h2
  exact ⟨⟨h3.symm, hE.holds u hu _ hG.current.1 i h1, h4⟩, h5⟩

theorem Effect.alone (hE : Effect mHasher t g g' s s' e) (hG : Shape mHasher g s) (hu : u ≠ t)
    (h : Alone g s u a) : Alone g' s' u a ∧ s'.mBuckets = s.mBuckets := by
  obtain ⟨h1, rfl, h2⟩ := h
  obtain ⟨h3, h4, h5, -, h6⟩ := hE.rehash u hu h1
  refine ⟨⟨h3, h5.symm, ?_⟩, h6 h2⟩
  rwa [h5, hE.size _ hG.current.1, h4]

/-- Another thread's place survives. -/
theorem Placed.effect (h : Placed mHasher g s u pc) (hE : Effect mHasher t g g' s s' e)
    (hG : Shape mHasher g s) (hu : u ≠ t) : Placed mHasher g' s' u pc := by
  have flag : g.rehash = some u ∧ g.passed = 0 → g'.rehash = some u ∧ g'.passed = 0 := by
    rintro ⟨h1, h2⟩
    obtain ⟨h3, h4, -⟩ := hE.rehash u hu h1
    exact ⟨h3, h4.trans h2⟩
  have rehashing : ∀ {prev a}, Rehashing g s u prev a → Rehashing g' s' u prev a ∧
      g'.passed = g.passed := by
    rintro prev a ⟨h1, h2, h3⟩
    obtain ⟨h4, h5, h6, h7, -⟩ := hE.rehash u hu h1
    exact ⟨⟨h4, h2.trans h6.symm, h3.trans h7.symm⟩, h5⟩
  have own : ∀ {a}, g.owner a = some u ∧ a ∈ g.published →
      g'.owner a = some u ∧ a ∈ g'.published := by
    rintro a ⟨h1, h2⟩
    obtain ⟨h3, -, h4⟩ := hE.own u hu a h1
    exact ⟨h3, h4.2 h2⟩
  have claims : ∀ {a i op}, Claimed g u a ∧ Holds s u a i ∧ i = mHasher op % (s.locks a).length →
      Claimed g' u a ∧ Holds s' u a i ∧ i = mHasher op % (s'.locks a).length := by
    rintro a i op ⟨h1, h2, h3⟩
    exact ⟨hE.claimed hu h1, hE.holds u hu a h1.1 i h2, (hE.size a h1.1).symm ▸ h3⟩
  cases pc with
  | acquireCheck _ _ => exact hE.pointer hu h
  | acquireLock _ _ => exact hE.claimed hu h
  | acquireTest _ _ _ => exact claims h
  | acquireRecheck op a i =>
    refine ⟨claims h.1, fun ha => ?_⟩
    obtain ⟨⟨h1, h2, -⟩, h3⟩ := h
    -- an array that is not current does not become current again
    have hcur : s'.mLocks = s.mLocks := hE.locks.resolve_right fun hn => hn (ha ▸ h1.1)
    have ha' := ha.trans hcur
    exact (hE.critical u hu i (ha' ▸ h2) (h3 ha')).2.1
  | acquireUnlock _ a i => exact ⟨hE.claimed hu h.1, hE.holds u hu a h.1.1 i h.2⟩
  | acquireReturn _ _ _ | bucketFind _ _ _ =>
    obtain ⟨h1, h2, -⟩ := hE.section hG hu h.1
    exact ⟨h1, h2.symm ▸ h.2⟩
  | bucketApply _ _ _ _ _ =>
    obtain ⟨h1, h2, h3⟩ := hE.section hG hu h.1.1
    refine ⟨⟨h1, h2.symm ▸ h.1.2⟩, h.2.1, ?_⟩
    rw [List.getD_eq_getElem?_getD, h3, ← List.getD_eq_getElem?_getD]
    exact h.2.2
  | sizeAdd _ _ | sizeSub _ _ | unlock _ _ _ | rehashSize _ _ | rehashUnlock _ _ _ =>
    exact (hE.section hG hu h).1
  | rehashTest _ | rehashReset => exact flag h
  | rehashLoad _ =>
    obtain ⟨-, -, -, h1, -⟩ := hE.rehash u hu h.1.1
    exact ⟨flag h.1, h.2.trans h1.symm⟩
  | waitLock _ _ _ =>
    obtain ⟨h1, h2⟩ := rehashing h.1
    exact ⟨h1, h2.trans h.2⟩
  | waitUnlock _ _ _ =>
    obtain ⟨h1, h2⟩ := rehashing h.1
    refine ⟨h1, h2.trans h.2.1, hE.holds u hu _ ?_ _ h.2.2⟩
    exact h.1.2.1 ▸ hG.current.1
  | rehashCopy _ _ _ _ | rehashSwap _ _ _ | rehashNew _ _ =>
    obtain ⟨h1, h2⟩ := hE.alone hG hu h.1
    exact ⟨h1, h2.symm ▸ h.2⟩
  | rehashLocks _ b =>
    obtain ⟨h1, h2, h3, h4⟩ := h
    obtain ⟨h1, h5⟩ := hE.alone hG hu h1
    obtain ⟨h6, h7, h8⟩ := hE.own u hu b h2
    exact ⟨h1, h6, h8.not.2 h3, (h7 h3).trans (h5.symm ▸ h4)⟩
  | rehashDone _ => exact ⟨flag h.1, own h.2⟩
  | rehashRetire _ => exact own h
  | _ => trivial

end Others

end RefinableThreadSafeHashmap

end ConcurrencySandbox

import ConcurrencySandbox.Interleaving.Exceptions
import ConcurrencySandbox.RefinableThreadSafeHashmap.Linearizable

/-!
# A rehash that fails

What may throw in `rehash`: the new buckets, the hash function and the copy of a pair, the new
mutexes, and in `retire` the node of the delete list and the vector of `getPointers`. Unwinding
frees what the call has made and changes nothing else; the lock was released when the call began.

So an exception before `mRehash.store(false)` leaves the flag up. Only those of `retire` come later.
-/

namespace ConcurrencySandbox

open Interleaving Structures HazardPointer

namespace RefinableThreadSafeHashmap

variable {τ L K V : Type*}

/-- An allocation, the hash function or a copy in `rehash` throws. -/
def throwRehash (s : Shared τ L K V) : PC τ L K V → Option (Shared τ L K V × PC τ L K V)
  -- the new buckets
  | .waitLock _ oldLocks l =>
    if l < (s.locks oldLocks).length then none else some (s, .domain .ready)
  -- the hash function, the copy of a pair
  | .rehashCopy _ _ _ n => if n < s.mBuckets.flatten.length then some (s, .domain .ready) else none
  -- the new mutexes
  | .rehashNew .. => some (s, .domain .ready)
  -- `retire`
  | .rehashRetire _ | .retiring .loadHead | .retiring (.getPointers ..) => some (s, .domain .ready)
  | _ => none

/-- The call is inside `HazardPointerDomain::retire`. -/
def InRetireCall : PC τ L K V → Prop
  | .rehashRetire _ | .retiring _ => True
  | _ => False

instance : DecidablePred (InRetireCall : PC τ L K V → Prop) := fun p => by
  cases p <;> first | exact isTrue trivial | exact isFalse id

def InRehash : PC τ L K V → Prop
  | .rehashSize .. | .rehashUnlock .. | .rehashExchange _ | .rehashTest _ | .rehashReset
  | .rehashLoad _ | .waitLock .. | .waitUnlock .. | .rehashCopy .. | .rehashSwap .. | .rehashNew ..
  | .rehashLocks .. | .rehashDone _ | .rehashRetire _ | .retiring _ => True
  | _ => False

/-- The thread has set `mRehash` and not reset it yet. -/
def Flagged : PC τ L K V → Prop
  | .rehashTest _ | .rehashReset | .rehashLoad _ | .waitLock .. | .waitUnlock .. | .rehashCopy ..
  | .rehashSwap .. | .rehashNew .. | .rehashLocks .. | .rehashDone _ => True
  | _ => False

/-- The thread has replaced the buckets and not yet the mutexes. -/
def Swapping : PC τ L K V → Prop
  | .rehashNew .. | .rehashLocks .. => True
  | _ => False

/-- The mutex the thread holds. -/
def lockOf : PC τ L K V → Option (L × ℕ)
  | .acquireTest _ a i | .acquireRecheck _ a i | .acquireUnlock _ a i | .acquireReturn _ a i
  | .bucketFind _ a i | .bucketApply _ a i _ _ | .sizeAdd a i | .sizeSub a i | .unlock a i _
  | .rehashSize a i | .rehashUnlock a i _ | .waitUnlock _ a i => some (a, i)
  | _ => none

section Map

variable [DecidableEq K]

/-- The map after some calls. -/
def after (m : K → Option V) (calls : List (Op K V × Option V)) : K → Option V :=
  calls.foldl (fun m x => (x.1.spec m).2) m

theorem Explained.eq {history : List (Op K V × Option V)} {m : K → Option V}
    (h : Explained history m) : m = after (fun _ => none) history := by
  induction h with
  | nil => rfl
  | snoc op _ ih =>
    rw [after, List.foldl_append]
    exact congrArg (fun m => (op.spec m).2) ih

/-- What a rehash that fails leaves behind: the flag is down and there are as many mutexes as
buckets, unless another thread is in a rehash; the thread holds no mutex; and the map is that of the
beginning, but for the calls of other threads since. -/
structure Usable (mHasher : K → ℕ) (t : τ) (s : Shared τ L K V)
    (c : Conf τ (Shared τ L K V) (PC τ L K V)) : Prop where
  flag : c.shared.mRehash = true → ∃ u, u ≠ t ∧ Flagged (c.pc u)
  released : ∀ a i, ¬ Holds c.shared t a i
  length : c.shared.mBuckets.length = (c.shared.locks c.shared.mLocks).length ∨
    ∃ u, u ≠ t ∧ Swapping (c.pc u)
  map : ∃ calls, c.shared.history = s.history ++ calls ∧
    Table.get mHasher c.shared.mBuckets = after (Table.get mHasher s.mBuckets) calls

end Map

variable [DecidableEq τ] [DecidableEq L] [DecidableEq K] {mHasher : K → ℕ} {g g' : Ghost τ L}
  {s s' : Shared τ L K V} {t u : τ} {p p' : PC τ L K V} {f : τ → PC τ L K V} {act : Act L K V}
  {ok : Bool} {fr fr' : Frame τ L} {a : L} {i : ℕ}

/-- The threads of `system`, whose rehashes may fail. -/
def failing (mHasher : K → ℕ) :
    System (Conf τ (Shared τ L K V) (PC τ L K V)) (τ × Trial (Act L K V)) :=
  ((program mHasher).orThrow throwRehash).system
    (fun s => ∃ a initialBucketSize, 1 ≤ initialBucketSize ∧ s = initial a initialBucketSize)
    (.domain .unstarted)

/-- An exception comes out of `retire`. -/
def Spared (c : Conf τ (Shared τ L K V) (PC τ L K V)) (l : τ × Trial (Act L K V)) : Prop :=
  match l.2 with
  | .act _ => True
  | .throw => InRetireCall (c.pc l.1)

omit [DecidableEq K] in
theorem domainStep_frame (hs : s.domainStep t ok fr = some (s', fr')) :
    s' = { s with domain := s'.domain, allocated := s'.allocated } := by
  revert hs
  unfold Shared.domainStep
  split <;> simp only [Option.some.injEq, Prod.mk.injEq, reduceCtorEq, IsEmpty.forall_iff]
  all_goals
    rintro ⟨rfl, rfl⟩
    rfl

/-- What holds after a step of `acquire`, of a critical section, of `rehash`, and of a step between
the calls, holds after a step. -/
theorem next_elim {Q : Shared τ L K V → PC τ L K V → Prop}
    (acquire : ∀ {s' p'}, nextAcquire mHasher t act s p = some (s', p') → Q s' p')
    (sections : ∀ {s' p'}, nextSection mHasher act s p = some (s', p') → Q s' p')
    (rehash : ∀ {s' p'}, nextRehash mHasher t act s p = some (s', p') → Q s' p')
    (between : ∀ {f q} (d : Domain τ L) (allocated : L → Bool), p = .domain f →
      (∃ f', q = .domain f') ∨ (∃ op, q = .acquireSpin op) →
        Q { s with domain := d, allocated := allocated } q)
    (hn : next mHasher t act s p = some (s', p')) : Q s' p' := by
  revert hn
  fun_cases next mHasher t act s p <;> intro hn
  · cases hn
    exact between s.domain s.allocated rfl (.inr ⟨_, rfl⟩)
  · cases hn
    exact between s.domain s.allocated rfl (.inl ⟨_, rfl⟩)
  · rename_i hs
    cases hn
    rw [domainStep_frame hs]
    exact between _ _ rfl (.inl ⟨_, rfl⟩)
  · cases hn
  · cases hn
  · rename_i hs
    cases hn
    exact acquire hs
  · rename_i hs
    cases hn
    exact sections hs
  · exact rehash hn

omit [DecidableEq τ] [DecidableEq L] [DecidableEq K] in
theorem throwRehash_eq (hn : throwRehash s p = some (s', p')) :
    s' = s ∧ p' = .domain .ready ∧ InRehash p ∧ lockOf p = none := by
  revert hn
  fun_cases throwRehash s p <;> intro hn <;> cases hn <;> exact ⟨rfl, rfl, trivial, rfl⟩

omit [DecidableEq τ] [DecidableEq L] [DecidableEq K] in
/-- Inside `retire` the flag is down and no address is under a scan. -/
theorem throwRehash_retire (hn : throwRehash s p = some (s', p')) (hp : InRetireCall p) :
    (¬ Flagged p ∧ ¬ Swapping p) ∧ pending (frameOf p) = [] ∧ registered 1 (frameOf p) = 1 := by
  revert hn
  fun_cases throwRehash s p <;> intro hn <;> cases hn <;>
    first | exact hp.elim | exact ⟨⟨id, id⟩, rfl, rfl⟩

omit [DecidableEq τ] [DecidableEq L] [DecidableEq K] in
/-- Before `retire`, a place that throws has the flag up. -/
theorem throwRehash_flagged (hn : throwRehash s p = some (s', p')) (hp : ¬ InRetireCall p) :
    Flagged p := by
  revert hn
  fun_cases throwRehash s p <;> intro hn <;> cases hn <;>
    first | exact trivial | exact absurd trivial hp

omit [DecidableEq τ] [DecidableEq L] in
theorem Placed.flagged (h : Placed mHasher g s t p) (hF : Flagged p) : g.rehash = some t := by
  cases p with
  | rehashTest _ | rehashReset => exact h.1
  | rehashLoad _ | waitLock _ _ _ | waitUnlock _ _ _ | rehashCopy _ _ _ _ | rehashSwap _ _ _
  | rehashNew _ _ | rehashLocks _ _ | rehashDone _ => exact h.1.1
  | _ => exact hF.elim

section Locks

/-- The thread holds no mutex but the one it knows of. -/
def Tracked (s : Shared τ L K V) (t : τ) (p : PC τ L K V) : Prop :=
  ∀ a i, Holds s t a i → lockOf p = some (a, i)

/-- No thread but `t` gets a mutex. -/
def Gives (t : τ) (s s' : Shared τ L K V) : Prop :=
  ∀ u, u ≠ t → ∀ a i, Holds s' u a i → Holds s u a i

omit [DecidableEq τ] [DecidableEq K] in
theorem holds_of_setLock {x : Option τ} {b : L} {j : ℕ} (h : Holds (s.setLock a i x) u b j) :
    (b, j) = (a, i) ∧ x = some u ∨ (b, j) ≠ (a, i) ∧ Holds s u b j := by
  unfold Holds Shared.setLock at *
  by_cases hb : b = a
  · subst hb
    by_cases hj : i = j
    · subst hj
      simp only [Function.update_self, List.getElem?_set_self'] at h
      cases hi : (s.locks b)[i]? with
      | none => simp [hi] at h
      | some y => exact .inl ⟨rfl, by simpa [hi] using h⟩
    · simp only [Function.update_self, ne_eq, hj, not_false_eq_true, List.getElem?_set_ne] at h
      exact .inr ⟨fun e => hj (congrArg Prod.snd e).symm, h⟩
  · simp only [ne_eq, hb, not_false_eq_true, Function.update_of_ne] at h
    exact .inr ⟨fun e => hb (congrArg Prod.fst e), h⟩

omit [DecidableEq τ] [DecidableEq K] in
theorem tracked_lock (hT : Tracked s t p) (hp : lockOf p = none) (hp' : lockOf p' = some (a, i)) :
    Tracked (s.setLock a i (some t)) t p' ∧ Gives t s (s.setLock a i (some t)) := by
  refine ⟨fun b j h => ?_, fun u hu b j h => ?_⟩
  · rcases holds_of_setLock h with ⟨h1, -⟩ | ⟨-, h2⟩
    · rw [hp', h1]
    · cases hp.symm.trans (hT b j h2)
  · rcases holds_of_setLock h with ⟨-, h2⟩ | ⟨-, h2⟩
    · exact absurd (Option.some.inj h2).symm hu
    · exact h2

omit [DecidableEq τ] [DecidableEq K] in
theorem tracked_unlock (hT : Tracked s t p) (hp : lockOf p = some (a, i)) :
    Tracked (s.setLock a i none) t p' ∧ Gives t s (s.setLock a i none) := by
  refine ⟨fun b j h => ?_, fun u _ b j h => ?_⟩
  · rcases holds_of_setLock h with ⟨-, h2⟩ | ⟨h1, h2⟩
    · cases h2
    · exact absurd (Option.some.inj ((hT b j h2).symm.trans hp)) h1
  · rcases holds_of_setLock h with ⟨-, h2⟩ | ⟨-, h2⟩
    · cases h2
    · exact h2

omit [DecidableEq τ] [DecidableEq L] [DecidableEq K] in
theorem tracked_same (hT : Tracked s t p) (hl : s'.locks = s.locks)
    (hp : lockOf p = none ∨ lockOf p' = lockOf p) : Tracked s' t p' ∧ Gives t s s' := by
  refine ⟨fun a i h => ?_, fun u _ a i h => ?_⟩
  · rw [Holds, hl] at h
    rcases hp with hp | hp
    · cases hp.symm.trans (hT a i h)
    · exact hp.trans (hT a i h)
  · rwa [Holds, hl] at h

omit [DecidableEq τ] [DecidableEq K] in
theorem tracked_make (hT : Tracked s t p) (hp : lockOf p = none) (a : L) (n : ℕ) :
    Tracked (s.make a n) t p' ∧ Gives t s (s.make a n) := by
  have h : ∀ {u b j}, Holds (s.make a n) u b j → Holds s u b j := by
    intro u b j h
    unfold Holds Shared.make at *
    by_cases hb : b = a
    · subst hb
      simp only [Function.update_self] at h
      cases List.eq_of_mem_replicate (List.mem_of_getElem? h)
    · simpa only [Function.update_of_ne hb] using h
  refine ⟨fun b j hb => ?_, fun u _ b j => h⟩
  cases hp.symm.trans (hT b j (h hb))

theorem next_tracked (hT : Tracked s t p) (hn : next mHasher t act s p = some (s', p')) :
    Tracked s' t p' ∧ Gives t s s' := by
  refine next_elim (Q := fun s' p' => Tracked s' t p' ∧ Gives t s s') (fun {s' p'} hr => ?_)
    (fun {s' p'} hr => ?_) (fun {s' p'} hr => ?_) (fun _ _ hf _ => ?_) hn
  · revert hr
    fun_cases nextAcquire mHasher t act s p <;> intro hr <;> cases hr <;>
      first
      | exact tracked_same hT rfl (.inl rfl)
      | exact tracked_same hT rfl (.inr rfl)
      | exact tracked_lock hT rfl rfl
      | exact tracked_unlock hT rfl
  · revert hr
    fun_cases nextSection mHasher act s p <;> intro hr <;> cases hr <;>
      first
      | exact tracked_same hT rfl (.inr rfl)
      | exact tracked_same hT rfl (.inl rfl)
      | exact tracked_unlock hT rfl
  · revert hr
    fun_cases nextRehash mHasher t act s p <;> intro hr <;> cases hr <;>
      first
      | exact tracked_same hT rfl (.inl rfl)
      | exact tracked_same hT rfl (.inr rfl)
      | exact tracked_lock hT rfl rfl
      | exact tracked_unlock hT rfl
      | exact tracked_make hT rfl _ _
      | rename_i hs
        exact tracked_same hT (by rw [domainStep_frame hs]) (.inl rfl)
  · subst hf
    exact tracked_same hT rfl (.inl rfl)

end Locks

section Marks

/-- There are as many mutexes as buckets unless a thread is between replacing one and the other, and
the flag is down unless a thread has it up. -/
structure Marked (c : Conf τ (Shared τ L K V) (PC τ L K V)) : Prop where
  length : c.shared.mBuckets.length = (c.shared.locks c.shared.mLocks).length ∨
    ∃ u, Swapping (c.pc u)
  flag : c.shared.mRehash = true → ∃ u, Flagged (c.pc u)

/-- What a step of a thread does to the sizes. -/
def Sizes (s s' : Shared τ L K V) (p p' : PC τ L K V) : Prop :=
  Swapping p' ∨ s'.mBuckets.length = (s'.locks s'.mLocks).length ∨
    ¬ Swapping p ∧ s'.mBuckets.length = s.mBuckets.length ∧
      (s'.locks s'.mLocks).length = (s.locks s.mLocks).length

/-- What a step of a thread does to the flag. -/
def Flags (s s' : Shared τ L K V) (p p' : PC τ L K V) : Prop :=
  s'.mRehash = true → Flagged p' ∨ ¬ Flagged p ∧ s.mRehash = true

omit [DecidableEq L] [DecidableEq K] in
theorem exists_update {E : PC τ L K V → Prop} (h : E p' ∨ ¬ E (f t) ∧ ∃ u, E (f u)) :
    ∃ u, E (Function.update f t p' u) := by
  rcases h with h | ⟨h, u, hu⟩
  · exact ⟨t, by simpa using h⟩
  · have hut : u ≠ t := fun e => h (e ▸ hu)
    exact ⟨u, by simpa [hut] using hu⟩

omit [DecidableEq L] [DecidableEq K] in
theorem Marked.step {c : Conf τ (Shared τ L K V) (PC τ L K V)} (h : Marked c)
    (hs : Sizes c.shared s' (c.pc t) p') (hf : Flags c.shared s' (c.pc t) p') :
    Marked ⟨s', Function.update c.pc t p'⟩ where
  length := by
    rcases hs with h1 | h1 | ⟨h1, h2, h3⟩
    · exact .inr (exists_update (.inl h1))
    · exact .inl h1
    · exact h.length.imp (fun h => h2.trans (h.trans h3.symm)) fun h => exists_update (.inr ⟨h1, h⟩)
  flag hr := exists_update ((hf hr).imp_right fun h2 => ⟨h2.1, h.flag h2.2⟩)

theorem next_sizes (hp : Placed mHasher g s t p) (hn : next mHasher t act s p = some (s', p')) :
    Sizes s s' p p' := by
  refine next_elim (Q := fun s' p' => Sizes s s' p p') (fun {s' p'} hr => ?_) (fun {s' p'} hr => ?_)
    (fun {s' p'} hr => ?_) (fun _ _ hf _ => ?_) hn
  · revert hr
    fun_cases nextAcquire mHasher t act s p <;> intro hr <;> cases hr <;>
      exact .inr (.inr ⟨id, rfl, by first | rfl | exact length_setLock ..⟩)
  · revert hr
    fun_cases nextSection mHasher act s p <;> intro hr <;> cases hr <;>
      exact .inr (.inr ⟨id, by first | rfl | exact List.length_set,
        by first | rfl | exact length_setLock ..⟩)
  · revert hr
    fun_cases nextRehash mHasher t act s p <;> intro hr <;> cases hr <;> first
      | exact .inl trivial
      | exact .inr (.inr ⟨id, rfl, by first | rfl | exact length_setLock ..⟩)
      | -- the new array has as many mutexes as there are buckets
        obtain ⟨-, -, -, h⟩ := hp
        exact .inr (.inl (by simp [h]))
      | rename_i hs
        exact .inr (.inr ⟨id, by rw [domainStep_frame hs], by rw [domainStep_frame hs]⟩)
  · subst hf
    exact .inr (.inr ⟨id, rfl, rfl⟩)

theorem next_flags (hn : next mHasher t act s p = some (s', p')) : Flags s s' p p' := by
  refine next_elim (Q := fun s' p' => Flags s s' p p') (fun {s' p'} hr => ?_) (fun {s' p'} hr => ?_)
    (fun {s' p'} hr => ?_) (fun _ _ hf _ => ?_) hn
  · revert hr
    fun_cases nextAcquire mHasher t act s p <;> intro hr <;> cases hr <;>
      exact fun h => .inr ⟨id, h⟩
  · revert hr
    fun_cases nextSection mHasher act s p <;> intro hr <;> cases hr <;> exact fun h => .inr ⟨id, h⟩
  · revert hr
    fun_cases nextRehash mHasher t act s p <;> intro hr <;> cases hr <;> first
      | exact fun _ => .inl trivial
      | exact fun h => .inr ⟨id, h⟩
      | exact fun h => absurd h Bool.false_ne_true
      | rename_i hs
        exact fun h => .inr ⟨id, by rwa [domainStep_frame hs] at h⟩
  · subst hf
    exact fun h => .inr ⟨id, h⟩

end Marks

section History

/-- Nothing of the history is lost, and a rehash is no call. -/
theorem next_history (hn : next mHasher t act s p = some (s', p')) :
    (∃ calls, s'.history = s.history ++ calls) ∧ (InRehash p → s'.history = s.history) := by
  have same : ∀ {s' : Shared τ L K V}, s'.history = s.history →
      (∃ calls, s'.history = s.history ++ calls) ∧ (InRehash p → s'.history = s.history) :=
    fun h => ⟨⟨[], by simp [h]⟩, fun _ => h⟩
  refine next_elim (Q := fun s' _ => (∃ calls, s'.history = s.history ++ calls) ∧
    (InRehash p → s'.history = s.history)) (fun {s' p'} hr => ?_) (fun {s' p'} hr => ?_)
      (fun {s' p'} hr => ?_) (fun _ _ _ _ => same rfl) hn
  · revert hr
    fun_cases nextAcquire mHasher t act s p <;> intro hr <;> cases hr <;> exact same rfl
  · revert hr
    fun_cases nextSection mHasher act s p <;> intro hr <;> cases hr <;>
      first | exact same rfl | exact ⟨⟨_, rfl⟩, False.elim⟩
  · revert hr
    fun_cases nextRehash mHasher t act s p <;> intro hr <;> cases hr <;> first
      | exact same rfl
      | rename_i hs
        exact same (by rw [domainStep_frame hs])

/-- A rehash begins at its first place. -/
theorem rehash_entered (hp : ¬ InRehash p) (hp' : InRehash p')
    (hn : next mHasher t act s p = some (s', p')) : ∃ a i, p' = .rehashSize a i := by
  refine next_elim (Q := fun _ p' => InRehash p' → ∃ a i, p' = .rehashSize a i)
    (fun {s' p'} hr => ?_) (fun {s' p'} hr => ?_) (fun {s' p'} hr => ?_) (fun _ _ _ hq => ?_) hn hp'
  · revert hr
    fun_cases nextAcquire mHasher t act s p <;> intro hr <;> cases hr <;> exact False.elim
  · revert hr
    fun_cases nextSection mHasher act s p <;> intro hr <;> cases hr <;>
      first | exact False.elim | exact fun _ => ⟨_, _, rfl⟩
  · revert hr
    fun_cases nextRehash mHasher t act s p <;> intro hr <;> cases hr <;> exact absurd trivial hp
  · rcases hq with ⟨_, rfl⟩ | ⟨_, rfl⟩ <;> exact False.elim

end History

section Runs

variable {c c' : Conf τ (Shared τ L K V) (PC τ L K V)} {l : τ × Trial (Act L K V)}

/-- The invariant of the runs whose exceptions all come out of `retire`. -/
structure Orderly (mHasher : K → ℕ) (c : Conf τ (Shared τ L K V) (PC τ L K V)) : Prop where
  sound : ∃ g, Sound mHasher g c
  tracked : ∀ t, Tracked c.shared t (c.pc t)
  marked : Marked c

omit [DecidableEq τ] in
theorem orderly_initial (mHasher : K → ℕ) (a : L) (n : ℕ) :
    Orderly mHasher ⟨(initial a n : Shared τ L K V), fun _ => .domain .unstarted⟩ where
  sound := sound_initial mHasher a n
  tracked t b i h := by cases List.eq_of_mem_replicate (List.mem_of_getElem? h)
  marked := ⟨.inl (by simp [initial]), nofun⟩

theorem orderly_step (hO : Orderly mHasher c) (hC : Spared c l)
    (hs : (failing mHasher).step c l = some c') : Orderly mHasher c' := by
  obtain ⟨⟨g, hG, hR, hp⟩, hT, hM⟩ := hO
  obtain ⟨t, trial⟩ := l
  obtain ⟨s', p', hn, rfl⟩ := Program.step_eq_some.1 hs
  cases trial with
  | act a =>
    obtain ⟨g', e, hE', hR', hp'⟩ := moves_step hG hR rfl (hp t) hn
    obtain ⟨hT', hgives⟩ := next_tracked (hT t) hn
    refine ⟨⟨g', hE'.shape, by rwa [Function.comp_update], ?_⟩, ?_,
      hM.step (next_sizes (hp t) hn) (next_flags hn)⟩
    · exact Program.forall_update hp' fun u hu => (hp u).effect hE' hG hu
    · exact Program.forall_update hT' fun u hu b i h => hT u b i (hgives u hu b i h)
  | throw =>
    obtain ⟨⟨hflag, hswap⟩, hpending, hreg⟩ := throwRehash_retire hn hC
    obtain ⟨rfl, rfl, -, hlock⟩ := throwRehash_eq hn
    refine ⟨⟨g, hG, ?_, Program.forall_update trivial fun u _ => hp u⟩, ?_,
      hM.step (.inr (.inr ⟨hswap, rfl, rfl⟩)) fun h => .inr ⟨hflag, h⟩⟩
    · rw [Function.comp_update]
      exact hR.move hpending.symm hreg.ge trivial
    · exact Program.forall_update (tracked_same (hT t) rfl (.inl hlock)).1 fun u _ => hT u

theorem orderly_reach (h : (failing mHasher).Reach Spared c) : Orderly mHasher c := by
  refine h.induct (P := Orderly mHasher) ?_ fun c l c' _ hO hC hs => orderly_step hO hC hs
  rintro ⟨s, f⟩ ⟨⟨a, n, -, rfl⟩, rfl⟩
  exact orderly_initial mHasher a n

theorem step_history (hs : (failing mHasher).step c l = some c') :
    (∃ calls, c'.shared.history = c.shared.history ++ calls) ∧
      (InRehash (c.pc l.1) → c'.shared.history = c.shared.history) := by
  obtain ⟨t, trial⟩ := l
  obtain ⟨s', p', hn, rfl⟩ := Program.step_eq_some.1 hs
  cases trial with
  | act a => exact next_history hn
  | throw =>
    obtain ⟨rfl, -⟩ := throwRehash_eq hn
    exact ⟨⟨[], (List.append_nil _).symm⟩, fun _ => rfl⟩

end Runs

/-- A rehash that throws leaves the map usable, with what was in it, if and only if the exception
comes out of `retire`. -/
theorem rehash_failure_iff {n : ℕ} {c : Conf τ (Shared τ L K V) (PC τ L K V)}
    (r : (failing mHasher).Run Spared n)
    (hs : (failing mHasher).step (r.state n) (t, .throw) = some c) :
    ∃ j < n, (∃ a i, (r.state (j + 1)).pc t = .rehashSize a i) ∧
      (∀ m, j < m → m ≤ n → InRehash ((r.state m).pc t)) ∧
        (∀ m, j < m → m < n → (r.label m).1 = t →
          (r.state (m + 1)).shared.history = (r.state m).shared.history) ∧
          (Usable mHasher t (r.state (j + 1)).shared c ↔ InRetireCall ((r.state n).pc t)) := by
  obtain ⟨⟨g, hG, hR, hp⟩, hT, hM⟩ := orderly_reach (r.reach le_rfl)
  obtain ⟨s', p', hn, rfl⟩ := Program.step_eq_some.1 hs
  obtain ⟨rfl, rfl, hin, hlock⟩ := throwRehash_eq hn
  obtain ⟨j, hj, hthread, hout, hnext, hlast⟩ := Program.entered r (E := InRehash) id le_rfl hin
  have hfirst := hlast _ (Nat.lt_succ_self j) hj
  refine ⟨j, hj, ?_, hlast, fun m hm hmn ht => ?_, ?_⟩
  · cases htrial : (r.label j).2 with
    | act a =>
      rw [htrial] at hnext
      exact rehash_entered hout hfirst hnext
    | throw =>
      rw [htrial] at hnext
      exact absurd (throwRehash_eq hnext).2.2.1 hout
  · refine (step_history (r.step m hmn)).2 ?_
    rw [ht]
    exact hlast m hm hmn.le
  · constructor
    · -- the flag is up, and it is this thread's
      intro hU
      by_contra hr
      have hF := (hp t).flagged (throwRehash_flagged hn hr)
      obtain ⟨u, hu, hFu⟩ := hU.flag (by rw [hG.flag, hF]; rfl)
      simp only [Function.update_of_ne hu] at hFu
      exact hu (Option.some.inj (((hp u).flagged hFu).symm.trans hF))
    · intro hr
      have hO := orderly_step (l := (t, .throw)) (orderly_reach (r.reach le_rfl)) hr hs
      have hself : ∀ {E : PC τ L K V → Prop}, ¬ E (.domain .ready) →
          (∃ u, E (Function.update (r.state n).pc t (.domain .ready) u)) →
            ∃ u, u ≠ t ∧ E (Function.update (r.state n).pc t (.domain .ready) u) := by
        rintro E hE ⟨u, hu⟩
        refine ⟨u, ?_, hu⟩
        rintro rfl
        rw [Function.update_self] at hu
        exact hE hu
      have hprefix := r.chain
        (R := fun c c' => ∃ calls, c'.shared.history = c.shared.history ++ calls)
        (fun _ => ⟨[], (List.append_nil _).symm⟩)
        (by rintro s₁ s₂ s₃ ⟨l, hl⟩ ⟨l', hl'⟩; exact ⟨l ++ l', by rw [hl', hl, List.append_assoc]⟩)
        hj fun m _ hmn => (step_history (r.step m hmn)).1
      obtain ⟨calls, hcalls⟩ := hprefix
      obtain ⟨⟨g₀, hG₀, -⟩, -⟩ := orderly_reach (r.reach hj)
      refine ⟨fun h => hself id (hO.marked.flag h), fun a i h => ?_,
        hO.marked.length.imp_right (hself id), calls, hcalls, ?_⟩
      · cases hlock.symm.trans (hT t a i h)
      · rw [hG.explained.eq, hcalls, after, List.foldl_append, ← after, ← after, ← hG₀.explained.eq]

section Example

def runs (n : ℕ) : List (Fin 1 × Trial (Act ℕ ℕ ℕ)) := List.replicate n (0, .act (.run true))

def adds (k n : ℕ) : List (Fin 1 × Trial (Act ℕ ℕ ℕ)) :=
  (0, .act (.call (.addOrUpdate k k))) :: runs n

/-- One thread, one bucket: the sixth entry begins a rehash. -/
def sixEntries : List (Fin 1 × Trial (Act ℕ ℕ ℕ)) :=
  runs 4 ++ adds 0 13 ++ adds 1 13 ++ adds 2 13 ++ adds 3 13 ++ adds 4 13 ++ adds 5 11

instance (c : Conf τ (Shared τ L K V) (PC τ L K V)) : ∀ l, Decidable (Spared c l)
  | (_, .act _) => isTrue trivial
  | (t, .throw) => inferInstanceAs (Decidable (InRetireCall (c.pc t)))

/-- The state after a list of steps. -/
def failed (as : List (Fin 1 × Trial (Act ℕ ℕ ℕ))) :
    Option (Conf (Fin 1) (Shared (Fin 1) ℕ ℕ ℕ) (PC (Fin 1) ℕ ℕ ℕ)) :=
  (failing id).execIf Spared ⟨initial 0 1, fun _ => .domain .unstarted⟩ as

theorem exists_failed (as : List (Fin 1 × Trial (Act ℕ ℕ ℕ)))
    {P Q : Conf (Fin 1) (Shared (Fin 1) ℕ ℕ ℕ) (PC (Fin 1) ℕ ℕ ℕ) → Bool}
    (h : ((failed as).any fun c => P c && ((failing id).step c (0, .throw)).any Q) = true) :
    ∃ (r : (failing id).Run Spared as.length) (c : _), P (r.state as.length) = true ∧
      (failing id).step (r.state as.length) (0, .throw) = some c ∧ Q c = true := by
  obtain ⟨r, h⟩ := System.exists_run_any (S := failing id) (0, .throw)
    ⟨⟨0, 1, by decide, rfl⟩, rfl⟩ h
  simp only [Option.any_eq_true, Bool.and_eq_true] at h
  obtain ⟨hP, c, hs, hQ⟩ := h
  exact ⟨r, c, hP, hs, hQ⟩

/-- The rehash gets to `retire`, whose node cannot be allocated. -/
theorem rehash_failure_retire : ∃ (n : ℕ) (r : (failing id).Run Spared n)
    (c : Conf (Fin 1) (Shared (Fin 1) ℕ ℕ ℕ) (PC (Fin 1) ℕ ℕ ℕ)),
    (failing id).step (r.state n) (0, .throw) = some c ∧
      ∃ j < n, Usable id 0 (r.state (j + 1)).shared c := by
  obtain ⟨r, c, hr, hs, -⟩ :=
    exists_failed (sixEntries ++ runs 16 ++ (0, .act (.alloc 1)) :: runs 2)
    (P := fun c => decide (InRetireCall (c.pc 0))) (Q := fun _ => true) (by decide +kernel)
  obtain ⟨j, hj, -, -, -, hiff⟩ := rehash_failure_iff r hs
  exact ⟨_, r, c, hs, j, hj, hiff.2 (of_decide_eq_true hr)⟩

/-- The new mutexes cannot be allocated: the flag stays up, with two buckets and one mutex. -/
theorem rehash_not_usable : ∃ (n : ℕ) (r : (failing id).Run Spared n)
    (c : Conf (Fin 1) (Shared (Fin 1) ℕ ℕ ℕ) (PC (Fin 1) ℕ ℕ ℕ)),
    (failing id).step (r.state n) (0, .throw) = some c ∧ c.shared.mRehash = true ∧
      c.shared.mBuckets.length = 2 ∧ (c.shared.locks c.shared.mLocks).length = 1 := by
  obtain ⟨r, c, -, hs, h⟩ := exists_failed (sixEntries ++ runs 16) (P := fun _ => true)
    (Q := fun c => decide (c.shared.mRehash = true ∧ c.shared.mBuckets.length = 2 ∧
      (c.shared.locks c.shared.mLocks).length = 1)) (by decide +kernel)
  exact ⟨_, r, c, hs, of_decide_eq_true h⟩

end Example

end RefinableThreadSafeHashmap

end ConcurrencySandbox

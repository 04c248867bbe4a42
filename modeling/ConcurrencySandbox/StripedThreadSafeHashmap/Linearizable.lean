import ConcurrencySandbox.Interleaving.Calls
import ConcurrencySandbox.StripedThreadSafeHashmap.Basic

/-!
# Stripes

The number of buckets is a multiple of the number of mutexes, so the mutex of a bucket is the same
at every size. A thread that holds a mutex finds the buckets of that mutex as it has left them, and
one that holds all of them is alone with the buckets (`Effect.buckets`). Every call works on its
bucket once and returns the result it had there (`Linearized`).
-/

namespace ConcurrencySandbox

open Interleaving Structures
open RefinableThreadSafeHashmap (Op Explained Performs performs_find performs_append performs_assign
  performs_remove performs_removeAbsent copy_spec)

namespace StripedThreadSafeHashmap

variable {τ K V : Type*}

def Holds (s : Shared τ K V) (t : τ) (i : ℕ) : Prop := s.mLocks[i]? = some (some t)

def HoldsAll (s : Shared τ K V) (t : τ) : Prop := ∀ i < s.mLocks.length, Holds s t i

/-- What a step of thread `t` leaves of the mutexes that others hold and of their buckets. -/
structure Effect (t : τ) (s s' : Shared τ K V) : Prop where
  length : s'.mLocks.length = s.mLocks.length := by rfl
  holds : ∀ u, u ≠ t → ∀ i, Holds s u i → Holds s' u i := by exact fun _ _ _ h => h
  buckets : ∀ u, u ≠ t → ∀ i, Holds s u i → s'.mBuckets.length = s.mBuckets.length ∧
      ∀ j, j % s.mLocks.length = i → s'.mBuckets[j]? = s.mBuckets[j]? := by
    exact fun _ _ _ _ => ⟨rfl, fun _ _ => rfl⟩

theorem Effect.same {t : τ} {s s' : Shared τ K V} (hl : s'.mLocks = s.mLocks)
    (hb : s'.mBuckets = s.mBuckets) : Effect t s s' := by
  refine ⟨by rw [hl], fun _ _ _ h => ?_, fun _ _ _ _ => ?_⟩
  · unfold Holds at h ⊢
    rwa [hl]
  · rw [hb]
    exact ⟨rfl, fun _ _ => rfl⟩

variable [DecidableEq K]

structure Shape (mHasher : K → ℕ) (n : ℕ) (s : Shared τ K V) : Prop where
  pos : 0 < n
  locks : s.mLocks.length = n
  size : ∃ k, s.mBuckets.length = n * 2 ^ k
  table : Table mHasher s.mBuckets
  explained : Explained s.history (Table.get mHasher s.mBuckets)

def Placed (mHasher : K → ℕ) (s : Shared τ K V) (t : τ) : PC K V → Prop
  | .bucketFind op lk => Holds s t lk ∧ lk = mHasher op.key % s.mLocks.length
  | .bucketApply op lk index it => (Holds s t lk ∧ lk = mHasher op.key % s.mLocks.length) ∧
      index = mHasher op.key % s.mBuckets.length ∧ it = position (s.mBuckets.getD index []) op.key
  | .sizeAdd lk | .sizeSub lk | .unlock lk _ | .rehashSize lk | .rehashUnlock lk _ => Holds s t lk
  | .rehashLock _ l => ∀ i < l, Holds s t i
  | .rehashTest _ => HoldsAll s t
  | .rehashCopy prev newBucket n => HoldsAll s t ∧ prev = s.mBuckets.length ∧
      Table mHasher newBucket ∧ newBucket.length = 2 * prev ∧
        ∀ x, x ∈ newBucket.flatten ↔ x ∈ s.mBuckets.flatten.take n
  | .rehashSwap newBucket => HoldsAll s t ∧ Table mHasher newBucket ∧
      newBucket.length = 2 * s.mBuckets.length ∧
        ∀ x, x ∈ newBucket.flatten ↔ x ∈ s.mBuckets.flatten
  | .unlockAll l => ∀ i, l ≤ i → i < s.mLocks.length → Holds s t i
  | _ => True

variable {mHasher : K → ℕ} {n i : ℕ} {s s' : Shared τ K V} {t u : τ} {p p' : PC K V}

/-- The mutex of the bucket of a hash value is the mutex of the hash value. -/
theorem Shape.stripe (hG : Shape mHasher n s) (h : ℕ) :
    h % s.mBuckets.length % s.mLocks.length = h % s.mLocks.length := by
  obtain ⟨k, hk⟩ := hG.size
  rw [hk, hG.locks, Nat.mod_mul_right_mod]

theorem Shape.held (hG : Shape mHasher n s) {h : ℕ} (hh : Holds s t i)
    (hi : i = h % s.mLocks.length) : Holds s t (h % s.mBuckets.length % s.mLocks.length) := by
  rwa [hG.stripe, ← hi]

theorem Shape.bucket (hG : Shape mHasher n s) (h : ℕ) :
    s.mBuckets[h % s.mBuckets.length]? = some (s.mBuckets.getD (h % s.mBuckets.length) []) := by
  obtain ⟨k, hk⟩ := hG.size
  have hpos : 0 < s.mBuckets.length := hk ▸ Nat.mul_pos hG.pos (Nat.two_pow_pos k)
  rw [List.getD_eq_getElem?_getD, List.getElem?_eq_getElem (Nat.mod_lt _ hpos), Option.getD_some]

omit [DecidableEq K] in
theorem Effect.holdsAll (hE : Effect t s s') (hu : u ≠ t) (hpos : 0 < s.mLocks.length)
    (h : HoldsAll s u) : HoldsAll s' u ∧ s'.mBuckets = s.mBuckets := by
  refine ⟨fun i hi => hE.holds u hu i (h i (hE.length ▸ hi)), List.ext_getElem? fun j => ?_⟩
  exact (hE.buckets u hu _ (h _ (Nat.mod_lt j hpos))).2 j rfl

theorem Placed.effect (h : Placed mHasher s u p) (hE : Effect t s s') (hG : Shape mHasher n s)
    (hu : u ≠ t) : Placed mHasher s' u p := by
  have hpos : 0 < s.mLocks.length := hG.locks ▸ hG.pos
  cases p with
  | idle | acquire _ => trivial
  | bucketFind _ _ => exact ⟨hE.holds u hu _ h.1, hE.length ▸ h.2⟩
  | bucketApply op lk index it =>
    obtain ⟨⟨h1, rfl⟩, rfl, h2⟩ := h
    obtain ⟨h3, h4⟩ := hE.buckets u hu _ h1
    refine ⟨⟨hE.holds u hu _ h1, hE.length ▸ rfl⟩, h3 ▸ rfl, ?_⟩
    rw [List.getD_eq_getElem?_getD, h4 _ (hG.stripe _), ← List.getD_eq_getElem?_getD]
    exact h2
  | sizeAdd _ | sizeSub _ | unlock _ _ | rehashSize _ | rehashUnlock _ _ => exact hE.holds u hu _ h
  | rehashLock _ l => exact fun i hi => hE.holds u hu i (h i hi)
  | rehashTest _ => exact (hE.holdsAll hu hpos h).1
  | rehashCopy _ _ _ =>
    obtain ⟨h1, h2⟩ := hE.holdsAll hu hpos h.1
    exact ⟨h1, h2 ▸ h.2⟩
  | rehashSwap _ =>
    obtain ⟨h1, h2⟩ := hE.holdsAll hu hpos h.1
    exact ⟨h1, h2 ▸ h.2⟩
  | unlockAll l => exact fun i h1 h2 => hE.holds u hu i (h i h1 (hE.length ▸ h2))

section Steps

omit [DecidableEq K] in
theorem holds_set (t : τ) {x : Option τ} (h : s.mLocks[i]? = some x) :
    Holds (s.setLock i (some t)) t i := by
  have hlt := (List.getElem?_eq_some_iff.1 h).1
  unfold Holds Shared.setLock
  rw [List.getElem?_set_self hlt]

omit [DecidableEq K] in
theorem holds_setLock {x : Option τ} {j : ℕ} (h : Holds s u j) (hij : i ≠ j) :
    Holds (s.setLock i x) u j := by
  unfold Holds Shared.setLock
  rwa [List.getElem?_set_ne hij]

/-- A mutex nobody else holds changes hands. -/
theorem setLock_spec (hG : Shape mHasher n s) (hi : ∀ u, u ≠ t → ¬ Holds s u i) (x : Option τ) :
    Shape mHasher n (s.setLock i x) ∧ Effect t s (s.setLock i x) := by
  refine ⟨{ hG with locks := List.length_set.trans hG.locks },
    { length := List.length_set, holds := fun u hu j h => holds_setLock h ?_ }⟩
  rintro rfl
  exact hi u hu h

theorem setLock_free (hG : Shape mHasher n s) (h : s.mLocks[i]? = some none) (x : Option τ) :
    Shape mHasher n (s.setLock i x) ∧ Effect t s (s.setLock i x) :=
  setLock_spec hG (fun _ _ h' => nomatch h.symm.trans h') x

theorem setLock_held (hG : Shape mHasher n s) (h : Holds s t i) (x : Option τ) :
    Shape mHasher n (s.setLock i x) ∧ Effect t s (s.setLock i x) := by
  refine setLock_spec hG (fun u hu h' => ?_) x
  unfold Holds at h h'
  rw [h] at h'
  exact hu (Option.some.inj (Option.some.inj h')).symm

/-- A critical section. -/
theorem section_spec (hG : Shape mHasher n s) {op : Op K V} {ans : Option V}
    {bs : List (List (K × V))} (hh : Holds s t (i % s.mLocks.length))
    (hP : Performs mHasher op i s.mBuckets ans bs) :
    Shape mHasher n ({ s with mBuckets := bs }.log op ans) ∧
      Effect t s ({ s with mBuckets := bs }.log op ans) := by
  refine ⟨{ hG with size := ?_, table := hP.table, explained := ?_ },
    { buckets := fun u hu j h => ⟨hP.length, fun k hk => hP.other k ?_⟩ }⟩
  · obtain ⟨k, hk⟩ := hG.size
    exact ⟨k, hP.length.trans hk⟩
  · have := hG.explained.snoc op
    rw [hP.spec] at this
    exact this
  · rintro rfl
    subst hk
    unfold Holds at hh h
    rw [hh] at h
    exact hu (Option.some.inj (Option.some.inj h)).symm

/-- `swap(mBuckets, newBucket)`. -/
theorem swap_spec (hG : Shape mHasher n s) (hh : HoldsAll s t) {bs : List (List (K × V))}
    (hT : Table mHasher bs) (hlen : bs.length = 2 * s.mBuckets.length)
    (hm : ∀ x, x ∈ bs.flatten ↔ x ∈ s.mBuckets.flatten) :
    Shape mHasher n { s with mBuckets := bs } ∧ Effect t s { s with mBuckets := bs } := by
  refine ⟨{ hG with size := ?_, table := hT, explained := ?_ },
    { buckets := fun u hu j h => ?_ }⟩
  · obtain ⟨k, hk⟩ := hG.size
    refine ⟨k + 1, ?_⟩
    rw [hlen, hk, Nat.pow_succ, Nat.mul_left_comm, Nat.mul_comm 2]
  · show Explained s.history (Table.get mHasher bs)
    rw [hG.table.ext hT hm]
    exact hG.explained
  · have hj := hh j (List.getElem?_eq_some_iff.1 h).1
    unfold Holds at hj h
    rw [hj] at h
    exact absurd (Option.some.inj (Option.some.inj h)).symm hu

end Steps

variable [DecidableEq τ]

theorem nextCall_spec (hG : Shape mHasher n s) (hp : Placed mHasher s t p)
    (hn : nextCall mHasher t s p = some (s', p')) :
    (Shape mHasher n s' ∧ Effect t s s') ∧ Placed mHasher s' t p' := by
  revert hn
  fun_cases nextCall mHasher t s p <;> intro hn <;> cases hn
  · rename_i hfree
    refine ⟨setLock_free hG hfree _, holds_set t hfree, ?_⟩
    exact congrArg (_ % ·) List.length_set.symm
  · exact ⟨⟨hG, .same rfl rfl⟩, hp, rfl, rfl⟩
  · obtain ⟨⟨h1, h2⟩, rfl, rfl⟩ := hp
    exact ⟨section_spec hG (hG.held h1 h2) (performs_find hG.table rfl), h1⟩
  · obtain ⟨⟨h1, h2⟩, rfl, h3⟩ := hp
    have hP := performs_append hG.table (hG.bucket _) rfl h3.symm
    exact ⟨section_spec hG (hG.held h1 h2) (hP _), h1⟩
  · rename_i hit
    obtain ⟨⟨h1, h2⟩, rfl, rfl⟩ := hp
    have hP := performs_assign hG.table (hG.bucket _) rfl hit
    exact ⟨section_spec hG (hG.held h1 h2) (hP _), h1⟩
  · obtain ⟨⟨h1, h2⟩, rfl, h3⟩ := hp
    have hP := performs_removeAbsent hG.table (hG.bucket _) rfl h3.symm
    exact ⟨section_spec hG (hG.held h1 h2) hP, h1⟩
  · rename_i hit
    obtain ⟨⟨h1, h2⟩, rfl, rfl⟩ := hp
    have hP := performs_remove hG.table (hG.bucket _) rfl hit
    exact ⟨section_spec hG (hG.held h1 h2) hP, h1⟩
  · exact ⟨⟨{ hG with }, .same rfl rfl⟩, hp⟩
  · exact ⟨⟨{ hG with }, .same rfl rfl⟩, hp⟩
  · exact ⟨⟨{ hG with }, .same rfl rfl⟩, hp⟩
  · exact ⟨setLock_held hG hp none, trivial⟩

theorem nextRehash_spec (hG : Shape mHasher n s) (hp : Placed mHasher s t p)
    (hn : nextRehash mHasher t s p = some (s', p')) :
    (Shape mHasher n s' ∧ Effect t s s') ∧ Placed mHasher s' t p' := by
  revert hn
  fun_cases nextRehash mHasher t s p <;> intro hn <;> cases hn
  · exact ⟨⟨hG, .same rfl rfl⟩, hp⟩
  · exact ⟨setLock_held hG hp none, nofun⟩
  · rename_i prev l hlt hfree
    refine ⟨setLock_free hG hfree _, fun i hi => ?_⟩
    rcases Nat.lt_or_eq_of_le (Nat.le_of_lt_succ hi) with hil | rfl
    · exact holds_setLock (hp i hil) (by omega)
    · exact holds_set t hfree
  · rename_i prev l hge
    exact ⟨⟨hG, .same rfl rfl⟩, fun i hi => hp i (by omega)⟩
  · exact ⟨⟨hG, .same rfl rfl⟩, fun i _ hi => hp i hi⟩
  · rename_i hsize
    refine ⟨⟨hG, .same rfl rfl⟩, hp, not_not.1 hsize, Table.replicate mHasher _, by simp, ?_⟩
    simp
  · -- the next pair
    rename_i pair hpair index
    obtain ⟨h1, h2, h3, h4, h5⟩ := hp
    have hpos : 0 < s.mBuckets.length := by
      rw [List.length_pos_iff]
      rintro hnil
      simp [hnil] at hpair
    obtain ⟨h6, h7⟩ := copy_spec hG.table h3 h4 (by omega) h5 hpair
    exact ⟨⟨hG, .same rfl rfl⟩, h1, h2, h6, by rw [List.length_set, h4], h7⟩
  · rename_i hend
    obtain ⟨h1, rfl, h3, h4, h5⟩ := hp
    rw [List.take_of_length_le (List.getElem?_eq_none_iff.1 hend)] at h5
    exact ⟨⟨hG, .same rfl rfl⟩, h1, h3, h4, h5⟩
  · obtain ⟨h1, h2, h3, h4⟩ := hp
    exact ⟨swap_spec hG h1 h2 h3 h4, fun i _ hi => h1 i hi⟩
  · rename_i l hlt
    refine ⟨setLock_held hG (hp l le_rfl hlt) none, fun i h1 h2 => ?_⟩
    exact holds_setLock (hp i (by omega) (by simpa [Shared.setLock] using h2)) (by omega)
  · exact ⟨⟨hG, .same rfl rfl⟩, trivial⟩

theorem next_spec {act : Act K V} (hG : Shape mHasher n s) (hp : Placed mHasher s t p)
    (hn : next mHasher t act s p = some (s', p')) :
    (Shape mHasher n s' ∧ Effect t s s') ∧ Placed mHasher s' t p' := by
  revert hn
  fun_cases next mHasher t act s p <;> intro hn
  · cases hn
    exact ⟨⟨hG, .same rfl rfl⟩, trivial⟩
  · rcases Option.or_eq_some_iff.1 hn with hn | ⟨-, hn⟩
    · exact nextCall_spec hG hp hn
    · exact nextRehash_spec hG hp hn
  · cases hn

/-- The mutex of the critical section the thread is in. -/
def sectionOf : PC K V → Option ℕ
  | .bucketFind _ lk | .bucketApply _ lk _ _ | .sizeAdd lk | .sizeSub lk | .unlock lk _
  | .rehashSize lk | .rehashUnlock lk _ => some lk
  | _ => none

/-- The bucket the thread's next step reads or changes. -/
def bucketOf (mHasher : K → ℕ) (s : Shared τ K V) : PC K V → Option ℕ
  | .bucketFind op _ => some (mHasher op.key % s.mBuckets.length)
  | .bucketApply _ _ index _ => some index
  | _ => none

/-- The thread reads or replaces all buckets. -/
def replaces : PC K V → Bool
  | .rehashTest _ | .rehashCopy .. | .rehashSwap _ => true
  | _ => false

def rehashes : PC K V → Bool
  | .rehashSize _ | .rehashUnlock .. | .rehashLock .. | .rehashTest _ | .rehashCopy ..
  | .rehashSwap _ | .unlockAll _ => true
  | _ => false

variable {c : Conf τ (Shared τ K V) (PC K V)}

theorem placed_reach (hn : 0 < n) (h : (system mHasher n).Reachable c) :
    Shape mHasher n c.shared ∧ ∀ t, Placed mHasher c.shared t (c.pc t) := by
  refine h.induct
    (P := fun c => Shape mHasher n c.shared ∧ ∀ t, Placed mHasher c.shared t (c.pc t)) ?_ ?_
  · rintro ⟨s, f⟩ ⟨rfl, rfl⟩
    refine ⟨⟨hn, List.length_replicate, ⟨0, by simp [initial]⟩, Table.replicate mHasher n, ?_⟩,
      fun _ => trivial⟩
    have hget : Table.get mHasher (initial n : Shared τ K V).mBuckets = fun _ => none := by
      funext k
      rw [Option.eq_none_iff_forall_ne_some]
      intro v hv
      have hm := (Table.replicate mHasher n).get_eq_some.1 hv
      simp at hm
    exact hget ▸ .nil
  · rintro c ⟨t, act⟩ c' - ⟨hG, hp⟩ - hs
    obtain ⟨s', p', hnext, rfl⟩ := Program.step_eq_some.1 hs
    obtain ⟨⟨hG', hE⟩, hp'⟩ := next_spec hG (hp t) hnext
    exact ⟨hG', Program.forall_update hp' fun u hu => (hp u).effect hE hG hu⟩

omit [DecidableEq K] [DecidableEq τ] in
theorem replaces_section (h : sectionOf p = some i) : replaces p = false := by
  cases p <;> first | rfl | cases h

omit [DecidableEq τ] in
theorem Placed.section (h : Placed mHasher s t p) (hs : sectionOf p = some i) : Holds s t i := by
  unfold sectionOf at hs
  split at hs <;> cases hs
  · exact h.1
  · exact h.1.1
  all_goals exact h

omit [DecidableEq τ] in
theorem Placed.bucket (hG : Shape mHasher n s) (h : Placed mHasher s t p)
    (hb : bucketOf mHasher s p = some i) : sectionOf p = some (i % s.mLocks.length) := by
  unfold bucketOf at hb
  split at hb <;> cases hb
  · rw [hG.stripe, ← h.2]
    rfl
  · obtain ⟨⟨-, h1⟩, rfl, -⟩ := h
    rw [hG.stripe, ← h1]
    rfl

omit [DecidableEq τ] in
theorem Placed.replaces (h : Placed mHasher s t p) (hr : replaces p = true) : HoldsAll s t := by
  unfold StripedThreadSafeHashmap.replaces at hr
  split at hr
  · exact h
  · exact h.1
  · exact h.1
  · cases hr

/-- The next step of a rehash changes no entry. -/
theorem entries_rehash {act : Act K V} (hp : Placed mHasher s t p) (hr : rehashes p = true)
    (hn : next mHasher t act s p = some (s', p')) (x : K × V) :
    x ∈ s'.mBuckets.flatten ↔ x ∈ s.mBuckets.flatten := by
  have hrun : nextRehash mHasher t s p = some (s', p') := by
    unfold rehashes at hr
    split at hr
    case h_8 => cases hr
    all_goals
      cases act with
      | call op => cases hn
      | run => exact hn
  revert hrun
  fun_cases nextRehash mHasher t s p <;> intro hn <;> cases hn
  case case10 => exact hp.2.2.2 x
  all_goals exact Iff.rfl

/-- The call a thread begins. -/
def begun (act : Act K V) (p : PC K V) : List (Op K V) :=
  match act, p with
  | .call op, .idle => [op]
  | _, _ => []

/-- The work of a critical section on its bucket. -/
def commit (s : Shared τ K V) (p : PC K V) : List (Op K V × Option V) :=
  match p with
  | .bucketApply op _ index it => [(op, op.result (s.mBuckets.getD index []) it)]
  | _ => []

/-- The return of a call. -/
def answer (s : Shared τ K V) (p : PC K V) : List (Option V) :=
  match p with
  | .unlock _ ans => [ans]
  | .unlockAll l => if l < s.mLocks.length then [] else [none]
  | _ => []

/-- A call that has not worked on its bucket. -/
def awaited : PC K V → List (Op K V)
  | .acquire op | .bucketFind op _ | .bucketApply op _ _ _ => [op]
  | _ => []

/-- What a call that has worked on its bucket returns. -/
def unreturned : PC K V → List (Option V)
  | .unlock _ ans => [ans]
  | .sizeAdd _ | .sizeSub _ | .rehashSize _ | .rehashUnlock .. | .rehashLock .. | .rehashTest _
  | .rehashCopy .. | .rehashSwap _ | .unlockAll _ => [none]
  | _ => []

/-- What a step adds to the history, and what it leaves of its own call. -/
structure Tells (act : Act K V) (s s' : Shared τ K V) (p p' : PC K V) : Prop where
  history : s'.history = s.history ++ commit s p
  calls : awaited p ++ begun act p = (commit s p).map Prod.fst ++ awaited p'
  results : unreturned p ++ (commit s p).map Prod.snd = answer s p ++ unreturned p'

theorem nextCall_tells (hn : nextCall mHasher t s p = some (s', p')) : Tells .run s s' p p' := by
  revert hn
  fun_cases nextCall mHasher t s p <;> intro hn <;> cases hn <;>
    first | exact ⟨(List.append_nil _).symm, rfl, rfl⟩ | exact ⟨rfl, rfl, rfl⟩

omit [DecidableEq K] in
theorem nextRehash_tells (hn : nextRehash mHasher t s p = some (s', p')) :
    Tells .run s s' p p' := by
  revert hn
  fun_cases nextRehash mHasher t s p <;> intro hn <;> cases hn
  case case11 hlt => exact ⟨(List.append_nil _).symm, rfl,
    by simp [answer, unreturned, commit, hlt]⟩
  case case12 hge => exact ⟨(List.append_nil _).symm, rfl,
    by simp [answer, unreturned, commit, hge]⟩
  all_goals exact ⟨(List.append_nil _).symm, rfl, rfl⟩

theorem next_tells {act : Act K V} (hn : next mHasher t act s p = some (s', p')) :
    Tells act s s' p p' := by
  revert hn
  fun_cases next mHasher t act s p <;> intro hn
  · cases hn
    exact ⟨(List.append_nil _).symm, rfl, rfl⟩
  · rcases Option.or_eq_some_iff.1 hn with hn | ⟨-, hn⟩
    · exact nextCall_tells hn
    · exact nextRehash_tells hn
  · cases hn

/-- In a reachable state, with `n` the initial number of buckets. -/
structure Correct (mHasher : K → ℕ) (n : ℕ) (c : Conf τ (Shared τ K V) (PC K V)) : Prop where
  size : ∃ k, c.shared.mBuckets.length = n * 2 ^ k
  placed : ∀ (j : ℕ) (l : List (K × V)), c.shared.mBuckets[j]? = some l →
    ∀ x ∈ l, mHasher x.1 % c.shared.mBuckets.length = j
  unique : Keyed c.shared.mBuckets.flatten
  bucket : ∀ t j, bucketOf mHasher c.shared (c.pc t) = some j →
    sectionOf (c.pc t) = some (j % c.shared.mLocks.length)
  apart : ∀ t u i j, t ≠ u → sectionOf (c.pc t) = some i → sectionOf (c.pc u) = some j → i ≠ j
  alone : ∀ t u i, sectionOf (c.pc t) = some i → replaces (c.pc u) = false
  rehash : ∀ t act c', rehashes (c.pc t) = true → (system mHasher n).step c (t, act) = some c' →
    ∀ x, x ∈ c'.shared.mBuckets.flatten ↔ x ∈ c.shared.mBuckets.flatten

theorem correct_reach (hn : 0 < n) (h : (system mHasher n).Reachable c) : Correct mHasher n c := by
  obtain ⟨hG, hp⟩ := placed_reach hn h
  refine ⟨hG.size, hG.table.placed, hG.table.flatten_keyed, fun t j => (hp t).bucket hG,
    fun t u i j htu ht hu hij => ?_, fun t u i ht => ?_, fun t act c' hr hs => ?_⟩
  · have h1 := (hp t).section ht
    have h2 := (hp u).section hu
    unfold Holds at h1 h2
    rw [hij, h2] at h1
    exact htu (Option.some.inj (Option.some.inj h1)).symm
  · rw [← Bool.not_eq_true]
    intro hr
    have h1 := (hp t).section ht
    have h2 := (hp u).replaces hr i (List.getElem?_eq_some_iff.1 h1).1
    unfold Holds at h1 h2
    rw [h2] at h1
    obtain rfl : u = t := Option.some.inj (Option.some.inj h1)
    exact Bool.false_ne_true ((replaces_section ht).symm.trans hr)
  · obtain ⟨s', p', hnext, rfl⟩ := Program.step_eq_some.1 hs
    exact entries_rehash (hp t) hr hnext

section Runs

variable {k i : ℕ} (r : (system (τ := τ) (V := V) mHasher n).Run (fun _ _ => True) k)

def called (i : ℕ) : List (τ × Op K V) := r.log (fun c l => (begun l.2 (c.pc l.1)).map (l.1, ·)) i

/-- The calls in the order of their work on the buckets, with their results. -/
def performed (i : ℕ) : List (τ × Op K V × Option V) :=
  r.log (fun c l => (commit c.shared (c.pc l.1)).map (l.1, ·)) i

def returned (i : ℕ) : List (τ × Option V) :=
  r.log (fun c l => (answer c.shared (c.pc l.1)).map (l.1, ·)) i

/-- The calls have, in the order of their critical sections, the results they have on a finite map,
which is the one the buckets stand for, and return these. -/
structure Linearized (i : ℕ) : Prop where
  history : (performed r i).map Prod.snd = (r.state i).shared.history
  explained : Explained (r.state i).shared.history (Table.get mHasher (r.state i).shared.mBuckets)
  answered : Answered (called r i) (performed r i) (returned r i)
    (fun t => awaited ((r.state i).pc t)) (fun t => unreturned ((r.state i).pc t))

variable {r}

theorem history_run (hi : i ≤ k) : (performed r i).map Prod.snd = (r.state i).shared.history := by
  unfold performed
  rw [System.Run.map_snd_log]
  induction i with
  | zero =>
    rw [r.init.1]
    rfl
  | succ i ih =>
    rw [System.Run.log_succ, ih (by omega), (next_tells (Program.run_step r hi).1).history]

/-- The hash map is linearizable: in every state of a run its entries are where they belong and the
critical sections are apart, and the calls so far are those of a finite map. -/
theorem striped_linearizable (hn : 0 < n)
    (r : (system (τ := τ) (V := V) mHasher n).Run (fun _ _ => True) k) (hi : i ≤ k) :
    Correct mHasher n (r.state i) ∧ Linearized r i := by
  refine ⟨correct_reach hn (r.reach hi), history_run hi,
    (placed_reach hn (r.reach hi)).1.explained, ?_⟩
  exact Program.answered r ⟨rfl, rfl⟩ (fun _ hi => (next_tells (Program.run_step r hi).1).calls)
    (fun _ hi => (next_tells (Program.run_step r hi).1).results) hi

end Runs

/-- The sixth entry makes two buckets of one, and another thread finds the first. -/
theorem striped_linearizable_rehash : ∃ (k : ℕ)
    (r : (system (τ := Fin 2) (V := ℕ) (id : ℕ → ℕ) 1).Run (fun _ _ => True) k),
    (r.state k).pc 1 = .unlock 0 (some 7) ∧ (r.state k).shared.mBuckets.length = 2 ∧
      Correct id 1 (r.state k) ∧ Linearized r k := by
  let run (t : Fin 2) (n : ℕ) : List (Fin 2 × Act ℕ ℕ) := List.replicate n (t, .run)
  let add (k : ℕ) : List (Fin 2 × Act ℕ ℕ) := (0, .call (.addOrUpdate k (k + 7))) :: run 0 5
  let as := add 0 ++ add 1 ++ add 2 ++ add 3 ++ add 4 ++ add 5 ++ run 0 14 ++
    (1, .call (.find 0)) :: run 1 3
  have hex : ∃ c : Conf (Fin 2) (Shared (Fin 2) ℕ ℕ) (PC ℕ ℕ),
      (system id 1).exec ⟨initial 1, fun _ => .idle⟩ as = some c ∧
        c.pc 1 = .unlock 0 (some 7) ∧ c.shared.mBuckets.length = 2 := ⟨_, rfl, rfl, rfl⟩
  obtain ⟨c, hc, h1, h2⟩ := hex
  obtain ⟨r, rfl⟩ := System.exists_run_of_exec (S := system id 1) (0, .run) ⟨rfl, rfl⟩ hc
  exact ⟨as.length, r, h1, h2, striped_linearizable (by decide) r le_rfl⟩

end StripedThreadSafeHashmap

end ConcurrencySandbox

import ConcurrencySandbox.Interleaving.Calls
import ConcurrencySandbox.RefinableThreadSafeHashmap.Steps

/-!
# The hash map is a finite map

Every step of a thread has an `Effect` and keeps its place (`moves_step`), so in every reachable
state the critical sections are apart from each other and from a rehash, and the calls so far have
the results they have on the map that the buckets now stand for. Every call has one such section and
returns the result it had there (`linearizable`).
-/

namespace ConcurrencySandbox

open Interleaving Structures HazardPointer

namespace RefinableThreadSafeHashmap

variable {τ L K V : Type*}

def frameOf : PC τ L K V → Frame τ L
  | .domain f | .retiring f => f
  | _ => .ready

/-- The mutex of the critical section the thread is in. -/
def sectionOf : PC τ L K V → Option (L × ℕ)
  | .acquireReturn _ a i | .bucketFind _ a i | .bucketApply _ a i _ _ | .sizeAdd a i | .sizeSub a i
  | .unlock a i _ | .rehashSize a i | .rehashUnlock a i _ => some (a, i)
  | _ => none

/-- The bucket the thread's next step reads or changes. -/
def bucketOf (mHasher : K → ℕ) (s : Shared τ L K V) : PC τ L K V → Option ℕ
  | .bucketFind op _ _ => some (mHasher op.key % s.mBuckets.length)
  | .bucketApply _ _ _ index _ => some index
  | _ => none

/-- The thread is replacing the buckets and the locks. -/
def replaces : PC τ L K V → Bool
  | .rehashCopy .. | .rehashSwap .. | .rehashNew .. | .rehashLocks .. => true
  | _ => false

/-- The call a thread begins. -/
def begun (act : Act L K V) (p : PC τ L K V) : List (Op K V) :=
  match act, p with
  | .call op, .domain .ready => [op]
  | _, _ => []

/-- The work of a critical section on its bucket. -/
def commit (s : Shared τ L K V) (p : PC τ L K V) : List (Op K V × Option V) :=
  match p with
  | .bucketApply op _ _ index it => [(op, op.result (s.mBuckets.getD index []) it)]
  | _ => []

/-- The return of a call. -/
def answer (p : PC τ L K V) : List (Option V) :=
  match p with
  | .returned ans => [ans]
  | _ => []

/-- A call that has not worked on its bucket. -/
def awaited : PC τ L K V → List (Op K V)
  | .acquireSpin op | .acquireLoad op | .acquireStore op _ | .acquireCheck op _ | .acquireLock op _
  | .acquireTest op _ _ | .acquireRecheck op _ _ | .acquireUnlock op _ _ | .acquireRelease op
  | .acquireReturn op _ _ | .bucketFind op _ _ | .bucketApply op _ _ _ _ => [op]
  | _ => []

/-- What a call that has worked on its bucket returns. -/
def unreturned : PC τ L K V → List (Option V)
  | .unlock _ _ ans | .returned ans => [ans]
  | .sizeAdd .. | .sizeSub .. | .rehashSize .. | .rehashUnlock .. |
      .rehashExchange _ | .rehashTest _
  | .rehashReset | .rehashLoad _ | .waitLock .. | .waitUnlock .. | .rehashCopy .. | .rehashSwap ..
  | .rehashNew .. | .rehashLocks .. | .rehashDone _ | .rehashRetire _ | .retiring _ => [none]
  | _ => []

variable [DecidableEq τ] [DecidableEq L] [DecidableEq K] {mHasher : K → ℕ} {g g' : Ghost τ L}
  {s s' : Shared τ L K V} {t u : τ} {p p' : PC τ L K V} {f : τ → PC τ L K V} {act : Act L K V}
  {ok : Bool} {fr fr' : Frame τ L} {e : Hazards.Event (τ × ℕ) L} {a : L} {i : ℕ}

/-- What the step theorem says of the thread that moved. -/
def Moves (mHasher : K → ℕ) (g : Ghost τ L) (s : Shared τ L K V) (t : τ) (f : τ → PC τ L K V)
    (s' : Shared τ L K V) (p' : PC τ L K V) : Prop :=
  ∃ g' e, Effect mHasher t g g' s s' e ∧
    Refines 1 s'.domain (Function.update (frameOf ∘ f) t (frameOf p')) g'.hazards ∧
    Placed mHasher g' s' t p'

theorem domainStep_spec (hG : Shape mHasher g s)
    (hR : Refines 1 s.domain (frameOf ∘ f) g.hazards) (hf : frameOf (f t) = fr)
    (hs : s.domainStep t ok fr = some (s', fr')) :
    ∃ g' e, Effect mHasher t g g' s s' e ∧
      Refines 1 s'.domain (Function.update (frameOf ∘ f) t fr') g'.hazards := by
  revert hs
  unfold Shared.domainStep
  split
  · rename_i d f' b hd
    rintro ⟨⟩
    obtain ⟨he, hR'⟩ := hR.step (hf ▸ hd)
    obtain ⟨g', hE⟩ := free_spec hG t (d := d) he
    exact ⟨g', _, hE, hE.hazards ▸ hR'⟩
  · rename_i d f' e hne hd
    rintro ⟨⟩
    obtain ⟨he, hR'⟩ := hR.step (hf ▸ hd)
    rcases step_event hd with rfl | ⟨i, rfl⟩ | ⟨b, rfl⟩
    · exact ⟨_, _, quiet_spec hG t d s.mSize, hR'⟩
    · exact ⟨_, _, store_spec hG t i none, hR'⟩
    · exact absurd rfl (hne b)
  · simp

/-- A step outside the domain. -/
theorem Moves.call (hR : Refines 1 s.domain (frameOf ∘ f) g.hazards) (hf : frameOf (f t) = .ready)
    (hE : Effect mHasher t g g' s s' .skip) (hd : s'.domain = s.domain) (hf' : frameOf p' = .ready)
    (hp : Placed mHasher g' s' t p') : Moves mHasher g s t f s' p' := by
  refine ⟨g', _, hE, ?_, hp⟩
  rw [hd, hf', hE.hazards]
  exact hR.move (congrArg pending hf.symm) (congrArg (registered 1) hf.symm).le trivial

theorem Moves.stay (hG : Shape mHasher g s) (hR : Refines 1 s.domain (frameOf ∘ f) g.hazards)
    (hf : frameOf (f t) = .ready) (hf' : frameOf p' = .ready) (hp : Placed mHasher g s t p') :
    Moves mHasher g s t f s p' :=
  .call hR hf (quiet_spec hG t s.domain s.mSize) rfl hf' hp

theorem Moves.storeHp (hG : Shape mHasher g s) (hR : Refines 1 s.domain (frameOf ∘ f) g.hazards)
    (hf : frameOf (f t) = .ready) {v : Option L} (hf' : frameOf p' = .ready)
    (hp : Placed mHasher { g with hazards := g.hazards.apply (.store (t, 0) v) }
      (s.storeHp t v) t p') : Moves mHasher g s t f (s.storeHp t v) p' := by
  have hreg : registered 1 (frameOf (f t)) = 1 := by rw [hf]; rfl
  refine ⟨_, _, store_spec hG t 0 v, ?_, hp⟩
  rw [hf']
  exact hR.store v (by simp [hreg]) (congrArg pending hf.symm)
    (congrArg (registered 1) hf.symm).le trivial

omit [DecidableEq τ] [DecidableEq K] in
theorem holds_set (s : Shared τ L K V) (t : τ) (h : (s.locks a)[i]? = some none) :
    Holds (s.setLock a i (some t)) t a i := by
  have hlt := (List.getElem?_eq_some_iff.1 h).1
  simp [Holds, Shared.setLock, hlt]

omit [DecidableEq τ] [DecidableEq L] [DecidableEq K] in
/-- Nobody else holds a mutex that is free or the thread's own. -/
theorem not_holds (t : τ) {x : Option τ} (h : (s.locks a)[i]? = some x)
    (hx : x = none ∨ x = some t) (u : τ) (hu : u ≠ t) : ¬ Holds s u a i := by
  intro hh
  obtain rfl := Option.some.inj (h.symm.trans hh)
  simp [hu] at hx

theorem moves_acquire (hG : Shape mHasher g s) (hR : Refines 1 s.domain (frameOf ∘ f) g.hazards)
    (hf : frameOf (f t) = frameOf p) (hp : Placed mHasher g s t p)
    (hn : nextAcquire mHasher t act s p = some (s', p')) : Moves mHasher g s t f s' p' := by
  revert hn
  fun_cases nextAcquire mHasher t act s p <;> intro hn <;> cases hn
  · exact .stay hG hR hf rfl trivial
  · exact .stay hG hR hf rfl trivial
  · exact .stay hG hR hf rfl trivial
  · exact .storeHp hG hR hf rfl (by simp [Placed, Hazards.apply])
  · -- the array is still current
    exact .stay hG hR hf rfl ⟨hG.current.1, hp, fun h => absurd h hG.current.2.1⟩
  · exact .stay hG hR hf rfl trivial
  · rename_i op a _ hfree
    have hE := setLock_spec hG t hp.1 (not_holds t hfree (.inl rfl)) (some t) g.passed (.inl rfl)
    refine .call hR hf hE rfl rfl ⟨hp, holds_set s t hfree, ?_⟩
    rw [length_setLock]
  · exact .stay hG hR hf rfl ⟨hp.1, hp.2.1⟩
  · -- no rehash is on its way
    rename_i hr
    have hn : g.rehash = none := by
      have hflag := hG.flag
      simpa [hr] using hflag
    exact .stay hG hR hf rfl ⟨hp, fun _ => hG.quiet hn ▸ Nat.zero_le _⟩
  · obtain ⟨⟨-, h1, h2⟩, h3⟩ := hp
    have hC : Critical g s t s.mLocks _ := ⟨rfl, h1, h3 rfl⟩
    exact .stay hG hR hf rfl ⟨hC, (hG.section_length hC).1 ▸ h2⟩
  · exact .stay hG hR hf rfl ⟨hp.1.1, hp.1.2.1⟩
  · obtain ⟨h1, h2⟩ := hp
    have hE := setLock_spec hG t h1.1 (not_holds t h2 (.inr rfl)) none g.passed (.inl rfl)
    exact .call hR hf hE rfl rfl trivial
  · exact .storeHp hG hR hf rfl trivial
  · exact .storeHp hG hR hf rfl hp

theorem moves_section (hG : Shape mHasher g s) (hR : Refines 1 s.domain (frameOf ∘ f) g.hazards)
    (hf : frameOf (f t) = frameOf p) (hp : Placed mHasher g s t p)
    (hn : nextSection mHasher act s p = some (s', p')) : Moves mHasher g s t f s' p' := by
  have set : ∀ {a : L} {i j : ℕ} {l : List (K × V)}, Critical g s t a i →
      Critical g (s.setBucket j l) t a i := fun h => h
  revert hn
  fun_cases nextSection mHasher act s p <;> intro hn <;> cases hn
  · obtain ⟨h1, rfl⟩ := hp
    exact .stay hG hR hf rfl ⟨⟨h1, rfl⟩, rfl, rfl⟩
  · obtain ⟨⟨h1, h2⟩, rfl, rfl⟩ := hp
    exact .call hR hf (section_spec hG h1 (performs_find hG.table h2)) rfl rfl h1
  · obtain ⟨⟨h1, h2⟩, rfl, h3⟩ := hp
    have hP := performs_append hG.table (hG.bucket h1) h2 h3.symm
    exact .call hR hf (section_spec hG h1 (hP _)) rfl rfl h1
  · rename_i hit
    obtain ⟨⟨h1, h2⟩, rfl, rfl⟩ := hp
    have hP := performs_assign hG.table (hG.bucket h1) h2 hit
    exact .call hR hf (section_spec hG h1 (hP _)) rfl rfl h1
  · obtain ⟨⟨h1, h2⟩, rfl, h3⟩ := hp
    have hP := performs_removeAbsent hG.table (hG.bucket h1) h2 h3.symm
    exact .call hR hf (section_spec hG h1 hP) rfl rfl h1
  · rename_i hit
    obtain ⟨⟨h1, h2⟩, rfl, rfl⟩ := hp
    have hP := performs_remove hG.table (hG.bucket h1) h2 hit
    exact .call hR hf (section_spec hG h1 hP) rfl rfl h1
  · exact .call hR hf (quiet_spec hG t s.domain _) rfl rfl hp
  · exact .call hR hf (quiet_spec hG t s.domain _) rfl rfl hp
  · exact .call hR hf (quiet_spec hG t s.domain _) rfl rfl hp
  · obtain ⟨rfl, h1, h2⟩ := hp
    have hE := setLock_spec hG t hG.current.1 (not_holds t h1 (.inr rfl)) none g.passed (.inl rfl)
    exact .call hR hf hE rfl rfl trivial
  · exact .stay hG hR hf rfl trivial

theorem moves_rehash (hG : Shape mHasher g s) (hR : Refines 1 s.domain (frameOf ∘ f) g.hazards)
    (hf : frameOf (f t) = frameOf p) (hp : Placed mHasher g s t p)
    (hn : nextRehash mHasher t act s p = some (s', p')) : Moves mHasher g s t f s' p' := by
  revert hn
  fun_cases nextRehash mHasher t act s p <;> intro hn <;> cases hn
  · exact .stay hG hR hf rfl hp
  · obtain ⟨rfl, h1, h2⟩ := hp
    have hE := setLock_spec hG t hG.current.1 (not_holds t h1 (.inr rfl)) none g.passed (.inl rfl)
    exact .call hR hf hE rfl rfl trivial
  · exact .stay hG hR hf rfl trivial
  · rename_i hr
    obtain ⟨hE, hpassed⟩ := flag_spec hG t (by simpa using hr)
    exact .call hR hf hE rfl rfl ⟨rfl, hpassed⟩
  · exact .stay hG hR hf rfl hp
  · rename_i hsize
    exact .stay hG hR hf rfl ⟨hp, not_not.1 hsize⟩
  · exact .call hR hf (unflag_spec hG hp.1 hp.2) rfl rfl trivial
  · exact .stay hG hR hf rfl ⟨⟨hp.1.1, rfl, hp.2⟩, hp.1.2⟩
  · -- the mutex is free, so no section holds it
    rename_i prev old l ok hlt hfree
    obtain ⟨⟨h1, rfl, h2⟩, h3⟩ := hp
    have hE := setLock_spec hG t hG.current.1 (not_holds t hfree (.inl rfl)) (some t) (l + 1)
      (.inr ⟨h1, rfl, h3.symm, rfl⟩)
    exact .call hR hf hE rfl rfl ⟨⟨h1, rfl, h2⟩, rfl, holds_set s t hfree⟩
  · rename_i prev old l ok hge
    obtain ⟨⟨h1, rfl, h2⟩, h3⟩ := hp
    refine .stay hG hR hf rfl ⟨⟨h1, rfl, by omega⟩, h2, Table.replicate mHasher _, by simp, ?_⟩
    simp
  · obtain ⟨⟨h1, rfl, h2⟩, h3, h4⟩ := hp
    have hE := setLock_spec hG t hG.current.1 (not_holds t h4 (.inr rfl)) none g.passed (.inl rfl)
    exact .call hR hf hE rfl rfl ⟨⟨h1, rfl, h2⟩, h3⟩
  · -- the next pair
    rename_i pair hpair index
    obtain ⟨h1, h2, h3, h4, h5⟩ := hp
    have hpos : 0 < s.mBuckets.length := by
      rw [List.length_pos_iff]
      rintro hnil
      simp [hnil] at hpair
    obtain ⟨h6, h7⟩ := copy_spec hG.table h3 h4 (by omega) h5 hpair
    exact .stay hG hR hf rfl ⟨h1, h2, h6, by rw [List.length_set, h4], h7⟩
  · rename_i hend
    obtain ⟨h1, h2, h3, h4, h5⟩ := hp
    rw [List.take_of_length_le (List.getElem?_eq_none_iff.1 hend)] at h5
    exact .stay hG hR hf rfl ⟨h1, h3, h4, h5⟩
  · obtain ⟨h1, h2, h3, h4⟩ := hp
    exact .call hR hf (swap_spec hG h1 h2 h4) rfl rfl ⟨h1, h3.symm⟩
  · -- the new locks
    rename_i ha
    obtain ⟨h1, rfl⟩ := hp
    obtain ⟨hE, h2, h3, h4⟩ := make_spec hG t ha s.mBuckets.length
    refine .call hR hf hE rfl rfl ⟨⟨h1.1, h1.2.1, ?_⟩, Function.update_self .., h2, h3⟩
    exact (hE.size _ hG.current.1).trans_le h1.2.2
  · obtain ⟨h1, h2, h3, h4⟩ := hp
    obtain ⟨g', hE, h5⟩ := locks_spec hG h1 h2 h3 h4
    exact .call hR hf hE rfl rfl h5
  · obtain ⟨⟨h1, h2⟩, h3⟩ := hp
    exact .call hR hf (unflag_spec hG h1 h2) rfl rfl h3
  · -- retire
    rename_i a _
    have hE := retire_spec hG hp.1 hp.2 (d := s.domain.retire t a)
    exact ⟨_, _, hE, hR.retire hf hE.enabled, trivial⟩
  · exact .stay hG hR hf rfl trivial
  · rename_i hs
    obtain ⟨g', e, hE, hR'⟩ := domainStep_spec hG hR hf hs
    exact ⟨g', e, hE, hR', trivial⟩

theorem moves_step (hG : Shape mHasher g s) (hR : Refines 1 s.domain (frameOf ∘ f) g.hazards)
    (hf : frameOf (f t) = frameOf p) (hp : Placed mHasher g s t p)
    (hn : next mHasher t act s p = some (s', p')) : Moves mHasher g s t f s' p' := by
  have exit : ∀ {q : Frame τ L}, pending q = pending (frameOf p) →
      registered 1 q ≤ registered 1 (frameOf p) →
        Scanned g.hazards (s.domain.localDeleteList t) q → Moves mHasher g s t f s (.domain q) :=
    fun h1 h2 h3 => ⟨g, _, quiet_spec hG t s.domain s.mSize,
      hR.move (h1.trans (congrArg pending hf.symm))
      (h2.trans (congrArg (registered 1) hf.symm).le) h3,
      trivial⟩
  revert hn
  fun_cases next mHasher t act s p <;> intro hn
  · cases hn
    exact .stay hG hR hf rfl trivial
  · rename_i listFirst
    cases hn
    cases listFirst <;> exact exit rfl le_rfl trivial
  · rename_i hs
    cases hn
    obtain ⟨g', e, hE, hR'⟩ := domainStep_spec hG hR hf hs
    exact ⟨g', e, hE, hR', trivial⟩
  · cases hn
  · cases hn
  · rename_i hs
    cases hn
    exact moves_acquire hG hR hf hp hs
  · rename_i hs
    cases hn
    exact moves_section hG hR hf hp hs
  · exact moves_rehash hG hR hf hp hn

/-- In every reachable state: the hazard slots, the locks and buckets, and what every thread relies
on. -/
def Sound (mHasher : K → ℕ) (g : Ghost τ L) (c : Conf τ (Shared τ L K V) (PC τ L K V)) : Prop :=
  Shape mHasher g c.shared ∧ Refines 1 c.shared.domain (frameOf ∘ c.pc) g.hazards ∧
    ∀ t, Placed mHasher g c.shared t (c.pc t)

variable {c : Conf τ (Shared τ L K V) (PC τ L K V)}

omit [DecidableEq τ] in
theorem sound_initial (mHasher : K → ℕ) (a : L) (n : ℕ) : ∃ g : Ghost τ L,
    Sound mHasher g ⟨(initial a n : Shared τ L K V), fun _ => .domain .unstarted⟩ := by
  refine ⟨⟨⟨fun _ => none, ∅, fun _ => ∅⟩, {a}, fun _ => none, none, 0⟩, ?_, Refines.init 1,
    fun _ => trivial⟩
  have hget : Table.get mHasher (initial a n : Shared τ L K V).mBuckets = fun _ => none := by
    funext k
    rw [Option.eq_none_iff_forall_ne_some]
    intro v hv
    have hm := (Table.replicate mHasher n).get_eq_some.1 hv
    simp at hm
  exact
    { current := ⟨rfl, id, rfl⟩
      retired := by simp
      allocated := by simp [initial]
      flag := rfl
      quiet := fun _ => rfl
      length := fun _ => by simp [initial]
      table := Table.replicate mHasher n
      explained := hget ▸ .nil }

theorem sound_reach (h : (system mHasher).Reachable c) : ∃ g, Sound mHasher g c := by
  refine h.induct (P := fun c => ∃ g, Sound mHasher g c) ?_ ?_
  · rintro ⟨s, f⟩ ⟨⟨a, n, -, rfl⟩, rfl⟩
    exact sound_initial mHasher a n
  · rintro c ⟨t, act⟩ c' - ⟨g, hG, hR, hp⟩ - hs
    obtain ⟨s', p', hn, rfl⟩ := Program.step_eq_some.1 hs
    obtain ⟨g', e, hE, hR', hp'⟩ := moves_step hG hR rfl (hp t) hn
    refine ⟨g', hE.shape, by rwa [Function.comp_update], Program.forall_update hp' fun u hu => ?_⟩
    exact (hp u).effect hE hG hu

/-- A critical section holds a mutex of the current array, which has as many mutexes as there are
buckets, and works on the bucket of that mutex; no two sections have the same one, and while there
is one nobody replaces buckets or locks. -/
structure Isolated (mHasher : K → ℕ) (c : Conf τ (Shared τ L K V) (PC τ L K V)) : Prop where
  locks : ∀ t a i, sectionOf (c.pc t) = some (a, i) →
    a = c.shared.mLocks ∧ (c.shared.locks a).length = c.shared.mBuckets.length
  bucket : ∀ t j, bucketOf mHasher c.shared (c.pc t) = some j →
    ∃ a, sectionOf (c.pc t) = some (a, j)
  apart : ∀ t u a b i j, t ≠ u → sectionOf (c.pc t) = some (a, i) →
    sectionOf (c.pc u) = some (b, j) → i ≠ j
  rehash : ∀ t a i, sectionOf (c.pc t) = some (a, i) → ∀ u, replaces (c.pc u) = false

omit [DecidableEq τ] [DecidableEq L] in
theorem Placed.critical (h : Placed mHasher g s t p) (hs : sectionOf p = some (a, i)) :
    Critical g s t a i := by
  unfold sectionOf at hs
  split at hs <;> cases hs
  · exact h.1
  · exact h.1
  · exact h.1.1
  all_goals exact h

omit [DecidableEq τ] [DecidableEq L] in
theorem Placed.alone (h : Placed mHasher g s t p) (hr : replaces p = true) :
    ∃ a, Alone g s t a := by
  unfold replaces at hr
  split at hr
  · exact ⟨_, h.1⟩
  · exact ⟨_, h.1⟩
  · exact ⟨_, h.1⟩
  · exact ⟨_, h.1⟩
  · cases hr

omit [DecidableEq τ] [DecidableEq L] in
theorem Placed.bucket (h : Placed mHasher g s t p) (hb : bucketOf mHasher s p = some i) :
    ∃ a, sectionOf p = some (a, i) := by
  unfold bucketOf at hb
  split at hb <;> cases hb
  · exact ⟨_, congrArg (fun j => some (_, j)) h.2⟩
  · exact ⟨_, congrArg (fun j => some (_, j)) h.2.1.symm⟩

/-- What a step adds to the history, and what it leaves of its own call. -/
structure Tells (act : Act L K V) (s s' : Shared τ L K V) (p p' : PC τ L K V) : Prop where
  history : s'.history = s.history ++ commit s p
  calls : awaited p ++ begun act p = (commit s p).map Prod.fst ++ awaited p'
  results : unreturned p ++ (commit s p).map Prod.snd = answer p ++ unreturned p'

omit [DecidableEq K] in
theorem domainStep_history (hs : s.domainStep t ok fr = some (s', fr')) :
    s'.history = s.history := by
  revert hs
  unfold Shared.domainStep
  split <;> rintro ⟨⟩ <;> rfl

omit [DecidableEq K] in
theorem nextAcquire_tells (hn : nextAcquire mHasher t act s p = some (s', p')) :
    Tells act s s' p p' := by
  revert hn
  fun_cases nextAcquire mHasher t act s p <;> intro hn <;> cases hn <;>
    exact ⟨(List.append_nil _).symm, rfl, rfl⟩

omit [DecidableEq τ] in
theorem nextSection_tells (hn : nextSection mHasher act s p = some (s', p')) :
    Tells act s s' p p' := by
  revert hn
  fun_cases nextSection mHasher act s p <;> intro hn <;> cases hn <;>
    first | exact ⟨(List.append_nil _).symm, rfl, rfl⟩ | exact ⟨rfl, rfl, rfl⟩

omit [DecidableEq K] in
theorem nextRehash_tells (hn : nextRehash mHasher t act s p = some (s', p')) :
    Tells act s s' p p' := by
  revert hn
  fun_cases nextRehash mHasher t act s p <;> intro hn <;> cases hn
  case case22 hs => exact ⟨(domainStep_history hs).trans (List.append_nil _).symm, rfl, rfl⟩
  all_goals exact ⟨(List.append_nil _).symm, rfl, rfl⟩

theorem next_tells (hn : next mHasher t act s p = some (s', p')) : Tells act s s' p p' := by
  revert hn
  fun_cases next mHasher t act s p <;> intro hn
  case case3 hs =>
    cases hn
    exact ⟨(domainStep_history hs).trans (List.append_nil _).symm, rfl, rfl⟩
  case case6 hs =>
    cases hn
    exact nextAcquire_tells hs
  case case7 hs =>
    cases hn
    exact nextSection_tells hs
  case case8 => exact nextRehash_tells hn
  all_goals cases hn
  all_goals exact ⟨(List.append_nil _).symm, rfl, rfl⟩

section Runs

variable {n k : ℕ} (r : (system (τ := τ) (L := L) (V := V) mHasher).Run (fun _ _ => True) n)

def called (k : ℕ) : List (τ × Op K V) := r.log (fun c l => (begun l.2 (c.pc l.1)).map (l.1, ·)) k

/-- The calls in the order of their work on the buckets, with their results. -/
def performed (k : ℕ) : List (τ × Op K V × Option V) :=
  r.log (fun c l => (commit c.shared (c.pc l.1)).map (l.1, ·)) k

def returned (k : ℕ) : List (τ × Option V) := r.log (fun c l => (answer (c.pc l.1)).map (l.1, ·)) k

/-- The calls have, in the order of their critical sections, the results they have on a finite map,
which is the one the buckets stand for, and return these. -/
structure Linearized (k : ℕ) : Prop where
  history : (performed r k).map Prod.snd = (r.state k).shared.history
  explained : Explained (r.state k).shared.history (Table.get mHasher (r.state k).shared.mBuckets)
  answered : Answered (called r k) (performed r k) (returned r k)
    (fun t => awaited ((r.state k).pc t)) (fun t => unreturned ((r.state k).pc t))

variable {r}

theorem history_run (hk : k ≤ n) : (performed r k).map Prod.snd = (r.state k).shared.history := by
  unfold performed
  rw [System.Run.map_snd_log]
  induction k with
  | zero =>
    obtain ⟨⟨a, m, -, hs⟩, -⟩ := r.init
    rw [hs]
    rfl
  | succ k ih =>
    rw [System.Run.log_succ, ih (by omega), (next_tells (Program.run_step r hk).1).history]

theorem answered_run (hk : k ≤ n) : Answered (called r k) (performed r k) (returned r k)
    (fun t => awaited ((r.state k).pc t)) (fun t => unreturned ((r.state k).pc t)) :=
  Program.answered r ⟨rfl, rfl⟩ (fun _ hi => (next_tells (Program.run_step r hi).1).calls)
    (fun _ hi => (next_tells (Program.run_step r hi).1).results) hk

/-- The hash map is linearizable: in every state of a run the critical sections are apart from each
other and from a rehash, and the calls so far are those of a finite map. -/
theorem linearizable (r : (system (τ := τ) (L := L) (V := V) mHasher).Run (fun _ _ => True) n)
    (hk : k ≤ n) : Isolated mHasher (r.state k) ∧ Linearized r k := by
  obtain ⟨g, hG, -, hp⟩ := sound_reach (r.reach hk)
  refine ⟨⟨fun t a i ht => ?_, fun t j => (hp t).bucket, fun t u a b i j htu ht hu hij => ?_,
    fun t a i ht u => ?_⟩, history_run hk, hG.explained, answered_run hk⟩
  · have hC := (hp t).critical ht
    exact ⟨hC.1, (hG.section_length hC).1⟩
  · obtain ⟨rfl, h1, -⟩ := (hp t).critical ht
    obtain ⟨rfl, h2, -⟩ := (hp u).critical hu
    unfold Holds at h1 h2
    rw [hij, h2] at h1
    exact htu (Option.some.inj (Option.some.inj h1)).symm
  · rw [← Bool.not_eq_true]
    intro hr
    obtain ⟨rfl, h1, h2⟩ := (hp t).critical ht
    obtain ⟨b, -, -, h3⟩ := (hp u).alone hr
    have hlt := (List.getElem?_eq_some_iff.1 h1).1
    omega

end Runs

/-- Thread 1 is about to return from a `find` of what thread 0 has added. -/
theorem linearizable_find : ∃ (n : ℕ)
    (r : (system (τ := Fin 2) (L := ℕ) (V := ℕ) (id : ℕ → ℕ)).Run (fun _ _ => True) n),
    (r.state n).pc 1 = .returned (some 8) ∧
      (r.state n).shared.history = [(.addOrUpdate 3 8, none), (.find 3, some 8)] ∧
      Isolated id (r.state n) ∧ Linearized r n := by
  let run (t : Fin 2) (n : ℕ) : List (Fin 2 × Act ℕ ℕ ℕ) := List.replicate n (t, .run true)
  let as := run 0 4 ++ run 1 4 ++ (0, .call (.addOrUpdate 3 8)) :: run 0 13 ++
    (1, .call (.find 3)) :: run 1 11
  have hex : ∃ c : Conf (Fin 2) (Shared (Fin 2) ℕ ℕ ℕ) (PC (Fin 2) ℕ ℕ ℕ),
      (system id).exec ⟨initial 0 2, fun _ => .domain .unstarted⟩ as = some c ∧
        c.pc 1 = .returned (some 8) ∧
          c.shared.history = [(.addOrUpdate 3 8, none), (.find 3, some 8)] := ⟨_, rfl, rfl, rfl⟩
  obtain ⟨c, hc, h1, h2⟩ := hex
  obtain ⟨r, rfl⟩ := System.exists_run_of_exec (S := system id) (0, .run true)
    ⟨⟨0, 2, by decide, rfl⟩, rfl⟩ hc
  exact ⟨as.length, r, h1, h2, linearizable r le_rfl⟩

end RefinableThreadSafeHashmap

end ConcurrencySandbox

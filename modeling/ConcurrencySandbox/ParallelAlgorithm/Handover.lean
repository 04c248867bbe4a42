import ConcurrencySandbox.Interleaving.Count
import ConcurrencySandbox.Interleaving.Termination
import ConcurrencySandbox.ParallelAlgorithm.PartialSum

/-!
# What the blocks hand to each other

A run of `parallel_partial_sum` in which no `+=` of the last loop throws in a thread, and the caller
leaves `process` only when every thread has given its result to the next block, has a fixed
order: a thread has a value for the next block only when it got one from the block before, so
what the caller gets tells of all of them.
-/

namespace ConcurrencySandbox

open Interleaving

namespace ParallelPartialSum

variable {α ε : Type*} {n : ℕ}

/-- Block `t` has given its result to the next one. -/
def Place.delivered : Place α ε → Bool
  | .fix _ _ | .done _ | .ended _ => true
  | _ => false

/-- Block `t` has gone on with what it got from the block before. -/
def Place.received : Place α ε → Bool
  | .addLast _ | .setValue _ | .fix _ _ => true
  | _ => false

/-- The thread has returned from `process`. -/
def Place.returned : Place α ε → Bool
  | .done none | .dropFutures none | .join none _ | .ended none => true
  | _ => false

/-- The exception that the thread is leaving with. -/
def Place.exception : Place α ε → Option (Exn ε)
  | .handler e => some e
  | .done r | .dropFutures r | .join r _ | .ended r => r
  | _ => none

/-- `promises` has been destroyed when the caller is there. -/
def Place.left : Place α ε → Bool
  | .dropFutures _ | .join _ _ | .ended _ => true
  | _ => false

/-- `futures` has been destroyed when the caller is there. -/
def Place.joining : Place α ε → Bool
  | .join _ _ | .ended _ => true
  | _ => false

/-- A thread that is not the caller can be there. -/
def Place.OfThread : Place α ε → Prop
  | .launch _ | .dropFutures _ | .join _ _ => False
  | .done r | .ended r => r = none
  | _ => True

/-- The thread is in the last loop of `process`. -/
def Place.fixing : Place α ε → Bool
  | .fix _ _ => true
  | _ => false

/-- The thread has just left `process`. -/
def Place.leaving : Place α ε → Bool
  | .done _ => true
  | _ => false

variable (b : Blocks n)

/-- The caller's thread. -/
def Blocks.caller : Fin b.numThreads := ⟨b.numThreads - 1, Nat.sub_lt b.numThreads_pos Nat.one_pos⟩

/-- No exception leaves a thread from the last loop, and the caller leaves `process` when every
thread has given its result to the next block. -/
def Contained (c : Conf (Fin b.numThreads) (State α ε) (Place α ε)) :
    Fin b.numThreads × Act ε → Prop
  | (t, .throw _) => (c.pc t).fixing = true → ¬ (t : ℕ) + 1 < b.numThreads
  | (t, .run) => (c.pc t).leaving = true → (t : ℕ) + 1 < b.numThreads ∨
      ∀ u : Fin b.numThreads, (u : ℕ) + 1 < b.numThreads → (c.pc u).delivered = true

instance (c : Conf (Fin b.numThreads) (State α ε) (Place α ε)) :
    ∀ l, Decidable (Contained b c l)
  | (_, .throw _) | (_, .run) => inferInstanceAs (Decidable (_ → _))

/-- Every thread is inside its own block. -/
def Inside (t : ℕ) : Place α ε → Prop
  | .sum it => b.first t < it ∧ it ≤ b.last t + 1
  | .get | .addLast _ => 0 < t
  | .fix _ it => 0 < t ∧ b.first t ≤ it ∧ it ≤ b.last t
  | _ => True

/-- The exception is one that a `+=` has thrown. -/
def State.Threw (s : State α ε) (e : Exn ε) : Prop := ∃ x ∈ s.thrown, e = .thrown x

/-- The value of block `t` is there for the next one. -/
def State.Passed (s : State α ε) (t : ℕ) : Prop := ∃ v, s.results t = some (.ok v)

/-- What is known of any thread. -/
structure Known (s : State α ε) (t : ℕ) (p : Place α ε) : Prop where
  inside : Inside b t p
  received : p.received = true → 0 < t → s.Passed (t - 1)
  threw : ∀ e, p.exception = some e → s.Threw e

/-- What is known of thread `t`, not the caller. -/
structure Worker (s : State α ε) (t : ℕ) (p : Place α ε) : Prop where
  delivered : p.delivered = (s.results t).isSome
  finished : s.finished t = true ↔ p = .ended none
  started : p ≠ .unstarted → t < s.threads
  place : p.OfThread
  passed : s.Passed t → 0 < t → s.Passed (t - 1)
  threw : ∀ e, s.results t = some (.error e) → s.Threw e

/-- The threads started when the caller is there. -/
def Launched (s : State α ε) : Place α ε → Prop
  | .unstarted => s.threads = 0
  | .launch i => s.threads = i ∧ i < b.numThreads
  | _ => s.threads + 1 = b.numThreads

/-- The threads that have ended when the caller is there. -/
def Joined (s : State α ε) : Place α ε → Prop
  | .join _ i => i < b.numThreads ∧ ∀ u < i, s.finished u = true
  | .ended _ => ∀ u, u + 1 < b.numThreads → s.finished u = true
  | _ => True

/-- What is known of the caller. -/
structure Caller (s : State α ε) (t : ℕ) (p : Place α ε) : Prop where
  threads : Launched b s p
  promises : s.promises = !p.left
  futures : s.futures = !p.joining
  results : s.results t = none
  returned : p.returned = true → 0 < t → s.Passed (t - 1)
  dropped : p.left = true → ∀ u, u + 1 < b.numThreads → (s.results u).isSome = true
  joined : Joined b s p

def Role (s : State α ε) (t : ℕ) (p : Place α ε) : Prop :=
  if t + 1 < b.numThreads then Worker s t p else Caller b s t p

/-- The thread is leaving with an exception, or has left one to the next block. -/
def Failing (s : State α ε) (t : ℕ) (p : Place α ε) : Prop :=
  p.exception.isSome = true ∨ ∃ e, s.results t = some (.error e)

structure Sound (c : Conf (Fin b.numThreads) (State α ε) (Place α ε)) : Prop where
  running : c.shared.fate = .running
  known : ∀ t : Fin b.numThreads, Known b c.shared t (c.pc t)
  role : ∀ t : Fin b.numThreads, Role b c.shared t (c.pc t)
  failing : c.shared.thrown ≠ [] → ∃ t : Fin b.numThreads, Failing c.shared t (c.pc t)

/-- What a step of thread `t` leaves alone. -/
structure Frame (s s' : State α ε) (t : ℕ) : Prop where
  running : s'.fate = .running
  results : ∀ u, u ≠ t ∨ (s.results u).isSome = true → s'.results u = s.results u
  finished : ∀ u, u ≠ t ∨ s.finished u = true → s'.finished u = s.finished u
  thrown : s.thrown ⊆ s'.thrown
  threads : s.threads ≤ s'.threads

section Frame

variable {b} {s s' : State α ε} {t u : ℕ} {p p' : Place α ε} {e : Exn ε}

theorem State.Threw.mono (h : s.Threw e) (hs : s.thrown ⊆ s'.thrown) : s'.Threw e := by
  obtain ⟨x, hx, he⟩ := h
  exact ⟨x, hs hx, he⟩

theorem State.Passed.isSome (h : s.Passed u) : (s.results u).isSome = true := by
  obtain ⟨v, hv⟩ := h
  rw [hv, Option.isSome_some]

theorem Frame.passed (h : Frame s s' t) (hp : s.Passed u) : s'.Passed u := by
  obtain ⟨v, hv⟩ := hp
  exact ⟨v, (h.results u (.inr (State.Passed.isSome ⟨v, hv⟩))).trans hv⟩

theorem Frame.known (h : Frame s s' t) (hk : Known b s u p) : Known b s' u p :=
  ⟨hk.inside, fun hr hu => h.passed (hk.received hr hu), fun e he => (hk.threw e he).mono h.thrown⟩

theorem Frame.worker (h : Frame s s' t) (hu : u ≠ t) (hw : Worker s u p) : Worker s' u p := by
  have hr := h.results u (.inl hu)
  refine ⟨hr ▸ hw.delivered, ?_, fun hp => (hw.started hp).trans_le h.threads, hw.place, ?_, ?_⟩
  · rw [h.finished u (.inl hu)]
    exact hw.finished
  · rintro ⟨v, hv⟩ h0
    exact h.passed (hw.passed ⟨v, hr ▸ hv⟩ h0)
  · intro e he
    exact (hw.threw e (hr ▸ he)).mono h.thrown

theorem Frame.caller (h : Frame s s' t) (hu : u ≠ t) (hthreads : s'.threads = s.threads)
    (hpromises : s'.promises = s.promises) (hfutures : s'.futures = s.futures)
    (hc : Caller b s u p) : Caller b s' u p := by
  refine ⟨?_, hpromises.trans hc.promises, hfutures.trans hc.futures, ?_,
    fun hp h0 => h.passed (hc.returned hp h0), ?_, ?_⟩
  · have hl := hc.threads
    cases p <;> simp only [Launched] at hl ⊢ <;> rw [hthreads] <;> exact hl
  · exact (h.results u (.inl hu)).trans hc.results
  · intro hp u hu
    have := hc.dropped hp u hu
    rwa [h.results u (.inr this)]
  · have hj := hc.joined
    have hmono : ∀ u, s.finished u = true → s'.finished u = true := fun u hu =>
      (h.finished u (.inr hu)).trans hu
    cases p with
    | join r i => exact ⟨hj.1, fun u hu => hmono u (hj.2 u hu)⟩
    | ended r => exact fun u hu => hmono u (hj u hu)
    | _ => trivial

theorem Frame.failing (h : Frame s s' t) (hf : Failing s u p) : Failing s' u p := by
  refine hf.imp_right fun ⟨e, he⟩ => ⟨e, ?_⟩
  rw [h.results u (.inr (by rw [he, Option.isSome_some])), he]

end Frame

/-- The thread is in `process`, or has just left it. -/
def Place.busy : Place α ε → Bool
  | .unstarted | .launch _ | .dropFutures _ | .join _ _ | .ended _ => false
  | _ => true

/-- Nothing is changed but the range and what was thrown. -/
structure Same (s s' : State α ε) : Prop where
  fate : s'.fate = s.fate
  results : s'.results = s.results
  finished : s'.finished = s.finished
  threads : s'.threads = s.threads
  promises : s'.promises = s.promises
  futures : s'.futures = s.futures
  thrown : s.thrown ⊆ s'.thrown

/-- A step of thread `t`. -/
structure Moved (s s' : State α ε) (t : ℕ) (p p' : Place α ε) : Prop where
  frame : Frame s s' t
  known : Known b s' t p'
  role : Role b s' t p'
  thrown : s'.thrown = s.thrown ∨ p'.exception.isSome = true
  failing : Failing s t p → Failing s' t p'
  others : t + 1 < b.numThreads →
    s'.threads = s.threads ∧ s'.promises = s.promises ∧ s'.futures = s.futures

section Moved

variable {b} {s s' : State α ε} {t : ℕ} {p p' : Place α ε} {e : Exn ε}

theorem Same.refl (s : State α ε) : Same s s := ⟨rfl, rfl, rfl, rfl, rfl, rfl, fun _ => id⟩

theorem Same.add [Add α] (s : State α ε) (i : ℕ) (v : α) : Same s (s.add i v) :=
  ⟨rfl, rfl, rfl, rfl, rfl, rfl, fun _ => id⟩

theorem Same.raise (s : State α ε) (e : ε) : Same s (s.raise e) :=
  ⟨rfl, rfl, rfl, rfl, rfl, rfl, List.subset_append_left _ _⟩

theorem Same.frame (h : Same s s') (hs : s.fate = .running) : Frame s s' t :=
  ⟨h.fate.trans hs, fun u _ => congrFun h.results u, fun u _ => congrFun h.finished u, h.thrown,
    h.threads.ge⟩

theorem Same.worker (h : Same s s') (hw : Worker s t p) (hp : p.busy = true) (hp' : p'.busy = true)
    (hd : p'.delivered = p.delivered) (ho : p'.OfThread) : Worker s' t p' := by
  refine ⟨?_, ?_, fun _ => ?_, ho, ?_, ?_⟩
  · rw [hd, hw.delivered, h.results]
  · rw [h.finished, hw.finished]
    exact ⟨fun he => absurd (he ▸ hp) nofun, fun he => absurd (he ▸ hp') nofun⟩
  · rw [h.threads]
    exact hw.started fun he => absurd (he ▸ hp) nofun
  · unfold State.Passed
    rw [h.results]
    exact hw.passed
  · rw [h.results]
    exact fun e he => (hw.threw e he).mono h.thrown

theorem Place.busy_left (h : p.busy = true) : p.left = false ∧ p.joining = false := by
  cases p <;> first | exact ⟨rfl, rfl⟩ | cases h

theorem launched_busy (h : p.busy = true) : Launched b s p = (s.threads + 1 = b.numThreads) := by
  cases p <;> first | rfl | cases h

theorem joined_busy (h : p.busy = true) : Joined b s p := by
  cases p <;> trivial

theorem Same.caller (h : Same s s') (hc : Caller b s t p) (hp : p.busy = true)
    (hp' : p'.busy = true)
    (hret : p'.returned = true → 0 < t → s.Passed (t - 1)) : Caller b s' t p' := by
  obtain ⟨hl, hj⟩ := Place.busy_left hp
  obtain ⟨hl', hj'⟩ := Place.busy_left hp'
  refine ⟨?_, ?_, ?_, ?_, ?_, ?_, joined_busy hp'⟩
  · rw [launched_busy hp', h.threads, ← launched_busy hp]
    exact hc.threads
  · rw [h.promises, hc.promises, hl, hl']
  · rw [h.futures, hc.futures, hj, hj']
  · rw [h.results, hc.results]
  · unfold State.Passed
    rw [h.results]
    exact hret
  · rw [hl']
    exact nofun

/-- A step that gives nothing to another thread. -/
theorem Moved.same (h : Same s s') (hs : s.fate = .running) (hr : Role b s t p)
    (hp : p.busy = true) (hp' : p'.busy = true)
    (hd : t + 1 < b.numThreads → p'.delivered = p.delivered ∧ p'.OfThread)
    (hret : p'.returned = true → 0 < t → s.Passed (t - 1)) (hk : Known b s' t p')
    (ht : s'.thrown = s.thrown ∨ p'.exception.isSome = true)
    (he : p.exception.isSome = true → p'.exception.isSome = true) : Moved b s s' t p p' := by
  refine ⟨h.frame hs, hk, ?_, ht, ?_, fun _ => ⟨h.threads, h.promises, h.futures⟩⟩
  · unfold Role at hr ⊢
    split_ifs at hr ⊢ with hlt
    · exact h.worker hr hp hp' (hd hlt).1 (hd hlt).2
    · exact h.caller hr hp hp' hret
  · unfold Failing
    rw [h.results]
    exact Or.imp_left he

theorem Frame.fulfil {r : Except (Exn ε) α} (hs : s.fate = .running) (hn : s.results t = none) :
    Frame s (s.fulfil t r) t := by
  refine ⟨hs, fun u hu => ?_, fun _ _ => rfl, fun _ => id, le_rfl⟩
  refine Function.update_of_ne (hu.elim id fun hsome hut => ?_) _ _
  rw [hut, hn] at hsome
  cases hsome

theorem fulfil_self (s : State α ε) (t : ℕ) (r : Except (Exn ε) α) :
    (s.fulfil t r).results t = some r := Function.update_self _ _ _

/-- A step that gives the result of block `t` to the next one. -/
theorem Moved.fulfil {r : Except (Exn ε) α} (hs : s.fate = .running) (hT : t + 1 < b.numThreads)
    (hn : s.results t = none) (hw : Worker s t p) (hp : p.busy = true) (hp' : p'.busy = true)
    (hd : p'.delivered = true) (ho : p'.OfThread) (hk : Known b (s.fulfil t r) t p')
    (hpassed : (∃ v, r = .ok v) → 0 < t → s.Passed (t - 1)) (hthrew : ∀ e, r = .error e → s.Threw e)
    (hf : p.exception.isSome = true → ∃ e, r = .error e) : Moved b s (s.fulfil t r) t p p' := by
  have hself := fulfil_self s t r
  refine ⟨.fulfil hs hn, hk, ?_, .inl rfl, ?_, fun _ => ⟨rfl, rfl, rfl⟩⟩
  · rw [Role, if_pos hT]
    refine ⟨by rw [hd, hself, Option.isSome_some], ?_, fun _ => ?_, ho, ?_, ?_⟩
    · refine hw.finished.trans ⟨fun he => absurd (he ▸ hp) nofun, fun he => absurd (he ▸ hp') nofun⟩
    · exact hw.started fun he => absurd (he ▸ hp) nofun
    · rintro ⟨v, hv⟩ h0
      rw [hself, Option.some.injEq] at hv
      exact (Frame.fulfil hs hn).passed (hpassed ⟨v, hv⟩ h0)
    · intro e he
      rw [hself, Option.some.injEq] at he
      exact (hthrew e he).mono fun _ => id
  · rintro (h | ⟨e, he⟩)
    · obtain ⟨e, rfl⟩ := hf h
      exact .inr ⟨e, hself⟩
    · rw [hn] at he
      cases he

theorem afterValue_busy (b : Blocks n) (t : ℕ) (v : α) :
    (afterValue b t v : Place α ε).busy = true ∧ (afterValue b t v : Place α ε).delivered = true ∧
      (afterValue b t v : Place α ε).OfThread ∧
      (afterValue b t v : Place α ε).exception = none := by
  unfold afterValue
  split_ifs <;> exact ⟨rfl, rfl, by trivial, rfl⟩

theorem afterValue_inside (hT : t < b.numThreads) (v : α) :
    Inside b t (afterValue b t v : Place α ε) := by
  unfold afterValue
  split_ifs with h0
  · trivial
  · exact ⟨by omega, le_rfl, b.first_le_last hT⟩

section Process

variable [Add α] [Inhabited α] {act : Act ε}

theorem process_moved (hs : s.fate = .running) (hT : t < b.numThreads) (hk : Known b s t p)
    (hr : Role b s t p) (halive : p.delivered = false → p.busy = true →
      s.promises = true ∧ s.futures = true)
    (herror : 0 < t → ∀ e, s.results (t - 1) = some (.error e) → s.Threw e)
    (hcontained : ∀ e, act = .throw e → p.fixing = true → ¬ t + 1 < b.numThreads)
    (hn : process b t act s p = some (s', p')) : Moved b s s' t p p' := by
  have hnone : t + 1 < b.numThreads → p.delivered = false → s.results t = none := by
    intro hlt hd
    rw [Role, if_pos hlt] at hr
    exact Option.isNone_iff_eq_none.1 (by rw [← Option.not_isSome, ← hr.delivered, hd]; rfl)
  have hraise : ∀ e, (s.raise e).Threw (.thrown e) := fun e =>
    ⟨e, List.mem_append_right _ (List.mem_singleton_self e), rfl⟩
  revert hn
  fun_cases process b t act s p <;> intro hn <;> cases hn
  case case1 it hit =>
    obtain ⟨h1, h2⟩ := hk.inside
    exact .same (.add s it _) hs hr rfl rfl (fun _ => ⟨rfl, trivial⟩) nofun
      ⟨⟨by omega, by omega⟩, nofun, nofun⟩ (.inl rfl) nofun
  case case2 it hit e =>
    refine .same (.raise s e) hs hr rfl rfl (fun _ => ⟨rfl, trivial⟩) nofun
      ⟨trivial, nofun, ?_⟩ (.inr rfl) nofun
    rintro _ ⟨⟩
    exact hraise e
  case case3 it hit =>
    split_ifs with h0
    · exact .same (.refl s) hs hr rfl rfl (fun _ => ⟨rfl, trivial⟩) nofun
        ⟨trivial, fun _ h => absurd h0 h.ne', nofun⟩ (.inl rfl) nofun
    · exact .same (.refl s) hs hr rfl rfl (fun _ => ⟨rfl, trivial⟩) nofun
        ⟨Nat.pos_of_ne_zero h0, nofun, nofun⟩ (.inl rfl) nofun
  case case5 _ v hv =>
    exact .same (.refl s) hs hr rfl rfl (fun _ => ⟨rfl, trivial⟩) nofun
      ⟨hk.inside, fun _ _ => ⟨v, hv⟩, nofun⟩ (.inl rfl) nofun
  case case6 _ e he =>
    refine .same (.refl s) hs hr rfl rfl (fun _ => ⟨rfl, trivial⟩) nofun
      ⟨trivial, nofun, ?_⟩ (.inl rfl) nofun
    rintro _ ⟨⟩
    exact herror hk.inside e he
  case case8 hfut => exact absurd (halive rfl rfl).2 hfut
  case case10 v =>
    exact .same (.add s _ v) hs hr rfl rfl (fun _ => ⟨rfl, trivial⟩) nofun
      ⟨trivial, fun _ => hk.received rfl, nofun⟩ (.inl rfl) nofun
  case case11 v e =>
    refine .same (.raise s e) hs hr rfl rfl (fun _ => ⟨rfl, trivial⟩) nofun
      ⟨trivial, nofun, ?_⟩ (.inr rfl) nofun
    rintro _ ⟨⟩
    exact hraise e
  case case12 v hlt hprom hres =>
    obtain ⟨h1, h2, h3, h4⟩ := afterValue_busy (ε := ε) b t v
    have hw := hr
    rw [Role, if_pos hlt] at hw
    refine .fulfil hs hlt hres hw rfl h1 h2 h3 ⟨afterValue_inside hT v, fun _ h0 => ?_, ?_⟩
      (fun _ => hk.received rfl) nofun nofun
    · exact (Frame.fulfil hs hres).passed (hk.received rfl h0)
    · rw [h4]
      exact nofun
  case case13 hlt hprom hres => exact absurd (hnone hlt rfl) hres
  case case14 hlt hprom => exact absurd (halive rfl rfl).1 hprom
  case case15 v hlt =>
    obtain ⟨h1, h2, h3, h4⟩ := afterValue_busy (ε := ε) b t v
    exact .same (.refl s) hs hr rfl h1 (fun h => absurd h hlt) (fun _ => hk.received rfl)
      ⟨afterValue_inside hT v, fun _ => hk.received rfl, by rw [h4]; exact nofun⟩ (.inl rfl) nofun
  case case17 v it hit =>
    obtain ⟨h0, h1, h2⟩ := hk.inside
    exact .same (.add s it v) hs hr rfl rfl (fun _ => ⟨rfl, trivial⟩) nofun
      ⟨⟨h0, by omega, by omega⟩, fun _ => hk.received rfl, nofun⟩ (.inl rfl) nofun
  case case18 v it hit e =>
    refine .same (.raise s e) hs hr rfl rfl (fun h => absurd h (hcontained e rfl rfl))
      nofun ⟨trivial, nofun, ?_⟩ (.inr rfl) nofun
    rintro _ ⟨⟩
    exact hraise e
  case case19 v it hit =>
    exact .same (.refl s) hs hr rfl rfl (fun _ => ⟨rfl, rfl⟩)
      (fun _ => hk.received rfl) ⟨trivial, nofun, nofun⟩ (.inl rfl) nofun
  case case21 e hlt hprom hres =>
    have hw := hr
    rw [Role, if_pos hlt] at hw
    exact .fulfil hs hlt hres hw rfl rfl rfl rfl ⟨trivial, nofun, nofun⟩ nofun
      (fun e' he' => by cases he'; exact hk.threw e rfl) (fun _ => ⟨e, rfl⟩)
  case case22 e hlt hprom hres => exact absurd (hnone hlt rfl) hres
  case case23 e hlt hprom => exact absurd (halive rfl rfl).1 hprom
  case case24 e hlt =>
    exact .same (.refl s) hs hr rfl rfl (fun h => absurd h hlt) nofun
      ⟨trivial, nofun, fun e' he' => hk.threw e' he'⟩ (.inl rfl) (fun _ => rfl)

end Process

theorem thread_moved (hs : s.fate = .running) (hlt : t + 1 < b.numThreads) (hw : Worker s t p)
    (hn : thread b t s p = some (s', p')) : Moved b s s' t p p' := by
  revert hn
  fun_cases thread b t s p <;> intro hn <;> cases hn
  case case1 ht =>
    refine ⟨(Same.refl s).frame hs, ⟨⟨by omega, ?_⟩, nofun, nofun⟩, ?_, .inl rfl, Or.imp_left nofun,
      fun _ => ⟨rfl, rfl, rfl⟩⟩
    · have := b.first_le_last (t := t) (by omega)
      omega
    · rw [Role, if_pos hlt]
      exact ⟨hw.delivered, hw.finished.trans ⟨nofun, nofun⟩, fun _ => ht, trivial, hw.passed,
        hw.threw⟩
  case case3 =>
    refine ⟨⟨hs, fun _ _ => rfl, ?_, fun _ => id, le_rfl⟩, ⟨trivial, nofun, nofun⟩, ?_, .inl rfl,
      Or.imp_left nofun, fun _ => ⟨rfl, rfl, rfl⟩⟩
    · rintro u (hu | hu)
      · exact Function.update_of_ne hu _ _
      · by_cases hut : u = t
        · subst hut
          exact (Function.update_self _ _ _).trans hu.symm
        · exact Function.update_of_ne hut _ _
    · rw [Role, if_pos hlt]
      exact ⟨hw.delivered, ⟨fun _ => rfl, fun _ => Function.update_self _ _ _⟩,
        fun _ => hw.started nofun, rfl, hw.passed, hw.threw⟩
  case case4 e => cases hw.place

theorem dropPromises_results (h : ∀ u, u + 1 < b.numThreads → (s.results u).isSome = true) :
    (s.dropPromises (b.numThreads - 1)).results = s.results := by
  refine funext fun u => if_neg fun ⟨hu, hn⟩ => ?_
  have := h u (by omega)
  rw [hn] at this
  cases this

theorem Caller.returned_of_eq (hc : Caller b s t p) (hp : p'.returned = p.returned)
    (h : p'.returned = true) : 0 < t → s.Passed (t - 1) := hc.returned (hp ▸ h)

theorem caller_moved (hs : s.fate = .running) (hT : t < b.numThreads) (hlt : ¬ t + 1 < b.numThreads)
    (hk : Known b s t p) (hc : Caller b s t p)
    (hleave : ∀ r, p = .done r → ∀ u, u + 1 < b.numThreads → (s.results u).isSome = true)
    (hn : caller b t s p = some (s', p')) : Moved b s s' t p p' := by
  have hrole : Role b s' t p' ↔ Caller b s' t p' := by rw [Role, if_neg hlt]
  revert hn hrole
  fun_cases caller b t s p <;> intro hn hrole <;> cases hn
  case case1 =>
    refine ⟨(Same.refl s).frame hs, ⟨trivial, nofun, nofun⟩, hrole.2 ?_,
      .inl rfl, Or.imp_left nofun,
      fun h => absurd h hlt⟩
    exact ⟨⟨hc.threads, b.numThreads_pos⟩, hc.promises, hc.futures, hc.results,
      nofun, nofun, trivial⟩
  case case2 i hi =>
    refine ⟨⟨hs, fun _ _ => rfl, fun _ _ => rfl, fun _ => id, ?_⟩, ⟨trivial, nofun, nofun⟩,
      hrole.2 ?_, .inl rfl, Or.imp_left nofun, fun h => absurd h hlt⟩
    · exact hc.threads.1.le.trans (Nat.le_succ i)
    · exact ⟨⟨rfl, hi⟩, hc.promises, hc.futures, hc.results, nofun, nofun, trivial⟩
  case case3 i hi =>
    have hle := b.first_le_last hT
    refine ⟨(Same.refl s).frame hs, ⟨⟨by omega, by omega⟩, nofun, nofun⟩, hrole.2 ?_, .inl rfl,
      Or.imp_left nofun, fun h => absurd h hlt⟩
    obtain ⟨h1, h2⟩ := hc.threads
    exact ⟨by unfold Launched; omega, hc.promises, hc.futures, hc.results, nofun, nofun, trivial⟩
  case case4 r =>
    have hall := hleave r rfl
    have hres := dropPromises_results hall
    refine ⟨⟨hs, fun u _ => congrFun hres u, fun _ _ => rfl, fun _ => id, le_rfl⟩,
      ⟨trivial, nofun, hk.threw⟩, hrole.2 ?_, .inl rfl, ?_, fun h => absurd h hlt⟩
    · refine ⟨hc.threads, rfl, hc.futures, ?_, ?_, ?_, trivial⟩
      · rw [hres]
        exact hc.results
      · unfold State.Passed
        rw [hres]
        exact hc.returned_of_eq (by cases r <;> rfl)
      · rw [hres]
        exact fun _ => hall
    · unfold Failing
      rw [hres]
      exact id
  case case5 r =>
    refine ⟨⟨hs, fun _ _ => rfl, fun _ _ => rfl, fun _ => id, le_rfl⟩, ⟨trivial, nofun, hk.threw⟩,
      hrole.2 ?_, .inl rfl, id, fun h => absurd h hlt⟩
    exact ⟨hc.threads, hc.promises, rfl, hc.results, hc.returned_of_eq (by cases r <;> rfl),
      fun _ => hc.dropped rfl, b.numThreads_pos, nofun⟩
  case case6 r i hi hfin =>
    obtain ⟨-, hj⟩ := hc.joined
    refine ⟨(Same.refl s).frame hs, ⟨trivial, nofun, hk.threw⟩, hrole.2 ?_, .inl rfl, id,
      fun h => absurd h hlt⟩
    refine ⟨hc.threads, hc.promises, hc.futures, hc.results,
      hc.returned_of_eq (by cases r <;> rfl), fun _ => hc.dropped rfl, hi, fun u hu => ?_⟩
    rcases Nat.lt_succ_iff_lt_or_eq.1 hu with h | rfl
    · exact hj u h
    · exact hfin
  case case8 r i hi =>
    obtain ⟨-, hj⟩ := hc.joined
    refine ⟨(Same.refl s).frame hs, ⟨trivial, nofun, hk.threw⟩, hrole.2 ?_, .inl rfl, id,
      fun h => absurd h hlt⟩
    exact ⟨hc.threads, hc.promises, hc.futures, hc.results,
      hc.returned_of_eq (by cases r <;> rfl), fun _ => hc.dropped rfl, fun u hu => hj u (by omega)⟩

end Moved

section Sound

variable {b} {c c' : Conf (Fin b.numThreads) (State α ε) (Place α ε)} {s' : State α ε}
  {p' : Place α ε} {act : Act ε} {t : Fin b.numThreads}

theorem caller_not_lt (b : Blocks n) : ¬ (b.caller : ℕ) + 1 < b.numThreads := by
  have : (b.caller : ℕ) = b.numThreads - 1 := rfl
  omega

theorem eq_caller (h : ¬ (t : ℕ) + 1 < b.numThreads) : t = b.caller :=
  Fin.ext (show (t : ℕ) = b.numThreads - 1 by omega)

theorem Sound.worker (hS : Sound b c) (h : (t : ℕ) + 1 < b.numThreads) :
    Worker c.shared t (c.pc t) := by
  have := hS.role t
  rwa [Role, if_pos h] at this

theorem Sound.caller (hS : Sound b c) : Caller b c.shared b.caller (c.pc b.caller) := by
  have := hS.role b.caller
  rwa [Role, if_neg (caller_not_lt b)] at this

theorem Sound.alive (hS : Sound b c) (hd : (c.pc t).delivered = false) (hb : (c.pc t).busy = true) :
    c.shared.promises = true ∧ c.shared.futures = true := by
  have hC := hS.caller
  have hleft : (c.pc b.caller).left = false := by
    by_cases hlt : (t : ℕ) + 1 < b.numThreads
    · by_contra hleft
      have hsome := hC.dropped (Bool.eq_true_of_not_eq_false hleft) t hlt
      rw [← (hS.worker hlt).delivered, hd] at hsome
      cases hsome
    · rw [← eq_caller hlt]
      exact (Place.busy_left hb).1
  have hjoining : (c.pc b.caller).joining = false := by
    revert hleft
    cases c.pc b.caller <;> first | exact fun _ => rfl | exact nofun
  rw [hC.promises, hC.futures, hleft, hjoining]
  exact ⟨rfl, rfl⟩

theorem Sound.error (hS : Sound b c) (h0 : 0 < (t : ℕ)) {e : Exn ε}
    (he : c.shared.results (t - 1) = some (.error e)) : c.shared.Threw e := by
  have ht := t.isLt
  exact (hS.worker (t := ⟨t - 1, by omega⟩) (show (t : ℕ) - 1 + 1 < b.numThreads by omega)).threw e
    he

theorem sound_init (b : Blocks n) (a : ℕ → α) :
    Sound (ε := ε) b ⟨initial a, fun _ => .unstarted⟩ := by
  refine ⟨rfl, fun t => ⟨trivial, nofun, nofun⟩, fun t => ?_, fun h => absurd rfl h⟩
  unfold Role
  split_ifs
  · refine ⟨rfl, ⟨nofun, nofun⟩, fun h => absurd rfl h, trivial, ?_, nofun⟩
    rintro ⟨v, hv⟩
    cases hv
  · exact ⟨rfl, rfl, rfl, rfl, nofun, nofun, trivial⟩

theorem sound_step (hS : Sound b c) (hM : Moved b c.shared s' t (c.pc t) p') :
    Sound b ⟨s', Function.update c.pc t p'⟩ := by
  have hne : ∀ u, u ≠ t → (u : ℕ) ≠ t := fun u hu h => hu (Fin.ext h)
  refine ⟨hM.frame.running, ?_, ?_, fun h => ?_⟩
  · exact Program.forall_update hM.known fun u hu => hM.frame.known (hS.known u)
  · refine Program.forall_update hM.role fun u hu => ?_
    have hr := hS.role u
    unfold Role at hr ⊢
    split_ifs at hr ⊢ with hlt
    · exact hM.frame.worker (hne u hu) hr
    · by_cases ht : (t : ℕ) + 1 < b.numThreads
      · obtain ⟨h1, h2, h3⟩ := hM.others ht
        exact hM.frame.caller (hne u hu) h1 h2 h3 hr
      · exact absurd ((eq_caller hlt).trans (eq_caller ht).symm) hu
  · have failing : ∀ u : Fin b.numThreads, Failing c.shared u (c.pc u) →
        Failing s' u (Function.update c.pc t p' u) := fun u hu => by
      by_cases hut : u = t
      · subst hut
        rw [Function.update_self]
        exact hM.failing hu
      · rw [Function.update_of_ne hut]
        exact hM.frame.failing hu
    rcases hM.thrown with hsame | hexc
    · obtain ⟨u, hu⟩ := hS.failing (hsame ▸ h)
      exact ⟨u, failing u hu⟩
    · exact ⟨t, .inl (by simpa using hexc)⟩

variable [Add α] [Inhabited α]

theorem next_moved (hS : Sound b c) (hC : Contained b c (t, act))
    (hn : next b t act c.shared (c.pc t) = some (s', p')) :
    Moved b c.shared s' t (c.pc t) p' := by
  unfold next at hn
  rw [if_pos hS.running] at hn
  split at hn
  · rename_i r hp
    cases hn
    refine process_moved hS.running t.isLt (hS.known t)
      (hS.role t) hS.alive (fun h0 e => hS.error h0)
      ?_ hp
    rintro e rfl
    exact hC
  · cases hn
  · split_ifs at hn with hlt
    · exact thread_moved hS.running hlt (hS.worker hlt) hn
    · cases eq_caller hlt
      refine caller_moved hS.running b.caller.isLt hlt
        (hS.known _) hS.caller (fun r hr u hu => ?_) hn
      have hw := hS.worker (t := ⟨u, by omega⟩) hu
      exact hw.delivered ▸ (hC (by rw [hr]; rfl)).resolve_left hlt ⟨u, by omega⟩ hu

theorem sound_reach {a : ℕ → α} (h : (system (ε := ε) b a).Reach (Contained b) c) : Sound b c := by
  refine h.induct (P := Sound b) ?_ ?_
  · rintro ⟨s, f⟩ ⟨rfl, rfl⟩
    exact sound_init b a
  · rintro c ⟨t, act⟩ c' - hS hC hst
    obtain ⟨s', p', hn, rfl⟩ := Program.step_eq_some.1 hst
    exact sound_step hS (next_moved hS hC hn)

omit [Inhabited α] [Add α] in
theorem Sound.ofThread (hS : Sound b c) (h : ¬ (c.pc t).OfThread) : ¬ (t : ℕ) + 1 < b.numThreads :=
  fun hlt => h (hS.worker hlt).place

/-- What a thread that cannot move waits for. -/
theorem next_waits (hS : Sound b c) (hn : next b t .run c.shared (c.pc t) = none) :
    (c.pc t = .get ∧ c.shared.results (t - 1) = none) ∨
      (c.pc t = .unstarted ∧ (t : ℕ) + 1 < b.numThreads ∧ c.shared.threads ≤ t) ∨
      (∃ r i, c.pc t = .join r i ∧ i + 1 < b.numThreads ∧ c.shared.finished i = false) ∨
      ∃ r, c.pc t = .ended r := by
  have hcaller := hS.ofThread (t := t)
  unfold next at hn
  rw [if_pos hS.running] at hn
  split at hn
  · cases hn
  · rename_i h
    cases h
  rename_i hp _
  generalize c.pc t = p at *
  cases p with
  | unstarted =>
    simp only [thread, caller] at hn
    split_ifs at hn with hlt h
    exact .inr (.inl ⟨rfl, hlt, Nat.le_of_not_lt h⟩)
  | launch i =>
    rw [if_neg (hcaller id)] at hn
    simp only [caller] at hn
    split_ifs at hn
  | get =>
    simp only [process] at hp
    split_ifs at hp
    split at hp
    · cases hp
    · cases hp
    · rename_i hres
      exact .inl ⟨rfl, hres⟩
  | done r =>
    split_ifs at hn
    · cases r <;> cases hn
    · cases hn
  | dropFutures r =>
    rw [if_neg (hcaller id)] at hn
    cases hn
  | join r i =>
    rw [if_neg (hcaller id)] at hn
    simp only [caller] at hn
    split_ifs at hn with hi hfin
    exact .inr (.inr (.inl ⟨r, i, rfl, hi, Bool.eq_false_of_not_eq_true hfin⟩))
  | ended r => exact .inr (.inr (.inr ⟨r, rfl⟩))
  | addLast v => cases hp
  | sum it | setValue v | fix v it | handler e =>
    simp only [process] at hp
    split_ifs at hp

/-- A thread can move until the call ends. -/
theorem exists_next (hS : Sound b c) (hend : ∀ r, c.pc b.caller ≠ .ended r) :
    ∃ t, next b t .run c.shared (c.pc t) ≠ none := by
  by_contra hall
  have hnone : ∀ t, next b t .run c.shared (c.pc t) = none := fun t => by
    by_contra h
    exact hall ⟨t, h⟩
  have hC := hS.caller
  rcases next_waits hS (hnone b.caller) with ⟨hp, hres⟩ | ⟨-, hlt, -⟩ |
    ⟨r, i, hp, hi, hfin⟩ | ⟨r, hp⟩
  · -- the blocks before have given their results, one after the other
    have hthreads := hC.threads
    have h0 := (hS.known b.caller).inside
    rw [hp] at hthreads h0
    have hsome : ∀ u, u + 1 < b.numThreads → (c.shared.results u).isSome = true := by
      intro u
      induction u using Nat.strong_induction_on with
      | _ u ih =>
        intro hu
        have hw := hS.worker (t := ⟨u, by omega⟩) hu
        have hin := (hS.known ⟨u, by omega⟩).inside
        rcases next_waits hS (hnone ⟨u, by omega⟩) with ⟨hq, hr⟩ | ⟨-, -, hle⟩ | ⟨r, j, hq, -⟩ |
          ⟨r, hq⟩
        · rw [hq] at hin
          have hprev := ih (u - 1) (Nat.sub_lt hin Nat.one_pos) (by omega)
          rw [show c.shared.results (u - 1) = none from hr] at hprev
          cases hprev
        · exact absurd (show c.shared.threads + 1 = b.numThreads from hthreads)
            (by have : c.shared.threads ≤ u := hle; omega)
        · have hplace := hw.place
          rw [hq] at hplace
          cases hplace
        · rw [← hw.delivered, hq]
          rfl
    have hpos : 0 < (b.caller : ℕ) := h0
    have hlast := hsome (b.caller - 1) (by have := b.caller.isLt; omega)
    rw [hres] at hlast
    cases hlast
  · exact caller_not_lt b hlt
  · have hleft : (c.pc b.caller).left = true := by rw [hp]; rfl
    have hw := hS.worker (t := ⟨i, by omega⟩) hi
    have hd := hC.dropped hleft i hi
    rw [← hw.delivered] at hd
    rcases next_waits hS (hnone ⟨i, by omega⟩) with ⟨hq, -⟩ | ⟨hq, -, -⟩ |
      ⟨r', j, hq, -, -⟩ | ⟨r', hq⟩
    · rw [hq] at hd
      cases hd
    · rw [hq] at hd
      cases hd
    · rw [hq] at hd
      cases hd
    · have hr' := hw.place
      rw [hq] at hr'
      rw [hw.finished.2 (hr' ▸ hq)] at hfin
      cases hfin
  · exact hend r hp

/-- The steps that a thread still has, at most. -/
def weight (b : Blocks n) : Place α ε → ℕ
  | .unstarted => 2 * b.numThreads + 2 * n + 13
  | .launch i => b.numThreads - i + b.numThreads + 2 * n + 11
  | .sum it => n + 1 - it + n + b.numThreads + 9
  | .get => n + b.numThreads + 8
  | .addLast _ => n + b.numThreads + 7
  | .setValue _ => n + b.numThreads + 6
  | .fix _ it => n - it + b.numThreads + 5
  | .handler _ => b.numThreads + 4
  | .done _ => b.numThreads + 3
  | .dropFutures _ => b.numThreads + 2
  | .join _ i => b.numThreads - i + 1
  | .ended _ => 0

theorem process_weight {s : State α ε} {p : Place α ε} (hk : Known b s t p)
    (hn : process b t act s p = some (s', p')) (hs : s'.fate = .running) :
    weight b p' < weight b p := by
  have hlast := b.last_lt t.isLt
  have hafter : ∀ v : α, weight b (afterValue b t v : Place α ε) <
      n + b.numThreads + 6 := fun v => by
    unfold afterValue
    split_ifs
    all_goals
      simp only [weight]
      omega
  have hin := hk.inside
  revert hn
  fun_cases process b t act s p <;> intro hn <;> cases hn
  case case3 =>
    split_ifs
    all_goals
      simp only [weight]
      omega
  case case12 | case15 => exact hafter _
  case case8 | case14 | case23 => cases hs
  all_goals
    simp only [Inside, weight] at *
    omega

omit [Add α] [Inhabited α] in
theorem thread_weight {s : State α ε} {p : Place α ε} (hn : thread b t s p = some (s', p'))
    (ho : p.OfThread) : weight b p' < weight b p := by
  have hlast := b.last_lt t.isLt
  revert hn
  fun_cases thread b t s p <;> intro hn <;> cases hn
  case case4 => cases ho
  all_goals
    simp only [weight]
    omega

omit [Add α] [Inhabited α] in
theorem caller_weight {s : State α ε} {p : Place α ε} (hn : caller b t s p = some (s', p'))
    (hj : Joined b s p) : weight b p' < weight b p := by
  revert hn
  fun_cases caller b t s p <;> intro hn <;> cases hn
  all_goals
    simp only [Joined, weight] at *
    omega

theorem next_weight (hS : Sound b c) (hC : Contained b c (t, act))
    (hn : next b t act c.shared (c.pc t) = some (s', p')) : weight b p' < weight b (c.pc t) := by
  have hs := (next_moved hS hC hn).frame.running
  unfold next at hn
  rw [if_pos hS.running] at hn
  split at hn
  · rename_i hp
    cases hn
    exact process_weight (hS.known t) hp hs
  · cases hn
  · split_ifs at hn with hlt
    · exact thread_weight hn (hS.worker hlt).place
    · cases eq_caller hlt
      exact caller_weight hn hS.caller.joined

/-- Where every step meets `Contained`, every run ends. -/
theorem run_le {a : ℕ → α} {C : Conf (Fin b.numThreads) (State α ε) (Place α ε) →
    Fin b.numThreads × Act ε → Prop} (hC : ∀ c l, (system b a).Reach C c → C c l → Sound b c ∧
      Contained b c l) {m : ℕ} (r : (system b a).Run C m) :
    m ≤ count (weight b) fun _ : Fin b.numThreads => (.unstarted : Place α ε) := by
  have hlower : ∀ c l c', (system b a).Reach C c → C c l → (system b a).step c l = some c' →
      count (weight b) c'.pc < count (weight b) c.pc := by
    rintro c ⟨t, act⟩ c' hr hl hst
    obtain ⟨s', p', hn, rfl⟩ := Program.step_eq_some.1 hst
    obtain ⟨hS, hcontained⟩ := hC c (t, act) hr hl
    have hlt := next_weight hS hcontained hn
    have := count_update (weight b) c.pc t p'
    show count (weight b) (Function.update c.pc t p') < _
    omega
  have hle := r.length_le hlower m le_rfl
  rw [r.init.2] at hle
  omega

end Sound

end ParallelPartialSum

end ConcurrencySandbox

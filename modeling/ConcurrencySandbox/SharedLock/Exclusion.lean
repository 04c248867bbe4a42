import ConcurrencySandbox.SharedLock.Basic

/-!
# Readers and writers exclude each other

`mWriter` is claimed by one thread at most, and `mReader` counts the readers. A writer that has
found no reader left has claimed `mWriter`, so no reader can come in. Who lets a predicate come
true, by giving back a writer's or a reader's part, notifies everybody before it gives up `mLock`.
-/

namespace ConcurrencySandbox

open Interleaving

namespace SharedLock

variable {τ : Type*} [DecidableEq τ] {t u : τ} {act : Act} {s s' : Shared τ}
    {p p' : PC} {f : τ → PC}

omit [DecidableEq τ] in
theorem enter_eq_some : s.enter t = some s' ↔
    ∃ m, s.monitor.acquire t = some m ∧ s' = { s with monitor := m } := by
  simp [Shared.enter, eq_comm]

theorem resume_eq_some : s.resume t = some s' ↔
    ∃ m, s.monitor.resume t = some m ∧ s' = { s with monitor := m } := by
  simp [Shared.resume, eq_comm]

/-- What a step does to the monitor and to what the lock protects. -/
structure Moved (t : τ) (s : Shared τ) (p : PC) (s' : Shared τ) (p' : PC) : Prop where
  monitor : Monitor.Step t p.step.role s.monitor p'.step.role s'.monitor
  -- only a thread inside changes `mWriter` and `mReader`
  data : p.step.role ≠ .inside → s'.mReader = s.mReader ∧ s'.mWriter = s.mWriter
  drained : SharedLock.drained p' → SharedLock.drained p ∨ s'.mReader = 0
  notifying : Placed s p → SharedLock.notifying p = true →
    SharedLock.notifying p' = true ∨ s'.monitor.sleepers = ∅
  -- who falls asleep does so because its predicate is false
  asleep : p'.step.role = .waiting → t ∈ s'.monitor.sleepers → Blocked s' p'

theorem next_moved (hn : next t act s p = some (s', p')) : Moved t s p s' p' := by
  revert hn
  fun_cases next t act s p <;> intro hn
  all_goals try simp only [Option.map_eq_some_iff, enter_eq_some, resume_eq_some] at hn
  all_goals first
    | obtain ⟨_, ⟨m, hm, rfl⟩, hq⟩ := hn; cases hq
    | cases hn
  all_goals refine ⟨?_, fun hp => ?_, fun hd => ?_, fun hP hp => ?_, fun hr ht => ?_⟩
  -- the monitor
  all_goals try first
    | exact .keep _ _
    | exact .acquire hm
    | exact .resume hm
    | exact .release _
    | exact .wait _
    | exact .wake _
    | exact .notifyAll _
  -- what the lock protects
  all_goals try first
    | exact ⟨rfl, rfl⟩
    | exact absurd rfl hp
  -- who is about to notify, and who sleeps
  all_goals try first
    | exact .inl rfl
    | exact .inr rfl
    | exact absurd hP ‹_›
    | exact ‹s.mWriter = true›
    | exact ‹¬ s.mReader = 0›
    | exact absurd ht (Finset.notMem_erase t _)
    | cases hp
    | cases hr
  all_goals rcases hd with hd | hd
  all_goals first
    | exact .inl (.inl hd)
    | exact .inl (.inr rfl)
    | exact .inr ‹_›
    | exact .inl (.inl (Nat.lt_of_lt_of_le hd (Nat.sub_le _ 1)))
    | cases hd

/-- What a thread has in `mWriter` and in `mReader` changes with them. -/
theorem next_parts (hn : next t act s p = some (s', p')) (hP : Placed s p)
    (hc : claims p ≤ s.mWriter.toNat) :
    claims p' + s.mWriter.toNat = claims p + s'.mWriter.toNat ∧
      (shares p' : ℤ) + s.mReader = shares p + s'.mReader := by
  revert hn
  fun_cases next t act s p <;> intro hn
  all_goals try simp only [Option.map_eq_some_iff, enter_eq_some, resume_eq_some] at hn
  all_goals first
    | obtain ⟨_, ⟨m, hm, rfl⟩, hq⟩ := hn; cases hq
    | cases hn
  all_goals try exact ⟨rfl, rfl⟩
  · -- claiming `mWriter`
    have hw : s.mWriter = false := hP
    simp only [claims, shares, hw]
    exact ⟨rfl, rfl⟩
  · -- giving it back
    rename_i h
    have hpos : 0 < h.exclusive := hP
    have hle : h.exclusive ≤ s.mWriter.toNat := hc
    have := Bool.toNat_le s.mWriter
    refine ⟨?_, rfl⟩
    change h.exclusive - 1 + s.mWriter.toNat = h.exclusive + 0
    omega
  · -- a reader comes in
    rename_i h
    refine ⟨rfl, ?_⟩
    change ((h.shared + 1 : ℕ) : ℤ) + s.mReader = (h.shared : ℤ) + (s.mReader + 1)
    omega
  · -- a reader leaves
    rename_i h
    have hpos : 0 < h.shared := hP
    refine ⟨rfl, ?_⟩
    change ((h.shared - 1 : ℕ) : ℤ) + s.mReader = (h.shared : ℤ) + (s.mReader - 1)
    omega

structure Inv [Fintype τ] (s : Shared τ) (f : τ → PC) : Prop where
  valid : s.monitor.Valid (fun p : PC => p.step.role) f
  placed : ∀ t, Placed s (f t)
  claims : count claims f = s.mWriter.toNat
  shares : (count shares f : ℤ) = s.mReader
  drained : ∀ t, drained (f t) → s.mReader = 0
  awake : Monitor.Awake notifying (Blocked s) s.monitor f

omit [DecidableEq τ] in
/-- Another thread's part is about what the lock protects. -/
theorem Placed.frame (h : Placed s p) (hr : p.step.role = .inside →
    s'.mReader = s.mReader ∧ s'.mWriter = s.mWriter) : Placed s' p := by
  obtain ⟨h, a⟩ := p
  cases a <;> simp_all [Placed, At.role]

theorem drained_claims (h : drained p) : 0 < SharedLock.claims p := by
  obtain ⟨h, a⟩ := p
  rcases h with h | h
  · exact Nat.add_pos_left h _
  · cases a <;> first | exact Nat.succ_pos _ | cases h

theorem next_placed (hn : next t act s p = some (s', p')) (hP : Placed s p)
    (hd : drained p → s.mReader = 0) (hs : (shares p : ℤ) ≤ s.mReader) : Placed s' p' := by
  revert hn
  fun_cases next t act s p <;> intro hn
  all_goals try simp only [Option.map_eq_some_iff, enter_eq_some, resume_eq_some] at hn
  all_goals first
    | obtain ⟨_, ⟨m, hm, rfl⟩, hq⟩ := hn; cases hq
    | cases hn
  all_goals try first | trivial | exact hP
  · exact Nat.pos_of_ne_zero ‹_›
  · exact Nat.pos_of_ne_zero ‹_›
  · exact Bool.eq_false_iff.2 ‹_›
  · exact ‹¬ s.mReader = 0› (hd (.inl hP))
  · exact Bool.eq_false_iff.2 ‹_›
  · rename_i h
    have hpos : 0 < h.shared := hP
    have hle : ((h.shared : ℕ) : ℤ) ≤ s.mReader := hs
    change 0 ≤ s.mReader - 1
    omega

/-- With a writer that has found no reader left, no reader comes in. -/
theorem next_mReader (hn : next t act s p = some (s', p')) (hP : Placed s p)
    (hs : (shares p : ℤ) ≤ s.mReader) (hr : s.mReader = 0) (hw : s.mWriter = true) :
    s'.mReader = 0 := by
  revert hn
  fun_cases next t act s p <;> intro hn
  all_goals try simp only [Option.map_eq_some_iff, enter_eq_some, resume_eq_some] at hn
  all_goals first
    | obtain ⟨_, ⟨m, hm, rfl⟩, hq⟩ := hn; cases hq
    | cases hn
  all_goals try exact hr
  · have hf : s.mWriter = false := hP
    rw [hw] at hf
    cases hf
  · rename_i h
    have hpos : 0 < h.shared := hP
    have hle : ((h.shared : ℕ) : ℤ) ≤ s.mReader := hs
    omega

/-- Who lets a predicate come true is about to notify. -/
theorem next_blocked (hn : next t act s p = some (s', p')) (hr : 0 ≤ s.mReader) :
    notifying p' = true ∨ ∀ q, Blocked s q → Blocked s' q := by
  revert hn
  fun_cases next t act s p <;> intro hn
  all_goals try simp only [Option.map_eq_some_iff, enter_eq_some, resume_eq_some] at hn
  all_goals first
    | obtain ⟨_, ⟨m, hm, rfl⟩, hq⟩ := hn; cases hq
    | cases hn
  all_goals first
    | exact .inl rfl
    | exact .inr fun _ h => h
    | skip
  · refine .inr fun q h => ?_
    obtain ⟨k, a⟩ := q
    cases a <;> first | exact h | rfl
  · refine .inr fun q h => ?_
    obtain ⟨k, a⟩ := q
    cases a <;> try exact h
    change s.mReader + 1 ≠ 0
    omega

section Inv

variable [Fintype τ]

omit [DecidableEq τ] in
theorem Inv.shares_le (h : Inv s f) (t : τ) : (SharedLock.shares (f t) : ℤ) ≤ s.mReader := by
  rw [← h.shares]
  exact_mod_cast le_count SharedLock.shares f t

omit [DecidableEq τ] in
theorem Inv.claims_le (h : Inv s f) (t : τ) : SharedLock.claims (f t) ≤ s.mWriter.toNat :=
  h.claims ▸ le_count SharedLock.claims f t

omit [DecidableEq τ] in
theorem Inv.writer (h : Inv s f) (hd : SharedLock.drained (f t)) : s.mWriter = true := by
  have hle := h.claims_le t
  have hpos := drained_claims hd
  cases hw : s.mWriter with
  | true => rfl
  | false =>
    rw [hw] at hle
    exact absurd hle (by simpa using hpos.ne')

theorem Inv.step (h : Inv s f) (hn : next t act s (f t) = some (s', p')) :
    Inv s' (Function.update f t p') := by
  have hM := next_moved hn
  have hshares := h.shares_le t
  obtain ⟨hclaims, hreaders⟩ := next_parts hn (h.placed t) (h.claims_le t)
  have hvalid := h.valid.step hM.monitor
  have hkeep : ∀ u, u ≠ t → (f u).step.role = .inside →
      s'.mReader = s.mReader ∧ s'.mWriter = s.mWriter := fun u hu hi =>
    hM.data fun ht => hu (h.valid.eq hi ht)
  refine ⟨hvalid, Program.forall_update (next_placed hn (h.placed t) (h.drained t) hshares)
    fun u hu => (h.placed u).frame (hkeep u hu), ?_, ?_,
    Program.forall_update (L := fun _ p => SharedLock.drained p → s'.mReader = 0) (fun hd => ?_)
      fun u _ hd => ?_, ?_⟩
  · have := count_update SharedLock.claims f t p'
    have := h.claims
    omega
  · have hcount := count_update SharedLock.shares f t p'
    have := h.shares
    omega
  · rcases hM.drained hd with hd | hr
    · exact next_mReader hn (h.placed t) hshares (h.drained t hd) (h.writer hd)
    · exact hr
  · exact next_mReader hn (h.placed t) hshares (h.drained u hd) (h.writer hd)
  · refine h.awake.step hM.monitor (hM.notifying (h.placed t)) (fun ht => ?_) ?_
    · have hrole := hvalid.sleepers t ht
      rw [Function.update_self] at hrole
      exact hM.asleep hrole ht
    · rcases next_blocked hn (h.shares ▸ Int.natCast_nonneg _) with hq | hq
      · exact .inl hq
      · exact .inr fun u _ _ => hq (f u)

theorem inv_reach {c : Conf τ (Shared τ) PC} (h : (system τ).Reachable c) :
    Inv c.shared c.pc := by
  refine h.induct (P := fun c => Inv c.shared c.pc) ?_ ?_
  · rintro ⟨s, f⟩ ⟨rfl, rfl⟩
    refine ⟨.init rfl, fun t => trivial, ?_, ?_, fun t hd => rfl, .inr nofun⟩
    · exact count_eq_zero.2 fun t => rfl
    · exact congrArg Nat.cast (count_eq_zero.2 fun t => rfl)
  · rintro c ⟨t, act⟩ c' - hI - hst
    obtain ⟨s', p', hn, rfl⟩ := Program.step_eq_some.1 hst
    exact hI.step hn

/-- What the lock promises in a state. -/
structure Correct (c : Conf τ (Shared τ) PC) : Prop where
  once : ∀ t, (c.pc t).holds.exclusive ≤ 1
  exclusive : ∀ t u, 0 < (c.pc t).holds.exclusive → 0 < (c.pc u).holds.exclusive → t = u
  excludes : ∀ t u, 0 < (c.pc t).holds.exclusive → (c.pc u).holds.shared = 0
  readers : c.shared.monitor.lock = none →
    c.shared.mReader = count (fun p => p.holds.shared) c.pc
  nonneg : 0 ≤ c.shared.mReader
  asserted : ∀ t, (c.pc t).step ≠ .aborted
  awake : c.shared.monitor.lock = none → ∀ t ∈ c.shared.monitor.sleepers, Blocked c.shared (c.pc t)

omit [DecidableEq τ] [Fintype τ] in
theorem notifying_inside (h : notifying p = true) : p.step.role = .inside := by
  obtain ⟨h, a⟩ := p
  cases a <;> first | rfl | cases h

/-- The lock is a reader-writer lock, and no wakeup is lost. -/
theorem readers_writer {c : Conf τ (Shared τ) PC} (h : (system τ).Reachable c) : Correct c := by
  have hI := inv_reach h
  have hexclusive : ∀ t, (c.pc t).holds.exclusive ≤ SharedLock.claims (c.pc t) :=
    fun t => Nat.le_add_right _ _
  have hone := Bool.toNat_le c.shared.mWriter
  refine ⟨fun t => ?_, fun t u ht hu => ?_, fun t u ht => ?_, fun hl => ?_, ?_, fun t ht => ?_,
    fun hl t ht => ?_⟩
  · exact (hexclusive t).trans ((hI.claims_le t).trans hone)
  · by_contra hne
    have := add_le_count SharedLock.claims c.pc hne
    have := hI.claims
    have := hexclusive t
    have := hexclusive u
    omega
  · have hshares := hI.shares_le u
    rw [hI.drained t (.inl ht), SharedLock.shares] at hshares
    omega
  · rw [← hI.shares]
    refine congrArg Nat.cast (count_congr fun t => ?_)
    -- nobody is between `++mReader` and the end of `lock_shared`
    have hstep : (c.pc t).step ≠ .sharedReturn := fun he =>
      hI.valid.not_inside (t := t) hl (congrArg At.role he)
    simp [SharedLock.shares, hstep]
  · exact hI.shares ▸ Int.natCast_nonneg _
  · have hplaced := hI.placed t
    rw [Placed, ht] at hplaced
    exact hplaced
  · exact hI.awake.sleepers_blocked hI.valid (fun _ => notifying_inside) hl t ht

end Inv

/-- A writer sleeps until the reader leaves. -/
theorem readers_writer_draining : ∃ c : Conf (Fin 2) (Shared (Fin 2)) PC,
    (c.pc 0).holds.shared = 1 ∧ (c.pc 1).step = .drainAsleep ∧ Correct c := by
  have hc : ∃ c, (system (Fin 2)).exec ⟨initial, fun _ => ⟨⟨0, 0⟩, .out⟩⟩
      [(0, .lockShared), (0, .run), (0, .run), (0, .run), (0, .run),
        (1, .lock), (1, .run), (1, .run), (1, .run), (1, .run), (1, .run)] = some c ∧
      (c.pc 0).holds.shared = 1 ∧ (c.pc 1).step = .drainAsleep := ⟨_, rfl, rfl, rfl⟩
  obtain ⟨c, hc, h0, h1⟩ := hc
  have hr : (system (Fin 2)).Reachable c := .exec (.init ⟨rfl, rfl⟩) hc
  exact ⟨c, h0, h1, readers_writer hr⟩

end SharedLock

end ConcurrencySandbox

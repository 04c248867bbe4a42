import ConcurrencySandbox.Barrier.Basic

/-!
# The barrier is reusable for ever

In round `k` every thread has arrived `k` or `k + 1` times. A thread still on its way out of the
last round has come in with the generation before, and one round apart two generations differ also
when the counter wraps. While somebody is late `mCount` is not 0, so not all threads can be asleep
in the same round.
-/

namespace ConcurrencySandbox

open Interleaving

namespace Barrier

variable {τ : Type*} [DecidableEq τ] {t u : τ} {act : Act} {s s' : Shared τ}
    {p p' : PC} {f : τ → PC}
  {k : ℕ}

/-- What a step does to the monitor and to the counters, whatever the round. -/
structure Moved (t : τ) (s : Shared τ) (p : PC) (s' : Shared τ) (p' : PC) : Prop where
  monitor : Monitor.Step t p.step.role s.monitor p'.step.role s'.monitor
  num : s'.mNum = s.mNum
  -- only a thread inside changes the counters
  data : p.step.role ≠ .inside → s'.mGeneration = s.mGeneration ∧ s'.mCount = s.mCount
  generation : p.step ≠ .bump → s'.mGeneration = s.mGeneration
  notifying : notifying p = true → notifying p' = true ∨ s'.monitor.sleepers = ∅
  -- who falls asleep does so because its predicate is false
  asleep : t ∈ s'.monitor.sleepers → Blocked s' p'

theorem next_moved (hn : next t act s p = some (s', p')) : Moved t s p s' p' := by
  revert hn
  fun_cases next t act s p <;> intro hn
  all_goals try simp only [Option.map_eq_some_iff] at hn
  all_goals first
    | obtain ⟨m, hm, hq⟩ := hn; cases hq
    | cases hn
  all_goals refine ⟨?_, rfl, fun hp => ?_, fun hb => ?_, fun hp => ?_, fun ht curGen hc => ?_⟩
  all_goals first
    | exact .keep _ _
    | exact .acquire hm
    | exact .resume hm
    | exact .release _
    | exact .wait _
    | exact .wake _
    | exact .notifyAll _
    | exact ⟨rfl, rfl⟩
    | exact absurd rfl hp
    | exact absurd ht (Finset.notMem_erase t _)
    | exact .inl rfl
    | exact .inr rfl
    | rfl
    | exact absurd rfl hb
    | cases hp
    | cases hc
  rfl

theorem ofNat_ne_succ (r : ℕ) : BitVec.ofNat 32 r ≠ BitVec.ofNat 32 (r + 1) := fun h => by
  have := congrArg BitVec.toNat h
  simp only [BitVec.toNat_ofNat] at this
  omega

/-- The round lasts through every step but a new generation. -/
theorem next_placed (hn : next t act s p = some (s', p')) (hP : Placed k s p)
    (hg : s.mGeneration = BitVec.ofNat 32 k) (hb : p.step ≠ .bump) : Placed k s' p' := by
  revert hn
  fun_cases next t act s p <;> intro hn
  all_goals try simp only [Option.map_eq_some_iff] at hn
  all_goals first
    | obtain ⟨m, hm, hq⟩ := hn; cases hq
    | cases hn
  all_goals try exact hP
  · exact ⟨hP, rfl⟩
  · exact ⟨hP.1, ‹_›⟩
  · obtain ⟨hr, hc⟩ := hP
    exact ⟨hc.trans (hg.trans (congrArg _ hr.symm)), .inl hr⟩
  · exact absurd rfl hb
  · -- the predicate is true one round later only
    obtain ⟨hc, hr⟩ := hP
    refine hr.resolve_left fun hr => ‹¬ _ = s.mGeneration› ?_
    exact hc.trans ((congrArg (BitVec.ofNat 32) hr).trans hg.symm)

omit [DecidableEq τ] in
/-- Another thread's part is about what the lock protects. -/
theorem Placed.frame (h : Placed k s p) (hr : p.step.role = .inside →
    s'.mGeneration = s.mGeneration ∧ s'.mCount = s.mCount) : Placed k s' p := by
  obtain ⟨r, a⟩ := p
  cases a <;> simp_all [Placed, At.role]

section Count

variable [Fintype τ]

/-- A step that changes neither `mCount` nor who is late. -/
theorem Counted.keep (h : Counted k s f) (hp : f t = p) (hc : s'.mCount = s.mCount)
    (hl : late k p' = late k p) (hr : p'.step = .reset ↔ p.step = .reset)
    (hlast : p.Last → p'.Last) : Counted k s' (Function.update f t p') := by
  subst hp
  have hcount := count_update (late k) f t p'
  have heq : count (late k) (Function.update f t p') = count (late k) f := by omega
  rcases h with ⟨⟨u, hu⟩, hall⟩ | ⟨hno, hm, hz⟩
  · refine .inl ⟨⟨u, ?_⟩, heq.trans hall⟩
    by_cases hut : u = t
    · rw [hut, Function.update_self]
      exact hr.2 (hut ▸ hu)
    · rwa [Function.update_of_ne hut]
  · refine .inr ⟨Program.forall_update (L := fun _ (p : PC) => p.step ≠ .reset)
      (fun he => hno t (hr.1 he)) fun u _ => hno u, ?_, fun h0 => ?_⟩
    · rw [hc, heq]
      exact hm
    · obtain ⟨u, hu⟩ := hz (heq ▸ h0)
      refine ⟨u, ?_⟩
      by_cases hut : u = t
      · rw [hut, Function.update_self]
        exact hlast (hut ▸ hu)
      · rwa [Function.update_of_ne hut]

omit [DecidableEq τ] in
/-- With another thread inside, none is between a new generation and its count. -/
theorem Counted.settled (h : Counted k s f) (hv : s.monitor.Valid (fun p : PC => p.step.role) f)
    (hp : (f t).step.role = .inside) (hr : (f t).step ≠ .reset) :
    (∀ u, (f u).step ≠ .reset) ∧ s.mCount.toNat = count (late k) f := by
  rcases h with ⟨⟨u, hu⟩, -⟩ | ⟨hno, hm, -⟩
  · obtain rfl : u = t := hv.eq (congrArg At.role hu) hp
    exact absurd hu hr
  · exact ⟨hno, hm⟩

theorem Inv.counted_step (h : Inv k s f) (hp : f t = p) (hb : p.step ≠ .bump)
    (hn : next t act s p = some (s', p')) : Counted k s' (Function.update f t p') := by
  have hC := h.counted
  have hP := h.placed t
  have hcount := count_update (late k) f t p'
  have hle := le_count (late k) f t
  have hinside := fun hi => hC.settled (t := t) h.valid hi
  rw [hp] at hP hcount hle hinside
  revert hn
  fun_cases next t act s p <;> intro hn
  all_goals try simp only [Option.map_eq_some_iff] at hn
  all_goals first
    | obtain ⟨m, hm, hq⟩ := hn; cases hq
    | cases hn
  -- the steps that change neither `mCount` nor who is late
  all_goals first
    | (refine hC.keep hp rfl rfl ?_ ?_ <;> simp [PC.Last] <;> done)
    | skip
  · -- the thread arrives
    rename_i r curGen
    obtain ⟨hno, hm⟩ := hinside rfl nofun
    have hr : r = k := hP.1
    simp only [late, if_pos hr] at hcount hle
    have hlt := s.mCount.isLt
    refine .inr ⟨Program.forall_update (L := fun _ (p : PC) => p.step ≠ .reset) nofun
      fun u _ => hno u, ?_, fun _ => ⟨t, ?_⟩⟩
    · rw [BitVec.toNat_sub]
      change (2 ^ 32 - 1 + s.mCount.toNat) % 2 ^ 32 = _
      omega
    · rw [Function.update_self]
      exact .inr ⟨curGen, rfl⟩
  · -- the thread is not the last
    rename_i r curGen hne
    obtain ⟨hno, hm⟩ := hinside rfl nofun
    simp only [late] at hcount
    refine .inr ⟨Program.forall_update (L := fun _ (p : PC) => p.step ≠ .reset) nofun
      fun u _ => hno u, by omega, fun h0 => ?_⟩
    refine absurd (BitVec.eq_of_toNat_eq (y := 0) ?_) hne
    change s.mCount.toNat = 0
    omega
  · exact absurd rfl hb
  · -- the count of the new generation
    rename_i r
    have hr : r + 1 = k := hP
    have hpos : 0 < Fintype.card τ := Fintype.card_pos_iff.2 ⟨t⟩
    have hall : count (late k) f = Fintype.card τ := by
      rcases hC with ⟨-, hall⟩ | ⟨hno, -⟩
      · exact hall
      · exact absurd (by rw [hp]) (hno t)
    simp only [late] at hcount
    refine .inr ⟨Program.forall_update (L := fun _ (p : PC) => p.step ≠ .reset) nofun
      fun u hu he => ?_, ?_, fun h0 => ?_⟩
    · exact hu (h.valid.eq (congrArg At.role he) (by rw [hp]; rfl))
    · change s.mNum.toNat = _
      rw [h.num]
      omega
    · omega
  · rename_i r
    have hr : r + 1 = k := hP
    refine hC.keep hp rfl ?_ (by simp) (by simp [PC.Last])
    simp only [late]
    exact (if_neg (by omega)).symm

/-- The last thread starts the next round: all the others are asleep in this one. -/
theorem Inv.bump (h : Inv k s f) {r : ℕ} (hp : f t = ⟨r, .bump⟩) :
    Inv (k + 1) { s with mGeneration := s.mGeneration + 1 }
      (Function.update f t ⟨r, .reset⟩) := by
  have hP := h.placed t
  rw [hp] at hP
  obtain ⟨hr, hzero⟩ := hP
  have hr : r = k := hr
  obtain ⟨-, hm⟩ := h.counted.settled (t := t) h.valid (by rw [hp]; rfl) (by rw [hp]; nofun)
  have hlate : ∀ u, late k (f u) = 0 := by
    rw [← count_eq_zero, ← hm, hzero]
    rfl
  have hothers : ∀ u, u ≠ t → ∃ curGen, f u = ⟨k, .asleep curGen⟩ := fun u hu => by
    have h1 := hlate u
    have h2 : (f u).step.role ≠ .inside := fun hi => hu (h.valid.eq hi (by rw [hp]; rfl))
    generalize f u = p at h1 h2
    obtain ⟨r, a⟩ := p
    cases a <;> simp [late, At.role] at h1 h2
    exact ⟨_, by rw [h1]⟩
  refine ⟨h.valid.step (by rw [hp]; exact .keep _ _), h.num, ?_, Program.forall_update ?_
    fun u hu => ?_, .inl ⟨⟨t, by rw [Function.update_self]⟩, count_eq_card ?_⟩,
    .inl ⟨t, by rw [Function.update_self]; rfl⟩⟩
  · change s.mGeneration + 1 = _
    rw [h.generation]
    exact (BitVec.ofNat_add k 1).symm
  · exact congrArg (· + 1) hr
  · obtain ⟨curGen, hf⟩ := hothers u hu
    have hPu := h.placed u
    rw [hf] at hPu ⊢
    exact ⟨hPu.1, .inr rfl⟩
  · refine Program.forall_update (L := fun _ p => late (k + 1) p = 1) ?_ fun u hu => ?_
    · exact if_neg (by simp [hr])
    · obtain ⟨curGen, hf⟩ := hothers u hu
      rw [hf]
      exact if_neg (by simp)

theorem Inv.step (h : Inv k s f) (hn : next t act s (f t) = some (s', p')) :
    ∃ k', Inv k' s' (Function.update f t p') := by
  by_cases hb : (f t).step = .bump
  · rcases hp : f t with ⟨r, a⟩
    rw [hp] at hb hn
    obtain rfl : a = .bump := hb
    cases act with
    | run =>
      obtain ⟨rfl, rfl⟩ := Prod.mk.inj (Option.some.inj hn)
      exact ⟨k + 1, h.bump hp⟩
    | wait => cases hn
    | wake => cases hn
  · have hM := next_moved hn
    have hgen := hM.generation hb
    refine ⟨k, h.valid.step hM.monitor, hM.num ▸ h.num, hgen.trans h.generation,
      Program.forall_update (next_placed hn (h.placed t) h.generation hb) fun u hu =>
        (h.placed u).frame fun hi => hM.data fun ht => hu (h.valid.eq hi ht),
      h.counted_step rfl hb hn, h.awake.step hM.monitor hM.notifying hM.asleep (.inr ?_)⟩
    intro u _ _ hq curGen hc
    rw [hgen]
    exact hq curGen hc

theorem inv_reach {n : BitVec 32} (hn : n ≠ 0) (hτ : n.toNat = Fintype.card τ)
    {c : Conf τ (Shared τ) PC} (h : (system τ n).Reachable c) : ∃ k, Inv k c.shared c.pc := by
  refine h.induct (P := fun c => ∃ k, Inv k c.shared c.pc) ?_ ?_
  · rintro ⟨s, f⟩ ⟨rfl, rfl⟩
    have hcount : count (late 0) (fun _ : τ => (⟨0, .out⟩ : PC)) = Fintype.card τ :=
      count_eq_card fun _ => rfl
    refine ⟨0, .init rfl, hτ, rfl, fun t => rfl, .inr ⟨nofun, hτ.trans hcount.symm, fun h0 => ?_⟩,
      .inr nofun⟩
    exact absurd (BitVec.eq_of_toNat_eq (y := 0) (hτ.trans (hcount.symm.trans h0))) hn
  · rintro c ⟨t, act⟩ c' - ⟨k, hI⟩ - hst
    obtain ⟨s', p', hn, rfl⟩ := Program.step_eq_some.1 hst
    exact hI.step hn

/-- What the barrier promises in a state. -/
structure Correct (c : Conf τ (Shared τ) PC) : Prop where
  rounds : ∀ t u, (c.pc t).returned ≤ (c.pc u).started
  ahead : ∀ t u, (c.pc t).started ≤ (c.pc u).started + 1
  progress : ∃ t, ∀ curGen, (c.pc t).step = .asleep curGen → curGen ≠ c.shared.mGeneration
  awake : c.shared.monitor.lock = none → ∀ t ∈ c.shared.monitor.sleepers, Blocked c.shared (c.pc t)

omit [DecidableEq τ] [Fintype τ] in
theorem Placed.rounds (h : Placed k s p) : p.returned ≤ k ∧ k ≤ p.started := by
  obtain ⟨r, a⟩ := p
  cases a <;> simp only [Placed, PC.started, reduceCtorEq, if_true, if_false] at h ⊢ <;> omega

omit [DecidableEq τ] in
/-- Not all threads are asleep in the same round: one is late in it. -/
theorem Inv.progress (h : Inv k s f) :
    ∃ t, ∀ curGen, (f t).step = .asleep curGen → curGen ≠ s.mGeneration := by
  by_contra! hall
  have hstep : ∀ t, ∃ r, f t = ⟨r, .asleep s.mGeneration⟩ := fun t => by
    obtain ⟨curGen, ht, rfl⟩ := hall t
    exact ⟨(f t).returned, by rw [← ht]⟩
  rcases h.counted with ⟨⟨t, ht⟩, -⟩ | ⟨-, -, hlast⟩
  · obtain ⟨r, hf⟩ := hstep t
    rw [hf] at ht
    cases ht
  · have hpos : count (late k) f ≠ 0 := fun h0 => by
      obtain ⟨t, ht⟩ := hlast h0
      obtain ⟨r, hf⟩ := hstep t
      rw [hf] at ht
      rcases ht with ht | ⟨_, ht⟩ <;> cases ht
    rw [Ne, count_eq_zero] at hpos
    obtain ⟨t, ht⟩ := not_forall.1 hpos
    obtain ⟨r, hf⟩ := hstep t
    have hP := h.placed t
    rw [hf] at ht hP
    obtain ⟨hgen, hr | hr⟩ := hP
    · exact ht (if_pos hr)
    · rw [h.generation, ← hr] at hgen
      exact ofNat_ne_succ r hgen.symm

omit [DecidableEq τ] [Fintype τ] in
theorem notifying_inside (h : notifying p = true) : p.step.role = .inside := by
  obtain ⟨r, a⟩ := p
  cases a <;> first | rfl | cases h

/-- However often it was used, the barrier lets nobody out before all have come, and no thread
sleeps on. -/
theorem reusable {n : ℕ} (h1 : 1 ≤ n) (h2 : n < 2 ^ 32) (hτ : Fintype.card τ = n)
    {c : Conf τ (Shared τ) PC} (h : (system τ (BitVec.ofNat 32 n)).Reachable c) : Correct c := by
  have htoNat : (BitVec.ofNat 32 n).toNat = n := by
    rw [BitVec.toNat_ofNat, Nat.mod_eq_of_lt h2]
  have hne : BitVec.ofNat 32 n ≠ 0 := fun he => by
    rw [he] at htoNat
    exact absurd htoNat (by simp; omega)
  obtain ⟨k, hI⟩ := inv_reach hne (htoNat.trans hτ.symm) h
  have hrounds := fun t => (hI.placed t).rounds
  refine ⟨fun t u => (hrounds t).1.trans (hrounds u).2, fun t u => ?_,
    hI.progress, fun hl t ht => ?_⟩
  · have hstarted : (c.pc t).started ≤ (c.pc t).returned + 1 := by
      unfold PC.started
      split_ifs <;> omega
    have := (hrounds t).1
    have := (hrounds u).2
    omega
  · exact hI.awake.sleepers_blocked hI.valid (fun _ => notifying_inside) hl t ht

end Count

/-- One thread has gone on to the second round, and the other is still asleep in the first. -/
theorem reusable_two : ∃ c : Conf (Fin 2) (Shared (Fin 2)) PC,
    (c.pc 0).step = .asleep 0 ∧ (c.pc 1).returned = 1 ∧ (c.pc 1).started = 2 ∧ Correct c := by
  have hc : ∃ c, (system (Fin 2) (BitVec.ofNat 32 2)).exec ⟨initial 2, fun _ => ⟨0, .out⟩⟩
      [(0, .wait), (0, .run), (0, .run), (0, .run), (0, .run), (0, .run),
        (1, .wait), (1, .run), (1, .run), (1, .run), (1, .run), (1, .run), (1, .run), (1, .run),
        (1, .run), (1, .wait)] = some c ∧
      (c.pc 0).step = .asleep 0 ∧ (c.pc 1).returned = 1 ∧ (c.pc 1).started = 2 :=
    ⟨_, rfl, rfl, rfl, rfl⟩
  obtain ⟨c, hc, h0, h1, h2⟩ := hc
  have hr : (system (Fin 2) (BitVec.ofNat 32 2)).Reachable c := .exec (.init ⟨rfl, rfl⟩) hc
  exact ⟨c, h0, h1, h2, reusable (by decide) (by decide) rfl hr⟩

end Barrier

end ConcurrencySandbox

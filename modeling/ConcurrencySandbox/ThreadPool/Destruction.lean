import ConcurrencySandbox.ThreadPool.Isolation

/-!
# What a destroyed pool leaves

When `~ThreadPool` has returned nobody holds a task of the pool any more: its workers have returned,
its queues are gone and nobody is inside its functions. So each of its tasks has been invoked or
went with the queue that held it. `LocalWorkQueue` and `GlobalWorkQueue` destroy what they hold; the
array of `LockFreeLocalWorkQueue` holds pointers, which its destructor does not delete.
-/

namespace ConcurrencySandbox

open Interleaving Structures

namespace ThreadPool

variable {τ P T : Type*} [DecidableEq τ] [DecidableEq P] {s s' : Shared τ P T}
  {c : Conf (Thread τ P) (Shared τ P T) (List (Frame P T))} {t : Thread τ P} {p : P} {x : T}
  {q : Frame P T} {k n stack : List (Frame P T)} {lockFree ok : Bool}

theorem leaked_run (hn : nextRun lockFree t ok s q = some (s', n))
    (hE : lockFree = true → ∀ p, q = .freeLocal p → ∀ queue ∈ (s.pool p).mLocalTasks, queue = []) :
    s'.leaked = s.leaked := by
  revert hn
  fun_cases nextRun lockFree t ok s q <;> intro hn <;> cases hn
  case case23 r =>
    cases lockFree with
    | false => rfl
    | true =>
      have he : (s.pool r).mLocalTasks.flatten = [] := List.flatten_eq_nil_iff.2 (hE rfl r rfl)
      simp [Shared.freeLocal, he]
  all_goals rfl

variable [DecidableEq T]

theorem leaked_step {act : Act P T} (hE : FreesEmpty lockFree c (t, act))
    (hn : next lockFree t act c.shared (c.pc t) = some (s', stack)) :
    s'.leaked = c.shared.leaked := by
  obtain ⟨s, f⟩ := c
  simp only [FreesEmpty] at hE hn
  generalize hp : f t = p at hn
  revert hn
  fun_cases next lockFree t act s p <;> intro hn
  case case9 =>
    obtain ⟨r, hr, hq⟩ := Option.map_eq_some_iff.1 hn
    cases hq
    exact leaked_run hr fun hl p hq => hE hl p _ (hp.trans (by rw [hq]))
  all_goals cases hn
  all_goals rfl

theorem nothing_leaked (h : (system lockFree).Reach (FreesEmpty lockFree) c) :
    c.shared.leaked = [] := by
  refine System.Reach.induct (P := fun c => c.shared.leaked = []) ?_ ?_ h
  · rintro c ⟨hs, -⟩
    rw [hs]
    rfl
  · rintro c ⟨t, act⟩ c' - ih hE hst
    obtain ⟨s', stack, hn, rfl⟩ := Program.step_eq_some.1 hst
    exact (leaked_step hE hn).trans ih

omit [DecidableEq τ] [DecidableEq P] [DecidableEq T] in
/-- Nobody holds a task of a pool that is gone. -/
theorem Inv.not_held (h : Inv c) (hx : c.shared.submitted x = some p)
    (hd : (c.shared.pool p).stage = .dead) : ¬ Held c.shared c.pc x := by
  obtain ⟨hC, -, hO⟩ := h
  have hsame : ∀ {r}, c.shared.submitted x = some r → r = p := fun hr =>
    Option.some.inj (hr.symm.trans hx)
  obtain ⟨hdrained, hglobal⟩ : Drained (c.shared.pool p) ∧ _ = [] := by
    have hok := hC.pools p
    unfold PoolOk at hok
    simpa only [hd] using hok
  have hempty : (c.shared.pool p).tasks = [] := by simp [Pool.tasks, hdrained.1, hglobal]
  have hout : ∀ {t frame}, frame ∈ c.pc t → frame.member ≠ some p :=
    hC.outside (.inr hd) hdrained
  rintro ⟨a, -, ha⟩
  cases a with
  | global r =>
    have hm : x ∈ (c.shared.pool r).tasks := List.mem_append_left _ ha
    obtain rfl := hsame (hO.queues r x hm)
    simp [hempty] at hm
  | localQueue r i =>
    have hm : x ∈ (c.shared.pool r).tasks := mem_tasks_of_localQueue ha
    obtain rfl := hsame (hO.queues r x hm)
    simp [hempty] at hm
  | hand t =>
    obtain ⟨frame, hm, hfr⟩ := List.mem_filterMap.1 ha
    have hh := hO.hands t frame hm
    -- inside of the pool, or one of its workers
    have hno : ∀ r, frame.member = some r → frame ≠ .start →
        ¬ (c.shared.submitted x = some r ∨ ∃ r, c.shared.submitted x = some r ∧ t.WorksFor r) := by
      rintro r hr hs (hx | ⟨r', hx, i, rfl⟩)
      · exact hout hm (hr.trans (congrArg some (hsame hx)))
      · obtain rfl := hsame hx
        exact hC.undrained hm hs hdrained
    unfold Frame.task? at hfr
    split at hfr <;> cases hfr
    · exact hout hm (congrArg some (hsame hh))
    · exact hno _ rfl (by simp) hh
    · exact hno _ rfl (by simp) hh

theorem no_task_abandoned
    (h : (system lockFree).Reach
      (fun c l => InLifetime c l ∧ SubmitsOwn c l ∧ FreesEmpty lockFree c l) c) :
    c.shared.invoked.Nodup ∧ ∀ x p, c.shared.submitted x = some p →
      (c.shared.pool p).stage = .dead →
        x ∈ c.shared.invoked ∧ x ∈ c.shared.finished ∨
          x ∉ c.shared.invoked ∧ x ∈ c.shared.destroyed := by
  have hI : Inv c := inv (h.mono fun _ _ hC => ⟨hC.1, hC.2.1⟩)
  have hleaked := nothing_leaked (h.mono fun _ _ hC => hC.2.2)
  refine ⟨hI.tasks.nodup, fun x p hx hd => ?_⟩
  have hgone : Gone c.shared x :=
    ((hI.tasks.account x).1 (by simp [hx])).resolve_left (hI.not_held hx hd)
  rcases hgone with hf | hf | hf
  · exact .inl ⟨(hI.tasks.invoked x).2 (.inr hf), hf⟩
  · refine .inr ⟨fun hi => ?_, hf⟩
    rcases (hI.tasks.invoked x).1 hi with ⟨t, r, hm⟩ | hfin
    · exact hI.tasks.gone x (.inr (.inl hf)) ⟨.hand t, trivial, List.mem_filterMap.2 ⟨_, hm, rfl⟩⟩
    · exact (hI.tasks.apart x hfin).1 hf
  · rw [hleaked] at hf
    cases hf

/-- The pool whose local queues are freed next. -/
def Frame.frees : Frame P T → Option P
  | .freeLocal pool => some pool
  | _ => none

omit [DecidableEq τ] [DecidableEq P] [DecidableEq T] in
theorem freesEmpty_iff {l : Thread τ P × Act P T} : FreesEmpty lockFree c l ↔ (lockFree = true →
    ∀ q ∈ (c.pc l.1).head?, ∀ p ∈ q.frees,
      ∀ queue ∈ (c.shared.pool p).mLocalTasks, queue = []) := by
  refine imp_congr_right fun _ => ⟨fun h q hq p hp => ?_, fun h p k hk => ?_⟩
  · obtain ⟨k, hk⟩ := List.head?_eq_some_iff.1 hq
    unfold Frame.frees at hp
    split at hp
    · cases hp
      exact h _ k hk
    · cases hp
  · rw [hk] at h
    exact h _ rfl p rfl

instance (l : Thread τ P × Act P T) : Decidable (FreesEmpty lockFree c l) :=
  decidable_of_iff' _ freesEmpty_iff

/-- A task submits another on its worker, which invokes both, so that its lock-free queue is empty
when the pool goes; the third task is destroyed with the pool. -/
theorem no_task_abandoned_three : ∃ c : Conf (Thread Unit Unit) (Shared Unit Unit ℕ)
    (List (Frame Unit ℕ)), c.shared.finished = [1, 0] ∧ c.shared.destroyed = [2] ∧
      (c.shared.pool ()).stage = .dead ∧ c.shared.invoked.Nodup ∧
      ∀ x p, c.shared.submitted x = some p →
        (c.shared.pool p).stage = .dead →
          x ∈ c.shared.invoked ∧ x ∈ c.shared.finished ∨
            x ∉ c.shared.invoked ∧ x ∈ c.shared.destroyed := by
  let run (t : Thread Unit Unit) (n : ℕ) : List (Thread Unit Unit × Act Unit ℕ) :=
    List.replicate n (t, .run true)
  let c₀ : Conf (Thread Unit Unit) (Shared Unit Unit ℕ) (List (Frame Unit ℕ)) :=
    ⟨initial, fun _ => [.start]⟩
  let as : List (Thread Unit Unit × Act Unit ℕ) :=
    (.outside (), .run true) :: (.outside (), .construct () 1) :: (.outside (), .submit () 0) ::
      run (.outside ()) 1 ++ run (.worker () 0) 5 ++ (.worker () 0, .submit () 1) ::
      run (.worker () 0) 1 ++ (.worker () 0, .finish) :: run (.worker () 0) 3 ++
      (.worker () 0, .finish) :: (.outside (), .submit () 2) :: run (.outside ()) 1 ++
      (.outside (), .destroy ()) :: run (.outside ()) 1 ++ run (.worker () 0) 1 ++
      run (.outside ()) 4
  have hex : ((system true).execIf (fun c l => Orderly c l ∧
      FreesEmpty true c l) c₀ as).any (fun c =>
      c.shared.finished = [1, 0] ∧ c.shared.destroyed = [2] ∧ (c.shared.pool ()).stage = .dead) =
        true := by
    decide +kernel
  have hinit : (system true).init c₀ := ⟨rfl, rfl⟩
  obtain ⟨c, hr, hlast⟩ := System.exists_reach_any
    (C := fun c l => InLifetime c l ∧ SubmitsOwn c l ∧ FreesEmpty true c l) hinit
    (fun c l h => ⟨h.1.inLifetime, submitsOwn c l, h.2⟩) hex
  obtain ⟨hfinished, hdestroyed, hdead⟩ := of_decide_eq_true hlast
  exact ⟨c, hfinished, hdestroyed, hdead, no_task_abandoned hr⟩

/-- A task submits another on its worker, and the pool goes before the worker has taken it. -/
theorem leaks : ∃ c : Conf (Thread Unit Unit) (Shared Unit Unit Bool) (List (Frame Unit Bool)),
    (system true).Reach (fun c l => InLifetime c l ∧ SubmitsOwn c l) c ∧
      c.shared.submitted true = some () ∧ (c.shared.pool ()).stage = .dead ∧
        true ∉ c.shared.invoked ∧ true ∉ c.shared.destroyed := by
  let c₀ : Conf (Thread Unit Unit) (Shared Unit Unit Bool) (List (Frame Unit Bool)) :=
    ⟨initial, fun _ => [.start]⟩
  let as : List (Thread Unit Unit × Act Unit Bool) :=
    [(.outside (), .run true), (.outside (), .construct () 1), (.outside (), .submit () false),
      (.outside (), .run true), (.worker () 0, .run true), (.worker () 0, .run true),
      (.worker () 0, .run true), (.worker () 0, .run true), (.worker () 0, .run true),
      (.worker () 0, .submit () true), (.worker () 0, .run true), (.worker () 0, .finish),
      (.outside (), .destroy ()), (.outside (), .run true), (.worker () 0, .run true),
      (.outside (), .run true), (.outside (), .run true), (.outside (), .run true),
      (.outside (), .run true)]
  have hex : ((system true).execIf Orderly c₀ as).any (fun c =>
      c.shared.submitted true = some () ∧ (c.shared.pool ()).stage = .dead ∧
        true ∉ c.shared.invoked ∧ true ∉ c.shared.destroyed) = true := by
    decide +kernel
  have hinit : (system true).init c₀ := ⟨rfl, rfl⟩
  obtain ⟨c, hr, hlast⟩ := System.exists_reach_any (C := fun c l => InLifetime c l ∧ SubmitsOwn c l)
    hinit (fun c l h => ⟨h.inLifetime, submitsOwn c l⟩) hex
  exact ⟨c, hr, of_decide_eq_true hlast⟩

end ThreadPool

end ConcurrencySandbox

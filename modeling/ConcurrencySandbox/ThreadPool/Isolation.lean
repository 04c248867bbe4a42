import ConcurrencySandbox.ThreadPool.Tasks
import Mathlib.Data.Fintype.Basic

/-!
# Whose tasks the queues hold

`submit` pushes to the local queue of the thread that calls it, and without one to the global queue
of the pool it is called on. When whoever has a local queue submits to the pool it is of, the queues
of a pool hold what was submitted to that pool, its destructor frees nothing else, and its workers
take nothing else in their loops. A task that submits to another pool than the one it runs on breaks
this.
-/

namespace ConcurrencySandbox

open Interleaving Structures

namespace ThreadPool

variable {τ P T : Type*}

def Pool.tasks (x : Pool T) : List T := x.mGlobalWorkQueue ++ x.mLocalTasks.flatten

/-- What a thread has in its hands was submitted to the pool it is inside of or works for. -/
def Hands (s : Shared τ P T) (t : Thread τ P) : Frame P T → Prop
  | .push p x => s.submitted x = some p
  | .invoke p x | .code (some (p, x)) =>
    s.submitted x = some p ∨ ∃ r, s.submitted x = some r ∧ t.WorksFor r
  | _ => True

/-- The loop of a worker is inside of its own pool only. -/
def Looped (p : P) (stack : List (Frame P T)) : Prop :=
  ∀ k frame, stack = k ++ [frame, .loop] → frame.member = some p

structure Owned (s : Shared τ P T) (f : Thread τ P → List (Frame P T)) : Prop where
  queues : ∀ p, ∀ x ∈ (s.pool p).tasks, s.submitted x = some p
  hands : ∀ t, ∀ frame ∈ f t, Hands s t frame
  freed : ∀ x, x ∈ s.destroyed ∨ x ∈ s.leaked → ∃ p, s.submitted x = some p ∧ Closed (s.pool p)
  loops : ∀ p i, Looped p (f (.worker p i))

variable {s s' : Shared τ P T} {f : Thread τ P → List (Frame P T)}
    {t : Thread τ P} {p r : P} {i : ℕ}
  {x : T} {q frame a : Frame P T} {k n stack : List (Frame P T)} {l queue : List T}

theorem mem_tasks_of_localQueue (h : x ∈ s.localQueue p i) : x ∈ (s.pool p).tasks := by
  refine List.mem_append_right _ (List.mem_flatten.2 ⟨s.localQueue p i, ?_, h⟩)
  have hi := localQueue_ne_nil (List.ne_nil_of_mem h)
  simp [Shared.localQueue, hi]

theorem Hands.later (h : Hands s t frame)
    (hsub : ∀ x p, s.submitted x = some p → s'.submitted x = some p) : Hands s' t frame := by
  unfold Hands at h ⊢
  split
  · exact hsub _ _ h
  · exact h.imp (hsub _ _) fun ⟨r, h1, h2⟩ => ⟨r, hsub _ _ h1, h2⟩
  · exact h.imp (hsub _ _) fun ⟨r, h1, h2⟩ => ⟨r, hsub _ _ h1, h2⟩
  · trivial

/-- Something takes the place of what a thread is inside of, in the same pool. -/
theorem Looped.replace (h : Looped p (q :: k)) (hn : n = [] ∨ n = [a] ∧ a.member = q.member) :
    Looped p (n ++ k) := by
  rcases hn with rfl | ⟨rfl, hm⟩
  · exact fun k' frame hk => h (q :: k') frame (by rw [List.cons_append, ← hk, List.nil_append])
  · intro k' frame hk
    cases k' with
    | nil =>
      obtain ⟨rfl, rfl⟩ := List.cons.inj hk
      exact hm.trans (h [] q rfl)
    | cons b k' =>
      obtain ⟨-, rfl⟩ := List.cons.inj hk
      exact h (q :: k') frame rfl

/-- What is not the loop calls a function. -/
theorem Looped.enter (h : Looped p (q :: k)) (hq : q ≠ .loop) : Looped p (a :: q :: k) := by
  intro k' frame hk
  cases k' with
  | nil =>
    simp only [List.nil_append, List.cons.injEq] at hk
    exact absurd hk.2.1 hq
  | cons b k' => exact h k' frame (List.cons.inj hk).2

section Steps

variable [DecidableEq τ] [DecidableEq P]

theorem Owned.step (h : Owned s f) (hk : k ⊆ f t)
    (hsub : ∀ x p, s.submitted x = some p → s'.submitted x = some p)
    (hq : ∀ p, ∀ x ∈ (s'.pool p).tasks, s'.submitted x = some p)
    (hclosed : ∀ p, Closed (s.pool p) → Closed (s'.pool p))
    (hfreed : ∀ x, x ∈ s'.destroyed ∨ x ∈ s'.leaked → (x ∈ s.destroyed ∨ x ∈ s.leaked) ∨
      ∃ p, s'.submitted x = some p ∧ Closed (s'.pool p))
    (hands : ∀ frame ∈ n, Hands s' t frame)
    (hloop : ∀ p i, t = .worker p i → Looped p (n ++ k)) :
    Owned s' (Function.update f t (n ++ k)) := by
  refine ⟨hq, ?_, fun x hx => ?_, fun p i => ?_⟩
  · refine Program.forall_update (L := fun u stack => ∀ frame ∈ stack, Hands s' u frame) ?_ ?_
    · intro frame hm
      rcases List.mem_append.1 hm with hm | hm
      · exact hands frame hm
      · exact (h.hands t frame (hk hm)).later hsub
    · exact fun u _ frame hm => (h.hands u frame hm).later hsub
  · rcases hfreed x hx with hx | hx
    · obtain ⟨p, h1, h2⟩ := h.freed x hx
      exact ⟨p, hsub x p h1, hclosed p h2⟩
    · exact hx
  · by_cases hu : .worker p i = t
    · rw [hu, Function.update_self]
      exact hloop p i hu.symm
    · rw [Function.update_of_ne hu]
      exact h.loops p i

/-- A step that only moves tasks. -/
theorem Owned.same (h : Owned s f) (hf : f t = q :: k) (hl : SameLogs s s') (hs : Same s s')
    (hq : ∀ p, ∀ x ∈ (s'.pool p).tasks, x ∈ (s.pool p).tasks ∨ s.submitted x = some p)
    (hands : ∀ frame ∈ n, Hands s t frame) (hn : n = [] ∨ n = [a] ∧ a.member = q.member) :
    Owned s' (Function.update f t (n ++ k)) := by
  have hsub : ∀ x p, s.submitted x = some p → s'.submitted x = some p := fun x p => by
    rw [hl.submitted]
    exact id
  refine h.step (inner hf) hsub (fun p x hx => ?_) (fun p => (hs.later p).closed) (fun x hx => ?_)
    (fun frame hm => (hands frame hm).later hsub) fun p i ht => ?_
  · exact hsub x p ((hq p x hx).elim (h.queues p x) id)
  · rw [hl.destroyed, hl.leaked] at hx
    exact .inl hx
  · subst ht
    exact Looped.replace (hf ▸ h.loops p i) hn

omit [DecidableEq τ] in
theorem setPool_self (y : Pool T) : (s.setPool p y).pool p = y := Function.update_self ..

omit [DecidableEq τ] in
theorem setPool_of_ne (hr : r ≠ p) (y : Pool T) : (s.setPool p y).pool r = s.pool r :=
  Function.update_of_ne hr _ _

omit [DecidableEq τ] in
theorem tasks_setLocal (hq : ∀ x ∈ queue, s.submitted x = some p) (r : P) :
    ∀ x ∈ ((s.setLocal p i queue).pool r).tasks, x ∈ (s.pool r).tasks ∨ s.submitted x = some r := by
  intro x hx
  by_cases hr : r = p
  · subst hr
    simp only [Shared.setLocal, Shared.setPool, Function.update_self, Pool.tasks,
      List.mem_append, List.mem_flatten] at hx ⊢
    rcases hx with hx | ⟨l, hl, hx⟩
    · exact .inl (.inl hx)
    · rcases List.mem_or_eq_of_mem_set hl with hl | rfl
      · exact .inl (.inr ⟨l, hl, hx⟩)
      · exact .inr (hq x hx)
  · rw [Shared.setLocal, setPool_of_ne hr] at hx
    exact .inl hx

omit [DecidableEq τ] in
theorem tasks_setGlobal (hq : ∀ x ∈ queue, s.submitted x = some p) (r : P) :
    ∀ x ∈ ((s.setGlobal p queue).pool r).tasks, x ∈ (s.pool r).tasks ∨ s.submitted x = some r := by
  intro x hx
  by_cases hr : r = p
  · subst hr
    simp only [Shared.setGlobal, Shared.setPool, Function.update_self, Pool.tasks,
      List.mem_append] at hx ⊢
    exact hx.elim (fun hx => .inr (hq x hx)) fun hx => .inl (.inr hx)
  · rw [Shared.setGlobal, setPool_of_ne hr] at hx
    exact .inl hx

/-- A pool changes, and none of its queues. -/
theorem Owned.setPool (h : Owned s f) (hk : k ⊆ f t) {y : Pool T}
    (hq : ∀ x ∈ y.tasks, x ∈ (s.pool p).tasks) (hc : Closed (s.pool p) → Closed y)
    (hands : ∀ frame ∈ n, Hands s t frame) (hloop : ∀ p i, t = .worker p i → Looped p (n ++ k)) :
    Owned (s.setPool p y) (Function.update f t (n ++ k)) := by
  refine h.step hk (fun _ _ => id) (fun r x hx => ?_) (fun r hr => ?_) (fun _ => .inl)
    (fun frame hm => (hands frame hm).later fun _ _ => id) hloop
  · by_cases hrp : r = p
    · subst hrp
      rw [setPool_self] at hx
      exact h.queues r x (hq x hx)
    · rw [setPool_of_ne hrp] at hx
      exact h.queues r x hx
  · by_cases hrp : r = p
    · subst hrp
      rw [setPool_self]
      exact hc hr
    · rwa [setPool_of_ne hrp]

omit [DecidableEq τ] [DecidableEq P] in
theorem Control.worksFor (h : Control s f) (hq : s.sLocalWorkQueue t = some (p, i)) :
    t.WorksFor p := by
  have hs := h.shape t
  cases t with
  | outside o => exact nomatch hq.symm.trans hs
  | worker r j =>
    unfold Shape at hs
    rcases hs with ⟨-, h1, -⟩ | ⟨h1, -⟩
    · exact nomatch hq.symm.trans h1
    · obtain ⟨rfl, rfl⟩ := Prod.mk.inj (Option.some.inj (h1.symm.trans hq))
      exact ⟨j, rfl⟩

variable {lockFree ok : Bool}

theorem Owned.freeLocal (hC : Control s f) (h : Owned s f) (hf : f t = .freeLocal p :: k) :
    Owned (s.freeLocal lockFree p) (Function.update f t ([.freeGlobal p] ++ k)) := by
  obtain ⟨hc, -⟩ : Fits s t (.freeLocal p) := hC.fits t _ (hf ▸ List.mem_cons_self)
  have hself : (s.freeLocal lockFree p).pool p = { s.pool p with mLocalTasks := [] } :=
    Function.update_self ..
  have hother : ∀ r, r ≠ p → (s.freeLocal lockFree p).pool r = s.pool r := fun r hr =>
    Function.update_of_ne hr _ _
  have hclosed : ∀ r, Closed (s.pool r) → Closed ((s.freeLocal lockFree p).pool r) := fun r hr => by
    by_cases hrp : r = p
    · subst hrp
      rw [hself]
      exact hc
    · rwa [hother r hrp]
  refine h.step (inner hf) (fun _ _ => id) (fun r x hx => ?_) hclosed (fun x hx => ?_)
    (by simp [Hands])
    fun r i ht => ?_
  · by_cases hrp : r = p
    · subst hrp
      rw [hself] at hx
      exact h.queues r x (by simp_all [Pool.tasks])
    · rw [hother r hrp] at hx
      exact h.queues r x hx
  · have hx' : x ∈ (s.pool p).mLocalTasks.flatten ∨ x ∈ s.destroyed ∨ x ∈ s.leaked := by
      unfold Shared.freeLocal at hx
      cases lockFree <;> simp only [Bool.false_eq_true, if_true, if_false,
        List.mem_append] at hx <;> tauto
    rcases hx' with hx | hx
    · exact .inr ⟨p, h.queues p x (List.mem_append_right _ hx), hclosed p hc⟩
    · exact .inl hx
  · subst ht
    have hl := h.loops r i
    rw [hf] at hl
    exact hl.replace (.inr ⟨rfl, rfl⟩)

theorem Owned.freeGlobal (h : Owned s f) (hf : f t = .freeGlobal p :: k) :
    Owned (s.freeGlobal p) (Function.update f t ([] ++ k)) := by
  have hself : (s.freeGlobal p).pool p = { s.pool p with mGlobalWorkQueue := [], stage := .dead } :=
    Function.update_self ..
  have hother : ∀ r, r ≠ p → (s.freeGlobal p).pool r = s.pool r := fun r hr =>
    Function.update_of_ne hr _ _
  have hdead : Closed ((s.freeGlobal p).pool p) := hself ▸ .inr rfl
  refine h.step (inner hf) (fun _ _ => id) (fun r x hx => ?_) (fun r hr => ?_)
    (fun x hx => ?_) (by simp)
    fun r i ht => ?_
  · by_cases hrp : r = p
    · subst hrp
      rw [hself] at hx
      exact h.queues r x (by simp_all [Pool.tasks])
    · rw [hother r hrp] at hx
      exact h.queues r x hx
  · by_cases hrp : r = p
    · exact hrp ▸ hdead
    · rwa [hother r hrp]
  · have hx' : x ∈ (s.pool p).mGlobalWorkQueue ∨ x ∈ s.destroyed ∨ x ∈ s.leaked := by
      unfold Shared.freeGlobal at hx
      simp only [List.mem_append] at hx
      tauto
    rcases hx' with hx | hx
    · exact .inr ⟨p, h.queues p x (List.mem_append_left _ hx), hdead⟩
    · exact .inl hx
  · subst ht
    exact Looped.replace (a := .start) (hf ▸ h.loops r i) (.inl rfl)

theorem owned_run (hC : Control s f) (h : Owned s f) (hf : f t = q :: k)
    (hn : nextRun lockFree t ok s q = some (s', n)) : Owned s' (Function.update f t (n ++ k)) := by
  have hq : Fits s t q := hC.fits t q (hf ▸ List.mem_cons_self)
  have hh : Hands s t q := h.hands t q (hf ▸ List.mem_cons_self)
  -- what only moves a task at most
  have hmove : ∀ {s' : Shared τ P T} {a : Frame P T}, SameLogs s s' → Same s s' →
      (∀ p, ∀ x ∈ (s'.pool p).tasks, x ∈ (s.pool p).tasks ∨ s.submitted x = some p) →
      Hands s t a → a.member = q.member → Owned s' (Function.update f t ([a] ++ k)) :=
    fun hl hs ht ha hm => h.same hf hl hs ht (by simpa using ha) (.inr ⟨rfl, hm⟩)
  have hstay : ∀ {a : Frame P T}, Hands s t a → a.member = q.member →
      Owned s (Function.update f t ([a] ++ k)) :=
    hmove ⟨rfl, rfl, rfl, rfl, rfl⟩ .refl fun _ _ => .inl
  have hdone : ∀ {s' : Shared τ P T}, SameLogs s s' → Same s s' →
      (∀ p, ∀ x ∈ (s'.pool p).tasks, x ∈ (s.pool p).tasks ∨ s.submitted x = some p) →
      Owned s' (Function.update f t ([] ++ k)) :=
    fun hl hs ht => h.same (a := q) hf hl hs ht (by simp) (.inl rfl)
  revert hn
  fun_cases nextRun lockFree t ok s q <;> intro hn <;> cases hn
  · exact hstay trivial rfl
  · refine h.step (inner hf) (fun _ _ => id) h.queues (fun _ => id)
      (fun _ => .inl) (by simp [Hands])
      fun r i ht => ?_
    have hl := h.loops r i
    rw [← ht, hf] at hl
    exact hl.replace (.inr ⟨rfl, rfl⟩)
  · refine h.setPool (inner hf) (fun _ => id) id (by simp) fun r i ht => ?_
    have hl := h.loops r i
    rw [← ht, hf] at hl
    exact hl.replace (a := .start) (.inl rfl)
  · -- the loop begins another pass
    rename_i r i _
    refine h.step (inner hf) (fun _ _ => id) h.queues (fun _ => id)
      (fun _ => .inl) (by simp [Hands])
      fun r' i' ht k' frame hk => ?_
    cases ht
    cases k' with
    | nil =>
      obtain ⟨rfl, -⟩ := List.cons.inj hk
      rfl
    | cons b k' =>
      have hl := h.loops r i
      rw [hf] at hl
      exact hl k' frame (List.cons.inj hk).2
  · -- to the local queue of the thread
    rename_i r x j i hj
    obtain rfl : j = r := hq.2 j i hj
    refine hdone ⟨rfl, rfl, rfl, rfl, rfl⟩ (same_setLocal _ _) (tasks_setLocal fun y hy => ?_)
    rcases List.mem_cons.1 hy with rfl | hy
    · exact hh
    · exact h.queues j y (mem_tasks_of_localQueue hy)
  · rename_i r x hj
    refine hdone ⟨rfl, rfl, rfl, rfl, rfl⟩ (same_setGlobal _) (tasks_setGlobal fun y hy => ?_)
    rcases List.mem_append.1 hy with hy | hy
    · exact h.queues r y (List.mem_append_left _ hy)
    · exact List.mem_singleton.1 hy ▸ hh
  · rename_i r j i x queue hpop hj
    have hl := pop_spec hpop
    have hmem : ∀ y ∈ x :: queue, s.submitted y = some j := fun y hy =>
      h.queues j y (mem_tasks_of_localQueue (i := i) (hl ▸ hy))
    refine hmove ⟨rfl, rfl, rfl, rfl, rfl⟩ (same_setLocal _ _)
      (tasks_setLocal fun y hy => hmem y (List.mem_cons_of_mem _ hy)) ?_ rfl
    exact .inr ⟨j, hmem x List.mem_cons_self, hC.worksFor hj⟩
  · exact hstay trivial rfl
  · exact hstay trivial rfl
  · rename_i r x queue hl
    have hmem : ∀ y ∈ x :: queue, s.submitted y = some r := fun y hy =>
      h.queues r y (List.mem_append_left _ (hl ▸ hy))
    exact hmove ⟨rfl, rfl, rfl, rfl, rfl⟩ (same_setGlobal _)
      (tasks_setGlobal fun y hy => hmem y (List.mem_cons_of_mem _ hy))
      (.inl (hmem x List.mem_cons_self)) rfl
  · exact hstay trivial rfl
  · rename_i r i hi x queue j hsteal
    have hl := steal_spec hsteal
    have hmem : ∀ y ∈ queue ++ [x], s.submitted y = some r := fun y hy =>
      h.queues r y (mem_tasks_of_localQueue (hl ▸ hy))
    exact hmove ⟨rfl, rfl, rfl, rfl, rfl⟩ (same_setLocal _ _)
      (tasks_setLocal fun y hy => hmem y (List.mem_append_left _ hy)) (.inl (hmem x (by simp))) rfl
  · exact hstay trivial rfl
  · exact hdone ⟨rfl, rfl, rfl, rfl, rfl⟩ .refl fun _ _ => .inl
  · rename_i r x
    refine h.step (inner hf) (fun _ _ => id) h.queues (fun _ => id) (fun _ => .inl)
      (by simpa [Hands] using hh) fun r' i' ht => ?_
    have hl := h.loops r' i'
    rw [← ht, hf] at hl
    exact hl.replace (.inr ⟨rfl, rfl⟩)
  · refine h.setPool (inner hf) (fun _ => id) id (by simp [Hands]) fun r i ht => ?_
    have hl := h.loops r i
    rw [← ht, hf] at hl
    exact hl.replace (.inr ⟨rfl, rfl⟩)
  · exact hstay trivial rfl
  · exact hstay trivial rfl
  · exact h.freeLocal hC hf
  · exact h.freeGlobal hf

variable [DecidableEq T] {act : Act P T}

theorem owned_step (hC : Control s f) (h : Owned s f)
    (hn : next lockFree t act s (f t) = some (s', stack)) :
    Owned s' (Function.update f t stack) := by
  -- what calls is a task or an outside thread, and not the loop
  have hcall : ∀ {task : Option (P × T)} {k : List (Frame P T)} {a : Frame P T},
      f t = .code task :: k → ∀ p i, t = .worker p i → Looped p (a :: .code task :: k) :=
    fun hf p i ht => by
      have hl := h.loops p i
      rw [← ht, hf] at hl
      exact hl.enter (by simp)
  generalize hp : f t = p at hn
  revert hn
  fun_cases next lockFree t act s p <;> intro hn
  case case9 =>
    obtain ⟨r, hr, hq⟩ := Option.map_eq_some_iff.1 hn
    cases hq
    exact owned_run hC h hp hr
  all_goals cases hn
  · rename_i task k r m hst
    have hs := h.setPool (p := r) (n := []) (List.Subset.refl (f t)) (y := .make m)
      (by simp [Pool.tasks, Pool.make]) (fun hc => by simp [Closed, hst] at hc) (by simp)
      fun p i ht => ht ▸ h.loops p i
    rwa [hp] at hs
  · rename_i task k r x hx
    set s' : Shared τ P T := { s with submitted := Function.update s.submitted x (some r) } with hs'
    have hsub : ∀ y p, s.submitted y = some p → s'.submitted y = some p := fun y p hy => by
      refine (Function.update_of_ne ?_ _ _).trans hy
      rintro rfl
      cases hx.symm.trans hy
    have hpush : Hands s' t (.push r x) := Function.update_self ..
    have hs : Owned s' _ := h.step (t := t) (n := [.push r x]) (List.Subset.refl (f t)) hsub
      (fun p y hy => hsub y p (h.queues p y hy)) (fun _ => id) (fun _ => .inl)
      (by simpa using hpush)
      fun p i ht => hp ▸ hcall hp p i ht
    rwa [hp] at hs
  · rename_i task k r
    have hs := h.step (n := [.fromLocal r]) (List.Subset.refl (f t)) (fun _ _ => id) h.queues
      (fun _ => id) (fun _ => .inl) (by simp [Hands]) fun p i ht => hp ▸ hcall hp p i ht
    rwa [hp] at hs
  · rename_i task k r hst
    have hs := h.setPool (p := r) (n := [.setDone r]) (List.Subset.refl (f t))
      (y := { s.pool r with stage := .dying }) (fun _ => id) (fun _ => .inl rfl) (by simp [Hands])
      fun p i ht => hp ▸ hcall hp p i ht
    rwa [hp] at hs
  · rename_i r x k
    refine h.step (n := []) (inner hp) (fun _ _ => id) h.queues (fun _ => id)
      (fun _ => .inl) (by simp)
      fun p i ht => ?_
    have hl := h.loops p i
    rw [← ht, hp] at hl
    exact hl.replace (a := .start) (.inl rfl)

omit [DecidableEq τ] [DecidableEq P] [DecidableEq T] in
theorem owned_initial : Owned (initial : Shared τ P T) fun _ => [.start] where
  queues p := by simp [initial, Pool.tasks]
  hands t := by simp [Hands]
  freed x := by simp [initial]
  loops p i k frame hk := by
    have hlen := congrArg List.length hk
    simp at hlen

/-- All that holds while the callers keep to the lifetimes and submit to their own pool. -/
structure Inv (c : Conf (Thread τ P) (Shared τ P T) (List (Frame P T))) : Prop where
  control : Control c.shared c.pc
  tasks : Tasks c.shared c.pc
  owned : Owned c.shared c.pc

theorem inv {c : Conf (Thread τ P) (Shared τ P T) (List (Frame P T))}
    (h : (system lockFree).Reach (fun c l => InLifetime c l ∧ SubmitsOwn c l) c) : Inv c := by
  refine System.Reach.induct (P := Inv) ?_ ?_ h
  · rintro ⟨s, f⟩ ⟨rfl, rfl⟩
    exact ⟨control_initial, tasks_initial, owned_initial⟩
  · rintro c ⟨t, act⟩ c' - ⟨hC, hT, hO⟩ hl hst
    obtain ⟨s', stack, hn, rfl⟩ := Program.step_eq_some.1 hst
    exact ⟨control_step hC hl hn, tasks_step hC hT hn, owned_step hC hO hn⟩

end Steps

section Isolation

/-- A thread has taken the task for execution. -/
def Taken (s : Shared τ P T) (f : Thread τ P → List (Frame P T)) (x : T) : Prop :=
  (∃ t r, .invoke r x ∈ f t ∨ .code (some (r, x)) ∈ f t) ∨ x ∈ s.finished

structure Isolated (s : Shared τ P T) (f : Thread τ P → List (Frame P T)) : Prop where
  -- in the queues of its pool from `submit` on until it is taken or destroyed with the pool
  stored : ∀ x p, s.submitted x = some p → x ∈ (s.pool p).tasks ∨ (∃ t, .push p x ∈ f t) ∨
    Taken s f x ∨ (x ∈ s.destroyed ∨ x ∈ s.leaked) ∧ Closed (s.pool p)
  elsewhere : ∀ p, ∀ x ∈ (s.pool p).tasks, s.submitted x = some p
  taken : ∀ p i r x, f (.worker p i) = [.invoke r x, .loop] → s.submitted x = some p

variable [DecidableEq τ] [DecidableEq P] [DecidableEq T] {lockFree : Bool}
  {c : Conf (Thread τ P) (Shared τ P T) (List (Frame P T))}

theorem pools_isolated
    (h : (system lockFree).Reach (fun c l => InLifetime c l ∧ SubmitsOwn c l) c) :
    Isolated c.shared c.pc := by
  obtain ⟨hC, hT, hO⟩ := inv h
  refine ⟨fun x p hx => ?_, hO.queues, fun p i r x hw => ?_⟩
  · have hsame : ∀ {r}, c.shared.submitted x = some r → r = p := fun hr =>
      Option.some.inj (hr.symm.trans hx)
    rcases (hT.account x).1 (by simp [hx]) with ⟨a, -, ha⟩ | hg
    · cases a with
      | global r =>
        have hm : x ∈ (c.shared.pool r).tasks := List.mem_append_left _ ha
        exact .inl (hsame (hO.queues r x hm) ▸ hm)
      | localQueue r i =>
        have hm : x ∈ (c.shared.pool r).tasks := mem_tasks_of_localQueue ha
        exact .inl (hsame (hO.queues r x hm) ▸ hm)
      | hand t =>
        obtain ⟨frame, hm, hfr⟩ := List.mem_filterMap.1 ha
        have hh := hO.hands t frame hm
        unfold Frame.task? at hfr
        split at hfr <;> cases hfr
        · exact .inr (.inl ⟨t, hsame hh ▸ hm⟩)
        · exact .inr (.inr (.inl (.inl ⟨t, _, .inl hm⟩)))
        · exact .inr (.inr (.inl (.inl ⟨t, _, .inr hm⟩)))
    · rcases hg with hg | hg
      · exact .inr (.inr (.inl (.inr hg)))
      · obtain ⟨r, hr, hc⟩ := hO.freed x hg
        exact .inr (.inr (.inr ⟨hg, hsame hr ▸ hc⟩))
  · -- the loop is inside of its own pool
    obtain rfl : r = p := Option.some.inj (hO.loops p i [] (.invoke r x) hw)
    rcases hO.hands (.worker r i) (.invoke r x) (hw ▸ List.mem_cons_self) with hx | ⟨p, hx, j, hj⟩
    · exact hx
    · cases hj
      exact hx

end Isolation

section Runs

/-- Steps of an outside thread and of workers that keep to the lifetimes: only the one pool there is
is destroyed, and when the outside thread is inside of nothing. -/
def Orderly (c : Conf (Thread Unit P) (Shared Unit P T) (List (Frame P T)))
    (l : Thread Unit P × Act P T) : Prop :=
  match l with
  | (_, .submit pool _) | (_, .runPendingTask pool) => (c.shared.pool pool).stage = .alive
  | (t, .destroy pool) => t = .outside () ∧ c.pc (.outside ()) = [.code none] ∧ ∀ q, q = pool
  | _ => True

instance [Fintype P] [DecidableEq P] [DecidableEq T]
    (c : Conf (Thread Unit P) (Shared Unit P T) (List (Frame P T))) (l : Thread Unit P × Act P T) :
    Decidable (Orderly c l) :=
  match l with
  | (_, .submit pool _) | (_, .runPendingTask pool) =>
    inferInstanceAs (Decidable ((c.shared.pool pool).stage = .alive))
  | (t, .destroy pool) => inferInstanceAs
    (Decidable (t = .outside () ∧ c.pc (.outside ()) = [.code none] ∧ ∀ q, q = pool))
  | (_, .construct _ _) | (_, .finish) | (_, .run _) => isTrue trivial

theorem Orderly.inLifetime {c : Conf (Thread Unit P) (Shared Unit P T) (List (Frame P T))}
    {l : Thread Unit P × Act P T} (h : Orderly c l) : InLifetime c l := by
  obtain ⟨t, act⟩ := l
  cases act with
  | submit p x => exact .inl h
  | runPendingTask p => exact .inl h
  | destroy p =>
    obtain ⟨rfl, hout, hall⟩ := h
    refine ⟨nofun, fun u hu frame hm => ?_⟩
    cases u with
    | outside o =>
      rw [hout, List.mem_singleton] at hm
      subst hm
      nofun
    | worker q i => exact absurd ⟨i, by rw [hall q]⟩ hu
  | _ => trivial

theorem submitsOwn [Subsingleton P] (c : Conf (Thread τ P) (Shared τ P T) (List (Frame P T)))
    (l : Thread τ P × Act P T) : SubmitsOwn c l := fun _ _ _ _ _ _ => Subsingleton.elim ..

instance [DecidableEq P] (c : Conf (Thread τ P) (Shared τ P T) (List (Frame P T)))
    (l : Thread τ P × Act P T) : Decidable (SubmitsOwn c l) :=
  match l with
  | (t, .submit pool x) => decidable_of_iff (∀ y ∈ c.shared.sLocalWorkQueue t, y.1 = pool)
    ⟨fun h _ _ he q i hq => by cases he; exact h (q, i) hq, fun h y hy => h pool x rfl y.1 y.2 hy⟩
  | (_, .construct _ _) | (_, .runPendingTask _) | (_, .destroy _) | (_, .finish) | (_, .run _) =>
    isTrue fun _ _ h => by cases h

/-- Each of two pools has a task of its own in its worker's hands. The one of the second pool was
submitted by a task that ran on the same worker, and went through its local queue. -/
theorem pools_isolated_two : ∃ c : Conf (Thread Unit Bool) (Shared Unit Bool ℕ)
    (List (Frame Bool ℕ)), Isolated c.shared c.pc ∧
      c.pc (.worker false 0) = [.invoke false 0, .loop] ∧
        c.pc (.worker true 0) = [.invoke true 2, .loop] ∧ c.shared.finished = [1] := by
  let run (t : Thread Unit Bool) (n : ℕ) : List (Thread Unit Bool × Act Bool ℕ) :=
    List.replicate n (t, .run true)
  let c₀ : Conf (Thread Unit Bool) (Shared Unit Bool ℕ) (List (Frame Bool ℕ)) :=
    ⟨initial, fun _ => [.start]⟩
  let as : List (Thread Unit Bool × Act Bool ℕ) :=
    (.outside (), .run true) :: (.outside (), .construct false 1) ::
      (.outside (), .construct true 1) :: (.outside (), .submit false 0) :: run (.outside ()) 1 ++
      (.outside (), .submit true 1) :: run (.outside ()) 1 ++ run (.worker true 0) 5 ++
      (.worker true 0, .submit true 2) :: run (.worker true 0) 1 ++ (.worker true 0, .finish) ::
      run (.worker true 0) 2 ++ run (.worker false 0) 4
  have hex : ((system true).execIf (fun c l => Orderly c l ∧ SubmitsOwn c l) c₀ as).any (fun c =>
      c.pc (.worker false 0) = [.invoke false 0, .loop] ∧
        c.pc (.worker true 0) = [.invoke true 2, .loop] ∧ c.shared.finished = [1]) = true := by
    decide +kernel
  have hinit : (system true).init c₀ := ⟨rfl, rfl⟩
  obtain ⟨c, hr, hlast⟩ := System.exists_reach_any (C := fun c l => InLifetime c l ∧ SubmitsOwn c l)
    hinit (fun c l h => ⟨h.1.inLifetime, h.2⟩) hex
  exact ⟨c, pools_isolated hr, of_decide_eq_true hlast⟩

/-- A task that runs on a worker of the second pool submits to the first: the worker has it in its
local queue, and takes it in its loop. -/
theorem submits_abroad : ∃ c : Conf (Thread Unit Bool) (Shared Unit Bool Bool)
    (List (Frame Bool Bool)), (system false).Reach InLifetime c ∧ ¬ Isolated c.shared c.pc := by
  let c₀ : Conf (Thread Unit Bool) (Shared Unit Bool Bool) (List (Frame Bool Bool)) :=
    ⟨initial, fun _ => [.start]⟩
  let as : List (Thread Unit Bool × Act Bool Bool) :=
    [(.outside (), .run true), (.outside (), .construct false 1), (.outside (), .construct true 1),
      (.outside (), .submit true false), (.outside (), .run true), (.worker true 0, .run true),
      (.worker true 0, .run true), (.worker true 0, .run true), (.worker true 0, .run true),
      (.worker true 0, .run true), (.worker true 0, .submit false true),
      (.worker true 0, .run true), (.worker true 0, .finish), (.worker true 0, .run true),
      (.worker true 0, .run true)]
  have hex : ((system false).execIf Orderly c₀ as).any (fun c =>
      c.pc (.worker true 0) = [.invoke true true, .loop] ∧ c.shared.submitted true = some false) =
        true := by
    decide +kernel
  have hinit : (system false).init c₀ := ⟨rfl, rfl⟩
  obtain ⟨c, hr, htaken⟩ := System.exists_reach_any (C := InLifetime) hinit
    (fun c l h => h.inLifetime) hex
  obtain ⟨htaken, hfalse⟩ := of_decide_eq_true htaken
  refine ⟨c, hr, fun hI => ?_⟩
  have htrue := hI.taken true 0 true true htaken
  exact nomatch hfalse.symm.trans htrue

end Runs

end ThreadPool

end ConcurrencySandbox

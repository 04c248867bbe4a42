import ConcurrencySandbox.ThreadPool.Basic

/-!
# Pools and their workers

While the callers keep to the lifetime of a pool, it is destroyed in this order: nobody from outside
is inside its functions any more, its workers have returned, its local queues go, its global queue
goes. A worker runs as long as its local queue is there.
-/

namespace ConcurrencySandbox

open Interleaving

namespace ThreadPool

variable {τ P T : Type*}

def Closed (x : Pool T) : Prop := x.stage = .dying ∨ x.stage = .dead

/-- The workers have returned and the local queues are gone. -/
def Drained (x : Pool T) : Prop := x.mLocalTasks = [] ∧ ∀ j < x.numThread, x.ended j = true

def PoolOk (x : Pool T) : Prop :=
  match x.stage with
  | .unborn => x.mLocalTasks = [] ∧ x.mGlobalWorkQueue = [] ∧ x.numThread = 0
  | .alive => x.mLocalTasks.length = x.numThread
  | .dying => x.mLocalTasks.length = x.numThread ∨ Drained x
  | .dead => Drained x ∧ x.mGlobalWorkQueue = []

/-- A thread may be inside a function of the pool. -/
def Live (s : Shared τ P T) (t : Thread τ P) (p : P) : Prop :=
  (s.pool p).stage = .alive ∨ (s.pool p).stage = .dying ∧ t.WorksFor p

/-- What holds while a thread is inside of something. -/
def Fits (s : Shared τ P T) (t : Thread τ P) : Frame P T → Prop
  | .push p _ => Live s t p ∧ ∀ q i, s.sLocalWorkQueue t = some (q, i) → q = p
  | .fromLocal p | .fromGlobal p | .fromOther p _ | .invoke p _ | .code (some (p, _)) => Live s t p
  | .setDone p => Closed (s.pool p)
  | .join p i => Closed (s.pool p) ∧ ∀ j < i, (s.pool p).ended j = true
  | .freeLocal p => Closed (s.pool p) ∧ ∀ j < (s.pool p).numThread, (s.pool p).ended j = true
  | .freeGlobal p => Closed (s.pool p) ∧ Drained (s.pool p)
  | .start | .loop | .code none => True

/-- A worker that has not begun, that has returned, or that is in its loop. -/
def Shape (s : Shared τ P T) (t : Thread τ P) (stack : List (Frame P T)) : Prop :=
  match t with
  | .outside _ => s.sLocalWorkQueue t = none
  | .worker p j =>
    stack = [.start] ∧ s.sLocalWorkQueue t = none ∧ (s.pool p).ended j = false ∨
      s.sLocalWorkQueue t = some (p, j) ∧ j < (s.pool p).numThread ∧
        (stack = [] ∧ (s.pool p).ended j = true ∨
          (s.pool p).ended j = false ∧ ∃ k, stack = k ++ [.loop] ∧ .loop ∉ k ∧ .start ∉ k)

structure Control (s : Shared τ P T) (f : Thread τ P → List (Frame P T)) : Prop where
  pools : ∀ p, PoolOk (s.pool p)
  fits : ∀ t, ∀ frame ∈ f t, Fits s t frame
  shape : ∀ t, Shape s t (f t)

variable {s s' : Shared τ P T} {f : Thread τ P → List (Frame P T)}
    {t u : Thread τ P} {p : P} {j : ℕ}
  {q frame : Frame P T} {k n stack : List (Frame P T)}

theorem Fits.live (h : Fits s t frame) (hm : frame.member = some p) : Live s t p := by
  unfold Frame.member at hm
  split at hm <;> cases hm
  · exact h.1
  all_goals exact h

/-- Pools only move on. -/
structure Later (s s' : Shared τ P T) (p : P) : Prop where
  closed : Closed (s.pool p) → Closed (s'.pool p)
  numThread : Closed (s.pool p) → (s'.pool p).numThread = (s.pool p).numThread
  ended : Closed (s.pool p) → ∀ j, (s.pool p).ended j = true → (s'.pool p).ended j = true
  empty : Closed (s.pool p) → (s.pool p).mLocalTasks = [] → (s'.pool p).mLocalTasks = []

theorem Later.drained (h : Later s s' p) (hc : Closed (s.pool p)) (hd : Drained (s.pool p)) :
    Drained (s'.pool p) :=
  ⟨h.empty hc hd.1, fun j hj => h.ended hc j (hd.2 j (h.numThread hc ▸ hj))⟩

theorem Fits.later (h : Fits s t frame) (hl : ∀ p, Later s s' p)
    (hlive : ∀ p, frame.member = some p → Live s t p → Live s' t p)
    (hq : s'.sLocalWorkQueue t = s.sLocalWorkQueue t) : Fits s' t frame := by
  unfold Fits at h ⊢
  split at h
  · rw [hq]
    exact ⟨hlive _ rfl h.1, h.2⟩
  all_goals try exact hlive _ rfl h
  · exact (hl _).closed h
  · exact ⟨(hl _).closed h.1, fun j hj => (hl _).ended h.1 j (h.2 j hj)⟩
  · refine ⟨(hl _).closed h.1, fun j hj => (hl _).ended h.1 j (h.2 j ?_)⟩
    exact (hl _).numThread h.1 ▸ hj
  · exact ⟨(hl _).closed h.1, (hl _).drained h.1 h.2⟩
  all_goals trivial

theorem Shape.congr (h : Shape s t stack) (hq : s'.sLocalWorkQueue t = s.sLocalWorkQueue t)
    (he : ∀ p j, t = .worker p j → (s'.pool p).ended j = (s.pool p).ended j)
    (hn : ∀ p j, t = .worker p j → j < (s.pool p).numThread → j < (s'.pool p).numThread) :
    Shape s' t stack := by
  cases t with
  | outside o => exact hq.trans h
  | worker p j =>
    unfold Shape at h ⊢
    simp only [hq, he p j rfl] at h ⊢
    exact h.imp id fun h => ⟨h.1, hn p j rfl h.2.1, h.2.2⟩

/-- A worker that is inside of something has begun and not returned. -/
theorem Control.runs (h : Control s f) (hf : f (.worker p j) = q :: k) (hq : q ≠ .start) :
    j < (s.pool p).numThread ∧ (s.pool p).ended j = false ∧
      s.sLocalWorkQueue (.worker p j) = some (p, j) ∧
        ∃ k', q :: k = k' ++ [.loop] ∧ .loop ∉ k' ∧ .start ∉ k' := by
  have hs := h.shape (.worker p j)
  unfold Shape at hs
  simp only [hf] at hs
  rcases hs with ⟨h1, -⟩ | ⟨h1, h2, ⟨h3, -⟩ | ⟨h3, h4⟩⟩
  · exact absurd (List.cons.inj h1).1 hq
  · cases h3
  · exact ⟨h2, h3, h1, h4⟩

/-- While one of its workers runs, a pool has its local queues. -/
theorem Control.running (h : Control s f) (hf : f (.worker p j) = q :: k) (hq : q ≠ .start) :
    j < (s.pool p).mLocalTasks.length ∧ ¬ Drained (s.pool p) ∧
      ((s.pool p).stage = .alive ∨ (s.pool p).stage = .dying) := by
  obtain ⟨h1, h2, -⟩ := h.runs hf hq
  have hnd : ¬ Drained (s.pool p) := fun hd => by simp [hd.2 j h1] at h2
  have hok := h.pools p
  unfold PoolOk at hok
  split at hok
  · rw [hok.2.2] at h1
    cases h1
  · rename_i hst
    exact ⟨hok ▸ h1, hnd, .inl hst⟩
  · rename_i hst
    exact ⟨hok.resolve_right hnd ▸ h1, hnd, .inr hst⟩
  · exact absurd hok.1 hnd

/-- More workers may have returned. -/
theorem PoolOk.later {x x' : Pool T} (h : PoolOk x) (hst : x'.stage = x.stage)
    (hl : x'.mLocalTasks = x.mLocalTasks) (hg : x'.mGlobalWorkQueue = x.mGlobalWorkQueue)
    (hn : x'.numThread = x.numThread) (he : ∀ j, x.ended j = true → x'.ended j = true) :
    PoolOk x' := by
  have hd : Drained x → Drained x' := fun hd => ⟨hl.trans hd.1, fun j hj => he j (hd.2 j (hn ▸ hj))⟩
  unfold PoolOk at h ⊢
  rw [hst]
  split at h
  · rwa [hl, hg, hn]
  · rwa [hl, hn]
  · rw [hl, hn]
    exact h.imp id hd
  · exact ⟨hd h.1, hg.trans h.2⟩

/-- What changes nothing that the lifetimes depend on. -/
structure Same (s s' : Shared τ P T) : Prop where
  stage : ∀ p, (s'.pool p).stage = (s.pool p).stage
  numThread : ∀ p, (s'.pool p).numThread = (s.pool p).numThread
  ended : ∀ p, (s'.pool p).ended = (s.pool p).ended
  length : ∀ p, (s'.pool p).mLocalTasks.length = (s.pool p).mLocalTasks.length
  sLocalWorkQueue : s'.sLocalWorkQueue = s.sLocalWorkQueue

theorem Same.refl : Same s s := ⟨fun _ => rfl, fun _ => rfl, fun _ => rfl, fun _ => rfl, rfl⟩

theorem Same.empty (h : Same s s') :
    (s'.pool p).mLocalTasks = [] ↔ (s.pool p).mLocalTasks = [] := by
  rw [← List.length_eq_zero_iff, h.length, List.length_eq_zero_iff]

theorem Same.later (h : Same s s') (p : P) : Later s s' p where
  closed hc := by
    unfold Closed at hc ⊢
    rwa [h.stage]
  numThread _ := h.numThread p
  ended _ j hj := by rwa [h.ended]
  empty _ := h.empty.2

theorem Same.live (h : Same s s') : Live s' t p ↔ Live s t p := by
  unfold Live
  rw [h.stage]

theorem Same.fits (h : Same s s') (hf : Fits s t frame) : Fits s' t frame :=
  hf.later h.later (fun _ _ => h.live.2) (by rw [h.sLocalWorkQueue])

/-- The tasks of the global queue apart, which only a pool that is there can have. -/
theorem Same.pool (h : Same s s') (hok : PoolOk (s.pool p))
    (hg : (s'.pool p).mGlobalWorkQueue = [] ∨ (s.pool p).stage = .alive ∨
      (s.pool p).stage = .dying) : PoolOk (s'.pool p) := by
  have hd : Drained (s.pool p) → Drained (s'.pool p) := fun hd =>
    ⟨h.empty.2 hd.1, fun j hj => by
      rw [h.ended]
      exact hd.2 j (h.numThread p ▸ hj)⟩
  unfold PoolOk at hok ⊢
  rw [h.stage]
  split at hok
  · rename_i hst
    refine ⟨h.empty.2 hok.1, hg.resolve_right ?_, (h.numThread p).trans hok.2.2⟩
    simp [hst]
  · rw [h.length, h.numThread]
    exact hok
  · rw [h.length, h.numThread]
    exact hok.imp id hd
  · rename_i hst
    refine ⟨hd hok.1, hg.resolve_right ?_⟩
    simp [hst]

theorem inner (hf : f t = q :: k) : k ⊆ f t := hf ▸ List.subset_cons_self q k

/-- What calls is inside of something more. -/
theorem Control.enter (h : Control s f) (hf : f t = q :: k) (hq : q ≠ .start)
    (hnew : .loop ∉ n ∧ .start ∉ n) : Shape s t (n ++ f t) := by
  cases t with
  | outside o => exact h.shape (.outside o)
  | worker p j =>
    obtain ⟨h1, h2, h3, k', h4, h5, h6⟩ := h.runs hf hq
    refine .inr ⟨h3, h1, .inr ⟨h2, n ++ k', ?_, ?_, ?_⟩⟩
    · rw [hf, h4, List.append_assoc]
    · exact fun hm => (List.mem_append.1 hm).elim hnew.1 h5
    · exact fun hm => (List.mem_append.1 hm).elim hnew.2 h6

/-- Something takes the place of what a thread is inside of. -/
theorem Control.replace (h : Control s f) (hf : f t = q :: k) (hq : q ≠ .start) (hq' : q ≠ .loop)
    (hnew : .loop ∉ n ∧ .start ∉ n) : Shape s t (n ++ k) := by
  cases t with
  | outside o => exact h.shape (.outside o)
  | worker p j =>
    obtain ⟨h1, h2, h3, k', h4, h5, h6⟩ := h.runs hf hq
    refine .inr ⟨h3, h1, .inr ⟨h2, ?_⟩⟩
    cases k' with
    | nil => exact absurd (List.cons.inj h4).1 hq'
    | cons q' k' =>
      obtain ⟨rfl, rfl⟩ := List.cons.inj h4
      simp only [List.mem_cons, not_or] at h5 h6
      refine ⟨n ++ k', (List.append_assoc ..).symm, ?_, ?_⟩
      · exact fun hm => (List.mem_append.1 hm).elim hnew.1 h5.2
      · exact fun hm => (List.mem_append.1 hm).elim hnew.2 h6.2

section Steps

variable [DecidableEq τ] [DecidableEq P]

theorem Control.step (h : Control s f) (hk : k ⊆ f t) (hpools : ∀ p, PoolOk (s'.pool p))
    (hl : ∀ p, Later s s' p)
    (hlive : ∀ u p frame, frame ∈ f u → frame.member = some p → Live s u p → Live s' u p)
    (hq : ∀ u, u ≠ t ∨ k ≠ [] → s'.sLocalWorkQueue u = s.sLocalWorkQueue u)
    (he : ∀ p j, .worker p j ≠ t → (s'.pool p).ended j = (s.pool p).ended j)
    (hn : ∀ p j, j < (s.pool p).numThread → j < (s'.pool p).numThread)
    (hfits : ∀ frame ∈ n, Fits s' t frame) (hshape : Shape s' t (n ++ k)) :
    Control s' (Function.update f t (n ++ k)) := by
  refine ⟨hpools, ?_, ?_⟩
  · refine Program.forall_update (L := fun u stack => ∀ frame ∈ stack, Fits s' u frame) ?_ ?_
    · intro frame hm
      rcases List.mem_append.1 hm with hm | hm
      · exact hfits frame hm
      · exact (h.fits t frame (hk hm)).later hl (fun p => hlive t p frame (hk hm))
          (hq t (.inr (List.ne_nil_of_mem hm)))
    · exact fun u hu frame hm =>
        (h.fits u frame hm).later hl (fun p => hlive u p frame hm) (hq u (.inl hu))
  · refine Program.forall_update (L := fun u stack => Shape s' u stack) hshape fun u hu => ?_
    exact (h.shape u).congr (hq u (.inl hu)) (fun p j e => he p j (e ▸ hu)) fun p j _ => hn p j

/-- A step that only moves tasks. -/
theorem Control.same (h : Control s f) (hk : k ⊆ f t) (hs : Same s s')
    (hg : ∀ p, (s'.pool p).mGlobalWorkQueue = [] ∨ (s'.pool p).mGlobalWorkQueue =
      (s.pool p).mGlobalWorkQueue ∨ (s.pool p).stage = .alive ∨ (s.pool p).stage = .dying)
    (hfits : ∀ frame ∈ n, Fits s t frame) (hshape : Shape s t (n ++ k)) :
    Control s' (Function.update f t (n ++ k)) := by
  refine h.step hk (fun p => ?_) hs.later (fun u p _ _ _ => hs.live.2)
    (fun u _ => by rw [hs.sLocalWorkQueue]) (fun p j _ => by rw [hs.ended])
    (fun p j => by rw [hs.numThread]; exact id) (fun frame hm => hs.fits (hfits frame hm)) ?_
  · have hok := h.pools p
    refine hs.pool hok ?_
    rcases hg p with hg | hg | hg
    · exact .inl hg
    · unfold PoolOk at hok
      split at hok
      · exact .inl (hg.trans hok.2.1)
      · exact .inr (.inl ‹_›)
      · exact .inr (.inr ‹_›)
      · exact .inl (hg.trans hok.2)
    · exact .inr hg
  · exact hshape.congr (by rw [hs.sLocalWorkQueue]) (fun p j _ => by rw [hs.ended])
      fun p j _ => by rw [hs.numThread]; exact id

omit [DecidableEq τ] in
theorem same_setLocal (i : ℕ) (queue : List T) : Same s (s.setLocal p i queue) := by
  refine ⟨fun r => ?_, fun r => ?_, fun r => ?_, fun r => ?_, rfl⟩ <;>
    by_cases hr : r = p <;> simp [Shared.setLocal, Shared.setPool, hr]

omit [DecidableEq τ] in
theorem same_setGlobal (queue : List T) : Same s (s.setGlobal p queue) := by
  refine ⟨fun r => ?_, fun r => ?_, fun r => ?_, fun r => ?_, rfl⟩ <;>
    by_cases hr : r = p <;> simp [Shared.setGlobal, Shared.setPool, hr]

omit [DecidableEq τ] in
theorem same_setDone : Same s (s.setDone p) := by
  refine ⟨fun r => ?_, fun r => ?_, fun r => ?_, fun r => ?_, rfl⟩ <;>
    by_cases hr : r = p <;> simp [Shared.setDone, Shared.setPool, hr]

/-- A step that changes one pool. -/
theorem Control.setPool (h : Control s f) (hk : k ⊆ f t) {x : Pool T}
    (hp : s'.pool = Function.update s.pool p x) (hq : s'.sLocalWorkQueue = s.sLocalWorkQueue)
    (hok : PoolOk x) (hclosed : Closed (s.pool p) → Closed x ∧ x.numThread = (s.pool p).numThread ∧
      (∀ j, (s.pool p).ended j = true → x.ended j = true) ∧
        ((s.pool p).mLocalTasks = [] → x.mLocalTasks = []))
    (hlive : ∀ u frame, frame ∈ f u → frame.member = some p → Live s u p → Live s' u p)
    (he : ∀ j, .worker p j ≠ t → x.ended j = (s.pool p).ended j)
    (hn : ∀ j, j < (s.pool p).numThread → j < x.numThread)
    (hfits : ∀ frame ∈ n, Fits s' t frame) (hshape : Shape s' t (n ++ k)) :
    Control s' (Function.update f t (n ++ k)) := by
  have hself : s'.pool p = x := by rw [hp, Function.update_self]
  have hother : ∀ r, r ≠ p → s'.pool r = s.pool r := fun r hr => by
    rw [hp, Function.update_of_ne hr]
  refine h.step hk (fun r => ?_) (fun r => ?_) (fun u r frame hm hr => ?_) (fun u _ => by rw [hq])
    (fun r j hj => ?_) (fun r j => ?_) hfits hshape
  · by_cases hr : r = p
    · rw [hr, hself]
      exact hok
    · rw [hother r hr]
      exact h.pools r
  · by_cases hr : r = p
    · subst hr
      exact ⟨fun hc => hself ▸ (hclosed hc).1, fun hc => hself ▸ (hclosed hc).2.1,
        fun hc => hself ▸ (hclosed hc).2.2.1, fun hc => hself ▸ (hclosed hc).2.2.2⟩
    · exact ⟨by rw [hother r hr]; exact id, fun _ => by rw [hother r hr],
        fun _ _ => by rw [hother r hr]; exact id, fun _ => by rw [hother r hr]; exact id⟩
  · by_cases hrp : r = p
    · subst hrp
      exact hlive u frame hm hr
    · unfold Live
      rw [hother r hrp]
      exact id
  · by_cases hr : r = p
    · subst hr
      rw [hself]
      exact he j hj
    · rw [hother r hr]
  · by_cases hr : r = p
    · subst hr
      rw [hself]
      exact hn j
    · rw [hother r hr]
      exact id

omit [DecidableEq τ] [DecidableEq P] in
theorem Control.begins (h : Control s f) (hf : f (.worker p j) = .start :: k) :
    k = [] ∧ s.sLocalWorkQueue (.worker p j) = none ∧ (s.pool p).ended j = false := by
  have hs := h.shape (.worker p j)
  unfold Shape at hs
  simp only [hf] at hs
  rcases hs with ⟨h1, h2⟩ | ⟨-, -, ⟨h3, -⟩ | ⟨-, k', h4, h5, h6⟩⟩
  · exact ⟨(List.cons.inj h1).2, h2⟩
  · cases h3
  · cases k' with
    | nil => cases (List.cons.inj h4).1
    | cons x k' =>
      obtain ⟨rfl, -⟩ := List.cons.inj h4
      simp at h6

omit [DecidableEq τ] [DecidableEq P] in
/-- A worker that has begun and not returned has its local queue. -/
theorem Control.undrained (h : Control s f) (hm : frame ∈ f (.worker p j)) (hs : frame ≠ .start) :
    ¬ Drained (s.pool p) := by
  obtain ⟨q', k', hf⟩ := List.exists_cons_of_ne_nil (List.ne_nil_of_mem hm)
  by_cases hq : q' = .start
  · subst hq
    rw [hf, (h.begins hf).1, List.mem_singleton] at hm
    exact absurd hm hs
  · exact (h.running hf hq).2.1

omit [DecidableEq τ] [DecidableEq P] in
/-- Nobody is inside a function of a pool without workers and local queues. -/
theorem Control.outside (h : Control s f) (hc : Closed (s.pool p)) (hd : Drained (s.pool p))
    (hm : frame ∈ f u) : frame.member ≠ some p := fun hp => by
  rcases (h.fits u frame hm).live hp with hl | ⟨-, i, rfl⟩
  · unfold Closed at hc
    simp [hl] at hc
  · refine h.undrained hm ?_ hd
    rintro rfl
    cases hp

theorem Control.start (h : Control s f) (hf : f (.worker p j) = .start :: k)
    (hj : j < (s.pool p).mLocalTasks.length) :
    Control (s.setThreadLocal (.worker p j) p j)
      (Function.update f (.worker p j) ([.loop] ++ k)) := by
  obtain ⟨rfl, -, h2⟩ := h.begins hf
  have hn : j < (s.pool p).numThread := by
    have hok := h.pools p
    have hne : (s.pool p).mLocalTasks ≠ [] := fun he => by simp [he] at hj
    unfold PoolOk at hok
    split at hok
    · exact absurd hok.1 hne
    · exact hok ▸ hj
    · exact hok.resolve_right (fun hd => hne hd.1) ▸ hj
    · exact absurd hok.1.1 hne
  refine h.step (inner hf) h.pools (fun _ => ⟨id, fun _ => rfl, fun _ _ => id, fun _ => id⟩)
    (fun _ _ _ _ _ => id) (fun u hu => ?_) (fun _ _ _ => rfl) (fun _ _ => id) ?_ ?_
  · exact Function.update_of_ne (hu.resolve_right fun hk => hk rfl) _ _
  · simp [Fits]
  · exact .inr ⟨Function.update_self .., hn, .inr ⟨h2, [], rfl, by simp, by simp⟩⟩

/-- A worker returns from its loop. -/
theorem Control.ends (h : Control s f) (hf : f (.worker p j) = .loop :: k) :
    Control (s.setEnded p j) (Function.update f (.worker p j) ([] ++ k)) := by
  obtain ⟨h1, h2, h3, k', h4, h5, -⟩ := h.runs hf (by simp)
  have hk : k = [] := by
    cases k' with
    | nil => exact (List.cons.inj h4).2
    | cons x k' =>
      obtain ⟨rfl, -⟩ := List.cons.inj h4
      simp at h5
  subst hk
  have hmono : ∀ i, (s.pool p).ended i = true →
      Function.update (s.pool p).ended j true i = true := fun i hi => by
    by_cases hij : i = j <;> simp [hij, hi]
  refine h.setPool (inner hf) rfl rfl ?_ (fun hc => ⟨hc, rfl, hmono, id⟩) (fun u frame _ _ hl => ?_)
    (fun i hi => ?_) (fun _ => id) (by simp) (.inr ⟨h3, ?_, .inl ⟨rfl, ?_⟩⟩)
  · exact (h.pools p).later rfl rfl rfl rfl hmono
  · unfold Live at hl ⊢
    simpa [Shared.setEnded, Shared.setPool] using hl
  · refine Function.update_of_ne ?_ _ _
    rintro rfl
    exact hi rfl
  · simpa [Shared.setEnded, Shared.setPool] using h1
  · simp [Shared.setEnded, Shared.setPool]

variable {lockFree ok : Bool}

theorem Control.freeLocal (h : Control s f) (hf : f t = .freeLocal p :: k) :
    Control (s.freeLocal lockFree p) (Function.update f t ([.freeGlobal p] ++ k)) := by
  obtain ⟨hc, he⟩ : Fits s t (.freeLocal p) := h.fits t _ (hf ▸ List.mem_cons_self)
  have hself : (s.freeLocal lockFree p).pool p = { s.pool p with mLocalTasks := [] } :=
    Function.update_self ..
  have hd : Drained { s.pool p with mLocalTasks := [] } := ⟨rfl, he⟩
  refine h.setPool (inner hf) rfl rfl ?_ (fun hc => ⟨hc, rfl, fun _ => id, fun _ => rfl⟩)
    (fun u frame _ _ hl => ?_) (fun _ _ => rfl) (fun _ => id) ?_ ?_
  · have hok := h.pools p
    unfold PoolOk at hok ⊢
    rcases hc with hst | hst
    · simp only [hst] at hok ⊢
      exact .inr hd
    · simp only [hst] at hok ⊢
      exact ⟨hd, hok.2⟩
  · unfold Live at hl ⊢
    rwa [hself]
  · simp only [List.mem_singleton, forall_eq, Fits, hself]
    exact ⟨hc, hd⟩
  · refine (h.replace hf (by simp) (by simp) (by simp)).congr rfl (fun r j _ => ?_) fun r j _ => ?_
    all_goals by_cases hr : r = p
    all_goals simp [Shared.freeLocal, Shared.setPool, hr]

theorem Control.freeGlobal (h : Control s f) (hf : f t = .freeGlobal p :: k) :
    Control (s.freeGlobal p) (Function.update f t ([] ++ k)) := by
  obtain ⟨hc, hd⟩ : Fits s t (.freeGlobal p) := h.fits t _ (hf ▸ List.mem_cons_self)
  refine h.setPool (inner hf) rfl rfl ?_ (fun hc => ⟨.inr rfl, rfl, fun _ => id, id⟩)
    (fun u frame hm hp => absurd hp (h.outside hc hd hm)) (fun _ _ => rfl)
    (fun _ => id) (by simp) ?_
  · exact ⟨hd, rfl⟩
  · refine (h.replace hf (by simp) (by simp) (by simp)).congr rfl (fun r j _ => ?_) fun r j _ => ?_
    all_goals by_cases hr : r = p
    all_goals simp [Shared.freeGlobal, Shared.setPool, hr]

/-- The destructor begins, with nobody but workers inside the pool. -/
theorem Control.destroy (h : Control s f) {task : Option (P × T)} (hf : f t = .code task :: k)
    (hst : (s.pool p).stage = .alive)
    (hout : ∀ u, ¬ u.WorksFor p → ∀ frame ∈ f u, frame.member ≠ some p) :
    Control (s.setStage p .dying) (Function.update f t ([.setDone p] ++ f t)) := by
  have hself : (s.setStage p .dying).pool p = { s.pool p with stage := .dying } :=
    Function.update_self ..
  refine h.setPool (List.Subset.refl _) rfl rfl ?_ (fun hc => ?_) (fun u frame hm hp _ => ?_)
    (fun _ _ => rfl) (fun _ => id) ?_ ?_
  · have hok := h.pools p
    unfold PoolOk at hok ⊢
    simp only [hst] at hok
    exact .inl hok
  · unfold Closed at hc
    simp [hst] at hc
  · exact .inr ⟨by rw [hself], by_contra fun hu => hout u hu frame hm hp⟩
  · simp only [List.mem_singleton, forall_eq, Fits, hself]
    exact .inl rfl
  · refine (h.enter hf (by simp) (by simp)).congr rfl (fun r j _ => ?_) fun r j _ => ?_
    all_goals by_cases hr : r = p
    all_goals simp [Shared.setStage, Shared.setPool, hr]

theorem Control.construct (h : Control s f) (hst : (s.pool p).stage = .unborn) (numThread : ℕ) :
    Control (s.setPool p (.make numThread)) (Function.update f t ([] ++ f t)) := by
  have hself : (s.setPool p (.make numThread)).pool p = .make numThread := Function.update_self ..
  have hzero : (s.pool p).numThread = 0 := by
    have hok := h.pools p
    unfold PoolOk at hok
    simp only [hst] at hok
    exact hok.2.2
  -- no worker of the pool has begun
  have he : ∀ j, (s.pool p).ended j = false := fun j => by
    have hs := h.shape (.worker p j)
    unfold Shape at hs
    rcases hs with ⟨-, -, hs⟩ | ⟨-, hs, -⟩
    · exact hs
    · rw [hzero] at hs
      cases hs
  refine h.setPool (List.Subset.refl _) rfl rfl (List.length_replicate ..) (fun hc => ?_)
    (fun u frame _ _ hl => ?_) (fun j _ => (he j).symm) (fun j hj => ?_) (by simp) ?_
  · unfold Closed at hc
    simp [hst] at hc
  · unfold Live at hl
    simp [hst] at hl
  · rw [hzero] at hj
    cases hj
  · refine (h.shape t).congr rfl (fun r j _ => ?_) fun r j _ hj => ?_
    · by_cases hr : r = p
      · subst hr
        rw [hself, he]
        rfl
      · simp [Shared.setPool, hr]
    · by_cases hr : r = p
      · subst hr
        rw [hzero] at hj
        cases hj
      · simpa [Shared.setPool, hr] using hj

theorem control_run (h : Control s f) (hf : f t = q :: k)
    (hn : nextRun lockFree t ok s q = some (s', n)) :
    Control s' (Function.update f t (n ++ k)) := by
  have hq : Fits s t q := h.fits t q (hf ▸ List.mem_cons_self)
  have hstage : ∀ {r}, Live s t r → (s.pool r).stage = .alive ∨ (s.pool r).stage = .dying :=
    fun hl => hl.imp id And.left
  -- a step that moves tasks at most, of which the frames and the queues are left to look at
  have hmove : q ≠ .start → q ≠ .loop → ∀ {s' : Shared τ P T} {n : List (Frame P T)}, Same s s' →
      (∀ p, (s'.pool p).mGlobalWorkQueue = [] ∨ (s'.pool p).mGlobalWorkQueue =
        (s.pool p).mGlobalWorkQueue ∨ (s.pool p).stage = .alive ∨ (s.pool p).stage = .dying) →
      (∀ frame ∈ n, Fits s t frame) → .loop ∉ n ∧ .start ∉ n →
      Control s' (Function.update f t (n ++ k)) := fun h1 h2 _ _ hs hg hfits hnew =>
    h.same (inner hf) hs hg hfits (h.replace hf h1 h2 hnew)
  have hlocal : ∀ r i (l : List T) p, ((s.setLocal r i l).pool p).mGlobalWorkQueue =
      (s.pool p).mGlobalWorkQueue := fun r i l p => by
    by_cases hp : p = r <;> simp [Shared.setLocal, Shared.setPool, hp]
  have hglobal : ∀ r (l : List T), Live s t r → ∀ p,
      ((s.setGlobal r l).pool p).mGlobalWorkQueue = (s.pool p).mGlobalWorkQueue ∨
        (s.pool p).stage = .alive ∨ (s.pool p).stage = .dying := fun r l hl p => by
    by_cases hp : p = r
    · exact .inr (hp ▸ hstage hl)
    · simp [Shared.setGlobal, Shared.setPool, hp]
  revert hn
  fun_cases nextRun lockFree t ok s q <;> intro hn <;> cases hn
  · exact h.same (inner hf) .refl (fun _ => .inr (.inl rfl)) (by simp [Fits]) (h.shape (.outside _))
  · exact h.start hf ‹_›
  · exact h.ends hf
  · rename_i r i _
    obtain ⟨h1, -, h2⟩ := h.running hf (by simp)
    have hl : Live s (.worker r i) r := h2.imp id fun h => ⟨h, i, rfl⟩
    refine h.same (n := [.fromLocal r, .loop]) (inner hf) .refl (fun _ => .inr (.inl rfl)) ?_ ?_
    · simpa [Fits] using hl
    · have hs := h.enter (n := [.fromLocal r]) hf (by simp) (by simp)
      rwa [hf] at hs
  · exact hmove (by simp) (by simp) (same_setLocal _ _) (fun p => .inr (.inl (hlocal _ _ _ p)))
      (by simp) (by simp)
  · exact hmove (by simp) (by simp) (same_setGlobal _) (fun p => .inr (hglobal _ _ hq.1 p))
      (by simp) (by simp)
  · exact hmove (by simp) (by simp) (same_setLocal _ _) (fun p => .inr (.inl (hlocal _ _ _ p)))
      (by simpa [Fits] using hq) (by simp)
  · exact hmove (by simp) (by simp) .refl (fun p => .inr (.inl rfl)) (by simpa [Fits] using hq)
      (by simp)
  · exact hmove (by simp) (by simp) .refl (fun p => .inr (.inl rfl)) (by simpa [Fits] using hq)
      (by simp)
  · exact hmove (by simp) (by simp) (same_setGlobal _) (fun p => .inr (hglobal _ _ hq p))
      (by simpa [Fits] using hq) (by simp)
  · exact hmove (by simp) (by simp) .refl (fun p => .inr (.inl rfl)) (by simpa [Fits] using hq)
      (by simp)
  · exact hmove (by simp) (by simp) (same_setLocal _ _) (fun p => .inr (.inl (hlocal _ _ _ p)))
      (by simpa [Fits] using hq) (by simp)
  · exact hmove (by simp) (by simp) .refl (fun p => .inr (.inl rfl)) (by simpa [Fits] using hq)
      (by simp)
  · exact hmove (by simp) (by simp) .refl (fun p => .inr (.inl rfl)) (by simp) (by simp)
  · exact hmove (by simp) (by simp) ⟨fun _ => rfl, fun _ => rfl, fun _ => rfl, fun _ => rfl, rfl⟩
      (fun p => .inr (.inl rfl)) (by simpa [Fits] using hq) (by simp)
  · rename_i r
    refine hmove (by simp) (by simp) same_setDone (fun p => .inr (.inl ?_))
      (by simpa [Fits] using hq)
      (by simp)
    by_cases hp : p = r <;> simp [Shared.setDone, Shared.setPool, hp]
  · rename_i r i hi he
    refine hmove (by simp) (by simp) .refl (fun p => .inr (.inl rfl)) ?_ (by simp)
    simp only [List.mem_singleton, forall_eq]
    refine ⟨hq.1, fun j hj => ?_⟩
    rcases Nat.lt_or_eq_of_le (Nat.le_of_lt_succ hj) with hj | rfl
    · exact hq.2 j hj
    · exact he
  · rename_i r i hi
    refine hmove (by simp) (by simp) .refl (fun p => .inr (.inl rfl)) ?_ (by simp)
    simp only [List.mem_singleton, forall_eq]
    exact ⟨hq.1, fun j hj => hq.2 j (by omega)⟩
  · exact h.freeLocal hf
  · exact h.freeGlobal hf

variable [DecidableEq T] {act : Act P T}

theorem control_step {c : Conf (Thread τ P) (Shared τ P T) (List (Frame P T))}
    (h : Control c.shared c.pc) (hC : InLifetime c (t, act) ∧ SubmitsOwn c (t, act))
    (hn : next lockFree t act c.shared (c.pc t) = some (s', stack)) :
    Control s' (Function.update c.pc t stack) := by
  obtain ⟨s, f⟩ := c
  obtain ⟨hC, hO⟩ := hC
  simp only [InLifetime, SubmitsOwn] at h hC hO hn
  generalize hp : f t = p at hn
  revert hn
  fun_cases next lockFree t act s p <;> intro hn
  case case9 =>
    obtain ⟨r, hr, hq⟩ := Option.map_eq_some_iff.1 hn
    cases hq
    exact control_run h hp hr
  all_goals cases hn
  · exact hp ▸ h.construct ‹_› _
  · -- submit
    rename_i task k r x _
    have hs : Same s { s with submitted := Function.update s.submitted x (some r) } :=
      ⟨fun _ => rfl, fun _ => rfl, fun _ => rfl, fun _ => rfl, rfl⟩
    have hst := h.same (n := [.push r x]) (List.Subset.refl _) hs (fun _ => .inr (.inl rfl))
      (by simpa [Fits] using ⟨hC, hO r x rfl⟩) (h.enter hp (by simp) (by simp))
    rwa [hp] at hst
  · -- runPendingTask
    rename_i task k r
    have hl : Live s' t r := hC
    have hst := h.same (n := [.fromLocal r]) (List.Subset.refl _) .refl (fun _ => .inr (.inl rfl))
      (by simpa [Fits] using hl) (h.enter hp (by simp) (by simp))
    rwa [hp] at hst
  · have hst := h.destroy hp ‹_› hC.2
    rwa [hp] at hst
  · rename_i r x k
    exact h.same (n := []) (inner hp) ⟨fun _ => rfl, fun _ => rfl, fun _ => rfl, fun _ => rfl, rfl⟩
      (fun _ => .inr (.inl rfl)) (by simp) (h.replace hp (by simp) (by simp) (by simp))

omit [DecidableEq τ] [DecidableEq P] [DecidableEq T] in
theorem control_initial : Control (initial : Shared τ P T) fun _ => [.start] where
  pools _ := ⟨rfl, rfl, rfl⟩
  fits t := by simp [Fits]
  shape t := by
    cases t with
    | outside o => rfl
    | worker p j => exact .inl ⟨rfl, rfl, rfl⟩

end Steps

end ThreadPool

end ConcurrencySandbox

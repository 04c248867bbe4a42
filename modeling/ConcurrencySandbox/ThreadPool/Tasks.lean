import ConcurrencySandbox.Structures.Custody
import ConcurrencySandbox.ThreadPool.Lifetime

/-!
# Where the tasks are

A task that has been submitted is in one queue or in the hands of one thread, once, or it is
finished, destroyed or leaked; it is invoked when a thread has it in its hands. What the queues of a
pool hold was submitted to that pool, when whoever has a local queue submits to the pool it is of.
-/

namespace ConcurrencySandbox

open Interleaving Structures

namespace ThreadPool

variable {τ P T : Type*}

inductive Place (τ P : Type*)
  | global (pool : P)
  | localQueue (pool : P) (i : ℕ)
  | hand (t : Thread τ P)
  deriving DecidableEq

/-- The task that a thread has in its hands there. -/
def Frame.task? : Frame P T → Option T
  | .push _ x | .invoke _ x | .code (some (_, x)) => some x
  | _ => none

def held (s : Shared τ P T) (f : Thread τ P → List (Frame P T)) : Place τ P → List T
  | .global p => (s.pool p).mGlobalWorkQueue
  | .localQueue p i => s.localQueue p i
  | .hand t => (f t).filterMap Frame.task?

def Gone (s : Shared τ P T) (x : T) : Prop := x ∈ s.finished ∨ x ∈ s.destroyed ∨ x ∈ s.leaked

abbrev Held (s : Shared τ P T) (f : Thread τ P → List (Frame P T)) : T → Prop :=
  Kept (fun _ => True) (held s f)

structure Tasks (s : Shared τ P T) (f : Thread τ P → List (Frame P T)) : Prop where
  custody : Custody (held s f)
  account : ∀ x, s.submitted x ≠ none ↔ Held s f x ∨ Gone s x
  gone : ∀ x, Gone s x → ¬ Held s f x
  invoked : ∀ x, x ∈ s.invoked ↔ (∃ t p, .code (some (p, x)) ∈ f t) ∨ x ∈ s.finished
  nodup : s.invoked.Nodup
  apart : ∀ x ∈ s.finished, x ∉ s.destroyed ∧ x ∉ s.leaked

variable {s s' : Shared τ P T} {f f' : Thread τ P → List (Frame P T)} {t u : Thread τ P} {p r : P}
  {i j : ℕ} {x : T} {q frame : Frame P T} {k n stack : List (Frame P T)} {a b : Place τ P}
  {l queue : List T}

theorem pop_spec {lockFree ok : Bool} (h : pop lockFree ok l = some (x, queue)) :
    l = x :: queue := by
  unfold pop at h
  split at h
  · split_ifs at h
    cases h
    rfl
  · cases h

theorem steal_spec {lockFree ok : Bool} (h : steal lockFree ok l = some (x, queue)) :
    l = queue ++ [x] := by
  unfold steal at h
  split at h
  · rename_i y hy
    split_ifs at h
    cases h
    exact (List.dropLast_append_getLast? _ hy).symm
  · cases h

/-- What has become of the tasks stays. -/
structure SameLogs (s s' : Shared τ P T) : Prop where
  submitted : s'.submitted = s.submitted
  invoked : s'.invoked = s.invoked
  finished : s'.finished = s.finished
  destroyed : s'.destroyed = s.destroyed
  leaked : s'.leaked = s.leaked

theorem SameLogs.gone (h : SameLogs s s') : Gone s' x ↔ Gone s x := by
  unfold Gone
  rw [h.finished, h.destroyed, h.leaked]

/-- A step after which the same tasks are held, in other places. -/
theorem Tasks.same (h : Tasks s f) (hl : SameLogs s s') (hc : Custody (held s' f'))
    (hk : ∀ x, Held s' f' x ↔ Held s f x)
    (hcode : ∀ x, (∃ t p, .code (some (p, x)) ∈ f' t) ↔ ∃ t p, .code (some (p, x)) ∈ f t) :
    Tasks s' f' where
  custody := hc
  account x := by rw [hl.submitted, hk, hl.gone, h.account]
  gone x hx := by
    rw [hk]
    exact h.gone x (hl.gone.1 hx)
  invoked x := by rw [hl.invoked, hl.finished, hcode, h.invoked]
  nodup := hl.invoked ▸ h.nodup
  apart x hx := by
    rw [hl.destroyed, hl.leaked]
    exact h.apart x (hl.finished ▸ hx)

section Steps

variable [DecidableEq τ] [DecidableEq P]

/-- The invocations that threads are inside of. -/
theorem code_update (hf : f t = q :: k)
    (hcode : ∀ p x, .code (some (p, x)) ∈ n ↔ .code (some (p, x)) = q) (x : T) :
    (∃ u p, .code (some (p, x)) ∈ Function.update f t (n ++ k) u) ↔
      ∃ u p, .code (some (p, x)) ∈ f u := by
  refine exists₂_congr fun u p => ?_
  by_cases hu : u = t
  · subst hu
    rw [Function.update_self, hf, List.mem_append, List.mem_cons, hcode]
  · rw [Function.update_of_ne hu]

theorem held_hand (st : List (Frame P T)) :
    held s' (Function.update f t st) (.hand t) = st.filterMap Frame.task? := by
  simp [held]

theorem held_hand_of_ne (hu : u ≠ t) (st : List (Frame P T)) :
    held s' (Function.update f t st) (.hand u) = held s f (.hand u) := by
  simp [held, hu]

/-- The hands of a thread that takes and gives away nothing. -/
theorem held_hand_keep (hf : f t = q :: k)
    (htask : n.filterMap Frame.task? = [q].filterMap Frame.task?) (u : Thread τ P) :
    held s' (Function.update f t (n ++ k)) (.hand u) = held s f (.hand u) := by
  by_cases hu : u = t
  · subst hu
    rw [held_hand, List.filterMap_append, htask, ← List.filterMap_append]
    simp [held, hf]
  · exact held_hand_of_ne hu _

/-- A step that leaves every task where it is. -/
theorem Tasks.keep (h : Tasks s f) (hf : f t = q :: k) (hl : SameLogs s s')
    (hg : ∀ p, (s'.pool p).mGlobalWorkQueue = (s.pool p).mGlobalWorkQueue)
    (hq : ∀ p i, s'.localQueue p i = s.localQueue p i)
    (htask : n.filterMap Frame.task? = [q].filterMap Frame.task?)
    (hcode : ∀ p x, .code (some (p, x)) ∈ n ↔ .code (some (p, x)) = q) :
    Tasks s' (Function.update f t (n ++ k)) := by
  have hheld : held s' (Function.update f t (n ++ k)) = held s f := funext fun a => by
    cases a with
    | global p => exact hg p
    | localQueue p i => exact hq p i
    | hand u => exact held_hand_keep hf htask u
  exact h.same hl (hheld ▸ h.custody) (fun x => by unfold Held; rw [hheld]) (code_update hf hcode)

/-- A task goes from the hands of `t` to a queue, or the other way. -/
theorem Tasks.move (h : Tasks s f) (hf : f t = q :: k) (hl : SameLogs s s') (ha : ∀ u, a ≠ .hand u)
    (hout : ∀ b, b ≠ a → (∀ u, b ≠ .hand u) → held s' (Function.update f t (n ++ k)) b = held s f b)
    (htask : (held s' (Function.update f t (n ++ k)) a ++ n.filterMap Frame.task?).Perm
      (held s f a ++ [q].filterMap Frame.task?))
    (hcode : ∀ p x, .code (some (p, x)) ∈ n ↔ .code (some (p, x)) = q) :
    Tasks s' (Function.update f t (n ++ k)) := by
  have hperm : (held s' (Function.update f t (n ++ k)) a ++
      held s' (Function.update f t (n ++ k)) (.hand t)).Perm
      (held s f a ++ held s f (.hand t)) := by
    have hhand : held s f (.hand t) = [q].filterMap Frame.task? ++ k.filterMap Frame.task? := by
      rw [← List.filterMap_append]
      simp [held, hf]
    rw [held_hand, hhand, List.filterMap_append, ← List.append_assoc, ← List.append_assoc]
    exact htask.append_right _
  have hout' : ∀ b, b ≠ a → b ≠ .hand t → held s' (Function.update f t (n ++ k)) b = held s f b :=
    fun b hb hbt => by
      cases b with
      | hand u =>
        refine held_hand_of_ne ?_ _
        rintro rfl
        exact hbt rfl
      | global p => exact hout _ hb nofun
      | localQueue p i => exact hout _ hb nofun
  exact h.same hl (h.custody.transfer (ha t) hperm hout')
    (fun x => Custody.kept_transfer Iff.rfl hperm hout') (code_update hf hcode)

theorem Tasks.submit [DecidableEq T] (h : Tasks s f) (hx : s.submitted x = none) (p : P) :
    Tasks { s with submitted := Function.update s.submitted x (some p) }
      (Function.update f t (.push p x :: f t)) := by
  set s' : Shared τ P T := { s with submitted := Function.update s.submitted x (some p) } with hs'
  have hnew : ¬ (Held s f x ∨ Gone s x) := fun hh => (h.account x).2 hh hx
  rw [not_or] at hnew
  have hheld : held s' (Function.update f t (.push p x :: f t)) =
      Function.update (held s f) (.hand t) (x :: held s f (.hand t)) := funext fun a => by
    cases a with
    | global r => simp [held, hs']
    | localQueue r i => simp [held, Shared.localQueue, hs']
    | hand u =>
      by_cases hu : u = t
      · subst hu
        rw [held_hand, Function.update_self]
        rfl
      · rw [held_hand_of_ne hu, Function.update_of_ne fun he => hu (Place.hand.inj he)]
  obtain ⟨hc, hk⟩ := h.custody.add (p := Place.hand t) fun a ha => hnew.1 ⟨a, trivial, ha⟩
  rw [← hheld] at hc hk
  have hcode : ∀ y, (∃ u r, .code (some (r, y)) ∈ Function.update f t (.push p x :: f t) u) ↔
      ∃ u r, .code (some (r, y)) ∈ f u := fun y => by
    refine exists₂_congr fun u r => ?_
    by_cases hu : u = t
    · subst hu
      simp
    · rw [Function.update_of_ne hu]
  refine ⟨hc, fun y => ?_, fun y hy => ?_, fun y => ?_, h.nodup, h.apart⟩
  · rw [Held, hk]
    by_cases hyx : y = x
    · simp [hyx, hs']
    · have hsub : s'.submitted y = s.submitted y := Function.update_of_ne hyx _ _
      rw [hsub, h.account]
      simp only [hyx, false_and, false_or]
      exact Iff.rfl
  · rw [Held, hk]
    rintro (⟨rfl, -⟩ | hh)
    · exact hnew.2 hy
    · exact h.gone y hy hh
  · rw [hcode]
    exact h.invoked y

omit [DecidableEq τ] [DecidableEq P] in
/-- The hands of the threads hold a task once. -/
theorem Tasks.once (h : Tasks s f) (hf : f t = q :: k) (hq : q.task? = some x) (hu : frame ∈ f u)
    (hx : frame.task? = some x) : u = t ∧ frame ∉ k := by
  have hmem : ∀ {v fr}, fr ∈ f v → fr.task? = some x → x ∈ held s f (.hand v) := fun hm hfr =>
    List.mem_filterMap.2 ⟨_, hm, hfr⟩
  have hut : u = t := Place.hand.inj (h.custody.eq (hmem hu hx) (hmem (hf ▸ List.mem_cons_self) hq))
  refine ⟨hut, fun hk => ?_⟩
  have hnd := h.custody.nodup (.hand t)
  simp only [held, hf, List.filterMap_cons, hq, List.nodup_cons] at hnd
  exact hnd.1 (List.mem_filterMap.2 ⟨frame, hk, hx⟩)

omit [DecidableEq τ] [DecidableEq P] in
theorem Tasks.held_top (h : f t = q :: k) (hq : q.task? = some x) : Held s f x := by
  refine ⟨.hand t, trivial, List.mem_filterMap.2 ⟨q, ?_, hq⟩⟩
  exact h ▸ List.mem_cons_self

theorem Tasks.invoke (h : Tasks s f) (hf : f t = .invoke p x :: k) :
    Tasks { s with invoked := x :: s.invoked }
      (Function.update f t ([.code (some (p, x))] ++ k)) := by
  have hheld : held { s with invoked := x :: s.invoked }
      (Function.update f t ([.code (some (p, x))] ++ k)) = held s f := funext fun a => by
    cases a with
    | global r => rfl
    | localQueue r i => rfl
    | hand u => exact held_hand_keep (n := [.code (some (p, x))]) hf rfl u
  have hcode : ∀ y, (∃ u r, .code (some (r, y)) ∈
      Function.update f t ([.code (some (p, x))] ++ k) u) ↔
        y = x ∨ ∃ u r, .code (some (r, y)) ∈ f u := fun y => by
    constructor
    · rintro ⟨u, r, hm⟩
      by_cases hu : u = t
      · subst hu
        rw [Function.update_self, List.singleton_append, List.mem_cons] at hm
        rcases hm with hm | hm
        · cases hm
          exact .inl rfl
        · exact .inr ⟨u, r, hf ▸ List.mem_cons_of_mem _ hm⟩
      · rw [Function.update_of_ne hu] at hm
        exact .inr ⟨u, r, hm⟩
    · rintro (rfl | ⟨u, r, hm⟩)
      · exact ⟨t, p, by simp⟩
      · by_cases hu : u = t
        · subst hu
          rw [hf, List.mem_cons] at hm
          exact ⟨u, r, by simp [hm.resolve_left nofun]⟩
        · exact ⟨u, r, by rwa [Function.update_of_ne hu]⟩
  have hx : x ∉ s.invoked := fun hx => by
    rcases (h.invoked x).1 hx with ⟨u, r, hm⟩ | hfin
    · obtain ⟨rfl, h1⟩ := h.once hf rfl hm rfl
      rw [hf, List.mem_cons] at hm
      exact hm.elim nofun h1
    · exact h.gone x (.inl hfin) (Tasks.held_top hf rfl)
  refine ⟨hheld ▸ h.custody, fun y => ?_, fun y hy => ?_, fun y => ?_,
    List.nodup_cons.2 ⟨hx, h.nodup⟩, h.apart⟩
  · rw [Held, hheld]
    exact h.account y
  · rw [Held, hheld]
    exact h.gone y hy
  · rw [hcode, List.mem_cons, h.invoked, or_assoc]

theorem Tasks.finish (h : Tasks s f) (hf : f t = .code (some (p, x)) :: k) :
    Tasks { s with finished := x :: s.finished } (Function.update f t k) := by
  have htop : held s f (.hand t) = x :: k.filterMap Frame.task? := by simp [held, hf, Frame.task?]
  have hx := Tasks.held_top (s := s) hf rfl
  obtain ⟨hc, hk⟩ := h.custody.drop htop
  have hheld : held { s with finished := x :: s.finished } (Function.update f t k) =
      Function.update (held s f) (.hand t) (k.filterMap Frame.task?) := funext fun a => by
    cases a with
    | global r => simp [held]
    | localQueue r i => simp [held, Shared.localQueue]
    | hand u =>
      by_cases hu : u = t
      · subst hu
        rw [held_hand, Function.update_self]
      · rw [held_hand_of_ne hu, Function.update_of_ne fun he => hu (Place.hand.inj he)]
  rw [← hheld] at hc hk
  have hgone : ∀ y, Gone { s with finished := x :: s.finished } y ↔ y = x ∨ Gone s y := fun y => by
    simp only [Gone, List.mem_cons, or_assoc]
  refine ⟨hc, fun y => ?_, fun y hy => ?_, fun y => ?_, h.nodup, fun y hy => ?_⟩
  · rw [Held, hk, hgone, h.account]
    by_cases hyx : y = x
    · simp [hyx, hx]
    · simp [hyx]
  · rw [Held, hk]
    rw [hgone] at hy
    rintro ⟨h1, h2⟩
    exact h.gone y (hy.resolve_left h2) h1
  · rw [h.invoked, List.mem_cons]
    constructor
    · rintro (⟨u, r, hm⟩ | hm)
      · by_cases hu : u = t
        · subst hu
          rw [hf, List.mem_cons] at hm
          rcases hm with hm | hm
          · cases hm
            exact .inr (.inl rfl)
          · exact .inl ⟨u, r, by rwa [Function.update_self]⟩
        · exact .inl ⟨u, r, by rwa [Function.update_of_ne hu]⟩
      · exact .inr (.inr hm)
    · rintro (⟨u, r, hm⟩ | rfl | hm)
      · by_cases hu : u = t
        · subst hu
          rw [Function.update_self] at hm
          exact .inl ⟨u, r, hf ▸ List.mem_cons_of_mem _ hm⟩
        · rw [Function.update_of_ne hu] at hm
          exact .inl ⟨u, r, hm⟩
      · exact .inl ⟨t, p, hf ▸ List.mem_cons_self⟩
      · exact .inr hm
  · rcases List.mem_cons.1 hy with rfl | hy
    · have hng : ¬ Gone s y := fun hg => h.gone y hg hx
      unfold Gone at hng
      tauto
    · exact h.apart y hy

/-- The destructors of some queues. -/
theorem Tasks.free (h : Tasks s f) (hf : f t = q :: k) (D : Place τ P → Prop)
    (hD : ∀ a, D a → held s' (Function.update f t (n ++ k)) a = [])
    (hout : ∀ a, ¬ D a → held s' (Function.update f t (n ++ k)) a = held s f a)
    (hsub : s'.submitted = s.submitted) (hinv : s'.invoked = s.invoked)
    (hfin : s'.finished = s.finished)
    (hgone : ∀ x, x ∈ s'.destroyed ∨ x ∈ s'.leaked ↔
      Kept D (held s f) x ∨ x ∈ s.destroyed ∨ x ∈ s.leaked)
    (hcode : ∀ p x, .code (some (p, x)) ∈ n ↔ .code (some (p, x)) = q) :
    Tasks s' (Function.update f t (n ++ k)) := by
  obtain ⟨hc, hk⟩ := h.custody.clear hD hout
  have hheld : ∀ {x}, Kept D (held s f) x → Held s f x := fun ⟨a, _, ha⟩ => ⟨a, trivial, ha⟩
  have hg : ∀ x, Gone s' x ↔ Kept D (held s f) x ∨ Gone s x := fun x => by
    unfold Gone
    rw [hfin, hgone]
    tauto
  refine ⟨hc, fun x => ?_, fun x hx => ?_, fun x => ?_, hinv ▸ h.nodup, fun x hx => ?_⟩
  · rw [hsub, h.account, show Held s' (Function.update f t (n ++ k)) x ↔ _ from hk x, hg]
    by_cases hx : Kept D (held s f) x
    · simp [hx, hheld hx]
    · simp [hx]
  · rw [Held, hk]
    rintro ⟨h1, h2⟩
    exact h.gone x (((hg x).1 hx).resolve_left h2) h1
  · rw [hinv, hfin, code_update hf hcode, h.invoked]
  · have hx' : x ∈ s.finished := hfin ▸ hx
    rw [← not_or, hgone, not_or, not_or]
    exact ⟨fun hk => h.gone x (.inl hx') (hheld hk), h.apart x hx'⟩

theorem localQueue_setLocal (hj : i < (s.pool p).mLocalTasks.length) (r : P) (j : ℕ) :
    (s.setLocal p i queue).localQueue r j =
      if Place.localQueue r j = (.localQueue p i : Place τ P) then queue else s.localQueue r j := by
  by_cases hr : r = p
  · subst hr
    by_cases hij : j = i
    · subst hij
      simp [Shared.localQueue, Shared.setLocal, Shared.setPool, hj]
    · simp [Shared.localQueue, Shared.setLocal, Shared.setPool, Ne.symm hij, hij]
  · simp [Shared.localQueue, Shared.setLocal, Shared.setPool, hr]

omit [DecidableEq P] [DecidableEq τ] in
theorem localQueue_ne_nil (h : s.localQueue p i ≠ []) : i < (s.pool p).mLocalTasks.length := by
  by_contra hi
  exact h (by simp [Shared.localQueue, List.getElem?_eq_none (Nat.not_lt.1 hi)])

theorem Tasks.moveLocal (h : Tasks s f) (hf : f t = q :: k) (hi : i < (s.pool p).mLocalTasks.length)
    (hperm : (queue ++ n.filterMap Frame.task?).Perm
      (s.localQueue p i ++ [q].filterMap Frame.task?))
    (hcode : ∀ p x, .code (some (p, x)) ∈ n ↔ .code (some (p, x)) = q) :
    Tasks (s.setLocal p i queue) (Function.update f t (n ++ k)) := by
  refine h.move hf (a := .localQueue p i) ⟨rfl, rfl, rfl, rfl, rfl⟩ (fun u => nofun)
    (fun b hb hu => ?_) ?_ hcode
  · cases b with
    | global r => by_cases hr : r = p <;> simp [held, Shared.setLocal, Shared.setPool, hr]
    | localQueue r j => exact (localQueue_setLocal hi r j).trans (if_neg hb)
    | hand u => exact absurd rfl (hu u)
  · rw [show held (s.setLocal p i queue) _ (.localQueue p i) = queue from
      (localQueue_setLocal hi p i).trans (if_pos rfl)]
    exact hperm

theorem Tasks.moveGlobal (h : Tasks s f) (hf : f t = q :: k)
    (hperm : (queue ++ n.filterMap Frame.task?).Perm
      ((s.pool p).mGlobalWorkQueue ++ [q].filterMap Frame.task?))
    (hcode : ∀ p x, .code (some (p, x)) ∈ n ↔ .code (some (p, x)) = q) :
    Tasks (s.setGlobal p queue) (Function.update f t (n ++ k)) := by
  refine h.move hf (a := .global p) ⟨rfl, rfl, rfl, rfl, rfl⟩ (fun u => nofun)
    (fun b hb hu => ?_) ?_ hcode
  · cases b with
    | global r =>
      have hr : r ≠ p := fun he => hb (he ▸ rfl)
      simp [held, Shared.setGlobal, Shared.setPool, hr]
    | localQueue r j =>
      by_cases hr : r = p <;> simp [held, Shared.localQueue, Shared.setGlobal, Shared.setPool, hr]
    | hand u => exact absurd rfl (hu u)
  · rw [show held (s.setGlobal p queue) _ (.global p) = queue by
      simp [held, Shared.setGlobal, Shared.setPool]]
    exact hperm

/-- A pool changes, and none of its queues. -/
theorem Tasks.setPool (h : Tasks s f) (hf : f t = q :: k) {x : Pool T}
    (hg : x.mGlobalWorkQueue = (s.pool p).mGlobalWorkQueue)
    (hl : x.mLocalTasks = (s.pool p).mLocalTasks)
    (htask : n.filterMap Frame.task? = [q].filterMap Frame.task?)
    (hcode : ∀ p x, .code (some (p, x)) ∈ n ↔ .code (some (p, x)) = q) :
    Tasks (s.setPool p x) (Function.update f t (n ++ k)) := by
  refine h.keep hf ⟨rfl, rfl, rfl, rfl, rfl⟩ (fun r => ?_) (fun r i => ?_) htask hcode
  · by_cases hr : r = p <;> simp [Shared.setPool, hr, hg]
  · by_cases hr : r = p <;> simp [Shared.localQueue, Shared.setPool, hr, hl]

theorem Tasks.freeLocal {lockFree : Bool} (h : Tasks s f) (hf : f t = .freeLocal p :: k) :
    Tasks (s.freeLocal lockFree p) (Function.update f t ([.freeGlobal p] ++ k)) := by
  refine h.free hf (fun a => ∃ i, a = .localQueue p i) ?_ (fun a ha => ?_) rfl rfl rfl (fun x => ?_)
    (by simp)
  · rintro a ⟨i, rfl⟩
    simp [held, Shared.localQueue, Shared.freeLocal, Shared.setPool]
  · cases a with
    | global r => by_cases hr : r = p <;> simp [held, Shared.freeLocal, Shared.setPool, hr]
    | localQueue r i =>
      have hr : r ≠ p := fun he => ha ⟨i, he ▸ rfl⟩
      simp [held, Shared.localQueue, Shared.freeLocal, Shared.setPool, hr]
    | hand u => exact held_hand_keep (n := [.freeGlobal p]) hf rfl u
  · have hx : Kept (fun a => ∃ i, a = Place.localQueue p i) (held s f) x ↔
        x ∈ (s.pool p).mLocalTasks.flatten := by
      rw [List.mem_flatten]
      constructor
      · rintro ⟨_, ⟨i, rfl⟩, hm⟩
        have hi := localQueue_ne_nil (List.ne_nil_of_mem hm)
        refine ⟨_, List.getElem_mem hi, ?_⟩
        simpa [held, Shared.localQueue, hi] using hm
      · rintro ⟨l, hl, hm⟩
        obtain ⟨i, hi, rfl⟩ := List.getElem_of_mem hl
        exact ⟨_, ⟨i, rfl⟩, by simpa [held, Shared.localQueue, hi] using hm⟩
    rw [hx]
    unfold Shared.freeLocal
    cases lockFree <;> simp only [Bool.false_eq_true, if_true, if_false, List.mem_append] <;> tauto

theorem Tasks.freeGlobal (h : Tasks s f) (hf : f t = .freeGlobal p :: k) :
    Tasks (s.freeGlobal p) (Function.update f t ([] ++ k)) := by
  refine h.free hf (fun a => a = .global p) ?_ (fun a ha => ?_) rfl rfl rfl (fun x => ?_) (by simp)
  · rintro a rfl
    simp [held, Shared.freeGlobal, Shared.setPool]
  · cases a with
    | global r =>
      have hr : r ≠ p := fun he => ha (he ▸ rfl)
      simp [held, Shared.freeGlobal, Shared.setPool, hr]
    | localQueue r i =>
      by_cases hr : r = p <;> simp [held, Shared.localQueue, Shared.freeGlobal, Shared.setPool, hr]
    | hand u => exact held_hand_keep (n := []) hf rfl u
  · have hx : Kept (fun a => a = Place.global p) (held s f) x ↔
        x ∈ (s.pool p).mGlobalWorkQueue := by
      constructor
      · rintro ⟨_, rfl, hm⟩
        exact hm
      · exact fun hm => ⟨_, rfl, hm⟩
    rw [hx]
    unfold Shared.freeGlobal
    simp only [List.mem_append]
    tauto

variable {lockFree ok : Bool}

theorem tasks_run (hC : Control s f) (h : Tasks s f) (hf : f t = q :: k)
    (hn : nextRun lockFree t ok s q = some (s', n)) :
    Tasks s' (Function.update f t (n ++ k)) := by
  revert hn
  fun_cases nextRun lockFree t ok s q <;> intro hn <;> cases hn
  all_goals
    try exact h.keep hf ⟨rfl, rfl, rfl, rfl, rfl⟩ (fun _ => rfl) (fun _ _ => rfl) rfl (by simp)
  · exact h.setPool hf rfl rfl rfl (by simp)
  · -- a worker pushes to its own queue
    rename_i r x j i hq
    have hi : i < (s.pool j).mLocalTasks.length := by
      have hs := hC.shape t
      cases t with
      | outside o => cases hq.symm.trans hs
      | worker p' i' =>
        have hrun := hC.running hf (by simp)
        obtain ⟨-, -, hr, -⟩ := hC.runs hf (by simp)
        obtain ⟨rfl, rfl⟩ := Prod.mk.inj (Option.some.inj (hq.symm.trans hr))
        exact hrun.1
    refine h.moveLocal hf hi ?_ (by simp)
    change (x :: s.localQueue j i ++ []).Perm (s.localQueue j i ++ [x])
    rw [List.append_nil]
    exact (List.perm_append_singleton x _).symm
  · rename_i r x hq
    refine h.moveGlobal hf ?_ (by simp)
    change ((s.pool r).mGlobalWorkQueue ++ [x] ++ []).Perm _
    rw [List.append_nil]
    exact .refl _
  · rename_i r j i x queue hpop hq
    have hl := pop_spec hpop
    refine h.moveLocal hf (localQueue_ne_nil (by simp [hl])) ?_ (by simp)
    change (queue ++ [x]).Perm (s.localQueue j i ++ [])
    rw [hl, List.append_nil]
    exact List.perm_append_singleton x queue
  · rename_i r x queue hl
    refine h.moveGlobal hf ?_ (by simp)
    change (queue ++ [x]).Perm ((s.pool r).mGlobalWorkQueue ++ [])
    rw [hl, List.append_nil]
    exact List.perm_append_singleton x queue
  · rename_i r i hi x queue j hsteal
    have hl := steal_spec hsteal
    refine h.moveLocal hf (localQueue_ne_nil (by simp [hl])) ?_ (by simp)
    change (queue ++ [x]).Perm (s.localQueue r j ++ [])
    rw [hl, List.append_nil]
  · exact h.invoke hf
  · exact h.setPool hf rfl rfl rfl (by simp)
  · exact h.freeLocal hf
  · exact h.freeGlobal hf

variable [DecidableEq T] {act : Act P T}

theorem tasks_step (hC : Control s f) (h : Tasks s f)
    (hn : next lockFree t act s (f t) = some (s', stack)) :
    Tasks s' (Function.update f t stack) := by
  generalize hp : f t = p at hn
  revert hn
  fun_cases next lockFree t act s p <;> intro hn
  case case9 =>
    obtain ⟨r, hr, hq⟩ := Option.map_eq_some_iff.1 hn
    cases hq
    exact tasks_run hC h hp hr
  all_goals cases hn
  · -- the queues of the pool are empty before and after
    rename_i task k r m hst
    have hok := hC.pools r
    unfold PoolOk at hok
    simp only [hst] at hok
    refine h.keep (n := [.code task]) hp ⟨rfl, rfl, rfl, rfl, rfl⟩ (fun u => ?_) (fun u i => ?_) rfl
      (by simp)
    · by_cases hu : u = r <;> simp [Shared.setPool, hu, hok.2.1, Pool.make]
    · by_cases hu : u = r
      · subst hu
        by_cases hi : i < m <;> simp [Shared.localQueue, Shared.setPool, hok.1, Pool.make, hi]
      · simp [Shared.localQueue, Shared.setPool, hu]
  · rename_i task k r x hx
    have hs := h.submit (t := t) hx r
    rwa [hp] at hs
  · rename_i task k r
    exact h.keep (n := [.fromLocal r, .code task]) hp ⟨rfl, rfl, rfl, rfl, rfl⟩ (fun _ => rfl)
      (fun _ _ => rfl) rfl (by simp)
  · rename_i task k r hst
    exact h.setPool (n := [.setDone r, .code task]) hp rfl rfl rfl (by simp)
  · exact h.finish hp

omit [DecidableEq τ] [DecidableEq P] [DecidableEq T] in
theorem tasks_initial : Tasks (initial : Shared τ P T) fun _ => [.start] := by
  have hheld : held (initial : Shared τ P T) (fun _ => [.start]) = fun _ => [] := funext fun a => by
    cases a <;> rfl
  have hnone : ∀ x, ¬ Held (initial : Shared τ P T) (fun _ => [.start]) x := fun x => by
    rw [Held, hheld]
    simp [Kept]
  refine ⟨hheld ▸ ⟨fun _ => List.nodup_nil, nofun⟩, fun x => ?_, fun x hx => ?_, fun x => ?_,
    List.nodup_nil, nofun⟩
  · refine ⟨fun hx => absurd rfl hx, ?_⟩
    rintro (hx | hx)
    · exact absurd hx (hnone x)
    · simp [Gone, initial] at hx
  · exact hnone x
  · simp [initial]

end Steps

end ThreadPool

end ConcurrencySandbox

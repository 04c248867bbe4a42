import Mathlib.Data.Fintype.Sum
import Mathlib.Logic.Equiv.Basic
import ConcurrencySandbox.Interleaving.Instances
import ConcurrencySandbox.Structures.Adjacent

/-!
# CLHQueueLock

`Lock/QueueLock/CLHQueueLock`: a waiting thread spins on the node of the thread before it, and takes
that node over when it unlocks. Every thread has one `sMyNode` and one `sPredNode` for all
instances. Every instance has a node to spare, which the first thread of its queue has found
unlocked.
-/

namespace ConcurrencySandbox

open Interleaving Structures

namespace CLHQueueLock

variable {τ I N : Type*}

structure Shared (τ I N : Type*) where
  mTail : I → N
  mLocked : N → Bool
  sMyNode : τ → N
  sPredNode : τ → Option N

inductive PC
  | storeLocked
  | exchange
  | spin
  | release
  deriving DecidableEq

section Model

variable [DecidableEq τ] [DecidableEq I] [DecidableEq N]

/-- One atomic step of `lock` or `unlock`, with the accesses to the thread's own variables. -/
def step (t : τ) (i : I) (s : Shared τ I N) : PC → Option (Shared τ I N × Outcome PC)
  | .storeLocked =>
    some ({ s with mLocked := Function.update s.mLocked (s.sMyNode t) true }, .next .exchange)
  | .exchange => some ({ s with
      mTail := Function.update s.mTail i (s.sMyNode t)
      sPredNode := Function.update s.sPredNode t (some (s.mTail i)) }, .next .spin)
  | .spin => (s.sPredNode t).map fun pred => (s, if s.mLocked pred then .next .spin else .locked)
  | .release => (s.sPredNode t).map fun pred => ({ s with
      mLocked := Function.update s.mLocked (s.sMyNode t) false
      sMyNode := Function.update s.sMyNode t pred }, .unlocked)

variable (τ I N)

def lockClass : LockClass τ I (Shared τ I N) PC := ⟨.storeLocked, .release, step⟩

/-- All nodes are different, and those of the instances are unlocked. -/
def Initial (s : Shared τ I N) : Prop :=
  Function.Injective (Sum.elim s.sMyNode s.mTail) ∧ ∀ i, s.mLocked (s.mTail i) = false

def system : System (Conf τ (Shared τ I N) (Place I PC)) (τ × Call I) :=
  (lockClass τ I N).program.system (Initial τ I N) (.out [])

end Model

def PC.phase : PC → Phase
  | .storeLocked | .exchange => .idle
  | .spin => .waiting
  | .release => .held

/-- With the node that every instance has to spare. -/
structure Nodes (spare : I → N) (queue : I → List τ) (s : Shared τ I N) (f : τ → Place I PC) :
    Prop where
  nodes : Function.Injective (Sum.elim s.sMyNode spare)
  unlocked : ∀ i, s.mLocked (spare i) = false
  locked : ∀ i t, t ∈ queue i → s.mLocked (s.sMyNode t) = true
  stored : ∀ i t held, f t = .busy i .exchange held → s.mLocked (s.sMyNode t) = true
  tail : ∀ i, s.mTail i = ((queue i).getLast?.map s.sMyNode).getD (spare i)
  head : ∀ i t, (queue i).head? = some t → s.sPredNode t = some (spare i)
  pred : ∀ i t u, Adjacent (queue i) t u → s.sPredNode u = some (s.sMyNode t)

def Inv (queue : I → List τ) (s : Shared τ I N) (f : τ → Place I PC) : Prop :=
  ∃ spare, Nodes spare queue s f

variable {spare : I → N} {queue : I → List τ} {s : Shared τ I N} {f : τ → Place I PC} {t u : τ}
  {i j : I} {p : PC}

theorem Nodes.my_ne (h : Nodes spare queue s f) (htu : u ≠ t) : s.sMyNode u ≠ s.sMyNode t := by
  have hne : (.inl u : τ ⊕ I) ≠ .inl t := fun he => htu (Sum.inl.inj he)
  exact h.nodes.ne hne

theorem Nodes.spare_ne_my (h : Nodes spare queue s f) : spare i ≠ s.sMyNode t := by
  have hne : (.inr i : τ ⊕ I) ≠ .inl t := Sum.inr_ne_inl
  exact h.nodes.ne hne

theorem Nodes.spare_ne (h : Nodes spare queue s f) (hij : i ≠ j) : spare i ≠ spare j := by
  have hne : (.inr i : τ ⊕ I) ≠ .inr j := fun he => hij (Sum.inr.inj he)
  exact h.nodes.ne hne

/-- `mTail` is the node of a thread in the queue, or the one to spare when there is none. -/
theorem Nodes.tail_cases (h : Nodes spare queue s f) (i : I) :
    (∃ u ∈ queue i, s.mTail i = s.sMyNode u) ∨ queue i = [] ∧ s.mTail i = spare i := by
  rw [h.tail i]
  cases hl : (queue i).getLast? with
  | none => exact .inr ⟨List.getLast?_eq_none_iff.1 hl, rfl⟩
  | some u => exact .inl ⟨u, List.mem_of_getLast? hl, rfl⟩

/-- The node a waiting thread spins on is the one to spare when the thread is the first of its
queue, and otherwise another thread's own. -/
theorem Nodes.pred_cases (h : Nodes spare queue s f) (hu : u ∈ queue i) :
    (∃ q, queue i = u :: q ∧ s.sPredNode u = some (spare i)) ∨
      ∃ v, s.sPredNode u = some (s.sMyNode v) := by
  by_cases hhead : (queue i).head? = some u
  · obtain ⟨q, hq⟩ := List.head?_eq_some_iff.1 hhead
    exact .inl ⟨q, hq, h.head i u hhead⟩
  · obtain ⟨v, hv⟩ := exists_adjacent_left hu hhead
    exact .inr ⟨v, h.pred i v u hv⟩

variable [DecidableEq τ] [DecidableEq I]

omit [DecidableEq I] in
/-- A step that writes nothing. -/
theorem Nodes.stay (h : Nodes spare queue s f) {x : Place I PC}
    (hx : ∀ i held, x = .busy i .exchange held → s.mLocked (s.sMyNode t) = true) :
    Nodes spare queue s (Function.update f t x) := by
  refine ⟨h.nodes, h.unlocked, h.locked, fun j u held hf => ?_, h.tail, h.head, h.pred⟩
  by_cases hut : u = t
  · subst hut
    rw [Function.update_self] at hf
    exact hx j held hf
  · rw [Function.update_of_ne hut] at hf
    exact h.stored j u held hf

variable [DecidableEq N]

omit [DecidableEq I] in
theorem Nodes.store (h : Nodes spare queue s f) :
    Nodes spare queue { s with mLocked := Function.update s.mLocked (s.sMyNode t) true }
      (Function.update f t (.busy i .exchange [])) := by
  have htrue : ∀ n, s.mLocked n = true →
      Function.update s.mLocked (s.sMyNode t) true n = true := fun n hn => by
    by_cases he : n = s.sMyNode t
    · rw [he, Function.update_self]
    · rwa [Function.update_of_ne he]
  refine ⟨h.nodes, fun j => ?_, fun j u hu => htrue _ (h.locked j u hu), fun j u held hf => ?_,
    h.tail, h.head, h.pred⟩
  · simp only [Function.update_of_ne h.spare_ne_my]
    exact h.unlocked j
  · by_cases hut : u = t
    · rw [hut]
      exact Function.update_self ..
    · rw [Function.update_of_ne hut] at hf
      exact htrue _ (h.stored j u held hf)

omit [DecidableEq N] in
theorem Nodes.enter (h : Nodes spare queue s f) (ht : ∀ j, t ∉ queue j)
    (hl : s.mLocked (s.sMyNode t) = true) :
    Nodes spare (Function.update queue i (queue i ++ [t]))
      { s with
        mTail := Function.update s.mTail i (s.sMyNode t)
        sPredNode := Function.update s.sPredNode t (some (s.mTail i)) }
      (Function.update f t (.busy i .spin [])) := by
  have hne : ∀ {j u}, u ∈ queue j → u ≠ t := fun hu he => ht _ (he ▸ hu)
  refine ⟨h.nodes, h.unlocked, fun j u hu => ?_, fun j u held hf => ?_, fun j => ?_,
    fun j u hu => ?_, fun j u v huv => ?_⟩
  · rcases eq_or_ne j i with rfl | hji
    · rw [Function.update_self, List.mem_append, List.mem_singleton] at hu
      rcases hu with hu | rfl
      · exact h.locked j u hu
      · exact hl
    · rw [Function.update_of_ne hji] at hu
      exact h.locked j u hu
  · by_cases hut : u = t
    · rw [hut]
      exact hl
    · rw [Function.update_of_ne hut] at hf
      exact h.stored j u held hf
  · rcases eq_or_ne j i with rfl | hji
    · simp
    · simpa [hji] using h.tail j
  · rcases eq_or_ne j i with rfl | hji
    · rw [Function.update_self, List.head?_append] at hu
      cases hq : queue j with
      | nil =>
        rw [hq] at hu
        obtain rfl : t = u := Option.some.inj hu
        have htail := h.tail j
        rw [hq] at htail
        simp [htail]
      | cons v q =>
        rw [hq] at hu
        obtain rfl : v = u := Option.some.inj hu
        have hv : v ∈ queue j := hq ▸ List.mem_cons_self
        simp only [Function.update_of_ne (hne hv)]
        exact h.head j v (by rw [hq, List.head?_cons])
    · rw [Function.update_of_ne hji] at hu
      simp only [Function.update_of_ne (hne (List.mem_of_head? hu))]
      exact h.head j u hu
  · have hold : ∀ j, Adjacent (queue j) u v →
        Function.update s.sPredNode t (some (s.mTail i)) v = some (s.sMyNode u) := fun j huv => by
      rw [Function.update_of_ne (hne huv.mem.2)]
      exact h.pred j u v huv
    rcases eq_or_ne j i with rfl | hji
    · rw [Function.update_self, adjacent_concat] at huv
      rcases huv with huv | ⟨hu, rfl⟩
      · exact hold j huv
      · have htail := h.tail j
        rw [hu] at htail
        simp [htail]
    · rw [Function.update_of_ne hji] at huv
      exact hold j huv

/-- The holder's own node becomes the one to spare, for the one it has found unlocked. -/
theorem Nodes.leave (h : Nodes spare queue s f) (hS : Stands PC.phase queue f) {q : List τ}
    (hq : queue i = t :: q) :
    Nodes (Function.update spare i (s.sMyNode t)) (Function.update queue i q)
      { s with
        mLocked := Function.update s.mLocked (s.sMyNode t) false
        sMyNode := Function.update s.sMyNode t (spare i) }
      (Function.update f t (.out [])) := by
  have htq := (List.nodup_cons.1 (hq ▸ (hS.standing i).nodup)).1
  have hmy : ∀ u, u ≠ t → Function.update s.sMyNode t (spare i) u = s.sMyNode u :=
    fun u hu => Function.update_of_ne hu _ _
  refine ⟨?_, fun j => ?_, fun j u hu => ?_, fun j u held hf => ?_, fun j => ?_, fun j u hu => ?_,
    fun j u v huv => ?_⟩
  · have hswap : Sum.elim (Function.update s.sMyNode t (spare i))
        (Function.update spare i (s.sMyNode t)) =
          Sum.elim s.sMyNode spare ∘ Equiv.swap (.inl t) (.inr i) := by
      funext x
      rcases x with u | j
      · rcases eq_or_ne u t with rfl | hut
        · simp
        · have : Equiv.swap (Sum.inl t) (Sum.inr i) (Sum.inl u) = Sum.inl u :=
            Equiv.swap_apply_of_ne_of_ne (by simpa using hut) (by simp)
          simp [this, hut]
      · rcases eq_or_ne j i with rfl | hji
        · simp
        · have : Equiv.swap (Sum.inl t) (Sum.inr i) (Sum.inr j) = Sum.inr j :=
            Equiv.swap_apply_of_ne_of_ne (by simp) (by simpa using hji)
          simp [this, hji]
    rw [hswap]
    exact h.nodes.comp (Equiv.injective _)
  · rcases eq_or_ne j i with rfl | hji
    · simp
    · simp only [Function.update_of_ne hji, Function.update_of_ne h.spare_ne_my]
      exact h.unlocked j
  · obtain ⟨hu, hut⟩ := hS.mem_update hq hu
    simp only [hmy u hut, Function.update_of_ne (h.my_ne hut)]
    exact h.locked j u hu
  · by_cases hut : u = t
    · rw [hut, Function.update_self] at hf
      cases hf
    · rw [Function.update_of_ne hut] at hf
      simp only [hmy u hut, Function.update_of_ne (h.my_ne hut)]
      exact h.stored j u held hf
  · rcases eq_or_ne j i with rfl | hji
    · have htail := h.tail j
      simp only [hq, List.getLast?_cons] at htail
      simp only [Function.update_self, htail]
      cases hl : q.getLast? with
      | none => rfl
      | some u =>
        have hut : u ≠ t := fun he => htq (he ▸ List.mem_of_getLast? hl)
        simp [hmy u hut]
    · have htail := h.tail j
      simp only [Function.update_of_ne hji, htail]
      cases hl : (queue j).getLast? with
      | none => rfl
      | some u =>
        have hu : u ∈ Function.update queue i q j := by
          rw [Function.update_of_ne hji]
          exact List.mem_of_getLast? hl
        have hut := (hS.mem_update hq hu).2
        simp [hmy u hut]
  · rcases eq_or_ne j i with rfl | hji
    · rw [Function.update_self] at hu
      simp only [Function.update_self]
      exact h.pred j t u (by rw [hq]; exact adjacent_cons.2 (.inl ⟨rfl, hu⟩))
    · rw [Function.update_of_ne hji] at hu
      simp only [Function.update_of_ne hji]
      exact h.head j u hu
  · simp only [hmy u (hS.mem_update hq huv.mem.1).2]
    exact h.pred j u v (huv.of_update hq)

theorem queues_step (h : Nodes spare queue s f) (hS : Stands PC.phase queue f)
    (hf : f t = .busy i p []) {s' : Shared τ I N} {o : Outcome PC}
    (hs : step t i s p = some (s', o)) : ∃ q, Turn t (queue i) p.phase q (o.phase PC.phase) ∧
      Inv (Function.update queue i q) s' (Function.update f t (o.after i [])) := by
  cases p with
  | storeLocked =>
    obtain ⟨rfl, rfl⟩ := Prod.mk.inj (Option.some.inj hs)
    refine ⟨queue i, .away, spare, ?_⟩
    rw [Function.update_eq_self]
    exact h.store
  | exchange =>
    obtain ⟨rfl, rfl⟩ := Prod.mk.inj (Option.some.inj hs)
    exact ⟨_, .take _ nofun nofun, spare,
      h.enter (fun j hm => ((hS.mem_busy hf).1 hm).2 rfl) (h.stored i t [] hf)⟩
  | spin =>
    simp only [step, Option.map_eq_some_iff, Prod.mk.injEq] at hs
    obtain ⟨pred, hpred, rfl, rfl⟩ := hs
    refine ⟨queue i, ?_⟩
    rw [Function.update_eq_self]
    split_ifs with hl
    · exact ⟨.wait _ _ nofun nofun nofun, spare, h.stay nofun⟩
    · -- behind another thread, the node it spins on is locked
      have hhead : (queue i).head? = some t := by
        by_contra hne
        obtain ⟨u, hu⟩ := exists_adjacent_left ((hS.mem_busy hf).2 ⟨rfl, nofun⟩) hne
        obtain rfl := Option.some.inj (hpred.symm.trans (h.pred i u t hu))
        exact hl (h.locked i u hu.mem.1)
      exact ⟨.wait _ _ nofun nofun fun _ => List.head?_eq_some_iff.1 hhead, spare, h.stay nofun⟩
  | release =>
    simp only [step, Option.map_eq_some_iff, Prod.mk.injEq] at hs
    obtain ⟨pred, hpred, rfl, rfl⟩ := hs
    obtain ⟨q, hq⟩ := hS.head_busy hf rfl
    obtain rfl := Option.some.inj (hpred.symm.trans (h.head i t (by rw [hq, List.head?_cons])))
    exact ⟨q, .leave q hq, _, h.leave hS hq⟩

theorem queues : Queues (lockClass τ I N) (Initial τ I N) PC.phase Inv where
  lock_idle := rfl
  unlock_held := rfl
  init s hs := ⟨s.mTail, hs.1, hs.2, nofun, nofun, fun _ => rfl, nofun,
    fun _ _ _ h => absurd h not_adjacent_nil⟩
  lock := by
    rintro queue s f t i - ⟨spare, h⟩ -
    exact ⟨spare, h.stay nofun⟩
  unlock := by
    rintro queue s f t i - ⟨spare, h⟩ -
    exact ⟨spare, h.stay nofun⟩
  step := by
    rintro queue s f t i p s' o hS ⟨spare, h⟩ hf hs
    exact queues_step h hS hf hs

/-- Whose nodes are whose, at a moment. `release` takes the node of `sPredNode` over first, and
stores to the thread's old node last: until then others take steps, and all of this lasts. -/
structure Recycled (c : Conf τ (Shared τ I N) (Place I PC)) : Prop where
  distinct : Function.Injective c.shared.sMyNode
  free : ∀ t, c.pc t = .out [] → ∀ i, c.shared.mTail i ≠ c.shared.sMyNode t
  taken : ∀ t i held, c.pc t = .busy i .release held → ∃ pred, c.shared.sPredNode t = some pred ∧
    (∀ u, c.shared.sMyNode u ≠ pred) ∧ (∀ j, c.shared.mTail j ≠ pred) ∧
    ∀ u j held, c.pc u = .busy j .spin held → c.shared.sPredNode u ≠ some pred

omit [DecidableEq τ] [DecidableEq N] in
theorem Nodes.recycled {c : Conf τ (Shared τ I N) (Place I PC)}
    (h : Nodes spare queue c.shared c.pc) (hS : Stands PC.phase queue c.pc) : Recycled c where
  distinct := h.nodes.comp fun _ _ he => Sum.inl.inj he
  free t ht i := by
    rcases h.tail_cases i with ⟨u, hu, htail⟩ | ⟨-, htail⟩
    · rw [htail]
      refine h.my_ne ?_
      rintro rfl
      exact hS.not_mem_out ht hu
    · rw [htail]
      exact h.spare_ne_my
  taken t i held ht := by
    obtain rfl : held = [] := by
      have := hS.flat t
      rwa [ht] at this
    obtain ⟨q, hq⟩ := hS.head_busy ht rfl
    refine ⟨spare i, h.head i t (by rw [hq, List.head?_cons]), fun u => h.spare_ne_my.symm,
      fun j => ?_, fun u j held hu => ?_⟩
    · rcases h.tail_cases j with ⟨u, -, htail⟩ | ⟨hnil, htail⟩
      · rw [htail]
        exact h.spare_ne_my.symm
      · rw [htail]
        refine h.spare_ne ?_
        rintro rfl
        rw [hq] at hnil
        cases hnil
    · obtain rfl : held = [] := by
        have := hS.flat u
        rwa [hu] at this
      rcases h.pred_cases ((hS.mem_busy hu).2 ⟨rfl, nofun⟩) with ⟨q', hq', hpred⟩ | ⟨v, hpred⟩
      · rw [hpred, ne_eq, Option.some.injEq]
        refine h.spare_ne ?_
        rintro rfl
        obtain rfl := (List.cons.inj (hq.symm.trans hq')).1
        cases ht.symm.trans hu
      · rw [hpred, ne_eq, Option.some.injEq]
        exact h.spare_ne_my.symm

/-- Every instance is a fair lock, and the nodes go round without being owned twice. -/
structure Correct {n : ℕ} (r : (system τ I N).Run Unnested n) : Prop where
  fifo : ∀ i, Fifo r (Place.phase PC.phase i)
  recycled : ∀ k ≤ n, Recycled (r.state k)

theorem fair_recycling (n : ℕ) (r : (system τ I N).Run Unnested n) : Correct r where
  fifo := queues.fifo r
  recycled k hk := by
    obtain ⟨queue, hS, spare, h⟩ := queues.reach (r.reach hk)
    exact h.recycled hS

/-- Thread 0 unlocks with two threads behind it, takes over the node that the instance had to spare,
and locks the other instance with it. -/
theorem fair_recycling_contended : ∃ (n : ℕ) (r : (system (Fin 3) (Fin 2) ℕ).Run Unnested n),
    ((r.state 0).shared.sMyNode 0 ≠ (r.state n).shared.sMyNode 0 ∧
      (r.state n).shared.mTail 1 = (r.state n).shared.sMyNode 0) ∧
    (((r.state n).pc 0).phase PC.phase 1 = .held ∧ ((r.state n).pc 1).phase PC.phase 0 = .held ∧
      ((r.state n).pc 2).phase PC.phase 0 = .waiting) ∧ Correct r := by
  let run (t : Fin 3) (n : ℕ) : List (Fin 3 × Call (Fin 2)) := List.replicate n (t, .run)
  let as : List (Fin 3 × Call (Fin 2)) := (0, .lock 0) :: run 0 3 ++ (1, .lock 0) :: run 1 3 ++
    (2, .lock 0) :: run 2 3 ++ (0, .unlock) :: run 0 1 ++ run 1 1 ++ run 2 1 ++ (0, .lock 1) ::
    run 0 3
  obtain ⟨r, hr⟩ := System.exists_run_through (S := system (Fin 3) (Fin 2) ℕ) (C := Unnested) as
    (0, .run)
    (s := ⟨⟨fun i => 3 + i, fun _ => false, fun t => t, fun _ => none⟩, fun _ => .out []⟩)
    ⟨⟨by decide, fun _ => rfl⟩, rfl⟩ (fun _ _ => id) (by decide +kernel)
  have hfirst := hr 0 (by decide) (fun c => c.shared.sMyNode 0 = 0) ⟨_, rfl, rfl⟩
  obtain ⟨hmine, htail, hphases⟩ := hr as.length le_rfl (fun c => c.shared.sMyNode 0 = 3 ∧
    c.shared.mTail 1 = 3 ∧ (c.pc 0).phase PC.phase 1 = .held ∧
    (c.pc 1).phase PC.phase 0 = .held ∧ (c.pc 2).phase PC.phase 0 = .waiting)
    ⟨_, rfl, rfl, rfl, rfl, rfl, rfl⟩
  refine ⟨_, r, ⟨?_, htail.trans hmine.symm⟩, hphases, fair_recycling _ r⟩
  rw [hfirst, hmine]
  decide

end CLHQueueLock

end ConcurrencySandbox

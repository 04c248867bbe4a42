import ConcurrencySandbox.CompositeQueueLock.Basic
import ConcurrencySandbox.Structures.Chain

/-!
# Mutual exclusion

The nodes behind `mTail` are a queue: a waiting thread's node is linked to the node it waits for,
an aborted one to the predecessor it left behind, a released one and the holder's to none. Only the
last node of the queue has no predecessor, so only one thread holds the lock.

`getNode` reads the node's state before it loads `mTail`, and the stamp of `mTail` says nothing
about what happened in between. A node that was released then and is waiting now is taken away from
under its thread (`two_holders`). A run in which the read state is still current at every such
compare-and-swap keeps the queue.
-/

namespace ConcurrencySandbox

open Interleaving Structures

namespace CompositeQueueLock

variable {τ : Type*}

/-- What the proof keeps track of beside the state: the queue from `mTail` on, the node each of its
nodes waits for, and which thread has a node. -/
structure Ghost (τ : Type*) where
  queue : List Node
  pred : Node → Option Node
  owner : Node → Option τ

structure Lined (g : Ghost τ) (s : Shared) : Prop where
  seg : Seg g.pred s.mTail.1 g.queue none
  waits : ∀ a ∈ g.queue, g.owner a ≠ none → s.mState a = .Waiting
  busy : ∀ a, g.owner a ≠ none → s.mState a ≠ .Free
  free : ∀ a, g.owner a = none → a ∉ g.queue → s.mState a = .Free
  left : ∀ a, g.owner a = none → a ∈ g.queue → s.mState a = .Released ∧ g.pred a = none ∨
    s.mState a = .Aborted ∧ g.pred a = s.mPred a ∧ s.mPred a ≠ none

/-- The thread has the node, outside the queue. -/
def Hand (g : Ghost τ) (t : τ) (a : Node) : Prop := g.owner a = some t ∧ a ∉ g.queue

/-- The thread has the node in the queue, behind `p`. -/
def Queued (g : Ghost τ) (t : τ) (a : Node) (p : Option Node) : Prop :=
  g.owner a = some t ∧ a ∈ g.queue ∧ g.pred a = p

def Placed (g : Ghost τ) (s : Shared) (t : τ) : PC → Prop
  | .getCas _ state pred _ => state = .Released ∧ pred = none ∨ state = .Aborted
  | .getStore a => Hand g t a
  | .spliceLoad a | .spliceCas a _ _ | .spliceAgain a _ _ | .spliceFree a =>
    Hand g t a ∧ s.mState a = .Waiting
  | .waitLoad a p | .waitAgain a p | .abortPred a p => Queued g t a p ∧ p ≠ none
  | .waitFree a p => Queued g t a none ∧ Hand g t p
  | .waitPred a p => Queued g t a (some p) ∧ s.mState p = .Aborted
  | .waitDrop a p q => (Queued g t a q ∧ q ≠ none) ∧ Hand g t p
  | .abortState a => Queued g t a (s.mPred a) ∧ s.mPred a ≠ none
  | .locked a | .unlockPred a | .unlockState a => Queued g t a none
  | _ => True

/-- Nothing about the node has changed. -/
structure Same (g g' : Ghost τ) (s s' : Shared) (a : Node) : Prop where
  owner : g'.owner a = g.owner a
  queue : a ∈ g'.queue ↔ a ∈ g.queue
  pred : g'.pred a = g.pred a
  mState : s'.mState a = s.mState a
  mPred : s'.mPred a = s.mPred a

/-- What a step of thread `t` may do to the queue: other threads keep their nodes, and an aborted
node in the queue stays aborted. -/
structure Effect (t : τ) (g g' : Ghost τ) (s s' : Shared) : Prop where
  lined : Lined g' s'
  same : ∀ a, g.owner a ≠ none → g.owner a ≠ some t → Same g g' s s' a
  aborted : ∀ a ∈ g.queue, s.mState a = .Aborted → s'.mState a = .Aborted

variable {g g' : Ghost τ} {s s' : Shared} {t u : τ} {a b p : Node} {v : Option Node}
  {pc pc' : PC}

theorem Same.hand (h : Same g g' s s' a) (ha : Hand g t a) : Hand g' t a :=
  ⟨h.owner.trans ha.1, fun hq => ha.2 (h.queue.1 hq)⟩

theorem Same.queued (h : Same g g' s s' a) (ha : Queued g t a v) : Queued g' t a v :=
  ⟨h.owner.trans ha.1, h.queue.2 ha.2.1, h.pred.trans ha.2.2⟩

namespace Lined

/-- A node of the queue whose state is not `Waiting` has been left by its thread. -/
theorem owner_eq_none (hG : Lined g s) (ha : a ∈ g.queue) (hs : s.mState a ≠ .Waiting) :
    g.owner a = none := by
  by_contra h
  exact hs (hG.waits a ha h)

theorem pred_mem (hG : Lined g s) (ha : Queued g t a (some p)) : p ∈ g.queue :=
  hG.seg.next_mem ha.2.1 ha.2.2

end Lined

/-- Another thread's place survives a step of thread `t`. -/
theorem Placed.effect (hG : Lined g s) (h : Placed g s u pc) (hu : u ≠ t)
    (hE : Effect t g g' s s') : Placed g' s' u pc := by
  have same : ∀ a, g.owner a = some u → Same g g' s s' a := fun a ha =>
    hE.same a (by simp [ha]) (by simpa [ha] using hu)
  cases pc with
  | getCas _ _ _ _ => exact h
  | getStore a => exact (same a h.1).hand h
  | spliceLoad a | spliceCas a _ _ | spliceAgain a _ _ | spliceFree a =>
    have hs := same a h.1.1
    exact ⟨hs.hand h.1, hs.mState.trans h.2⟩
  | waitLoad a p | waitAgain a p | abortPred a p => exact ⟨(same a h.1.1).queued h.1, h.2⟩
  | waitFree a p => exact ⟨(same a h.1.1).queued h.1, (same p h.2.1).hand h.2⟩
  | waitPred a p => exact ⟨(same a h.1.1).queued h.1, hE.aborted p (hG.pred_mem h.1) h.2⟩
  | waitDrop a p q => exact ⟨⟨(same a h.1.1.1).queued h.1.1, h.1.2⟩, (same p h.2.1).hand h.2⟩
  | abortState a =>
    have hs := same a h.1.1
    exact ⟨hs.mPred ▸ hs.queued h.1, hs.mPred ▸ h.2⟩
  | locked a | unlockPred a | unlockState a => exact (same a h.1).queued h
  | idle | getState _ | getTail _ _ | getPred _ _ | getAgain _ | failed => trivial

section Specs

/-- A free node is taken. -/
theorem take_spec (hG : Lined g s) (t : τ) (ha : s.mState a = .Free) :
    ∃ g', Effect t g g' s (s.setState a .Waiting) ∧ Hand g' t a := by
  have ho : g.owner a = none := by
    by_contra h
    exact hG.busy a h ha
  have hq : a ∉ g.queue := fun h => by
    rcases hG.left a ho h with ⟨h, -⟩ | ⟨h, -⟩ <;> simp [ha] at h
  have hst : ∀ b, b ≠ a → (s.setState a .Waiting).mState b = s.mState b := fun b hb =>
    Function.update_of_ne hb _ _
  have hself : (s.setState a .Waiting).mState a = .Waiting := Function.update_self ..
  refine ⟨⟨g.queue, g.pred, Function.update g.owner a (some t)⟩, ⟨⟨hG.seg, fun b hb h => ?_,
    fun b h => ?_, fun b h hb => ?_, fun b h hb => ?_⟩, fun b h _ => ?_, fun b hb h => ?_⟩,
    by simp, hq⟩
  · have hba : b ≠ a := fun e => hq (e ▸ hb)
    rw [hst b hba]
    exact hG.waits b hb (by simpa [hba] using h)
  · by_cases hba : b = a
    · simp [hba, hself]
    · rw [hst b hba]
      exact hG.busy b (by simpa [hba] using h)
  · have hba : b ≠ a := fun e => by simp [e] at h
    rw [hst b hba]
    exact hG.free b (by simpa [hba] using h) hb
  · have hba : b ≠ a := fun e => hq (e ▸ hb)
    rw [hst b hba]
    exact hG.left b (by simpa [hba] using h) hb
  · have hba : b ≠ a := fun e => h (e ▸ ho)
    exact ⟨by simp [hba], Iff.rfl, rfl, hst b hba, rfl⟩
  · rw [hst b fun e => hq (e ▸ hb)]
    exact h

/-- `getNode` takes the last node of the queue, which its thread has left. -/
theorem reclaim_spec (hG : Lined g s) (t : τ) {stamp : ℕ} (hT : s.mTail = (some a, stamp))
    (ha : s.mState a = .Released ∧ v = none ∨ s.mState a = .Aborted ∧ v = s.mPred a) :
    ∃ g', Effect t g g' s (s.setTail v stamp) ∧ Hand g' t a := by
  obtain ⟨q, hq, hseg⟩ : ∃ q, g.queue = a :: q ∧ Seg g.pred (g.pred a) q none := by
    have := hG.seg
    rw [hT] at this
    cases hq : g.queue with
    | nil => rw [hq] at this; cases this
    | cons x q =>
      rw [hq] at this
      obtain rfl : a = x := Option.some.inj this.1
      exact ⟨q, rfl, this.2⟩
  have hnd := hG.seg.nodup
  rw [hq, List.nodup_cons] at hnd
  have hmem : ∀ b, b ∈ q ↔ b ∈ g.queue ∧ b ≠ a := fun b => by
    rw [hq, List.mem_cons]
    constructor
    · exact fun h => ⟨.inr h, fun e => hnd.1 (e ▸ h)⟩
    · exact fun h => h.1.resolve_left h.2
  have haq : a ∈ g.queue := by simp [hq]
  have ho : g.owner a = none := hG.owner_eq_none haq (by rcases ha with h | h <;> simp [h.1])
  have hv : g.pred a = v := by
    rcases ha with ⟨h, rfl⟩ | ⟨h, rfl⟩ <;> rcases hG.left a ho haq with h' | h'
    · exact h'.2
    · cases h.symm.trans h'.1
    · cases h.symm.trans h'.1
    · exact h'.2.1
  refine ⟨⟨q, g.pred, Function.update g.owner a (some t)⟩, ⟨⟨hv ▸ hseg, fun b hb h => ?_,
    fun b h => ?_, fun b h hb => ?_, fun b h hb => ?_⟩, fun b h _ => ?_, fun _ _ h => h⟩,
    by simp, hnd.1⟩
  · obtain ⟨hb, hba⟩ := (hmem b).1 hb
    exact hG.waits b hb (by simpa [hba] using h)
  · by_cases hba : b = a
    · rcases ha with ha | ha <;> simp [Shared.setTail, hba, ha.1]
    · exact hG.busy b (by simpa [hba] using h)
  · have hba : b ≠ a := fun e => by simp [e] at h
    exact hG.free b (by simpa [hba] using h) fun h' => hb ((hmem b).2 ⟨h', hba⟩)
  · obtain ⟨hb, hba⟩ := (hmem b).1 hb
    exact hG.left b (by simpa [hba] using h) hb
  · have hba : b ≠ a := fun e => h (e ▸ ho)
    exact ⟨by simp [hba], by simp [hmem, hba], rfl, rfl, rfl⟩

/-- A thread writes `Waiting` into a node it has in hand. -/
theorem store_spec (hG : Lined g s) (ha : Hand g t a) :
    Effect t g g s (s.setState a .Waiting) := by
  have hst : ∀ b, b ≠ a → (s.setState a .Waiting).mState b = s.mState b := fun b hb =>
    Function.update_of_ne hb _ _
  have hself : (s.setState a .Waiting).mState a = .Waiting := Function.update_self ..
  have hne : ∀ b ∈ g.queue, b ≠ a := fun b hb e => ha.2 (e ▸ hb)
  refine ⟨⟨hG.seg, fun b hb h => hst b (hne b hb) ▸ hG.waits b hb h, fun b h => ?_,
    fun b h hb => ?_, fun b h hb => hst b (hne b hb) ▸ hG.left b h hb⟩, fun b _ h => ?_,
    fun b hb h => hst b (hne b hb) ▸ h⟩
  · by_cases hba : b = a
    · simp [hba, hself]
    · exact hst b hba ▸ hG.busy b h
  · have hba : b ≠ a := fun e => by simp [e, ha.1] at h
    exact hst b hba ▸ hG.free b h hb
  · exact ⟨rfl, Iff.rfl, rfl, hst b fun e => h (e ▸ ha.1), rfl⟩

/-- A thread gives up a node it has in hand. -/
theorem drop_spec (hG : Lined g s) (ha : Hand g t a) :
    ∃ g', Effect t g g' s (s.setState a .Free) ∧
      ∀ b, b ≠ a → Same g g' s (s.setState a .Free) b := by
  have hst : ∀ b, b ≠ a → (s.setState a .Free).mState b = s.mState b := fun b hb =>
    Function.update_of_ne hb _ _
  have hself : (s.setState a .Free).mState a = .Free := Function.update_self ..
  have hne : ∀ b ∈ g.queue, b ≠ a := fun b hb e => ha.2 (e ▸ hb)
  have hsame : ∀ b, b ≠ a → Same g ⟨g.queue, g.pred, Function.update g.owner a none⟩ s
      (s.setState a .Free) b := fun b hba => ⟨by simp [hba], Iff.rfl, rfl, hst b hba, rfl⟩
  refine ⟨⟨g.queue, g.pred, Function.update g.owner a none⟩, ⟨⟨hG.seg, fun b hb h => ?_,
    fun b h => ?_, fun b h hb => ?_, fun b h hb => ?_⟩, fun b _ h => hsame b fun e => h (e ▸ ha.1),
    fun b hb h => hst b (hne b hb) ▸ h⟩, hsame⟩
  · exact hst b (hne b hb) ▸ hG.waits b hb (by simpa [hne b hb] using h)
  · have hba : b ≠ a := fun e => by simp [e] at h
    exact hst b hba ▸ hG.busy b (by simpa [hba] using h)
  · by_cases hba : b = a
    · exact hba ▸ hself
    · exact hst b hba ▸ hG.free b (by simpa [hba] using h) hb
  · exact hst b (hne b hb) ▸ hG.left b (by simpa [hne b hb] using h) hb

/-- `spliceNode`: the node becomes the last of the queue. -/
theorem splice_spec (hG : Lined g s) (ha : Hand g t a) (hs : s.mState a = .Waiting) (stamp : ℕ) :
    ∃ g', Effect t g g' s (s.setTail (some a) stamp) ∧ Queued g' t a s.mTail.1 := by
  have hne : ∀ b ∈ g.queue, b ≠ a := fun b hb e => ha.2 (e ▸ hb)
  refine ⟨⟨a :: g.queue, Function.update g.pred a s.mTail.1, g.owner⟩,
    ⟨⟨⟨rfl, ?_⟩, fun b hb h => ?_, hG.busy, fun b h hb => ?_, fun b h hb => ?_⟩,
    fun b _ h => ?_, fun _ _ h => h⟩, ha.1, List.mem_cons_self, by simp⟩
  · simpa using hG.seg.update ha.2
  · rcases List.mem_cons.1 hb with rfl | hb
    · exact hs
    · exact hG.waits b hb h
  · exact hG.free b h fun h' => hb (List.mem_cons_of_mem _ h')
  · rcases List.mem_cons.1 hb with rfl | hb
    · simp [ha.1] at h
    · simpa [hne b hb, Shared.setTail] using hG.left b h hb
  · have hba : b ≠ a := fun e => h (e ▸ ha.1)
    exact ⟨rfl, by simp [hba], by simp [hba], rfl, rfl⟩

/-- A waiting thread takes the node before its own, which was left, out of the queue. -/
theorem unlink_spec (hG : Lined g s) (ha : Queued g t a (some p)) (hp : s.mState p ≠ .Waiting) :
    ∃ g', Effect t g g' s s ∧ Queued g' t a (g.pred p) ∧ Hand g' t p := by
  obtain ⟨ho, haq, hv⟩ := ha
  have hpo := hG.owner_eq_none (hG.pred_mem ⟨ho, haq, hv⟩) hp
  have hpf : s.mState p ≠ .Free := by
    rcases hG.left p hpo (hG.pred_mem ⟨ho, haq, hv⟩) with h | h <;> simp [h.1]
  obtain ⟨q, hseg, hmem, -⟩ := hG.seg.unlink haq hv
  have hap : a ≠ p := fun e => by simp [e, hpo] at ho
  refine ⟨⟨q, Function.update g.pred a (g.pred p), Function.update g.owner p (some t)⟩,
    ⟨⟨hseg, fun b hb h => ?_, fun b h => ?_, fun b h hb => ?_, fun b h hb => ?_⟩, fun b h h' => ?_,
    fun _ _ h => h⟩, ⟨by simpa [hap] using ho, (hmem a).2 ⟨haq, hap⟩, by simp⟩, by simp,
      fun h => ((hmem p).1 h).2 rfl⟩
  · obtain ⟨hb, hbp⟩ := (hmem b).1 hb
    exact hG.waits b hb (by simpa [hbp] using h)
  · by_cases hbp : b = p
    · exact hbp ▸ hpf
    · exact hG.busy b (by simpa [hbp] using h)
  · have hbp : b ≠ p := fun e => by simp [e] at h
    exact hG.free b (by simpa [hbp] using h) fun h' => hb ((hmem b).2 ⟨h', hbp⟩)
  · obtain ⟨hb, hbp⟩ := (hmem b).1 hb
    have hbo : g.owner b = none := by simpa [hbp] using h
    have hba : b ≠ a := fun e => by simp [e, ho] at hbo
    simpa [hba] using hG.left b hbo hb
  · have hba : b ≠ a := fun e => h' (e ▸ ho)
    have hbp : b ≠ p := fun e => h (e ▸ hpo)
    exact ⟨by simp [hbp], by rw [hmem]; simp [hbp], by simp [hba], rfl, rfl⟩

/-- A thread writes the `mPred` of its own node. -/
theorem setPred_spec (hG : Lined g s) (ha : g.owner a = some t) (v : Option Node) :
    Effect t g g s (s.setPred a v) := by
  have hne : ∀ b, g.owner b ≠ some t → (s.setPred a v).mPred b = s.mPred b := fun b hb =>
    Function.update_of_ne (show b ≠ a from fun e => hb (e ▸ ha)) _ _
  refine ⟨⟨hG.seg, hG.waits, hG.busy, hG.free, fun b h hb => ?_⟩, fun b _ h => ?_,
    fun _ _ h => h⟩
  · rw [hne b (by simp [h])]
    exact hG.left b h hb
  · exact ⟨rfl, Iff.rfl, rfl, rfl, hne b h⟩

/-- A thread leaves its node in the queue, released or aborted. -/
theorem leave_spec (hG : Lined g s) (ha : Queued g t a v) {st : State}
    (hst : st = .Released ∧ v = none ∨ st = .Aborted ∧ v = s.mPred a ∧ s.mPred a ≠ none) :
    ∃ g', Effect t g g' s (s.setState a st) := by
  obtain ⟨ho, haq, hv⟩ := ha
  have hne : ∀ b, b ≠ a → (s.setState a st).mState b = s.mState b := fun b hb =>
    Function.update_of_ne hb _ _
  have hself : (s.setState a st).mState a = st := Function.update_self ..
  have hw := hG.waits a haq (by simp [ho])
  refine ⟨⟨g.queue, g.pred, Function.update g.owner a none⟩,
    ⟨⟨hG.seg, fun b hb h => ?_, fun b h => ?_,
    fun b h hb => ?_, fun b h hb => ?_⟩, fun b _ h => ?_, fun b hb h => ?_⟩⟩
  · have hba : b ≠ a := fun e => by simp [e] at h
    exact hne b hba ▸ hG.waits b hb (by simpa [hba] using h)
  · have hba : b ≠ a := fun e => by simp [e] at h
    exact hne b hba ▸ hG.busy b (by simpa [hba] using h)
  · have hba : b ≠ a := fun e => hb (e ▸ haq)
    exact hne b hba ▸ hG.free b (by simpa [hba] using h) hb
  · by_cases hba : b = a
    · subst hba
      rw [hself]
      exact hst.imp (fun h => ⟨h.1, hv.trans h.2⟩) fun h => ⟨h.1, hv.trans h.2.1, h.2.2⟩
    · exact hne b hba ▸ hG.left b (by simpa [hba] using h) hb
  · have hba : b ≠ a := fun e => h (e ▸ ho)
    exact ⟨by simp [hba], Iff.rfl, rfl, hne b hba, rfl⟩
  · have hba : b ≠ a := fun e => by simp [e, hw] at h
    exact hne b hba ▸ h

end Specs

/-- A step of thread `t` keeps the queue, its own place and every other thread's nodes. -/
theorem lined_step {act : Act} (hG : Lined g s) (ht : Placed g s t pc)
    (hC : ∀ node state pred stamp, pc = .getCas node state pred stamp →
      s.mTail = (some node, stamp) → s.mState node = state ∧
      (state = .Aborted → s.mPred node = pred))
    (hn : next act s pc = some (s', pc')) :
    ∃ g', Effect t g g' s s' ∧ Placed g' s' t pc' := by
  have stay : ∀ pc', Placed g s t pc' → ∃ g', Effect t g g' s s ∧ Placed g' s t pc' :=
    fun pc' h => ⟨g, ⟨hG, fun _ _ _ => ⟨rfl, Iff.rfl, rfl, rfl, rfl⟩, fun _ _ h => h⟩, h⟩
  revert hn
  fun_cases next act s pc <;> intro hn <;> cases hn
  all_goals try exact stay _ trivial
  all_goals try exact stay _ ht
  · obtain ⟨g', hE, hH⟩ := take_spec hG t ‹_›
    exact ⟨g', hE, hH, Function.update_self ..⟩
  · exact stay (.getCas _ _ _ _) (.inl ⟨by tauto, rfl⟩)
  · exact stay (.getCas _ _ _ _) (.inr rfl)
  · -- the read state is still current
    rename_i node state pred stamp hT
    obtain ⟨hs, hp⟩ := hC _ _ _ _ rfl hT
    refine reclaim_spec hG t hT (ht.imp (fun h => ⟨hs.trans h.1, h.2⟩) fun h => ?_)
    exact ⟨hs.trans h, (hp h).symm⟩
  · exact ⟨g, store_spec hG ht, ht, Function.update_self ..⟩
  · rename_i node stamp hT
    obtain ⟨g', hE, hQ⟩ := splice_spec hG ht.1 ht.2 stamp
    rw [hT] at hQ
    exact ⟨g', hE, hQ⟩
  · rename_i node tail stamp hT htail
    obtain ⟨g', hE, hQ⟩ := splice_spec hG ht.1 ht.2 stamp
    rw [hT] at hQ
    exact ⟨g', hE, hQ, htail⟩
  · obtain ⟨g', hE, -⟩ := drop_spec hG ht.1
    exact ⟨g', hE, trivial⟩
  · -- the predecessor is released: the holder's node has none
    rename_i node pred hs
    obtain ⟨g', hE, hQ, hH⟩ := unlink_spec hG ht.1 (by simp [hs])
    have hp := hG.pred_mem ht.1
    rcases hG.left pred (hG.owner_eq_none hp (by simp [hs])) hp with h | h
    · exact ⟨g', hE, h.2 ▸ hQ, hH⟩
    · cases hs.symm.trans h.1
  · exact stay (.waitPred _ _) ⟨ht.1, ‹_›⟩
  · obtain ⟨hQ, hH⟩ := ht
    obtain ⟨g', hE, hsame⟩ := drop_spec hG hH
    exact ⟨g', hE, (hsame _ fun e => hH.2 (e ▸ hQ.2.1)).queued hQ⟩
  · -- the predecessor is aborted: its place goes to the node before it
    rename_i node pred
    obtain ⟨hQ, hs⟩ := ht
    obtain ⟨g', hE, hQ', hH⟩ := unlink_spec hG hQ (by simp [hs])
    have hp := hG.pred_mem hQ
    rcases hG.left pred (hG.owner_eq_none hp (by simp [hs])) hp with h | h
    · cases hs.symm.trans h.1
    · exact ⟨g', hE, ⟨h.2.1 ▸ hQ', h.2.2⟩, hH⟩
  · obtain ⟨⟨hQ, hne⟩, hH⟩ := ht
    obtain ⟨g', hE, hsame⟩ := drop_spec hG hH
    exact ⟨g', hE, (hsame _ fun e => hH.2 (e ▸ hQ.2.1)).queued hQ, hne⟩
  · rename_i node pred
    have hself : (s.setPred node pred).mPred node = pred := Function.update_self ..
    exact ⟨g, setPred_spec hG ht.1.1 _, hself.symm ▸ ht.1, hself.symm ▸ ht.2⟩
  · obtain ⟨g', hE⟩ := leave_spec hG ht.1 (.inr ⟨rfl, rfl, ht.2⟩)
    exact ⟨g', hE, trivial⟩
  · exact ⟨g, setPred_spec hG ht.1 _, ht⟩
  · obtain ⟨g', hE⟩ := leave_spec hG ht (.inl ⟨rfl, rfl⟩)
    exact ⟨g', hE, trivial⟩

section Runs

variable [DecidableEq τ]

theorem lined_reach {c : Conf τ Shared PC} (h : system.Reach ReclaimsCurrent c) :
    ∃ g, Lined g c.shared ∧ ∀ t, Placed g c.shared t (c.pc t) := by
  refine Program.invariant Lined Placed ?_ ?_ h
  · rintro s rfl
    exact ⟨⟨[], fun _ => none, fun _ => none⟩, ⟨rfl, by simp, by simp, fun _ _ _ => rfl, by simp⟩,
      fun _ => trivial⟩
  · rintro g c t a s' p' - hC hG hL hn
    obtain ⟨g', hE, hp⟩ := lined_step hG (hL t) (fun _ _ _ _ => hC _ _ _ _) hn
    exact ⟨g', hE.lined, hp, fun u hu => (hL u).effect hG hu hE⟩

omit [DecidableEq τ] in
theorem owner_of_holds (h : Placed g s t pc) (ha : holds pc = some a) : g.owner a = some t := by
  cases pc <;> cases ha
  case getStore => exact h.1
  case locked | unlockPred | unlockState => exact h.1
  case waitDrop => exact h.1.1.1
  all_goals exact h.1.1

omit [DecidableEq τ] in
/-- The node of the lock holder is the first of the queue. -/
theorem queued_of_critical (h : Placed g s t pc) (hc : critical pc) :
    ∃ a, Queued g t a none := by
  cases pc with
  | locked a | unlockPred a | unlockState a => exact ⟨a, h⟩
  | _ => exact hc.elim

/-- The node that `getNode` is to take over, with what it has read. -/
def PC.reclaims : PC → Option (Node × State × Option Node × ℕ)
  | .getCas node state pred stamp => some (node, state, pred, stamp)
  | _ => none

/-- At most one thread is in the critical section. -/
def Exclusive (f : τ → PC) : Prop := ∀ t u, critical (f t) → critical (f u) → t = u

/-- No node is held by two threads. -/
def Unshared (f : τ → PC) : Prop := ∀ t u a, holds (f t) = some a → holds (f u) = some a → t = u

/-- Mutual exclusion, in a run whose reclaims are current. -/
theorem mutual_exclusion {c : Conf τ Shared PC} (h : system.Reach ReclaimsCurrent c) :
    Exclusive c.pc ∧ Unshared c.pc := by
  obtain ⟨g, hG, hL⟩ := lined_reach h
  have owner : ∀ {t u a}, g.owner a = some t → g.owner a = some u → t = u := fun ht hu =>
    Option.some.inj (ht.symm.trans hu)
  refine ⟨fun t u ht hu => ?_, fun t u a ht hu => ?_⟩
  · obtain ⟨a, hoa, haq, hva⟩ := queued_of_critical (hL t) ht
    obtain ⟨b, hob, hbq, hvb⟩ := queued_of_critical (hL u) hu
    obtain rfl : a = b := hG.seg.next_inj haq hbq (hva.trans hvb.symm)
    exact owner hoa hob
  · exact owner (owner_of_holds (hL t) ht) (owner_of_holds (hL u) hu)

/-- A waiting thread always has a predecessor to look at. -/
theorem pred_ne_none {c : Conf τ Shared PC} (h : system.Reach ReclaimsCurrent c) (t : τ)
    {pred : Option Node} (hp : c.pc t = .waitLoad a pred) : pred ≠ none := by
  obtain ⟨g, -, hL⟩ := lined_reach h
  have := hL t
  rw [hp] at this
  exact this.2

omit [DecidableEq τ] in
theorem reclaimsCurrent_iff {c : Conf τ Shared PC} {l : τ × Act} : ReclaimsCurrent c l ↔
    ∀ x ∈ (c.pc l.1).reclaims, c.shared.mTail = (some x.1, x.2.2.2) →
      c.shared.mState x.1 = x.2.1 ∧ (x.2.1 = .Aborted → c.shared.mPred x.1 = x.2.2.1) := by
  constructor
  · intro h x hx
    refine h x.1 x.2.1 x.2.2.1 x.2.2.2 ?_
    unfold PC.reclaims at hx
    split at hx
    · cases hx
      assumption
    · cases hx
  · intro h node state pred stamp hp
    rw [hp] at h
    exact h _ rfl

instance (c : Conf τ Shared PC) (l : τ × Act) : Decidable (ReclaimsCurrent c l) :=
  decidable_of_iff' _ reclaimsCurrent_iff

/-- Thread 1 gives up behind thread 0, which holds the lock, and thread 2 takes over its node and
gets the lock with it. When thread 2 has released it, thread 0 takes the same node over and holds
the lock, and thread 1 is back and waits for it. -/
theorem mutual_exclusion_reclaims : ∃ (n : ℕ) (r : system.Run (ReclaimsCurrent (τ := Fin 3)) n),
    ((r.state 16).pc 0 = .locked 0 ∧ (r.state 16).pc 2 = .getCas 1 .Aborted (some 0) 2 ∧
      (r.state 17).pc 2 = .getStore 1) ∧
    ((r.state 33).pc 0 = .getCas 1 .Released none 4 ∧ (r.state 34).pc 0 = .getStore 1) ∧
    ((r.state n).pc 0 = .locked 1 ∧ (r.state n).pc 1 = .waitAgain 2 (some 1)) ∧
    ∀ i ≤ n, Exclusive (r.state i).pc ∧ Unshared (r.state i).pc := by
  let run (t : Fin 3) (n : ℕ) : List (Fin 3 × Act) := List.replicate n (t, .run)
  let as : List (Fin 3 × Act) := (0, .call 0) :: run 0 3 ++ (1, .call 1) :: run 1 4 ++
    (1, .timeout) :: run 1 2 ++ (2, .call 1) :: run 2 8 ++ (0, .unlock) :: run 0 2 ++ run 2 3 ++
    (2, .unlock) :: run 2 2 ++ (0, .call 1) :: run 0 6 ++ (1, .run) :: (1, .call 2) :: run 1 4
  obtain ⟨r, hr⟩ := System.exists_run_through (S := system) (C := ReclaimsCurrent) as (0, .run)
    (s := ⟨initial, fun _ => .idle⟩) ⟨rfl, rfl⟩ (fun _ _ => id) (by decide +kernel)
  obtain ⟨h1, h2⟩ := hr 16 (by decide)
    (fun c => c.pc 0 = .locked 0 ∧ c.pc 2 = .getCas 1 .Aborted (some 0) 2) ⟨_, rfl, rfl, rfl⟩
  have h3 := hr 17 (by decide) (fun c => c.pc 2 = .getStore 1) ⟨_, rfl, rfl⟩
  have h4 := hr 33 (by decide) (fun c => c.pc 0 = .getCas 1 .Released none 4) ⟨_, rfl, rfl⟩
  have h5 := hr 34 (by decide) (fun c => c.pc 0 = .getStore 1) ⟨_, rfl, rfl⟩
  have h6 := hr as.length le_rfl (fun c => c.pc 0 = .locked 1 ∧ c.pc 1 = .waitAgain 2 (some 1))
    ⟨_, rfl, rfl, rfl⟩
  exact ⟨_, r, ⟨h1, h2, h3⟩, ⟨h4, h5⟩, h6, fun i hi => mutual_exclusion (r.reach hi)⟩

/-- Thread 1 reads that node 0 is released. Thread 2 takes node 1 and the lock behind it, which
frees node 0, and thread 0 queues node 0 again. Then thread 1 finds node 0 at the tail, takes it
away, and with it enters an empty queue. -/
theorem two_holders : ¬ ∀ c : Conf (Fin 3) Shared PC, system.Reachable c →
    Exclusive c.pc ∧ Unshared c.pc := by
  have hc : ∃ c, system.exec (⟨initial, fun _ => .idle⟩ : Conf (Fin 3) Shared PC)
      [(0, .call 0), (0, .run), (0, .run), (0, .run), (0, .unlock), (0, .run), (0, .run),
        (1, .call 0), (1, .run),
        (2, .call 1), (2, .run), (2, .run), (2, .run), (2, .run), (2, .run),
        (0, .call 0), (0, .run), (0, .run), (0, .run),
        (1, .run), (1, .run), (1, .run), (1, .run), (1, .run)] = some c ∧
      c.pc 0 = .waitLoad 0 (some 1) ∧ c.pc 1 = .locked 0 ∧ c.pc 2 = .locked 1 :=
    ⟨_, rfl, rfl, rfl, rfl⟩
  obtain ⟨c, hc, -, h1, h2⟩ := hc
  intro h
  have := (h c (.exec (.init ⟨rfl, rfl⟩) hc)).1 1 2 (by simp [h1, critical])
    (by simp [h2, critical])
  exact absurd this (by decide)

end Runs

end CompositeQueueLock

end ConcurrencySandbox

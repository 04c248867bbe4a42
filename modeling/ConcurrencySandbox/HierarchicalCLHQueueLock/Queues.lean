import ConcurrencySandbox.HierarchicalCLHQueueLock.Basic
import ConcurrencySandbox.Structures.Adjacent
import ConcurrencySandbox.Structures.Precedes

/-!
# The global queue and what is left of the local ones

A thread is in the global queue from its splice on, and before that in the local queue of its
cluster. The first thread of a local queue holds a node that will not grant it the lock: it is the
last of an earlier splice, or it has been marked or taken over by a thread of another cluster since,
and no thread of its own cluster is behind it. Only the last node of a splice is marked, and its
marker is not behind it in the queue.
-/

namespace ConcurrencySandbox

open Interleaving Structures

namespace HierarchicalCLHQueueLock

variable {τ N : Type*} {C : ClusterTraits τ}

structure Ghost (C : ClusterTraits τ) (N : Type*) where
  queue : List τ
  locals : Fin C.ClusterSize → List τ
  -- the last of each splice, and who has yet to mark its node
  tails : τ → Prop
  marker : τ → Option τ
  node : τ → N
  spare : N

section Places

variable (g : Ghost C N) (s : Shared C N) (t : τ)

def Heads : Prop := g.queue.head? = some t

def Leads : Prop := (g.locals (C.getClusterID t)).head? = some t

/-- The node that the thread takes over if it gets to the head of the queue. -/
def Behind (p : N) : Prop := Heads g t ∧ p = g.spare ∨ ∃ u, Adjacent g.queue u t ∧ p = g.node u

/-- A thread that another one has spliced. -/
structure Follows (p : N) : Prop where
  behind : Behind g t p
  cluster : clusterID (s.mState p) = C.word (C.getClusterID t)
  plain : tailWhenSpliced (s.mState p) = false
  middle : ∀ u, p = g.node u → ¬ g.tails u

/-- A node that grants the lock to no thread of the cluster that comes to it now. -/
def Stale (c : Fin C.ClusterSize) (p : N) : Prop :=
  (∃ u l r, g.tails u ∧ p = g.node u ∧ g.queue = l ++ u :: r ∧ ∀ v ∈ r, C.getClusterID v ≠ c) ∨
    (∀ v ∈ g.queue, C.getClusterID v ≠ c) ∧
      (clusterID (s.mState p) ≠ C.word c ∨ tailWhenSpliced (s.mState p) = true)

def Placed : PC N → Prop
  | .idle | .exchange => t ∉ g.queue ∧ t ∉ g.locals (C.getClusterID t)
  | .waitForGrant p => Follows g s t p ∨
    (∃ u, Adjacent (g.locals (C.getClusterID t)) u t ∧ p = g.node u) ∨
      Leads g t ∧ Stale g s (C.getClusterID t) p
  | .loadGlobal | .loadLocal _ => Leads g t
  | .casGlobal _ tail => Leads g t ∧ ∃ u ∈ g.locals (C.getClusterID t), tail = some (g.node u)
  | .loadTail pred tail | .casTail pred tail _ => (∃ p, pred = some p ∧ Behind g t p) ∧
    ∃ u, tail = some (g.node u) ∧ g.marker u = some t
  | .spin pred => ∃ p, pred = some p ∧ Behind g t p
  | .held | .loadPred => Heads g t ∧ s.sMyPred t = some g.spare
  | .casPred oldMyNode _ => Heads g t ∧ s.sMyPred t = some g.spare ∧ oldMyNode = some (g.node t)
  | .loadMine oldMyNode | .casMine oldMyNode _ => Heads g t ∧ oldMyNode = some (g.node t) ∧
    s.mState g.spare = C.cleared t ∧ s.sMyNode t = some g.spare

end Places

def PC.releasing : PC N → Bool
  | .casPred .. | .loadMine _ | .casMine .. => true
  | _ => false

/-- The node that the thread is about to mark. -/
def PC.marking : PC N → Option N
  | .loadTail _ tail | .casTail _ tail _ => tail
  | _ => none

structure Local (g : Ghost C N) (s : Shared C N) (t : τ) (p : PC N) : Prop where
  placed : Placed g s t p
  node : p.releasing = false → s.sMyNode t = some (g.node t)
  marks : ∀ u, g.marker u = some t → p.marking = some (g.node u)

structure Inv (g : Ghost C N) (s : Shared C N) : Prop where
  injective : Function.Injective g.node
  spare : ∀ t, g.node t ≠ g.spare
  nodup : g.queue.Nodup
  localNodup : ∀ c, (g.locals c).Nodup
  apart : ∀ c, ∀ t ∈ g.locals c, t ∉ g.queue ∧ C.getClusterID t = c
  own : ∀ t, clusterID (s.mState (g.node t)) = C.word (C.getClusterID t) ∧
    successorMustWait (s.mState (g.node t)) = true
  plain : ∀ t, ¬ g.tails t → tailWhenSpliced (s.mState (g.node t)) = false
  tails : ∀ u, g.tails u → u ∈ g.queue ∧
    (g.marker u = none → tailWhenSpliced (s.mState (g.node u)) = true)
  marker : ∀ u m, g.marker u = some m → g.tails u ∧ (m = u ∨ Precedes g.queue m u)
  globalTail : s.mGlobalTail = some ((g.queue.getLast?.map g.node).getD g.spare)
  localTail : ∀ c u, (g.locals c).getLast? = some u → s.mLocalTails c = some (g.node u)
  stale : ∀ c p, g.locals c = [] → s.mLocalTails c = some p → Stale g s c p

variable {g g' : Ghost C N} {s s' : Shared C N} {t u v w : τ} {p q : N} {c d : Fin C.ClusterSize}
  {k : PC N}

theorem Heads.eq (ht : Heads g t) (hu : Heads g u) : t = u := Option.some.inj (ht.symm.trans hu)

theorem Heads.mem (ht : Heads g t) : t ∈ g.queue := List.mem_of_head? ht

theorem Leads.mem (ht : Leads g t) : t ∈ g.locals (C.getClusterID t) := List.mem_of_head? ht

/-- A node of a thread in the queue lets nobody pass but the head. -/
theorem Inv.heads (h : Inv g s) (hb : Behind g t p) (hp : successorMustWait (s.mState p) = false) :
    Heads g t ∧ p = g.spare := by
  rcases hb with hb | ⟨u, -, rfl⟩
  · exact hb
  · rw [(h.own u).2] at hp
    cases hp

/-- The head of a local queue is not granted the lock. -/
theorem Inv.not_granted (h : Inv g s) (hs : Stale g s c p) :
    clusterID (s.mState p) ≠ C.word c ∨ tailWhenSpliced (s.mState p) = true ∨
      successorMustWait (s.mState p) = true := by
  rcases hs with ⟨u, l, r, -, rfl, -⟩ | ⟨-, hs⟩
  · exact .inr (.inr (h.own u).2)
  · exact hs.imp id .inl

section Same

variable (hs : s'.mState = s.mState)
include hs

theorem Follows.same (h : Follows g s t p) : Follows g s' t p :=
  ⟨h.behind, hs ▸ h.cluster, hs ▸ h.plain, h.middle⟩

theorem Stale.same (h : Stale g s c p) : Stale g s' c p := by
  unfold Stale at h ⊢
  rwa [hs]

theorem Inv.same (h : Inv g s) (hl : s'.mLocalTails = s.mLocalTails)
    (hg : s'.mGlobalTail = s.mGlobalTail) : Inv g s' where
  injective := h.injective
  spare := h.spare
  nodup := h.nodup
  localNodup := h.localNodup
  apart := h.apart
  own t := by
    rw [hs]
    exact h.own t
  plain t ht := by
    rw [hs]
    exact h.plain t ht
  tails u hu := by
    rw [hs]
    exact h.tails u hu
  marker := h.marker
  globalTail := hg.trans h.globalTail
  localTail c u hu := by
    rw [hl]
    exact h.localTail c u hu
  stale c p hc hp := by
    rw [hl] at hp
    exact (h.stale c p hc hp).same hs

theorem Local.same (h : Local g s t k) (hn : s'.sMyNode t = s.sMyNode t)
    (hp : s'.sMyPred t = s.sMyPred t) : Local g s' t k where
  placed := by
    have hk := h.placed
    cases k with
    | waitForGrant p => exact hk.imp (·.same hs) (Or.imp id (And.imp id (·.same hs)))
    | held | loadPred => exact ⟨hk.1, hp.trans hk.2⟩
    | casPred => exact ⟨hk.1, hp.trans hk.2.1, hk.2.2⟩
    | loadMine | casMine => exact ⟨hk.1, hk.2.1, hs ▸ hk.2.2.1, hn.trans hk.2.2.2⟩
    | _ => exact hk
  node hr := hn.trans (h.node hr)
  marks := h.marks

end Same

end HierarchicalCLHQueueLock

end ConcurrencySandbox

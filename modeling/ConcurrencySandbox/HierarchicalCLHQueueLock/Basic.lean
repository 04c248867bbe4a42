import Mathlib.Algebra.Group.Nat.Defs
import ConcurrencySandbox.Interleaving.System

/-!
# HierarchicalCLHQueueLock

`Lock/QueueLock/HierarchicalCLHQueueLock`: a thread queues up at the local tail of its cluster. The
first thread of a local queue is the cluster master: it appends the queue, up to the local tail it
has read, to the global queue, and marks the last node of what it has spliced. A thread spins on the
node of the thread before it, and takes that node over when it unlocks.

The nodes are those of one instance. The garbage collector deletes them at the end of the program.
-/

namespace ConcurrencySandbox

open Interleaving

namespace HierarchicalCLHQueueLock

variable {τ N : Type*}

/-- The id of a cluster fits under `sClusterMask`. -/
structure ClusterTraits (τ : Type*) where
  ClusterSize : ℕ
  size_le : ClusterSize ≤ 2 ^ 30
  getClusterID : τ → Fin ClusterSize

def sClusterMask : BitVec 32 := 0x3FFFFFFF

def sSuccessorMustWaitMask : BitVec 32 := 0x40000000

def sTailWhenSplicedMask : BitVec 32 := 0x80000000

def clusterID (state : BitVec 32) : BitVec 32 := state &&& sClusterMask

def successorMustWait (state : BitVec 32) : Bool := state &&& sSuccessorMustWaitMask ≠ 0

def tailWhenSpliced (state : BitVec 32) : Bool := state &&& sTailWhenSplicedMask ≠ 0

namespace ClusterTraits

variable (C : ClusterTraits τ)

/-- The id of a cluster as it is stored. -/
def word (c : Fin C.ClusterSize) : BitVec 32 := BitVec.ofNat 32 c

/-- The state of a new node, and what `clear` stores. -/
def cleared (t : τ) : BitVec 32 :=
  (C.word (C.getClusterID t) ||| sSuccessorMustWaitMask) &&& ~~~sTailWhenSplicedMask

end ClusterTraits

structure Shared (C : ClusterTraits τ) (N : Type*) where
  mState : N → BitVec 32
  mLocalTails : Fin C.ClusterSize → Option N
  mGlobalTail : Option N
  sMyNode : τ → Option N
  sMyPred : τ → Option N

/-- Where a thread is, with its local variables. -/
inductive PC (N : Type*)
  | idle
  -- lock
  | exchange
  | waitForGrant (pred1 : N)
  | loadGlobal
  | loadLocal (pred : Option N)
  | casGlobal (pred tail : Option N)
  | loadTail (pred tail : Option N)
  | casTail (pred tail : Option N) (oldState : BitVec 32)
  | spin (pred : Option N)
  -- unlock
  | held
  | loadPred
  | casPred (oldMyNode : Option N) (oldState : BitVec 32)
  | loadMine (oldMyNode : Option N)
  | casMine (oldMyNode : Option N) (oldState : BitVec 32)
  deriving DecidableEq

/-- `run true` is a step in which a `compare_exchange_weak` fails spuriously. -/
inductive Act
  | lock
  | unlock
  | run (spurious : Bool)

section Model

variable [DecidableEq τ] [DecidableEq N] {C : ClusterTraits τ}

def Shared.setState (s : Shared C N) (n : N) (state : BitVec 32) : Shared C N :=
  { s with mState := Function.update s.mState n state }

def Shared.setPred (s : Shared C N) (t : τ) (pred : Option N) : Shared C N :=
  { s with sMyPred := Function.update s.sMyPred t pred }

/-- One atomic step, with the accesses to the thread's own variables. A null pointer that is
followed gives no next state. -/
def next (t : τ) (act : Act) (s : Shared C N) : PC N → Option (Shared C N × PC N)
  | .idle =>
    match act with
    | .lock => some (s, .exchange)
    | _ => none
  | .exchange =>
    match act with
    | .run _ =>
      let c := C.getClusterID t
      some ({ s with mLocalTails := Function.update s.mLocalTails c (s.sMyNode t) },
        match s.mLocalTails c with
        | some pred1 => .waitForGrant pred1
        | none => .loadGlobal)
    | _ => none
  | .waitForGrant pred1 =>
    match act with
    | .run _ =>
      let state := s.mState pred1
      if clusterID state = C.word (C.getClusterID t) ∧ successorMustWait state = false ∧
          tailWhenSpliced state = false then
        some (s.setPred t (some pred1), .held)
      else if clusterID state ≠ C.word (C.getClusterID t) ∨ tailWhenSpliced state then
        some (s, .loadGlobal)
      else some (s, .waitForGrant pred1)
    | _ => none
  | .loadGlobal =>
    match act with
    | .run _ => some (s, .loadLocal s.mGlobalTail)
    | _ => none
  | .loadLocal pred =>
    match act with
    | .run _ => some (s, .casGlobal pred (s.mLocalTails (C.getClusterID t)))
    | _ => none
  | .casGlobal pred tail =>
    match act with
    | .run _ =>
      if s.mGlobalTail = pred then some ({ s with mGlobalTail := tail }, .loadTail pred tail)
      else some (s, .loadLocal s.mGlobalTail)
    | _ => none
  | .loadTail pred tail =>
    match act with
    | .run _ => tail.map fun n => (s, .casTail pred tail (s.mState n))
    | _ => none
  | .casTail pred tail oldState =>
    match act with
    | .run spurious => tail.map fun n =>
      if s.mState n = oldState ∧ spurious = false then
        (s.setState n (oldState ||| sTailWhenSplicedMask), .spin pred)
      else (s, .casTail pred tail (s.mState n))
    | _ => none
  | .spin pred =>
    match act with
    | .run _ => pred.map fun n =>
      if successorMustWait (s.mState n) then (s, .spin pred) else (s.setPred t pred, .held)
    | _ => none
  | .held =>
    match act with
    | .unlock => some (s, .loadPred)
    | _ => none
  | .loadPred =>
    match act with
    | .run _ => (s.sMyPred t).map fun n =>
      ({ s with sMyNode := Function.update s.sMyNode t none }, .casPred (s.sMyNode t) (s.mState n))
    | _ => none
  | .casPred oldMyNode oldState =>
    match act with
    | .run spurious => (s.sMyPred t).map fun n =>
      if s.mState n = oldState ∧ spurious = false then
        ({ s.setState n (C.cleared t) with
            sMyNode := Function.update s.sMyNode t (s.sMyPred t)
            sMyPred := Function.update s.sMyPred t none }, .loadMine oldMyNode)
      else (s, .casPred oldMyNode (s.mState n))
    | _ => none
  | .loadMine oldMyNode =>
    match act with
    | .run _ => oldMyNode.map fun n => (s, .casMine oldMyNode (s.mState n))
    | _ => none
  | .casMine oldMyNode oldState =>
    match act with
    | .run _ => oldMyNode.map fun n =>
      if s.mState n = oldState then (s.setState n (oldState &&& ~~~sSuccessorMustWaitMask), .idle)
      else (s, .casMine oldMyNode (s.mState n))
    | _ => none

/-- All nodes are different: that of the instance and one for every thread. -/
structure Initial (node : τ → N) (tail : N) (s : Shared C N) : Prop where
  nodes : Function.Injective node
  ne_tail : ∀ t, node t ≠ tail
  state : ∀ t, s.mState (node t) = C.cleared t
  stateTail : s.mState tail = 0
  localTails : ∀ c, s.mLocalTails c = none
  globalTail : s.mGlobalTail = some tail
  myNode : ∀ t, s.sMyNode t = some (node t)
  myPred : ∀ t, s.sMyPred t = none

def program (C : ClusterTraits τ) (N : Type*) [DecidableEq N] : Program τ (Shared C N) (PC N) Act :=
  ⟨next⟩

def system (C : ClusterTraits τ) (N : Type*) [DecidableEq N] :
    System (Conf τ (Shared C N) (PC N)) (τ × Act) :=
  (program C N).system (fun s => ∃ node tail, Initial node tail s) .idle

end Model

/-- From the return of `lock` to the end of `unlock`. -/
def PC.holds : PC N → Bool
  | .held | .loadPred | .casPred .. | .loadMine _ | .casMine .. => true
  | _ => false

section Words

variable {w m a : BitVec 32}

theorem or_masked (h : a &&& m = 0) : (w ||| a) &&& m = w &&& m := by
  rw [BitVec.and_or_distrib_right, h]
  exact BitVec.or_zero

theorem and_masked (h : ~~~a &&& m = m) : (w &&& ~~~a) &&& m = w &&& m := by
  rw [BitVec.and_assoc, h]

theorem clusterID_splice : clusterID (w ||| sTailWhenSplicedMask) = clusterID w :=
  or_masked (by decide)

theorem successorMustWait_splice :
    successorMustWait (w ||| sTailWhenSplicedMask) = successorMustWait w := by
  unfold successorMustWait
  rw [or_masked (by decide)]

theorem tailWhenSpliced_splice : tailWhenSpliced (w ||| sTailWhenSplicedMask) = true := by
  unfold tailWhenSpliced
  rw [BitVec.and_or_distrib_right, decide_eq_true_eq, ne_eq]
  intro h
  exact absurd (BitVec.or_eq_zero_iff.1 h).2 (by decide)

theorem clusterID_release : clusterID (w &&& ~~~sSuccessorMustWaitMask) = clusterID w :=
  and_masked (by decide)

theorem tailWhenSpliced_release :
    tailWhenSpliced (w &&& ~~~sSuccessorMustWaitMask) = tailWhenSpliced w := by
  unfold tailWhenSpliced
  rw [and_masked (by decide)]

namespace ClusterTraits

variable (C : ClusterTraits τ) (t : τ)

theorem toNat_word (c : Fin C.ClusterSize) : (C.word c).toNat = c := by
  have hc := c.isLt
  have hsize := C.size_le
  rw [word, BitVec.toNat_ofNat, Nat.mod_eq_of_lt]
  omega

theorem word_injective : Function.Injective C.word := fun c d h => by
  have hcd := congrArg BitVec.toNat h
  rw [toNat_word, toNat_word] at hcd
  exact Fin.ext hcd

/-- An id has none of the other bits. -/
theorem clusterID_word (c : Fin C.ClusterSize) : clusterID (C.word c) = C.word c := by
  have hc := c.isLt
  have hsize := C.size_le
  have hmask : sClusterMask.toNat = 2 ^ 30 - 1 := rfl
  unfold clusterID
  apply BitVec.eq_of_toNat_eq
  rw [BitVec.toNat_and, hmask, Nat.and_two_pow_sub_one_eq_mod, toNat_word, Nat.mod_eq_of_lt]
  omega

theorem clusterID_cleared : clusterID (C.cleared t) = C.word (C.getClusterID t) := by
  unfold cleared clusterID
  rw [and_masked (by decide), or_masked (by decide)]
  exact C.clusterID_word _

theorem successorMustWait_cleared : successorMustWait (C.cleared t) = true := by
  unfold cleared successorMustWait
  rw [and_masked (by decide), BitVec.and_or_distrib_right, decide_eq_true_eq, ne_eq]
  intro h
  exact absurd (BitVec.or_eq_zero_iff.1 h).2 (by decide)

theorem tailWhenSpliced_cleared : tailWhenSpliced (C.cleared t) = false := by
  have hmask : ~~~sTailWhenSplicedMask &&& sTailWhenSplicedMask = 0 := by decide
  unfold cleared tailWhenSpliced
  rw [BitVec.and_assoc, hmask]
  simp

end ClusterTraits

end Words

end HierarchicalCLHQueueLock

end ConcurrencySandbox

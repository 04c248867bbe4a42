import Mathlib.Algebra.Group.Nat.Defs
import Mathlib.Data.Finset.Insert
import ConcurrencySandbox.Interleaving.System

/-!
# LockFreeExtendibleBucket

The growing array under `LockFreeHashMap`: a tree of nodes of 1024 elements each, whose root and
size exponent change together by compare-and-swap. `extend` doubles the size, with a new root when
it finds the old one full; `operator[]` walks down from the root and makes the missing nodes.

An index outside a node's array, and a division by a size that wrapped to zero, end in
`outOfRange`. The elements of the leaves are places only: what is stored there plays no part.
-/

namespace ConcurrencySandbox

open Interleaving

namespace ExtendibleBucket

def isPowersOf2 (x : ℕ) : Bool :=
  if x < 2 then x == 1 else if x % 2 ≠ 0 then false else isPowersOf2 (x / 2)

def exponent (x : ℕ) : ℕ :=
  if x < 2 then 0 else exponent (x / 2) + 1

def sBucketSize : ℕ := 2 ^ 10

/-- The loop of `pow`, on 64-bit values. -/
def pow (x : ℕ) : ℕ → ℕ
  | 0 => 1
  | y + 1 => pow x y * x % 2 ^ 64

structure BucketNode (A : Type*) where
  mHeight : ℕ
  mBucket : ℕ → Option A

structure Shared (A : Type*) where
  mRoot : A × ℕ
  heap : A → BucketNode A
  allocated : A → Bool

/-- `size()` for a size exponent: `1 << exp` is an `int` that becomes a `size_t`. The shift is
undefined from 32 on. -/
def sizeOf (exp : ℕ) : Option ℕ :=
  if exp < 31 then some (2 ^ exp) else if exp = 31 then some (2 ^ 64 - 2 ^ 31) else none

/-- What `operator[]` was called with, and the exponent it loaded along with the root. -/
structure Call where
  i : ℕ
  exp : ℕ

inductive PC (A : Type*)
  | idle
  -- extend
  | extendLoad
  | extendTest (root : A) (exp : ℕ)
  | extendCas (root : A) (exp : ℕ)
  -- extendTree
  | treeNew (root : A) (exp : ℕ)
  | treeStore (root : A) (exp : ℕ) (newRoot : A)
  | treeCas (root : A) (exp : ℕ) (newRoot : A)
  | treeDelete (newRoot : A)
  | extended (success : Bool)
  -- operator[]
  | load (i : ℕ)
  | getImpl (call : Call) (i : ℕ) (node : A)
  | childNew (call : Call) (i : ℕ) (node : A)
  | childCas (call : Call) (i : ℕ) (node newChild : A)
  | childDelete (call : Call) (i : ℕ) (childNode newChild : A)
  | outOfRange (call : Call)
  /-- `operator[]` returns the element `i` of `node`. -/
  | element (call : Call) (node : A) (i : ℕ)

/-- `call` begins an `extend` (`none`) or an `operator[]`; `alloc` is the address `make_unique`
returns. -/
inductive Act (A : Type*)
  | call (index : Option ℕ)
  | run
  | alloc (a : A)

variable {A : Type*} [DecidableEq A]

namespace Shared

variable (s : Shared A)

/-- `make_unique<BucketNode>(height)` at address `a`. -/
def make (a : A) (height : ℕ) : Shared A :=
  { s with heap := Function.update s.heap a ⟨height, fun _ => none⟩
           allocated := Function.update s.allocated a true }

def free (a : A) : Shared A :=
  { s with allocated := Function.update s.allocated a false }

def setChild (a : A) (k : ℕ) (b : A) : Shared A :=
  let bucket := Function.update (s.heap a).mBucket k (some b)
  { s with heap := Function.update s.heap a ⟨(s.heap a).mHeight, bucket⟩ }

end Shared

/-- The constructor: a leaf at `a`. -/
def initial (initialSize : ℕ) (a : A) : Shared A where
  mRoot := (a, exponent initialSize)
  heap := fun _ => ⟨0, fun _ => none⟩
  allocated := Function.update (fun _ => false) a true

/-- One atomic step of a thread. -/
def next (BaseArraySize : ℕ) (act : Act A) (s : Shared A) (pc : PC A) :
    Option (Shared A × PC A) :=
  match pc, act with
  | .idle, .call none => some (s, .extendLoad)
  | .idle, .call (some i) => some (s, .load i)
  | .extendLoad, .run => some (s, .extendTest s.mRoot.1 s.mRoot.2)
  | .extendTest root exp, .run =>
    -- `1ULL << exp` is undefined from 64 on; there the model takes the power
    if 2 ^ exp ≤ pow BaseArraySize ((s.heap root).mHeight + 1) then some (s, .extendCas root exp)
    else some (s, .treeNew root exp)
  | .extendCas root exp, .run =>
    if s.mRoot = (root, exp) then
      some ({ s with mRoot := (root, (exp + 1) % 2 ^ 16) }, .extended true)
    else some (s, .extended false)
  | .treeNew root exp, .alloc a =>
    if s.allocated a then none
    else some (s.make a ((s.heap root).mHeight + 1), .treeStore root exp a)
  | .treeStore root exp newRoot, .run =>
    some (s.setChild newRoot 0 root, .treeCas root exp newRoot)
  | .treeCas root exp newRoot, .run =>
    if s.mRoot = (root, exp) then
      some ({ s with mRoot := (newRoot, (exp + 1) % 2 ^ 16) }, .extended true)
    else some (s, .treeDelete newRoot)
  | .treeDelete newRoot, .run => some (s.free newRoot, .extended false)
  | .extended _, .run => some (s, .idle)
  | .load i, .run => some (s, .getImpl ⟨i, s.mRoot.2⟩ i s.mRoot.1)
  | .getImpl call i node, .run =>
    if (s.heap node).mHeight = 0 then some (s, .element call node (i % sBucketSize))
    else if pow sBucketSize (s.heap node).mHeight = 0 ∨
        sBucketSize ≤ i / pow sBucketSize (s.heap node).mHeight then some (s, .outOfRange call)
    else
      match (s.heap node).mBucket (i / pow sBucketSize (s.heap node).mHeight) with
      | some child => some (s, .getImpl call (i % pow sBucketSize (s.heap node).mHeight) child)
      | none => some (s, .childNew call i node)
  | .childNew call i node, .alloc a =>
    if s.allocated a then none
    else some (s.make a ((s.heap node).mHeight - 1), .childCas call i node a)
  | .childCas call i node newChild, .run =>
    match (s.heap node).mBucket (i / pow sBucketSize (s.heap node).mHeight) with
    | some child =>
      some (s, .childDelete call (i % pow sBucketSize (s.heap node).mHeight) child newChild)
    | none =>
      some (s.setChild node (i / pow sBucketSize (s.heap node).mHeight) newChild,
        .getImpl call (i % pow sBucketSize (s.heap node).mHeight) newChild)
  | .childDelete call i childNode newChild, .run =>
    some (s.free newChild, .getImpl call i childNode)
  | .element .., .run => some (s, .idle)
  | _, _ => none

variable {τ : Type*} [DecidableEq τ]

def program (BaseArraySize : ℕ) : Program τ (Shared A) (PC A) (Act A) :=
  ⟨fun _ => next BaseArraySize⟩

/-- Any threads calling `extend` and `operator[]`. -/
def system (BaseArraySize initialSize : ℕ) : System (Conf τ (Shared A) (PC A)) (τ × Act A) :=
  (program BaseArraySize).system (fun s => ∃ a, s = initial initialSize a) .idle

end ExtendibleBucket

end ConcurrencySandbox

import ConcurrencySandbox.HazardPointer.Claim

/-!
# HazardPointerList

The slots of `HazardPointerDomain`, node by node: the constructor of a `HazardPointerOwner` makes a
`HazardPointerListNode` at any free address and `append`s it to the list, at whose nodes
`getPointers` looks one after the other. Around them is the domain as in `HazardPointer.Domain`,
with the delete lists as lists, and the threads that claim, publish and retire of
`HazardPointer.Claim`; a step at a null pointer does not exist. `mSize` is a natural number, an
`int` of the source that is taken not to reach 2^31.
-/

namespace ConcurrencySandbox

open Interleaving HazardPointer

namespace HazardPointerList

structure Shared (τ L B A : Type*) where
  -- HazardPointerListNode
  mPointer : B → Option A
  mNext : B → Option B
  allocated : B → Bool
  -- HazardPointerList
  mHead : Option B
  mSize : ℕ
  -- HazardPointerOwner::mPointer, by the node it is in
  owner : τ × ℕ → Option B
  globalDeleteList : List A
  localDeleteList : τ → List A
  location : L → Option A
  life : A → Life

inductive Frame (B A : Type*)
  | unstarted
  -- HazardPointerOwner
  | owner (i : ℕ)
  | appendNext (i : ℕ) (node : B)
  | appendSize (i : ℕ) (node : B)
  | appendCas (i : ℕ) (node : B)
  | ready
  -- retire
  | retireTest
  -- tryDeallocateLocalList
  | loadGlobal
  | resetGlobal
  | reserve
  | loadHead
  | getPointers (cur : Option B) (arr : List (Option A))
  | getNext (cur : B) (arr : List (Option A))
  | filter (cur : List A) (arr : List (Option A))
  -- the thread's exit; the flag tells whether the other destructor is still to come
  | exitOwner (i : ℕ) (listLeft : Bool)
  | exitList (ownersLeft : Bool)
  | exited

inductive PC (L B A : Type*)
  | domain (f : Frame B A)
  -- claimPointer
  | claimLoad (l : L) (i : ℕ)
  | claimStore (l : L) (i : ℕ) (p : Option A)
  | claimCheck (l : L) (i : ℕ) (p : Option A)
  | claimed (i : ℕ) (p : Option A)

inductive Act (L B A : Type*)
  | run (ok : Bool)
  | make (node : B)
  | claim (l : L) (i : ℕ)
  | store (i : ℕ) (v : Option A)
  | alloc (a : A)
  | write (l : L) (v : Option A)
  | retire (a : A)
  | tryDeallocate
  | exit (listFirst : Bool)

variable {τ L B A : Type*} [DecidableEq τ] [DecidableEq L] [DecidableEq B] [DecidableEq A]

namespace Shared

variable (s : Shared τ L B A)

/-- `make_unique<HazardPointerListNode>()` for slot `i` of thread `t`. -/
def make (t : τ) (i : ℕ) (node : B) : Shared τ L B A :=
  { s with
    mPointer := Function.update s.mPointer node none
    mNext := Function.update s.mNext node none
    allocated := Function.update s.allocated node true
    owner := Function.update s.owner (t, i) (some node) }

def setNext (node : B) (next : Option B) : Shared τ L B A :=
  { s with mNext := Function.update s.mNext node next }

/-- A store to slot `i` of thread `t`. -/
def store (t : τ) (i : ℕ) (v : Option A) : Option (Shared τ L B A) :=
  (s.owner (t, i)).map fun node => { s with mPointer := Function.update s.mPointer node v }

def setLocal (t : τ) (l : List A) : Shared τ L B A :=
  { s with localDeleteList := Function.update s.localDeleteList t l }

/-- The beginning of `retire`: the address goes to the front of the local list. -/
def retire (t : τ) (a : A) : Shared τ L B A := s.setLocal t (a :: s.localDeleteList t)

def setLife (a : A) (x : Life) : Shared τ L B A := { s with life := Function.update s.life a x }

end Shared

/-- One step of thread `t` inside the domain of `N` slots for each thread. -/
def nextRun (N : ℕ) (t : τ) (ok : Bool) (s : Shared τ L B A) :
    Frame B A → Option (Shared τ L B A × Frame B A)
  | .unstarted => some (s, .owner 0)
  | .owner i => if i < N then none else some (s, .ready)
  | .appendNext i node => some (s.setNext node s.mHead, .appendSize i node)
  | .appendSize i node => some ({ s with mSize := s.mSize + 1 }, .appendCas i node)
  | .appendCas i node =>
    if s.mHead = s.mNext node ∧ ok then some ({ s with mHead := some node }, .owner (i + 1))
    else some (s.setNext node s.mHead, .appendCas i node)
  | .retireTest =>
    if 2 * s.mSize < (s.localDeleteList t).length then some (s, .loadGlobal) else some (s, .ready)
  | .loadGlobal =>
    if s.globalDeleteList = [] then some (s, .reserve) else some (s, .resetGlobal)
  | .resetGlobal =>
    some ({ s.setLocal t (s.globalDeleteList.reverse ++ s.localDeleteList t) with
      globalDeleteList := [] }, .reserve)
  | .reserve => some (s, .loadHead)
  | .loadHead => some (s, .getPointers s.mHead [])
  | .getPointers (some cur) arr => some (s, .getNext cur (arr ++ [s.mPointer cur]))
  | .getNext cur arr => some (s, .getPointers (s.mNext cur) arr)
  | .getPointers none arr => some (s.setLocal t [], .filter (s.localDeleteList t) arr)
  | .filter [] _ => some (s, .ready)
  | .filter (a :: cur) arr =>
    if arr.contains (some a) then some (s.retire t a, .filter cur arr)
    else some (s.setLife a .free, .filter cur arr)
  | .exitOwner (i + 1) listLeft => (s.store t i none).map (·, .exitOwner i listLeft)
  | .exitOwner 0 listLeft => some (s, if listLeft then .exitList false else .exited)
  | .exitList ownersLeft =>
    if ok then
      some ({ s.setLocal t [] with
        globalDeleteList := s.localDeleteList t ++ s.globalDeleteList },
        if ownersLeft then .exitOwner N false else .exited)
    else some (s, .exitList ownersLeft)
  | .ready | .exited => none

/-- One atomic step of thread `t`. -/
def next (N : ℕ) (t : τ) (act : Act L B A) (s : Shared τ L B A) (pc : PC L B A) :
    Option (Shared τ L B A × PC L B A) :=
  match pc, act with
  | .domain .ready, .claim l i => if i < N then some (s, .claimLoad l i) else none
  | .domain .ready, .store i v => if i < N then (s.store t i v).map (·, .domain .ready) else none
  | .domain .ready, .alloc a => some (s.setLife a .live, .domain .ready)
  | .domain .ready, .write l v =>
    some ({ s with location := Function.update s.location l v }, .domain .ready)
  | .domain .ready, .retire a => some ((s.setLife a .retired).retire t a, .domain .retireTest)
  | .domain .ready, .tryDeallocate => some (s, .domain .loadGlobal)
  | .domain .ready, .exit listFirst =>
    some (s, .domain (if listFirst then .exitList true else .exitOwner N true))
  | .domain (.owner i), .make node =>
    if i < N ∧ s.allocated node = false then some (s.make t i node, .domain (.appendNext i node))
    else none
  | .domain f, .run ok => (nextRun N t ok s f).map fun r => (r.1, .domain r.2)
  | .claimLoad l i, .run _ => some (s, .claimStore l i (s.location l))
  | .claimStore l i p, .run _ => (s.store t i p).map (·, .claimCheck l i p)
  | .claimCheck l i p, .run _ =>
    if s.location l = p then some (s, .claimed i p) else some (s, .claimLoad l i)
  | .claimed _ _, .run _ => some (s, .domain .ready)
  | _, _ => none

/-- No slot has been made and nothing retired; memory holds anything. -/
structure Initial (s : Shared τ L B A) : Prop where
  allocated : s.allocated = fun _ => false
  mHead : s.mHead = none
  mSize : s.mSize = 0
  owner : s.owner = fun _ => none
  globalDeleteList : s.globalDeleteList = []
  localDeleteList : s.localDeleteList = fun _ => []
  life : ∀ a, s.life a ≠ .retired
  location : ∀ l a, s.location l = some a → s.life a = .live

def system (N : ℕ) : System (Conf τ (Shared τ L B A) (PC L B A)) (τ × Act L B A) :=
  (⟨next N⟩ : Program τ _ _ _).system Initial (.domain .unstarted)

/-- What the callers of the domain promise, as in `HazardPointer.Disciplined`. -/
def Disciplined (c : Conf τ (Shared τ L B A) (PC L B A)) (l : τ × Act L B A) : Prop :=
  match l.2 with
  | .alloc a => c.shared.life a = .free
  | .write _ (some a) => c.shared.life a = .live
  | .retire a => c.shared.life a = .live ∧ ∀ l, c.shared.location l ≠ some a
  | _ => True

end HazardPointerList

end ConcurrencySandbox

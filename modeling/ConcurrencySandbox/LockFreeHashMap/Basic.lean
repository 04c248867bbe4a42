import ConcurrencySandbox.HazardPointer.Domain
import ConcurrencySandbox.Interleaving.System
import ConcurrencySandbox.LockFreeHashMap.Keys

/-!
# LockFreeHashMap

The split-ordered list of `LockFreeDataStructure/HashMap` with the memory under it: `find`, `get`,
`add` and `remove` of `LockFreeList`, and `insertSentinel`, from any bucket whose sentinel is not
behind the key. Nodes are made at any free address, unlinked nodes are retired to the hazard pointer
domain (three slots for each thread), and a node its deleter has run on gives its address back.

`claimPointer` and `claimMarkablePointer` are the same three steps at three places (`Site`), for
`find` and `get` alike. A step at a null pointer, or with a call that is not due, does not exist.
-/

namespace ConcurrencySandbox

open Interleaving HazardPointer

namespace LockFreeHashMap

structure Node (A K V : Type*) where
  mHashValue : HashValueType
  mValue : Option (K × V)
  mNext : Option A × Bool

structure Shared (τ A K V : Type*) where
  domain : Domain τ A
  mHead : A
  mBuckets : HashValueType → Option A
  heap : A → Node A K V
  allocated : A → Bool

/-- The calls on the list, each with the index of the bucket it starts from. -/
inductive Call (K V : Type*)
  | add (slot : HashValueType) (key : K) (value : V)
  | remove (slot : HashValueType) (key : K)
  | get (slot : HashValueType) (key : K)
  | insertSentinel (parent index : HashValueType)

inductive Result (V : Type*)
  | bool (b : Bool)
  | value (v : Option V)
  | void

/-- A call, with the node it has made and not linked. -/
structure Caller (A K V : Type*) where
  call : Call K V
  newNode : Option A

/-- The slots that `predHpHolder`, `curHpHolder` and `succHpHolder` stand for. -/
structure Holders where
  pred : Fin 3
  cur : Fin 3
  succ : Fin 3
  apart : pred ≠ cur ∧ pred ≠ succ ∧ cur ≠ succ

namespace Holders

def initial : Holders := ⟨0, 1, 2, by decide⟩

/-- `swap(curHpHolder, succHpHolder)`. -/
def swapCurSucc (h : Holders) : Holders :=
  ⟨h.pred, h.succ, h.cur, h.apart.2.1, h.apart.1, h.apart.2.2.symm⟩

/-- `swap(predHpHolder, curHpHolder)`. -/
def swapPredCur (h : Holders) : Holders :=
  ⟨h.cur, h.pred, h.succ, h.apart.1.symm, h.apart.2.2, h.apart.2.1⟩

def advance (h : Holders) : Holders := h.swapPredCur.swapCurSucc

end Holders

/-- Where a pointer is claimed: `head`, `pred->mNext` or `cur->mNext`. -/
inductive Site (A : Type*)
  | head
  | cur (pred : A)
  | succ (pred cur : A)

def Site.holder {A : Type*} (h : Holders) : Site A → Fin 3
  | .head => h.pred
  | .cur _ => h.cur
  | .succ _ _ => h.succ

/-- What follows when the holders of a `find` or `get` have been released. -/
inductive After (A V : Type*)
  | again
  | publish (sentinelNode : A)
  | ret (r : Result V)

/-- Where a thread is; `domain .ready` is between calls. -/
inductive PC (τ A K V : Type*)
  | domain (f : Frame τ A)
  | new (call : Call K V)
  -- claimPointer and claimMarkablePointer
  | claimLoad (c : Caller A K V) (h : Holders) (site : Site A)
  | claimStore (c : Caller A K V) (h : Holders) (site : Site A) (p : Option A)
  | claimCheck (c : Caller A K V) (h : Holders) (site : Site A) (p : Option A)
  -- find
  | findUnlink (c : Caller A K V) (h : Holders) (pred cur : A) (succ : Option A)
  | findDrop (c : Caller A K V) (h : Holders) (pred cur : A) (succ : Option A)
  | findRetire (c : Caller A K V) (h : Holders) (pred cur : A) (succ : Option A)
  | findRetiring (f : Frame τ A) (c : Caller A K V) (h : Holders) (pred : A) (succ : Option A)
  | findTest (c : Caller A K V) (h : Holders) (pred cur : A) (succ : Option A)
  | findReturn (c : Caller A K V) (h : Holders) (pred cur : A)
  -- get
  | getTest (c : Caller A K V) (h : Holders) (pred cur : A) (mark : Bool)
  -- add, remove and insertSentinel after find
  | found (c : Caller A K V) (h : Holders) (pred cur : A)
  | insertStore (c : Caller A K V) (h : Holders) (pred cur : A)
  | insertCas (c : Caller A K V) (h : Holders) (pred cur : A)
  | removeLoad (c : Caller A K V) (h : Holders) (pred cur : A)
  | removeMark (c : Caller A K V) (h : Holders) (pred cur : A) (succ : Option A)
  | removeUnlink (c : Caller A K V) (h : Holders) (pred cur : A) (succ : Option A)
  | removeDrop (c : Caller A K V) (h : Holders) (pred cur : A)
  | removeRetire (c : Caller A K V) (h : Holders) (pred cur : A)
  | removeRetiring (f : Frame τ A) (c : Caller A K V) (h : Holders) (pred : A)
  | release (c : Caller A K V) (slots : List (Fin 3)) (k : After A V)
  | publishLoad (c : Caller A K V) (sentinelNode : A)
  | publishStore (c : Caller A K V) (sentinelNode : A)
  | delete (c : Caller A K V) (r : Result V)
  | returned (call : Call K V) (r : Result V)

inductive Act (A K V : Type*)
  | call (c : Call K V)
  | exit (listFirst : Bool)
  | run (ok : Bool)
  | alloc (a : A)

variable {τ A K V : Type*}

namespace Call

def slot : Call K V → HashValueType
  | .add slot _ _ | .remove slot _ | .get slot _ => slot
  | .insertSentinel parent _ => parent

def key : Call K V → Option K
  | .add _ key _ | .remove _ key | .get _ key => some key
  | .insertSentinel _ _ => none

def hashValue (mHash : K → HashValueType) : Call K V → HashValueType
  | .add _ key _ | .remove _ key | .get _ key => makeOrdinaryKey (mHash key)
  | .insertSentinel _ index => makeSentinelKey index

/-- The `mValue` of the node the call makes. -/
def value : Call K V → Option (K × V)
  | .add _ key value => some (key, value)
  | _ => none

def isGet : Call K V → Bool
  | .get _ _ => true
  | _ => false

end Call

def Node.key (n : Node A K V) : Option K := n.mValue.map Prod.fst

/-- The condition for `find` to return at a node. -/
def Node.Stops [DecidableEq K] (n : Node A K V) (hashValue : HashValueType)
    (key : Option K) : Prop :=
  hashValue < n.mHashValue ∨ (hashValue = n.mHashValue ∧ n.mValue.isNone) ∨
    (key.isSome ∧ hashValue = n.mHashValue ∧ n.key = key)

instance [DecidableEq K] (n : Node A K V) (hashValue : HashValueType) (key : Option K) :
    Decidable (n.Stops hashValue key) := inferInstanceAs (Decidable (_ ∨ _ ∨ _))

namespace Shared

variable (s : Shared τ A K V)

def read (slot : HashValueType) : Site A → Option A × Bool
  | .head => (s.mBuckets slot, false)
  | .cur pred => (s.heap pred).mNext
  | .succ _ cur => (s.heap cur).mNext

variable [DecidableEq A]

/-- `make_unique<Node>()` at address `a`, and the stores to its first two fields. -/
def make (a : A) (hashValue : HashValueType) (value : Option (K × V)) : Shared τ A K V :=
  { s with heap := Function.update s.heap a ⟨hashValue, value, none, false⟩
           allocated := Function.update s.allocated a true }

/-- `delete`. What the node held can still be read here; the source promises nothing to one who
does. No update does (`updates_live`), and `VisitsLive` says where no `get` does. -/
def free (a : A) : Shared τ A K V :=
  { s with allocated := Function.update s.allocated a false }

def setNext (a : A) (n : Option A × Bool) : Shared τ A K V :=
  { s with heap := Function.update s.heap a { s.heap a with mNext := n } }

/-- `mBuckets[index].store`. -/
def setBucket (index : HashValueType) (a : A) : Shared τ A K V :=
  { s with mBuckets := Function.update s.mBuckets index (some a) }

variable [DecidableEq τ]

/-- A store to one of the thread's hazard pointers. -/
def storeHp (t : τ) (i : Fin 3) (v : Option A) : Shared τ A K V :=
  { s with domain := s.domain.store t i v }

/-- A step inside the domain; a deleter is `LockFreeList::deleter`. -/
def domainStep (t : τ) (ok : Bool) (f : Frame τ A) : Option (Shared τ A K V × Frame τ A) :=
  match s.domain.step 3 t ok f with
  | some (d, f', .free a) => some ({ s with domain := d }.free a, f')
  | some (d, f', _) => some ({ s with domain := d }, f')
  | none => none

end Shared

/-- The list of the constructor: its first node is the sentinel of bucket 0. -/
def initial [DecidableEq A] (head last : A) : Shared τ A K V where
  domain := .initial
  mHead := head
  mBuckets := fun i => if i = 0 then some head else none
  heap := fun a => if a = head then ⟨0, none, some last, false⟩ else
    ⟨maxHashValue, none, none, false⟩
  allocated := fun a => a = head || a = last

/-- Where a claim of `p` returns to. -/
def claimed (c : Caller A K V) (h : Holders) (mark : Bool) : Site A → Option A → Option (PC τ A K V)
  | .head, some p => some (.claimLoad c h (.cur p))
  | .cur pred, some p =>
    if c.call.isGet then some (.getTest c h pred p mark)
    else some (.claimLoad c h (.succ pred p))
  | .succ pred cur, p =>
    if c.call.isGet then p.map fun p => .getTest c h.advance cur p mark
    else if mark then some (.findUnlink c h pred cur p)
    else some (.findTest c h pred cur p)
  | _, none => none

section Steps

variable [DecidableEq τ] [DecidableEq A] [DecidableEq K] (mHash : K → HashValueType)

/-- The steps of `claimPointer` and `claimMarkablePointer`. -/
def nextClaim (t : τ) (act : Act A K V) (s : Shared τ A K V) (pc : PC τ A K V) :
    Option (Shared τ A K V × PC τ A K V) :=
  match pc, act with
  | .claimLoad c h site, .run _ => some (s, .claimStore c h site (s.read c.call.slot site).1)
  | .claimStore c h site p, .run _ => some (s.storeHp t (site.holder h) p, .claimCheck c h site p)
  | .claimCheck c h site p, .run _ =>
    if p = (s.read c.call.slot site).1 then
      (claimed c h (s.read c.call.slot site).2 site p).map fun pc => (s, pc)
    else some (s, .claimLoad c h site)
  | _, _ => none

/-- The other steps of `find`. -/
def nextFind (t : τ) (act : Act A K V) (s : Shared τ A K V) (pc : PC τ A K V) :
    Option (Shared τ A K V × PC τ A K V) :=
  match pc, act with
  | .findUnlink c h pred cur succ, .run _ =>
    if (s.heap pred).mNext = (some cur, false) then
      some (s.setNext pred (succ, false), .findDrop c h pred cur succ)
    else some (s, .claimLoad c h .head)
  | .findDrop c h pred cur succ, .run _ =>
    some (s.storeHp t h.cur none, .findRetire c h pred cur succ)
  | .findRetire c h pred cur succ, .run _ =>
    some ({ s with domain := s.domain.retire t cur }, .findRetiring .retireTest c h pred succ)
  | .findRetiring .ready c h pred succ, .run _ =>
    match succ with
    | some cur => some (s, .claimLoad c h.swapCurSucc (.succ pred cur))
    | none => none
  | .findRetiring f c h pred succ, .run ok =>
    match s.domainStep t ok f with
    | some (s', f') => some (s', .findRetiring f' c h pred succ)
    | none => none
  | .findTest c h pred cur succ, .run _ =>
    if (s.heap cur).Stops (c.call.hashValue mHash) c.call.key then
      some (s, .findReturn c h pred cur)
    else
      match succ with
      | some succ => some (s, .claimLoad c h.advance (.succ cur succ))
      | none => none
  | .findReturn c h pred cur, .run _ => some (s.storeHp t h.succ none, .found c h pred cur)
  | _, _ => none

/-- The other steps of `get`. -/
def nextGet (act : Act A K V) (s : Shared τ A K V) (pc : PC τ A K V) :
    Option (Shared τ A K V × PC τ A K V) :=
  match pc, act with
  | .getTest c h pred cur mark, .run _ =>
    let node := s.heap cur
    let hashValue := c.call.hashValue mHash
    if node.mHashValue < hashValue ∨ (node.mHashValue = hashValue ∧ node.key ≠ c.call.key) then
      some (s, .claimLoad c h (.succ pred cur))
    else
      let ans := if node.mHashValue ≠ hashValue ∨ node.key ≠ c.call.key ∨ mark then none
        else node.mValue.map Prod.snd
      some (s, .release c [h.succ, h.cur, h.pred] (.ret (.value ans)))
  | _, _ => none

/-- The steps of `add` and `insertSentinel` that link the new node. -/
def nextInsert (act : Act A K V) (s : Shared τ A K V) (pc : PC τ A K V) :
    Option (Shared τ A K V × PC τ A K V) :=
  match pc, act with
  | .insertStore c h pred cur, .run _ =>
    match c.newNode with
    | some newNode => some (s.setNext newNode (some cur, false), .insertCas c h pred cur)
    | none => none
  | .insertCas c h pred cur, .run _ =>
    match c.newNode with
    | some newNode =>
      if (s.heap pred).mNext = (some cur, false) then
        some (s.setNext pred (some newNode, false),
          .release ⟨c.call, none⟩ [h.pred, h.cur] (match c.call with
            | .insertSentinel _ _ => .publish newNode
            | _ => .ret (.bool true)))
      else some (s, .release c [h.pred, h.cur] .again)
    | none => none
  | _, _ => none

/-- The steps of `remove` at the node it has found. -/
def nextRemove (t : τ) (act : Act A K V) (s : Shared τ A K V) (pc : PC τ A K V) :
    Option (Shared τ A K V × PC τ A K V) :=
  match pc, act with
  | .removeLoad c h pred cur, .run _ => some (s, .removeMark c h pred cur (s.heap cur).mNext.1)
  | .removeMark c h pred cur succ, .run _ =>
    if (s.heap cur).mNext = (succ, false) then
      some (s.setNext cur (succ, true), .removeUnlink c h pred cur succ)
    else some (s, .release c [h.pred, h.cur] .again)
  | .removeUnlink c h pred cur succ, .run _ =>
    if (s.heap pred).mNext = (some cur, false) then
      some (s.setNext pred (succ, false), .removeDrop c h pred cur)
    else some (s, .release c [h.pred, h.cur] (.ret (.bool true)))
  | .removeDrop c h pred cur, .run _ => some (s.storeHp t h.cur none, .removeRetire c h pred cur)
  | .removeRetire c h pred cur, .run _ =>
    some ({ s with domain := s.domain.retire t cur }, .removeRetiring .retireTest c h pred)
  | .removeRetiring .ready c h _, .run _ =>
    some (s, .release c [h.pred, h.cur] (.ret (.bool true)))
  | .removeRetiring f c h pred, .run ok =>
    match s.domainStep t ok f with
    | some (s', f') => some (s', .removeRetiring f' c h pred)
    | none => none
  | _, _ => none

/-- What `add`, `remove` and `insertSentinel` do with what `find` returned, and how calls end. -/
def nextReturn (t : τ) (act : Act A K V) (s : Shared τ A K V) (pc : PC τ A K V) :
    Option (Shared τ A K V × PC τ A K V) :=
  match pc, act with
  | .found c h pred cur, .run _ =>
    let node := s.heap cur
    match c.call with
    | .add _ key _ =>
      if node.mHashValue = c.call.hashValue mHash ∧ node.key = some key then
        some (s, .release c [h.pred, h.cur] (.ret (.bool false)))
      else some (s, .insertStore c h pred cur)
    | .remove _ key =>
      if node.mHashValue ≠ c.call.hashValue mHash ∨ node.key ≠ some key then
        some (s, .release c [h.pred, h.cur] (.ret (.bool false)))
      else some (s, .removeLoad c h pred cur)
    | .insertSentinel _ _ =>
      if node.mHashValue = c.call.hashValue mHash then
        some (s, .release c [h.pred, h.cur] (.publish cur))
      else some (s, .insertStore c h pred cur)
    | .get _ _ => none
  | .release c (i :: slots) k, .run _ => some (s.storeHp t i none, .release c slots k)
  | .release c [] .again, .run _ => some (s, .claimLoad c .initial .head)
  | .release c [] (.publish sentinelNode), .run _ => some (s, .publishLoad c sentinelNode)
  | .release c [] (.ret r), .run _ => some (s, .delete c r)
  | .publishLoad c sentinelNode, .run _ =>
    match c.call with
    | .insertSentinel _ index =>
      if s.mBuckets index = none then some (s, .publishStore c sentinelNode)
      else some (s, .delete c .void)
    | _ => none
  | .publishStore c sentinelNode, .run _ =>
    match c.call with
    | .insertSentinel _ index => some (s.setBucket index sentinelNode, .delete c .void)
    | _ => none
  | .delete c r, .run _ =>
    match c.newNode with
    | some newNode => some (s.free newNode, .returned c.call r)
    | none => some (s, .returned c.call r)
  | .returned _ _, .run _ => some (s, .domain .ready)
  | _, _ => none

/-- One atomic step of thread `t`. -/
def next (t : τ) (act : Act A K V) (s : Shared τ A K V) (pc : PC τ A K V) :
    Option (Shared τ A K V × PC τ A K V) :=
  match pc, act with
  | .domain .ready, .call c =>
    match s.mBuckets c.slot with
    | some head =>
      if (s.heap head).mHashValue ≤ c.hashValue mHash then
        match c with
        | .add .. | .insertSentinel .. => some (s, .new c)
        | .remove .. | .get .. => some (s, .claimLoad ⟨c, none⟩ .initial .head)
      else none
    | none => none
  | .domain .ready, .exit listFirst =>
    some (s, .domain (if listFirst then .exitList true else .exitOwner 3 true))
  | .domain f, .run ok =>
    match s.domainStep t ok f with
    | some (s', f') => some (s', .domain f')
    | none => none
  | .domain _, _ => none
  | .new c, .alloc a =>
    if s.allocated a then none
    else some (s.make a (c.hashValue mHash) c.value, .claimLoad ⟨c, some a⟩ .initial .head)
  | pc, act =>
    match nextClaim t act s pc with
    | some r => some r
    | none =>
      match nextFind mHash t act s pc with
      | some r => some r
      | none =>
        match nextGet mHash act s pc with
        | some r => some r
        | none =>
          match nextInsert act s pc with
          | some r => some r
          | none =>
            match nextRemove t act s pc with
            | some r => some r
            | none => nextReturn mHash t act s pc

attribute [elab_as_elim] nextClaim.fun_cases_unfolding nextFind.fun_cases_unfolding
  nextGet.fun_cases_unfolding nextInsert.fun_cases_unfolding nextRemove.fun_cases_unfolding
  nextReturn.fun_cases_unfolding next.fun_cases_unfolding

def program : Program τ (Shared τ A K V) (PC τ A K V) (Act A K V) := ⟨next mHash⟩

/-- Any threads that start, call and exit, on a map that starts empty. -/
def system : System (Conf τ (Shared τ A K V) (PC τ A K V)) (τ × Act A K V) :=
  (program mHash).system (fun s => ∃ head last, head ≠ last ∧ s = initial head last)
    (.domain .unstarted)

end Steps

end LockFreeHashMap

end ConcurrencySandbox

import ConcurrencySandbox.Interleaving.Mutex

/-!
# Promise and Future

`my::Promise` and `my::Future` of `Misc/Future`, with one `Promise` that any threads call and one
`Future`, that of `getFuture`, in the hands of one thread (`consumer`). The shared state is made by
`getFuture`. A set call writes through the pointer it finds, and one that finds none goes wrong for
good (`PC.undefined`); so does a read of bytes that hold no value.

The bytes are written by placement new, whatever they hold; `std::get<0>` throws when the variant
holds an exception. `get` moves the value out, and `moved` tells what that leaves.
-/

namespace ConcurrencySandbox

open Interleaving

namespace Future

/-- What a set call is given. -/
inductive Content (R E : Type*)
  | value (r : R)
  | exception (p : E)

/-- `std::variant<Data, std::exception_ptr>`, with the object that the bytes hold, if any. -/
inductive Data (R E : Type*)
  | bytes (r : Option R)
  | exception (p : E)

structure SharedState (τ R E : Type*) where
  mLock : Option τ
  /-- The consumer sleeps on `mCond`. -/
  mCond : Bool
  mIsReady : Bool
  mData : Data R E

structure Shared (τ R E : Type*) where
  mSharedState : Option (SharedState τ R E)

inductive Result (R E : Type*)
  | void
  | future
  /-- What `get` returns or throws. -/
  | content (v : Content R E)
  | badVariantAccess
  -- the two kinds of `std::runtime_error`
  | calledTwice
  | invalidFuture

inductive PC (R E : Type*)
  | ready
  -- setValue, setException
  | setLock (v : Content R E)
  | setData (v : Content R E)
  | setReady
  | setNotify
  -- get
  | getLock
  | getTest
  | asleep
  | getData
  -- the end of a call
  | unlock (ans : Result R E)
  | returned (ans : Result R E)
  | undefined

inductive Act (R E : Type*)
  | run
  /-- A spurious wakeup. -/
  | wake
  | getFuture
  | set (v : Content R E)
  | get

variable {τ R E : Type*}

def Content.data : Content R E → Data R E
  | .value r => .bytes (some r)
  | .exception p => .exception p

/-- What `get` leaves of it. -/
def Content.moved (moved : R → R) : Content R E → Content R E
  | .value r => .value (moved r)
  | .exception p => .exception p

section Model

variable [DecidableEq τ] (moved : R → R)

namespace SharedState

/-- `std::make_shared<SharedState<R>>()`. -/
def initial : SharedState τ R E := ⟨none, false, false, .bytes none⟩

variable (st : SharedState τ R E)

def acquire (t : τ) : Option (SharedState τ R E) :=
  if st.mLock = none then some { st with mLock := some t } else none

/-- The two ways of writing `mData`; without a result, `std::get<0>` throws. -/
def write : Content R E → Option (SharedState τ R E)
  | .value r =>
    match st.mData with
    | .bytes _ => some { st with mData := .bytes (some r) }
    | .exception _ => none
  | .exception p => some { st with mData := .exception p }

end SharedState

/-- The steps inside a call that has found its shared state. -/
def nextInside (t : τ) (st : SharedState τ R E) :
    PC R E → Option (SharedState τ R E × PC R E)
  | .setLock v => (st.acquire t).map fun st => (st, .setData v)
  | .setData v =>
    match st.write v with
    | some st => some (st, .setReady)
    | none => some (st, .unlock .badVariantAccess)
  | .setReady => some ({ st with mIsReady := true }, .setNotify)
  | .setNotify => some ({ st with mCond := false }, .unlock .void)
  | .getLock => (st.acquire t).map fun st => (st, .getTest)
  | .getTest =>
    if st.mIsReady then some (st, .getData)
    else some ({ st with mLock := none, mCond := true }, .asleep)
  | .asleep => if st.mCond then none else (st.acquire t).map fun st => (st, .getTest)
  | .getData =>
    match st.mData with
    | .bytes (some r) =>
      some ({ st with mData := .bytes (some (moved r)) }, .unlock (.content (.value r)))
    | .bytes none => some (st, .undefined)
    | .exception p => some (st, .unlock (.content (.exception p)))
  | .unlock ans => some ({ st with mLock := none }, .returned ans)
  | .ready | .returned _ | .undefined => none

/-- A call begins. -/
def nextCall (consumer t : τ) (s : Shared τ R E) : Act R E → Option (Shared τ R E × PC R E)
  | .getFuture =>
    match s.mSharedState with
    | some _ => some (s, .returned .calledTwice)
    | none => some (⟨some .initial⟩, .returned .future)
  | .set v => some (s, .setLock v)
  | .get =>
    if t = consumer then
      match s.mSharedState with
      | some _ => some (s, .getLock)
      | none => some (s, .returned .invalidFuture)
    else none
  | .run | .wake => none

/-- One atomic step of thread `t`. -/
def next (consumer t : τ) (act : Act R E) (s : Shared τ R E) (p : PC R E) :
    Option (Shared τ R E × PC R E) :=
  match p, act with
  | .ready, act | .returned _, act => nextCall consumer t s act
  | .asleep, .wake => s.mSharedState.map fun st => (⟨some { st with mCond := false }⟩, .asleep)
  | p, .run =>
    match s.mSharedState with
    | some st => (nextInside moved t st p).map fun r => (⟨some r.1⟩, r.2)
    | none =>
      match p with
      | .setLock _ => some (s, .undefined)
      | _ => none
  | _, _ => none

/-- Any threads calling the functions of a `Promise` that nobody has called before. -/
def system (consumer : τ) : System (Conf τ (Shared τ R E) (PC R E)) (τ × Act R E) :=
  Program.system ⟨next moved consumer⟩ (fun s => s = ⟨none⟩) .ready

end Model

end Future

end ConcurrencySandbox

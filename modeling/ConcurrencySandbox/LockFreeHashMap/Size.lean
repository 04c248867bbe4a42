import Mathlib.Data.Set.Card
import ConcurrencySandbox.Interleaving.Count
import ConcurrencySandbox.LockFreeHashMap.Map
import ConcurrencySandbox.LockFreeHashMap.Updates

/-!
# The element counter

`mSize` is changed after the list is. In between, an `insert` has an element in the list that is not
counted yet, and a `remove` has taken one that still is. So `mSize` is, modulo 2 ^ 32, the number of
keys in the list with the second kind added and the first kind taken off, which is a number only
when the `insert`s that are late are not more than the rest (`size_iff`).
-/

namespace ConcurrencySandbox

open Interleaving Structures HazardPointer

namespace LockFreeHashMap

namespace Map

open LockFreeHashMap.Sequential (Op sThreshold)

variable {τ A K V : Type*}

/-- What a thread has still to do to the counter. -/
inductive Stage
  | idle
  /-- It is in an `insert` that has linked nothing yet. -/
  | inserting
  /-- It has linked an element, and is to add 1. -/
  | adding
  /-- It has marked an element, and is to subtract 1. -/
  | subtracting
deriving DecidableEq

def opStage : Op K V → Stage
  | .insert _ _ => .inserting
  | _ => .idle

/-- The stage of a call on the list that has this result. -/
def callStage : Op K V → Option (Result V) → Stage
  | op, none => opStage op
  | .insert _ _, some (.bool true) => .adding
  | .remove _, some (.bool true) => .subtracting
  | _, _ => .idle

def stage : Place τ A K V → Stage
  | .sizeLoad op | .sentinelTest op _ _ | .parentTest op _ _ _ | .sentinelBegin op _ _ _
  | .sentinel op _ _ _ _ | .callBegin op _ => opStage op
  | .call op pc => callStage op pc.result
  | .sizeAdd => .adding
  | .sizeSub => .subtracting
  | _ => .idle

/-- The keys in the list. -/
def State.keys (s : State τ A K V) : Set K := {k | s.list.Present k}

/-- Where the thread is in the list. -/
def Place.list : Place τ A K V → PC τ A K V
  | .domain f => .domain f
  | .sentinel _ _ _ _ pc | .call _ pc => pc
  | _ => .domain .ready

/-- The list of a state of the map. -/
def inner (c : Conf τ (State τ A K V) (Place τ A K V)) : Conf τ (Shared τ A K V) (PC τ A K V) :=
  ⟨c.shared.list, fun t => (c.pc t).list⟩

/-- What a step does to the thread's stage, the keys, the counter, and the calls of `insert`. -/
inductive Move (s s' : State τ A K V) : Stage → Stage → Prop
  | stay {σ : Stage} (hk : s'.keys = s.keys) (hm : s'.mSize = s.mSize)
      (hs : s'.started = s.started) :
    Move s s' σ σ
  | start (hk : s'.keys = s.keys) (hm : s'.mSize = s.mSize) (hs : s'.started = s.started + 1) :
    Move s s' .idle .inserting
  | miss (hk : s'.keys = s.keys) (hm : s'.mSize = s.mSize) (hs : s'.started = s.started) :
    Move s s' .inserting .idle
  | link (k : K) (hn : k ∉ s.keys) (hk : s'.keys = insert k s.keys) (hm : s'.mSize = s.mSize)
    (hs : s'.started = s.started) : Move s s' .inserting .adding
  | add (hk : s'.keys = s.keys) (hm : s'.mSize = s.mSize + 1) (hs : s'.started = s.started) :
    Move s s' .adding .idle
  | mark (k : K) (hn : k ∈ s.keys) (hk : s'.keys = s.keys \ {k}) (hm : s'.mSize = s.mSize)
    (hs : s'.started = s.started) : Move s s' .idle .subtracting
  | sub (hk : s'.keys = s.keys) (hm : s'.mSize = s.mSize - 1) (hs : s'.started = s.started) :
    Move s s' .subtracting .idle

variable [DecidableEq τ] [DecidableEq A] [DecidableEq K] {mHash : K → HashValueType}
  {s s' : State τ A K V} {t : τ} {act : Act A K V} {lact : LockFreeHashMap.Act A K V}
  {p p' : Place τ A K V} {pc pc' : PC τ A K V} {op : Sequential.Op K V}

section List

variable {l l' : Shared τ A K V} {call : Call K V}

omit [DecidableEq τ] [DecidableEq K] in
/-- Outside the successful compare-and-swap of its own update a call changes nothing. -/
theorem change_cases (hp : pc.Suits) (hc : pc.call = some call) :
    change l pc = .none ∨ change l pc = call.change ∧ pc.result = none := by
  cases pc with
  | insertCas c h pred cur =>
    cases hc
    simp only [change]
    split_ifs
    · rcases hp with ⟨slot, key, value, hcc⟩ | ⟨parent, index, hcc⟩
      · exact .inr ⟨by rw [hcc]; rfl, rfl⟩
      · exact .inl (by rw [hcc]; rfl)
    · exact .inl rfl
  | removeMark c h pred cur succ =>
    cases hc
    obtain ⟨slot, key, hcc⟩ := hp
    simp only [change]
    split_ifs
    · exact .inr ⟨by rw [hcc]; rfl, rfl⟩
    · exact .inl rfl
  | _ => exact .inl rfl

/-- A call is left by its return only. -/
theorem next_stays (hc : pc.call = some call)
    (hn : LockFreeHashMap.next mHash t lact l pc = some (l', pc')) :
    pc'.call = some call ∨ ∃ r ok, pc = .returned call r ∧ lact = .run ok := by
  rcases next_cases hc hn with ⟨a, rfl, -, -, -, rfl⟩ | hn | hn | hn | hn | hn | hn
  · exact .inl rfl
  · exact .inl ((nextClaim_call hn).1.trans hc)
  · exact .inl ((nextFind_call hn).1.trans hc)
  · exact .inl ((nextGet_call hn).1.trans hc)
  · exact .inl ((nextInsert_call hn).1.trans hc)
  · exact .inl ((nextRemove_call hn).1.trans hc)
  · revert hn
    fun_cases nextReturn mHash t lact l pc <;> intro hn <;> cases hn
    case case19.refl =>
      cases hc
      exact .inr ⟨_, _, rfl, rfl⟩
    all_goals exact .inl hc

/-- A call on the list begins. -/
theorem next_call_begins
    (hn : LockFreeHashMap.next mHash t (.call call) l (.domain .ready) = some (l', pc')) :
    l' = l ∧ pc'.call = some call ∧ pc'.result = none := by
  simp only [LockFreeHashMap.next] at hn
  split at hn
  · split_ifs at hn
    cases call <;> cases hn <;> exact ⟨rfl, rfl, rfl⟩
  · cases hn

theorem next_returned (call : Call K V) (r : Result V) :
    LockFreeHashMap.next mHash t (.run true) l (.returned call r) = some (l, .domain .ready) :=
  rfl

/-- What a change does to the keys. -/
def KeysChange : Change K V → Set K → Set K → Prop
  | .none, ks, ks' => ks' = ks
  | .add key _, ks, ks' => key ∉ ks ∧ ks' = insert key ks
  | .remove key, ks, ks' => key ∈ ks ∧ ks' = ks \ {key}

omit [DecidableEq τ] [DecidableEq A] [DecidableEq K] in
theorem keysChange {δ : Change K V} (hf : δ.Fits l.Holds)
    (hh : ∀ k v, l'.Holds k v ↔ δ.apply l.Holds k v) :
    KeysChange δ {k | l.Present k} {k | l'.Present k} := by
  cases δ with
  | none => exact Set.ext fun k => exists_congr fun v => hh k v
  | add key value =>
    refine ⟨fun ⟨v, hv⟩ => hf v hv, Set.ext fun k => ⟨fun ⟨v, hv⟩ => ?_, ?_⟩⟩
    · exact ((hh k v).1 hv).symm.imp (·.1) fun h => ⟨v, h⟩
    · rintro (rfl | ⟨v, hv⟩)
      · exact ⟨value, (hh k value).2 (.inr ⟨rfl, rfl⟩)⟩
      · exact ⟨v, (hh k v).2 (.inl hv)⟩
  | remove key =>
    refine ⟨hf, Set.ext fun k => ⟨fun ⟨v, hv⟩ => ?_,
      fun ⟨⟨v, hv⟩, hne⟩ => ⟨v, (hh k v).2 ⟨hv, hne⟩⟩⟩⟩
    exact ⟨⟨v, ((hh k v).1 hv).1⟩, ((hh k v).1 hv).2⟩

end List

section Moves

omit [DecidableEq τ] [DecidableEq A] [DecidableEq K] in
theorem callStage_of_ne {r : Option (Result V)} (h : r ≠ some (.bool true)) (op : Op K V) :
    callStage op r = opStage op ∨ callStage op r = .idle := by
  rcases r with - | (b | - | -)
  · exact .inl rfl
  · cases b with
    | true => exact absurd rfl h
    | false => cases op <;> exact .inr rfl
  · cases op <;> exact .inr rfl
  · cases op <;> exact .inr rfl

/-- A step of the thread's own call on the list. -/
theorem call_move {slot : HashValueType} {l' : Shared τ A K V} (hp : pc.Suits)
    (hc : pc.call = some (listCall slot op))
    (hn : LockFreeHashMap.next mHash t lact s.list pc = some (l', pc'))
    (hc' : pc'.call = some (listCall slot op))
    (hkeys : KeysChange (change s.list pc) s.keys ({ s with list := l' } : State τ A K V).keys) :
    Move s { s with list := l' } (callStage op pc.result) (callStage op pc'.result) := by
  have hdecided := fun h : (listCall slot op).change ≠ .none => next_decided h hp hc hn hc'
  have same : change s.list pc = .none → ({ s with list := l' } : State τ A K V).keys = s.keys := by
    intro h
    rwa [h] at hkeys
  cases hr : pc.result with
  | some r =>
    have hr' : pc'.result = some r := by
      rcases next_call hc hn with h | ⟨-, h⟩
      · cases h.symm.trans hc'
      · exact h r hr
    have hnone : change s.list pc = .none := by
      rcases change_cases hp hc with h | ⟨-, h⟩
      · exact h
      · cases hr.symm.trans h
    rw [hr']
    exact .stay (same hnone) rfl rfl
  | none =>
    have hidle : ∀ {key : K} {r}, callStage (.find key : Op K V) r = .idle := by
      rintro key (- | ((- | -) | - | -)) <;> rfl
    rcases change_cases hp hc with hnone | ⟨hchange, -⟩
    · -- the call may have failed
      have hne : (listCall slot op).change ≠ .none → pc'.result ≠ some (.bool true) :=
          fun h ht => by
        rcases (hdecided h).1 ht with h' | h'
        · cases hr.symm.trans h'
        · exact h (h'.symm.trans hnone)
      cases op with
      | insert key value =>
        rcases callStage_of_ne (hne nofun) (.insert key value) with h | h <;> rw [h]
        · exact .stay (same hnone) rfl rfl
        · exact .miss (same hnone) rfl rfl
      | remove key =>
        rcases callStage_of_ne (hne nofun) (.remove key) with h | h <;> rw [h] <;>
          exact .stay (same hnone) rfl rfl
      | find key =>
        rw [hidle, hidle]
        exact .stay (same hnone) rfl rfl
    · rw [hchange] at hkeys
      cases op with
      | insert key value =>
        rw [(hdecided nofun).2 (.inr hchange)]
        exact .link key hkeys.1 hkeys.2 rfl rfl
      | remove key =>
        rw [(hdecided nofun).2 (.inr hchange)]
        exact .mark key hkeys.1 hkeys.2 rfl rfl
      | find key =>
        rw [hidle, hidle]
        exact .stay hkeys rfl rfl

/-- What a thread is in, on the list. -/
def Place.Wf : Place τ A K V → Prop
  | .call op pc => ∃ slot, pc.call = some (listCall slot op)
  | .sentinel _ _ _ _ pc => ∃ parent index, pc.call = some (.insertSentinel parent index)
  | _ => True

variable {c : Conf τ (State τ A K V) (Place τ A K V)} {g : Ghost τ A} {l' : Shared τ A K V}

omit [DecidableEq A] [DecidableEq K] in
theorem inner_update (c : Conf τ (State τ A K V) (Place τ A K V)) (s' : State τ A K V) (t : τ)
    (p' : Place τ A K V) :
    inner ⟨s', Function.update c.pc t p'⟩ = ⟨s'.list, Function.update (inner c).pc t p'.list⟩ := by
  refine congrArg (Conf.mk _) (funext fun u => ?_)
  by_cases hu : u = t
  · subst hu
    simp
  · simp [hu, inner]

omit [DecidableEq A] [DecidableEq K] in
theorem inner_same (hl : s'.list = c.shared.list) (hp : p'.list = (c.pc t).list) :
    inner ⟨s', Function.update c.pc t p'⟩ = inner c := by
  rw [inner_update, hl, hp]
  exact congrArg (Conf.mk _) (Function.update_eq_self t (inner c).pc)

theorem inner_step (hn : LockFreeHashMap.next mHash t lact c.shared.list (c.pc t).list =
    some (s'.list, p'.list)) : (LockFreeHashMap.system mHash).step (inner c) (t, lact) =
      some (inner ⟨s', Function.update c.pc t p'⟩) :=
  Program.step_eq_some.2 ⟨_, _, hn, inner_update c s' t p'⟩

theorem listStep_eq (hn : listStep mHash t lact s pc = some (s', pc')) :
    ∃ l', LockFreeHashMap.next mHash t lact s.list pc = some (l', pc') ∧
    s' = { s with list := l' } := by
  obtain ⟨⟨l', q⟩, h, he⟩ := Option.map_eq_some_iff.1 hn
  cases he
  exact ⟨l', h, rfl⟩

theorem step_keys (hS : Sound mHash g (inner c))
    (hn : LockFreeHashMap.next mHash t lact c.shared.list (c.pc t).list = some (l', pc')) :
    KeysChange (change c.shared.list (c.pc t).list) c.shared.keys {k | l'.Present k} := by
  obtain ⟨hG, hR, hp⟩ := hS
  obtain ⟨g', x, e, hE, -⟩ := moves_step hG hR rfl (hp t) hn
  exact keysChange hE.fits hE.holds

/-- What a step of thread `t` does, and that it is a step of the list or none. -/
def Goes (mHash : K → HashValueType) (c : Conf τ (State τ A K V) (Place τ A K V)) (t : τ)
    (s' : State τ A K V) (p' : Place τ A K V) : Prop :=
  p'.Wf ∧ Move c.shared s' (stage (c.pc t)) (stage p') ∧
    (inner ⟨s', Function.update c.pc t p'⟩ = inner c ∨ ∃ lact,
      (LockFreeHashMap.system mHash).step (inner c) (t, lact) =
        some (inner ⟨s', Function.update c.pc t p'⟩))

theorem Goes.quiet (hq : c.pc t = p) (hw : p'.Wf) (hl : s'.list = c.shared.list)
    (hp : p'.list = p.list) (hm : Move c.shared s' (stage p) (stage p')) :
    Goes mHash c t s' p' := by
  subst hq
  exact ⟨hw, hm, .inl (inner_same hl hp)⟩

theorem Goes.step (hq : c.pc t = p)
    (hn : LockFreeHashMap.next mHash t lact c.shared.list p.list = some (s'.list, p'.list))
    (hw : p'.Wf) (hm : Move c.shared s' (stage p) (stage p')) : Goes mHash c t s' p' := by
  subst hq
  exact ⟨hw, hm, .inr ⟨lact, inner_step hn⟩⟩

omit [DecidableEq τ] [DecidableEq A] [DecidableEq K] in
theorem stage_afterCall (op : Op K V) (r : Result V) :
    stage (afterCall op r : Place τ A K V) = callStage op (some r) := by
  cases op <;> rcases r with (- | -) | - | - <;> rfl

/-- A step on the list that is not the return of its call. -/
theorem call_stays {call : Call K V} {l : Shared τ A K V} (hc : pc.call = some call)
    (hret : ∀ call r ok, act = .run ok → pc = .returned call r → False)
    (hact : act.list = some lact) (hn : LockFreeHashMap.next mHash t lact l pc = some (l', pc')) :
    pc'.call = some call := by
  rcases next_stays hc hn with h | ⟨r, ok, rfl, rfl⟩
  · exact h
  · cases act <;> cases hact
    exact (hret call r ok rfl rfl).elim

theorem next_goes (hS : Sound mHash g (inner c)) (hp : (c.pc t).list.Suits) (hw : (c.pc t).Wf)
    (hn : next mHash t act c.shared (c.pc t) = some (s', p')) : Goes mHash c t s' p' := by
  have hkeys : ∀ {lact l' pc'}, LockFreeHashMap.next mHash t lact c.shared.list (c.pc t).list =
      some (l', pc') → KeysChange (change c.shared.list (c.pc t).list) c.shared.keys
        {k | l'.Present k} := step_keys hS
  revert hn
  generalize hq : c.pc t = p at *
  fun_cases next mHash t act c.shared p <;> intro hn
  case case1 =>
    cases hn
    exact .quiet hq trivial rfl rfl (.start rfl rfl rfl)
  case case2 op hop =>
    cases hn
    cases op with
    | insert key value => exact absurd rfl (hop key value)
    | _ => exact .quiet hq trivial rfl rfl (.stay rfl rfl rfl)
  case case8 =>
    obtain ⟨⟨s₁, pc'⟩, h1, he⟩ := Option.map_eq_some_iff.1 hn
    cases he
    obtain ⟨l', hl, rfl⟩ := listStep_eq h1
    obtain ⟨rfl, hcall, -⟩ := next_call_begins hl
    exact .step hq hl ⟨_, _, hcall⟩ (.stay rfl rfl rfl)
  case case9 op index ok =>
    obtain ⟨⟨s₁, pc'⟩, h1, he⟩ := Option.map_eq_some_iff.1 hn
    cases he
    obtain ⟨l', hl, rfl⟩ := listStep_eq h1
    obtain ⟨rfl, hcall, hr⟩ := next_call_begins hl
    refine .step hq hl ⟨_, hcall⟩ ?_
    show Move _ _ (opStage op) (callStage op pc'.result)
    rw [hr]
    exact .stay rfl rfl rfl
  case case10 op n index stack call r ok =>
    cases hn
    cases stack with
    | nil => exact .step hq (next_returned call r) trivial (.stay rfl rfl rfl)
    | cons i stack => exact .step hq (next_returned call r) trivial (.stay rfl rfl rfl)
  case case11 op call r ok =>
    cases hn
    have hlist : (afterCall op r : Place τ A K V).list = .domain .ready ∧
        (afterCall op r : Place τ A K V).Wf := by
      cases op <;> rcases r with (- | -) | - | - <;> exact ⟨rfl, trivial⟩
    refine .step hq (hlist.1 ▸ next_returned call r) hlist.2 ?_
    rw [stage_afterCall]
    exact .stay rfl rfl rfl
  case case12 f s₁ f' _ _ hs =>
    cases hn
    obtain ⟨lact, -, h1⟩ := Option.bind_eq_some_iff.1 hs
    obtain ⟨l', hl, rfl⟩ := listStep_eq h1
    exact .step hq hl trivial (.stay (hkeys hl) rfl rfl)
  case case14 op n index stack pc hret =>
    obtain ⟨⟨s₁, pc'⟩, h1, he⟩ := Option.map_eq_some_iff.1 hn
    cases he
    obtain ⟨lact, hact, h1⟩ := Option.bind_eq_some_iff.1 h1
    obtain ⟨l', hl, rfl⟩ := listStep_eq h1
    obtain ⟨parent, i, hcall⟩ := hw
    have hnone : change c.shared.list pc = .none := (change_cases hp hcall).elim id And.left
    have hk := hkeys hl
    rw [show (Place.sentinel op n index stack pc).list = pc from rfl, hnone] at hk
    exact .step hq hl ⟨parent, i, call_stays hcall hret hact hl⟩ (.stay hk rfl rfl)
  case case15 op pc hret =>
    obtain ⟨⟨s₁, pc'⟩, h1, he⟩ := Option.map_eq_some_iff.1 hn
    cases he
    obtain ⟨lact, hact, h1⟩ := Option.bind_eq_some_iff.1 h1
    obtain ⟨l', hl, rfl⟩ := listStep_eq h1
    obtain ⟨slot, hcall⟩ := hw
    have hcall' := call_stays hcall hret hact hl
    exact .step hq hl ⟨slot, hcall'⟩ (call_move hp hcall hl hcall' (hkeys hl))
  case case16 =>
    cases hn
    exact .quiet hq trivial rfl rfl (.add rfl rfl rfl)
  case case22 =>
    cases hn
    exact .quiet hq trivial rfl rfl (.sub rfl rfl rfl)
  all_goals cases hn <;> exact .quiet hq trivial rfl rfl (.stay rfl rfl rfl)

theorem next_started (hn : next mHash t act s p = some (s', p')) : s'.started = s.started ∨
    ∃ key value, act = .call (.insert key value) ∧ s'.started = s.started + 1 := by
  have list : ∀ {lact pc r}, listStep mHash t lact s pc = some r → r.1.started = s.started := by
    intro lact pc r hr
    obtain ⟨l', -, h⟩ := listStep_eq hr
    rw [h]
  revert hn
  fun_cases next mHash t act s p <;> intro hn
  case case1 =>
    cases hn
    exact .inr ⟨_, _, rfl, rfl⟩
  case case8 | case9 =>
    obtain ⟨r, hr, he⟩ := Option.map_eq_some_iff.1 hn
    cases he
    exact .inl (list hr)
  case case12 hs =>
    cases hn
    obtain ⟨lact, -, hr⟩ := Option.bind_eq_some_iff.1 hs
    exact .inl (list hr)
  case case14 | case15 =>
    obtain ⟨r, hr, he⟩ := Option.map_eq_some_iff.1 hn
    cases he
    obtain ⟨lact, -, hr⟩ := Option.bind_eq_some_iff.1 hr
    exact .inl (list hr)
  all_goals cases hn <;> exact .inl rfl

/-- The load factor is tested after `fetch_add`, on what it returned. -/
theorem next_loadFactor {prevSize : BitVec 32}
    (hn : next mHash t act s p = some (s', .loadFactor prevSize)) :
    p = .sizeAdd ∧ prevSize = s.mSize := by
  revert hn
  fun_cases next mHash t act s p <;> intro hn
  case case10 op n index stack call r ok => cases stack <;> cases hn
  case case11 op call r ok =>
    cases op <;> rcases r with (_ | _) | _ | _ <;> simp [afterCall] at hn
  case case8 | case9 | case14 | case15 =>
    obtain ⟨r, -, he⟩ := Option.map_eq_some_iff.1 hn
    cases he
  case case16 =>
    cases hn
    exact ⟨rfl, rfl⟩
  all_goals cases hn

end Moves

section Counters

variable [Fintype τ] {c c' : Conf τ (State τ A K V) (Place τ A K V)}

/-- How many threads are in a stage. -/
def tally (σ : Stage) (c : Conf τ (State τ A K V) (Place τ A K V)) : ℕ :=
  count (fun p => if stage p = σ then 1 else 0) c.pc

/-- `mSize` is, modulo 2 ^ 32, the number of keys with what `remove` has not subtracted and without
what `insert` has not added; and every key, and every late `remove`, is of a call of `insert`. -/
structure Balanced (c : Conf τ (State τ A K V) (Place τ A K V)) : Prop where
  finite : c.shared.keys.Finite
  size : (c.shared.mSize.toNat : ℤ) % 2 ^ 32 =
    ((c.shared.keys.ncard : ℤ) + tally .subtracting c - tally .adding c) % 2 ^ 32
  keys : c.shared.keys.ncard + tally .subtracting c + tally .inserting c ≤ c.shared.started
  few : c.shared.started < 2 ^ 32

/-- Fewer than 2 ^ 32 calls of `insert`. -/
def Few (c : Conf τ (State τ A K V) (Place τ A K V)) (l : τ × Act A K V) : Prop :=
  match l.2 with
  | .call (.insert _ _) => c.shared.started + 1 < 2 ^ 32
  | _ => True

omit [Fintype τ] [DecidableEq τ] [DecidableEq A] [DecidableEq K] in
instance (c : Conf τ (State τ A K V) (Place τ A K V)) : ∀ l : τ × Act A K V, Decidable (Few c l)
  | (_, .call (.insert _ _)) => inferInstanceAs (Decidable (_ < _))
  | (_, .call (.remove _)) | (_, .call (.find _)) | (_, .exit _) | (_, .run _) | (_, .alloc _) =>
    inferInstanceAs (Decidable True)

omit [DecidableEq A] [DecidableEq K] in
theorem tally_update (σ : Stage) (c : Conf τ (State τ A K V) (Place τ A K V)) (s' : State τ A K V)
    (t : τ) (p' : Place τ A K V) : tally σ ⟨s', Function.update c.pc t p'⟩ +
      (if stage (c.pc t) = σ then 1 else 0) = tally σ c + if stage p' = σ then 1 else 0 :=
  count_update (fun p => if stage p = σ then 1 else 0) c.pc t p'

omit [DecidableEq A] [DecidableEq K] in
theorem balanced_move (hB : Balanced c) (hm : Move c.shared s' (stage (c.pc t)) (stage p'))
    (hfew : s'.started < 2 ^ 32) : Balanced ⟨s', Function.update c.pc t p'⟩ := by
  have hadding := tally_update .adding c s' t p'
  have hsubtracting := tally_update .subtracting c s' t p'
  have hinserting := tally_update .inserting c s' t p'
  obtain ⟨hfin, hsize, hkeys, -⟩ := hB
  generalize hσ : stage (c.pc t) = σ at *
  generalize hσ' : stage p' = σ' at *
  have done : s'.keys.Finite → (s'.mSize.toNat : ℤ) % 2 ^ 32 = ((s'.keys.ncard : ℤ) +
      tally .subtracting ⟨s', Function.update c.pc t p'⟩ -
        tally .adding ⟨s', Function.update c.pc t p'⟩) % 2 ^ 32 →
      s'.keys.ncard + tally .subtracting ⟨s', Function.update c.pc t p'⟩ +
        tally .inserting ⟨s', Function.update c.pc t p'⟩ ≤ s'.started →
      Balanced ⟨s', Function.update c.pc t p'⟩ := fun h1 h2 h3 => ⟨h1, h2, h3, hfew⟩
  cases hm with
  | stay hk hm hs =>
    rw [hk, hm, hs, Nat.add_right_cancel hadding, Nat.add_right_cancel hsubtracting,
      Nat.add_right_cancel hinserting] at done
    exact done hfin hsize hkeys
  | start hk hm hs | miss hk hm hs =>
    simp only [reduceCtorEq, if_true, if_false] at hadding hsubtracting hinserting
    rw [hk, hm, hs] at done
    exact done hfin (by omega) (by omega)
  | link k hn hk hm hs =>
    simp only [reduceCtorEq, if_true, if_false] at hadding hsubtracting hinserting
    have hcard := Set.ncard_insert_of_notMem hn hfin
    rw [hk, hm, hs] at done
    exact done (hfin.insert k) (by omega) (by omega)
  | mark k hn hk hm hs =>
    simp only [reduceCtorEq, if_true, if_false] at hadding hsubtracting hinserting
    have hcard := Set.ncard_sdiff_singleton_add_one hn hfin
    rw [hk, hm, hs] at done
    exact done hfin.sdiff (by omega) (by omega)
  | add hk hm hs =>
    simp only [reduceCtorEq, if_true, if_false] at hadding hsubtracting hinserting
    have hnat : s'.mSize.toNat = (c.shared.mSize.toNat + 1) % 2 ^ 32 := by
      rw [hm, BitVec.toNat_add]
      rfl
    rw [hk, hs] at done
    exact done hfin (by omega) (by omega)
  | sub hk hm hs =>
    simp only [reduceCtorEq, if_true, if_false] at hadding hsubtracting hinserting
    have hnat : s'.mSize.toNat = (2 ^ 32 - 1 + c.shared.mSize.toNat) % 2 ^ 32 := by
      rw [hm, BitVec.toNat_sub]
      rfl
    rw [hk, hs] at done
    exact done hfin (by omega) (by omega)

/-- In every state: the list is one of `LockFreeHashMap.system`, and the counter is balanced. -/
structure Ruled (mHash : K → HashValueType)
    (c : Conf τ (State τ A K V) (Place τ A K V)) : Prop where
  list : (LockFreeHashMap.system mHash).Reachable (inner c)
  calls : ∀ t, (c.pc t).Wf
  balanced : Balanced c

theorem ruled_reach (h : (system mHash).Reach Few c) : Ruled mHash c := by
  refine h.induct (P := Ruled mHash) ?_ ?_
  · rintro ⟨s, f⟩ ⟨⟨head, last, hne, rfl⟩, rfl⟩
    have hkeys : (initial head last : State τ A K V).keys = ∅ := by
      refine Set.eq_empty_of_forall_notMem fun k hk => ?_
      obtain ⟨v, a, -, -, hv⟩ := hk
      by_cases ha : a = head <;> simp [initial, LockFreeHashMap.initial, ha] at hv
    have htally : ∀ σ, σ ≠ .idle →
        tally σ ⟨(initial head last : State τ A K V), fun _ => .domain .unstarted⟩ = 0 :=
        fun σ hσ =>
      count_eq_zero.2 fun _ => if_neg fun h => hσ h.symm
    refine ⟨.init ⟨⟨head, last, hne, rfl⟩, rfl⟩, fun _ => trivial, ?_⟩
    have hcard : (initial head last : State τ A K V).keys.ncard = 0 := by
      rw [hkeys, Set.ncard_empty]
    refine ⟨hkeys ▸ Set.finite_empty, ?_, ?_, Nat.two_pow_pos 32⟩
    · rw [hcard, htally .adding (by decide), htally .subtracting (by decide)]
      rfl
    · rw [hcard, htally .inserting (by decide), htally .subtracting (by decide)]
      exact le_rfl
  · rintro c ⟨t, act⟩ c' - ⟨hlist, hcalls, hB⟩ hC hs
    obtain ⟨s', p', hn, rfl⟩ := Program.step_eq_some.1 hs
    obtain ⟨g, hS⟩ := sound_reach hlist
    obtain ⟨hw, hm, hin⟩ := next_goes hS (suits_reach hlist t) (hcalls t) hn
    have hfew : s'.started < 2 ^ 32 := by
      rcases next_started hn with h | ⟨key, value, rfl, h⟩
      · exact h ▸ hB.few
      · exact h ▸ hC
    refine ⟨?_, Program.forall_update hw fun u _ => hcalls u, balanced_move hB hm hfew⟩
    rcases hin with h | ⟨lact, h⟩
    · exact h ▸ hlist
    · exact .step hlist trivial h

/-- `mSize` is at most the number of calls of `insert`, and is no wrapped value. -/
def Unwrapped (c : Conf τ (State τ A K V) (Place τ A K V)) : Prop :=
  c.shared.mSize.toNat ≤ c.shared.started ∧
    c.shared.mSize.toNat + tally .adding c = c.shared.keys.ncard + tally .subtracting c

/-- The elements that `insert` has linked and not counted are not more than the keys in the list and
the elements that `remove` has marked and still counts. -/
def Covered (c : Conf τ (State τ A K V) (Place τ A K V)) : Prop :=
  tally .adding c ≤ c.shared.keys.ncard + tally .subtracting c

omit [DecidableEq τ] [DecidableEq A] [DecidableEq K] in
theorem Balanced.unwrapped_iff (hB : Balanced c) : Unwrapped c ↔ Covered c := by
  obtain ⟨-, hsize, hkeys, hfew⟩ := hB
  have hlt : c.shared.mSize.toNat < 2 ^ 32 := c.shared.mSize.isLt
  unfold Unwrapped Covered
  constructor
  · rintro ⟨-, h⟩
    omega
  · intro h
    omega

/-- In every state of a run `mSize` is right if and only if it is covered, and the load factor is
that of the `mSize` of an earlier state. -/
theorem size_iff {n : ℕ} (r : (system mHash).Run (Few (τ := τ) (A := A) (K := K) (V := V)) n) :
    (∀ i ≤ n, Unwrapped (r.state i) ↔ Covered (r.state i)) ∧
      ∀ i ≤ n, ∀ t prevSize, (r.state i).pc t = .loadFactor prevSize → ∃ j < i,
        (r.state j).pc t = .sizeAdd ∧ prevSize = (r.state j).shared.mSize := by
  refine ⟨fun i hi => (ruled_reach (r.reach hi)).balanced.unwrapped_iff,
    fun i hi t prevSize ht => ?_⟩
  obtain ⟨j, hj, -, hout, hn, hin⟩ :=
    Program.entered r (E := (· = .loadFactor prevSize)) nofun hi ht
  rw [hin (j + 1) (Nat.lt_succ_self j) hj] at hn
  exact ⟨j, hj, next_loadFactor hn⟩

end Counters

section Example

/-- Thread `t` has linked its element and not added to `mSize`; thread `u` removes the element. -/
def wrapped (t u : Fin 2) (node : Fin 3) : List (Fin 2 × Act (Fin 3) ℕ ℕ) :=
  List.replicate 8 (t, .run true) ++ (t, .call (.insert 0 0)) :: List.replicate 3 (t, .run true) ++
    (t, .alloc node) :: List.replicate 19 (t, .run true) ++ List.replicate 8 (u, .run true) ++
      (u, .call (.remove 0)) :: List.replicate 28 (u, .run true)

theorem size_wraps : ∃ (n : ℕ) (r : (system (fun _ : ℕ => 0)).Run
    (Few (τ := Fin 2) (A := Fin 3) (K := ℕ) (V := ℕ)) n),
      (r.state n).shared.started = 1 ∧ (r.state n).shared.mSize.toNat = 4294967295 := by
  have h : (((system fun _ : ℕ => 0).execIf Few ⟨initial 0 1, fun _ => .domain .unstarted⟩
      (wrapped 0 1 2)).any fun c =>
        decide (c.shared.started = 1 ∧ c.shared.mSize.toNat = 4294967295)) = true := by
    decide +kernel
  obtain ⟨r, h⟩ := System.exists_run_any (S := system fun _ : ℕ => 0) (0, .run true)
    ⟨⟨0, 1, by decide, rfl⟩, rfl⟩ h
  exact ⟨_, r, of_decide_eq_true h⟩

end Example

end Map

end LockFreeHashMap

end ConcurrencySandbox

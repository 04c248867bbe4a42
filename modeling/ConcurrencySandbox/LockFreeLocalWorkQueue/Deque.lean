import Mathlib.Data.List.ReduceOption
import ConcurrencySandbox.Interleaving.Calls
import ConcurrencySandbox.LockFreeLocalWorkQueue.ExactlyOnce
import ConcurrencySandbox.Structures.Deque
import ConcurrencySandbox.Structures.Histories

/-!
# The work queue is a deque

The tasks from `mTop` on, up to where the owner's call says they end, are one deque: the store of
`mBottom` in `push` adds at its end, `pop` takes from its end with its load of `mTop` or, the last
task, with its compare-and-swap, and `steal` takes from its front. A call's answer is that of its
own event; a `pop` that answers `false` has seen the deque empty.
-/

namespace ConcurrencySandbox

open Interleaving Structures HazardPointer

namespace LockFreeLocalWorkQueue

variable {τ C P T : Type*}

/-! ### The deque -/

/-- The task that the current array has for index `j`. -/
def Shared.value (s : Shared τ C P T) (j : ℤ) : Option T :=
  ((s.arrays s.mTasks).get (toSize j)).bind s.tasks

def Shared.between (s : Shared τ C P T) (top bottom : ℤ) : List (Option T) :=
  (List.range (bottom - top).toNat).map fun k : ℕ => s.value (top + k)

def Claim.bottom (mBottom : ℤ) : Claim → ℤ
  | .pop newBottom oldTop => if 0 < newBottom - oldTop then newBottom else newBottom + 1
  | .steal _ => mBottom

/-- Where the tasks end for the owner: at `mBottom`, unless a `pop` has changed it. -/
def bottomOf (mBottom : ℤ) : PC τ C P T → ℤ
  | .popBottomStore newBottom | .popTop newBottom => newBottom + 1
  | .popEmpty oldTop => oldTop
  | .popCas oldTop _ | .popRestore oldTop _ | .take _ (some oldTop) => oldTop + 1
  | .claimLoad w | .claimStore w _ | .claimCheck w _ | .get w _ => w.bottom mBottom
  | _ => mBottom

def Claim.lowered : Claim → ℤ
  | .pop newBottom oldTop => if 0 < newBottom - oldTop then 0 else 1
  | .steal _ => 0

/-- How far a `pop` of the owner keeps `mBottom` below where the tasks end. -/
def lowered : PC τ C P T → ℤ
  | .popTop _ | .popEmpty _ | .popCas .. | .popRestore .. | .take _ (some _) => 1
  | .claimLoad w | .claimStore w _ | .claimCheck w _ | .get w _ => w.lowered
  | _ => 0

/-- The deque. -/
def content (o : τ) (c : Conf τ (Shared τ C P T) (PC τ C P T)) : List (Option T) :=
  c.shared.between c.shared.mTop (bottomOf c.shared.mBottom (c.pc o))

/-! ### What the calls do to it -/

/-- What the thread's next step does to the deque. -/
def commit (s : Shared τ C P T) : PC τ C P T → List (Deque.Event T)
  | .pushBottomStore task _ _ => [.push task]
  | .popTop newBottom =>
    if newBottom - s.mTop < 0 then [.pop none]
    else if 0 < newBottom - s.mTop then [.pop (s.value newBottom)] else []
  | .popCas oldTop p => [.pop (if s.mTop = oldTop then p.bind s.tasks else none)]
  | .stealBottom oldTop => if s.mBottom - oldTop ≤ 0 then [.steal none] else []
  | .stealCas oldTop p => [.steal (if s.mTop = oldTop then p.bind s.tasks else none)]
  | _ => []

/-- The answer that the thread's next step returns. -/
def answer : PC τ C P T → List (Option T)
  | .returned ans => [ans]
  | _ => []

def Claim.owed (s : Shared τ C P T) : Claim → List (Option T)
  | .pop newBottom oldTop => if 0 < newBottom - oldTop then [s.value newBottom] else []
  | .steal _ => []

/-- The answer that the thread's call has already. -/
def owed (s : Shared τ C P T) : PC τ C P T → List (Option T)
  | .claimLoad w | .claimStore w _ | .claimCheck w _ | .get w _ => w.owed s
  | .popEmpty _ => [none]
  | .take p _ => [p.bind s.tasks]
  | .popRestore _ ans | .release ans | .returned ans => [ans]
  | _ => []

variable {g g' : Ghost τ C P T} {s s' : Shared τ C P T} {o t u : τ} {p p' : PC τ C P T}
  {act : Act C P T} {a b : ℤ} {k : ℕ}

theorem lowered_nonneg (p : PC τ C P T) : 0 ≤ lowered p := by
  have hclaim : ∀ w : Claim, 0 ≤ w.lowered := fun w => by
    cases w with
    | pop newBottom oldTop =>
      unfold Claim.lowered
      change 0 ≤ if 0 < newBottom - oldTop then (0 : ℤ) else 1
      split_ifs <;> omega
    | steal _ => exact le_rfl
  fun_cases lowered p <;> first | exact hclaim _ | exact Int.one_nonneg | exact le_rfl

theorem Shared.between_congr (h : ∀ j, a ≤ j → j < b → s'.value j = s.value j) :
    s'.between a b = s.between a b := by
  refine List.map_congr_left fun k hk => h _ (by omega) ?_
  have := List.mem_range.1 hk
  omega

theorem Shared.between_snoc (s : Shared τ C P T) (h : a ≤ b) :
    s.between a (b + 1) = s.between a b ++ [s.value b] := by
  unfold between
  rw [show (b + 1 - a).toNat = (b - a).toNat + 1 by omega, List.range_succ, List.map_append,
    List.map_singleton, show a + ((b - a).toNat : ℤ) = b by omega]

theorem Shared.between_cons (s : Shared τ C P T) (h : a < b) :
    s.between a b = s.value a :: s.between (a + 1) b := by
  unfold between
  rw [show (b - a).toNat = (b - (a + 1)).toNat + 1 by omega, List.range_succ_eq_map, List.map_cons,
    List.map_map]
  refine congrArg₂ _ (by simp) (List.map_congr_left fun k _ => ?_)
  exact congrArg s.value (by omega)

theorem Shared.between_nil (s : Shared τ C P T) (h : b ≤ a) : s.between a b = [] := by
  unfold between
  rw [Int.toNat_of_nonpos (by omega)]
  rfl

theorem value_eq (hk : k < 2 ^ 63) : s.value k = (s.cell s.mTasks k).bind s.tasks := by
  unfold Shared.value
  rw [toSize_natCast hk]
  rfl

theorem value_congr (hk : k < 2 ^ 63) (h1 : s'.cell s'.mTasks k = s.cell s.mTasks k)
    (h2 : s'.tasks = s.tasks) : s'.value k = s.value k := by
  rw [value_eq hk, value_eq hk, h1, h2]

theorem Shape.cell_mem (hG : Shape g s) (h : g.top ≤ k ∧ k < g.bottom) :
    ∃ q ∈ g.items, s.cell s.mTasks k = some q := hG.window.exists_mem h

theorem Claiming.bottom_eq {w : Claim} (h : Claiming o o g s w) :
    w.bottom s.mBottom = g.bottom := by
  cases w with
  | pop newBottom oldTop =>
    obtain ⟨-, k, rfl, h⟩ := h
    change (if (0 : ℤ) < k - oldTop then (k : ℤ) else k + 1) = g.bottom
    split_ifs at h ⊢
    · rw [h.2.1]
    · rw [h.2.1]
      push_cast
      rfl
  | steal oldTop => exact h.2.1 rfl

/-- The owner's place says where the tasks end. -/
theorem Placed.bottom_eq (hp : Placed o o g s p) : bottomOf s.mBottom p = g.bottom := by
  cases p with
  | domain _ | stealTop | pushed => exact hp.2 rfl
  | pushBottom _ | pushTop _ _ => exact hp.2.2.1
  | pushTasks _ _ _ | pushReload _ _ _ _ | pushResize _ _ _ _ _ | pushCopy _ _ _ _ _ _
  | pushTasksStore _ _ _ _ | retiring _ _ _ _ | pushNew _ _ _ => exact hp.1.2.2.1
  | pushRetire _ _ _ _ | pushPut _ _ _ _ | pushBottomStore _ _ _ => exact hp.1.1.2.2.1
  | popBottom => exact hp.2.2
  | popBottomStore _ | popRestore _ _ => exact hp.2.2
  | popTop _ => exact hp.2.2.1
  | popEmpty _ => exact hp.2.2
  | popCas oldTop _ =>
    obtain ⟨-, -, k, rfl, hk, -⟩ := hp
    exact (congrArg _ hk.symm)
  | stealBottom _ | stealCas _ _ => exact hp.2.1 rfl
  | claimLoad _ | claimStore _ _ => exact Claiming.bottom_eq hp
  | claimCheck _ _ | get _ _ => exact hp.1.bottom_eq
  | take _ restore =>
    cases restore with
    | none => exact hp.2 rfl
    | some oldTop => exact hp.2.2
  | release _ | returned _ => exact hp.2 rfl

/-! ### The tasks in the deque stay where they are -/

section Steps

variable [DecidableEq τ] [DecidableEq C]

theorem domainStep_value {ok : Bool} {f f' : Frame τ C} (hs : s.domainStep t ok f = some (s', f'))
    (j : ℤ) : s'.value j = s.value j := by
  rw [domainStep_same hs]
  rfl

variable [DecidableEq P]

omit [DecidableEq τ] [DecidableEq C] in
/-- A task that is not in the deque is made or deleted. -/
theorem Shape.value_update (hG : Shape g s) {q : P} (hq : q ∉ g.items) (x : Option T)
    (h : g.top ≤ k ∧ k < g.bottom) :
    ({ s with tasks := Function.update s.tasks q x } : Shared τ C P T).value k = s.value k := by
  obtain ⟨r, hr, hcell⟩ := hG.cell_mem h
  have hlt := hG.bottom_lt
  have hk : k < 2 ^ 63 := by omega
  have hne : r ≠ q := fun h => hq (h ▸ hr)
  rw [value_eq hk, value_eq hk, hcell]
  change ((s.cell s.mTasks k).bind _) = _
  rw [hcell]
  exact Function.update_of_ne hne _ _

theorem nextPush_value (hG : Shape g s) (hp : Placed o t g s p)
    (hn : nextPush t act s p = some (s', p')) (h : g.top ≤ k ∧ k < g.bottom) :
    s'.value k = s.value k := by
  have hlt := hG.bottom_lt
  have hk : k < 2 ^ 63 := by omega
  revert hn
  fun_cases nextPush t act s p <;> intro hn <;> cases hn <;> try rfl
  · -- the new array
    rename_i a ha
    have hcur : s.mTasks ≠ a := fun h => ha (h ▸ hG.allocated _ hG.current.1)
    exact value_congr hk (congrArg (CircularArray.get · k) (Function.update_of_ne hcur _ _)) rfl
  · -- the copy
    rename_i newTasks _ _ _
    obtain ⟨-, ⟨-, -, hnew, -⟩, -⟩ := hp
    have hcur : s.mTasks ≠ newTasks := fun h => hnew (h ▸ hG.current.1)
    exact value_congr hk (congrArg (CircularArray.get · k) (Function.update_of_ne hcur _ _)) rfl
  · obtain ⟨-, -, -, hcell⟩ := hp
    exact value_congr hk (hcell k h.1 h.2) rfl
  · rename_i hs
    exact domainStep_value hs k
  · -- the new task
    rename_i q hq
    refine hG.value_update (fun hi => hG.alive_items hi ?_) _ h
    simpa using hq
  · -- behind the bottom
    obtain ⟨⟨⟨-, -, -, rfl, -⟩, rfl, -⟩, -⟩ := hp
    have hcap := hG.capacity
    have hlen : g.bottom = g.top + g.items.length := rfl
    rw [toSize_natCast hlt]
    refine value_congr hk
      (Eq.trans (congrArg (CircularArray.get · k) (Function.update_self ..)) ?_) rfl
    refine CircularArray.get_put_ne (mod_ne h.2 ?_).symm
    unfold Shared.capacity at hcap
    omega

theorem nextPop_value (hG : Shape g s) (hp : Placed o t g s p)
    (hn : nextPop t act s p = some (s', p')) (h : g.top ≤ k ∧ k < g.bottom) :
    s'.value k = s.value k := by
  revert hn
  fun_cases nextPop t act s p <;> intro hn <;> cases hn <;> try rfl
  all_goals
    obtain ⟨⟨q, task, hq, hown, -⟩, -⟩ := hp
    cases hq
    exact hG.value_update (hown.notMem hG) _ h

theorem next_value (hG : Shape g s) (hp : Placed o t g s p) (hn : next o t act s p = some (s', p'))
    (h : g.top ≤ k ∧ k < g.bottom) : s'.value k = s.value k := by
  revert hn
  fun_cases next o t act s p <;> intro hn
  case case7 hs =>
    cases hn
    exact domainStep_value hs k
  case case10 hpush =>
    cases hn
    exact nextPush_value hG hp hpush h
  case case11 => exact nextPop_value hG hp hn h
  all_goals cases hn
  all_goals rfl

/-! ### Its two ends -/

omit [DecidableEq τ] [DecidableEq C] [DecidableEq P] in
theorem Shape.value_some (hG : Shape g s) (h : g.top ≤ k ∧ k < g.bottom) :
    ∃ v, s.value k = some v := by
  obtain ⟨q, hq, hcell⟩ := hG.cell_mem h
  have hlt := hG.bottom_lt
  obtain ⟨v, hv⟩ := Option.ne_none_iff_exists'.1 (hG.alive_items hq)
  refine ⟨v, ?_⟩
  rw [value_eq (by omega), hcell]
  exact hv

theorem nextPush_quiet (hp : Placed o t g s p) (hn : nextPush t act s p = some (s', p'))
    (hq : commit s p = []) : s'.mTop = s.mTop ∧ (t = o → bottomOf s'.mBottom p' = g.bottom) := by
  revert hn
  fun_cases nextPush t act s p <;> intro hn <;> cases hn
  case case13 hs =>
    rw [domainStep_same hs]
    exact ⟨rfl, fun _ => hp.1.2.2.1⟩
  case case18 => cases hq
  all_goals refine ⟨rfl, fun ho => ?_⟩
  all_goals
    subst ho
    exact hp.bottom_eq

theorem nextPop_quiet (hp : Placed o t g s p) (hn : nextPop t act s p = some (s', p'))
    (hq : commit s p = []) : s'.mTop = s.mTop ∧ (t = o → bottomOf s'.mBottom p' = g.bottom) := by
  revert hn
  fun_cases nextPop t act s p <;> intro hn <;> cases hn
  case case1 => exact ⟨rfl, fun _ => (Int.sub_add_cancel ..).trans hp.2.2⟩
  case case3 hneg => simp [commit, hneg] at hq
  case case4 newBottom _ hneg =>
    have hle : newBottom ≤ s.mTop := by simpa [commit, hneg] using hq
    exact ⟨rfl, fun _ => (if_neg (by omega)).trans hp.2.2.1⟩
  case case6 | case7 | case12 | case13 => cases hq
  case case18 hpos =>
    obtain ⟨⟨-, k, -, h⟩, -⟩ := hp
    rw [if_pos hpos] at h
    exact ⟨rfl, fun _ => h.1⟩
  case case19 hpos =>
    obtain ⟨⟨-, k, hk, h⟩, -⟩ := hp
    rw [if_neg hpos] at h
    exact ⟨rfl, fun _ => by rw [h.2.1, h.2.2.1]; rfl⟩
  all_goals refine ⟨rfl, fun ho => ?_⟩
  all_goals
    subst ho
    exact hp.bottom_eq

theorem next_quiet (hp : Placed o t g s p) (hn : next o t act s p = some (s', p'))
    (hq : commit s p = []) : s'.mTop = s.mTop ∧ (t = o → bottomOf s'.mBottom p' = g.bottom) := by
  revert hn
  fun_cases next o t act s p <;> intro hn
  case case7 hs =>
    cases hn
    rw [domainStep_same hs]
    exact ⟨rfl, hp.2⟩
  case case10 hpush =>
    cases hn
    exact nextPush_quiet hp hpush hq
  case case11 => exact nextPop_quiet hp hn hq
  all_goals cases hn
  all_goals
    refine ⟨rfl, fun ho => ?_⟩
    subst ho
    exact hp.2 rfl

/-- The step of a thread that does something to the deque, whose end is then `b'`. -/
theorem next_commit (hG : Shape g s) (hp : Placed o t g s p) (hn : next o t act s p = some (s', p'))
    (hq : commit s p ≠ []) {b' : ℤ} (hb : t = o → bottomOf s'.mBottom p' = b')
    (hb' : t ≠ o → b' = g.bottom) :
    ∃ e, commit s p = [e] ∧ Deque.Step e (s.between s.mTop g.bottom).reduceOption
      (s'.between s'.mTop b').reduceOption := by
  have htop : s.mTop = g.top := hG.top
  have hlt := hG.bottom_lt
  have hbot : g.bottom = g.top + g.items.length := rfl
  have hsteal : (t = o → Settled g s) → (t = o → s.mBottom = b') → b' = g.bottom := fun h h' => by
    by_cases ho : t = o
    · exact (h' ho).symm.trans (h ho)
    · exact hb' ho
  cases p with
  | pushBottomStore task b q =>
    obtain ⟨⟨⟨rfl, -, -, rfl, -⟩, hcell, -⟩, hown⟩ := hp
    cases act with
    | run ok =>
      cases hn
      have hv : s.value g.bottom = some task := by
        rw [value_eq hlt, hcell]
        exact hown.2
      obtain rfl : (g.bottom : ℤ) + 1 = b' := hb rfl
      refine ⟨_, rfl, ?_⟩
      change Deque.Step _ _ (s.between s.mTop (g.bottom + 1)).reduceOption
      rw [s.between_snoc (by omega), hv, List.reduceOption_append]
      exact .push _ _
    | _ => cases hn
  | popTop newBottom =>
    obtain ⟨rfl, -, hend, -⟩ := hp
    cases act with
    | run ok =>
      have hn : (if newBottom - s.mTop < 0 then some (s, PC.popEmpty s.mTop)
        else some (s, .claimLoad (.pop newBottom s.mTop))) = some (s', p') := hn
      split_ifs at hn with hneg
      · -- there is nothing
        cases hn
        obtain rfl : s.mTop = b' := hb rfl
        refine ⟨.pop none, if_pos hneg, ?_⟩
        rw [s.between_nil (by omega), s.between_nil le_rfl]
        exact .empty
      · cases hn
        by_cases hpos : 0 < newBottom - s.mTop
        · -- there is more than one task: the last one is the owner's
          obtain ⟨k, rfl⟩ : ∃ k : ℕ, newBottom = k := ⟨newBottom.toNat, by omega⟩
          obtain ⟨v, hv⟩ := hG.value_some (k := k) (by omega)
          obtain rfl : (k : ℤ) = b' := (if_pos hpos).symm.trans (hb rfl)
          refine ⟨.pop (some v), by simp only [commit, if_neg hneg, if_pos hpos, hv], ?_⟩
          rw [← hend, s.between_snoc (by omega), hv, List.reduceOption_append]
          exact .pop _ _
        · exact absurd (by simp only [commit, if_neg hneg, if_neg hpos]) hq
    | _ => cases hn
  | popCas oldTop q =>
    obtain ⟨rfl, -, k, rfl, hend, hle, hcell⟩ := hp
    cases act with
    | run ok =>
      have hn : (if s.mTop = (k : ℤ) then some ({ s with mTop := (k : ℤ) + 1 },
        PC.take q (some (k : ℤ)))
        else some (s, .popRestore k none)) = some (s', p') := hn
      split_ifs at hn with hcas
      · -- the last task
        cases hn
        obtain ⟨v, hv⟩ := hG.value_some (k := k) (by omega)
        obtain rfl : (k : ℤ) + 1 = b' := hb rfl
        have hq : q.bind s.tasks = some v := by
          rw [hcell (by omega), ← value_eq (by omega), hv]
        refine ⟨.pop (some v), by simp only [commit, if_pos hcas, hq], ?_⟩
        rw [show (g.bottom : ℤ) = k + 1 by omega, hcas, s.between_cons (by omega), hv,
          s.between_nil le_rfl, Shared.between_nil _ le_rfl]
        exact .pop v []
      · cases hn
        obtain rfl : (k : ℤ) + 1 = b' := hb rfl
        refine ⟨.pop none, by simp only [commit, if_neg hcas], ?_⟩
        rw [s.between_nil (by omega), s.between_nil (by omega)]
        exact .empty
    | _ => cases hn
  | stealBottom oldTop =>
    cases act with
    | run ok =>
      have hn : (if s.mBottom - oldTop ≤ 0 then some (s, PC.returned none)
        else some (s, .claimLoad (.steal oldTop))) = some (s', p') := hn
      split_ifs at hn with hle
      · cases hn
        obtain rfl : b' = g.bottom := by
          by_cases ho : t = o
          · exact (hb ho).symm.trans (hp.2.1 ho)
          · exact hb' ho
        exact ⟨.steal none, if_pos hle, .fail _⟩
      · exact absurd (if_neg hle) hq
    | _ => cases hn
  | stealCas oldTop q =>
    obtain ⟨-, hset, k, rfl, hahead, hcell⟩ := hp
    cases act with
    | run ok =>
      have hn : (if s.mTop = (k : ℤ) then some ({ s with mTop := (k : ℤ) + 1 }, PC.take q none)
        else some (s, .release none)) = some (s', p') := hn
      split_ifs at hn with hcas
      · -- the first task
        cases hn
        obtain rfl : b' = g.bottom := hsteal hset hb
        have hk := hahead.lt (by omega)
        obtain ⟨v, hv⟩ := hG.value_some (k := k) (by omega)
        have hq : q.bind s.tasks = some v := by
          rw [hcell (by omega), ← value_eq (by omega), hv]
        refine ⟨.steal (some v), by simp only [commit, if_pos hcas, hq], ?_⟩
        rw [hcas, s.between_cons (by omega), hv]
        exact .steal v _
      · cases hn
        obtain rfl : b' = g.bottom := hsteal hset hb
        exact ⟨.steal none, by simp only [commit, if_neg hcas], .fail _⟩
    | _ => cases hn
  | _ => exact absurd rfl hq

/-! ### The answers of the calls -/

omit [DecidableEq τ] [DecidableEq C] [DecidableEq P] in
theorem Holds.value {q : Option P} (h : Holds g s t q) : ∃ v, q.bind s.tasks = some v := by
  obtain ⟨r, task, rfl, hown, -⟩ := h
  exact ⟨task, hown.2⟩

omit [DecidableEq P] in
/-- Another thread's step leaves a call's answer alone. -/
theorem owed_other {e : Hazards.Event (τ × ℕ) C} (hG : Shape g s) (hp : Placed o u g s p)
    (hE : Effect o t g g' s s' e) (hu : u ≠ t) : owed s' p = owed s p := by
  have hclaim : ∀ w, Claiming o u g s w → w.owed s' = w.owed s := fun w hw => by
    cases w with
    | steal _ => rfl
    | pop newBottom oldTop =>
      obtain ⟨rfl, k, rfl, h⟩ := hw
      have hS := hE.steady hu.symm
      change (if (0 : ℤ) < k - oldTop then _ else _) = if (0 : ℤ) < k - oldTop then _ else _
      split_ifs at h ⊢
      · obtain ⟨-, hk, q, task, hcell, hown, -⟩ := h
        have hlt := hG.bottom_lt
        rw [value_eq (by omega), value_eq (by omega), hS.mTasks, hS.cell, hcell]
        exact congrArg ([·]) (hE.own u hu q hown.1).2
      · rfl
  cases p with
  | claimLoad w | claimStore w _ => exact hclaim w hp
  | claimCheck w _ | get w _ => exact hclaim w hp.1
  | take q restore =>
    obtain ⟨r, task, rfl, hown, -⟩ := hp.1
    exact congrArg ([·]) (hE.own u hu r hown.1).2
  | _ => rfl

omit [DecidableEq P] in
theorem nextPush_answer [DecidableEq P] (hn : nextPush t act s p = some (s', p')) :
    owed s p ++ (commit s p).filterMap Deque.Event.answer? = answer p ++ owed s' p' := by
  revert hn
  fun_cases nextPush t act s p <;> intro hn <;> cases hn <;> rfl

theorem nextPop_answer (hG : Shape g s) (hp : Placed o t g s p)
    (hn : nextPop t act s p = some (s', p')) :
    owed s p ++ (commit s p).filterMap Deque.Event.answer? = answer p ++ owed s' p' := by
  revert hn
  fun_cases nextPop t act s p <;> intro hn <;> cases hn <;> try rfl
  case case4 newBottom _ hneg =>
    by_cases hpos : 0 < newBottom - s.mTop
    · simp only [owed, commit, answer, Claim.owed, if_neg hneg, if_pos hpos]
      rfl
    · simp only [owed, commit, answer, Claim.owed, if_neg hneg, if_neg hpos]
      rfl
  case case14 | case15 | case16 | case17 => exact List.append_nil _
  case case18 newBottom oldTop hpos =>
    -- the array it claimed has the task too
    obtain ⟨⟨-, k, rfl, h⟩, -, hcell⟩ := hp
    rw [if_pos hpos] at h
    have hlt := hG.bottom_lt
    have hk : k < 2 ^ 63 := by omega
    have htop : g.top ≤ g.bottom := Nat.le_add_right _ _
    refine (List.append_nil _).trans ((if_pos hpos).trans (congrArg ([·]) ?_))
    rw [value_eq hk, ← hcell k rfl (by omega), toSize_natCast hk]
    rfl
  case case19 hpos => exact (List.append_nil _).trans (if_neg hpos)
  case case21 htask | case22 htask => exact congrArg ([·]) htask
  all_goals simp [owed, commit, answer, Claim.owed, Deque.Event.answer?, *]

theorem next_answer (hG : Shape g s) (hp : Placed o t g s p)
    (hn : next o t act s p = some (s', p')) :
    owed s p ++ (commit s p).filterMap Deque.Event.answer? = answer p ++ owed s' p' := by
  revert hn
  fun_cases next o t act s p <;> intro hn
  case case10 hpush =>
    cases hn
    exact nextPush_answer hpush
  case case11 => exact nextPop_answer hG hp hn
  all_goals cases hn
  all_goals rfl

omit [DecidableEq τ] [DecidableEq C] [DecidableEq P] in
theorem commit_added (s : Shared τ C P T) (p : PC τ C P T) :
    (commit s p).filterMap Deque.Event.pushed? = added p := by
  cases p with
  | popTop newBottom =>
    change List.filterMap _ (if newBottom - s.mTop < 0 then _
      else if 0 < newBottom - s.mTop then _ else _) = []
    split_ifs <;> rfl
  | stealBottom oldTop =>
    change List.filterMap _ (if s.mBottom - oldTop ≤ 0 then _ else _) = []
    split_ifs <;> rfl
  | _ => rfl

/-! ### A steal that fails -/

theorem nextPop_lowered (hG : Shape g s) (hp : Placed o o g s p)
    (h : s.mBottom + lowered p = bottomOf s.mBottom p) (hn : nextPop o act s p = some (s', p')) :
    s'.mBottom + lowered p' = bottomOf s'.mBottom p' := by
  have htop : s.mTop = g.top := hG.top
  have hbot : g.bottom = g.top + g.items.length := rfl
  revert hn
  fun_cases nextPop o act s p <;> intro hn <;> cases hn
  case case1 => exact (Int.add_zero _).trans (Int.sub_add_cancel ..).symm
  case case3 =>
    obtain ⟨-, -, h1, h2⟩ := hp
    change s.mBottom + 1 = s.mTop
    omega
  case case4 newBottom _ _ =>
    obtain ⟨-, -, -, h2⟩ := hp
    change s.mBottom + (if 0 < newBottom - s.mTop then 0 else 1) =
      if 0 < newBottom - s.mTop then newBottom else newBottom + 1
    split_ifs <;> omega
  case case19 newBottom oldTop hpos =>
    obtain ⟨⟨-, k, rfl, h1⟩, -⟩ := hp
    change s.mBottom + (if (0 : ℤ) < k - oldTop then 0 else 1) =
      if (0 : ℤ) < k - oldTop then (k : ℤ) else k + 1 at h
    rw [if_neg hpos] at h h1
    rw [if_neg hpos, ← h1.2.2.1] at h
    exact h
  all_goals first | exact h | exact Int.add_zero _ | rfl

theorem next_lowered (hG : Shape g s) (hp : Placed o o g s p)
    (h : s.mBottom + lowered p = bottomOf s.mBottom p) (hn : next o o act s p = some (s', p')) :
    s'.mBottom + lowered p' = bottomOf s'.mBottom p' := by
  revert hn
  fun_cases next o o act s p <;> intro hn
  case case10 hpush =>
    cases hn
    revert hpush
    fun_cases nextPush o act s p <;> intro hn <;> cases hn <;> exact Int.add_zero _
  case case11 => exact nextPop_lowered hG hp h hn
  all_goals cases hn
  all_goals exact Int.add_zero _

/-- The top moves when a task is taken, by the call that then has it. -/
theorem next_top (hp' : Placed o t g' s' p') (hn : next o t act s p = some (s', p'))
    (h : s'.mTop ≠ s.mTop) :
    (∃ q restore, p' = .take q restore) ∧
      ∃ v, commit s p = [.pop (some v)] ∨ commit s p = [.steal (some v)] := by
  revert hn
  fun_cases next o t act s p <;> intro hn
  case case7 hs =>
    cases hn
    rw [domainStep_same hs] at h
    exact absurd rfl h
  case case10 hpush =>
    cases hn
    revert hpush
    fun_cases nextPush t act s p <;> intro hn <;> cases hn <;> try exact absurd rfl h
    rename_i hs
    rw [domainStep_same hs] at h
    exact absurd rfl h
  case case11 =>
    revert hn
    fun_cases nextPop t act s p <;> intro hn <;> cases hn <;> try exact absurd rfl h
    · obtain ⟨v, hv⟩ := hp'.1.value
      refine ⟨⟨_, _, rfl⟩, v, .inl ?_⟩
      simp only [commit, if_true]
      exact congrArg ([Deque.Event.pop ·]) hv
    · obtain ⟨v, hv⟩ := hp'.1.value
      refine ⟨⟨_, _, rfl⟩, v, .inr ?_⟩
      simp only [commit, if_true]
      exact congrArg ([Deque.Event.steal ·]) hv
  all_goals cases hn
  all_goals exact absurd rfl h

def Claim.StealFrom (k : ℤ) : Claim → Prop
  | .pop .. => False
  | .steal oldTop => oldTop = k

/-- The thread is inside a `steal` that has loaded `k` from `mTop`. -/
def StealFrom (k : ℤ) : PC τ C P T → Prop
  | .stealBottom oldTop | .stealCas oldTop _ => oldTop = k
  | .claimLoad w | .claimStore w _ | .claimCheck w _ | .get w _ => w.StealFrom k
  | _ => False

theorem next_stealFrom {k : ℤ} (hn : next o t act s p = some (s', p')) (h : StealFrom k p') :
    s'.mTop = s.mTop ∧ (StealFrom k p ∨ s.mTop = k) := by
  revert hn
  fun_cases next o t act s p <;> intro hn
  case case10 hpush =>
    cases hn
    revert hpush
    fun_cases nextPush t act s p <;> intro hn <;> cases hn <;> exact absurd h id
  case case11 =>
    revert hn
    fun_cases nextPop t act s p <;> intro hn <;> cases hn <;> try exact absurd h id
    case case9 => exact ⟨rfl, .inr h⟩
    all_goals exact ⟨rfl, .inl h⟩
  all_goals cases hn
  all_goals exact absurd h id

omit [DecidableEq τ] [DecidableEq C] [DecidableEq P] in
/-- What a `steal` that fails has seen. -/
theorem commit_fail (hG : Shape g s) (hp : Placed o t g s p) (h : commit s p = [.steal none]) :
    ∃ k, StealFrom k p ∧ (s.mBottom ≤ k ∧ k ≤ s.mTop ∨ s.mTop ≠ k) := by
  have htop : s.mTop = g.top := hG.top
  cases p with
  | popTop newBottom =>
    exfalso
    unfold commit at h
    change (if newBottom - s.mTop < 0 then _ else if 0 < newBottom - s.mTop then _ else _) = _ at h
    split_ifs at h <;> cases h
  | stealBottom oldTop =>
    obtain ⟨-, -, k, rfl, hk⟩ := hp
    refine ⟨k, rfl, .inl ⟨?_, by omega⟩⟩
    by_contra hlt
    have hne : ¬ s.mBottom - k ≤ 0 := by omega
    exact absurd ((if_neg hne).symm.trans h) nofun
  | stealCas oldTop q =>
    obtain ⟨-, -, k, rfl, hahead, hcell⟩ := hp
    refine ⟨k, rfl, .inr fun hk => ?_⟩
    have hlt := hahead.lt (by omega)
    have hb := hG.bottom_lt
    obtain ⟨v, hv⟩ := hG.value_some (k := k) (by omega)
    rw [value_eq (by omega), ← hcell (by omega)] at hv
    simp only [commit, if_pos hk, hv] at h
    cases h
  | _ => cases h

end Steps

/-! ### Runs -/

section Runs

variable [DecidableEq τ] [DecidableEq C] [DecidableEq P] {n i : ℕ}

omit [DecidableEq τ] [DecidableEq C] [DecidableEq P] in
theorem Shape.between_eq (hG : Shape g s) : s.between s.mTop g.bottom = g.items.map s.tasks := by
  have hle : (-1 : ℤ) ≤ g.bottom := by omega
  have hG' : Shape g { s with mBottom := g.bottom } := { hG with within := ⟨hle, le_rfl⟩ }
  exact hG'.stored_eq rfl

variable (r : (system (τ := τ) (C := C) (P := P) (T := T) o).Run Few n)

/-- What the steps have done to the deque, in order. -/
def history (i : ℕ) : List (τ × Deque.Event T) :=
  r.log (fun c l => (commit c.shared (c.pc l.1)).map (l.1, ·)) i

/-- What calls of `pop` and `steal` have returned, null for `false`. -/
def answers (i : ℕ) : List (τ × Option T) :=
  r.log (fun c l => (answer (c.pc l.1)).map (l.1, ·)) i

/-- During the call whose step fails somebody else has taken the first task. -/
def Overtaken (i : ℕ) : Prop :=
  ∃ j < i, (r.label j).1 ≠ (r.label i).1 ∧
    (∃ v, commit (r.state j).shared ((r.state j).pc (r.label j).1) = [.pop (some v)] ∨
      commit (r.state j).shared ((r.state j).pc (r.label j).1) = [.steal (some v)]) ∧
    ∃ k, ∀ m, j ≤ m → m ≤ i → StealFrom k ((r.state m).pc (r.label i).1)

structure IsDeque : Prop where
  tasks : ∀ i ≤ n, ∃ l : List T, content o (r.state i) = l.map some ∧
    Deque.Leaves ((history r i).map Prod.snd) l
  pushed : ∀ i ≤ n,
    ((history r i).map Prod.snd).filterMap Deque.Event.pushed? = (r.state i).shared.pushed
  calls : ∀ i ≤ n, called r i = (r.state i).shared.pushed ++ pushing ((r.state i).pc o)
  answers : ∀ i ≤ n, ∀ t, (eventsOf t (history r i)).filterMap Deque.Event.answer? =
    eventsOf t (answers r i) ++ owed (r.state i).shared ((r.state i).pc t)
  /-- A `steal` fails where there is nothing for it, the last task being in a `pop`, or because it
  was overtaken. -/
  fails : ∀ i < n, commit (r.state i).shared ((r.state i).pc (r.label i).1) = [.steal none] →
    ((content o (r.state i)).length : ℤ) ≤ lowered ((r.state i).pc o) ∨ Overtaken r i

variable {r}

theorem history_succ : history r (i + 1) = history r i ++
    (commit (r.state i).shared ((r.state i).pc (r.label i).1)).map ((r.label i).1, ·) :=
  r.log_succ _ i

/-- What a step of the run finds, and what it leaves to the owner. -/
theorem effect_step (r : (system (τ := τ) (C := C) (P := P) (T := T) o).Run Few n) (hi : i < n) :
    ∃ g g' e, Sound o g (r.state i) ∧ Sound o g' (r.state (i + 1)) ∧
      Effect o (r.label i).1 g g' (r.state i).shared (r.state (i + 1)).shared e := by
  obtain ⟨g, hG, hR, hp⟩ := sound_reach (r.reach hi.le)
  obtain ⟨hn, hother⟩ := Program.run_step r hi
  have hC := r.meets i hi
  have hst := r.step i hi
  obtain ⟨⟨t, act⟩, hl⟩ : ∃ l, r.label i = l := ⟨_, rfl⟩
  rw [hl] at hn hother hC hst ⊢
  have hfew : ∀ task, act = .push task → (r.state i).shared.pushed.length + 1 < 2 ^ 63 := by
    rintro task rfl
    exact hC
  obtain ⟨g', e, hE, hR', hp'⟩ := moves_step hG hR rfl (hp t) hfew hn
  obtain ⟨s', p', hn', hc⟩ := Program.step_eq_some.1 hst
  refine ⟨g, g', e, ⟨hG, hR, hp⟩, ⟨hE.shape, ?_, fun u => ?_⟩, hE⟩
  · rw [hc] at hR' ⊢
    rw [Function.comp_update]
    simpa using hR'
  · by_cases hu : u = t
    · exact hu ▸ hp'
    · rw [hother u hu]
      exact (hp u).effect hE hu

/-- A step of the run does to the deque what it commits. -/
theorem content_step (hi : i < n) :
    commit (r.state i).shared ((r.state i).pc (r.label i).1) = [] ∧
      content o (r.state (i + 1)) = content o (r.state i) ∨
    ∃ e, commit (r.state i).shared ((r.state i).pc (r.label i).1) = [e] ∧
      Deque.Step e (content o (r.state i)).reduceOption
        (content o (r.state (i + 1))).reduceOption := by
  obtain ⟨g, g', e, ⟨hG, -, hp⟩, ⟨-, -, hp'⟩, hE⟩ := effect_step r hi
  obtain ⟨hn, hother⟩ := Program.run_step r hi
  obtain ⟨⟨t, act⟩, hlab⟩ : ∃ l, r.label i = l := ⟨_, rfl⟩
  rw [hlab] at hn hother hE ⊢
  have hend := (hp o).bottom_eq
  -- another thread does not move the end
  have hother : t ≠ o →
      bottomOf (r.state (i + 1)).shared.mBottom ((r.state (i + 1)).pc o) = g.bottom :=
    fun ht => by
      rw [hother o (Ne.symm ht), (hE.steady ht).mBottom, hend]
  unfold content
  rw [hend]
  by_cases hq : commit (r.state i).shared ((r.state i).pc t) = []
  · obtain ⟨htop, hown⟩ := next_quiet (hp t) hn hq
    have hend' : bottomOf (r.state (i + 1)).shared.mBottom ((r.state (i + 1)).pc o) = g.bottom := by
      by_cases ht : t = o
      · subst ht
        exact hown rfl
      · exact hother ht
    refine .inl ⟨hq, ?_⟩
    rw [htop, hend']
    refine Shared.between_congr fun j h1 h2 => ?_
    obtain ⟨k, rfl⟩ : ∃ k : ℕ, j = k := ⟨j.toNat, by have := hG.top; omega⟩
    exact next_value hG (hp t) hn (by have := hG.top; omega)
  · have hown : t = o → bottomOf (r.state (i + 1)).shared.mBottom ((r.state (i + 1)).pc t) =
        bottomOf (r.state (i + 1)).shared.mBottom ((r.state (i + 1)).pc o) := by
      rintro rfl
      rfl
    exact .inr (next_commit hG (hp t) hn hq hown hother)

theorem leaves_succ (hi : i < n) {h : List (Deque.Event T)}
    (hl : Deque.Leaves h (content o (r.state i)).reduceOption) :
    Deque.Leaves (h ++ commit (r.state i).shared ((r.state i).pc (r.label i).1))
      (content o (r.state (i + 1))).reduceOption := by
  rcases content_step (r := r) hi with ⟨hc, hsame⟩ | ⟨e, hc, hstep⟩
  · rwa [hc, List.append_nil, hsame]
  · rw [hc]
    exact hl.snoc hstep

/-- The history, and what the calls have pushed. -/
theorem history_spec (hi : i ≤ n) :
    Deque.Leaves ((history r i).map Prod.snd) (content o (r.state i)).reduceOption ∧
      ((history r i).map Prod.snd).filterMap Deque.Event.pushed? = (r.state i).shared.pushed := by
  induction i with
  | zero =>
    obtain ⟨⟨a, c, -, hs⟩, hp⟩ := r.init
    unfold content
    rw [hs, hp]
    exact ⟨.nil, rfl⟩
  | succ i ih =>
    obtain ⟨hl, hpush⟩ := ih (by omega)
    refine ⟨?_, ?_⟩
    · rw [history_succ, List.map_append, List.map_map]
      simpa [Function.comp_def] using leaves_succ hi hl
    · rw [history_succ, List.map_append, List.filterMap_append, hpush,
        next_pushed (Program.run_step r hi).1, ← commit_added (r.state i).shared, List.map_map]
      simp [Function.comp_def]

theorem answers_run (hi : i ≤ n) (t : τ) :
    (eventsOf t (history r i)).filterMap Deque.Event.answer? =
      eventsOf t (answers r i) ++ owed (r.state i).shared ((r.state i).pc t) := by
  unfold history answers
  rw [System.Run.filterMap_eventsOf_log]
  refine r.eventsOf_log (fun c t => owed c.shared (c.pc t)) (fun t => ?_) (fun i hi => ?_)
    (fun i hi u hu => ?_) hi t
  · rw [r.init.2]
    rfl
  all_goals
    obtain ⟨g, g', e, ⟨hG, -, hp⟩, -, hE⟩ := effect_step r hi
    obtain ⟨hn, hother⟩ := Program.run_step r hi
  · exact next_answer hG (hp _) hn
  · rw [hother u hu, owed_other hG (hp u) hE hu]

theorem content_spec (hi : i ≤ n) : ∃ l : List T, content o (r.state i) = l.map some := by
  obtain ⟨g, hG, -, hp⟩ := sound_reach (r.reach hi)
  obtain ⟨l, hmap, -⟩ := hG.account
  refine ⟨l, ?_⟩
  unfold content
  rw [(hp o).bottom_eq, hG.between_eq, hmap]

theorem lowered_spec (hi : i ≤ n) : (r.state i).shared.mBottom + lowered ((r.state i).pc o) =
    bottomOf (r.state i).shared.mBottom ((r.state i).pc o) := by
  induction i with
  | zero =>
    obtain ⟨-, hp⟩ := r.init
    rw [hp]
    exact Int.add_zero _
  | succ i ih =>
    obtain ⟨g, g', e, ⟨hG, -, hp⟩, -, hE⟩ := effect_step r hi
    obtain ⟨hn, hother⟩ := Program.run_step r hi
    obtain ⟨⟨t, act⟩, hlab⟩ : ∃ l, r.label i = l := ⟨_, rfl⟩
    rw [hlab] at hn hother hE
    by_cases ht : t = o
    · subst ht
      exact next_lowered hG (hp t) (ih (by omega)) hn
    · rw [hother o (Ne.symm ht), (hE.steady ht).mBottom]
      exact ih (by omega)

/-- A step moves the top to take a task, which no call does that goes on stealing. -/
theorem top_step (hi : i < n) (h : (r.state (i + 1)).shared.mTop ≠ (r.state i).shared.mTop) :
    (∃ q restore, (r.state (i + 1)).pc (r.label i).1 = .take q restore) ∧
      ∃ v, commit (r.state i).shared ((r.state i).pc (r.label i).1) = [.pop (some v)] ∨
        commit (r.state i).shared ((r.state i).pc (r.label i).1) = [.steal (some v)] := by
  obtain ⟨g, g', e, -, ⟨-, -, hp'⟩, -⟩ := effect_step r hi
  exact next_top (hp' _) (Program.run_step r hi).1 h

theorem overtaken (hi : i < n) {k : ℤ} (h : StealFrom k ((r.state i).pc (r.label i).1))
    (htop : (r.state i).shared.mTop ≠ k) : Overtaken r i := by
  obtain ⟨j, hj, -, hno, hn, hlast⟩ := Program.entered r (E := StealFrom k) id hi.le h
  obtain ⟨hsame, hload⟩ := next_stealFrom hn (hlast (j + 1) (by omega) hj)
  have hstart : (r.state (j + 1)).shared.mTop = k := hsame.trans (hload.resolve_left hno)
  -- the top has moved since
  obtain ⟨m, hjm, hmi, hm, hm'⟩ : ∃ m, j < m ∧ m < i ∧ (r.state m).shared.mTop = k ∧
      (r.state (m + 1)).shared.mTop ≠ k := by
    by_contra hno
    have hall : ∀ m, j + 1 ≤ m → m ≤ i → (r.state m).shared.mTop = k := fun m hm => by
      induction m, hm using Nat.le_induction with
      | base => exact fun _ => hstart
      | succ m hm ih =>
        intro hmi
        by_contra hne
        exact hno ⟨m, hm, hmi, ih (by omega), hne⟩
    exact htop (hall i hj le_rfl)
  obtain ⟨⟨q, restore, htake⟩, hcommit⟩ := top_step (by omega) (hm ▸ hm')
  refine ⟨m, hmi, fun hsame => ?_, hcommit, k, fun l h1 h2 => hlast l (by omega) h2⟩
  have hin := hlast (m + 1) (by omega) hmi
  rw [← hsame, htake] at hin
  exact hin

/-- The work queue is one deque, whatever the interleaving: what `push`, `pop` and `steal` do to it
follows one order, in which a `pop` that answers `false` finds it empty, a `push` that has returned
has pushed its task, and every other call answers what it has done. -/
theorem work_deque (r : (system (τ := τ) (C := C) (P := P) (T := T) o).Run Few n) : IsDeque r := by
  refine ⟨fun i hi => ?_, fun i hi => (history_spec hi).2, fun i hi => calls_run hi,
    fun i hi => answers_run hi, fun i hi hfail => ?_⟩
  · obtain ⟨l, hl⟩ := content_spec (r := r) hi
    have hleaves := (history_spec (r := r) hi).1
    have hl' : (l.map some).reduceOption = l := by simp [List.reduceOption, List.filterMap_map]
    rw [hl, hl'] at hleaves
    exact ⟨l, hl, hleaves⟩
  · obtain ⟨g, hG, -, hp⟩ := sound_reach (r.reach hi.le)
    obtain ⟨k, hsteal, ⟨hle, htop⟩ | hne⟩ := commit_fail hG (hp _) hfail
    · have hend := lowered_spec (r := r) hi.le
      left
      unfold content Shared.between
      rw [List.length_map, List.length_range, ← hend]
      have hpos := lowered_nonneg ((r.state i).pc o)
      omega
    · exact .inr (overtaken hi hsteal hne)

end Runs

end LockFreeLocalWorkQueue

end ConcurrencySandbox

import ConcurrencySandbox.Interleaving.Termination

/-!
# parallel_find

`parallel_find` of `ParallelAlgorithm`, on the positions `first` to `last` of a range, `equal`
telling whether the element at a position compares equal to the value; the comparison does not
throw. A call on a long range hands its right half to `std::async`, which starts it or leaves it for
`get()`, and does the left half itself: so what runs is a tree of calls, and a step goes along a
path to one that can move. They share the flag `done`.
-/

namespace ConcurrencySandbox

open Interleaving

namespace ParallelFind

/-- A call of `parallel_find_impl`; in `node`, `get` and `leave` one whose halves are calls. -/
inductive Call
  | enter (first last : ℕ)
  -- the loop of a short range
  | test (first last : ℕ)
  | compare (first last : ℕ)
  | exchange (first last : ℕ)
  -- the left half in this call, the right one in its future
  | node (mid last : ℕ) (left right : Call)
  | get (right : Call)
  -- the future is destroyed when the call returns `it`
  | leave (it : ℕ) (right : Call)
  /-- What `std::async` has not started. -/
  | deferred (first last : ℕ)
  | returned (it : ℕ)

structure State where
  done : Bool
  call : Call

def minPerThread : ℕ := 32

variable (equal : ℕ → Bool)

/-- A step of the call itself; `launch` is what `std::async` decides. -/
def stepHere (launch done : Bool) : Call → Option (Bool × Call)
  | .enter first last =>
    let dist := last - first
    if dist < 2 * minPerThread then some (done, .test first last)
    else
      let mid := first + dist / 2
      let right := if launch then .enter mid last else .deferred mid last
      some (done, .node mid last (.enter first mid) right)
  | .test first last =>
    if first ≠ last ∧ done = false then some (done, .compare first last)
    else some (done, .returned last)
  | .compare first last =>
    if equal first then some (done, .exchange first last) else some (done, .test (first + 1) last)
  | .exchange first last =>
    some (true, if done then .test (first + 1) last else .returned first)
  | .node mid _ (.returned it) right =>
    if it ≠ mid then some (done, .leave it right)
    else
      match right with
      | .deferred first last => some (done, .get (.enter first last))
      | right => some (done, .get right)
  | .get (.returned it) => some (done, .returned it)
  | .leave it (.returned _) | .leave it (.deferred ..) => some (done, .returned it)
  | _ => none

/-- A step of the call at the end of the path, to the left (`false`) or to the right (`true`). -/
def step (launch done : Bool) : List Bool → Call → Option (Bool × Call)
  | [], c => stepHere equal launch done c
  | false :: path, .node mid last left right =>
    (step launch done path left).map fun r => (r.1, .node mid last r.2 right)
  | true :: path, .node mid last left right =>
    (step launch done path right).map fun r => (r.1, .node mid last left r.2)
  | true :: path, .get right => (step launch done path right).map fun r => (r.1, .get r.2)
  | true :: path, .leave it right => (step launch done path right).map fun r => (r.1, .leave it r.2)
  | _, _ => none

attribute [elab_as_elim] stepHere.fun_cases_unfolding step.fun_cases_unfolding

/-- `parallel_find(first, last, value)`, with any of its calls moving at any time. -/
def system (first last : ℕ) : System State (List Bool × Bool) where
  init s := s = ⟨false, .enter first last⟩
  step s l := (step equal l.2 s.done l.1 s.call).map fun r => ⟨r.1, r.2⟩

/-- No element is equal to the value, unless one has been found. -/
def Clean (done : Bool) (first last : ℕ) : Prop :=
  done = false → ∀ i, first ≤ i → i < last → equal i = false

/-- What is known of a call on `[first, last)`. -/
def Sound (done : Bool) : ℕ → ℕ → Call → Prop
  | f, l, .enter first last | f, l, .deferred first last => first = f ∧ last = l ∧ f ≤ l
  | f, l, .test first last => last = l ∧ f ≤ first ∧ first ≤ l ∧ Clean equal done f first
  | f, l, .compare first last => last = l ∧ f ≤ first ∧ first < l ∧ Clean equal done f first
  | f, l, .exchange first last =>
    last = l ∧ f ≤ first ∧ first < l ∧ Clean equal done f first ∧ equal first = true
  | f, l, .node mid last left right =>
    last = l ∧ f ≤ mid ∧ mid ≤ l ∧ Sound done f mid left ∧ Sound done mid l right ∧
      ∀ first last, left ≠ .deferred first last
  | f, l, .get right =>
    ∃ mid, f ≤ mid ∧ mid ≤ l ∧ Clean equal done f mid ∧ Sound done mid l right ∧
      ∀ first last, right ≠ .deferred first last
  | f, l, .leave it right =>
    f ≤ it ∧ it < l ∧ equal it = true ∧ ∃ mid, it < mid ∧ mid ≤ l ∧ Sound done mid l right
  | f, l, .returned it =>
    f ≤ it ∧ it ≤ l ∧ (it < l → equal it = true) ∧ (it = l → Clean equal done f l)

/-- The call is to return what it has found, `last` being the end of its range. -/
def Holds : ℕ → Call → Prop
  | _, .node mid last left right => Holds mid left ∨ Holds last right
  | last, .get right => Holds last right
  | _, .leave .. => True
  | last, .returned it => it ≠ last
  | _, _ => False

/-- The steps still to come, at most. -/
def weight : Call → ℕ
  | .enter first last | .deferred first last => if last - first < 32 then 3 * (last - first) + 4
      else 8 * (last - first) - 96
  | .test first last => 3 * (last - first) + 2
  | .compare first last => 3 * (last - first) + 1
  | .exchange first last => 3 * (last - first)
  | .node _ _ left right => weight left + weight right + 3
  | .get right => weight right + 1
  | .leave _ right => weight right + 1
  | .returned _ => 0

variable {equal} {launch done done' : Bool} {f l n : ℕ} {c c' : Call} {path : List Bool}

theorem Clean.mono (h : Clean equal done f l) (hd : done = true → done' = true) :
    Clean equal done' f l := fun hd' => h (by
  cases done
  · rfl
  · rw [hd rfl] at hd'
    cases hd')

theorem Clean.refl : Clean equal done f f := fun _ i h1 h2 => by omega

theorem Clean.trans {m : ℕ} (h : Clean equal done f m) (h' : Clean equal done m l) :
    Clean equal done f l := fun hd i h1 h2 => by
  rcases Nat.lt_or_ge i m with hi | hi
  · exact h hd i h1 hi
  · exact h' hd i hi h2

/-- One more element that is not equal. -/
theorem Clean.succ (h : Clean equal done f n) (hn : done = false → equal n = false) :
    Clean equal done f (n + 1) :=
  h.trans fun hd i h1 h2 => by
    obtain rfl : i = n := by omega
    exact hn hd

/-- What is known stays so when the flag is set. -/
theorem Sound.mono (hd : done = true → done' = true) :
    ∀ {c : Call} {f l : ℕ}, Sound equal done f l c → Sound equal done' f l c := by
  intro c
  induction c with
  | enter first last => exact id
  | deferred first last => exact id
  | test first last => exact fun ⟨h1, h2, h3, h4⟩ => ⟨h1, h2, h3, h4.mono hd⟩
  | compare first last => exact fun ⟨h1, h2, h3, h4⟩ => ⟨h1, h2, h3, h4.mono hd⟩
  | exchange first last => exact fun ⟨h1, h2, h3, h4, h5⟩ => ⟨h1, h2, h3, h4.mono hd, h5⟩
  | node mid last left right ihl ihr =>
    exact fun ⟨h1, h2, h3, h4, h5, h6⟩ => ⟨h1, h2, h3, ihl h4, ihr h5, h6⟩
  | get right ih => exact fun ⟨mid, h1, h2, h3, h4, h5⟩ => ⟨mid, h1, h2, h3.mono hd, ih h4, h5⟩
  | leave it right ih => exact fun ⟨h1, h2, h3, mid, h4, h5, h6⟩ => ⟨h1, h2, h3, mid, h4, h5, ih h6⟩
  | returned it => exact fun ⟨h1, h2, h3, h4⟩ => ⟨h1, h2, h3, fun h => (h4 h).mono hd⟩

/-- What one step keeps: what is known of the calls, and that somebody holds what has been found. -/
structure Kept (equal : ℕ → Bool) (done : Bool) (f l : ℕ) (c : Call) (done' : Bool) (c' : Call) :
    Prop where
  sound : Sound equal done' f l c'
  raised : done = true → done' = true
  holds : Holds l c → Holds l c'
  found : done = false → done' = true → Holds l c'
  weight : weight c' < weight c

theorem Kept.of_same (hs : Sound equal done f l c') (hh : Holds l c → Holds l c')
    (hw : ParallelFind.weight c' < ParallelFind.weight c) : Kept equal done f l c done c' :=
  ⟨hs, id, hh, fun h h' => absurd (h.symm.trans h') nofun, hw⟩

theorem clean_true : Clean equal true f l := nofun

/-- A short range is searched here, a long one is halved. -/
theorem enter_kept {first last : ℕ} (h : Sound equal done f l (.enter first last)) :
    (last - first < 2 * minPerThread →
      Kept equal done f l (.enter first last) done (.test first last)) ∧
    (2 * minPerThread ≤ last - first → ∀ right,
      right = .enter (first + (last - first) / 2) last ∨
        right = .deferred (first + (last - first) / 2) last →
      Kept equal done f l (.enter first last) done
        (.node (first + (last - first) / 2) last (.enter first (first + (last - first) / 2))
        right)) := by
  obtain ⟨rfl, rfl, hle⟩ := h
  refine ⟨fun hd => ?_, fun hd right hright => ?_⟩
  · unfold minPerThread at hd
    refine .of_same ⟨rfl, le_rfl, hle, .refl⟩ id ?_
    simp only [weight]
    split_ifs <;> omega
  · unfold minPerThread at hd
    rcases hright with rfl | rfl
    all_goals
      refine .of_same ⟨rfl, by omega, by omega, ⟨rfl, rfl, by omega⟩,
        ⟨rfl, rfl, by omega⟩, nofun⟩ nofun ?_
      simp only [weight]
      split_ifs <;> omega

theorem stepHere_kept (h : Sound equal done f l c)
    (hst : stepHere equal launch done c = some (done', c')) : Kept equal done f l c done' c' := by
  revert hst
  fun_cases stepHere equal launch done c <;> intro hst <;>
    simp only [Option.some.injEq, Prod.mk.injEq, reduceCtorEq] at hst
  all_goals obtain ⟨rfl, rfl⟩ := hst
  · rename_i hd
    exact (enter_kept h).1 hd
  · rename_i hd _ _
    refine (enter_kept h).2 (Nat.le_of_not_lt hd) _ ?_
    cases launch
    · exact .inr rfl
    · exact .inl rfl
  · rename_i hgo
    obtain ⟨rfl, h1, h2, h3⟩ := h
    refine .of_same ⟨rfl, h1, Nat.lt_of_le_of_ne h2 hgo.1, h3⟩ id ?_
    simp only [weight]
    omega
  · rename_i first last hstop
    obtain ⟨rfl, h1, h2, h3⟩ := h
    refine .of_same ⟨by omega, le_rfl, fun hlt => absurd hlt (Nat.lt_irrefl _),
      fun _ hd => ?_⟩ nofun ?_
    · obtain rfl : first = last := by
        by_contra hne
        exact hstop ⟨hne, hd⟩
      exact h3 hd
    · simp only [weight]
      omega
  · rename_i heq
    obtain ⟨rfl, h1, h2, h3⟩ := h
    refine .of_same ⟨rfl, h1, h2, h3, heq⟩ id ?_
    simp only [weight]
    omega
  · rename_i heq
    obtain ⟨rfl, h1, h2, h3⟩ := h
    refine .of_same ⟨rfl, by omega, h2, h3.succ fun _ => Bool.eq_false_iff.2 heq⟩ id ?_
    simp only [weight]
    omega
  · obtain ⟨rfl, h1, h2, h3, h4⟩ := h
    cases done
    · refine ⟨⟨h1, h2.le, fun _ => h4, fun he => absurd he h2.ne⟩, fun _ => rfl, nofun,
        fun _ _ => h2.ne, ?_⟩
      simp only [weight, Bool.false_eq_true, if_false]
      omega
    · refine ⟨⟨rfl, by omega, h2, clean_true⟩, fun _ => rfl, nofun, nofun, ?_⟩
      simp only [weight, if_true]
      omega
  · rename_i mid last it right hne
    obtain ⟨rfl, h1, h2, ⟨h3, h4, h5, h6⟩, h7, -⟩ := h
    have hlt : it < mid := Nat.lt_of_le_of_ne h4 hne
    refine .of_same ⟨h3, by omega, h5 hlt, mid, hlt, h2, h7⟩ (fun _ => trivial) ?_
    simp only [weight]
    omega
  · rename_i mid last it heq first last'
    obtain rfl : it = mid := not_not.1 heq
    obtain ⟨rfl, h1, h2, ⟨h3, h4, h5, h6⟩, h7, -⟩ := h
    refine .of_same ⟨it, h1, h2, h6 rfl, h7, nofun⟩ ?_ ?_
    · rintro (hh | hh)
      · exact absurd rfl hh
      · exact hh
    · simp only [weight]
      omega
  · rename_i mid last it heq right hright
    obtain rfl : it = mid := not_not.1 heq
    obtain ⟨rfl, h1, h2, ⟨h3, h4, h5, h6⟩, h7, -⟩ := h
    refine .of_same ⟨it, h1, h2, h6 rfl, h7, fun a b => hright a b⟩ ?_ ?_
    · rintro (hh | hh)
      · exact absurd rfl hh
      · exact hh
    · simp only [weight]
      omega
  · obtain ⟨mid, h1, h2, h3, ⟨h4, h5, h6, h7⟩, -⟩ := h
    refine .of_same ⟨by omega, h5, h6, fun he => h3.trans (h7 he)⟩ id ?_
    simp only [weight]
    omega
  · obtain ⟨h1, h2, h3, -⟩ := h
    refine .of_same ⟨h1, h2.le, fun _ => h3, fun he => absurd he h2.ne⟩ (fun _ => h2.ne) ?_
    simp only [weight]
    omega
  · obtain ⟨h1, h2, h3, -⟩ := h
    refine .of_same ⟨h1, h2.le, fun _ => h3, fun he => absurd he h2.ne⟩ (fun _ => h2.ne) ?_
    simp only [weight]
    omega

theorem stepHere_ne_deferred (hst : stepHere equal launch done c = some (done', c'))
    (first last : ℕ) : c' ≠ .deferred first last := by
  revert hst
  fun_cases stepHere equal launch done c <;> intro hst <;>
    simp only [Option.some.injEq, Prod.mk.injEq, reduceCtorEq] at hst
  all_goals obtain ⟨rfl, rfl⟩ := hst
  case case7 => cases done <;> exact nofun
  case case10 hnot => exact nofun
  all_goals exact nofun

theorem step_ne_deferred (hst : step equal launch done path c = some (done', c')) (first last : ℕ) :
    c' ≠ .deferred first last := by
  revert hst
  fun_cases step equal launch done path c <;> intro hst
  · exact stepHere_ne_deferred hst first last
  case case6 => cases hst
  all_goals
    obtain ⟨r, -, he⟩ := Option.map_eq_some_iff.1 hst
    simp only [Prod.mk.injEq] at he
    obtain ⟨-, rfl⟩ := he
    exact nofun

/-- A step of any call keeps what is known of all of them. -/
theorem step_kept (h : Sound equal done f l c)
    (hst : step equal launch done path c = some (done', c')) :
    Kept equal done f l c done' c' := by
  induction c generalizing f l path c' with
  | node mid last left right ihl ihr =>
    match path with
    | [] => exact stepHere_kept h hst
    | false :: path =>
      obtain ⟨r, hr, he⟩ := Option.map_eq_some_iff.1 hst
      cases he
      obtain ⟨rfl, h1, h2, h3, h4, h5⟩ := h
      have hk := ihl h3 hr
      refine ⟨⟨rfl, h1, h2, hk.sound, h4.mono hk.raised, step_ne_deferred hr⟩, hk.raised, ?_,
        fun hd hd' => .inl (hk.found hd hd'), ?_⟩
      · exact Or.imp_left hk.holds
      · have := hk.weight
        simp only [weight]
        omega
    | true :: path =>
      obtain ⟨r, hr, he⟩ := Option.map_eq_some_iff.1 hst
      cases he
      obtain ⟨rfl, h1, h2, h3, h4, h5⟩ := h
      have hk := ihr h4 hr
      refine ⟨⟨rfl, h1, h2, h3.mono hk.raised, hk.sound, h5⟩, hk.raised, ?_,
        fun hd hd' => .inr (hk.found hd hd'), ?_⟩
      · exact Or.imp_right hk.holds
      · have := hk.weight
        simp only [weight]
        omega
  | get right ih =>
    match path with
    | [] => exact stepHere_kept h hst
    | false :: path => cases hst
    | true :: path =>
      obtain ⟨r, hr, he⟩ := Option.map_eq_some_iff.1 hst
      cases he
      obtain ⟨mid, h1, h2, h3, h4, h5⟩ := h
      have hk := ih h4 hr
      refine ⟨⟨mid, h1, h2, h3.mono hk.raised, hk.sound, step_ne_deferred hr⟩, hk.raised, hk.holds,
        hk.found, ?_⟩
      have := hk.weight
      simp only [weight]
      omega
  | leave it right ih =>
    match path with
    | [] => exact stepHere_kept h hst
    | false :: path => cases hst
    | true :: path =>
      obtain ⟨r, hr, he⟩ := Option.map_eq_some_iff.1 hst
      cases he
      obtain ⟨h1, h2, h3, mid, h4, h5, h6⟩ := h
      have hk := ih h6 hr
      refine ⟨⟨h1, h2, h3, mid, h4, h5, hk.sound⟩, hk.raised, fun _ => trivial,
        fun _ _ => trivial, ?_⟩
      have := hk.weight
      simp only [weight]
      omega
  | _ =>
    cases path with
    | nil => exact stepHere_kept h hst
    | cons b path => cases b <;> cases hst

/-- A call that has not returned can go on, or one inside it can. -/
theorem step_enabled (launch done : Bool) (h : Sound equal done f l c)
    (hd : ∀ first last, c ≠ .deferred first last) (hr : ∀ it, c ≠ .returned it) :
    ∃ path, step equal launch done path c ≠ none := by
  have hmap : ∀ {α β : Type} {g : α → β} {o : Option α}, o ≠ none → o.map g ≠ none := fun ho he =>
    ho (Option.map_eq_none_iff.1 he)
  induction c generalizing f l with
  | enter first last =>
    refine ⟨[], ?_⟩
    simp only [step, stepHere]
    split_ifs <;> exact nofun
  | test first last =>
    refine ⟨[], ?_⟩
    simp only [step, stepHere]
    split_ifs <;> exact nofun
  | compare first last =>
    refine ⟨[], ?_⟩
    simp only [step, stepHere]
    split_ifs <;> exact nofun
  | exchange first last => exact ⟨[], nofun⟩
  | deferred first last => exact absurd rfl (hd first last)
  | returned it => exact absurd rfl (hr it)
  | node mid last left right ihl ihr =>
    obtain ⟨rfl, h1, h2, h3, h4, h5⟩ := h
    by_cases hret : ∃ it, left = .returned it
    · obtain ⟨it, rfl⟩ := hret
      refine ⟨[], ?_⟩
      simp only [step, stepHere]
      split_ifs
      · exact nofun
      · cases right <;> exact nofun
    · obtain ⟨path, hpath⟩ := ihl h3 h5 fun it hit => hret ⟨it, hit⟩
      exact ⟨false :: path, hmap hpath⟩
  | get right ih =>
    obtain ⟨mid, h1, h2, h3, h4, h5⟩ := h
    by_cases hret : ∃ it, right = .returned it
    · obtain ⟨it, rfl⟩ := hret
      exact ⟨[], nofun⟩
    · obtain ⟨path, hpath⟩ := ih h4 h5 fun it hit => hret ⟨it, hit⟩
      exact ⟨true :: path, hmap hpath⟩
  | leave it right ih =>
    obtain ⟨h1, h2, h3, mid, h4, h5, h6⟩ := h
    by_cases hret : ∃ it, right = .returned it
    · obtain ⟨it, rfl⟩ := hret
      exact ⟨[], nofun⟩
    by_cases hdef : ∃ first last, right = .deferred first last
    · obtain ⟨first, last, rfl⟩ := hdef
      exact ⟨[], nofun⟩
    obtain ⟨path, hpath⟩ := ih h6 (fun a b hab => hdef ⟨a, b, hab⟩) fun it hit => hret ⟨it, hit⟩
    exact ⟨true :: path, hmap hpath⟩

section Runs

variable {first last i : ℕ}

/-- `it` is what a search for the value may give. -/
def Found (equal : ℕ → Bool) (first last it : ℕ) : Prop :=
  (it = last ↔ ∀ i, first ≤ i → i < last → equal i = false) ∧
    (it ≠ last → first ≤ it ∧ it < last ∧ equal it = true)

/-- What has been found is on its way to the caller. -/
structure Inv (equal : ℕ → Bool) (first last : ℕ) (s : State) : Prop where
  sound : Sound equal s.done first last s.call
  holds : s.done = true → Holds last s.call
  started : ∀ a b, s.call ≠ .deferred a b

theorem inv_reach (hle : first ≤ last) {s : State}
    (h : (system equal first last).Reachable s) : Inv equal first last s := by
  refine System.Reach.induct (P := Inv equal first last) ?_ ?_ h
  · rintro s rfl
    exact ⟨⟨rfl, rfl, hle⟩, nofun, nofun⟩
  · rintro s ⟨path, launch⟩ s' - ⟨hs, hh, -⟩ - hst
    obtain ⟨r, hr, rfl⟩ := Option.map_eq_some_iff.1 hst
    have hk := step_kept hs hr
    refine ⟨hk.sound, fun hd => ?_, step_ne_deferred hr⟩
    cases hdone : s.done
    · exact hk.found hdone hd
    · exact hk.holds (hh hdone)

/-- A result is right, whatever the order of the steps. -/
theorem found_of_inv {s : State} (h : Inv equal first last s) {it : ℕ}
    (hs : s.call = .returned it) : Found equal first last it := by
  obtain ⟨hsound, hholds, -⟩ := h
  rw [hs] at hsound hholds
  obtain ⟨h1, h2, h3, h4⟩ := hsound
  refine ⟨⟨fun he => ?_, fun hall => ?_⟩, fun hne => ?_⟩
  · refine h4 he ?_
    cases hd : s.done
    · rfl
    · exact absurd he (hholds hd)
  · by_contra hne
    have hlt : it < last := Nat.lt_of_le_of_ne h2 hne
    rw [hall it h1 hlt] at h3
    exact absurd (h3 hlt) nofun
  · have hlt : it < last := Nat.lt_of_le_of_ne h2 hne
    exact ⟨h1, hlt, h3 hlt⟩

/-- In every order of the steps the call comes to an end, with `last` if and only if no element is
equal to the value, and else with the place of one that is. -/
theorem parallel_find (hle : first ≤ last) (r : (system equal first last).Run (fun _ _ => True) n) :
    n ≤ weight (.enter first last) ∧
      ((system equal first last).Stuck (r.state n) → ∃ it, (r.state n).call = .returned it) ∧
      ∀ it, (r.state n).call = .returned it → Found equal first last it := by
  have hinv := inv_reach hle (r.reach le_rfl |>.mono fun _ _ _ => trivial)
  refine ⟨?_, fun hstuck => ?_, fun it hit => found_of_inv hinv hit⟩
  · have hlen := r.length_le (m := fun s => weight s.call) (fun s l s' hr _ hst => ?_) n le_rfl
    · rw [r.init] at hlen
      exact (Nat.le_add_right _ _).trans hlen
    · obtain ⟨q, hq, rfl⟩ := Option.map_eq_some_iff.1 hst
      exact (step_kept (inv_reach hle hr).sound hq).weight
  · by_contra hret
    obtain ⟨path, hpath⟩ := step_enabled true (r.state n).done hinv.sound hinv.started
      fun it hit => hret ⟨it, hit⟩
    exact hpath (Option.map_eq_none_iff.1 (hstuck (path, true)))

end Runs

/-- A range that is split. The call on the right half finds one of the two places of the value, and
the one on the left half, which has compared its first element, sees the flag and gives up. -/
theorem parallel_find_split : ∃ r : (system (fun i => i == 5 || i == 33) 0 64).Run
    (fun _ _ => True) 13,
    (r.state 10).done = true ∧
      (r.state 10).call = .node 32 64 (.test 1 32) (.returned 33) ∧
        (r.state 13).call = .returned 33 ∧ Found (fun i => i == 5 || i == 33) 0 64 33 := by
  let as : List (List Bool × Bool) := ([], true) :: List.replicate 3 ([false], true) ++
    List.replicate 6 ([true], true) ++ ([false], true) :: List.replicate 2 ([], true)
  obtain ⟨r, hr⟩ := System.exists_run_through (S := system (fun i => i == 5 || i == 33) 0 64)
    (C := fun _ _ => True) (D := fun _ _ => True) as ([], true) rfl (fun _ _ => id) rfl
  obtain ⟨hdone, hleft⟩ := hr 10 (by decide) (fun s => s.done = true ∧
    s.call = .node 32 64 (.test 1 32) (.returned 33)) ⟨_, rfl, rfl, rfl⟩
  have hret := hr 13 (by decide) (fun s => s.call = .returned 33) ⟨_, rfl, rfl⟩
  exact ⟨r, hdone, hleft, hret, (parallel_find (by decide) r).2.2 33 hret⟩

end ParallelFind

end ConcurrencySandbox

import Mathlib.Logic.Function.Basic
import ConcurrencySandbox.Interleaving.Termination

/-!
# parallel_for_each

`parallel_for_each` of `ParallelAlgorithm`, on the elements at the positions `first` to `last` of a
range; `fn` leaves a new value in the element it is given, and then returns or throws. As in
`parallel_find` a long range is halved, the right half going to `std::async`, which starts it or
leaves it for `get()`; an exception of the left half destroys the future, which waits for a right
half that has been started. `forEach` is the loop of `std::for_each`, which the call is compared
with.
-/

namespace ConcurrencySandbox

open Interleaving

namespace ParallelForEach

variable {α ε : Type}

/-- A call of `parallel_for_each`; in `node`, `get` and `leave` one whose halves are calls. -/
inductive Call (ε : Type)
  | enter (first last : ℕ)
  -- `std::for_each` on a short range
  | each (first last : ℕ)
  -- the left half in this call, the right one in its future
  | node (left right : Call ε)
  | get (right : Call ε)
  -- the future is destroyed as the exception `e` passes
  | leave (e : ε) (right : Call ε)
  /-- What `std::async` has not started. -/
  | deferred (first last : ℕ)
  | returned
  | threw (e : ε)

structure State (α ε : Type) where
  elems : ℕ → α
  call : Call ε

def minPerThread : ℕ := 25

/-- `std::for_each` on the `count` elements from `first`. -/
def forEach (fn : α → α × Option ε) : ℕ → ℕ → (ℕ → α) → (ℕ → α) × Option ε
  | _, 0, elems => (elems, none)
  | first, count + 1, elems =>
    let elems' := Function.update elems first (fn (elems first)).1
    match (fn (elems first)).2 with
    | none => forEach fn (first + 1) count elems'
    | some e => (elems', some e)

variable (fn : α → α × Option ε)

/-- A step of the call itself; `launch` is what `std::async` decides. -/
def stepHere (launch : Bool) (elems : ℕ → α) : Call ε → Option ((ℕ → α) × Call ε)
  | .enter first last =>
    let dist := last - first
    if dist = 0 then some (elems, .returned)
    else if dist < 2 * minPerThread then some (elems, .each first last)
    else
      let mid := first + dist / 2
      let right := if launch then .enter mid last else .deferred mid last
      some (elems, .node (.enter first mid) right)
  | .each first last =>
    if first = last then some (elems, .returned)
    else
      some (Function.update elems first (fn (elems first)).1,
        match (fn (elems first)).2 with
        | none => .each (first + 1) last
        | some e => .threw e)
  | .node .returned (.deferred first last) => some (elems, .get (.enter first last))
  | .node .returned right => some (elems, .get right)
  | .node (.threw e) right => some (elems, .leave e right)
  | .get .returned => some (elems, .returned)
  | .get (.threw e) => some (elems, .threw e)
  -- what comes out of a half that nobody waits for is dropped
  | .leave e .returned | .leave e (.threw _) | .leave e (.deferred ..) => some (elems, .threw e)
  | _ => none

/-- A step of the call at the end of the path, to the left (`false`) or to the right (`true`). -/
def step (launch : Bool) (elems : ℕ → α) : List Bool → Call ε → Option ((ℕ → α) × Call ε)
  | [], c => stepHere fn launch elems c
  | false :: path, .node left right =>
    (step launch elems path left).map fun r => (r.1, .node r.2 right)
  | true :: path, .node left right =>
    (step launch elems path right).map fun r => (r.1, .node left r.2)
  | true :: path, .get right => (step launch elems path right).map fun r => (r.1, .get r.2)
  | true :: path, .leave e right => (step launch elems path right).map fun r => (r.1, .leave e r.2)
  | _, _ => none

/-- `parallel_for_each(first, first + count, fn)` on the elements `before`, with any of its calls
moving at any time. -/
def system (first count : ℕ) (before : ℕ → α) : System (State α ε) (List Bool × Bool) where
  init s := s = ⟨before, .enter first (first + count)⟩
  step s l := (step fn l.2 s.elems l.1 s.call).map fun r => ⟨r.1, r.2⟩

/-- The steps still to come, at most. -/
def weight : Call ε → ℕ
  | .enter first last | .deferred first last =>
    if last - first < 50 then last - first + 2 else 2 * (last - first) - 3
  | .each first last => last - first + 1
  | .node left right => weight left + weight right + 2
  | .get right => weight right + 1
  | .leave _ right => weight right + 1
  | .returned | .threw _ => 0

variable (before : ℕ → α)

/-- `fn` has been applied to the elements of `[f, l)`, once to each, and has returned. -/
def Applied (elems : ℕ → α) (f l : ℕ) : Prop :=
  ∀ i, f ≤ i → i < l → elems i = (fn (before i)).1 ∧ (fn (before i)).2 = none

/-- No element of `[f, l)` has been reached. -/
def Untouched (elems : ℕ → α) (f l : ℕ) : Prop := ∀ i, f ≤ i → i < l → elems i = before i

/-- The exception `e` is that of the first element of `[f, l)` that has one. -/
def Thrown (elems : ℕ → α) (e : ε) (f l : ℕ) : Prop :=
  ∃ x, f ≤ x ∧ x < l ∧ Applied fn before elems f x ∧ elems x = (fn (before x)).1 ∧
    (fn (before x)).2 = some e

/-- What is known of a call on `[f, l)`. -/
def Sound (elems : ℕ → α) : ℕ → ℕ → Call ε → Prop
  | f, l, .enter first last | f, l, .deferred first last =>
    first = f ∧ last = l ∧ f ≤ l ∧ Untouched before elems f l
  | f, l, .each first last =>
    last = l ∧ f ≤ first ∧ first ≤ l ∧ Applied fn before elems f first ∧
    Untouched before elems first l
  | f, l, .node left right =>
    (∀ first last, left ≠ .deferred first last) ∧
      ∃ mid, f ≤ mid ∧ mid ≤ l ∧ Sound elems f mid left ∧ Sound elems mid l right
  | f, l, .get right =>
    (∀ first last, right ≠ .deferred first last) ∧
      ∃ mid, f ≤ mid ∧ mid ≤ l ∧ Applied fn before elems f mid ∧ Sound elems mid l right
  | f, l, .leave e right =>
    ∃ mid, f ≤ mid ∧ mid ≤ l ∧ Thrown fn before elems e f mid ∧ Sound elems mid l right
  | f, l, .returned => f ≤ l ∧ Applied fn before elems f l
  | f, l, .threw e => Thrown fn before elems e f l

variable {fn before} {launch : Bool} {elems elems' : ℕ → α} {f l m n : ℕ} {e : ε} {c c' : Call ε}
  {path : List Bool}

/-! ## What is known is of the call's own elements -/

section Frame

variable (h : ∀ i, f ≤ i → i < l → elems' i = elems i)

include h

theorem Applied.congr (ha : Applied fn before elems f l) : Applied fn before elems' f l :=
  fun i h1 h2 => ⟨(h i h1 h2).trans (ha i h1 h2).1, (ha i h1 h2).2⟩

theorem Untouched.congr (hu : Untouched before elems f l) : Untouched before elems' f l :=
  fun i h1 h2 => (h i h1 h2).trans (hu i h1 h2)

theorem Thrown.congr (ht : Thrown fn before elems e f l) : Thrown fn before elems' e f l := by
  obtain ⟨x, h1, h2, h3, h4, h5⟩ := ht
  exact ⟨x, h1, h2, h3.congr fun i hi hx => h i hi (hx.trans h2), (h x h1 h2).trans h4, h5⟩

end Frame

theorem Sound.congr (h : ∀ i, f ≤ i → i < l → elems' i = elems i)
    (hs : Sound fn before elems f l c) : Sound fn before elems' f l c := by
  induction c generalizing f l with
  | enter first last | deferred first last =>
    obtain ⟨h1, h2, h3, h4⟩ := hs
    exact ⟨h1, h2, h3, h4.congr h⟩
  | each first last =>
    obtain ⟨h1, h2, h3, h4, h5⟩ := hs
    exact ⟨h1, h2, h3, h4.congr fun i hi hx => h i hi (by omega),
      h5.congr fun i hi hx => h i (by omega) hx⟩
  | node left right ihl ihr =>
    obtain ⟨hd, mid, h1, h2, h3, h4⟩ := hs
    exact ⟨hd, mid, h1, h2, ihl (fun i hi hx => h i hi (by omega)) h3,
      ihr (fun i hi hx => h i (by omega) hx) h4⟩
  | get right ih =>
    obtain ⟨hd, mid, h1, h2, h3, h4⟩ := hs
    exact ⟨hd, mid, h1, h2, h3.congr fun i hi hx => h i hi (by omega),
      ih (fun i hi hx => h i (by omega) hx) h4⟩
  | leave e right ih =>
    obtain ⟨mid, h1, h2, h3, h4⟩ := hs
    exact ⟨mid, h1, h2, h3.congr fun i hi hx => h i hi (by omega),
      ih (fun i hi hx => h i (by omega) hx) h4⟩
  | returned => exact ⟨hs.1, hs.2.congr h⟩
  | threw e => exact Thrown.congr h hs

theorem Sound.le (hs : Sound fn before elems f l c) : f ≤ l := by
  cases c with
  | enter first last | deferred first last => exact hs.2.2.1
  | each first last => exact hs.2.1.trans hs.2.2.1
  | node left right =>
    obtain ⟨-, mid, h1, h2, -⟩ := hs
    exact h1.trans h2
  | get right =>
    obtain ⟨-, mid, h1, h2, -⟩ := hs
    exact h1.trans h2
  | leave e right =>
    obtain ⟨mid, h1, h2, -⟩ := hs
    exact h1.trans h2
  | returned => exact hs.1
  | threw e =>
    obtain ⟨x, h1, h2, -⟩ := hs
    exact (h1.trans_lt h2).le

/-! ## What is known is of the halves put together -/

theorem Applied.trans (h : Applied fn before elems f m) (h' : Applied fn before elems m l) :
    Applied fn before elems f l := fun i h1 h2 => by
  rcases Nat.lt_or_ge i m with hi | hi
  · exact h i h1 hi
  · exact h' i hi h2

theorem Applied.refl : Applied fn before elems f f := fun _ h1 h2 => by omega

theorem Thrown.left (h : Thrown fn before elems e f m) (hle : m ≤ l) :
    Thrown fn before elems e f l := by
  obtain ⟨x, h1, h2, h3⟩ := h
  exact ⟨x, h1, h2.trans_le hle, h3⟩

theorem Thrown.right (h : Thrown fn before elems e m l) (ha : Applied fn before elems f m)
    (hle : f ≤ m) : Thrown fn before elems e f l := by
  obtain ⟨x, h1, h2, h3, h4⟩ := h
  exact ⟨x, hle.trans h1, h2, ha.trans h3, h4⟩

/-- `std::for_each` takes one element further. -/
theorem each_step (hn : n < l) (ha : Applied fn before elems f n)
    (hu : Untouched before elems n l) (hels : elems' = Function.update elems n (fn (elems n)).1) :
    Untouched before elems' (n + 1) l ∧ elems' n = (fn (before n)).1 ∧
      Applied fn before elems' f n := by
  subst hels
  refine ⟨fun i h1 h2 => ?_, ?_, ha.congr fun i _ h2 => Function.update_of_ne h2.ne _ _⟩
  · rw [Function.update_of_ne (by omega)]
    exact hu i (by omega) h2
  · rw [Function.update_self, hu n le_rfl hn]

/-- What one step keeps: what is known of the calls, and of the elements all but one that has not
been reached. -/
structure Kept (fn : α → α × Option ε) (before elems : ℕ → α) (f l : ℕ)
    (c : Call ε) (elems' : ℕ → α)
    (c' : Call ε) : Prop where
  sound : Sound fn before elems' f l c'
  started : ∀ first last, c' ≠ .deferred first last
  elems : elems' = elems ∨ ∃ i, f ≤ i ∧ i < l ∧ elems i = before i ∧
    elems' = Function.update elems i (fn (before i)).1
  weight : weight c' < weight c

theorem Kept.outside (h : Kept fn before elems f l c elems' c') {i : ℕ} (hi : i < f ∨ l ≤ i) :
    elems' i = elems i := by
  rcases h.elems with rfl | ⟨j, h1, h2, -, rfl⟩
  · rfl
  · exact Function.update_of_ne (by omega) _ _

theorem Kept.of_same (hs : Sound fn before elems f l c')
    (hd : ∀ first last, c' ≠ .deferred first last)
    (hw : ParallelForEach.weight c' < ParallelForEach.weight c) :
    Kept fn before elems f l c elems c' := ⟨hs, hd, .inl rfl, hw⟩

/-- An empty range is done, a short one is gone through here, a long one is halved. -/
theorem enter_kept {first last : ℕ} (h : Sound fn before elems f l (.enter first last)) :
    (last - first = 0 → Kept fn before elems f l (.enter first last) elems .returned) ∧
    (last - first < 2 * minPerThread →
      Kept fn before elems f l (.enter first last) elems (.each first last)) ∧
    (2 * minPerThread ≤ last - first → ∀ right,
      right = .enter (first + (last - first) / 2) last ∨
        right = .deferred (first + (last - first) / 2) last →
      Kept fn before elems f l (.enter first last) elems
        (.node (.enter first (first + (last - first) / 2)) right)) := by
  obtain ⟨rfl, rfl, hle, hu⟩ := h
  unfold minPerThread
  refine ⟨fun hd => ?_, fun hd => ?_, fun hd right hright => ?_⟩
  · obtain rfl : first = last := by omega
    refine .of_same ⟨le_rfl, .refl⟩ nofun ?_
    simp only [weight]
    split_ifs <;> omega
  · refine .of_same ⟨rfl, le_rfl, hle, .refl, hu⟩ nofun ?_
    simp only [weight]
    split_ifs <;> omega
  · have hl : Untouched before elems first (first + (last - first) / 2) :=
      fun i h1 h2 => hu i h1 (by omega)
    have hr : Untouched before elems (first + (last - first) / 2) last :=
      fun i h1 h2 => hu i (by omega) h2
    rcases hright with rfl | rfl
    all_goals
      refine .of_same ⟨nofun, _, by omega, by omega, ⟨rfl, rfl, by omega, hl⟩,
        rfl, rfl, by omega, hr⟩ nofun ?_
      simp only [weight]
      split_ifs <;> omega

/-- `fn` on one element returns, and the loop goes on, or throws. -/
theorem each_kept {first last : ℕ} (h : Sound fn before elems f l (.each first last))
    (hne : first ≠ last) :
    ((fn (elems first)).2 = none → Kept fn before elems f l (.each first last)
      (Function.update elems first (fn (elems first)).1) (.each (first + 1) last)) ∧
    (∀ e, (fn (elems first)).2 = some e → Kept fn before elems f l (.each first last)
      (Function.update elems first (fn (elems first)).1) (.threw e)) := by
  obtain ⟨rfl, h1, h2, ha, hu⟩ := h
  have hlt : first < last := Nat.lt_of_le_of_ne h2 hne
  obtain ⟨hu', hn, ha'⟩ := each_step hlt ha hu rfl
  rw [hu first le_rfl hlt] at hn hu' ha' ⊢
  have hels : Function.update elems first (fn (before first)).1 = elems ∨
      ∃ i, f ≤ i ∧ i < last ∧ elems i = before i ∧
        Function.update elems first (fn (before first)).1 =
          Function.update elems i (fn (before i)).1 :=
          .inr ⟨first, h1, hlt, hu first le_rfl hlt, rfl⟩
  refine ⟨fun hret => ⟨⟨rfl, by omega, hlt, ha'.trans fun i hi hi' => ?_, hu'⟩, nofun, hels, ?_⟩,
    fun e he => ⟨⟨first, h1, hlt, ha', hn, he⟩, nofun, hels, ?_⟩⟩
  · obtain rfl : i = first := by omega
    exact ⟨hn, hret⟩
  · simp only [weight]
    omega
  · simp only [weight]
    omega

theorem stepHere_kept (h : Sound fn before elems f l c)
    (hst : stepHere fn launch elems c = some (elems', c')) :
    Kept fn before elems f l c elems' c' := by
  revert hst
  fun_cases stepHere fn launch elems c <;> intro hst <;> cases hst
  case case1 hd => exact (enter_kept h).1 hd
  case case2 hd => exact (enter_kept h).2.1 hd
  case case3 hd _ _ =>
    refine (enter_kept h).2.2 (Nat.le_of_not_lt hd) _ ?_
    cases launch
    · exact .inr rfl
    · exact .inl rfl
  case case4 =>
    refine .of_same ⟨h.le, ?_⟩ nofun ?_
    · obtain ⟨rfl, -, -, ha, -⟩ := h
      exact ha
    · simp only [weight]
      omega
  case case5 hne =>
    cases hret : (fn (elems _)).2 with
    | none => exact (each_kept h hne).1 hret
    | some e => exact (each_kept h hne).2 e hret
  case case6 =>
    obtain ⟨-, mid, h1, h2, ⟨-, ha⟩, hr⟩ := h
    refine .of_same ⟨nofun, mid, h1, h2, ha, hr⟩ nofun ?_
    simp only [weight]
    omega
  case case7 hright =>
    obtain ⟨-, mid, h1, h2, ⟨-, ha⟩, hr⟩ := h
    refine .of_same ⟨hright, mid, h1, h2, ha, hr⟩ nofun ?_
    simp only [weight]
    omega
  case case8 =>
    obtain ⟨-, mid, h1, h2, ht, hr⟩ := h
    refine .of_same ⟨mid, h1, h2, ht, hr⟩ nofun ?_
    simp only [weight]
    omega
  case case9 =>
    obtain ⟨-, mid, h1, h2, ha, -, hr⟩ := h
    refine .of_same ⟨h1.trans h2, ha.trans hr⟩ nofun ?_
    simp only [weight]
    omega
  case case10 =>
    obtain ⟨-, mid, h1, h2, ha, ht⟩ := h
    refine .of_same (Thrown.right ht ha h1) nofun ?_
    simp only [weight]
    omega
  all_goals
    obtain ⟨mid, h1, h2, ht, -⟩ := h
    refine .of_same (ht.left h2) nofun ?_
    simp only [weight]
    omega

/-- A step of a call inside another, on `[f', l')` of its `[f, l)`. -/
theorem Kept.inside {f' l' : ℕ} {d d' : Call ε} (h : Kept fn before elems f' l' c elems' c')
    (hf : f ≤ f') (hl : l' ≤ l) (hs : Sound fn before elems' f l d')
    (hd : ∀ first last, d' ≠ .deferred first last)
    (hw : ParallelForEach.weight c' < ParallelForEach.weight c →
      ParallelForEach.weight d' < ParallelForEach.weight d) :
    Kept fn before elems f l d elems' d' :=
  ⟨hs, hd, h.elems.imp_right fun ⟨i, h1, h2, h3⟩ => ⟨i, hf.trans h1, h2.trans_le hl, h3⟩,
    hw h.weight⟩

/-- A step of any call keeps what is known of all of them. -/
theorem step_kept (h : Sound fn before elems f l c)
    (hst : step fn launch elems path c = some (elems', c')) :
    Kept fn before elems f l c elems' c' := by
  induction c generalizing f l path c' with
  | node left right ihl ihr =>
    match path with
    | [] => exact stepHere_kept h hst
    | false :: path =>
      obtain ⟨r, hr, he⟩ := Option.map_eq_some_iff.1 hst
      cases he
      obtain ⟨-, mid, h1, h2, h3, h4⟩ := h
      have hk := ihl h3 hr
      refine hk.inside le_rfl h2 ⟨hk.started, mid, h1, h2, hk.sound, h4.congr fun i hi _ =>
        hk.outside (.inr hi)⟩ nofun fun hw => ?_
      simp only [weight]
      omega
    | true :: path =>
      obtain ⟨r, hr, he⟩ := Option.map_eq_some_iff.1 hst
      cases he
      obtain ⟨hd, mid, h1, h2, h3, h4⟩ := h
      have hk := ihr h4 hr
      refine hk.inside h1 le_rfl ⟨hd, mid, h1, h2, h3.congr fun i _ hi => hk.outside (.inl hi),
        hk.sound⟩ nofun fun hw => ?_
      simp only [weight]
      omega
  | get right ih =>
    match path with
    | [] => exact stepHere_kept h hst
    | false :: path => cases hst
    | true :: path =>
      obtain ⟨r, hr, he⟩ := Option.map_eq_some_iff.1 hst
      cases he
      obtain ⟨-, mid, h1, h2, ha, h4⟩ := h
      have hk := ih h4 hr
      refine hk.inside h1 le_rfl ⟨hk.started, mid, h1, h2, ha.congr fun i _ hi =>
        hk.outside (.inl hi), hk.sound⟩ nofun fun hw => ?_
      simp only [weight]
      omega
  | leave e right ih =>
    match path with
    | [] => exact stepHere_kept h hst
    | false :: path => cases hst
    | true :: path =>
      obtain ⟨r, hr, he⟩ := Option.map_eq_some_iff.1 hst
      cases he
      obtain ⟨mid, h1, h2, ht, h4⟩ := h
      have hk := ih h4 hr
      refine hk.inside h1 le_rfl ⟨mid, h1, h2, ht.congr fun i _ hi => hk.outside (.inl hi),
        hk.sound⟩ nofun fun hw => ?_
      simp only [weight]
      omega
  | _ =>
    cases path with
    | nil => exact stepHere_kept h hst
    | cons b path => cases b <;> cases hst

/-- A call that has come to its end. -/
def Ended (c : Call ε) : Prop := c = .returned ∨ ∃ e, c = .threw e

/-- A call that has not ended can go on, or one inside it can. -/
theorem step_enabled (fn : α → α × Option ε) (launch : Bool) (elems : ℕ → α)
    (h : Sound fn before elems f l c) (hd : ∀ first last, c ≠ .deferred first last)
    (he : ¬ Ended c) : ∃ path, step fn launch elems path c ≠ none := by
  have hmap : ∀ {β γ : Type} {g : β → γ} {o : Option β}, o ≠ none → o.map g ≠ none := fun ho he =>
    ho (Option.map_eq_none_iff.1 he)
  induction c generalizing f l with
  | enter first last =>
    refine ⟨[], ?_⟩
    simp only [step, stepHere]
    split_ifs <;> exact nofun
  | each first last =>
    refine ⟨[], ?_⟩
    simp only [step, stepHere]
    split_ifs <;> exact nofun
  | deferred first last => exact absurd rfl (hd first last)
  | returned => exact absurd (.inl rfl) he
  | threw e => exact absurd (.inr ⟨e, rfl⟩) he
  | node left right ihl ihr =>
    obtain ⟨hld, mid, h1, h2, h3, h4⟩ := h
    by_cases hleft : Ended left
    · refine ⟨[], ?_⟩
      rcases hleft with rfl | ⟨e, rfl⟩
      · cases right <;> exact nofun
      · exact nofun
    · obtain ⟨path, hpath⟩ := ihl h3 hld hleft
      exact ⟨false :: path, hmap hpath⟩
  | get right ih =>
    obtain ⟨hrd, mid, h1, h2, h3, h4⟩ := h
    by_cases hright : Ended right
    · refine ⟨[], ?_⟩
      rcases hright with rfl | ⟨e, rfl⟩ <;> exact nofun
    · obtain ⟨path, hpath⟩ := ih h4 hrd hright
      exact ⟨true :: path, hmap hpath⟩
  | leave e right ih =>
    obtain ⟨mid, h1, h2, h3, h4⟩ := h
    by_cases hright : Ended right
    · refine ⟨[], ?_⟩
      rcases hright with rfl | ⟨e, rfl⟩ <;> exact nofun
    by_cases hdef : ∃ first last, right = .deferred first last
    · obtain ⟨first, last, rfl⟩ := hdef
      exact ⟨[], nofun⟩
    obtain ⟨path, hpath⟩ := ih h4 (fun a b hab => hdef ⟨a, b, hab⟩) hright
    exact ⟨true :: path, hmap hpath⟩

/-! ## The loop of `std::for_each` -/

/-- The elements once `fn` has been applied to those of `[f, l)`. -/
def after (fn : α → α × Option ε) (before : ℕ → α) (f l : ℕ) : ℕ → α :=
  fun i => if f ≤ i ∧ i < l then (fn (before i)).1 else before i

theorem after_succ (fn : α → α × Option ε) (before : ℕ → α) (h : f < l) :
    after fn (Function.update before f (fn (before f)).1) (f + 1) l = after fn before f l := by
  funext i
  unfold after
  rcases eq_or_ne i f with rfl | hne
  · rw [if_neg (by omega), if_pos ⟨le_rfl, h⟩, Function.update_self]
  · rw [Function.update_of_ne hne]
    exact if_congr (by omega) rfl rfl

/-- As long as `fn` does not throw, the loop goes on. -/
theorem forEach_add (fn : α → α × Option ε) (k m : ℕ) : ∀ (f : ℕ) (before : ℕ → α),
    (∀ i, f ≤ i → i < f + k → (fn (before i)).2 = none) →
    forEach fn f (k + m) before = forEach fn (f + k) m (after fn before f (f + k)) := by
  induction k with
  | zero =>
    intro f before _
    have hsame : after fn before f (f + 0) = before := funext fun i => if_neg (by omega)
    rw [hsame, Nat.zero_add, Nat.add_zero]
  | succ k ih =>
    intro f before h
    have hne : (fn (before f)).2 = none := h f le_rfl (by omega)
    rw [show k + 1 + m = (k + m) + 1 by omega, forEach, hne]
    rw [ih (f + 1) _ fun i hi hl => ?_]
    · rw [show f + 1 + k = f + (k + 1) by omega, after_succ fn before (by omega)]
    · rw [Function.update_of_ne (by omega)]
      exact h i (by omega) (by omega)

/-! ## Runs -/

section Runs

variable {first count : ℕ}

structure Inv (fn : α → α × Option ε) (first count : ℕ) (before : ℕ → α)
    (s : State α ε) : Prop where
  sound : Sound fn before s.elems first (first + count) s.call
  started : ∀ a b, s.call ≠ .deferred a b
  once : ∀ i, s.elems i = before i ∨
    first ≤ i ∧ i < first + count ∧ s.elems i = (fn (before i)).1

theorem inv_reach {s : State α ε} (h : (system fn first count before).Reachable s) :
    Inv fn first count before s := by
  refine System.Reach.induct (P := Inv fn first count before) ?_ ?_ h
  · rintro s rfl
    exact ⟨⟨rfl, rfl, Nat.le_add_right _ _, fun _ _ _ => rfl⟩, nofun, fun _ => .inl rfl⟩
  · rintro s ⟨path, launch⟩ s' - ⟨hs, -, ho⟩ - hst
    obtain ⟨⟨elems', c'⟩, hr, rfl⟩ := Option.map_eq_some_iff.1 hst
    have hk := step_kept hs hr
    refine ⟨hk.sound, hk.started, fun i => ?_⟩
    rcases hk.elems with he | ⟨j, h1, h2, -, he⟩
    · change elems' = s.elems at he
      subst he
      exact ho i
    · change elems' = _ at he
      subst he
      rcases eq_or_ne i j with rfl | hne
      · exact .inr ⟨h1, h2, Function.update_self ..⟩
      · simpa only [Function.update_of_ne hne] using ho i

/-- What the caller is told agrees with `std::for_each`, on elements that `fn` has seen once at
most. -/
structure Agrees (fn : α → α × Option ε) (first count : ℕ) (before : ℕ → α) (s : State α ε) :
    Prop where
  once : ∀ i, s.elems i = before i ∨
    first ≤ i ∧ i < first + count ∧ s.elems i = (fn (before i)).1
  returned : s.call = .returned → forEach fn first count before = (s.elems, none)
  /-- The exception is the one of the loop, whose work has been done too. -/
  threw : ∀ e, s.call = .threw e → (forEach fn first count before).2 = some e ∧
    ∀ i, (forEach fn first count before).1 i = before i ∨
      (forEach fn first count before).1 i = s.elems i

theorem Inv.agrees {s : State α ε} (h : Inv fn first count before s) :
    Agrees fn first count before s := by
  obtain ⟨hs, -, ho⟩ := h
  refine ⟨ho, fun hret => ?_, fun e he => ?_⟩
  · rw [hret] at hs
    rw [← Nat.add_zero count, forEach_add fn count 0 first before fun i h1 h2 => (hs.2 i h1 h2).2]
    refine Prod.ext (funext fun i => ?_) rfl
    change after fn before first (first + count) i = _
    unfold after
    split_ifs with hi
    · exact (hs.2 i hi.1 hi.2).1.symm
    · exact ((ho i).resolve_right fun h => hi ⟨h.1, h.2.1⟩).symm
  · rw [he] at hs
    obtain ⟨x, h1, h2, ha, hx, hex⟩ := hs
    obtain ⟨k, rfl⟩ := Nat.exists_eq_add_of_le h1
    obtain ⟨m, rfl⟩ : ∃ m, count = k + (m + 1) := ⟨count - k - 1, by omega⟩
    have hk : after fn before first (first + k) (first + k) = before (first + k) :=
      if_neg (by omega)
    have hloop : forEach fn first (k + (m + 1)) before =
        (Function.update (after fn before first (first + k)) (first + k)
        (fn (before (first + k))).1,
          some e) := by
      rw [forEach_add fn k (m + 1) first before fun i h1 h2 => (ha i h1 h2).2, forEach, hk, hex]
    rw [hloop]
    refine ⟨rfl, fun i => ?_⟩
    change Function.update _ _ _ i = _ ∨ Function.update _ _ _ i = _
    rcases eq_or_ne i (first + k) with rfl | hne
    · rw [Function.update_self]
      exact .inr hx.symm
    rw [Function.update_of_ne hne]
    unfold after
    split_ifs with hi
    · exact .inr (ha i hi.1 hi.2).1.symm
    · exact .inl rfl

/-- In every order of the steps the call comes to an end, and to the end of `std::for_each`: it
returns if the loop does, with the same elements, and else throws what the loop throws. -/
theorem parallel_for_each (r : (system fn first count before).Run (fun _ _ => True) n) :
    n ≤ 2 * count + 2 ∧
      ((system fn first count before).Stuck (r.state n) → Ended (r.state n).call) ∧
      Agrees fn first count before (r.state n) := by
  have hinv := inv_reach (r.reach le_rfl |>.mono fun _ _ _ => trivial)
  refine ⟨?_, fun hstuck => ?_, hinv.agrees⟩
  · have hlen := r.length_le (m := fun s => weight s.call) (fun s l s' hr _ hst => ?_) n le_rfl
    · have hw : weight (ε := ε) (.enter first (first + count)) ≤ 2 * count + 2 := by
        simp only [weight]
        split_ifs <;> omega
      rw [r.init] at hlen
      exact (Nat.le_add_right _ _).trans (hlen.trans hw)
    · obtain ⟨q, hq, rfl⟩ := Option.map_eq_some_iff.1 hst
      exact (step_kept (inv_reach hr).sound hq).weight
  · by_contra hend
    obtain ⟨path, hpath⟩ := step_enabled fn true (r.state n).elems hinv.sound hinv.started hend
    exact hpath (Option.map_eq_none_iff.1 (hstuck (path, true)))

end Runs

end ParallelForEach

end ConcurrencySandbox

import Mathlib.Logic.Function.Basic
import Mathlib.Order.Nat
import Mathlib.Tactic.Common

/-!
# Interleaved programs and what holds along their runs

A `System` steps under labels; a `Program` is what every thread runs, one atomic step at a time, on
a shared state, and `Program.system` lets any threads take turns. A step condition `C` says which
steps a run may take (`Reach`, `Run`); `fun _ _ => True` allows them all.

`Reach.induct` carries an invariant along a run; `Program.invariant` does it thread by thread.
`Run.since` is the rule for a call: what a call has not yet seen since it began, its thread's
invariant still accounts for. `exec` computes where a list of steps leads, and `exists_run_any`
makes a run of it.
-/

namespace Interleaving

variable {σ α : Type*}

/-- A transition system; a label that is not enabled gives no next state. -/
structure System (σ α : Type*) where
  init : σ → Prop
  step : σ → α → Option σ

namespace System

variable (S : System σ α) (C : σ → α → Prop)

/-- The states reached by steps that meet `C`. -/
inductive Reach : σ → Prop
  | init {s : σ} : S.init s → Reach s
  | step {s s' : σ} {a : α} : Reach s → C s a → S.step s a = some s' → Reach s'

/-- The states of a run, with no condition on its steps. -/
abbrev Reachable : σ → Prop := S.Reach fun _ _ => True

/-- `n` steps that meet `C`, with every state on the way. -/
structure Run (n : ℕ) where
  state : ℕ → σ
  label : ℕ → α
  init : S.init (state 0)
  meets : ∀ i < n, C (state i) (label i)
  step : ∀ i < n, S.step (state i) (label i) = some (state (i + 1))

/-- The state after a list of labels. -/
def exec : σ → List α → Option σ
  | s, [] => some s
  | s, a :: as => (S.step s a).bind fun s' => exec s' as

/-- The same, as long as every step meets `C`. -/
def execIf [∀ s a, Decidable (C s a)] : σ → List α → Option σ
  | s, [] => some s
  | s, a :: as => if C s a then (S.step s a).bind fun s' => execIf s' as else none

variable {S C}

theorem Reach.induct {P : σ → Prop} (h0 : ∀ s, S.init s → P s)
    (hs : ∀ s a s', S.Reach C s → P s → C s a → S.step s a = some s' → P s') {s : σ}
    (h : S.Reach C s) : P s := by
  induction h with
  | init h => exact h0 _ h
  | step hr hc hst ih => exact hs _ _ _ hr ih hc hst

theorem Reach.mono {D : σ → α → Prop} (hCD : ∀ s a, C s a → D s a) {s : σ} (h : S.Reach C s) :
    S.Reach D s := by
  induction h with
  | init h => exact .init h
  | step _ hc hst ih => exact .step ih (hCD _ _ hc) hst

/-- Executing labels stays within `Reach C` when every step on the way meets `C`. -/
theorem Reach.exec {s s' : σ} {as : List α} (hs : S.Reach C s) (h : S.exec s as = some s')
    (hC : ∀ i (hi : i < as.length) s₁, S.exec s (as.take i) = some s₁ → C s₁ as[i]) :
    S.Reach C s' := by
  induction as generalizing s with
  | nil => simp only [System.exec, Option.some.injEq] at h; exact h ▸ hs
  | cons a as ih =>
    simp only [System.exec, Option.bind_eq_some_iff] at h
    obtain ⟨s₁, h1, h2⟩ := h
    refine ih (.step hs (hC 0 (by simp) s rfl) h1) h2 fun i hi s₂ h3 => ?_
    refine hC (i + 1) (by simpa using hi) s₂ ?_
    simpa only [List.take_succ_cons, System.exec, h1, Option.bind_some] using h3

theorem Reachable.exec {s s' : σ} {as : List α} (hs : S.Reachable s)
    (h : S.exec s as = some s') : S.Reachable s' :=
  Reach.exec hs h fun _ _ _ _ => trivial

theorem exists_reachable {s : σ} {as : List α} {P : σ → Bool} (h0 : S.init s)
    (h : (S.exec s as).any P = true) : ∃ s', S.Reachable s' ∧ P s' = true := by
  obtain ⟨s', hs', hP⟩ := (Option.any_eq_true _ _).1 h
  exact ⟨s', Reachable.exec (.init h0) hs', hP⟩

theorem exec_append {s : σ} {as bs : List α} :
    S.exec s (as ++ bs) = (S.exec s as).bind fun s' => S.exec s' bs := by
  induction as generalizing s with
  | nil => rfl
  | cons a as ih =>
    simp only [List.cons_append, System.exec]
    cases S.step s a with
    | none => rfl
    | some s' => exact ih

/-- Executing labels whose steps meet `C` is a run. -/
theorem exists_run {s s' : σ} {as : List α} (a : α) (h0 : S.init s) (h : S.exec s as = some s')
    (hC : ∀ i (hi : i < as.length) s₁, S.exec s (as.take i) = some s₁ → C s₁ as[i]) :
    ∃ r : S.Run C as.length, (∀ i ≤ as.length, S.exec s (as.take i) = some (r.state i)) ∧
      ∀ i (hi : i < as.length), r.label i = as[i] := by
  have hpre : ∀ i ≤ as.length, ∃ s₁, S.exec s (as.take i) = some s₁ := fun i _ => by
    rw [← List.take_append_drop i as, exec_append, Option.bind_eq_some_iff] at h
    obtain ⟨s₁, h1, -⟩ := h
    exact ⟨s₁, h1⟩
  have : Nonempty σ := ⟨s⟩
  choose! f hf using hpre
  refine ⟨⟨f, fun i => as.getD i a, ?_, fun i hi => ?_, fun i hi => ?_⟩, hf,
    fun i hi => by simp [hi]⟩
  · have := hf 0 (Nat.zero_le _)
    rw [List.take_zero, System.exec, Option.some.injEq] at this
    exact this ▸ h0
  · rw [show as.getD i a = as[i] by simp [hi]]
    exact hC i hi _ (hf i hi.le)
  · have h1 := hf (i + 1) hi
    rw [List.take_succ_eq_append_getElem hi, exec_append, hf i hi.le, Option.bind_some] at h1
    simp only [System.exec, Option.bind_eq_some_iff] at h1
    obtain ⟨s₂, h2, h3⟩ := h1
    rw [show as.getD i a = as[i] by simp [hi], h2, h3]

theorem execIf_eq_some [∀ s a, Decidable (C s a)] {s s' : σ} {as : List α}
    (h : S.execIf C s as = some s') : S.exec s as = some s' ∧
      ∀ i (hi : i < as.length) s₁, S.exec s (as.take i) = some s₁ → C s₁ as[i] := by
  induction as generalizing s with
  | nil => exact ⟨h, by simp⟩
  | cons a as ih =>
    rw [execIf] at h
    split_ifs at h with hC
    simp only [Option.bind_eq_some_iff] at h
    obtain ⟨s₁, h1, h2⟩ := h
    obtain ⟨h3, h4⟩ := ih h2
    refine ⟨by rw [System.exec, h1]; exact h3, fun i hi s₂ h5 => ?_⟩
    cases i with
    | zero =>
      rw [List.take_zero, System.exec, Option.some.injEq] at h5
      exact h5 ▸ hC
    | succ i =>
      rw [List.take_succ_cons, System.exec, h1] at h5
      exact h4 i (by simpa using hi) s₂ h5

theorem Reach.execIf {D : σ → α → Prop} [∀ s a, Decidable (D s a)] {s s' : σ} {as : List α}
    (hs : S.Reach C s) (hD : ∀ s a, D s a → C s a) (h : S.execIf D s as = some s') : S.Reach C s' :=
  hs.exec (execIf_eq_some h).1 fun i hi s₁ h₁ => hD _ _ ((execIf_eq_some h).2 i hi s₁ h₁)

theorem exists_reach_any {D : σ → α → Prop} [∀ s a, Decidable (D s a)] {s : σ} {as : List α}
    {P : σ → Bool} (h0 : S.init s) (hD : ∀ s a, D s a → C s a)
    (h : (S.execIf D s as).any P = true) : ∃ s', S.Reach C s' ∧ P s' = true := by
  obtain ⟨s', hs', hP⟩ := (Option.any_eq_true _ _).1 h
  exact ⟨s', (Reach.init h0).execIf hD hs', hP⟩

theorem exists_run_of_execIf [∀ s a, Decidable (C s a)] {s s' : σ} {as : List α} (a : α)
    (h0 : S.init s) (h : S.execIf C s as = some s') :
    ∃ r : S.Run C as.length, r.state as.length = s' := by
  obtain ⟨hexec, hC⟩ := execIf_eq_some h
  obtain ⟨r, hr, -⟩ := exists_run a h0 hexec hC
  have hlast := hr as.length le_rfl
  rw [List.take_length, hexec, Option.some.injEq] at hlast
  exact ⟨r, hlast.symm⟩

/-- A list of steps that comes to where `P` holds. -/
theorem exists_run_any [∀ s a, Decidable (C s a)] {s : σ} {as : List α} {P : σ → Bool} (a : α)
    (h0 : S.init s) (h : (S.execIf C s as).any P = true) :
    ∃ r : S.Run C as.length, P (r.state as.length) = true := by
  obtain ⟨s', hs', hP⟩ := (Option.any_eq_true _ _).1 h
  obtain ⟨r, rfl⟩ := exists_run_of_execIf a h0 hs'
  exact ⟨r, hP⟩

/-- A list of steps that meet `C` is a run; what holds after the first `i` of them holds in it. -/
theorem exists_run_through {D : σ → α → Prop} [∀ s a, Decidable (D s a)] {s : σ} (as : List α)
    (a : α) (h0 : S.init s) (hD : ∀ s a, D s a → C s a) (h : (S.execIf D s as).isSome = true) :
    ∃ r : S.Run C as.length, ∀ i ≤ as.length, ∀ P : σ → Prop,
      (∃ s', S.exec s (as.take i) = some s' ∧ P s') → P (r.state i) := by
  obtain ⟨s', hs'⟩ := Option.isSome_iff_exists.1 h
  obtain ⟨hexec, hC⟩ := execIf_eq_some hs'
  obtain ⟨r, hr, -⟩ := exists_run (C := C) a h0 hexec fun i hi s₁ h₁ => hD _ _ (hC i hi s₁ h₁)
  refine ⟨r, fun i hi P hP => ?_⟩
  obtain ⟨s₁, h1, hP⟩ := hP
  rw [hr i hi, Option.some.injEq] at h1
  exact h1 ▸ hP

theorem exists_run_of_exec {s s' : σ} {as : List α} (a : α) (h0 : S.init s)
    (h : S.exec s as = some s') :
    ∃ r : S.Run (fun _ _ => True) as.length, r.state as.length = s' := by
  obtain ⟨r, hr, -⟩ := exists_run (C := fun _ _ => True) a h0 h fun _ _ _ _ => trivial
  have hlast := hr as.length le_rfl
  rw [List.take_length, h, Option.some.injEq] at hlast
  exact ⟨r, hlast.symm⟩

namespace Run

variable {n : ℕ}

theorem reach (r : S.Run C n) : ∀ {i : ℕ}, i ≤ n → S.Reach C (r.state i)
  | 0, _ => .init r.init
  | i + 1, h => .step (r.reach (by omega)) (r.meets i (by omega)) (r.step i (by omega))

/-- What the first steps leave in a log. -/
def log {β : Type*} (r : S.Run C n) (f : σ → α → List β) (i : ℕ) : List β :=
  (List.range i).flatMap fun j => f (r.state j) (r.label j)

theorem log_succ {β : Type*} (r : S.Run C n) (f : σ → α → List β) (i : ℕ) :
    r.log f (i + 1) = r.log f i ++ f (r.state i) (r.label i) := by
  simp [log, List.range_succ]

/-- What holds now and not at first has begun to hold with one of the steps, and lasted. -/
theorem entered (r : S.Run C n) {P : σ → Prop} (h0 : ¬ P (r.state 0)) :
    ∀ {i : ℕ}, P (r.state i) → ∃ j < i, ¬ P (r.state j) ∧ ∀ m, j < m → m ≤ i → P (r.state m)
  | 0, hP => absurd hP h0
  | i + 1, hP => by
    by_cases hp : P (r.state i)
    · obtain ⟨j, hj, h1, h2⟩ := r.entered h0 hp
      refine ⟨j, by omega, h1, fun m hm hmi => ?_⟩
      rcases Nat.lt_or_ge i m with h | h
      · exact (show m = i + 1 by omega) ▸ hP
      · exact h2 m hm h
    · exact ⟨i, by omega, hp, fun m hm hmi => (show m = i + 1 by omega) ▸ hP⟩

/-- While `P` lasts, either `Q` has been seen since `P` began or `J` holds now. -/
theorem since (r : S.Run C n) {P Q J : σ → Prop}
    (enter : ∀ i ≤ n, (∀ k, i = k + 1 → ¬ P (r.state k)) → P (r.state i) →
      Q (r.state i) ∨ J (r.state i))
    (keep : ∀ i < n, P (r.state i) → P (r.state (i + 1)) → J (r.state i) →
      Q (r.state (i + 1)) ∨ J (r.state (i + 1))) :
    ∀ i ≤ n, P (r.state i) →
      (∃ l ≤ i, (∀ m, l ≤ m → m ≤ i → P (r.state m)) ∧ Q (r.state l)) ∨ J (r.state i) := by
  have now : ∀ i, P (r.state i) → Q (r.state i) ∨ J (r.state i) →
      (∃ l ≤ i, (∀ m, l ≤ m → m ≤ i → P (r.state m)) ∧ Q (r.state l)) ∨ J (r.state i) := by
    rintro i hP (hQ | hJ)
    · exact .inl ⟨i, le_rfl, fun m h1 h2 => le_antisymm h2 h1 ▸ hP, hQ⟩
    · exact .inr hJ
  intro i
  induction i with
  | zero => exact fun _ hP => now 0 hP (enter 0 (Nat.zero_le n) (by simp) hP)
  | succ i ih =>
    intro hi hP
    by_cases hp : P (r.state i)
    · rcases ih (by omega) hp with ⟨l, hl, hall, hQ⟩ | hJ
      · refine .inl ⟨l, by omega, fun m h1 h2 => ?_, hQ⟩
        rcases Nat.lt_or_ge i m with h | h
        · exact (show m = i + 1 by omega) ▸ hP
        · exact hall m h1 h
      · exact now _ hP (keep i (by omega) hp hP hJ)
    · refine now _ hP (enter (i + 1) hi (fun k hk => ?_) hP)
      obtain rfl : i = k := by omega
      exact hp

end Run

end System

section Threads

variable {τ sh pc act : Type*}

/-- What each thread runs: one atomic step at a program counter on the shared state. `act` resolves
what the thread itself does not decide (the call it makes, an address the allocator hands out). -/
structure Program (τ sh pc act : Type*) where
  next : τ → act → sh → pc → Option (sh × pc)

/-- The shared state and where every thread is. -/
structure Conf (τ sh pc : Type*) where
  shared : sh
  pc : τ → pc

namespace Program

variable [DecidableEq τ] (P : Program τ sh pc act)

/-- Any thread may take the next step. -/
def system (init : sh → Prop) (start : pc) : System (Conf τ sh pc) (τ × act) where
  init c := init c.shared ∧ c.pc = fun _ => start
  step c l := (P.next l.1 l.2 c.shared (c.pc l.1)).map fun r =>
    ⟨r.1, Function.update c.pc l.1 r.2⟩

variable {P} {init : sh → Prop} {start : pc}

omit P in
/-- What holds of the thread that moved and of every other thread holds of all. -/
theorem forall_update {L : τ → pc → Prop} {f : τ → pc} {t : τ} {p : pc} (ht : L t p)
    (hu : ∀ u, u ≠ t → L u (f u)) (u : τ) : L u (Function.update f t p u) := by
  by_cases h : u = t
  · subst h
    simpa using ht
  · simpa [h] using hu u h

theorem step_eq_some {c c' : Conf τ sh pc} {t : τ} {a : act} :
    (P.system init start).step c (t, a) = some c' ↔
      ∃ s' p', P.next t a c.shared (c.pc t) = some (s', p') ∧
        c' = ⟨s', Function.update c.pc t p'⟩ := by
  simp only [system, Option.map_eq_some_iff, Prod.exists]
  exact exists₂_congr fun _ _ => and_congr_right fun _ => eq_comm

/-- One thread moves in a step. -/
theorem step_next {c c' : Conf τ sh pc} {t : τ} {a : act}
    (h : (P.system init start).step c (t, a) = some c') :
    P.next t a c.shared (c.pc t) = some (c'.shared, c'.pc t) ∧ ∀ u, u ≠ t → c'.pc u = c.pc u := by
  obtain ⟨s', p', hn, rfl⟩ := step_eq_some.1 h
  refine ⟨?_, fun u hu => Function.update_of_ne hu _ _⟩
  simpa using hn

theorem run_step {C : Conf τ sh pc → τ × act → Prop} {n : ℕ} (r : (P.system init start).Run C n)
    {i : ℕ} (hi : i < n) :
    P.next (r.label i).1 (r.label i).2 (r.state i).shared ((r.state i).pc (r.label i).1) =
        some ((r.state (i + 1)).shared, (r.state (i + 1)).pc (r.label i).1) ∧
      ∀ u, u ≠ (r.label i).1 → (r.state (i + 1)).pc u = (r.state i).pc u :=
  step_next (r.step i hi)

/-- What begins to hold of a thread's place begins with a step of that thread. -/
theorem entered {C : Conf τ sh pc → τ × act → Prop} {n : ℕ} (r : (P.system init start).Run C n)
    {E : pc → Prop} (h0 : ¬ E start) {i : ℕ} (hi : i ≤ n) {t : τ} (hE : E ((r.state i).pc t)) :
    ∃ j < i, (r.label j).1 = t ∧ ¬ E ((r.state j).pc t) ∧
      P.next t (r.label j).2 (r.state j).shared ((r.state j).pc t) =
        some ((r.state (j + 1)).shared, (r.state (j + 1)).pc t) ∧
      ∀ m, j < m → m ≤ i → E ((r.state m).pc t) := by
  have h0' : ¬ E ((r.state 0).pc t) := by
    rw [r.init.2]
    exact h0
  obtain ⟨j, hj, hn, hlast⟩ := r.entered (P := fun c => E (c.pc t)) h0' hE
  obtain ⟨hnext, hother⟩ := run_step r (show j < n by omega)
  by_cases ht : (r.label j).1 = t
  · exact ⟨j, hj, ht, hn, ht ▸ hnext, hlast⟩
  · have := hlast (j + 1) (by omega) hj
    rw [hother t fun h => ht h.symm] at this
    exact absurd this hn

/-- The rule of Owicki and Gries, with a ghost `g` that the steps may update: a step of thread `t`
keeps the shared invariant `G` and its own part `L`, and breaks no other thread's part. -/
theorem invariant {γ : Type*} {C : Conf τ sh pc → τ × act → Prop} (G : γ → sh → Prop)
    (L : γ → sh → τ → pc → Prop) (h0 : ∀ s, init s → ∃ g, G g s ∧ ∀ t, L g s t start)
    (hs : ∀ g c t a s' p', (P.system init start).Reach C c → C c (t, a) → G g c.shared →
      (∀ u, L g c.shared u (c.pc u)) → P.next t a c.shared (c.pc t) = some (s', p') →
      ∃ g', G g' s' ∧ L g' s' t p' ∧ ∀ u, u ≠ t → L g' s' u (c.pc u))
    {c : Conf τ sh pc} (h : (P.system init start).Reach C c) :
    ∃ g, G g c.shared ∧ ∀ t, L g c.shared t (c.pc t) := by
  refine System.Reach.induct (P := fun c => ∃ g, G g c.shared ∧ ∀ t, L g c.shared t (c.pc t))
    ?_ ?_ h
  · rintro c ⟨hi, hp⟩
    obtain ⟨g, hG, hL⟩ := h0 _ hi
    exact ⟨g, hG, fun t => hp ▸ hL t⟩
  · rintro c ⟨t, a⟩ c' hr ⟨g, hG, hL⟩ hC hst
    obtain ⟨s', p', hn, rfl⟩ := step_eq_some.1 hst
    obtain ⟨g', hG', hown, hother⟩ := hs g c t a s' p' hr hC hG hL hn
    exact ⟨g', hG', forall_update hown hother⟩

end Program

end Threads

end Interleaving

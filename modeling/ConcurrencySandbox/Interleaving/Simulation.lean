import ConcurrencySandbox.Interleaving.System

/-!
# Forward simulations

A system `S` whose every step is a step of `T`, or no step of `T`, between related states: then
every run of `S` has a run of `T` beside it (`Simulation.run`), and every reachable state of `S` is
related to one of `T` (`Simulation.reach`).
-/

namespace Interleaving

namespace System

variable {σ α σ' α' : Type*} {S : System σ α} {T : System σ' α'} {C : σ → α → Prop}
  {D : σ' → α' → Prop} {R : σ → σ' → Prop} {n : ℕ}

/-- The step of `T` that a step of `S` is, or no step. -/
inductive Matched (T : System σ' α') (D : σ' → α' → Prop) (R : σ → σ' → Prop) (s' : σ) (t : σ') :
    Prop
  | stutter : R s' t → Matched T D R s' t
  | step {b : α'} {t' : σ'} : D t b → T.step t b = some t' → R s' t' → Matched T D R s' t

/-- A relation that the steps of `S` keep with steps of `T`. -/
structure Simulation (S : System σ α) (C : σ → α → Prop) (T : System σ' α') (D : σ' → α' → Prop)
    (R : σ → σ' → Prop) : Prop where
  init : ∀ s, S.init s → ∃ t, T.init t ∧ R s t
  step : ∀ s a s' t, R s t → T.Reach D t → C s a → S.step s a = some s' → Matched T D R s' t

/-- One more step. -/
theorem Run.snoc (r : T.Run D n) {b : α'} {t' : σ'} (hD : D (r.state n) b)
    (hst : T.step (r.state n) b = some t') :
    ∃ r' : T.Run D (n + 1), (∀ i ≤ n, r'.state i = r.state i) ∧ r'.state (n + 1) = t' := by
  have hold : ∀ i ≤ n, (if i ≤ n then r.state i else t') = r.state i := fun i hi => if_pos hi
  have hlast : (if n + 1 ≤ n then r.state (n + 1) else t') = t' := if_neg (by omega)
  refine ⟨⟨fun i => if i ≤ n then r.state i else t', fun i => if i < n then r.label i else b, ?_,
    fun i hi => ?_, fun i hi => ?_⟩, hold, hlast⟩
  · exact (hold 0 (by omega)).symm ▸ r.init
  · rw [hold i (by omega)]
    rcases Nat.lt_succ_iff_lt_or_eq.1 hi with h | rfl
    · rw [if_pos h]
      exact r.meets i h
    · rw [if_neg (lt_irrefl i)]
      exact hD
  · rw [hold i (by omega)]
    rcases Nat.lt_succ_iff_lt_or_eq.1 hi with h | rfl
    · rw [if_pos h, hold (i + 1) h]
      exact r.step i h
    · rw [if_neg (lt_irrefl i), hlast]
      exact hst

namespace Simulation

variable (h : Simulation S C T D R)

include h

/-- Beside every run of `S` goes a run of `T`, in which each step of `S` is one step or none. -/
theorem run [Nonempty α'] (r : S.Run C n) : ∃ m, ∃ r' : T.Run D m, ∃ beside : ℕ → ℕ,
    beside 0 = 0 ∧ (∀ i < n, beside (i + 1) = beside i ∨ beside (i + 1) = beside i + 1) ∧
      ∀ i ≤ n, beside i ≤ m ∧ R (r.state i) (r'.state (beside i)) := by
  suffices hk : ∀ k ≤ n, ∃ r' : (m : ℕ) × T.Run D m, ∃ beside : ℕ → ℕ, beside 0 = 0 ∧
      beside k = r'.1 ∧ (∀ i < k, beside (i + 1) = beside i ∨ beside (i + 1) = beside i + 1) ∧
        ∀ i ≤ k, beside i ≤ r'.1 ∧ R (r.state i) (r'.2.state (beside i)) by
    obtain ⟨⟨m, r'⟩, beside, h0, -, hstep, hR⟩ := hk n le_rfl
    exact ⟨m, r', beside, h0, hstep, hR⟩
  intro k
  induction k with
  | zero =>
    intro _
    obtain ⟨t, ht, hR⟩ := h.init _ r.init
    obtain ⟨b⟩ := ‹Nonempty α'›
    refine ⟨⟨0, fun _ => t, fun _ => b, ht, by omega, by omega⟩, id, rfl, rfl, by omega,
      fun i hi => ⟨hi, ?_⟩⟩
    obtain rfl : i = 0 := by omega
    exact hR
  | succ k ih =>
    intro hk
    obtain ⟨⟨m, r'⟩, beside, h0, hlast, hstep, hR⟩ := ih (by omega)
    have hk' := (hR k le_rfl).2
    have hsteps : ∀ x, (x = m ∨ x = m + 1) → ∀ i < k + 1,
        (if i + 1 ≤ k then beside (i + 1) else x) = (if i ≤ k then beside i else x) ∨
          (if i + 1 ≤ k then beside (i + 1) else x) = (if i ≤ k then beside i else x) + 1 :=
      fun x hx i hi => by
        rw [if_pos (show i ≤ k by omega)]
        rcases Nat.lt_succ_iff_lt_or_eq.1 hi with hi | rfl
        · rw [if_pos (show i + 1 ≤ k from hi)]
          exact hstep i hi
        · rw [if_neg (by omega), hlast]
          exact hx
    rcases h.step _ _ _ _ hk' (r'.reach (hR k le_rfl).1) (r.meets k hk) (r.step k hk) with
      hst | ⟨hD, hst, hst'⟩
    · refine ⟨⟨m, r'⟩, fun i => if i ≤ k then beside i else m, ?_, if_neg (by omega),
        hsteps m (.inl rfl),
        fun i hi => ?_⟩
      · exact (if_pos (Nat.zero_le k)).trans h0
      rcases Nat.le_succ_iff.1 hi with hi | rfl
      · simp only [if_pos hi]
        exact hR i hi
      · simp only [if_neg (show ¬ k + 1 ≤ k by omega)]
        change beside k = m at hlast
        rw [hlast] at hst
        exact ⟨le_rfl, hst⟩
    · obtain ⟨r'', hold, hnew⟩ := r'.snoc (hlast ▸ hD) (hlast ▸ hst)
      refine ⟨⟨m + 1, r''⟩, fun i => if i ≤ k then beside i else m + 1, ?_, if_neg (by omega),
        hsteps (m + 1) (.inr rfl), fun i hi => ?_⟩
      · exact (if_pos (Nat.zero_le k)).trans h0
      rcases Nat.le_succ_iff.1 hi with hi | rfl
      · simp only [if_pos hi]
        obtain ⟨h1, h2⟩ := hR i hi
        exact ⟨h1.trans (Nat.le_succ m), (hold _ h1).symm ▸ h2⟩
      · simp only [if_neg (show ¬ k + 1 ≤ k by omega)]
        exact ⟨le_rfl, hnew.symm ▸ hst'⟩

theorem reach {s : σ} (hs : S.Reach C s) : ∃ t, T.Reach D t ∧ R s t := by
  refine hs.induct (P := fun s => ∃ t, T.Reach D t ∧ R s t) (fun s hs => ?_)
    fun s a s' _ ⟨t, ht, hR⟩ hC hst => ?_
  · obtain ⟨t, ht, hR⟩ := h.init s hs
    exact ⟨t, .init ht, hR⟩
  · rcases h.step s a s' t hR ht hC hst with hst | ⟨hD, hst, hst'⟩
    · exact ⟨t, ht, hst⟩
    · exact ⟨_, .step ht hD hst, hst'⟩

end Simulation

end System

end Interleaving

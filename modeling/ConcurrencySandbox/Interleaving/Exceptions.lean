import ConcurrencySandbox.Interleaving.System

/-!
# Steps that throw

`Program.orThrow` lets a thread throw at some of its places, instead of the step it has there;
`throws` is what unwinding does. What relates every two states a step apart, while a call lasts,
relates its beginning to its end (`Run.chain`).
-/

namespace Interleaving

/-- A step of a program, or an exception in its place. -/
inductive Trial (act : Type*)
  | act (a : act)
  | throw

namespace Program

variable {τ sh pc act : Type*}

def orThrow (P : Program τ sh pc act) (throws : sh → pc → Option (sh × pc)) :
    Program τ sh pc (Trial act) where
  next t trial s p :=
    match trial with
    | .act a => P.next t a s p
    | .throw => throws s p

end Program

namespace System

variable {σ α : Type*} {S : System σ α} {C : σ → α → Prop}

theorem Run.chain {n : ℕ} (r : S.Run C n) {R : σ → σ → Prop} (hrefl : ∀ s, R s s)
    (htrans : ∀ s₁ s₂ s₃, R s₁ s₂ → R s₂ s₃ → R s₁ s₃) {i : ℕ} :
    ∀ {j : ℕ}, i ≤ j → (∀ m, i ≤ m → m < j → R (r.state m) (r.state (m + 1))) →
      R (r.state i) (r.state j) := by
  intro j hij
  induction j, hij using Nat.le_induction with
  | base => exact fun _ => hrefl _
  | succ j hij ih =>
    intro h
    exact htrans _ _ _ (ih fun m hm hj => h m hm (hj.trans (Nat.lt_succ_self j)))
      (h j hij (Nat.lt_succ_self j))

end System

end Interleaving

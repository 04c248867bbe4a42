import Mathlib.Data.Set.Insert
import Mathlib.Logic.Function.Basic

/-!
# Hazard slots

What a reclamation scheme with hazard slots promises. `guards a` are the slots that held `a` when
it was retired and have held it since; `a` may be freed only when there are none. A slot that held
`a` while it was not retired guards it until something else is stored to the slot
(`Guarded.apply`).
-/

namespace Interleaving

/-- The slots, the retired addresses, and the slots that keep each of these from being freed. -/
structure Hazards (σ A : Type*) where
  pointer : σ → Option A
  retired : Set A
  guards : A → Set σ

namespace Hazards

variable {σ A : Type*}

inductive Event (σ A : Type*)
  | skip
  | store (s : σ) (v : Option A)
  | retire (a : A)
  | free (a : A)

def Enabled (h : Hazards σ A) : Event σ A → Prop
  | .skip | .store .. => True
  | .retire a => a ∉ h.retired
  | .free a => a ∈ h.retired ∧ h.guards a = ∅

variable [DecidableEq σ] [DecidableEq A]

def apply (h : Hazards σ A) : Event σ A → Hazards σ A
  | .skip => h
  | .store s v => ⟨Function.update h.pointer s v, h.retired, fun a =>
      {x ∈ h.guards a | x = s → v = some a}⟩
  | .retire a => ⟨h.pointer, insert a h.retired,
      Function.update h.guards a {s | h.pointer s = some a}⟩
  | .free a => ⟨h.pointer, h.retired \ {a}, h.guards⟩

omit [DecidableEq σ] [DecidableEq A] in
/-- The slot holds `a`, since before `a` was retired if it is. -/
def Guarded (h : Hazards σ A) (s : σ) (a : A) : Prop :=
  h.pointer s = some a ∧ (a ∈ h.retired → s ∈ h.guards a)

variable {h : Hazards σ A} {s : σ} {a : A} {e : Event σ A}

/-- A guarded address is not freed and stays guarded while the slot holds it. -/
theorem Guarded.apply (hg : h.Guarded s a) (he : h.Enabled e)
    (hs : ∀ v, e = .store s v → v = some a) : (h.apply e).Guarded s a ∧ e ≠ .free a := by
  obtain ⟨hp, hr⟩ := hg
  cases e with
  | skip => exact ⟨⟨hp, hr⟩, nofun⟩
  | store s' v =>
    have hv : s = s' → v = some a := fun h => hs v (h ▸ rfl)
    refine ⟨⟨?_, fun ha => ⟨hr ha, hv⟩⟩, nofun⟩
    by_cases hne : s = s'
    · subst hne
      simpa [Hazards.apply] using hv rfl
    · simpa [Hazards.apply, hne] using hp
  | retire b =>
    refine ⟨⟨hp, fun ha => ?_⟩, nofun⟩
    by_cases hab : a = b
    · subst hab
      simpa [Hazards.apply] using hp
    · simpa [Hazards.apply, hab] using hr (ha.resolve_left hab)
  | free b =>
    have hab : a ≠ b := by
      rintro rfl
      simpa [he.2] using hr he.1
    exact ⟨⟨hp, fun ha => hr ha.1⟩, fun h => hab (Event.free.inj h).symm⟩

end Hazards

end Interleaving

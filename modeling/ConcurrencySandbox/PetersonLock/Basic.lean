import Mathlib.Data.Fintype.Card
import Mathlib.Data.ZMod.Defs
import ConcurrencySandbox.Interleaving.Instances

/-!
# PetersonLock

`Lock/PetersonLock`: two flags and a victim. The threads are numbered as they first come to any
instance, in a `char` of their own, and an assertion keeps all but the numbers 0 and 1 out.
-/

namespace ConcurrencySandbox

open Interleaving

namespace PetersonLock

variable {τ I : Type*}

/-- `aborted` once an assertion has failed. -/
structure Shared (τ I : Type*) where
  sIDCount : BitVec 32
  id : τ → Option (BitVec 8)
  mFlags : I → Fin 2 → Bool
  mVictim : I → Fin 2
  aborted : Bool

/-- `lock` is `getID` to `readVictim`, `unlock` the last two. -/
inductive PC
  | getID
  | setFlag (i : BitVec 8)
  | setVictim (i : Fin 2)
  | readFlag (i : Fin 2)
  | readVictim (i : Fin 2)
  | getIDAgain
  | clearFlag (i : BitVec 8)
  deriving DecidableEq

local instance neZeroTwo : NeZero 2 := ⟨Nat.succ_ne_zero 1⟩

/-- `assert(i == 0 || i == 1)` -/
def index (i : BitVec 8) : Option (Fin 2) :=
  if i = 0 then some 0 else if i = 1 then some 1 else none

section Model

variable [DecidableEq τ] [DecidableEq I]

/-- The number is taken when the thread first comes here. -/
def getID (t : τ) (s : Shared τ I) : Shared τ I × BitVec 8 :=
  match s.id t with
  | some i => (s, i)
  | none =>
    let i := s.sIDCount.setWidth 8
    ({ s with sIDCount := s.sIDCount + 1, id := Function.update s.id t (some i) }, i)

def setFlag (s : Shared τ I) (l : I) (i : Fin 2) (b : Bool) : Shared τ I :=
  { s with mFlags := Function.update s.mFlags l (Function.update (s.mFlags l) i b) }

/-- One atomic step of `lock` or `unlock`. -/
def step (t : τ) (l : I) (s : Shared τ I) (pc : PC) : Option (Shared τ I × Outcome PC) :=
  if s.aborted then none else
  match pc with
  | .getID => some ((getID t s).1, .next (.setFlag (getID t s).2))
  | .setFlag i =>
    match index i with
    | some k => some (setFlag s l k true, .next (.setVictim k))
    | none => some ({ s with aborted := true }, .next pc)
  | .setVictim i =>
    some ({ s with mVictim := Function.update s.mVictim l i }, .next (.readFlag i))
  | .readFlag i => some (s, if s.mFlags l (1 - i) then .next (.readVictim i) else .locked)
  | .readVictim i => some (s, if s.mVictim l = i then .next (.readFlag i) else .locked)
  | .getIDAgain => some ((getID t s).1, .next (.clearFlag (getID t s).2))
  | .clearFlag i =>
    match index i with
    | some k => some (setFlag s l k false, .unlocked)
    | none => some ({ s with aborted := true }, .next pc)

variable (τ I)

def lockClass : LockClass τ I (Shared τ I) PC := ⟨.getID, .getIDAgain, step⟩

def initial : Shared τ I := ⟨0, fun _ => none, fun _ _ => false, fun _ => 0, false⟩

def system : System (Conf τ (Shared τ I) (Place I PC)) (τ × Call I) :=
  (lockClass τ I).program.system (fun s => s = initial τ I) (.out [])

end Model

/-- Which of the two flags is the thread's. -/
def Shared.slot (s : Shared τ I) (t : τ) : Option (Fin 2) := (s.id t).bind index

/-- What a thread is to one instance: `away` its flag is down, and `waiting` it is in the loop. -/
inductive Stage
  | away
  | announced
  | waiting
  | inside
  deriving DecidableEq

def PC.stage : PC → Stage
  | .getID | .setFlag _ => .away
  | .setVictim _ => .announced
  | .readFlag _ | .readVictim _ => .waiting
  | .getIDAgain | .clearFlag _ => .inside

section Stage

variable [DecidableEq I]

def stage (l : I) : Place I PC → Stage
  | .out held => if l ∈ held then .inside else .away
  | .busy l' p held => if l ∈ held then .inside else if l' = l then p.stage else .away

/-- No thread locks an instance that it holds. -/
def unheld (call : Call I) : Place I PC → Bool
  | .out held =>
    match call with
    | .lock l => l ∉ held
    | _ => true
  | .busy .. => true

def Unheld (c : Conf τ (Shared τ I) (Place I PC)) (l : τ × Call I) : Prop :=
  unheld l.2 (c.pc l.1) = true

instance (c : Conf τ (Shared τ I) (Place I PC)) (l : τ × Call I) : Decidable (Unheld c l) :=
  inferInstanceAs (Decidable (_ = true))

end Stage

/-! ### One instance -/

/-- The flags are up for the threads that are not away, and a thread that waits for one inside is
the victim. -/
structure Fair (slot : τ → Option (Fin 2)) (flags : Fin 2 → Bool) (victim : Fin 2)
    (stage : τ → Stage) : Prop where
  slotted : ∀ t, stage t ≠ .away → ∃ i, slot t = some i
  flag : ∀ i, flags i = true ↔ ∃ t, slot t = some i ∧ stage t ≠ .away
  exclusive : ∀ t u, t ≠ u → stage t = .inside →
    stage u ≠ .inside ∧ (stage u = .waiting → slot u = some victim)

/-- What a step of the thread with flag `i` does. -/
inductive Move (i : Fin 2) : (Fin 2 → Bool) → Fin 2 → Stage → (Fin 2 → Bool) → Fin 2 → Stage → Prop
  | keep (flags : Fin 2 → Bool) (v : Fin 2) (a : Stage) : Move i flags v a flags v a
  | announce (flags : Fin 2 → Bool) (v : Fin 2) :
    Move i flags v .away (Function.update flags i true) v .announced
  | yield (flags : Fin 2 → Bool) (v : Fin 2) : Move i flags v .announced flags i .waiting
  | enter (flags : Fin 2 → Bool) (v : Fin 2) (h : flags (1 - i) = false ∨ v ≠ i) :
    Move i flags v .waiting flags v .inside
  | leave (flags : Fin 2 → Bool) (v : Fin 2) :
    Move i flags v .inside (Function.update flags i false) v .away

theorem eq_or_eq_one_sub (i j : Fin 2) : j = i ∨ j = 1 - i := by
  revert i j
  decide

theorem one_sub_ne (i : Fin 2) : 1 - i ≠ i := by
  revert i
  decide

namespace Fair

variable {slot : τ → Option (Fin 2)} {flags flags' : Fin 2 → Bool} {i v v' : Fin 2}
  {stage : τ → Stage} {t u : τ} {b : Stage}

theorem init : Fair (fun _ : τ => none) (fun _ => false) v fun _ => .away :=
  ⟨fun _ h => absurd rfl h, fun _ => by simp, fun _ _ _ => nofun⟩

/-- Who is not away and is not `t` has the other flag, and has it up. -/
theorem other (h : Fair slot flags v stage)
    (hinj : ∀ t u i, slot t = some i → slot u = some i → t = u) (ht : slot t = some i)
    (hut : u ≠ t) (hu : stage u ≠ .away) : slot u = some (1 - i) ∧ flags (1 - i) = true := by
  obtain ⟨j, hj⟩ := h.slotted u hu
  rcases eq_or_eq_one_sub i j with rfl | rfl
  · exact absurd (hinj u t j hj ht) hut
  · exact ⟨hj, (h.flag _).2 ⟨u, hj, hu⟩⟩

/-- There is no third thread. -/
theorem third (h : Fair slot flags v stage)
    (hinj : ∀ t u i, slot t = some i → slot u = some i → t = u) {w : τ} (htu : t ≠ u)
    (ht : stage t ≠ .away) (hu : stage u ≠ .away) (hwt : w ≠ t) (hwu : w ≠ u) :
    stage w = .away := by
  by_contra hw
  obtain ⟨i, hi⟩ := h.slotted t ht
  exact hwu (hinj w u _ (h.other hinj hi hwt hw).1 (h.other hinj hi htu.symm hu).1)

variable [DecidableEq τ]

theorem flag_update (h : Fair slot flags v stage)
    (hinj : ∀ t u i, slot t = some i → slot u = some i → t = u) (ht : slot t = some i)
    (hi : flags' i = true ↔ b ≠ .away) (hother : flags' (1 - i) = flags (1 - i)) (j : Fin 2) :
    flags' j = true ↔ ∃ u, slot u = some j ∧ Function.update stage t b u ≠ .away := by
  rcases eq_or_eq_one_sub i j with rfl | rfl
  · rw [hi]
    constructor
    · exact fun hb => ⟨t, ht, by rwa [Function.update_self]⟩
    · rintro ⟨u, hu, hs⟩
      rwa [hinj u t j hu ht, Function.update_self] at hs
  · rw [hother, h.flag]
    refine exists_congr fun u => and_congr_right fun hu => ?_
    have hut : u ≠ t := by
      rintro rfl
      exact one_sub_ne i (Option.some.inj (hu.symm.trans ht))
    rw [Function.update_of_ne hut]

theorem slotted_update (h : Fair slot flags v stage) (ht : slot t = some i) :
    ∀ u, Function.update stage t b u ≠ .away → ∃ j, slot u = some j := by
  intro u hu
  rcases eq_or_ne u t with rfl | hut
  · exact ⟨i, ht⟩
  · rw [Function.update_of_ne hut] at hu
    exact h.slotted u hu

omit [DecidableEq τ] in
/-- The thread goes in when the other is not inside, and the other is the victim if it waits. -/
theorem move_exclusive (h : Fair slot flags v stage)
    (hinj : ∀ t u i, slot t = some i → slot u = some i → t = u) (ht : slot t = some i)
    (hm : Move i flags v (stage t) flags' v' b) (hut : u ≠ t) :
    (b = .inside → stage u ≠ .inside ∧ (stage u = .waiting → slot u = some v')) ∧
      (stage u = .inside → b ≠ .inside ∧ (b = .waiting → slot t = some v')) := by
  have hother := h.other (u := u) hinj ht hut
  have htu := h.exclusive t u hut.symm
  have hu := h.exclusive u t hut
  generalize stage t = a at hm htu hu
  cases hm with
  | keep => exact ⟨htu, hu⟩
  | announce | leave => exact ⟨nofun, fun _ => ⟨nofun, nofun⟩⟩
  | yield => exact ⟨nofun, fun _ => ⟨nofun, fun _ => ht⟩⟩
  | enter h =>
    have hne : stage u ≠ .away → v = 1 - i := fun hs =>
      (eq_or_eq_one_sub i v).resolve_left (h.resolve_left (by simp [(hother hs).2]))
    have hout : stage u ≠ .inside := fun hs => by
      have hv : some i = some v := ht.symm.trans ((hu hs).2 rfl)
      exact one_sub_ne i ((hne (by simp [hs])).symm.trans (Option.some.inj hv).symm)
    refine ⟨fun _ => ⟨hout, fun hs => ?_⟩, fun hs => absurd hs hout⟩
    rw [hne (by simp [hs])]
    exact (hother (by simp [hs])).1

theorem step (h : Fair slot flags v stage)
    (hinj : ∀ t u i, slot t = some i → slot u = some i → t = u) (ht : slot t = some i)
    (hm : Move i flags v (stage t) flags' v' b) :
    Fair slot flags' v' (Function.update stage t b) := by
  have hflag := h.flag i
  have hexcl := fun u => h.move_exclusive (u := u) hinj ht hm
  refine ⟨h.slotted_update ht, h.flag_update hinj ht ?_ ?_, fun u w huw hu => ?_⟩
  · have hup : flags i = true ↔ stage t ≠ .away := by
      rw [hflag]
      refine ⟨?_, fun ha => ⟨t, ht, ha⟩⟩
      rintro ⟨u, hu, hne⟩
      rwa [hinj u t i hu ht] at hne
    generalize stage t = a at hm hup
    cases hm with
    | keep => exact hup
    | announce | leave => simp
    | yield | enter => exact iff_of_true (hup.2 nofun) nofun
  · generalize stage t = a at hm
    cases hm with
    | announce | leave => exact Function.update_of_ne (one_sub_ne i) _ _
    | keep | yield | enter => rfl
  · rcases eq_or_ne u t with rfl | hut
    · rw [Function.update_self] at hu
      rw [Function.update_of_ne huw.symm]
      exact (hexcl w huw.symm).1 hu
    rw [Function.update_of_ne hut] at hu
    rcases eq_or_ne w t with rfl | hwt
    · rw [Function.update_self]
      exact (hexcl u hut).2 hu
    rw [Function.update_of_ne hwt]
    have hw : stage w = .away := by
      by_contra hw
      exact huw (hinj u w _ (h.other hinj ht hut (by simp [hu])).1 (h.other hinj ht hwt hw).1)
    exact ⟨by simp [hw], by simp [hw]⟩

/-- A thread that is away gets its number. -/
theorem number (h : Fair slot flags v stage) (ht : stage t = .away) (o : Option (Fin 2)) :
    Fair (Function.update slot t o) flags v stage := by
  have hne : ∀ u, stage u ≠ .away → Function.update slot t o u = slot u := by
    intro u hu
    refine Function.update_of_ne ?_ _ _
    rintro rfl
    exact hu ht
  refine ⟨fun u hu => ?_, fun i => ?_, fun u w huw hu => ?_⟩
  · rw [hne u hu]
    exact h.slotted u hu
  · rw [h.flag]
    exact exists_congr fun u => and_congr_left fun hu => by rw [hne u hu]
  · obtain ⟨h1, h2⟩ := h.exclusive u w huw hu
    exact ⟨h1, fun hw => by rw [hne w (by simp [hw]), h2 hw]⟩

end Fair

end PetersonLock

end ConcurrencySandbox

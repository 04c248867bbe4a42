import Mathlib.Data.Fintype.Card
import Mathlib.Data.ZMod.Defs
import ConcurrencySandbox.Interleaving.Instances

/-!
# ArrayQueueLock

`Lock/QueueLock/ArrayQueueLock`: `mTail` deals out the slots of a ring, and a thread spins on its
slot until the thread before it sets the flag there. Every thread has one `sIndex` for all
instances.
-/

namespace ConcurrencySandbox

open Interleaving

namespace ArrayQueueLock

variable {τ I : Type*}

/-- `sCapacity` is 64. -/
structure Shared (τ I : Type*) where
  mArray : I → Fin 64 → Bool
  mTail : I → BitVec 32
  sIndex : τ → Fin 64

inductive PC
  | fetchAdd
  | spin
  | clear
  | set
  deriving DecidableEq

/-- `% sCapacity`. -/
def slot (tail : BitVec 32) : Fin 64 := Fin.ofNat 64 tail.toNat

section Model

variable [DecidableEq τ] [DecidableEq I]

def setFlag (mArray : I → Fin 64 → Bool) (i : I) (k : Fin 64) (b : Bool) : I → Fin 64 → Bool :=
  Function.update mArray i (Function.update (mArray i) k b)

/-- One atomic step of `lock` or `unlock`. -/
def step (t : τ) (i : I) (s : Shared τ I) : PC → Option (Shared τ I × Outcome PC)
  | .fetchAdd => some ({ s with
      mTail := Function.update s.mTail i (s.mTail i + 1)
      sIndex := Function.update s.sIndex t (slot (s.mTail i)) }, .next .spin)
  | .spin => some (s, if s.mArray i (s.sIndex t) then .locked else .next .spin)
  | .clear => some ({ s with mArray := setFlag s.mArray i (s.sIndex t) false }, .next .set)
  | .set => some ({ s with mArray := setFlag s.mArray i (s.sIndex t + 1) true }, .unlocked)

variable (τ I)

def lockClass : LockClass τ I (Shared τ I) PC := ⟨.fetchAdd, .clear, step⟩

def initial : Shared τ I := ⟨fun _ k => k = 0, fun _ => 0, fun _ => 0⟩

def system : System (Conf τ (Shared τ I) (Place I PC)) (τ × Call I) :=
  (lockClass τ I).program.system (fun s => s = initial τ I) (.out [])

end Model

def PC.phase : PC → Phase
  | .fetchAdd => .idle
  | .spin => .waiting
  | .clear | .set => .held

theorem slot_add_one (tail : BitVec 32) : slot (tail + 1) = slot tail + 1 := by
  have := tail.isLt
  refine Fin.ext ?_
  simp only [slot, Fin.val_ofNat, Fin.val_add, BitVec.toNat_add, Fin.val_one,
    show (1 : BitVec 32).toNat = 1 from rfl]
  omega

/-- Different places of a queue that is short enough are different slots. -/
theorem slot_inj {b : Fin 64} {m n : ℕ} (hm : m < 64) (hn : n < 64)
    (h : b + Fin.ofNat 64 m = b + Fin.ofNat 64 n) : m = n := by
  have := congrArg Fin.val h
  simp only [Fin.val_add, Fin.val_ofNat] at this
  omega

theorem slot_succ (base : Fin 64) (n : ℕ) :
    base + Fin.ofNat 64 (n + 1) = base + 1 + Fin.ofNat 64 n := by
  refine Fin.ext ?_
  simp only [Fin.val_add, Fin.val_ofNat, Fin.val_one]
  omega

/-- The threads of a queue have the slots from `base` on, and the flag is set there only. -/
structure Slots (base : I → Fin 64) (queue : I → List τ) (s : Shared τ I) (f : τ → Place I PC) :
    Prop where
  tail : ∀ i, slot (s.mTail i) = base i + Fin.ofNat 64 (queue i).length
  index : ∀ i n t, (queue i)[n]? = some t → s.sIndex t = base i + Fin.ofNat 64 n
  flag : ∀ i k, s.mArray i k = true → k = base i
  cleared : ∀ i t held, f t = .busy i .set held → s.mArray i (base i) = false

def Inv (queue : I → List τ) (s : Shared τ I) (f : τ → Place I PC) : Prop :=
  ∃ base, Slots base queue s f

variable {base : I → Fin 64} {queue : I → List τ} {s : Shared τ I} {f : τ → Place I PC} {t : τ}
  {i : I} {p : PC}

theorem Slots.head (h : Slots base queue s f) (ht : (queue i).head? = some t) :
    s.sIndex t = base i := by
  rw [h.index i 0 t (by rwa [← List.head?_eq_getElem?]), show Fin.ofNat 64 0 = 0 from rfl, add_zero]

variable [DecidableEq τ]

/-- A step that writes nothing. -/
theorem Slots.stay (h : Slots base queue s f) {x : Place I PC}
    (hx : ∀ i held, x ≠ .busy i .set held) : Slots base queue s (Function.update f t x) := by
  refine ⟨h.tail, h.index, h.flag, fun j u held hf => ?_⟩
  by_cases hut : u = t
  · rw [hut, Function.update_self] at hf
    exact absurd hf (hx j held)
  · rw [Function.update_of_ne hut] at hf
    exact h.cleared j u held hf

variable [DecidableEq I]

omit [DecidableEq τ] in
theorem setFlag_true {mArray : I → Fin 64 → Bool} {k l : Fin 64} {b : Bool} {j : I}
    (h : setFlag mArray i k b j l = true) : j = i ∧ l = k ∧ b = true ∨
      mArray j l = true ∧ (j = i → l ≠ k) := by
  unfold setFlag at h
  rcases eq_or_ne j i with rfl | hji
  · rw [Function.update_self] at h
    by_cases hl : l = k
    · rw [hl, Function.update_self] at h
      exact .inl ⟨rfl, hl, h⟩
    · rw [Function.update_of_ne hl] at h
      exact .inr ⟨h, fun _ => hl⟩
  · rw [Function.update_of_ne hji] at h
    exact .inr ⟨h, fun he => absurd he hji⟩

theorem Slots.enter (h : Slots base queue s f) (ht : ∀ j, t ∉ queue j) :
    Slots base (Function.update queue i (queue i ++ [t]))
      { s with
        mTail := Function.update s.mTail i (s.mTail i + 1)
        sIndex := Function.update s.sIndex t (slot (s.mTail i)) }
      (Function.update f t (.busy i .spin [])) := by
  have hold : ∀ j n u, (queue j)[n]? = some u →
      Function.update s.sIndex t (slot (s.mTail i)) u = base j + Fin.ofNat 64 n := by
    intro j n u hu
    have hut : u ≠ t := fun he => ht j (he ▸ List.mem_of_getElem? hu)
    rw [Function.update_of_ne hut]
    exact h.index j n u hu
  refine ⟨fun j => ?_, fun j n u hu => ?_, h.flag, fun j u held hf => ?_⟩
  · rcases eq_or_ne j i with rfl | hji
    · simp only [Function.update_self]
      rw [slot_add_one, h.tail, List.length_append, List.length_singleton, slot_succ]
      ac_rfl
    · simp only [Function.update_of_ne hji]
      exact h.tail j
  · rcases eq_or_ne j i with rfl | hji
    · rw [Function.update_self] at hu
      rcases Nat.lt_or_ge n (queue j).length with hlt | hge
      · rw [List.getElem?_append_left hlt] at hu
        exact hold j n u hu
      · rw [List.getElem?_append_right hge, List.getElem?_singleton] at hu
        split_ifs at hu with h0
        obtain rfl := Option.some.inj hu
        obtain rfl : n = (queue j).length := by omega
        simp only [Function.update_self]
        exact h.tail j
    · rw [Function.update_of_ne hji] at hu
      exact hold j n u hu
  · by_cases hut : u = t
    · rw [hut, Function.update_self] at hf
      cases hf
    · rw [Function.update_of_ne hut] at hf
      exact h.cleared j u held hf

theorem Slots.clear (h : Slots base queue s f) (ht : (queue i).head? = some t) :
    Slots base queue { s with mArray := setFlag s.mArray i (s.sIndex t) false }
      (Function.update f t (.busy i .set [])) := by
  refine ⟨h.tail, h.index, fun j k hk => ?_, fun j u held hf => ?_⟩
  · rcases setFlag_true hk with ⟨-, -, hb⟩ | ⟨hk, -⟩
    · cases hb
    · exact h.flag j k hk
  · refine Bool.eq_false_iff.2 fun hk => ?_
    rcases setFlag_true hk with ⟨-, -, hb⟩ | ⟨hk, hne⟩
    · cases hb
    · by_cases hut : u = t
      · rw [hut, Function.update_self] at hf
        cases hf
        exact hne rfl (h.head ht).symm
      · rw [Function.update_of_ne hut] at hf
        exact Bool.false_ne_true ((h.cleared j u held hf).symm.trans hk)

theorem Slots.set (h : Slots base queue s f) (hS : Stands PC.phase queue f) {q : List τ}
    (hf : f t = .busy i .set []) (hq : queue i = t :: q) :
    Slots (Function.update base i (base i + 1)) (Function.update queue i q)
      { s with mArray := setFlag s.mArray i (s.sIndex t + 1) true }
      (Function.update f t (.out [])) := by
  have hindex : s.sIndex t = base i := h.head (by rw [hq, List.head?_cons])
  have hset : ∀ j u held, u ≠ t → f u = .busy j .set held → j ≠ i := by
    rintro j u held hut hu rfl
    obtain rfl : held = [] := by
      have := hS.flat u
      rwa [hu] at this
    obtain ⟨q', hq'⟩ := hS.head_busy hu rfl
    exact hut (List.cons.inj (hq'.symm.trans hq)).1
  refine ⟨fun j => ?_, fun j n u hu => ?_, fun j k hk => ?_, fun j u held hu => ?_⟩
  · rcases eq_or_ne j i with rfl | hji
    · simp only [Function.update_self]
      rw [h.tail, hq, List.length_cons, slot_succ]
    · simp only [Function.update_of_ne hji]
      exact h.tail j
  · rcases eq_or_ne j i with rfl | hji
    · simp only [Function.update_self] at hu ⊢
      rw [← slot_succ]
      exact h.index j (n + 1) u (by rwa [hq])
    · simp only [Function.update_of_ne hji] at hu ⊢
      exact h.index j n u hu
  · rcases setFlag_true hk with ⟨rfl, rfl, -⟩ | ⟨hold, -⟩
    · rw [Function.update_self, hindex]
    · have hkj := h.flag j k hold
      by_cases hji : j = i
      · subst hji
        rw [hkj, h.cleared j t [] hf] at hold
        cases hold
      · rw [Function.update_of_ne hji, hkj]
  · by_cases hut : u = t
    · rw [hut, Function.update_self] at hu
      cases hu
    · rw [Function.update_of_ne hut] at hu
      have hji := hset j u held hut hu
      simp only [Function.update_of_ne hji, setFlag]
      exact h.cleared j u held hu

variable [Fintype τ]

theorem queues_step (hcard : Fintype.card τ ≤ 64) (h : Slots base queue s f)
    (hS : Stands PC.phase queue f) (hf : f t = .busy i p []) {s' : Shared τ I} {o : Outcome PC}
    (hs : step t i s p = some (s', o)) : ∃ q, Turn t (queue i) p.phase q (o.phase PC.phase) ∧
      Inv (Function.update queue i q) s' (Function.update f t (o.after i [])) := by
  cases p with
  | fetchAdd =>
    obtain ⟨rfl, rfl⟩ := Prod.mk.inj (Option.some.inj hs)
    exact ⟨_, .take _ nofun nofun, base, h.enter fun j hm => ((hS.mem_busy hf).1 hm).2 rfl⟩
  | spin =>
    obtain ⟨rfl, rfl⟩ := Prod.mk.inj (Option.some.inj hs)
    refine ⟨queue i, ?_⟩
    rw [Function.update_eq_self]
    split_ifs with hflag
    · obtain ⟨n, hn⟩ := List.mem_iff_getElem?.1 ((hS.mem_busy (j := i) hf).2 ⟨rfl, nofun⟩)
      have hlt := (List.getElem?_eq_some_iff.1 hn).1
      have hlength := (hS.standing i).nodup.length_le_card
      obtain rfl : n = 0 := slot_inj (b := base i) (by omega) (by omega)
        ((h.index i n t hn).symm.trans ((h.flag i _ hflag).trans (add_zero _).symm))
      rw [← List.head?_eq_getElem?] at hn
      exact ⟨.wait _ _ nofun nofun fun _ => List.head?_eq_some_iff.1 hn, base, h.stay nofun⟩
    · exact ⟨.wait _ _ nofun nofun nofun, base, h.stay nofun⟩
  | clear =>
    obtain ⟨rfl, rfl⟩ := Prod.mk.inj (Option.some.inj hs)
    obtain ⟨q, hq⟩ := hS.head_busy hf rfl
    refine ⟨queue i, .wait _ _ nofun nofun fun _ => ⟨q, hq⟩, base, ?_⟩
    rw [Function.update_eq_self]
    exact h.clear (by rw [hq, List.head?_cons])
  | set =>
    obtain ⟨rfl, rfl⟩ := Prod.mk.inj (Option.some.inj hs)
    obtain ⟨q, hq⟩ := hS.head_busy hf rfl
    exact ⟨q, .leave q hq, _, h.set hS hf hq⟩

theorem queues (hcard : Fintype.card τ ≤ 64) :
    Queues (lockClass τ I) (fun s => s = initial τ I) PC.phase Inv where
  lock_idle := rfl
  unlock_held := rfl
  init := by
    rintro s rfl
    exact ⟨fun _ => 0, fun _ => rfl, nofun, fun i k hk => of_decide_eq_true hk, nofun⟩
  lock := by
    rintro queue s f t i - ⟨base, h⟩ -
    exact ⟨base, h.stay nofun⟩
  unlock := by
    rintro queue s f t i - ⟨base, h⟩ -
    exact ⟨base, h.stay nofun⟩
  step := by
    rintro queue s f t i p s' o hS ⟨base, h⟩ hf hs
    exact queues_step hcard h hS hf hs

/-- Every instance is a fair lock, and lets one slot in at most. -/
structure Correct {n : ℕ} (r : (system τ I).Run Unnested n) : Prop where
  fifo : ∀ i, Fifo r (Place.phase PC.phase i)
  flag : ∀ k ≤ n, ∀ i a b, (r.state k).shared.mArray i a = true →
    (r.state k).shared.mArray i b = true → a = b

/-- `sCapacity` slots are enough for as many threads, however often `mTail` has wrapped. -/
theorem fair_slots (hcard : Fintype.card τ ≤ 64) (n : ℕ) (r : (system τ I).Run Unnested n) :
    Correct r where
  fifo := (queues hcard).fifo r
  flag k hk i a b ha hb := by
    obtain ⟨queue, -, base, h⟩ := (queues hcard).reach (r.reach hk)
    rw [h.flag i a ha, h.flag i b hb]

/-- One thread unlocks and the other, which has come while it held the lock, goes on. -/
theorem fair_slots_two : ∃ r : (system (Fin 2) Unit).Run Unnested 10, Correct r ∧
    ((r.state 10).pc 1).phase PC.phase () = .held := by
  let as : List (Fin 2 × Call Unit) := [(0, .lock ()), (0, .run), (0, .run), (1, .lock ()),
    (1, .run), (1, .run), (0, .unlock), (0, .run), (0, .run), (1, .run)]
  let c₀ : Conf (Fin 2) (Shared (Fin 2) Unit) (Place Unit PC) := ⟨initial _ _, fun _ => .out []⟩
  have hex : ((system (Fin 2) Unit).execIf Unnested c₀ as).any
      (fun c => (c.pc 1).phase PC.phase () = .held) = true := by
    decide +kernel
  have hinit : (system (Fin 2) Unit).init c₀ := ⟨rfl, rfl⟩
  obtain ⟨r, hheld⟩ := System.exists_run_any (0, .run) hinit hex
  exact ⟨r, fair_slots (by decide) _ r, of_decide_eq_true hheld⟩

end ArrayQueueLock

end ConcurrencySandbox

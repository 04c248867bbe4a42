import Mathlib.Logic.Function.Iterate
import ConcurrencySandbox.Interleaving.Count
import ConcurrencySandbox.Interleaving.System

/-!
# Work under a lock

A `Body` is what a thread does to shared data while it holds a lock, one access at a time.
`Program.underLock` runs a body in every section of a program that locks. If the program lets one
thread in at a time, a body that turns `d` into `f d` when it runs alone does so among all threads:
the data are `f` applied as often as sections have been left (`Worker.atomic`).
-/

namespace Interleaving

variable {τ sh pc act δ ρ : Type*}

/-- `move` is none when the body is over. -/
structure Body (δ ρ : Type*) where
  start : ρ
  move : δ → ρ → Option (δ × ρ)

namespace Body

variable (B : Body δ ρ)

/-- Where a body that begins with `d` may be, and what it has made of the data. -/
inductive Along (d : δ) : ρ → δ → Prop
  | start : Along d B.start d
  | move {r r' : ρ} {e e' : δ} : Along d r e → B.move e r = some (e', r') → Along d r' e'

def Computes (f : δ → δ) : Prop := ∀ d r e, B.Along d r e → B.move e r = none → e = f d

end Body

/-- Where a thread is, in the program and in the body, and how many sections it has left. -/
structure Worker (pc ρ : Type*) where
  place : pc
  body : ρ
  done : ℕ

/-- A step of the program that locks, or of the body. -/
inductive Work (act : Type*)
  | lock (a : act)
  | body

/-- A section begins with the body's start and is not left before its end. -/
def Worker.go (inside : pc → Bool) (B : Body δ ρ) (d : δ) (k : Worker pc ρ) (p : pc) :
    Option (Worker pc ρ) :=
  if inside k.place then
    if inside p then some ⟨p, k.body, k.done⟩
    else if (B.move d k.body).isNone then some ⟨p, k.body, k.done + 1⟩ else none
  else some ⟨p, if inside p then B.start else k.body, k.done⟩

namespace Program

def underLock (P : Program τ sh pc act) (inside : pc → Bool) (B : Body δ ρ) :
    Program τ (sh × δ) (Worker pc ρ) (Work act) where
  next t w s k :=
    match w with
    | .lock a => (P.next t a s.1 k.place).bind fun r =>
        (k.go inside B s.2 r.2).map fun k' => ((r.1, s.2), k')
    | .body =>
      if inside k.place then
        (B.move s.2 k.body).map fun r => ((s.1, r.1), ⟨k.place, r.2, k.done⟩)
      else none

end Program

/-- The configuration of the program that locks. -/
def Conf.locks (c : Conf τ (sh × δ) (Worker pc ρ)) : Conf τ sh pc :=
  ⟨c.shared.1, fun t => (c.pc t).place⟩

/-- The steps of the program that locks meet its condition. -/
def Locking (C : Conf τ sh pc → τ × act → Prop) (c : Conf τ (sh × δ) (Worker pc ρ))
    (l : τ × Work act) : Prop :=
  ∀ a, l.2 = .lock a → C c.locks (l.1, a)

namespace Worker

variable {P : Program τ sh pc act} {inside : pc → Bool} {B : Body δ ρ} {f : δ → δ}
  {init : sh → Prop} {start : pc} {C : Conf τ sh pc → τ × act → Prop} {d d₀ : δ}
  {k k' : Worker pc ρ} {p : pc} {t : τ}

theorem go_place (h : k.go inside B d p = some k') : k'.place = p := by
  unfold go at h
  split_ifs at h <;> cases h <;> rfl

section Section

variable [DecidableEq τ] [Fintype τ]

/-- `n` sections are over: nobody inside, the data are `f` applied `n` times; and who is inside has
begun with these. -/
structure Sections (inside : pc → Bool) (B : Body δ ρ) (f : δ → δ) (d₀ d : δ)
    (g : τ → Worker pc ρ) : Prop where
  outside : (∀ t, inside (g t).place = false) → d = f^[count Worker.done g] d₀
  inside : ∀ t, inside (g t).place = true →
    B.Along (f^[count Worker.done g] d₀) (g t).body d

variable {g : τ → Worker pc ρ}

theorem count_done (h : k'.done = (g t).done) :
    count Worker.done (Function.update g t k') = count Worker.done g := by
  have := count_update Worker.done g t k'
  omega

/-- A thread enters or leaves its section, or does neither. -/
theorem Sections.go (h : Sections inside B f d₀ d g) (hB : B.Computes f)
    (hone : ∀ u, inside (g t).place = true → inside (g u).place = true → u = t)
    (hin : inside p = true → ∀ u, u ≠ t → inside (g u).place = false)
    (hgo : (g t).go inside B d p = some k') :
    Sections inside B f d₀ d (Function.update g t k') := by
  have hplace := go_place hgo
  unfold Worker.go at hgo
  split_ifs at hgo with ht hp hover hp
  · cases hgo
    have hcount : count Worker.done (Function.update g t ⟨p, (g t).body, (g t).done⟩) =
        count Worker.done g := count_done rfl
    refine ⟨fun hall => ?_, ?_⟩
    · have := hall t
      rw [Function.update_self, hp] at this
      cases this
    · rw [hcount]
      exact Program.forall_update (L := fun _ (k : Worker pc ρ) => inside k.place = true →
        B.Along (f^[count Worker.done g] d₀) k.body d) (fun _ => h.inside t ht)
        fun u _ => h.inside u
  · cases hgo
    have hcount : count Worker.done (Function.update g t ⟨p, (g t).body, (g t).done + 1⟩) =
        count Worker.done g + 1 := by
      have := count_update Worker.done g t ⟨p, (g t).body, (g t).done + 1⟩
      simp only at this
      omega
    refine ⟨fun _ => ?_, fun u hu => ?_⟩
    · rw [hcount, Function.iterate_succ_apply']
      exact hB _ _ _ (h.inside t ht) (by simpa using hover)
    · rcases eq_or_ne u t with rfl | hut
      · rw [Function.update_self] at hu
        exact absurd hu hp
      · rw [Function.update_of_ne hut] at hu
        exact absurd (hone u ht hu) hut
  · cases hgo
    have hcount : count Worker.done (Function.update g t ⟨p, B.start, (g t).done⟩) =
        count Worker.done g := count_done rfl
    have hnone : ∀ u, inside (g u).place = false := by
      intro u
      rcases eq_or_ne u t with rfl | hut
      · simpa using ht
      · exact hin hp u hut
    refine ⟨fun hall => ?_, fun u hu => ?_⟩
    · have := hall t
      rw [Function.update_self, hp] at this
      cases this
    · rw [hcount, ← h.outside hnone]
      rcases eq_or_ne u t with rfl | hut
      · rw [Function.update_self]
        exact .start
      · rw [Function.update_of_ne hut, hnone u] at hu
        cases hu
  · cases hgo
    have hcount : count Worker.done (Function.update g t ⟨p, (g t).body, (g t).done⟩) =
        count Worker.done g := count_done rfl
    refine ⟨fun hall => ?_, fun u hu => ?_⟩
    · rw [hcount]
      refine h.outside fun u => ?_
      rcases eq_or_ne u t with rfl | hut
      · simpa using ht
      · have := hall u
        rwa [Function.update_of_ne hut] at this
    · rw [hcount]
      rcases eq_or_ne u t with rfl | hut
      · rw [Function.update_self] at hu
        exact absurd hu hp
      · rw [Function.update_of_ne hut] at hu ⊢
        exact h.inside u hu

/-- A step of the body of the one thread inside. -/
theorem Sections.move (h : Sections inside B f d₀ d g) (ht : inside (g t).place = true)
    (hone : ∀ u, inside (g u).place = true → u = t) {e : δ} {r : ρ}
    (hm : B.move d (g t).body = some (e, r)) :
    Sections inside B f d₀ e (Function.update g t ⟨(g t).place, r, (g t).done⟩) := by
  have hcount : count Worker.done (Function.update g t ⟨(g t).place, r, (g t).done⟩) =
      count Worker.done g := count_done rfl
  refine ⟨fun hall => ?_, fun u hu => ?_⟩
  · have := hall t
    rw [Function.update_self, ht] at this
    cases this
  · rw [hcount]
    rcases eq_or_ne u t with rfl | hut
    · rw [Function.update_self]
      exact (h.inside u ht).move hm
    · rw [Function.update_of_ne hut] at hu
      exact absurd (hone u hu) hut

theorem sections_reach (hB : B.Computes f) (hstart : inside start = false)
    (hone : ∀ c, (P.system init start).Reach C c → ∀ t u, inside (c.pc t) = true →
      inside (c.pc u) = true → t = u) {b : ρ} {c : Conf τ (sh × δ) (Worker pc ρ)}
    (h : ((P.underLock inside B).system (fun s => init s.1 ∧ s.2 = d₀) ⟨start, b, 0⟩).Reach
      (Locking C) c) :
    (P.system init start).Reach C c.locks ∧ Sections inside B f d₀ c.shared.2 c.pc := by
  refine h.induct (P := fun c => (P.system init start).Reach C c.locks ∧
    Sections inside B f d₀ c.shared.2 c.pc) ?_ ?_
  · rintro ⟨s, g⟩ ⟨⟨hs, hd⟩, hg⟩
    obtain rfl : g = fun _ => ⟨start, b, 0⟩ := hg
    have h0 : count Worker.done (fun _ : τ => (⟨start, b, 0⟩ : Worker pc ρ)) = 0 :=
      count_eq_zero.2 fun _ => rfl
    refine ⟨.init ⟨hs, rfl⟩, fun _ => ?_, fun t ht => ?_⟩
    · change s.2 = f^[count Worker.done fun _ : τ => ⟨start, b, 0⟩] d₀
      rw [h0]
      exact hd
    · rw [hstart] at ht
      cases ht
  · rintro c ⟨t, w⟩ c' - ⟨hr, hS⟩ hC hs
    obtain ⟨s', k', hn, rfl⟩ := Program.step_eq_some.1 hs
    cases w with
    | lock a =>
      simp only [Program.underLock, Option.bind_eq_some_iff, Option.map_eq_some_iff, Prod.exists,
        Prod.mk.injEq] at hn
      obtain ⟨s₁, p, hnext, k₁, hgo, rfl, rfl⟩ := hn
      have hplace := go_place hgo
      have hlocks : (P.system init start).step c.locks (t, a) =
          some ⟨s₁, Function.update c.locks.pc t p⟩ := Program.step_eq_some.2 ⟨_, _, hnext, rfl⟩
      have hr' : (P.system init start).Reach C ⟨s₁, Function.update c.locks.pc t p⟩ :=
        .step hr (hC a rfl) hlocks
      have hconf : (⟨(s₁, c.shared.2), Function.update c.pc t k₁⟩ :
          Conf τ (sh × δ) (Worker pc ρ)).locks = ⟨s₁, Function.update c.locks.pc t p⟩ := by
        simp only [Conf.locks, Conf.mk.injEq, true_and]
        funext u
        rcases eq_or_ne u t with rfl | hut
        · rw [Function.update_self, Function.update_self, hplace]
        · rw [Function.update_of_ne hut, Function.update_of_ne hut]
      refine ⟨hconf ▸ hr', hS.go hB (fun u ht hu => hone _ hr u t hu ht) (fun hp u hut => ?_) hgo⟩
      by_contra hne
      refine hut (hone _ hr' u t ?_ ?_)
      · change inside (Function.update c.locks.pc t p u) = true
        rw [Function.update_of_ne hut]
        exact Bool.not_eq_false _ ▸ hne
      · change inside (Function.update c.locks.pc t p t) = true
        rwa [Function.update_self]
    | body =>
      simp only [Program.underLock, Option.ite_none_right_eq_some, Option.map_eq_some_iff,
        Prod.exists, Prod.mk.injEq] at hn
      obtain ⟨ht, e, r, hm, rfl, rfl⟩ := hn
      have hconf : (⟨(c.shared.1, e), Function.update c.pc t ⟨(c.pc t).place, r, (c.pc t).done⟩⟩ :
          Conf τ (sh × δ) (Worker pc ρ)).locks = c.locks := by
        simp only [Conf.locks, Conf.mk.injEq, true_and]
        funext u
        rcases eq_or_ne u t with rfl | hut
        · rw [Function.update_self]
        · rw [Function.update_of_ne hut]
      exact ⟨hconf ▸ hr, hS.move ht (fun u hu => hone _ hr u t hu ht) hm⟩

/-- Sections run as if each were one step. -/
theorem atomic (hB : B.Computes f) (hstart : inside start = false)
    (hone : ∀ c, (P.system init start).Reach C c → ∀ t u, inside (c.pc t) = true →
      inside (c.pc u) = true → t = u) {b : ρ} {c : Conf τ (sh × δ) (Worker pc ρ)}
    (h : ((P.underLock inside B).system (fun s => init s.1 ∧ s.2 = d₀) ⟨start, b, 0⟩).Reach
      (Locking C) c) (hout : ∀ t, inside (c.pc t).place = false) :
    c.shared.2 = f^[count Worker.done c.pc] d₀ :=
  (sections_reach hB hstart hone h).2.outside hout

end Section

end Worker

end Interleaving

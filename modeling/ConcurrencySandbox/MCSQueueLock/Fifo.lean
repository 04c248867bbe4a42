import ConcurrencySandbox.MCSQueueLock.Basic
import ConcurrencySandbox.Structures.Adjacent

/-!
# The queue of `mTail`

The threads from the exchange of `mTail` to the release of the next one are a queue. A thread in it
has its successor in `mNext`, unless the successor is still to store itself there (`Inv.link`); only
the first may be unlocked. So `unlock` finds the successor that waits (`fair`).
-/

namespace ConcurrencySandbox

open Interleaving Structures

namespace MCSQueueLock

variable {τ I : Type*}

/-- What a thread knows of its own node. -/
def Own (locked : Bool) (next : Option τ) : PC τ → Prop
  | .storeNext => locked = true
  | .exchange => locked = true ∧ next = none
  | .reload => next ≠ none
  | .check o => o = next ∧ next ≠ none
  | .release v => next = some v
  | _ => True

def PlaceOwn (s : Shared τ I) (t : τ) : Place I (PC τ) → Prop
  | .out _ => True
  | .busy _ p _ => Own (s.mLocked t) (s.mNext t) p

theorem PlaceOwn.congr {s s' : Shared τ I} {t : τ} {x : Place I (PC τ)} (h : PlaceOwn s t x)
    (hl : s'.mLocked t = s.mLocked t) (hn : s'.mNext t = s.mNext t) : PlaceOwn s' t x := by
  unfold PlaceOwn at h ⊢
  rwa [hl, hn]

structure Inv (queue : I → List τ) (s : Shared τ I) (f : τ → Place I (PC τ)) : Prop where
  tail : ∀ i, s.mTail i = (queue i).getLast?
  last : ∀ i t, (queue i).getLast? = some t → s.mNext t = none
  link : ∀ i u v, Adjacent (queue i) u v → s.mLocked v = true ∧
    (f v = .busy i (.link u) [] ∧ s.mNext u = none ∨ f v = .busy i .spin [] ∧ s.mNext u = some v)
  head : ∀ i t p, (queue i).head? = some t → f t = .busy i p [] → p.phase = .waiting →
    p = .spin ∧ s.mLocked t = false
  own : ∀ t, PlaceOwn s t (f t)

variable [DecidableEq τ] [DecidableEq I] {queue : I → List τ} {s s' : Shared τ I}
  {f : τ → Place I (PC τ)} {t : τ} {i : I} {p : PC τ} {x : Place I (PC τ)}

omit [DecidableEq I] in
/-- A step of a thread that is in no queue, on its own node. -/
theorem Inv.outside (h : Inv queue s f) (ht : ∀ j, t ∉ queue j) (htail : s'.mTail = s.mTail)
    (hframe : ∀ u, u ≠ t → s'.mNext u = s.mNext u ∧ s'.mLocked u = s.mLocked u)
    (hown : PlaceOwn s' t x) : Inv queue s' (Function.update f t x) := by
  have hne : ∀ {j u}, u ∈ queue j → u ≠ t := fun hu he => ht _ (he ▸ hu)
  refine ⟨fun j => htail ▸ h.tail j, fun j u hu => ?_, fun j u v huv => ?_,
    fun j u p hu hf hp => ?_, Program.forall_update (L := PlaceOwn s') hown fun u hu => ?_⟩
  · rw [(hframe u (hne (List.mem_of_getLast? hu))).1]
    exact h.last j u hu
  · have hu := hne huv.mem.1
    have hv := hne huv.mem.2
    rw [(hframe v hv).2, (hframe u hu).1, Function.update_of_ne hv]
    exact h.link j u v huv
  · have hut := hne (List.mem_of_head? hu)
    rw [Function.update_of_ne hut] at hf
    rw [(hframe u hut).2]
    exact h.head j u p hu hf hp
  · exact (h.own u).congr (hframe u hu).2 (hframe u hu).1

omit [DecidableEq I] in
/-- A step of a thread that is behind no other, which writes nothing. -/
theorem Inv.inside (h : Inv queue s f) (ht : ∀ j u, ¬ Adjacent (queue j) u t)
    (hx : ∀ j p, x = .busy j p [] → p.phase ≠ .waiting) (hown : PlaceOwn s t x) :
    Inv queue s (Function.update f t x) := by
  refine ⟨h.tail, h.last, fun j u v huv => ?_, fun j u p hu hf hp => ?_,
    Program.forall_update (L := PlaceOwn s) hown fun u _ => h.own u⟩
  · have hvt : v ≠ t := fun he => ht j u (he ▸ huv)
    rw [Function.update_of_ne hvt]
    exact h.link j u v huv
  · by_cases hut : u = t
    · subst hut
      rw [Function.update_self] at hf
      exact absurd hp (hx j p hf)
    · rw [Function.update_of_ne hut] at hf
      exact h.head j u p hu hf hp

omit [DecidableEq τ] in
/-- The first of a queue is behind no other. -/
theorem not_adjacent_head (hS : Stands PC.phase queue f) (ht : (queue i).head? = some t) (j : I)
    (u : τ) : ¬ Adjacent (queue j) u t := by
  intro hu
  obtain rfl := hS.eq_of_mem (List.mem_of_head? ht) hu.mem.2
  exact hu.ne_head (hS.standing i).nodup ht

omit [DecidableEq τ] in
theorem head_of_held (hS : Stands PC.phase queue f) (hf : f t = .busy i p [])
    (hp : p.phase = .held) : (queue i).head? = some t := by
  obtain ⟨q, hq⟩ := hS.head_busy hf hp
  rw [hq, List.head?_cons]

/-- A waiting thread is behind another, or it is the first and unlocked. -/
theorem Inv.waiting (h : Inv queue s f) (hS : Stands PC.phase queue f) (hf : f t = .busy i p [])
    (hp : p.phase = .waiting) :
    (∃ u, Adjacent (queue i) u t) ∨ (queue i).head? = some t ∧ p = .spin ∧ s.mLocked t = false := by
  by_cases hhead : (queue i).head? = some t
  · exact .inr ⟨hhead, h.head i t p hhead hf hp⟩
  · exact .inl (exists_adjacent_left ((hS.mem_busy hf).2 ⟨rfl, by simp [hp]⟩) hhead)

omit [DecidableEq τ] [DecidableEq I] in
/-- The thread in `mNext` is the next one, and waits. -/
theorem Inv.next (h : Inv queue s f) (ht : t ∈ queue i) {v : τ} (hv : s.mNext t = some v) :
    Adjacent (queue i) t v ∧ s.mLocked v = true ∧ f v = .busy i .spin [] := by
  have hlast : (queue i).getLast? ≠ some t := fun hl => by simp [h.last i t hl] at hv
  obtain ⟨w, hw⟩ := exists_adjacent_right ht hlast
  obtain ⟨hl, ⟨-, h1⟩ | ⟨h1, h2⟩⟩ := h.link i t w hw
  · simp [h1] at hv
  · obtain rfl := Option.some.inj (h2.symm.trans hv)
    exact ⟨hw, hl, h1⟩

theorem Inv.exchange (h : Inv queue s f) (hS : Stands PC.phase queue f)
    (hf : f t = .busy i .exchange []) {o : Outcome (PC τ)}
    (ho : o = match s.mTail i with
      | none => .locked
      | some pred => .next (.link pred)) :
    Turn t (queue i) .idle (queue i ++ [t]) (o.phase PC.phase) ∧
      Inv (Function.update queue i (queue i ++ [t]))
        { s with mTail := Function.update s.mTail i (some t) }
        (Function.update f t (o.after i [])) := by
  have hout : ∀ j, t ∉ queue j := fun j hm => ((hS.mem_busy hf).1 hm).2 rfl
  have hne : ∀ {j u}, u ∈ queue j → u ≠ t := fun hu he => hout _ (he ▸ hu)
  obtain ⟨hlocked, hnext⟩ : Own (s.mLocked t) (s.mNext t) .exchange := by
    have := h.own t
    rwa [hf] at this
  have htail := h.tail i
  refine ⟨.take _ ?_ fun hheld => ?_, fun j => ?_, fun j u hu => ?_, fun j u v huv => ?_,
    fun j u p hu hfu hp => ?_, Program.forall_update (L := PlaceOwn _) ?_ fun u _ => h.own u⟩
  · rw [ho]
    split <;> simp [Outcome.phase, PC.phase]
  · rw [ho] at hheld
    split at hheld
    · rename_i hnone
      exact List.getLast?_eq_none_iff.1 (htail ▸ hnone)
    · simp [Outcome.phase, PC.phase] at hheld
  · rcases eq_or_ne j i with rfl | hji
    · simp
    · simpa [hji] using h.tail j
  · rcases eq_or_ne j i with rfl | hji
    · obtain rfl : t = u := by simpa using hu
      exact hnext
    · exact h.last j u (by simpa [hji] using hu)
  · rcases eq_or_ne j i with rfl | hji
    · rw [Function.update_self, adjacent_concat] at huv
      rcases huv with huv | ⟨hu, rfl⟩
      · rw [Function.update_of_ne (hne huv.mem.2)]
        exact h.link j u v huv
      · rw [Function.update_self, ho, htail, hu]
        exact ⟨hlocked, .inl ⟨rfl, h.last j u hu⟩⟩
    · rw [Function.update_of_ne hji] at huv
      rw [Function.update_of_ne (hne huv.mem.2)]
      exact h.link j u v huv
  · rcases eq_or_ne u t with rfl | hut
    · -- the first of a queue that was empty has the lock
      obtain rfl : j = i := by
        by_contra hji
        rw [Function.update_of_ne hji] at hu
        exact hout j (List.mem_of_head? hu)
      have hempty : queue j = [] := by
        rw [Function.update_self, List.head?_append] at hu
        cases hq : queue j with
        | nil => rfl
        | cons v q =>
          rw [hq] at hu
          obtain rfl : v = u := Option.some.inj hu
          exact absurd (hq ▸ List.mem_cons_self) (hout j)
      rw [hempty, List.getLast?_nil] at htail
      rw [Function.update_self, ho, htail] at hfu
      cases hfu
    · rw [Function.update_of_ne hut] at hfu
      refine h.head j u p ?_ hfu hp
      rcases eq_or_ne j i with rfl | hji
      · rw [Function.update_self, List.head?_append] at hu
        cases hq : queue j with
        | nil =>
          rw [hq] at hu
          exact absurd (Option.some.inj hu).symm hut
        | cons v q => rwa [hq] at hu
      · rwa [Function.update_of_ne hji] at hu
  · rw [ho]
    split <;> trivial

theorem Inv.link_next (h : Inv queue s f) (hS : Stands PC.phase queue f) {pred : τ}
    (hf : f t = .busy i (.link pred) []) :
    Inv queue { s with mNext := Function.update s.mNext pred (some t) }
      (Function.update f t (.busy i .spin [])) := by
  have hadj : Adjacent (queue i) pred t ∧ s.mNext pred = none := by
    rcases h.waiting hS hf rfl with ⟨u, hu⟩ | ⟨-, hp, -⟩
    · obtain ⟨-, ⟨h1, h2⟩ | ⟨h1, -⟩⟩ := h.link i u t hu
      · cases hf.symm.trans h1
        exact ⟨hu, h2⟩
      · cases hf.symm.trans h1
    · cases hp
  obtain ⟨hadj, hnone⟩ := hadj
  have hnd := fun j => (hS.standing j).nodup
  have hown : ∀ u, PlaceOwn { s with mNext := Function.update s.mNext pred (some t) } u (f u) := by
    intro u
    have hu := h.own u
    by_cases hup : u = pred
    · subst hup
      rcases hS.of_mem hadj.mem.1 with hfu | ⟨p, hfu, hp⟩
      · rw [hfu]
        trivial
      · rw [hfu] at hu ⊢
        simp only [PlaceOwn, hnone] at hu ⊢
        cases p with
        | exchange => exact absurd rfl hp
        | reload => exact absurd rfl hu
        | check o => exact absurd rfl hu.2
        | release v => cases hu
        | storeNext => exact hu
        | _ => trivial
    · exact hu.congr rfl (Function.update_of_ne hup _ _)
  refine ⟨h.tail, fun j u hu => ?_, fun j u v huv => ?_, fun j u p hu hfu hp => ?_,
    Program.forall_update (L := PlaceOwn _) trivial fun u _ => hown u⟩
  · have hup : u ≠ pred := by
      rintro rfl
      obtain rfl := hS.eq_of_mem hadj.mem.1 (List.mem_of_getLast? hu)
      exact hadj.ne_last (hnd i) hu
    simp only [Function.update_of_ne hup]
    exact h.last j u hu
  · rcases eq_or_ne v t with rfl | hvt
    · obtain rfl := hS.eq_of_mem hadj.mem.2 huv.mem.2
      obtain rfl := hadj.left_unique (hnd i) huv
      simp only [Function.update_self]
      exact ⟨(h.link i pred v huv).1, .inr ⟨trivial, trivial⟩⟩
    · have hup : u ≠ pred := by
        rintro rfl
        obtain rfl := hS.eq_of_mem hadj.mem.1 huv.mem.1
        exact hvt (huv.right_unique (hnd i) hadj)
      simp only [Function.update_of_ne hup, Function.update_of_ne hvt]
      exact h.link j u v huv
  · have hut : u ≠ t := by
      rintro rfl
      exact not_adjacent_head hS hu i pred hadj
    rw [Function.update_of_ne hut] at hfu
    exact h.head j u p hu hfu hp

/-- The holder that leaves the queue passes it on to the next, if there is one. -/
theorem Inv.leave (h : Inv queue s f) (hS : Stands PC.phase queue f) {q : List τ}
    (hq : queue i = t :: q) (hnext : s'.mNext = s.mNext)
    (htail : s'.mTail = Function.update s.mTail i q.getLast?)
    (hlocked : ∀ u, s'.mLocked u = if q.head? = some u then false else s.mLocked u)
    (hwait : ∀ u, q.head? = some u → f u = .busy i .spin [])
    (hown : PlaceOwn s' t x) : Inv (Function.update queue i q) s' (Function.update f t x) := by
  have hndq := (List.nodup_cons.1 (hq ▸ (hS.standing i).nodup)).2
  -- only the next thread is unlocked
  have hkeep : ∀ {j u v}, Adjacent (Function.update queue i q j) u v → q.head? ≠ some v := by
    intro j u v huv hv
    have hvi : v ∈ queue i := hq ▸ List.mem_cons_of_mem _ (List.mem_of_head? hv)
    obtain rfl := hS.eq_of_mem hvi (hS.mem_update hq huv.mem.2).1
    rw [Function.update_self] at huv
    exact huv.ne_head hndq hv
  refine ⟨fun j => ?_, fun j u hu => ?_, fun j u v huv => ?_, fun j u p hu hfu hp => ?_,
    Program.forall_update (L := PlaceOwn _) hown fun u _ => ?_⟩
  · rw [htail]
    rcases eq_or_ne j i with rfl | hji
    · simp
    · simpa [hji] using h.tail j
  · rw [hnext]
    refine h.last j u ?_
    rcases eq_or_ne j i with rfl | hji
    · rw [Function.update_self] at hu
      rw [hq, List.getLast?_cons, hu]
      rfl
    · rwa [Function.update_of_ne hji] at hu
  · obtain ⟨-, hvt⟩ := hS.mem_update hq huv.mem.2
    rw [hlocked, if_neg (hkeep huv), hnext, Function.update_of_ne hvt]
    exact h.link j u v (huv.of_update hq)
  · rw [Function.update_of_ne (hS.mem_update hq (List.mem_of_head? hu)).2] at hfu
    rcases eq_or_ne j i with rfl | hji
    · rw [Function.update_self] at hu
      cases hfu.symm.trans (hwait u hu)
      exact ⟨rfl, by rw [hlocked, if_pos hu]⟩
    · rw [Function.update_of_ne hji] at hu
      obtain ⟨h1, h2⟩ := h.head j u p hu hfu hp
      refine ⟨h1, ?_⟩
      rw [hlocked]
      split_ifs <;> trivial
  · by_cases hu : q.head? = some u
    · rw [hwait u hu]
      trivial
    · exact (h.own u).congr (by rw [hlocked, if_neg hu]) (by rw [hnext])

theorem queues_step (h : Inv queue s f) (hS : Stands PC.phase queue f) (hf : f t = .busy i p [])
    {o : Outcome (PC τ)} (hs : step t i s p = some (s', o)) :
    ∃ q, Turn t (queue i) p.phase q (o.phase PC.phase) ∧
      Inv (Function.update queue i q) s' (Function.update f t (o.after i [])) := by
  have hown := h.own t
  rw [hf] at hown
  have hout : p.phase = .idle → ∀ j, t ∉ queue j := fun hp j hm => ((hS.mem_busy hf).1 hm).2 hp
  have hhead : p.phase = .held → (queue i).head? = some t := head_of_held hS hf
  -- what the holder does inside the queue
  have hinside : ∀ p', p.phase = .held → p'.phase = .held → Own (s.mLocked t) (s.mNext t) p' →
      ∃ q, Turn t (queue i) p.phase q p'.phase ∧
        Inv (Function.update queue i q) s (Function.update f t (.busy i p' [])) := by
    intro p' hp hp' ho
    refine ⟨queue i, ?_, ?_⟩
    · rw [hp, hp']
      exact .wait _ _ (by simp) (by simp) fun _ => hS.head_busy hf hp
    rw [Function.update_eq_self]
    refine h.inside (not_adjacent_head hS (hhead hp)) ?_ ho
    rintro j p₁ ⟨⟩
    simp [hp']
  have hoff : ∀ s' p', p.phase = .idle → p'.phase = .idle → s'.mTail = s.mTail →
      (∀ u, u ≠ t → s'.mNext u = s.mNext u ∧ s'.mLocked u = s.mLocked u) →
      Own (s'.mLocked t) (s'.mNext t) p' → ∃ q, Turn t (queue i) p.phase q p'.phase ∧
        Inv (Function.update queue i q) s' (Function.update f t (.busy i p' [])) := by
    intro s' p' hp hp' htail hframe ho
    refine ⟨queue i, ?_, ?_⟩
    · rw [hp, hp']
      exact .away
    rw [Function.update_eq_self]
    exact h.outside (hout hp) htail hframe ho
  cases p with
  | storeLocked =>
    obtain ⟨rfl, rfl⟩ := Prod.mk.inj (Option.some.inj hs)
    exact hoff _ .storeNext rfl rfl rfl (fun u hu => ⟨rfl, Function.update_of_ne hu _ _⟩)
      (Function.update_self ..)
  | storeNext =>
    obtain ⟨rfl, rfl⟩ := Prod.mk.inj (Option.some.inj hs)
    exact hoff _ .exchange rfl rfl rfl (fun u hu => ⟨Function.update_of_ne hu _ _, rfl⟩)
      ⟨hown, Function.update_self ..⟩
  | exchange =>
    obtain ⟨rfl, rfl⟩ := Prod.mk.inj (Option.some.inj hs)
    exact ⟨_, h.exchange hS hf rfl⟩
  | link pred =>
    obtain ⟨rfl, rfl⟩ := Prod.mk.inj (Option.some.inj hs)
    refine ⟨queue i, .wait _ _ (by rintro ⟨⟩) (by rintro ⟨⟩) (by rintro ⟨⟩), ?_⟩
    rw [Function.update_eq_self]
    exact h.link_next hS hf
  | spin =>
    obtain ⟨rfl, rfl⟩ := Prod.mk.inj (Option.some.inj hs)
    refine ⟨queue i, ?_⟩
    rw [Function.update_eq_self]
    split_ifs with hl
    · refine ⟨.wait _ _ (by rintro ⟨⟩) (by rintro ⟨⟩) (by rintro ⟨⟩), ?_⟩
      rw [Outcome.after, ← hf, Function.update_eq_self]
      exact h
    · rcases h.waiting hS hf rfl with ⟨u, hu⟩ | ⟨hfirst, -, -⟩
      · exact absurd (h.link i u t hu).1 hl
      · exact ⟨.wait _ _ (by rintro ⟨⟩) (by rintro ⟨⟩) fun _ => List.head?_eq_some_iff.1 hfirst,
          h.inside (not_adjacent_head hS hfirst) (by rintro _ _ ⟨⟩) trivial⟩
  | loadNext =>
    obtain ⟨rfl, rfl⟩ := Prod.mk.inj (Option.some.inj hs)
    split_ifs with hn
    · exact hinside .compareExchange rfl rfl trivial
    · exact hinside .reload rfl rfl hn
  | compareExchange =>
    obtain ⟨q, hq⟩ := List.head?_eq_some_iff.1 (hhead rfl)
    simp only [step] at hs
    split_ifs at hs with htail
    · obtain ⟨rfl, rfl⟩ := Prod.mk.inj (Option.some.inj hs)
      -- the first thread is the last
      obtain rfl : q = [] := by
        have hlast := (h.tail i).symm.trans htail
        rw [hq] at hlast
        have hnd := (List.nodup_cons.1 (hq ▸ (hS.standing i).nodup)).1
        cases q with
        | nil => rfl
        | cons u q => exact absurd (List.mem_of_getLast? (List.getLast?_cons_cons ▸ hlast)) hnd
      exact ⟨[], .leave [] hq, h.leave hS hq rfl rfl (fun u => rfl) (by simp) trivial⟩
    · obtain ⟨rfl, rfl⟩ := Prod.mk.inj (Option.some.inj hs)
      exact hinside .waitNext rfl rfl trivial
  | waitNext =>
    obtain ⟨rfl, rfl⟩ := Prod.mk.inj (Option.some.inj hs)
    split_ifs with hn
    · exact hinside .waitNext rfl rfl trivial
    · exact hinside .reload rfl rfl hn
  | reload =>
    obtain ⟨rfl, rfl⟩ := Prod.mk.inj (Option.some.inj hs)
    exact hinside (.check (s.mNext t)) rfl rfl ⟨rfl, hown⟩
  | check o =>
    obtain ⟨rfl, hne⟩ : o = s.mNext t ∧ s.mNext t ≠ none := hown
    obtain ⟨v, hv⟩ := Option.ne_none_iff_exists'.1 hne
    rw [hv, step] at hs
    split_ifs at hs
    obtain ⟨rfl, rfl⟩ := Prod.mk.inj (Option.some.inj hs)
    exact hinside (.release v) rfl rfl hv
  | release v =>
    obtain ⟨rfl, rfl⟩ := Prod.mk.inj (Option.some.inj hs)
    obtain ⟨q, hq⟩ := List.head?_eq_some_iff.1 (hhead rfl)
    obtain ⟨hadj, -, hwait⟩ := h.next (hq ▸ List.mem_cons_self) hown
    have hv : q.head? = some v := by
      rw [hq] at hadj
      refine (adjacent_cons.1 hadj).elim And.right fun hadj => ?_
      exact absurd hadj.mem.1 (List.nodup_cons.1 (hq ▸ (hS.standing i).nodup)).1
    refine ⟨q, .leave q hq, h.leave hS hq rfl ?_ (fun u => ?_) (fun u hu => ?_) trivial⟩
    · have htail := h.tail i
      cases q with
      | nil => cases hv
      | cons w q => rw [hq, List.getLast?_cons_cons] at htail; rw [← htail, Function.update_eq_self]
    · by_cases hu : u = v
      · rw [hu, if_pos hv]
        exact Function.update_self ..
      · rw [if_neg fun h => hu (Option.some.inj (h.symm.trans hv))]
        exact Function.update_of_ne hu _ _
    · rw [hv] at hu
      exact Option.some.inj hu ▸ hwait
  | clear =>
    obtain ⟨rfl, rfl⟩ := Prod.mk.inj (Option.some.inj hs)
    refine ⟨queue i, .away, ?_⟩
    rw [Function.update_eq_self]
    exact h.outside (hout rfl) rfl (fun u hu => ⟨Function.update_of_ne hu _ _, rfl⟩) trivial

theorem queues : Queues (lockClass τ I) (fun s => s = initial τ I) PC.phase Inv where
  lock_idle := rfl
  unlock_held := rfl
  init := by
    rintro s rfl
    exact ⟨fun _ => rfl, nofun, fun _ _ _ h => absurd h not_adjacent_nil, nofun, fun _ => trivial⟩
  lock hS h hf := h.outside (fun j => hS.not_mem_out hf) rfl (fun _ _ => ⟨rfl, rfl⟩) trivial
  unlock hS h hf := by
    obtain ⟨q, hq⟩ := hS.head_out hf
    refine h.inside (not_adjacent_head hS (by rw [hq, List.head?_cons])) ?_ trivial
    rintro j p ⟨⟩
    nofun
  step hS h hf hs := queues_step h hS hf hs

/-- An instance is a fair lock, and `unlock` finds a next thread that is locked. -/
structure Correct {n : ℕ} (r : (system τ I).Run Unnested n) (i : I) : Prop where
  fifo : Fifo r (Place.phase PC.phase i)
  asserted : ∀ k ≤ n, ∀ t next held, (r.state k).pc t = .busy i (.check next) held →
    ∃ u, next = some u ∧ (r.state k).shared.mLocked u = true

theorem fair {n : ℕ} (r : (system τ I).Run Unnested n) (i : I) : Correct r i := by
  refine ⟨queues.fifo r i, fun k hk t next held hf => ?_⟩
  obtain ⟨queue, hS, h⟩ := queues.reach (r.reach hk)
  obtain rfl : held = [] := by
    have := hS.flat t
    rwa [hf] at this
  have hown := h.own t
  rw [hf] at hown
  obtain ⟨rfl, hne⟩ := hown
  obtain ⟨u, hu⟩ := Option.ne_none_iff_exists'.1 hne
  exact ⟨u, hu, (h.next ((hS.mem_busy hf).2 ⟨rfl, nofun⟩) hu).2.1⟩

/-- Thread 0 unlocks before thread 1 has linked its node, waits for it and passes the lock on, with
thread 2 still in the queue; then it locks the other instance. -/
theorem fair_contended : ∃ (n : ℕ) (r : (system (Fin 3) (Fin 2)).Run Unnested n),
    (r.state 15).pc 0 = .busy 0 .waitNext [] ∧
      (((r.state n).pc 0).phase PC.phase 1 = .held ∧ ((r.state n).pc 1).phase PC.phase 0 = .held ∧
        ((r.state n).pc 2).phase PC.phase 0 = .waiting) ∧ ∀ i, Correct r i := by
  let run (t : Fin 3) (n : ℕ) : List (Fin 3 × Call (Fin 2)) := List.replicate n (t, .run)
  let as : List (Fin 3 × Call (Fin 2)) := (0, .lock 0) :: run 0 3 ++ (1, .lock 0) :: run 1 3 ++
    (2, .lock 0) :: run 2 3 ++ (0, .unlock) :: run 0 3 ++ run 1 1 ++ run 0 5 ++
    run 1 1 ++ run 2 2 ++ (0, .lock 1) :: run 0 3
  obtain ⟨r, hr⟩ := System.exists_run_through (S := system (Fin 3) (Fin 2)) (C := Unnested) as
    (0, .run) (s := ⟨initial _ _, fun _ => .out []⟩) ⟨rfl, rfl⟩ (fun _ _ => id) (by decide +kernel)
  have hwaits := hr 15 (by decide) (fun c => c.pc 0 = .busy 0 .waitNext []) ⟨_, rfl, rfl⟩
  have hlast := hr as.length le_rfl (fun c => (c.pc 0).phase PC.phase 1 = .held ∧
    (c.pc 1).phase PC.phase 0 = .held ∧ (c.pc 2).phase PC.phase 0 = .waiting)
    ⟨_, rfl, rfl, rfl, rfl⟩
  exact ⟨_, r, hwaits, hlast, fair r⟩

end MCSQueueLock

end ConcurrencySandbox

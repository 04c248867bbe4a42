import Mathlib.Data.Fintype.Basic
import ConcurrencySandbox.HazardPointer.Refinement

/-!
# claimPointer

Threads that publish addresses in shared locations, claim what they find there, and retire what
they have removed. `Disciplined` is what the callers promise: a location is given only addresses
that are allocated and not retired, an address is retired once, when no location holds it, and is
handed out again only after its deleter ran.

Then what `claimPointer` returned is not freed while its slot is left alone (`claimed_not_freed`).
The slot held the address while a location did, so it was not retired yet, and any scan that could
free it begins after it was retired.
-/

namespace ConcurrencySandbox

open Interleaving

namespace HazardPointer

inductive Life
  | free
  | live
  | retired
  deriving DecidableEq

structure Shared (τ L A : Type*) where
  domain : Domain τ A
  location : L → Option A
  life : A → Life

inductive PC (τ L A : Type*)
  | domain (f : Frame τ A)
  -- claimPointer
  | claimLoad (l : L) (i : ℕ)
  | claimStore (l : L) (i : ℕ) (p : Option A)
  | claimCheck (l : L) (i : ℕ) (p : Option A)
  | claimed (i : ℕ) (p : Option A)

/-- `write` is any change of a location: a store, an exchange or a successful compare-and-swap.
`store` to a slot covers `release`. -/
inductive Act (L A : Type*)
  | run (ok : Bool)
  | claim (l : L) (i : ℕ)
  | store (i : ℕ) (v : Option A)
  | alloc (a : A)
  | write (l : L) (v : Option A)
  | retire (a : A)
  | tryDeallocate
  | exit (listFirst : Bool)

variable {τ L A : Type*} [DecidableEq τ] [DecidableEq L] [DecidableEq A]

/-- What a step does to the slots and the retired addresses. -/
def event (N : ℕ) (t : τ) (act : Act L A) (s : Shared τ L A) (pc : PC τ L A) :
    Hazards.Event (τ × ℕ) A :=
  match pc, act with
  | .domain .ready, .store i v => .store (t, i) v
  | .domain .ready, .retire a => .retire a
  | .domain f, .run ok =>
    match s.domain.step N t ok f with
    | some (_, _, e) => e
    | none => .skip
  | .claimStore _ i p, .run _ => .store (t, i) p
  | _, _ => .skip

def Shared.setLife (s : Shared τ L A) (a : A) (x : Life) : Shared τ L A :=
  { s with life := Function.update s.life a x }

/-- One atomic step of thread `t`. -/
def next (N : ℕ) (t : τ) (act : Act L A) (s : Shared τ L A) (pc : PC τ L A) :
    Option (Shared τ L A × PC τ L A) :=
  match pc, act with
  | .domain .ready, .claim l i => if i < N then some (s, .claimLoad l i) else none
  | .domain .ready, .store i v =>
    if i < N then some ({ s with domain := s.domain.store t i v }, .domain .ready) else none
  | .domain .ready, .alloc a => some (s.setLife a .live, .domain .ready)
  | .domain .ready, .write l v =>
    some ({ s with location := Function.update s.location l v }, .domain .ready)
  | .domain .ready, .retire a =>
    some ({ s.setLife a .retired with domain := s.domain.retire t a }, .domain .retireTest)
  | .domain .ready, .tryDeallocate => some (s, .domain .loadGlobal)
  | .domain .ready, .exit listFirst =>
    some (s, .domain (if listFirst then .exitList true else .exitOwner N true))
  | .domain f, .run ok =>
    match s.domain.step N t ok f with
    | some (d, f', .free a) => some ({ s.setLife a .free with domain := d }, .domain f')
    | some (d, f', _) => some ({ s with domain := d }, .domain f')
    | none => none
  | .claimLoad l i, .run _ => some (s, .claimStore l i (s.location l))
  | .claimStore l i p, .run _ =>
    some ({ s with domain := s.domain.store t i p }, .claimCheck l i p)
  | .claimCheck l i p, .run _ =>
    if s.location l = p then some (s, .claimed i p) else some (s, .claimLoad l i)
  | .claimed _ _, .run _ => some (s, .domain .ready)
  | _, _ => none

def program (N : ℕ) : Program τ (Shared τ L A) (PC τ L A) (Act L A) := ⟨next N⟩

/-- Threads that start, claim, publish, retire and exit, from locations that hold live addresses or
none. -/
def system (N : ℕ) : System (Conf τ (Shared τ L A) (PC τ L A)) (τ × Act L A) :=
  (program N).system (fun s => s.domain = .initial ∧ (∀ a, s.life a ≠ .retired) ∧
    ∀ l a, s.location l = some a → s.life a = .live) (.domain .unstarted)

/-- What the callers of the domain promise. -/
def Disciplined (c : Conf τ (Shared τ L A) (PC τ L A)) (l : τ × Act L A) : Prop :=
  match l.2 with
  | .alloc a => c.shared.life a = .free
  | .write _ (some a) => c.shared.life a = .live
  | .retire a => c.shared.life a = .live ∧ ∀ l, c.shared.location l ≠ some a
  | _ => True

instance [Fintype L] (c : Conf τ (Shared τ L A) (PC τ L A)) : ∀ l, Decidable (Disciplined c l)
  | (_, .alloc a) => inferInstanceAs (Decidable (c.shared.life a = .free))
  | (_, .write _ (some a)) => inferInstanceAs (Decidable (c.shared.life a = .live))
  | (_, .retire a) => inferInstanceAs (Decidable (c.shared.life a = .live ∧
      ∀ l, c.shared.location l ≠ some a))
  | (_, .run _) | (_, .claim ..) | (_, .store ..) | (_, .write _ none) | (_, .tryDeallocate)
  | (_, .exit _) => isTrue trivial

def frameOf : PC τ L A → Frame τ A
  | .domain f => f
  | _ => .ready

structure Kept (N : ℕ) (f : τ → PC τ L A) (h : Hazards (τ × ℕ) A) (s : Shared τ L A) : Prop where
  refines : Refines N s.domain (frameOf ∘ f) h
  retired : ∀ a, a ∈ h.retired ↔ s.life a = .retired
  location : ∀ l a, s.location l = some a → s.life a = .live

/-- What a claim has of its slot. -/
def Placed (N : ℕ) (h : Hazards (τ × ℕ) A) (t : τ) : PC τ L A → Prop
  | .claimLoad _ i | .claimStore _ i _ => i < N
  | .claimCheck _ i p => i < N ∧ h.pointer (t, i) = p
  | .claimed i (some p) => h.Guarded (t, i) p
  | _ => True

variable {N : ℕ} {h : Hazards (τ × ℕ) A} {s s' : Shared τ L A} {f : τ → PC τ L A} {t u : τ}
  {p p' : PC τ L A} {act : Act L A} {fr : Frame τ A} {ok : Bool}

omit [DecidableEq L] in
theorem event_domain : event N t (.run ok : Act L A) s (.domain fr) =
    match s.domain.step N t ok fr with
    | some (_, _, e) => e
    | none => .skip := by
  cases fr <;> rfl

omit [DecidableEq L] in
/-- A thread stores to its own slots only. -/
theorem event_store {x : τ × ℕ} {v : Option A} (he : event N t act s p = .store x v) :
    x.1 = t := by
  unfold event at he
  split at he
  · exact (Prod.mk.inj (Hazards.Event.store.inj he).1).1 ▸ rfl
  · cases he
  · split at he
    · rename_i hs
      rcases step_event hs with rfl | ⟨i, rfl⟩ | ⟨a, rfl⟩ <;> cases he
      rfl
    · cases he
  · cases he
    rfl
  · cases he

omit [DecidableEq L] in
theorem Placed.apply {e : Hazards.Event (τ × ℕ) A} (hp : Placed N h u p) (he : h.Enabled e)
    (hs : ∀ i v, e ≠ .store (u, i) v) : Placed N (h.apply e) u p := by
  cases p with
  | claimCheck l i q =>
    refine ⟨hp.1, ?_⟩
    cases e with
    | store x v =>
      have hne : (u, i) ≠ x := fun hx => hs i v (hx ▸ rfl)
      simpa [Hazards.apply, hne] using hp.2
    | _ => exact hp.2
  | claimed i q =>
    cases q with
    | some a => exact (Hazards.Guarded.apply hp he fun v hv => absurd hv (hs i v)).1
    | none => trivial
  | claimLoad l i | claimStore l i _ => exact hp
  | domain _ => trivial

omit [DecidableEq L] [DecidableEq A] in
theorem Kept.of_refines (hR : Refines N s'.domain (Function.update (frameOf ∘ f) t (frameOf p')) h)
    (hr : ∀ a, a ∈ h.retired ↔ s'.life a = .retired)
    (hl : ∀ l a, s'.location l = some a → s'.life a = .live) :
    Kept N (Function.update f t p') h s' :=
  ⟨by rwa [Function.comp_update], hr, hl⟩

theorem kept_step (hK : Kept N f h s) (ht : Placed N h t (f t)) (hC : Disciplined ⟨s, f⟩ (t, act))
    (hn : next N t act s (f t) = some (s', p')) :
    h.Enabled (event N t act s (f t)) ∧
      Kept N (Function.update f t p') (h.apply (event N t act s (f t))) s' ∧
      Placed N (h.apply (event N t act s (f t))) t p' := by
  obtain ⟨hR, hret, hloc⟩ := hK
  have hfr : (frameOf ∘ f) t = frameOf (f t) := rfl
  have move : ∀ {q : Frame τ A}, pending q = pending (frameOf (f t)) →
      registered N q ≤ registered N (frameOf (f t)) → Scanned h (s.domain.localDeleteList t) q →
        Refines N s.domain (Function.update (frameOf ∘ f) t q) h := fun h1 h2 h3 => hR.move h1 h2 h3
  have store : ∀ {q : Frame τ A} {i : ℕ} (v : Option A), i < registered N (frameOf (f t)) →
      pending q = pending (frameOf (f t)) → registered N q ≤ registered N (frameOf (f t)) →
        Scanned h (s.domain.localDeleteList t) q →
          Refines N (s.domain.store t i v) (Function.update (frameOf ∘ f) t q)
            (h.apply (.store (t, i) v)) := fun v h1 h2 h3 h4 => hR.store v h1 h2 h3 h4
  revert hn
  generalize f t = p at ht hfr move store
  fun_cases next N t act s p <;> intro hn <;> cases hn
  · exact ⟨trivial, .of_refines (move rfl le_rfl trivial) hret hloc, ‹_›⟩
  · exact ⟨trivial, .of_refines (store _ ‹_› rfl le_rfl trivial) hret hloc, trivial⟩
  · -- alloc
    rename_i a
    refine ⟨trivial, .of_refines (move rfl le_rfl trivial) (fun b => ?_) fun l b hb => ?_, trivial⟩
    · refine (hret b).trans ?_
      by_cases hab : b = a
      · subst hab
        simp [Shared.setLife, show s.life b = .free from hC]
      · simp [Shared.setLife, hab]
    · by_cases hab : b = a
      · simp [Shared.setLife, hab]
      · simpa [Shared.setLife, hab] using hloc l b hb
  · -- write
    rename_i l v
    refine ⟨trivial, .of_refines (move rfl le_rfl trivial) hret fun l' b hb => ?_, trivial⟩
    by_cases hll : l' = l
    · subst hll
      obtain rfl : v = some b := by simpa using hb
      exact hC
    · exact hloc l' b (by simpa [hll] using hb)
  · -- retire
    rename_i a
    obtain ⟨hlive, hnot⟩ := hC
    have ha : a ∉ h.retired := fun ha => by cases hlive.symm.trans ((hret a).1 ha)
    refine ⟨ha, .of_refines (hR.retire hfr ha) (fun b => ?_) fun l b hb => ?_, trivial⟩
    · by_cases hab : b = a
      · subst hab
        exact iff_of_true (Set.mem_insert _ _) (by simp [Shared.setLife])
      · simpa [Hazards.apply, event, Shared.setLife, hab] using hret b
    · have hab : b ≠ a := fun e => hnot l (e ▸ hb)
      simpa [Shared.setLife, hab] using hloc l b hb
  · exact ⟨trivial, .of_refines (move rfl le_rfl trivial) hret hloc, trivial⟩
  · rename_i listFirst
    cases listFirst
    · exact ⟨trivial, .of_refines (move rfl le_rfl trivial) hret hloc, trivial⟩
    · exact ⟨trivial, .of_refines (move rfl le_rfl trivial) hret hloc, trivial⟩
  · -- a deleter
    rename_i fr ok d fr' a hs
    obtain ⟨he, hR'⟩ := hR.step ((congrArg (s.domain.step N t ok) hfr).trans hs)
    rw [event_domain, hs]
    have hlive : ∀ l, s.location l ≠ some a := fun l hl => by
      cases (hloc l a hl).symm.trans ((hret a).1 he.1)
    refine ⟨he, .of_refines hR' (fun b => ?_) fun l b hb => ?_, trivial⟩
    · by_cases hab : b = a
      · simp [Hazards.apply, Shared.setLife, hab]
      · simpa [Hazards.apply, Shared.setLife, hab] using hret b
    · have hab : b ≠ a := fun e => hlive l (e ▸ hb)
      simpa [Shared.setLife, hab] using hloc l b hb
  · rename_i fr ok d fr' e hne hs
    obtain ⟨he, hR'⟩ := hR.step ((congrArg (s.domain.step N t ok) hfr).trans hs)
    rw [event_domain, hs]
    refine ⟨he, .of_refines hR' (fun b => ?_) hloc, trivial⟩
    rcases step_event hs with rfl | ⟨i, rfl⟩ | ⟨a, rfl⟩
    · exact hret b
    · exact hret b
    · exact absurd rfl (hne a)
  · exact ⟨trivial, .of_refines (move rfl le_rfl trivial) hret hloc, ht⟩
  · exact ⟨trivial, .of_refines (store _ ht rfl le_rfl trivial) hret hloc, ht,
      by simp [Hazards.apply, event]⟩
  · -- the location still holds what is in the slot
    rename_i l i ok
    refine ⟨trivial, .of_refines (move rfl le_rfl trivial) hret hloc, ?_⟩
    show Placed N h t (.claimed i (s.location l))
    cases hl : s.location l with
    | none => trivial
    | some a =>
      refine ⟨hl ▸ ht.2, fun ha => ?_⟩
      cases (hloc l a hl).symm.trans ((hret a).1 ha)
  · exact ⟨trivial, .of_refines (move rfl le_rfl trivial) hret hloc, ht.1⟩
  · exact ⟨trivial, .of_refines (move rfl le_rfl trivial) hret hloc, trivial⟩

/-- The domain, its slots and the claims in every state of a disciplined run. -/
def Held (N : ℕ) (h : Hazards (τ × ℕ) A) (c : Conf τ (Shared τ L A) (PC τ L A)) : Prop :=
  Kept N c.pc h c.shared ∧ ∀ t, Placed N h t (c.pc t)

variable {c c' : Conf τ (Shared τ L A) (PC τ L A)} {l : τ × Act L A}

def stepEvent (N : ℕ) (c : Conf τ (Shared τ L A) (PC τ L A)) (l : τ × Act L A) :
    Hazards.Event (τ × ℕ) A :=
  event N l.1 l.2 c.shared (c.pc l.1)

theorem held_step (hH : Held N h c) (hC : Disciplined c l) (hs : (system N).step c l = some c') :
    h.Enabled (stepEvent N c l) ∧ Held N (h.apply (stepEvent N c l)) c' := by
  obtain ⟨t, act⟩ := l
  obtain ⟨s', p', hn, rfl⟩ := Program.step_eq_some.1 hs
  obtain ⟨he, hK, hp⟩ := kept_step hH.1 (hH.2 t) hC hn
  refine ⟨he, hK, Program.forall_update hp fun u hu => (hH.2 u).apply he fun i v hst => ?_⟩
  exact hu (event_store hst)

theorem held_reach (hr : (system N).Reach Disciplined c) : ∃ h, Held N h c := by
  refine hr.induct (P := fun c => ∃ h, Held N h c) ?_ ?_
  · rintro ⟨s, f⟩ ⟨⟨hd, hlife, hloc⟩, rfl⟩
    exact ⟨_, ⟨hd ▸ Refines.init N, fun a => iff_of_false id (hlife a), hloc⟩, fun _ => trivial⟩
  · rintro c l c' - ⟨h, hh⟩ hC hs
    exact ⟨_, (held_step hh hC hs).2⟩

/-- Hazard pointer safety: from the moment `claimPointer` returned `p`, as long as the slot it
stored `p` in is not stored to, no deleter runs on `p`. -/
theorem claimed_not_freed {n : ℕ} (r : (system N).Run (Disciplined (τ := τ) (L := L) (A := A)) n)
    {t : τ} {i k m : ℕ} {p : A} (hk : (r.state k).pc t = .claimed i (some p)) (hkm : k ≤ m)
    (hm : m < n)
    (hs : ∀ j, k ≤ j → j < m → ∀ v, stepEvent N (r.state j) (r.label j) ≠ .store (t, i) v) :
    stepEvent N (r.state m) (r.label m) ≠ .free p := by
  have guarded : ∀ j, k ≤ j → j ≤ m → ∃ h, Held N h (r.state j) ∧ h.Guarded (t, i) p := by
    intro j hkj
    induction j, hkj using Nat.le_induction with
    | base =>
      intro _
      obtain ⟨h, hh⟩ := held_reach (r.reach (i := k) (by omega))
      have := hh.2 t
      rw [hk] at this
      exact ⟨h, hh, this⟩
    | succ j hkj ih =>
      intro hjm
      obtain ⟨h, hh, hg⟩ := ih (by omega)
      obtain ⟨he, hh'⟩ := held_step hh (r.meets j (by omega)) (r.step j (by omega))
      exact ⟨_, hh', (hg.apply he fun v hv => absurd hv (hs j hkj (by omega) v)).1⟩
  obtain ⟨h, hh, hg⟩ := guarded m hkm le_rfl
  obtain ⟨he, -⟩ := held_step hh (r.meets m hm) (r.step m hm)
  intro hf
  rw [hf] at he
  exact (hg.apply he nofun).2 rfl

omit [DecidableEq L] in
theorem stepEvent_store {x : τ × ℕ} {v : Option A} (he : stepEvent N c l = .store x v) :
    x.1 = l.1 :=
  event_store he

/-- Thread 1 removes what thread 0 has claimed, retires it and scans; its scan keeps it. -/
theorem claimed_not_freed_scan : ∃ r : (system 1).Run
    (Disciplined (τ := Fin 2) (L := Fin 1) (A := ℕ)) 24,
    (r.state 14).pc 0 = .claimed 0 (some 7) ∧
      (r.state 23).pc 1 = .domain (.filter [7] [none, some 7]) ∧
      stepEvent 1 (r.state 23) (r.label 23) ≠ .free 7 := by
  let start (t : Fin 2) : List (Fin 2 × Act (Fin 1) ℕ) := List.replicate 4 (t, .run true)
  let as : List (Fin 2 × Act (Fin 1) ℕ) := start 0 ++ start 1 ++
    [(0, .alloc 7), (0, .write 0 (some 7)), (0, .claim 0 0), (0, .run true), (0, .run true),
      (0, .run true), (1, .write 0 none), (1, .retire 7), (1, .run true), (1, .tryDeallocate),
      (1, .run true), (1, .run true), (1, .run true), (1, .run true), (1, .run true),
      (1, .run true)]
  let s : Shared (Fin 2) (Fin 1) ℕ := ⟨.initial, fun _ => none, fun _ => .free⟩
  have hex : ∃ c, (system 1).execIf Disciplined ⟨s, fun _ => .domain .unstarted⟩ as = some c :=
    ⟨_, rfl⟩
  obtain ⟨c, hc⟩ := hex
  obtain ⟨hc, hC⟩ := System.execIf_eq_some hc
  obtain ⟨r, hr, hl⟩ := System.exists_run (S := system 1) (0, .run true)
    ⟨⟨rfl, nofun, nofun⟩, rfl⟩ hc hC
  have h14 : (r.state 14).pc 0 = .claimed 0 (some 7) := by
    rw [← Option.some.inj (hr 14 (by decide))]
    rfl
  have h23 : (r.state 23).pc 1 = .domain (.filter [7] [none, some 7]) := by
    rw [← Option.some.inj (hr 23 (by decide))]
    rfl
  have hthread : ∀ j (hj : j < as.length), 14 ≤ j → as[j].1 = 1 := by decide
  refine ⟨r, h14, h23, claimed_not_freed r h14 (by decide) (by decide) fun j h1 h2 v he => ?_⟩
  have hj : j < as.length := h2.trans (by decide)
  have := stepEvent_store he
  rw [hl j hj, hthread j hj h1] at this
  cases this

end HazardPointer

end ConcurrencySandbox

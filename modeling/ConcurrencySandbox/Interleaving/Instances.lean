import ConcurrencySandbox.Interleaving.Turns

/-!
# Several locks of one class

A class of locks gives the atomic steps of `lock` and `unlock` on an instance. Threads lock any
instances, hold several at once and release them in reverse order (`LockClass.program`). When they
lock only while they hold none (`Unnested`), a queue for every instance that the steps of the class
respect (`Queues`) makes every instance a fair lock (`Queues.fifo`).
-/

namespace Interleaving

/-- How a step of a call ends. -/
inductive Outcome (P : Type*)
  | next (p : P)
  | locked
  | unlocked

/-- The first step of either call, and what each step does. -/
structure LockClass (τ I sh P : Type*) where
  lock : P
  unlock : P
  step : τ → I → sh → P → Option (sh × Outcome P)

/-- Where a thread is, with the instances it holds, the latest first. -/
inductive Place (I P : Type*)
  | out (held : List I)
  | busy (i : I) (p : P) (held : List I)

inductive Call (I : Type*)
  | run
  | lock (i : I)
  | unlock

variable {τ I sh P : Type*}

def Outcome.after (i : I) (held : List I) : Outcome P → Place I P
  | .next p => .busy i p held
  | .locked => .out (i :: held)
  | .unlocked => .out held

def Outcome.phase (phase : P → Phase) : Outcome P → Phase
  | .next p => phase p
  | .locked => .held
  | .unlocked => .idle

def LockClass.next (L : LockClass τ I sh P) (t : τ) (call : Call I) (s : sh) :
    Place I P → Option (sh × Place I P)
  | .out held =>
    match call, held with
    | .lock i, held => some (s, .busy i L.lock held)
    | .unlock, i :: held => some (s, .busy i L.unlock held)
    | _, _ => none
  | .busy i p held =>
    match call with
    | .run => (L.step t i s p).map fun r => (r.1, r.2.after i held)
    | _ => none

def LockClass.program (L : LockClass τ I sh P) : Program τ sh (Place I P) (Call I) := ⟨L.next⟩

/-- A step calls `lock` or `unlock`, or is a step of the call. -/
theorem LockClass.next_cases {L : LockClass τ I sh P} {t : τ} {a : Call I} {s s' : sh}
    {x x' : Place I P} (h : L.next t a s x = some (s', x')) :
    (∃ i held, x = .out held ∧ a = .lock i ∧ s' = s ∧ x' = .busy i L.lock held) ∨
      (∃ i held, x = .out (i :: held) ∧ a = .unlock ∧ s' = s ∧ x' = .busy i L.unlock held) ∨
      ∃ i p held o, x = .busy i p held ∧ a = .run ∧ L.step t i s p = some (s', o) ∧
        x' = o.after i held := by
  cases x with
  | out held =>
    cases a with
    | lock i =>
      obtain ⟨rfl, rfl⟩ := Prod.mk.inj (Option.some.inj h)
      exact .inl ⟨i, held, rfl, rfl, rfl, rfl⟩
    | unlock =>
      cases held with
      | nil => cases h
      | cons i held =>
        obtain ⟨rfl, rfl⟩ := Prod.mk.inj (Option.some.inj h)
        exact .inr (.inl ⟨i, held, rfl, rfl, rfl, rfl⟩)
    | run => cases h
  | busy i p held =>
    cases a with
    | run =>
      obtain ⟨⟨s₁, o⟩, hstep, he⟩ := Option.map_eq_some_iff.1 h
      obtain ⟨rfl, rfl⟩ := Prod.mk.inj he
      exact .inr (.inr ⟨i, p, held, o, rfl, rfl, hstep, rfl⟩)
    | lock | unlock => cases h

/-- A thread that calls `lock` holds no instance. -/
def Unnested (c : Conf τ sh (Place I P)) (l : τ × Call I) : Prop :=
  ∀ i held, l.2 = .lock i → c.pc l.1 = .out held → held = []

instance (c : Conf τ sh (Place I P)) (l : τ × Call I) : Decidable (Unnested c l) :=
  match hl : l.2, hp : c.pc l.1 with
  | .lock _, .out [] => .isTrue fun _ _ _ h => (Place.out.inj (hp.symm.trans h)).symm
  | .lock i, .out (_ :: _) => .isFalse fun h => nomatch h i _ hl hp
  | .lock _, .busy .. => .isTrue fun _ _ _ h => nomatch hp.symm.trans h
  | .run, _ => .isTrue fun _ _ h => nomatch hl.symm.trans h
  | .unlock, _ => .isTrue fun _ _ h => nomatch hl.symm.trans h

/-- The thread holds one instance at most. -/
def Place.Flat : Place I P → Prop
  | .out held => held.length ≤ 1
  | .busy _ _ held => held = []

variable [DecidableEq I]

/-- What the thread is to one instance. -/
def Place.phase (phase : P → Phase) (i : I) : Place I P → Phase
  | .out held => if i ∈ held then .held else .idle
  | .busy j p held => if i ∈ held then .held else if j = i then phase p else .idle

/-- No instance is held by two threads at a time. -/
def Independent [DecidableEq τ] {L : LockClass τ I sh P} {init : sh → Prop}
    {C : Conf τ sh (Place I P) → τ × Call I → Prop} {n : ℕ} (phase : P → Phase)
    (r : (L.program.system init (.out [])).Run C n) : Prop :=
  ∀ k ≤ n, ∀ i t u, ((r.state k).pc t).phase phase i = .held →
    ((r.state k).pc u).phase phase i = .held → t = u

/-- Two holders at the end of a list of steps. -/
theorem not_independent [DecidableEq τ] {L : LockClass τ I sh P} {init : sh → Prop}
    (phase : P → Phase) {s : sh} (hs : init s) (as : List (τ × Call I)) {i : I} {t u : τ}
    (htu : t ≠ u) (h : ((L.program.system init (.out [])).exec ⟨s, fun _ => .out []⟩ as).any
      (fun c => (c.pc t).phase phase i = .held ∧ (c.pc u).phase phase i = .held) = true) :
    ∃ n, ∃ r : (L.program.system init (.out [])).Run (fun _ _ => True) n,
    ¬ Independent phase r := by
  obtain ⟨c, hc, hheld⟩ := (Option.any_eq_true _ _).1 h
  have hinit : (L.program.system init (.out [])).init ⟨s, fun _ => .out []⟩ := ⟨hs, rfl⟩
  obtain ⟨r, rfl⟩ := System.exists_run_of_exec (t, .run) hinit hc
  obtain ⟨ht, hu⟩ := of_decide_eq_true hheld
  exact ⟨as.length, r, fun hind => htu (hind as.length le_rfl i t u ht hu)⟩

/-- A queue for every instance. -/
structure Stands (phase : P → Phase) (queue : I → List τ) (f : τ → Place I P) : Prop where
  flat : ∀ t, (f t).Flat
  standing : ∀ i, Standing (fun t => (f t).phase phase i) (queue i)

variable {phase : P → Phase} {queue : I → List τ} {f : τ → Place I P} {t : τ} {i j : I} {p : P}

theorem phase_after (o : Outcome P) :
    (o.after i []).phase phase j = if i = j then o.phase phase else .idle := by
  cases o with
  | next p => simp [Outcome.after, Outcome.phase, Place.phase]
  | locked => simp [Outcome.after, Outcome.phase, Place.phase, eq_comm]
  | unlocked => simp [Outcome.after, Outcome.phase, Place.phase]

theorem phase_busy : (Place.busy i p []).phase phase j = if i = j then phase p else .idle :=
  phase_after (.next p)

theorem phase_out : (Place.out (P := P) [i]).phase phase j = if i = j then .held else .idle :=
  phase_after .locked

theorem Stands.mem_busy (h : Stands phase queue f) (hf : f t = .busy i p []) :
    t ∈ queue j ↔ i = j ∧ phase p ≠ .idle := by
  rw [(h.standing j).mem t, hf, phase_busy]
  split_ifs with hij <;> simp [hij]

theorem Stands.mem_out (h : Stands phase queue f) (hf : f t = .out [i]) : t ∈ queue j ↔ i = j := by
  rw [(h.standing j).mem t, hf, phase_out]
  split_ifs with hij <;> simp [hij]

theorem Stands.not_mem_out (h : Stands phase queue f) (hf : f t = .out []) : t ∉ queue j := by
  rw [(h.standing j).mem t, hf]
  simp [Place.phase]

/-- A thread is in one queue at most, with the phase that its place gives. -/
theorem Stands.of_mem (h : Stands phase queue f) (ht : t ∈ queue i) :
    f t = .out [i] ∨ ∃ p, f t = .busy i p [] ∧ phase p ≠ .idle := by
  have hflat := h.flat t
  cases hf : f t with
  | out held =>
    rw [hf, Place.Flat] at hflat
    match held, hflat with
    | [], _ => exact absurd ht (h.not_mem_out hf)
    | [j], _ =>
      obtain rfl := (h.mem_out hf).1 ht
      exact .inl rfl
  | busy j p held =>
    rw [hf, Place.Flat] at hflat
    subst hflat
    obtain ⟨rfl, hp⟩ := (h.mem_busy hf).1 ht
    exact .inr ⟨p, rfl, hp⟩

theorem Stands.eq_of_mem (h : Stands phase queue f) (hi : t ∈ queue i) (hj : t ∈ queue j) :
    i = j := by
  rcases h.of_mem hi with hf | ⟨p, hf, -⟩
  · exact (h.mem_out hf).1 hj
  · exact ((h.mem_busy hf).1 hj).1

/-- When the first of a queue has left, it is in no queue, and the others were there before. -/
theorem Stands.mem_update (h : Stands phase queue f) {q : List τ} {u : τ}
    (hq : queue i = t :: q) (hu : u ∈ Function.update queue i q j) : u ∈ queue j ∧ u ≠ t := by
  have htq := (List.nodup_cons.1 (hq ▸ (h.standing i).nodup)).1
  rcases eq_or_ne j i with rfl | hji
  · rw [Function.update_self] at hu
    rw [hq]
    exact ⟨List.mem_cons_of_mem _ hu, fun he => htq (he ▸ hu)⟩
  · rw [Function.update_of_ne hji] at hu
    refine ⟨hu, ?_⟩
    rintro rfl
    exact hji (h.eq_of_mem hu (hq ▸ List.mem_cons_self))

/-- The holder is the first of the queue. -/
theorem Stands.head_busy (h : Stands phase queue f) (hf : f t = .busy i p [])
    (hp : phase p = .held) : ∃ q, queue i = t :: q :=
  (h.standing i).head t (by rw [hf, phase_busy, if_pos rfl, hp])

theorem Stands.head_out (h : Stands phase queue f) (hf : f t = .out [i]) :
    ∃ q, queue i = t :: q :=
  (h.standing i).head t (by rw [hf, phase_out, if_pos rfl])

variable [DecidableEq τ]

/-- `Inv` relates the queues to the state, and every step of a thread that holds no other instance
is a turn in the queue of its instance. -/
structure Queues (L : LockClass τ I sh P) (init : sh → Prop) (phase : P → Phase)
    (Inv : (I → List τ) → sh → (τ → Place I P) → Prop) : Prop where
  lock_idle : phase L.lock = .idle
  unlock_held : phase L.unlock = .held
  init : ∀ s, init s → Inv (fun _ => []) s fun _ => .out []
  lock : ∀ {queue s f t i}, Stands phase queue f → Inv queue s f → f t = .out [] →
    Inv queue s (Function.update f t (.busy i L.lock []))
  unlock : ∀ {queue s f t i}, Stands phase queue f → Inv queue s f → f t = .out [i] →
    Inv queue s (Function.update f t (.busy i L.unlock []))
  step : ∀ {queue s f t i p s' o}, Stands phase queue f → Inv queue s f → f t = .busy i p [] →
    L.step t i s p = some (s', o) → ∃ q, Turn t (queue i) (phase p) q (o.phase phase) ∧
      Inv (Function.update queue i q) s' (Function.update f t (o.after i []))

variable {L : LockClass τ I sh P} {init : sh → Prop}
    {Inv : (I → List τ) → sh → (τ → Place I P) → Prop}

/-- A turn in one queue by a thread that is in no other. -/
theorem Stands.step (h : Stands phase queue f) {x : Place I P} {q : List τ} (hx : x.Flat)
    (ht : Turn t (queue i) ((f t).phase phase i) q (x.phase phase i))
    (hj : ∀ j, j ≠ i → (f t).phase phase j = .idle ∧ x.phase phase j = .idle) :
    Stands phase (Function.update queue i q) (Function.update f t x) ∧
      ∀ j, Turn t (queue j) ((f t).phase phase j) (Function.update queue i q j)
        (x.phase phase j) := by
  have hturn : ∀ j, Turn t (queue j) ((f t).phase phase j) (Function.update queue i q j)
      (x.phase phase j) := by
    intro j
    rcases eq_or_ne j i with rfl | hne
    · rwa [Function.update_self]
    · rw [Function.update_of_ne hne, (hj j hne).1, (hj j hne).2]
      exact .away
  refine ⟨⟨Program.forall_update (L := fun _ => Place.Flat) hx fun u _ => h.flat u, fun j => ?_⟩,
    hturn⟩
  refine (h.standing j).step (t := t) ?_ fun u hu => ?_
  · rw [Function.update_self]
    exact hturn j
  · rw [Function.update_of_ne hu]

theorem Queues.step_spec (hQ : Queues L init phase Inv) {c c' : Conf τ sh (Place I P)}
    {a : Call I} (hstands : Stands phase queue c.pc) (hinv : Inv queue c.shared c.pc)
    (hC : Unnested c (t, a)) (hs : (L.program.system init (.out [])).step c (t, a) = some c') :
    ∃ queue', Stands phase queue' c'.pc ∧ Inv queue' c'.shared c'.pc ∧
      ∀ i, Turn t (queue i) ((c.pc t).phase phase i) (queue' i) ((c'.pc t).phase phase i) := by
  obtain ⟨s', x, hn, rfl⟩ := Program.step_eq_some.1 hs
  have hflat := hstands.flat t
  simp only [Function.update_self]
  change L.next t a c.shared (c.pc t) = some (s', x) at hn
  cases hf : c.pc t with
  | out held =>
    rw [hf, Place.Flat] at hflat
    rw [hf] at hn
    match a, held, hflat with
    | .lock i, held, _ =>
      obtain rfl : held = [] := hC i held rfl hf
      simp only [LockClass.next, Option.some.injEq, Prod.mk.injEq] at hn
      obtain ⟨rfl, rfl⟩ := hn
      obtain ⟨h1, h2⟩ := hstands.step (t := t) (i := i) (x := .busy i L.lock []) (q := queue i) rfl
        (by
          rw [hf, phase_busy, if_pos rfl, hQ.lock_idle]
          simpa [Place.phase] using Turn.away)
        fun j hj => by simp [hf, Place.phase, hj.symm]
      rw [Function.update_eq_self] at h1 h2
      exact ⟨queue, h1, hQ.lock hstands hinv hf, hf ▸ h2⟩
    | .unlock, [i], _ =>
      simp only [LockClass.next, Option.some.injEq, Prod.mk.injEq] at hn
      obtain ⟨rfl, rfl⟩ := hn
      obtain ⟨h1, h2⟩ := hstands.step (t := t) (i := i) (x := .busy i L.unlock []) (q := queue i)
        rfl
        (by
          rw [hf, phase_busy, phase_out, if_pos rfl, if_pos rfl, hQ.unlock_held]
          exact .wait _ _ nofun nofun fun _ => hstands.head_out hf)
        fun j hj => by simp [hf, phase_out, phase_busy, hj.symm]
      rw [Function.update_eq_self] at h1 h2
      exact ⟨queue, h1, hQ.unlock hstands hinv hf, hf ▸ h2⟩
  | busy i p held =>
    rw [hf, Place.Flat] at hflat
    subst hflat
    rw [hf] at hn
    cases a with
    | run =>
      simp only [LockClass.next, Option.map_eq_some_iff, Prod.exists, Prod.mk.injEq] at hn
      obtain ⟨s₁, o, hstep, rfl, rfl⟩ := hn
      obtain ⟨q, hturn, hinv'⟩ := hQ.step hstands hinv hf hstep
      obtain ⟨h1, h2⟩ := hstands.step (t := t) (i := i) (x := o.after i []) (q := q)
        (by cases o <;> simp [Outcome.after, Place.Flat])
        (by rwa [hf, phase_busy, phase_after, if_pos rfl, if_pos rfl])
        fun j hj => by simp [hf, phase_busy, phase_after, hj.symm]
      exact ⟨_, h1, hinv', hf ▸ h2⟩
    | lock j => cases hn
    | unlock => cases hn

theorem Queues.start (hQ : Queues L init phase Inv) {c : Conf τ sh (Place I P)}
    (h : (L.program.system init (.out [])).init c) :
    Stands phase (fun _ => []) c.pc ∧ Inv (fun _ => []) c.shared c.pc := by
  obtain ⟨s, f⟩ := c
  obtain ⟨hs, hf⟩ := h
  obtain rfl : f = fun _ => .out [] := hf
  refine ⟨⟨fun t => Nat.zero_le 1, fun i => ⟨List.nodup_nil, fun t => ?_, fun t ht => ?_⟩⟩,
    hQ.init s hs⟩
  · simp [Place.phase]
  · simp [Place.phase] at ht

theorem Queues.reach (hQ : Queues L init phase Inv) {c : Conf τ sh (Place I P)}
    (h : (L.program.system init (.out [])).Reach Unnested c) :
    ∃ queue, Stands phase queue c.pc ∧ Inv queue c.shared c.pc := by
  refine h.induct (P := fun c => ∃ queue, Stands phase queue c.pc ∧ Inv queue c.shared c.pc)
    (fun c hc => ⟨_, hQ.start hc⟩) ?_
  rintro c ⟨t, a⟩ c' hr ⟨queue, hstands, hinv⟩ hC hs
  obtain ⟨queue', h1, h2, -⟩ := hQ.step_spec hstands hinv hC hs
  exact ⟨queue', h1, h2⟩

/-- Every instance is a fair lock. -/
theorem Queues.fifo (hQ : Queues L init phase Inv) {n : ℕ}
    (r : (L.program.system init (.out [])).Run Unnested n) (i : I) :
    Fifo r (Place.phase phase i) := by
  refine Fifo.of_turns (Q := fun q c => ∃ queue, queue i = q ∧ Stands phase queue c.pc ∧
    Inv queue c.shared c.pc) (by simp [Place.phase])
    (fun c hc => ⟨fun _ => [], rfl, hQ.start hc⟩) ?_ r
  rintro q c t a c' hr ⟨queue, rfl, hstands, hinv⟩ hC hs
  obtain ⟨queue', h1, h2, h3⟩ := hQ.step_spec hstands hinv hC hs
  exact ⟨queue' i, ⟨queue', rfl, h1, h2⟩, h3 i⟩

theorem Queues.independent (hQ : Queues L init phase Inv) {n : ℕ}
    (r : (L.program.system init (.out [])).Run Unnested n) : Independent phase r :=
  fun k hk i t u => (hQ.fifo r i).exclusive k hk t u

end Interleaving

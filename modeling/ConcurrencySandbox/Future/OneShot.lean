import ConcurrencySandbox.Future.Basic

/-!
# The first result

Of the set calls the first to get the lock writes while the state is not ready. Nothing guards the
others: they write as well, unless the variant holds an exception and they bring a value. So the
state is a one-shot channel in just the runs where what comes later brings nothing new.
-/

namespace ConcurrencySandbox

open Interleaving

namespace Future

variable {τ R E : Type*}

/-- In `setValue` or `setException`. -/
def Setting : PC R E → Prop
  | .setLock _ | .setData _ | .setReady | .setNotify => True
  | _ => False

def holds : PC R E → Bool
  | .setData _ | .setReady | .setNotify | .getTest | .getData | .unlock _ => true
  | _ => false

/-- Not at the shared state yet. -/
def Outside : PC R E → Prop
  | .ready | .setLock _ | .returned _ | .undefined => True
  | _ => False

def written : PC R E → List (Content R E)
  | .setData v => [v]
  | _ => []

/-- What a step must not do: `first` is what the first set call has brought. -/
structure Fine (first : Option (Content R E)) (p : PC R E) (st : SharedState τ R E) (p' : PC R E)
    (st' : SharedState τ R E) : Prop where
  defined : p' ≠ .undefined
  fixed : Setting p → st.mIsReady = true → st'.mIsReady = true ∧ st'.mData = st.mData
  result : ∀ v, p = .getData → p' = .unlock (.content v) → first = some v

/-- When a step does none of it; `read` tells whether `get` has moved the value out before. -/
structure InOrder (moved : R → R) (first : Option (Content R E)) (read : Prop) (p : PC R E)
    (st : SharedState τ R E) : Prop where
  set : ∀ v, p = .setData v → st.mIsReady = true →
    (∃ x q, v = .value x ∧ st.mData = .exception q) ∨ v.data = st.mData
  get : p = .getData → read → ∀ x, first = some (.value x) → moved x = x

structure Inv (moved : R → R) (first : Option (Content R E)) (read : Prop) (st : SharedState τ R E)
    (f : τ → PC R E) : Prop where
  held : Held holds st.mLock f
  empty : first = none → st.mData = .bytes none ∧ ¬ read
  fixed : ∀ v, first = some v → (¬ read → st.mData = v.data) ∧
    (read → st.mData = (v.moved moved).data)
  ready : first ≠ none ↔ st.mIsReady = true ∨ ∃ t, f t = .setReady
  getData : ∀ t, f t = .getData → st.mIsReady = true
  notified : st.mCond = true → st.mIsReady = true → ∃ t, f t = .setNotify

variable {moved : R → R} {first : Option (Content R E)} {read : Prop} {st st' : SharedState τ R E}
  {f : τ → PC R E} {t : τ} {p p' : PC R E} {v : Content R E}

theorem write_eq_some (h : st.write v = some st') : st' = { st with mData := v.data } := by
  revert h
  fun_cases SharedState.write st v <;> intro h <;> cases h <;> rfl

theorem write_eq_none (h : st.write v = none) : ∃ x q, v = .value x ∧ st.mData = .exception q := by
  revert h
  fun_cases SharedState.write st v <;> intro h
  · cases h
  · exact ⟨_, _, rfl, ‹_›⟩
  · cases h

section Steps

variable [DecidableEq τ]

theorem exists_update {q : PC R E} (hp : f t = p) (h : p' = q ↔ p = q) :
    (∃ u, Function.update f t p' u = q) ↔ ∃ u, f u = q := by
  refine exists_congr fun u => ?_
  by_cases hu : u = t
  · subst hu
    rw [Function.update_self, hp]
    exact h
  · rw [Function.update_of_ne hu]

/-- A step of `t` that leaves the result as it is. -/
theorem Inv.stay (h : Inv moved first read st f) (hp : f t = p)
    (hlock : LockStep t (holds p) st.mLock (holds p') st'.mLock) (hdata : st'.mData = st.mData)
    (hready : st'.mIsReady = st.mIsReady) (hset : p' ≠ .setReady ∧ p ≠ .setReady)
    (hget : p' = .getData → st.mIsReady = true)
    (hcond : st'.mCond = true → st.mIsReady = true → st.mCond = true)
    (hnote : p' = .setNotify ↔ p = .setNotify) :
    Inv moved first read st' (Function.update f t p') := by
  have hsr : (∃ u, Function.update f t p' u = .setReady) ↔ ∃ u, f u = .setReady :=
    exists_update hp (iff_of_false hset.1 hset.2)
  refine ⟨h.held.step (hp ▸ hlock), fun hf => hdata ▸ h.empty hf,
    fun v hv => hdata ▸ h.fixed v hv, ?_, ?_, fun hc hr => ?_⟩
  · rw [hready, hsr]
    exact h.ready
  · rw [hready]
    exact Program.forall_update (L := fun _ p => p = PC.getData → st.mIsReady = true) hget
      fun u _ => h.getData u
  · rw [hready] at hr
    rw [exists_update hp hnote]
    exact h.notified (hcond hc hr) hr

omit [DecidableEq τ] in
theorem acquire_eq_some (h : st.acquire t = some st') :
    st.mLock = none ∧ st' = { st with mLock := some t } := by
  unfold SharedState.acquire at h
  split_ifs at h with hl
  exact ⟨hl, (Option.some.inj h).symm⟩

omit [DecidableEq τ] in
/-- A step at whose place nothing can go wrong. -/
theorem fine_iff (hd : p' ≠ .undefined) (hset : ∀ v, p ≠ .setData v) (hget : p ≠ .getData)
    (hdata : st'.mData = st.mData) (hready : st.mIsReady = true → st'.mIsReady = true) :
    Fine first p st p' st' ↔ InOrder moved first read p st :=
  iff_of_true ⟨hd, fun _ hr => ⟨hready hr, hdata⟩, fun _ hp => absurd hp hget⟩
    ⟨fun v hp => absurd hp (hset v), fun hp => absurd hp hget⟩

/-- A step that takes `mLock`. -/
theorem Inv.acquire {q : PC R E} (h : Inv moved first read st f) (hp : f t = p)
    (hn : ((st.acquire t).map fun st => (st, q)) = some (st', p')) (hout : holds p = false)
    (hq : q = .getTest ∨ ∃ v, q = .setData v) :
    (Fine first p st p' st' ↔ InOrder moved first read p st) ∧
      Inv moved first read st' (Function.update f t p') := by
  obtain ⟨st₁, ha, he⟩ := Option.map_eq_some_iff.1 hn
  cases he
  obtain ⟨hl, rfl⟩ := acquire_eq_some ha
  have hne : ∀ q', holds q' = true → p ≠ q' := fun q' hq' he => by
    rw [he, hq'] at hout
    cases hout
  have hlock : ∀ q' : PC R E, holds q' = true →
      LockStep t (holds p) st.mLock (holds q') (some t) := fun q' hq' => by
    rw [hout, hq']
    exact .acquire hl
  rcases hq with rfl | ⟨v, rfl⟩
  all_goals
    refine ⟨fine_iff nofun (fun v => hne _ rfl) (hne _ rfl) rfl id, ?_⟩
    exact h.stay hp (hlock _ rfl) rfl rfl ⟨nofun, hne _ rfl⟩ nofun (fun hc _ => hc)
      (iff_of_false nofun (hne _ rfl))

/-- The first set call has its turn, or a later one. -/
theorem Inv.setData (h : Inv moved first read st f) (hp : f t = .setData v)
    (hn : nextInside moved t st (.setData v) = some (st', p')) :
    (Fine first (.setData v) st p' st' ↔ InOrder moved first read (.setData v) st) ∧
      (InOrder moved first read (.setData v) st →
        Inv moved (first.or (some v)) read st' (Function.update f t p')) := by
  have hhold : holds (f t) = true := by rw [hp]; rfl
  -- the lock keeps out a thread that has written and not set the flag
  have hno : ¬ ∃ u, f u = .setReady := by
    rintro ⟨u, hu⟩
    obtain rfl := h.held.eq hhold (by rw [hu]; rfl)
    rw [hp] at hu
    cases hu
  have hready : first ≠ none ↔ st.mIsReady = true := by
    rw [h.ready, or_iff_left hno]
  simp only [nextInside] at hn
  cases hw : st.write v with
  | none =>
    rw [hw] at hn
    cases hn
    obtain ⟨x, q, rfl, hd⟩ := write_eq_none hw
    have hsome : first ≠ none := fun hf => by
      rw [(h.empty hf).1] at hd
      cases hd
    obtain ⟨w, rfl⟩ := Option.ne_none_iff_exists'.1 hsome
    refine ⟨iff_of_true ⟨nofun, fun _ hr => ⟨hr, rfl⟩, nofun⟩ ⟨fun v hv _ => .inl ?_, nofun⟩,
      fun _ => ?_⟩
    · exact ⟨x, q, (PC.setData.inj hv).symm, hd⟩
    · exact h.stay hp (.keep _ _) rfl rfl ⟨nofun, nofun⟩ nofun (fun hc _ => hc) ⟨nofun, nofun⟩
  | some st₁ =>
    rw [hw] at hn
    cases hn
    obtain rfl := write_eq_some hw
    have hheld : Held holds st.mLock (Function.update f t .setReady) := h.held.step (hp ▸ .keep _ _)
    have hset : ∃ u, Function.update f t .setReady u = PC.setReady := ⟨t, Function.update_self ..⟩
    have hinv : ∀ w : Content R E, (¬ read → v.data = w.data) ∧
      (read → v.data = (w.moved moved).data) →
        Inv moved (some w) read { st with mData := v.data } (Function.update f t .setReady) := by
      intro w hfix
      refine ⟨hheld, nofun, fun w' hw' => ?_, iff_of_true nofun (.inr hset), ?_, fun hc hr => ?_⟩
      · rwa [← Option.some.inj hw']
      · exact Program.forall_update (L := fun _ p => p = PC.getData → st.mIsReady = true) nofun
          fun u _ => h.getData u
      · exact (exists_update hp (by simp)).2 (h.notified hc hr)
    cases hf : first with
    | none =>
      have hnr : st.mIsReady ≠ true := fun hr => hready.2 hr hf
      refine ⟨iff_of_true ⟨nofun, fun _ hr => absurd hr hnr, nofun⟩
        ⟨fun _ _ hr => absurd hr hnr, nofun⟩,
        fun _ => ?_⟩
      exact hinv v ⟨fun _ => rfl, fun hr => absurd hr (h.empty hf).2⟩
    | some w =>
      have hr : st.mIsReady = true := hready.1 fun h => by rw [hf] at h; cases h
      have hsame : InOrder moved first read (.setData v) st → v.data = st.mData := fun ho => by
        rcases ho.set v rfl hr with ⟨x, q, rfl, hd⟩ | hd
        · simp [SharedState.write, hd] at hw
        · exact hd
      rw [← hf]
      refine ⟨⟨fun hF => ⟨fun v' hv' _ => .inr ?_, nofun⟩,
        fun ho => ⟨nofun, fun _ _ => ⟨hr, hsame ho⟩, nofun⟩⟩,
        fun ho => ?_⟩
      · rw [← PC.setData.inj hv']
        exact (hF.fixed trivial hr).2
      · rw [hf]
        exact hinv w (hsame ho ▸ h.fixed w hf)

/-- `get` moves the value out. -/
theorem Inv.getData_step (h : Inv moved first read st f) (hp : f t = .getData)
    (hn : nextInside moved t st .getData = some (st', p')) :
    (Fine first .getData st p' st' ↔ InOrder moved first read .getData st) ∧
      (InOrder moved first read .getData st →
      Inv moved first True st' (Function.update f t p')) := by
  obtain ⟨w, hf⟩ := Option.ne_none_iff_exists'.1 (h.ready.2 (.inl (h.getData t hp)))
  obtain ⟨hfirst, hagain⟩ := h.fixed w hf
  -- what `get` finds is `c`
  have hstep : ∀ c : Content R E, st.mData = c.data →
    st' = { st with mData := (c.moved moved).data } ∧
      p' = .unlock (.content c) := by
    intro c hc
    cases c <;> simp only [nextInside, hc, Content.data, Option.some.injEq, Prod.mk.injEq] at hn
    · exact ⟨hn.1.symm, hn.2.symm⟩
    · refine ⟨?_, hn.2.symm⟩
      rw [← hn.1]
      cases st
      cases hc
      rfl
  have hinv : ∀ c : Content R E, st.mData = c.data → (c.moved moved).data = (w.moved moved).data →
      Inv moved first True st' (Function.update f t p') := by
    intro c hc heq
    obtain ⟨rfl, rfl⟩ := hstep c hc
    refine ⟨h.held.step (hp ▸ .keep _ _), fun hn => ?_, fun v hv =>
      ⟨fun hr => absurd trivial hr, fun _ => ?_⟩, ?_, ?_, fun hc hr => ?_⟩
    · rw [hf] at hn
      cases hn
    · rw [hf] at hv
      rw [← Option.some.inj hv]
      exact heq
    · exact h.ready.trans (or_congr_right (exists_update hp (by simp)).symm)
    · exact Program.forall_update (L := fun _ p => p = PC.getData → st.mIsReady = true) nofun
        fun u _ => h.getData u
    · exact (exists_update hp (by simp)).2 (h.notified hc hr)
  have hfine : ∀ c : Content R E, st.mData = c.data → (Fine first .getData st p' st' ↔ w = c) := by
    intro c hc
    obtain ⟨-, rfl⟩ := hstep c hc
    refine ⟨fun hF => ?_, ?_⟩
    · have := hF.result c rfl rfl
      rw [hf] at this
      exact Option.some.inj this
    · rintro rfl
      refine ⟨nofun, fun hs => absurd hs id, fun v _ hv => ?_⟩
      rw [hf, Result.content.inj (PC.unlock.inj hv)]
  by_cases hr : read
  · have hm := hagain hr
    have hiff : InOrder moved first read .getData st ↔ w = w.moved moved := by
      refine ⟨fun ho => ?_, fun hw => ⟨nofun, fun _ _ x hx => ?_⟩⟩
      · cases w with
        | value x => exact congrArg Content.value (ho.get rfl hr x hf).symm
        | exception q => rfl
      · rw [hf] at hx
        obtain rfl := Option.some.inj hx
        exact (Content.value.inj hw).symm
    refine ⟨(hfine _ hm).trans hiff.symm, fun ho => hinv _ hm ?_⟩
    rw [← hiff.1 ho, ← hiff.1 ho]
  · have hm := hfirst hr
    refine ⟨(hfine w hm).trans (iff_of_true rfl ⟨nofun, fun _ h => absurd h hr⟩),
      fun _ => hinv w hm rfl⟩

/-- One step of a call, in order or not. -/
theorem inside_step (h : Inv moved first read st f) (hp : f t = p)
    (hn : nextInside moved t st p = some (st', p')) :
    (Fine first p st p' st' ↔ InOrder moved first read p st) ∧
      (InOrder moved first read p st →
        Inv moved (first.or (written p).head?)
        (read ∨ p = .getData) st' (Function.update f t p')) := by
  cases p with
  | setData v =>
    simp only [written, List.head?_cons, reduceCtorEq, or_false]
    exact h.setData hp hn
  | getData =>
    simp only [written, List.head?_nil, Option.or_none, or_true]
    exact h.getData_step hp hn
  | setReady =>
    simp only [written, List.head?_nil, Option.or_none, reduceCtorEq, or_false]
    cases hn
    refine ⟨fine_iff nofun nofun nofun rfl fun _ => rfl, fun _ => ?_⟩
    refine ⟨h.held.step (hp ▸ .keep _ _), h.empty, h.fixed, ?_, fun _ _ => rfl, fun _ _ => ?_⟩
    · exact iff_of_true (h.ready.2 (.inr ⟨t, hp⟩)) (.inl rfl)
    · exact ⟨t, Function.update_self ..⟩
  | setNotify =>
    simp only [written, List.head?_nil, Option.or_none, reduceCtorEq, or_false]
    cases hn
    refine ⟨fine_iff nofun nofun nofun rfl id, fun _ => ?_⟩
    refine ⟨h.held.step (hp ▸ .keep _ _), h.empty, h.fixed, ?_, ?_, nofun⟩
    · exact h.ready.trans (or_congr_right (exists_update hp (by simp)).symm)
    · exact Program.forall_update (L := fun _ p => p = PC.getData → st.mIsReady = true) nofun
        fun u _ => h.getData u
  | setLock v =>
    simp only [written, List.head?_nil, Option.or_none, reduceCtorEq, or_false]
    obtain ⟨hiff, hinv⟩ := h.acquire hp hn rfl (.inr ⟨v, rfl⟩)
    exact ⟨hiff, fun _ => hinv⟩
  | getLock =>
    simp only [written, List.head?_nil, Option.or_none, reduceCtorEq, or_false]
    obtain ⟨hiff, hinv⟩ := h.acquire hp hn rfl (.inl rfl)
    exact ⟨hiff, fun _ => hinv⟩
  | asleep =>
    simp only [written, List.head?_nil, Option.or_none, reduceCtorEq, or_false]
    simp only [nextInside] at hn
    split_ifs at hn
    obtain ⟨hiff, hinv⟩ := h.acquire hp hn rfl (.inl rfl)
    exact ⟨hiff, fun _ => hinv⟩
  | getTest =>
    simp only [written, List.head?_nil, Option.or_none, reduceCtorEq, or_false]
    simp only [nextInside] at hn
    split_ifs at hn with hr
    · cases hn
      refine ⟨fine_iff nofun nofun nofun rfl id, fun _ => ?_⟩
      exact h.stay hp (.keep _ _) rfl rfl ⟨nofun, nofun⟩ (fun _ => hr) (fun hc _ => hc)
        (iff_of_false nofun nofun)
    · cases hn
      refine ⟨fine_iff nofun nofun nofun rfl id, fun _ => ?_⟩
      exact h.stay hp (.release _) rfl rfl ⟨nofun, nofun⟩ nofun (fun _ hr' => absurd hr' hr)
        (iff_of_false nofun nofun)
  | unlock ans =>
    simp only [written, List.head?_nil, Option.or_none, reduceCtorEq, or_false]
    cases hn
    refine ⟨fine_iff nofun nofun nofun rfl id, fun _ => ?_⟩
    exact h.stay hp (.release _) rfl rfl ⟨nofun, nofun⟩ nofun (fun hc _ => hc)
      (iff_of_false nofun nofun)
  | ready => cases hn
  | returned ans => cases hn
  | undefined => cases hn

end Steps

/-- The step is no set call that goes wrong or changes a state that is ready, and what `get` returns
or throws is what the first set call has brought. -/
structure FineStep (first : Option (Content R E)) (c c' : Conf τ (Shared τ R E) (PC R E)) (t : τ) :
    Prop where
  defined : c'.pc t ≠ .undefined
  fixed : Setting (c.pc t) → ∀ st, c.shared.mSharedState = some st → st.mIsReady = true →
    ∃ st', c'.shared.mSharedState = some st' ∧ st'.mIsReady = true ∧ st'.mData = st.mData
  result : ∀ v, c.pc t = .getData → c'.pc t = .unlock (.content v) → first = some v

/-- A set call finds that `getFuture` has been called. If it finds the state ready, it brings a
value where an exception is, or what is there already. The value is moved out once, or moving leaves
it as it is. -/
structure OrderedStep (moved : R → R) (first : Option (Content R E)) (read : Prop)
    (c : Conf τ (Shared τ R E) (PC R E)) (t : τ) : Prop where
  after : ∀ v, c.pc t = .setLock v → c.shared.mSharedState ≠ none
  set : ∀ v, c.pc t = .setData v → ∀ st, c.shared.mSharedState = some st → st.mIsReady = true →
    (∃ x q, v = .value x ∧ st.mData = .exception q) ∨ v.data = st.mData
  get : c.pc t = .getData → read → ∀ x, first = some (.value x) → moved x = x

/-- Before `getFuture` no call has got anywhere. -/
def Good (moved : R → R) (first : Option (Content R E)) (read : Prop)
    (c : Conf τ (Shared τ R E) (PC R E)) : Prop :=
  match c.shared.mSharedState with
  | none => first = none ∧ ¬ read ∧ ∀ t, Outside (c.pc t)
  | some st => Inv moved first read st c.pc

section Calls

variable [DecidableEq τ] {consumer : τ} {s s' : Shared τ R E} {act : Act R E}

omit [DecidableEq τ] in
/-- With all calls outside, the new state is empty. -/
theorem inv_initial {f : τ → PC R E} (h : ∀ t, Outside (f t)) :
    Inv moved none False .initial f := by
  have hout : ∀ t, holds (f t) = false ∧ f t ≠ .setReady ∧ f t ≠ .getData := fun t => by
    have ht := h t
    generalize f t = p at ht
    cases p <;> first | exact ⟨rfl, nofun, nofun⟩ | exact absurd ht id
  refine ⟨fun t => ?_, fun _ => ⟨rfl, id⟩, nofun, ?_, fun t ht => absurd ht (hout t).2.2, nofun⟩
  · rw [(hout t).1]
    exact ⟨nofun, nofun⟩
  · refine iff_of_false (fun h => h rfl) ?_
    rintro (h | ⟨t, ht⟩)
    · cases h
    · exact (hout t).2.1 ht

/-- A step at a place where nothing can go wrong. -/
theorem fineStep_iff {s : Shared τ R E} (hp : f t = p) (hd : p' ≠ .undefined) (hset : ¬ Setting p)
    (hget : p ≠ .getData) :
    FineStep first ⟨s, f⟩ ⟨s', Function.update f t p'⟩ t ↔
    OrderedStep moved first read ⟨s, f⟩ t := by
  subst hp
  have hne : ∀ v, f t ≠ .setLock v ∧ f t ≠ .setData v := fun v => by
    constructor <;> intro h <;> rw [h] at hset <;> exact hset trivial
  refine iff_of_true ⟨?_, fun hs => absurd hs hset, fun v hg => absurd hg hget⟩
    ⟨fun v hs => absurd hs (hne v).1, fun v hs => absurd hs (hne v).2, fun hg => absurd hg hget⟩
  simp only [Function.update_self]
  exact hd

theorem fine_conf (hp : f t = p) (hs : s.mSharedState = some st) :
    FineStep first ⟨s, f⟩ ⟨⟨some st'⟩, Function.update f t p'⟩ t ↔ Fine first p st p' st' := by
  subst hp
  constructor
  · rintro ⟨h1, h2, h3⟩
    simp only [Function.update_self] at h1 h3
    refine ⟨h1, fun hset hr => ?_, h3⟩
    obtain ⟨st₁, he, h⟩ := h2 hset st hs hr
    cases he
    exact h
  · rintro ⟨h1, h2, h3⟩
    refine ⟨?_, fun hset st₁ hs₁ hr => ?_, fun v hg => ?_⟩
    · simp only [Function.update_self]
      exact h1
    · rw [hs] at hs₁
      cases hs₁
      exact ⟨st', rfl, h2 hset hr⟩
    · simp only [Function.update_self]
      exact h3 v hg

omit [DecidableEq τ] in
theorem ordered_conf (hp : f t = p) (hs : s.mSharedState = some st) :
    OrderedStep moved first read ⟨s, f⟩ t ↔ InOrder moved first read p st := by
  subst hp
  constructor
  · rintro ⟨-, h2, h3⟩
    exact ⟨fun v hv hr => h2 v hv st hs hr, h3⟩
  · rintro ⟨h2, h3⟩
    refine ⟨fun v _ hnone => ?_, fun v hv st₁ hs₁ hr => ?_, h3⟩
    · rw [hs] at hnone
      cases hnone
    · rw [hs] at hs₁
      cases hs₁
      exact h2 v hv hr

/-- A call begins, or returns at once. -/
theorem call_step (h : Good moved first read ⟨s, f⟩) (hp : f t = p)
    (hready : p = .ready ∨ ∃ ans, p = .returned ans)
    (hn : nextCall consumer t s act = some (s', p')) :
    (FineStep first ⟨s, f⟩ ⟨s', Function.update f t p'⟩ t ↔ OrderedStep moved first read ⟨s, f⟩ t) ∧
      Good moved first read ⟨s', Function.update f t p'⟩ := by
  have hplace : ¬ Setting p ∧ p ≠ .getData ∧ holds p = false ∧ p ≠ .setReady ∧ p ≠ .setNotify := by
    rcases hready with rfl | ⟨ans, rfl⟩ <;> exact ⟨id, nofun, rfl, nofun, nofun⟩
  obtain ⟨h1, h2, h3, h4, h5⟩ := hplace
  -- nothing but the place of the thread changes
  have hstay : ∀ p', holds p' = false → (∀ st, s.mSharedState = some st → p' ≠ .getData) →
      p' ≠ .setReady ∧ p' ≠ .setNotify → (s.mSharedState = none → Outside p') →
      Good moved first read ⟨s, Function.update f t p'⟩ := by
    intro p' hl hg hset hout
    unfold Good at h ⊢
    cases hs : s.mSharedState with
    | none =>
      simp only [hs] at h ⊢
      exact ⟨h.1, h.2.1, Program.forall_update (L := fun _ p => Outside p) (hout hs)
        fun u _ => h.2.2 u⟩
    | some st =>
      simp only [hs] at h ⊢
      refine h.stay hp ?_ rfl rfl ⟨hset.1, h4⟩ (fun he => absurd he (hg st hs)) (fun hc _ => hc)
        (iff_of_false hset.2 h5)
      rw [h3, hl]
      exact .keep _ _
  revert hn
  fun_cases nextCall consumer t s act <;> intro hn <;> cases hn
  · exact ⟨fineStep_iff hp nofun h1 h2, hstay _ rfl nofun ⟨nofun, nofun⟩ fun _ => trivial⟩
  · refine ⟨fineStep_iff hp nofun h1 h2, ?_⟩
    rename_i hs
    unfold Good at h ⊢
    simp only [hs] at h ⊢
    obtain ⟨rfl, hr, hout⟩ := h
    rw [eq_false hr]
    exact inv_initial (Program.forall_update (L := fun _ p => Outside p) trivial fun u _ => hout u)
  · exact ⟨fineStep_iff hp nofun h1 h2, hstay _ rfl nofun ⟨nofun, nofun⟩ fun _ => trivial⟩
  · rename_i hs
    refine ⟨fineStep_iff hp nofun h1 h2, hstay _ rfl nofun ⟨nofun, nofun⟩ fun hnone => ?_⟩
    rw [hs] at hnone
    cases hnone
  · exact ⟨fineStep_iff hp nofun h1 h2, hstay _ rfl nofun ⟨nofun, nofun⟩ fun _ => trivial⟩

/-- One step of a thread, in order or not. -/
theorem good_step (h : Good moved first read ⟨s, f⟩) (hp : f t = p)
    (hn : next moved consumer t act s p = some (s', p')) :
    (FineStep first ⟨s, f⟩ ⟨s', Function.update f t p'⟩ t ↔ OrderedStep moved first read ⟨s, f⟩ t) ∧
      (OrderedStep moved first read ⟨s, f⟩ t →
        Good moved (first.or (written p).head?)
        (read ∨ p = .getData) ⟨s', Function.update f t p'⟩) := by
  revert hn
  fun_cases next moved consumer t act s p <;> intro hn
  · simp only [written, List.head?_nil, Option.or_none, reduceCtorEq, or_false]
    obtain ⟨hiff, hgood⟩ := call_step h hp (.inl rfl) hn
    exact ⟨hiff, fun _ => hgood⟩
  · simp only [written, List.head?_nil, Option.or_none, reduceCtorEq, or_false]
    obtain ⟨hiff, hgood⟩ := call_step h hp (.inr ⟨_, rfl⟩) hn
    exact ⟨hiff, fun _ => hgood⟩
  · simp only [written, List.head?_nil, Option.or_none, reduceCtorEq, or_false]
    obtain ⟨st, hst, he⟩ := Option.map_eq_some_iff.1 hn
    cases he
    refine ⟨fineStep_iff hp nofun id nofun, fun _ => ?_⟩
    simp only [Good, hst] at h
    exact h.stay hp (.keep _ _) rfl rfl ⟨nofun, nofun⟩ nofun (fun hc _ => nomatch hc)
      (iff_of_false nofun nofun)
  · rename_i st hst _ _
    obtain ⟨⟨st', q⟩, hin, he⟩ := Option.map_eq_some_iff.1 hn
    cases he
    simp only [Good, hst] at h
    obtain ⟨hiff, hinv⟩ := inside_step h hp hin
    exact ⟨(fine_conf hp hst).trans (hiff.trans (ordered_conf hp hst).symm),
      fun ho => hinv ((ordered_conf hp hst).1 ho)⟩
  · rename_i hnone v _ _
    cases hn
    refine ⟨iff_of_false (fun hF => hF.defined ?_) fun ho => ho.after v hp hnone, fun ho => ?_⟩
    · exact Function.update_self ..
    · exact absurd hnone (ho.after v hp)
  · cases hn
  · cases hn

end Calls

section Runs

variable [DecidableEq τ] {consumer : τ} {n i : ℕ}
  (r : (system (R := R) (E := E) moved consumer).Run (fun _ _ => True) n)

/-- What the first of the set calls that have had their turn has brought. -/
def firstSet (i : ℕ) : Option (Content R E) :=
  (r.log (fun c l => written (c.pc l.1)) i).head?

/-- `get` has moved a value out before. -/
def HasRead (i : ℕ) : Prop := ∃ j < i, (r.state j).pc (r.label j).1 = .getData

/-- And a consumer that sleeps while the state is ready is about to be notified. -/
structure OneShot : Prop where
  fine : ∀ i < n, FineStep (firstSet r i) (r.state i) (r.state (i + 1)) (r.label i).1
  notified : ∀ i ≤ n, ∀ st, (r.state i).shared.mSharedState = some st → st.mCond = true →
    st.mIsReady = true → ∃ t, (r.state i).pc t = .setNotify

def Ordered : Prop :=
  ∀ i < n, OrderedStep moved (firstSet r i) (HasRead r i) (r.state i) (r.label i).1

variable {r}

theorem firstSet_succ (i : ℕ) : firstSet r (i + 1) =
    (firstSet r i).or (written ((r.state i).pc (r.label i).1)).head? := by
  rw [firstSet, System.Run.log_succ, List.head?_append]
  rfl

theorem hasRead_succ (i : ℕ) : HasRead r (i + 1) ↔
    HasRead r i ∨ (r.state i).pc (r.label i).1 = .getData := by
  constructor
  · rintro ⟨j, hj, h⟩
    rcases Nat.lt_succ_iff_lt_or_eq.1 hj with hj | rfl
    · exact .inl ⟨j, hj, h⟩
    · exact .inr h
  · rintro (⟨j, hj, h⟩ | h)
    · exact ⟨j, Nat.lt_succ_of_lt hj, h⟩
    · exact ⟨i, Nat.lt_succ_self i, h⟩

theorem good_run_step (hi : i < n) (h : Good moved (firstSet r i) (HasRead r i) (r.state i)) :
    (FineStep (firstSet r i) (r.state i) (r.state (i + 1)) (r.label i).1 ↔
      OrderedStep moved (firstSet r i) (HasRead r i) (r.state i) (r.label i).1) ∧
    (OrderedStep moved (firstSet r i) (HasRead r i) (r.state i) (r.label i).1 →
      Good moved (firstSet r (i + 1)) (HasRead r (i + 1)) (r.state (i + 1))) := by
  obtain ⟨s', p', hn, hstate⟩ := Program.step_eq_some.1 (r.step i hi)
  have hstep := good_step h rfl hn
  rw [hstate, firstSet_succ, propext (hasRead_succ i)]
  exact hstep

theorem good_zero : Good moved (firstSet r 0) (HasRead r 0) (r.state 0) := by
  obtain ⟨hs, hp⟩ := r.init
  unfold Good
  rw [hs]
  refine ⟨rfl, fun ⟨j, hj, _⟩ => absurd hj (Nat.not_lt_zero j), fun t => ?_⟩
  rw [hp]
  trivial

theorem good_run (h : Ordered r) : ∀ i ≤ n, Good moved (firstSet r i)
    (HasRead r i) (r.state i) := by
  intro i
  induction i with
  | zero => exact fun _ => good_zero
  | succ i ih => exact fun hi => (good_run_step hi (ih (by omega))).2 (h i hi)

/-- The state is a one-shot channel in just the runs where every set call comes after `getFuture`,
and what comes after the first result does not change it. -/
theorem one_shot_iff : OneShot r ↔ Ordered r := by
  constructor
  · intro h
    -- step by step, the earlier ones being in order
    have hall : ∀ i ≤ n, Good moved (firstSet r i) (HasRead r i) (r.state i) ∧
        ∀ j < i, OrderedStep moved (firstSet r j) (HasRead r j) (r.state j) (r.label j).1 := by
      intro i
      induction i with
      | zero => exact fun _ => ⟨good_zero, nofun⟩
      | succ i ih =>
        intro hi
        obtain ⟨hgood, hord⟩ := ih (by omega)
        obtain ⟨hiff, hnext⟩ := good_run_step hi hgood
        have ho := hiff.1 (h.fine i hi)
        refine ⟨hnext ho, fun j hj => ?_⟩
        rcases Nat.lt_succ_iff_lt_or_eq.1 hj with hj | rfl
        · exact hord j hj
        · exact ho
    exact (hall n le_rfl).2
  · intro h
    refine ⟨fun i hi => (good_run_step hi (good_run h i hi.le)).1.2 (h i hi),
      fun i hi st hst hc hr => ?_⟩
    have hgood := good_run h i hi
    simp only [Good, hst] at hgood
    exact hgood.notified hc hr

end Runs

/-- A value set before `getFuture` goes wrong, and of two values set one after the other `get`
returns the second. -/
theorem not_one_shot :
    (∃ r : (system (τ := Unit) (R := ℕ) (E := ℕ) id ()).Run (fun _ _ => True) 2,
      (r.state 2).pc () = .undefined ∧ ¬ OneShot r) ∧
    ∃ r : (system (τ := Unit) (R := ℕ) (E := ℕ) id ()).Run (fun _ _ => True) 17,
      r.label 1 = ((), .set (.value 1)) ∧ r.label 7 = ((), .set (.value 2)) ∧
        (r.state 17).pc () = .unlock (.content (.value 2)) ∧ ¬ OneShot r := by
  have hinit : (system (τ := Unit) (R := ℕ) (E := ℕ) id ()).init ⟨⟨none⟩, fun _ => .ready⟩ :=
    ⟨rfl, rfl⟩
  refine ⟨?_, ?_⟩
  · let as : List (Unit × Act ℕ ℕ) := [((), .set (.value 1)), ((), .run)]
    obtain ⟨c, hc, hp⟩ : ∃ c, (system id ()).exec ⟨⟨none⟩, fun _ => .ready⟩ as = some c ∧
        c.pc () = .undefined := ⟨_, rfl, rfl⟩
    obtain ⟨r, rfl⟩ := System.exists_run_of_exec ((), .run) hinit hc
    exact ⟨r, hp, fun h => (h.fine 1 (by decide)).defined hp⟩
  · let run (n : ℕ) : List (Unit × Act ℕ ℕ) := List.replicate n ((), .run)
    let as := ((), .getFuture) :: ((), .set (.value 1)) :: run 5 ++
      ((), .set (.value 2)) :: run 5 ++
      ((), .get) :: run 3
    obtain ⟨c, hc, hp⟩ : ∃ c, (system id ()).exec ⟨⟨none⟩, fun _ => .ready⟩ as = some c ∧
        c.pc () = .unlock (.content (.value 2)) := ⟨_, rfl, rfl⟩
    obtain ⟨r, hr, hl⟩ := System.exists_run (C := fun _ _ => True) ((), .run) hinit hc
      fun _ _ _ _ => trivial
    have hlast := hr 17 le_rfl
    rw [show as.take 17 = as from rfl, hc, Option.some.injEq] at hlast
    subst hlast
    refine ⟨r, hl 1 (by decide), hl 7 (by decide), hp, fun h => ?_⟩
    -- the second value is written over the first
    obtain ⟨c, hc, hset, st, hst, hready, hdata⟩ :
      ∃ c, (system id ()).exec ⟨⟨none⟩, fun _ => .ready⟩
        (as.take 9) = some c ∧ c.pc () = .setData (.value 2) ∧
        ∃ st, c.shared.mSharedState = some st ∧
          st.mIsReady = true ∧ st.mData = .bytes (some 1) := ⟨_, rfl, rfl, _, rfl, rfl, rfl⟩
    obtain ⟨c', hc', st', hst', hdata'⟩ : ∃ c, (system id ()).exec ⟨⟨none⟩, fun _ => .ready⟩
        (as.take 10) = some c ∧ ∃ st, c.shared.mSharedState = some st ∧
        st.mData = .bytes (some 2) :=
      ⟨_, rfl, _, rfl, rfl⟩
    rw [hr 9 (by decide), Option.some.injEq] at hc
    rw [hr 10 (by decide), Option.some.injEq] at hc'
    subst hc hc'
    obtain ⟨st₁, hst₁, -, he⟩ := (h.fine 9 (by decide)).fixed (by
      rw [show (r.label 9).1 = () from rfl, hset]; trivial) st hst hready
    rw [hst'] at hst₁
    cases hst₁
    rw [hdata, hdata'] at he
    cases he

end Future

end ConcurrencySandbox

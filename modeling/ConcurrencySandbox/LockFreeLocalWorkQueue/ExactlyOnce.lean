import ConcurrencySandbox.LockFreeLocalWorkQueue.Steps

/-!
# Every task is handed out once

Every step of a thread has an `Effect` and keeps its place (`moves_step`), so along a run the tasks
returned, held and still in the window are the tasks pushed, which are those of all calls of `push`
but the one in progress (`each_task_once`).
-/

namespace ConcurrencySandbox

open Interleaving Structures HazardPointer

namespace LockFreeLocalWorkQueue

variable {τ C P T : Type*}

def frameOf : PC τ C P T → Frame τ C
  | .domain f | .retiring f _ _ _ => f
  | _ => .ready

/-- Fewer than 2 ^ 63 pushes. -/
def Few (c : Conf τ (Shared τ C P T) (PC τ C P T)) (l : τ × Act C P T) : Prop :=
  match l.2 with
  | .push _ => c.shared.pushed.length + 1 < 2 ^ 63
  | _ => True

instance (c : Conf τ (Shared τ C P T) (PC τ C P T)) : ∀ l, Decidable (Few c l)
  | (_, .push _) => inferInstanceAs (Decidable (c.shared.pushed.length + 1 < 2 ^ 63))
  | (_, .pop) | (_, .steal) | (_, .exit _) | (_, .run _) | (_, .alloc _) | (_, .allocTask _) =>
    isTrue trivial

variable [DecidableEq τ] [DecidableEq C] [DecidableEq P] {g g' : Ghost τ C P T}
  {s s' : Shared τ C P T} {o t : τ} {p p' : PC τ C P T} {f : τ → PC τ C P T} {act : Act C P T}
  {ok : Bool} {fr fr' : Frame τ C} {e : Hazards.Event (τ × ℕ) C}

omit [DecidableEq τ] [DecidableEq C] [DecidableEq P] in
theorem Shape.bottom_lt (hG : Shape g s) : g.bottom < 2 ^ 63 := hG.bottom.trans_lt hG.few

omit [DecidableEq P] in
/-- What the step theorem says of the thread that moved. -/
def Moves (o : τ) (g : Ghost τ C P T) (s : Shared τ C P T) (t : τ) (f : τ → PC τ C P T)
    (s' : Shared τ C P T) (p' : PC τ C P T) : Prop :=
  ∃ g' e, Effect o t g g' s s' e ∧
    Refines 1 s'.domain (Function.update (frameOf ∘ f) t (frameOf p')) g'.hazards ∧
    Placed o t g' s' p'

omit [DecidableEq P] in
theorem domainStep_spec (hG : Shape g s) (hR : Refines 1 s.domain (frameOf ∘ f) g.hazards)
    (hf : frameOf (f t) = fr) (hs : s.domainStep t ok fr = some (s', fr')) :
    ∃ g' e, Effect o t g g' s s' e ∧
      Refines 1 s'.domain (Function.update (frameOf ∘ f) t fr') g'.hazards ∧
      g' = { g with hazards := g'.hazards, published := g'.published } ∧
      s' = { s with domain := s'.domain, allocated := s'.allocated } := by
  revert hs
  unfold Shared.domainStep
  split
  · rename_i d f' b hd
    rintro ⟨⟩
    obtain ⟨he, hR'⟩ := hR.step (hf ▸ hd)
    obtain ⟨g', hg, hE⟩ := free_spec hG o t (d := d) he
    exact ⟨g', _, hE, hE.hazards ▸ hR', hg, rfl⟩
  · rename_i d f' e hne hd
    rintro ⟨⟩
    obtain ⟨he, hR'⟩ := hR.step (hf ▸ hd)
    rcases step_event hd with rfl | ⟨i, rfl⟩ | ⟨b, rfl⟩
    · exact ⟨_, _, quiet_spec hG o t d, hR', rfl, rfl⟩
    · exact ⟨_, _, store_spec hG o t i none, hR', rfl, rfl⟩
    · exact absurd rfl (hne b)
  · simp

omit [DecidableEq P] in
/-- A step outside the domain. -/
theorem Moves.call (hR : Refines 1 s.domain (frameOf ∘ f) g.hazards) (hf : frameOf (f t) = .ready)
    (hE : Effect o t g g' s s' .skip) (hd : s'.domain = s.domain) (hf' : frameOf p' = .ready)
    (hp : Placed o t g' s' p') : Moves o g s t f s' p' := by
  refine ⟨g', _, hE, ?_, hp⟩
  rw [hd, hf', hE.hazards]
  exact hR.move (congrArg pending hf.symm) (congrArg (registered 1) hf.symm).le trivial

omit [DecidableEq P] in
theorem Moves.stay (hG : Shape g s) (hR : Refines 1 s.domain (frameOf ∘ f) g.hazards)
    (hf : frameOf (f t) = .ready) (hf' : frameOf p' = .ready) (hp : Placed o t g s p') :
    Moves o g s t f s p' :=
  .call hR hf (quiet_spec hG o t s.domain) rfl hf' hp

omit [DecidableEq P] in
theorem Moves.storeHp (hG : Shape g s) (hR : Refines 1 s.domain (frameOf ∘ f) g.hazards)
    (hf : frameOf (f t) = .ready) {v : Option C} (hf' : frameOf p' = .ready)
    (hp : Placed o t { g with hazards := g.hazards.apply (.store (t, 0) v) } (s.storeHp t v) p') :
    Moves o g s t f (s.storeHp t v) p' := by
  have hreg : registered 1 (frameOf (f t)) = 1 := by rw [hf]; rfl
  refine ⟨_, _, store_spec hG o t 0 v, ?_, hp⟩
  rw [hf']
  exact hR.store v (by simp [hreg]) (congrArg pending hf.symm)
    (congrArg (registered 1) hf.symm).le trivial

theorem moves_push (hG : Shape g s) (hR : Refines 1 s.domain (frameOf ∘ f) g.hazards)
    (hf : frameOf (f t) = frameOf p) (hp : Placed o t g s p)
    (hn : nextPush t act s p = some (s', p')) : Moves o g s t f s' p' := by
  have htop : s.mTop = g.top := hG.top
  have hlt := hG.bottom_lt
  have hcap := hG.capacity
  have hbot : g.bottom = g.top + g.items.length := rfl
  revert hn
  fun_cases nextPush t act s p <;> intro hn <;> cases hn
  · exact .stay hG hR hf rfl hp
  · exact .stay hG hR hf rfl ⟨hp, g.top, htop, le_rfl, by omega⟩
  · obtain ⟨h1, k, hk, h2, h3⟩ := hp
    exact .stay hG hR hf rfl ⟨h1, rfl, k, hk, h2, h3⟩
  · -- the array need not grow
    rename_i task b top _ hfull
    obtain ⟨h1, k, rfl, h2, h3⟩ := hp
    refine .stay hG hR hf rfl ⟨h1, rfl, ?_⟩
    obtain rfl : b = g.bottom := h1.2.2.2.1
    have hsize : (g.bottom : ℤ) - k = (g.bottom - k : ℕ) := by omega
    rw [hsize, toSize_natCast (by omega)] at hfull
    have : s.capacity s.mTasks = (s.arrays s.mTasks).capacity := rfl
    unfold Room
    omega
  · obtain ⟨h1, h2, h3⟩ := hp
    exact .stay hG hR hf rfl ⟨h1, ⟨h2, rfl⟩, h3⟩
  · -- the new array
    rename_i task b top tasks cur a ha
    obtain ⟨h1, ⟨rfl, rfl⟩, k, rfl, h2, h3⟩ := hp
    obtain rfl : t = o := h1.1
    have hn : a ∉ g.published := fun h => ha (hG.allocated a h)
    have hnew : (s.make a ((s.arrays s.mTasks).capacity * 2)).capacity a =
        s.capacity s.mTasks * 2 := by
      simp [Shared.capacity, Shared.make]
    have hcur : s.mTasks ≠ a := fun h => hn (h ▸ hG.current.1)
    rw [toSize_natCast (by omega)]
    refine .call hR hf (make_spec hG t ha _) rfl rfl
      ⟨h1, ⟨rfl, rfl, hn, by simp [Shared.make]⟩, k, h2, le_rfl, ?_, fun j h4 h5 => by omega⟩
    rw [hnew]
    omega
  · -- the copy
    rename_i task b tasks cur a i _ hi
    obtain ⟨h1, ⟨rfl, rfl, h4, h5⟩, k, h6, h7, h8, h9⟩ := hp
    obtain rfl : t = o := h1.1
    obtain rfl : b = g.bottom := h1.2.2.2.1
    rw [toSize_natCast hlt] at hi
    have hcur : s.mTasks ≠ a := fun h => h4 (h ▸ hG.current.1)
    have hself : (s.put a i (s.cell s.mTasks i)).arrays a = (s.arrays a).put i
        (s.cell s.mTasks i) :=
      Function.update_self ..
    have hother : ∀ j, (s.put a i (s.cell s.mTasks i)).cell s.mTasks j =
        s.cell s.mTasks j := fun j =>
      congrArg (CircularArray.get · j) (Function.update_of_ne hcur _ _)
    refine .call hR hf (array_spec hG t h4 _ hG.allocated) rfl rfl
      ⟨h1, ⟨rfl, rfl, h4, h5⟩, k, h6, by omega, ?_, fun j h10 h11 => ?_⟩
    · exact h8.trans_eq (congrArg (k + ·) (s.capacity_put ..).symm)
    · refine Eq.trans ?_ (hother j).symm
      unfold Shared.cell at h9 ⊢
      unfold Shared.capacity at h8
      refine (congrArg (CircularArray.get · j) hself).trans ?_
      by_cases hj : j = i
      · subst hj
        exact CircularArray.get_put_self (by omega)
      · refine (CircularArray.get_put_ne (mod_ne (i := j) ?_ ?_).symm).trans (h9 j h10 ?_)
        all_goals omega
  · rename_i hi
    obtain ⟨h1, ⟨h2, h3, h4, h5⟩, k, h6, h7, h8, h9⟩ := hp
    rw [h1.2.2.2.1, toSize_natCast hlt] at hi
    exact .stay hG hR hf rfl ⟨h1, ⟨h2, h4, h5⟩, by omega,
      fun j h10 h11 => h9 j (by omega) (by omega)⟩
  · -- the new array is current
    rename_i task b tasks newTasks _
    obtain ⟨h1, ⟨rfl, h3, h4⟩, h5, h6⟩ := hp
    obtain rfl : t = o := h1.1
    have hE := tasks_spec hG t h3 h4 (by omega) h6
    refine .call hR hf hE rfl rfl ⟨⟨h1, rfl, h5⟩, .inr hG.current.1, hG.current.2, ?_⟩
    exact fun h : s.mTasks = newTasks => h3 (h ▸ hG.current.1)
  · -- retire
    obtain ⟨h1, h2, h3, h4⟩ := hp
    obtain rfl : t = o := h1.1.1
    exact ⟨_, _, retire_spec hG h2 h3 h4, hR.retire hf h3, h1⟩
  · exact .stay hG hR hf rfl hp
  · rename_i hs
    obtain ⟨g', e, hE, hR', hg, hs'⟩ := domainStep_spec (o := o) hG hR hf hs
    refine ⟨g', e, hE, hR', ?_⟩
    rw [hg, hs']
    exact hp
  · -- the new task
    rename_i task b tasks q hq
    obtain ⟨h1, h2, h3⟩ := hp
    obtain rfl : t = o := h1.1
    obtain ⟨g', hE, hg, hown⟩ := makeTask_spec hG t (by simpa using hq) task
    refine .call hR hf hE rfl rfl ⟨?_, hown⟩
    rw [hg]
    exact ⟨h1, h2, h3⟩
  · -- put
    rename_i task b tasks q _
    obtain ⟨⟨h1, rfl, h3⟩, h4⟩ := hp
    obtain rfl : t = o := h1.1
    obtain rfl : b = g.bottom := h1.2.2.2.1
    rw [toSize_natCast hlt]
    obtain ⟨hE, hcell⟩ := put_spec hG t (some q)
    refine .call hR hf hE rfl rfl ⟨⟨h1, hcell, ?_⟩, h4⟩
    exact h3.trans_eq (s.capacity_put ..).symm
  · rename_i task b q _
    obtain ⟨⟨h1, h2, h3⟩, h4⟩ := hp
    obtain ⟨rfl, h5, -, rfl, h6⟩ := h1
    obtain ⟨g', hE, hheld, hbottom⟩ := commit_spec hG h3 h6 h4 h2
    refine .call hR hf hE rfl rfl ⟨?_, fun _ => ?_⟩
    · unfold Ghost.Free
      rwa [hheld]
    · unfold Settled
      rw [hbottom]
      push_cast
      rfl
  · exact .stay hG hR hf rfl hp

theorem moves_pop (hG : Shape g s) (hR : Refines 1 s.domain (frameOf ∘ f) g.hazards)
    (hf : frameOf (f t) = frameOf p) (hp : Placed o t g s p)
    (hn : nextPop t act s p = some (s', p')) : Moves o g s t f s' p' := by
  have htop : s.mTop = g.top := hG.top
  have hlt := hG.bottom_lt
  have hwithin := hG.within
  have hbot : g.bottom = g.top + g.items.length := rfl
  have hne : g.top < g.bottom → g.items ≠ [] := fun h hi => by
    rw [hbot, hi] at h
    exact lt_irrefl _ h
  revert hn
  fun_cases nextPop t act s p <;> intro hn <;> cases hn
  · obtain ⟨h1, h2, h3⟩ := hp
    exact .stay hG hR hf rfl ⟨h1, h2, by rw [h3]; omega⟩
  · obtain ⟨rfl, h2, h3⟩ := hp
    exact .call hR hf (bottom_spec hG t (by omega)) rfl rfl ⟨rfl, h2, h3, rfl⟩
  · obtain ⟨h1, h2, h3, h4⟩ := hp
    exact .stay hG hR hf rfl ⟨h1, h2, by omega⟩
  · -- the decision of pop
    rename_i newBottom _ hge
    obtain ⟨rfl, h2, h3, h4⟩ := hp
    obtain ⟨k, rfl⟩ : ∃ k : ℕ, newBottom = k := ⟨newBottom.toNat, by omega⟩
    have hk : g.bottom = k + 1 := by omega
    by_cases hlast : (0 : ℤ) < k - s.mTop
    · obtain ⟨g', hE, hb, hh⟩ := takeLast_spec hG h2 hk (by omega) h4
      refine .call hR hf hE rfl rfl ⟨rfl, k, rfl, ?_⟩
      rw [if_pos hlast]
      exact ⟨h4.trans (congrArg _ hb.symm), hb, hh⟩
    · refine .stay hG hR hf rfl ⟨rfl, k, rfl, ?_⟩
      rw [if_neg hlast]
      exact ⟨h2, hk, by omega, by omega⟩
  · obtain ⟨rfl, h2, rfl⟩ := hp
    exact .call hR hf (bottom_spec hG t (by omega)) rfl rfl ⟨h2, fun _ => rfl⟩
  · -- the compare-and-swap of pop takes the last task
    rename_i p _ hcas
    obtain ⟨rfl, h2, k, hk, h3, h4, h5⟩ := hp
    obtain rfl : k = g.top := by omega
    obtain ⟨g', hE, hb, hh⟩ := takeFirst_spec hG t h2 hwithin.2 (hne (by omega))
    rw [h5 rfl, htop]
    exact .call hR hf hE rfl rfl ⟨hh, rfl, by omega⟩
  · obtain ⟨rfl, h2, k, hk, h3, h4, h5⟩ := hp
    exact .stay hG hR hf rfl ⟨rfl, h2, by omega⟩
  · obtain ⟨rfl, h2, h3⟩ := hp
    rw [h3]
    exact .call hR hf (bottom_spec hG t (by omega)) rfl rfl ⟨h2, fun _ => rfl⟩
  · exact .stay hG hR hf rfl ⟨hp.1, hp.2, g.top, htop, le_rfl⟩
  · exact .stay hG hR hf rfl ⟨hp.1, hp.2.1⟩
  · obtain ⟨h1, h2, k, rfl, h3⟩ := hp
    exact .stay hG hR hf rfl ⟨h1, h2, k, rfl, h3, fun h => hne (by omega)⟩
  · -- the compare-and-swap of steal
    rename_i p _ hcas
    obtain ⟨h1, h2, k, hk, h3, h4⟩ := hp
    obtain rfl : k = g.top := by omega
    obtain ⟨g', hE, hb, hh⟩ := takeFirst_spec hG o h1 hwithin.2 (h3.2 rfl)
    rw [h4 rfl, htop]
    refine .call hR hf hE rfl rfl ⟨hh, fun ho => ?_⟩
    exact (h2 ho).trans (congrArg _ hb.symm)
  · exact .stay hG hR hf rfl ⟨hp.1, hp.2.1⟩
  · exact .stay hG hR hf rfl hp
  · rename_i w tasks _
    refine .storeHp hG hR hf rfl ⟨?_, by simp [Hazards.apply]⟩
    cases w <;> exact hp
  · -- the array is still current
    obtain ⟨h1, h2⟩ := hp
    refine .stay hG hR hf rfl ⟨h1, ⟨hG.current.1, h2, fun h => absurd h hG.current.2⟩, ?_⟩
    exact fun _ _ _ => rfl
  · exact .stay hG hR hf rfl hp.1
  · rename_i tasks _ newBottom oldTop hsize
    obtain ⟨⟨h1, k, rfl, h2⟩, -, h3⟩ := hp
    rw [if_pos hsize] at h2
    obtain ⟨h4, h5, h6⟩ := h2
    rw [toSize_natCast (by omega)]
    refine .stay hG hR hf rfl ⟨?_, fun _ => h4⟩
    show Holds g s t (s.cell tasks k)
    rwa [h3 k rfl (by omega)]
  · rename_i tasks _ newBottom oldTop hsize
    obtain ⟨⟨h1, k, rfl, h2⟩, -, h3⟩ := hp
    rw [if_neg hsize] at h2
    obtain ⟨h4, h5, rfl, h6⟩ := h2
    rw [toSize_natCast (by omega)]
    exact .stay hG hR hf rfl ⟨h1, h4, k, rfl, h5, h6, fun h => h3 k rfl h.le⟩
  · rename_i tasks _ oldTop
    obtain ⟨⟨h1, h2, k, rfl, h3⟩, -, h4⟩ := hp
    have hk := h3.1
    rw [toSize_natCast (by omega)]
    exact .stay hG hR hf rfl ⟨h1, h2, k, rfl, h3, fun h => h4 k rfl h.le⟩
  · rename_i q _ task oldTop htask
    obtain ⟨⟨q', task', hq, hown, hheld⟩, rfl, h2⟩ := hp
    obtain rfl := Option.some.inj hq
    obtain rfl : task' = task := Option.some.inj (hown.2.symm.trans htask)
    obtain ⟨g', hE, hg⟩ := freeTask_spec hG t hown
    refine .call hR hf hE rfl rfl ?_
    rw [hg]
    exact ⟨rfl, hheld, h2⟩
  · rename_i q _ task htask
    obtain ⟨⟨q', task', hq, hown, hheld⟩, h2⟩ := hp
    obtain rfl := Option.some.inj hq
    obtain rfl : task' = task := Option.some.inj (hown.2.symm.trans htask)
    obtain ⟨g', hE, hg⟩ := freeTask_spec hG o hown
    refine .call hR hf hE rfl rfl ?_
    rw [hg]
    exact ⟨hheld, h2⟩
  · rename_i ans _
    refine .storeHp hG hR hf rfl ⟨?_, hp.2⟩
    cases ans <;> exact hp.1
  · obtain ⟨g', hE, hg, hfree⟩ := return_spec hG o hp.1
    refine .call hR hf hE rfl rfl ⟨hfree, ?_⟩
    rw [hg]
    exact hp.2
  · exact .stay hG hR hf rfl hp

theorem moves_step (hG : Shape g s) (hR : Refines 1 s.domain (frameOf ∘ f) g.hazards)
    (hf : frameOf (f t) = frameOf p) (hp : Placed o t g s p)
    (hC : ∀ task, act = .push task → s.pushed.length + 1 < 2 ^ 63)
    (hn : next o t act s p = some (s', p')) : Moves o g s t f s' p' := by
  have exit : ∀ {q : Frame τ C}, pending q = pending (frameOf p) →
      registered 1 q ≤ registered 1 (frameOf p) →
        Scanned g.hazards (s.domain.localDeleteList t) q → Placed o t g s (.domain q) →
          Moves o g s t f s (.domain q) :=
    fun h1 h2 h3 h4 => ⟨g, _, quiet_spec hG o t s.domain,
      hR.move (h1.trans (congrArg pending hf.symm))
      (h2.trans (congrArg (registered 1) hf.symm).le) h3,
      h4⟩
  revert hn
  fun_cases next o t act s p <;> intro hn
  · rename_i task ho
    cases hn
    obtain ⟨h1, h2⟩ := hp
    exact .stay hG hR hf rfl ⟨ho, h1, h2 ho, h2 ho, hC task rfl⟩
  · cases hn
  · rename_i ho
    cases hn
    exact .stay hG hR hf rfl ⟨ho, hp.1, hp.2 ho⟩
  · cases hn
  · cases hn
    exact .stay hG hR hf rfl hp
  · rename_i listFirst
    cases hn
    cases listFirst <;> exact exit rfl le_rfl trivial hp
  · rename_i hs
    cases hn
    obtain ⟨g', e, hE, hR', hg, hs'⟩ := domainStep_spec (o := o) hG hR hf hs
    refine ⟨g', e, hE, hR', ?_⟩
    rw [hg, hs']
    exact hp
  · cases hn
  · cases hn
  · rename_i hpush
    cases hn
    exact moves_push hG hR hf hp hpush
  · exact moves_pop hG hR hf hp hn

/-- In every state of a run: the hazard slots, the tasks, and what every thread relies on. -/
def Sound (o : τ) (g : Ghost τ C P T) (c : Conf τ (Shared τ C P T) (PC τ C P T)) : Prop :=
  Shape g c.shared ∧ Refines 1 c.shared.domain (frameOf ∘ c.pc) g.hazards ∧
    ∀ t, Placed o t g c.shared (c.pc t)

variable {c : Conf τ (Shared τ C P T) (PC τ C P T)}

omit [DecidableEq τ] [DecidableEq P] in
theorem sound_initial (o : τ) (a : C) {n : ℕ} (hn : 1 ≤ n) :
    ∃ g : Ghost τ C P T, Sound o g
      ⟨(initial a n : Shared τ C P T), fun _ => .domain .unstarted⟩ := by
  refine ⟨⟨⟨fun _ => none, ∅, fun _ => ∅⟩, {a}, 0, [], fun _ => none, []⟩, ?_, Refines.init 1,
    fun _ => ⟨by simp [Ghost.Free], fun _ => rfl⟩⟩
  exact
    { top := rfl
      window := trivial
      within := ⟨by simp [initial], le_rfl⟩
      capacity := by simpa [Shared.capacity, initial] using Nat.lt_of_succ_le hn
      bottom := le_rfl
      few := by simp [initial]
      nodup := List.nodup_nil
      queued := by simp
      alive := by simp
      keys := List.nodup_nil
      account := ⟨[], rfl, .refl _⟩
      current := ⟨rfl, id⟩
      retired := by simp
      allocated := by simp [initial] }

theorem sound_reach (h : (system o).Reach Few c) : ∃ g, Sound o g c := by
  refine h.induct (P := fun c => ∃ g, Sound o g c) ?_ ?_
  · rintro ⟨s, f⟩ ⟨⟨a, n, hn, rfl⟩, rfl⟩
    exact sound_initial o a hn
  · rintro c ⟨t, act⟩ c' - ⟨g, hG, hR, hp⟩ hC hs
    obtain ⟨s', p', hn, rfl⟩ := Program.step_eq_some.1 hs
    have hfew : ∀ task, act = .push task → c.shared.pushed.length + 1 < 2 ^ 63 := by
      rintro task rfl
      exact hC
    obtain ⟨g', e, hE, hR', hp'⟩ := moves_step hG hR rfl (hp t) hfew hn
    refine ⟨g', hE.shape, by rwa [Function.comp_update], Program.forall_update hp' fun u hu => ?_⟩
    exact (hp u).effect hE hu

/-- The tasks stored from `mTop` to `mBottom - 1` in the current array. -/
def Shared.stored (s : Shared τ C P T) : List (Option T) :=
  (List.range (s.mBottom - s.mTop).toNat).map fun k : ℕ =>
    ((s.arrays s.mTasks).get (toSize (s.mTop + k))).bind s.tasks

omit [DecidableEq τ] [DecidableEq C] [DecidableEq P] in
theorem Shape.stored_eq (hG : Shape g s) (hB : Settled g s) :
    s.stored = g.items.map s.tasks := by
  have htop := hG.top
  have hlt := hG.bottom_lt
  have hlen : (s.mBottom - s.mTop).toNat = g.items.length := by
    rw [hB, htop]
    unfold Ghost.bottom
    omega
  have hmap := congrArg (List.map (·.bind s.tasks)) hG.window.map_range
  rw [List.map_map, List.map_map] at hmap
  unfold Shared.stored
  rw [hlen]
  refine Eq.trans (List.map_congr_left fun k hk => ?_) hmap
  have hk' : g.top + k < g.bottom := Nat.add_lt_add_left (List.mem_range.1 hk) _
  rw [htop, ← Int.natCast_add, toSize_natCast (by omega)]
  rfl

/-! ### Calls of `push` -/

/-- The task of a call of `push`. -/
def begun (act : Act C P T) (p : PC τ C P T) : List T :=
  match act, p with
  | .push task, .domain .ready => [task]
  | _, _ => []

/-- The task of a `push` that has not stored `mBottom`. -/
def pushing : PC τ C P T → List T
  | .pushBottom task | .pushTop task _ | .pushTasks task _ _ | .pushReload task _ _ _
  | .pushResize task _ _ _ _ | .pushCopy task _ _ _ _ _ | .pushTasksStore task _ _ _
  | .pushRetire task _ _ _ | .retiring _ task _ _ | .pushNew task _ _ | .pushPut task _ _ _
  | .pushBottomStore task _ _ => [task]
  | _ => []

/-- The task that the thread's next step adds. -/
def added : PC τ C P T → List T
  | .pushBottomStore task _ _ => [task]
  | _ => []

omit [DecidableEq P] in
theorem domainStep_same {ok : Bool} {f f' : Frame τ C} (hs : s.domainStep t ok f = some (s', f')) :
    s' = { s with domain := s'.domain, allocated := s'.allocated } := by
  revert hs
  unfold Shared.domainStep
  split <;> rintro ⟨⟩ <;> rfl

theorem nextPush_pushed (hn : nextPush t act s p = some (s', p')) :
    s'.pushed = s.pushed ++ added p := by
  revert hn
  fun_cases nextPush t act s p <;> intro hn <;> cases hn
  case case13 hs =>
    rw [domainStep_same hs]
    exact (List.append_nil _).symm
  all_goals first | rfl | exact (List.append_nil _).symm

theorem nextPop_pushed (hn : nextPop t act s p = some (s', p')) :
    s'.pushed = s.pushed ++ added p := by
  revert hn
  fun_cases nextPop t act s p <;> intro hn <;> cases hn <;> exact (List.append_nil _).symm

theorem next_pushed (hn : next o t act s p = some (s', p')) : s'.pushed = s.pushed ++ added p := by
  revert hn
  fun_cases next o t act s p <;> intro hn
  case case7 hs =>
    cases hn
    rw [domainStep_same hs]
    exact (List.append_nil _).symm
  case case10 hpush =>
    cases hn
    exact nextPush_pushed hpush
  case case11 => exact nextPop_pushed hn
  all_goals cases hn
  all_goals exact (List.append_nil _).symm

theorem nextPush_calls (hn : nextPush t act s p = some (s', p')) :
    pushing p ++ begun act p = added p ++ pushing p' := by
  revert hn
  fun_cases nextPush t act s p <;> intro hn <;> cases hn <;> rfl

theorem nextPop_calls (hn : nextPop t act s p = some (s', p')) :
    pushing p ++ begun act p = added p ++ pushing p' := by
  revert hn
  fun_cases nextPop t act s p <;> intro hn <;> cases hn <;> rfl

/-- A `push` adds the task it was called with, once, before it returns. -/
theorem next_calls (hn : next o t act s p = some (s', p')) :
    pushing p ++ begun act p = added p ++ pushing p' := by
  revert hn
  fun_cases next o t act s p <;> intro hn
  case case10 hpush =>
    cases hn
    exact nextPush_calls hpush
  case case11 => exact nextPop_calls hn
  all_goals cases hn
  all_goals rfl

omit [DecidableEq τ] [DecidableEq C] [DecidableEq P] in
/-- Only the owner pushes. -/
theorem Placed.pushing_nil (h : Placed o t g s p) (ht : t ≠ o) : pushing p = [] := by
  unfold pushing
  split
  case h_1 | h_2 => exact absurd h.1 ht
  case h_3 | h_4 | h_5 | h_6 | h_7 | h_9 | h_10 => exact absurd h.1.1 ht
  case h_8 | h_11 | h_12 => exact absurd h.1.1.1 ht
  case h_13 => rfl

omit [DecidableEq τ] [DecidableEq C] [DecidableEq P] in
theorem added_nil (h : pushing p = []) : added p = [] := by
  cases p <;> first | rfl | exact h

section Runs

variable {n i : ℕ} (r : (system (τ := τ) (C := C) (P := P) (T := T) o).Run Few n)

/-- The tasks that `push` has been called with. -/
def called (i : ℕ) : List T := r.log (fun c l => begun l.2 (c.pc l.1)) i

/-- Every call of `push` has pushed its task when it returns. What was returned was pushed, no task
twice; with no call in progress the tasks stored are those pushed and not returned. -/
structure EachOnce (i : ℕ) : Prop where
  calls : called r i = (r.state i).shared.pushed ++ pushing ((r.state i).pc o)
  once : (r.state i).shared.returned.Subperm (r.state i).shared.pushed
  stored : (∀ t, ∃ f, (r.state i).pc t = .domain f) →
    (r.state i).shared.mTop ≤ (r.state i).shared.mBottom ∧
      ((r.state i).shared.returned.map some ++ (r.state i).shared.stored).Perm
      ((called r i).map some)

variable {r}

theorem calls_run (hi : i ≤ n) :
    called r i = (r.state i).shared.pushed ++ pushing ((r.state i).pc o) := by
  induction i with
  | zero =>
    obtain ⟨⟨a, m, -, hs⟩, hp⟩ := r.init
    rw [hs, hp]
    rfl
  | succ i ih =>
    obtain ⟨hn, hother⟩ := Program.run_step r hi
    have hlog : called r (i + 1) =
        called r i ++ begun (r.label i).2 ((r.state i).pc (r.label i).1) := r.log_succ _ i
    have hc := next_calls hn
    rw [hlog, ih (by omega), next_pushed hn, List.append_assoc, List.append_assoc]
    by_cases ht : (r.label i).1 = o
    · rw [ht] at hc ⊢
      rw [hc]
    · obtain ⟨g, -, -, hp⟩ := sound_reach (r.reach (Nat.le_of_succ_le hi))
      obtain ⟨g', -, -, hp'⟩ := sound_reach (r.reach hi)
      have hnil := (hp (r.label i).1).pushing_nil ht
      rw [hnil, (hp' (r.label i).1).pushing_nil ht, added_nil hnil] at hc
      rw [show begun _ _ = [] from hc, added_nil hnil, hother o (Ne.symm ht), List.append_nil,
        List.nil_append]

theorem each_task_once (r : (system (τ := τ) (C := C) (P := P) (T := T) o).Run Few n) (hi : i ≤ n) :
    EachOnce r i := by
  obtain ⟨g, hG, -, hp⟩ := sound_reach (r.reach hi)
  obtain ⟨stored, hmap, hperm⟩ := hG.account
  refine ⟨calls_run hi, ?_, fun hidle => ?_⟩
  · rw [List.append_assoc] at hperm
    exact (List.sublist_append_left _ _).subperm.trans hperm.subperm
  · have hplaced : ∀ t, g.Free t ∧ (t = o → Settled g (r.state i).shared) := fun t => by
      obtain ⟨f, hf⟩ := hidle t
      have ht := hp t
      rwa [hf] at ht
    have hheld : g.held = [] := List.eq_nil_iff_forall_not_mem.2 fun x hx =>
      (hplaced x.1).1 (List.mem_map_of_mem hx)
    have hB := (hplaced o).2 rfl
    have hcalled : called r i = (r.state i).shared.pushed := by
      obtain ⟨f, hf⟩ := hidle o
      rw [calls_run hi, hf]
      exact List.append_nil _
    rw [hheld, List.map_nil, List.append_nil] at hperm
    refine ⟨?_, ?_⟩
    · rw [hG.top, hB]
      exact_mod_cast Nat.le_add_right g.top g.items.length
    · rw [hG.stored_eq hB, hmap, ← List.map_append, hcalled]
      exact hperm.map _

end Runs

/-- The counters are `long long` values. -/
theorem counters_fit (h : (system o).Reach Few c) : 0 ≤ c.shared.mTop ∧ c.shared.mTop < 2 ^ 63 ∧
    -1 ≤ c.shared.mBottom ∧ c.shared.mBottom < 2 ^ 63 := by
  obtain ⟨g, hG, -⟩ := sound_reach h
  have htop := hG.top
  have hlt := hG.bottom_lt
  have hwithin := hG.within
  have hbot : g.bottom = g.top + g.items.length := rfl
  omega

/-- A call that has taken a task finds it alive. -/
theorem take_alive (h : (system o).Reach Few c) {q : Option P} {restore : Option ℤ}
    (ht : c.pc t = .take q restore) : ∃ r task, q = some r ∧ c.shared.tasks r = some task := by
  obtain ⟨g, -, -, hp⟩ := sound_reach h
  have htake := hp t
  rw [ht] at htake
  obtain ⟨⟨r, task, h1, h2, -⟩, -⟩ := htake
  exact ⟨r, task, h1, h2.2⟩

/-- From capacity 1: the owner pushes, which replaces the array, and thread 1 steals the task. -/
theorem each_task_once_steal : ∃ (n : ℕ)
    (r : (system (τ := Fin 2) (C := ℕ) (P := ℕ) (T := ℕ) 0).Run Few n),
    called r n = [7] ∧ (r.state n).shared.returned = [7] ∧ (r.state n).shared.mTasks = 1 ∧
      EachOnce r n := by
  let run (t : Fin 2) (n : ℕ) : List (Fin 2 × Act ℕ ℕ ℕ) := List.replicate n (t, .run true)
  let as := run 0 4 ++ run 1 4 ++ (0, .push 7) :: run 0 4 ++ (0, .alloc 1) :: run 0 5 ++
    (0, .allocTask 5) :: run 0 3 ++ (1, .steal) :: run 1 10
  have hex : ∃ c : Conf (Fin 2) (Shared (Fin 2) ℕ ℕ ℕ) (PC (Fin 2) ℕ ℕ ℕ),
      (system 0).execIf Few ⟨initial 0 1, fun _ => .domain .unstarted⟩ as = some c ∧
        c.shared.pushed = [7] ∧ c.shared.returned = [7] ∧ c.shared.mTasks = 1 ∧
          c.pc 0 = .domain .ready := ⟨_, rfl, rfl, rfl, rfl, rfl⟩
  obtain ⟨c, hc, h1, h2, h3, h4⟩ := hex
  obtain ⟨r, rfl⟩ := System.exists_run_of_execIf (S := system 0) (0, .run true)
    ⟨⟨0, 1, le_rfl, rfl⟩, rfl⟩ hc
  have h := each_task_once r le_rfl
  refine ⟨as.length, r, ?_, h2, h3, h⟩
  rw [h.calls, h1, h4]
  rfl

end LockFreeLocalWorkQueue

end ConcurrencySandbox

import ConcurrencySandbox.LockFreeLocalWorkQueue.Shape

/-!
# What the steps of the work queue do

One lemma for each change of the shared state. Taking a task, from the top or from the bottom, moves
it from the window to the tasks held; a `pop` does the latter at its load of `mTop`, which changes
no memory.
-/

namespace ConcurrencySandbox

open Interleaving Structures HazardPointer

namespace LockFreeLocalWorkQueue

variable {τ C P T : Type*} [DecidableEq τ] [DecidableEq C] [DecidableEq P] {g : Ghost τ C P T}
  {s : Shared τ C P T} {o t : τ} {a : C} {q : P} {task : T} {k : ℕ}

section Domain

omit [DecidableEq P]

omit [DecidableEq τ] [DecidableEq C] in
theorem Ahead.lt (h : Ahead g k) (ht : g.top = k) : k < g.bottom := by
  have hpos := List.length_pos_iff.2 (h.2 ht.symm)
  unfold Ghost.bottom
  omega

/-- A step that changes no task. -/
theorem Effect.of_tasks {g' : Ghost τ C P T} {s' : Shared τ C P T} {e : Hazards.Event (τ × ℕ) C}
    (hG' : Shape g' s') (htop : g'.top = g.top) (hitems : g'.items = g.items)
    (howner : g'.owner = g.owner) (hheld : g'.held = g.held) (htasks : s'.tasks = s.tasks)
    (hazards : g'.hazards = g.hazards.apply e) (enabled : g.hazards.Enabled e)
    (store : ∀ x v, e = .store x v → x.1 = t)
    (published : ∀ b ∈ g.published, e ≠ .free b → b ∈ g'.published)
    (cells : ∀ k, ∀ b ∈ g.published, Ahead g k → g.top = k → s'.cell b k = s.cell b k)
    (found : ∀ k, Ahead g k → g.top = k → s'.cell s'.mTasks k = s.cell s.mTasks k)
    (steady : t ≠ o → Steady g g' s s') : Effect o t g g' s s' e where
  shape := hG'
  hazards := hazards
  enabled := enabled
  store := store
  held u _ x := by rw [hheld]
  own u _ p hp := ⟨howner ▸ hp, congrFun htasks p⟩
  published := published
  top := htop.ge
  ahead k hk := by
    unfold Ahead
    rw [htop, hitems]
    exact hk
  cells k b hb hk ht := cells k b hb hk (htop ▸ ht)
  found k hk ht := found k hk (htop ▸ ht)
  steady := steady

/-- A step that changes neither the tasks nor the cells. -/
theorem Effect.of_same {g' : Ghost τ C P T} {s' : Shared τ C P T} {e : Hazards.Event (τ × ℕ) C}
    (hG' : Shape g' s') (htop : g'.top = g.top) (hitems : g'.items = g.items)
    (howner : g'.owner = g.owner) (hheld : g'.held = g.held) (htasks : s'.tasks = s.tasks)
    (harrays : s'.arrays = s.arrays) (hmTasks : s'.mTasks = s.mTasks)
    (hazards : g'.hazards = g.hazards.apply e) (enabled : g.hazards.Enabled e)
    (store : ∀ x v, e = .store x v → x.1 = t)
    (published : ∀ b ∈ g.published, e ≠ .free b → b ∈ g'.published)
    (steady : t ≠ o → Steady g g' s s') : Effect o t g g' s s' e := by
  have hcell : ∀ b k, s'.cell b k = s.cell b k := fun b k =>
    congrArg (CircularArray.get · k) (congrFun harrays b)
  refine .of_tasks hG' htop hitems howner hheld htasks hazards enabled store published
    (fun k b _ _ _ => hcell b k) (fun k _ _ => ?_) steady
  rw [hmTasks, hcell]

/-- A step that leaves the hazard pointers and the arrays alone. -/
theorem Effect.of_skip {g' : Ghost τ C P T} {s' : Shared τ C P T} (hG' : Shape g' s')
    (hh : g'.hazards = g.hazards) (hpub : g'.published = g.published)
    (harrays : s'.arrays = s.arrays) (hmTasks : s'.mTasks = s.mTasks)
    (held : ∀ u, u ≠ t → ∀ x, (u, x) ∈ g'.held ↔ (u, x) ∈ g.held)
    (own : ∀ u, u ≠ t → ∀ p, g.owner p = some u → g'.owner p = some u ∧ s'.tasks p = s.tasks p)
    (top : g.top ≤ g'.top) (ahead : ∀ k, Ahead g k → Ahead g' k)
    (steady : t ≠ o → Steady g g' s s') : Effect o t g g' s s' .skip where
  shape := hG'
  hazards := hh
  enabled := trivial
  store := nofun
  held := held
  own := own
  published b hb _ := hpub ▸ hb
  top := top
  ahead := ahead
  cells k b _ _ _ := congrArg (CircularArray.get · k) (congrFun harrays b)
  found k _ _ := by rw [Shared.cell, harrays, hmTasks]; rfl
  steady := steady

theorem quiet_spec (hG : Shape g s) (o t : τ) (d : Domain τ C) :
    Effect o t g g s { s with domain := d } .skip := by
  have hG' : Shape g { s with domain := d } := { hG with }
  exact .of_same hG' rfl rfl rfl rfl rfl rfl rfl rfl trivial nofun (fun _ h _ => h)
    fun _ => ⟨rfl, rfl, rfl, rfl, rfl, fun _ h => h, fun _ h => h, fun _ _ => rfl⟩

/-- A step that changes the slots of thread `t` only. -/
theorem store_spec (hG : Shape g s) (o t : τ) (i : ℕ) (v : Option C) {d : Domain τ C} :
    Effect o t g { g with hazards := g.hazards.apply (.store (t, i) v) } s
      { s with domain := d } (.store (t, i) v) := by
  have hG' : Shape { g with hazards := g.hazards.apply (.store (t, i) v) } { s with domain := d } :=
    { hG with }
  refine .of_same hG' rfl rfl rfl rfl rfl rfl rfl rfl trivial (fun x w h => ?_) (fun _ h _ => h)
    fun _ => ⟨rfl, rfl, rfl, rfl, rfl, fun _ h => h, fun _ h => h, fun _ _ => rfl⟩
  cases h
  rfl

/-- The owner's `retire` of an array that is not current any more. -/
theorem retire_spec (hG : Shape g s) (ha : a ∈ g.published) (hr : a ∉ g.hazards.retired)
    (hne : a ≠ s.mTasks) {d : Domain τ C} :
    Effect o o g { g with hazards := g.hazards.apply (.retire a) } s { s with domain := d }
      (.retire a) := by
  have hG' : Shape { g with hazards := g.hazards.apply (.retire a) } { s with domain := d } :=
    { hG with
      current := ⟨hG.current.1, fun h => h.elim hne.symm hG.current.2⟩
      retired := fun b hb => hb.elim (fun h => h ▸ ha) (hG.retired b) }
  exact .of_same hG' rfl rfl rfl rfl rfl rfl rfl rfl hr nofun (fun _ h _ => h)
    fun h => absurd rfl h

/-- A deleter runs. -/
theorem free_spec (hG : Shape g s) (o t : τ) {d : Domain τ C}
    (he : g.hazards.Enabled (.free a)) :
    ∃ g', g' = { g with hazards := g'.hazards, published := g'.published } ∧
      Effect o t g g' s ({ s with domain := d }.free a) (.free a) := by
  have hcur : s.mTasks ≠ a := fun h => hG.current.2 (h ▸ he.1)
  have hfree : ∀ b, b ≠ a → ({ s with domain := d }.free a).allocated b = s.allocated b :=
    fun b hb => Function.update_of_ne hb _ _
  have hG' : Shape { g with hazards := g.hazards.apply (.free a), published := g.published \ {a} }
      ({ s with domain := d }.free a) :=
    { hG with
      current := ⟨⟨hG.current.1, hcur⟩, fun h => hG.current.2 h.1⟩
      retired := fun b hb => ⟨hG.retired b hb.1, hb.2⟩
      allocated := fun b hb => (hfree b hb.2).trans (hG.allocated b hb.1) }
  refine ⟨_, rfl, .of_same hG' rfl rfl rfl rfl rfl rfl rfl rfl he nofun (fun b hb hne => ?_)
    fun _ => ⟨rfl, rfl, rfl, rfl, rfl, fun b hb => hb.1, fun b hb => hb.1, fun b hb => ?_⟩⟩
  · exact ⟨hb, fun h => hne (congrArg _ (Eq.symm h))⟩
  · exact hfree b fun h => hb (h ▸ hG.retired a he.1)

end Domain

section Arrays

omit [DecidableEq P]

/-- A change of an array that was never current. -/
theorem array_spec (hG : Shape g s) (o : τ) (ha : a ∉ g.published) (r : CircularArray P)
    {al : C → Bool} (hal : ∀ b ∈ g.published, al b = true) :
    Effect o o g g s { s with arrays := Function.update s.arrays a r, allocated := al } .skip := by
  have hne : ∀ b ∈ g.published, b ≠ a := fun b hb h => ha (h ▸ hb)
  have harr : ∀ b ∈ g.published, Function.update s.arrays a r b = s.arrays b := fun b hb =>
    Function.update_of_ne (hne b hb) _ _
  have hcur := harr _ hG.current.1
  have hG' : Shape g { s with arrays := Function.update s.arrays a r, allocated := al } :=
    { hG with
      window := hG.window.congr fun k _ _ => congrArg (CircularArray.get · k) hcur
      capacity := hG.capacity.trans_eq (congrArg CircularArray.capacity hcur.symm)
      allocated := hal }
  exact .of_tasks hG' rfl rfl rfl rfl rfl rfl trivial nofun (fun _ h _ => h)
    (fun k b hb _ _ => congrArg (CircularArray.get · k) (harr b hb))
    (fun k _ _ => congrArg (CircularArray.get · k) hcur) fun h => absurd rfl h

theorem make_spec (hG : Shape g s) (o : τ) (ha : ¬ s.allocated a = true) (n : ℕ) :
    Effect o o g g s (s.make a n) .skip := by
  have hn : a ∉ g.published := fun h => ha (hG.allocated a h)
  refine array_spec hG o hn _ fun b hb => ?_
  have hba : b ≠ a := fun h => hn (h ▸ hb)
  exact (Function.update_of_ne hba _ _).trans (hG.allocated b hb)

/-- A new array that holds the cells of the window becomes current. -/
theorem tasks_spec (hG : Shape g s) (o : τ) (ha : a ∉ g.published) (hal : s.allocated a = true)
    (hroom : g.items.length < s.capacity a)
    (hcell : ∀ j, g.top ≤ j → j < g.bottom → s.cell a j = s.cell s.mTasks j) :
    Effect o o g { g with published := insert a g.published } s { s with mTasks := a } .skip := by
  have hG' : Shape { g with published := insert a g.published } { s with mTasks := a } :=
    { hG with
      window := hG.window.congr hcell
      capacity := hroom
      current := ⟨.inl rfl, fun h => ha (hG.retired a h)⟩
      retired := fun b hb => .inr (hG.retired b hb)
      allocated := fun b hb => hb.elim (fun h => h ▸ hal) (hG.allocated b) }
  exact .of_tasks hG' rfl rfl rfl rfl rfl rfl trivial nofun (fun _ h _ => .inr h)
    (fun _ _ _ _ _ => rfl) (fun k hk htop => hcell k (Nat.le_of_eq htop) (hk.lt htop))
    fun h => absurd rfl h

omit [DecidableEq τ] in
theorem Shared.capacity_put (s : Shared τ C P T) (a b : C) (i : ℕ) (p : Option P) :
    (s.put a i p).capacity b = s.capacity b := by
  by_cases hb : b = a
  · simp [Shared.capacity, Shared.put, hb]
  · simp [Shared.capacity, Shared.put, hb]

/-- The owner writes behind the bottom. -/
theorem put_spec (hG : Shape g s) (o : τ) (p : Option P) :
    Effect o o g g s (s.put s.mTasks g.bottom p) .skip ∧
      (s.put s.mTasks g.bottom p).cell s.mTasks g.bottom = p := by
  have hcap := hG.capacity
  have hself : (s.put s.mTasks g.bottom p).arrays s.mTasks = (s.arrays s.mTasks).put g.bottom p :=
    Function.update_self ..
  have hcur : ∀ k, g.top ≤ k → k < g.bottom →
      (s.put s.mTasks g.bottom p).cell s.mTasks k = s.cell s.mTasks k := fun k h1 h2 => by
    unfold Shared.cell
    rw [hself]
    refine CircularArray.get_put_ne (mod_ne h2 ?_).symm
    unfold Shared.capacity at hcap
    unfold Ghost.bottom
    omega
  have hG' : Shape g (s.put s.mTasks g.bottom p) :=
    { hG with
      window := hG.window.congr hcur
      capacity := hcap.trans_eq (s.capacity_put ..).symm }
  refine ⟨.of_tasks hG' rfl rfl rfl rfl rfl rfl trivial nofun (fun _ h _ => h)
    (fun k b _ hk htop => ?_) (fun k hk htop => hcur k htop.le (hk.lt htop))
    fun h => absurd rfl h, ?_⟩
  · by_cases hb : b = s.mTasks
    · exact hb ▸ hcur k htop.le (hk.lt htop)
    · exact congrArg (CircularArray.get · k) (Function.update_of_ne hb _ _)
  · unfold Shared.cell
    rw [hself]
    exact CircularArray.get_put_self (Nat.zero_lt_of_lt hcap)

/-- A store to `mBottom` that adds no task. -/
theorem bottom_spec (hG : Shape g s) (o : τ) {x : ℤ} (hx : -1 ≤ x ∧ x ≤ g.bottom) :
    Effect o o g g s { s with mBottom := x } .skip := by
  have hG' : Shape g { s with mBottom := x } := { hG with within := hx }
  exact .of_same hG' rfl rfl rfl rfl rfl rfl rfl rfl trivial nofun (fun _ h _ => h)
    fun h => absurd rfl h

end Arrays

section Tasks

omit [DecidableEq τ] [DecidableEq C] [DecidableEq P] in
theorem Shape.alive_items (hG : Shape g s) (hq : q ∈ g.items) : s.tasks q ≠ none := by
  obtain ⟨stored, hmap, -⟩ := hG.account
  have hmem : s.tasks q ∈ stored.map some := hmap ▸ List.mem_map_of_mem hq
  obtain ⟨task, -, htask⟩ := List.mem_map.1 hmem
  simp [← htask]

omit [DecidableEq τ] [DecidableEq C] [DecidableEq P] in
theorem Owns.notMem (hG : Shape g s) (h : Owns g s t q task) : q ∉ g.items := fun hq => by
  simpa [h.1] using hG.queued q hq

omit [DecidableEq τ] [DecidableEq C] in
theorem map_tasks_update {l : List P} (hq : q ∉ l) (f : P → Option T) (x : Option T) :
    l.map (Function.update f q x) = l.map f := by
  refine List.map_congr_left fun p hp => ?_
  have hpq : p ≠ q := fun h => hq (h ▸ hp)
  exact Function.update_of_ne hpq _ _

theorem makeTask_spec (hG : Shape g s) (o : τ) (hq : s.tasks q = none) (task : T) :
    ∃ g', Effect o o g g' s (s.makeTask q task) .skip ∧ g' = { g with owner := g'.owner } ∧
      Owns g' (s.makeTask q task) o q task := by
  have hitems : q ∉ g.items := fun h => hG.alive_items h hq
  have hown : g.owner q = none := by
    by_contra h
    exact hG.alive q h hq
  obtain ⟨stored, hmap, hperm⟩ := hG.account
  have hG' : Shape { g with owner := Function.update g.owner q (some o) } (s.makeTask q task) :=
    { hG with
      queued := fun p hp => by
        have hpq : p ≠ q := fun h => hitems (h ▸ hp)
        simpa [hpq] using hG.queued p hp
      alive := fun p hp => by
        by_cases hpq : p = q
        · simp [Shared.makeTask, hpq]
        · simpa [Shared.makeTask, hpq] using hG.alive p (by simpa [hpq] using hp)
      account := ⟨stored, (map_tasks_update hitems _ _).trans hmap, hperm⟩ }
  refine ⟨_, .of_skip hG' rfl rfl rfl rfl (fun _ _ _ => Iff.rfl) (fun u _ p hp => ?_) le_rfl
    (fun _ h => h) fun h => absurd rfl h, rfl, Function.update_self .., Function.update_self ..⟩
  have hpq : p ≠ q := fun h => by simp [h, hown] at hp
  exact ⟨by simpa [hpq] using hp, Function.update_of_ne hpq _ _⟩

/-- `push` stores `mBottom`: its task is in the queue. -/
theorem commit_spec (hG : Shape g s) (hroom : Room g s) (hfew : s.pushed.length + 1 < 2 ^ 63)
    (hown : Owns g s o q task) (hcell : s.cell s.mTasks g.bottom = some q) :
    ∃ g', Effect o o g g' s
      { s with mBottom := (g.bottom : ℤ) + 1, pushed := s.pushed ++ [task] } .skip ∧
        g'.held = g.held ∧ g'.bottom = g.bottom + 1 := by
  have hitems := hown.notMem hG
  have hother : ∀ p ∈ g.items, p ≠ q := fun p hp h => hitems (h ▸ hp)
  obtain ⟨stored, hmap, hperm⟩ := hG.account
  have hbot : g.top + (g.items ++ [q]).length = g.bottom + 1 := by
    rw [List.length_append, ← Nat.add_assoc]
    rfl
  have hG' : Shape { g with items := g.items ++ [q], owner := Function.update g.owner q none }
      { s with mBottom := (g.bottom : ℤ) + 1, pushed := s.pushed ++ [task] } :=
    { hG with
      window := Window.snoc_iff.2 ⟨hG.window, hcell⟩
      within := by
        unfold Ghost.bottom at hbot ⊢
        simp only [hbot]
        push_cast
        omega
      capacity := by
        rw [List.length_append]
        exact hroom
      bottom := by
        have hb := hG.bottom
        unfold Ghost.bottom at hbot hb ⊢
        simp only [List.length_append, List.length_singleton]
        omega
      few := by simpa using hfew
      nodup := List.nodup_append.2 ⟨hG.nodup, by simp, fun p hp r hr =>
        List.mem_singleton.1 hr ▸ hother p hp⟩
      queued := fun p hp => by
        by_cases hpq : p = q
        · simp [hpq]
        · simpa [hpq] using hG.queued p (by simpa [hpq] using hp)
      alive := fun p hp => by
        have hpq : p ≠ q := fun h => by simp [h] at hp
        exact hG.alive p (by simpa [hpq] using hp)
      account := by
        refine ⟨stored ++ [task], by simp [hmap, hown.2], ?_⟩
        rw [← List.append_assoc]
        exact hperm.append_right _ }
  refine ⟨_, .of_skip hG' rfl rfl rfl rfl (fun _ _ _ => Iff.rfl) (fun u hu p hp => ?_) le_rfl
    (fun k hk => ⟨hk.1, fun _ => by simp⟩) fun h => absurd rfl h, rfl, hbot⟩
  have hpq : p ≠ q := fun h => by
    rw [h, hown.1] at hp
    exact hu (Option.some.inj hp).symm
  exact ⟨by simpa [hpq] using hp, rfl⟩

omit [DecidableEq τ] [DecidableEq C] [DecidableEq P] in
/-- A task leaves the window, and joins the tasks held. -/
theorem Shape.account_take (hG : Shape g s) {l₁ l₂ : List P} (hi : g.items = l₁ ++ q :: l₂) :
    ∃ task stored, s.tasks q = some task ∧ (l₁ ++ l₂).map s.tasks = stored.map some ∧
      (s.returned ++ task :: g.held.map Prod.snd ++ stored).Perm s.pushed := by
  obtain ⟨stored, hmap, hperm⟩ := hG.account
  rw [hi, List.map_append, List.map_cons] at hmap
  obtain ⟨s₁, s₂, rfl, h1, h2⟩ := List.append_eq_map_iff.1 hmap
  obtain ⟨task, s₂, rfl, h3, h4⟩ := List.map_eq_cons_iff.1 h2
  refine ⟨task, s₁ ++ s₂, h3.symm, by simp [h1, h4],
    List.Perm.trans ?_ hperm⟩
  rw [List.append_assoc, List.append_assoc]
  refine List.Perm.append_left _ (List.Perm.trans ?_ (List.perm_middle.symm.append_left _))
  exact List.perm_middle.symm

/-- Thread `t` takes a task from one end of the window. -/
theorem take_spec (hG : Shape g s) (hf : g.Free t) (l₁ l₂ : List P) (top' : ℕ)
    (hi : g.items = l₁ ++ q :: l₂) (htop : g.top ≤ top')
    (hbot : top' + (l₁ ++ l₂).length ≤ g.bottom)
    (hmB : s.mBottom ≤ (top' + (l₁ ++ l₂).length : ℕ))
    (hwin : Window (s.cell s.mTasks) top' (l₁ ++ l₂))
    (hahead : g.top = top' → l₁ ++ l₂ ≠ []) (ho : t ≠ o → top' + (l₁ ++ l₂).length = g.bottom) :
    ∃ g', Effect o t g g' s { s with mTop := top' } .skip ∧ g'.bottom = top' + (l₁ ++ l₂).length ∧
      Holds g' { s with mTop := top' } t (some q) := by
  obtain ⟨task, stored, htask, hmap, hperm⟩ := hG.account_take hi
  have hqi : q ∈ g.items := by simp [hi]
  have hq := hG.queued q hqi
  have hnd := hG.nodup
  have hlen := hG.capacity
  rw [hi, List.perm_middle.nodup_iff, List.nodup_cons] at hnd
  rw [hi, List.length_append, List.length_cons] at hlen
  have hmem : ∀ p ∈ l₁ ++ l₂, p ∈ g.items ∧ p ≠ q := fun p hp =>
    ⟨hi ▸ List.perm_middle.mem_iff.2 (List.mem_cons_of_mem _ hp), fun h => hnd.1 (h ▸ hp)⟩
  have hG' : Shape { g with
      top := top', items := l₁ ++ l₂, owner := Function.update g.owner q (some t)
      held := (t, task) :: g.held } { s with mTop := top' } :=
    { hG with
      top := rfl
      window := hwin
      within := ⟨hG.within.1, hmB⟩
      capacity := by
        rw [List.length_append]
        exact (Nat.lt_succ_self _).trans hlen
      bottom := hbot.trans hG.bottom
      nodup := hnd.2
      queued := fun p hp => by simpa [(hmem p hp).2] using hG.queued p (hmem p hp).1
      alive := fun p hp => by
        by_cases hpq : p = q
        · simp [hpq, htask]
        · exact hG.alive p (by simpa [hpq] using hp)
      keys := List.nodup_cons.2 ⟨hf, hG.keys⟩
      account := ⟨stored, hmap, hperm⟩ }
  refine ⟨_, .of_skip hG' rfl rfl rfl rfl (fun u hu x => by simp [hu]) (fun u hu p hp => ?_) htop
    (fun k hk => ⟨hk.1.trans htop, fun h => ?_⟩) fun hto =>
    ⟨rfl, rfl, rfl, rfl, ho hto, fun _ h => h, fun _ h => h, fun _ _ => rfl⟩, rfl,
    q, task, rfl, ⟨Function.update_self .., htask⟩, List.mem_cons_self⟩
  · have hpq : p ≠ q := fun h => by simp [h, hq] at hp
    exact ⟨by simpa [hpq] using hp, rfl⟩
  · exact hahead (le_antisymm htop (h.symm.le.trans hk.1))

/-- The compare-and-swap of `mTop`. -/
theorem takeFirst_spec (hG : Shape g s) (o : τ) (hf : g.Free t) (hmB : s.mBottom ≤ g.bottom)
    (hne : g.items ≠ []) :
    ∃ g', Effect o t g g' s { s with mTop := (g.top : ℤ) + 1 } .skip ∧ g'.bottom = g.bottom ∧
      Holds g' { s with mTop := (g.top : ℤ) + 1 } t (s.cell s.mTasks g.top) := by
  obtain ⟨q, rest, hi⟩ := List.exists_cons_of_ne_nil hne
  have hwin := hG.window
  rw [hi, Window.cons_iff] at hwin
  have hbot : g.top + 1 + rest.length = g.bottom := by
    unfold Ghost.bottom
    rw [hi, List.length_cons]
    omega
  obtain ⟨g', hE, hb, hh⟩ := take_spec (o := o) hG hf [] rest (g.top + 1) hi
    (Nat.le_succ _) hbot.le (by rwa [List.nil_append, hbot]) hwin.2
    (fun h => absurd h (Nat.succ_ne_self _).symm) fun _ => hbot
  exact ⟨g', hE, hb.trans hbot, hwin.1 ▸ hh⟩

/-- The load of `mTop` by a `pop` that sees more than one task. -/
theorem takeLast_spec (hG : Shape g s) (hf : g.Free o) (hk : g.bottom = k + 1) (ht : g.top < k)
    (hmB : s.mBottom = k) :
    ∃ g', Effect o o g g' s s .skip ∧ g'.bottom = k ∧ Holds g' s o (s.cell s.mTasks k) := by
  have hlen : g.top + g.items.length = k + 1 := hk
  have hne : g.items ≠ [] := fun h => by
    rw [h, List.length_nil] at hlen
    omega
  obtain ⟨l, q, hi⟩ : ∃ l q, g.items = l ++ [q] := ⟨_, _, (List.dropLast_concat_getLast hne).symm⟩
  have hwin := hG.window
  rw [hi, Window.snoc_iff] at hwin
  have hbot : g.top + l.length = k := by
    rw [hi, List.length_append, List.length_singleton] at hlen
    omega
  have hl : l ≠ [] := fun h => by
    rw [h, List.length_nil] at hbot
    omega
  have htop : s.mTop = g.top := hG.top
  obtain ⟨g', hE, hb, hh⟩ := take_spec (o := o) hG hf l [] g.top hi le_rfl
    (by rw [List.append_nil, hbot]; omega) (by rw [List.append_nil, hbot]; exact hmB.le)
    (by rw [List.append_nil]; exact hwin.1) (fun _ => by simpa using hl) (fun h => absurd rfl h)
  rw [← htop] at hE hh
  rw [List.append_nil, hbot] at hb
  rw [hbot] at hwin
  exact ⟨g', hE, hb, hwin.2 ▸ hh⟩

/-- The task is moved out and its pointer deleted. -/
theorem freeTask_spec (hG : Shape g s) (o : τ) (hown : Owns g s t q task) :
    ∃ g', Effect o t g g' s (s.freeTask q) .skip ∧ g' = { g with owner := g'.owner } := by
  have hitems := hown.notMem hG
  obtain ⟨stored, hmap, hperm⟩ := hG.account
  have hG' : Shape { g with owner := Function.update g.owner q none } (s.freeTask q) :=
    { hG with
      queued := fun p hp => by
        have hpq : p ≠ q := fun h => hitems (h ▸ hp)
        simpa [hpq] using hG.queued p hp
      alive := fun p hp => by
        have hpq : p ≠ q := fun h => by simp [h] at hp
        simpa [Shared.freeTask, hpq] using hG.alive p (by simpa [hpq] using hp)
      account := ⟨stored, (map_tasks_update hitems _ _).trans hmap, hperm⟩ }
  refine ⟨_, .of_skip hG' rfl rfl rfl rfl (fun _ _ _ => Iff.rfl) (fun u hu p hp => ?_) le_rfl
    (fun _ h => h) fun _ =>
      ⟨rfl, rfl, rfl, rfl, rfl, fun _ h => h, fun _ h => h, fun _ _ => rfl⟩, rfl⟩
  have hpq : p ≠ q := fun h => by
    rw [h, hown.1] at hp
    exact hu (Option.some.inj hp).symm
  exact ⟨by simpa [hpq] using hp, Function.update_of_ne hpq _ _⟩

omit [DecidableEq P] in
/-- A call returns a task. -/
theorem return_spec (hG : Shape g s) (o : τ) (hh : (t, task) ∈ g.held) :
    ∃ g', Effect o t g g' s { s with returned := s.returned ++ [task] } .skip ∧
      g' = { g with held := g'.held } ∧ g'.Free t := by
  obtain ⟨h₁, h₂, hheld⟩ := List.append_of_mem hh
  have hperm : g.held.Perm ((t, task) :: (h₁ ++ h₂)) := hheld ▸ List.perm_middle
  have hkeys := (hperm.map Prod.fst).nodup_iff.1 hG.keys
  rw [List.map_cons, List.nodup_cons] at hkeys
  obtain ⟨stored, hmap, haccount⟩ := hG.account
  have hG' : Shape { g with held := h₁ ++ h₂ } { s with returned := s.returned ++ [task] } :=
    { hG with
      keys := hkeys.2
      account := by
        refine ⟨stored, hmap, List.Perm.trans ?_ haccount⟩
        refine List.Perm.append_right _ ?_
        rw [List.append_assoc, List.singleton_append]
        exact List.Perm.append_left _ (hperm.map Prod.snd).symm }
  refine ⟨_, .of_skip hG' rfl rfl rfl rfl (fun u hu x => ?_) (fun _ _ _ h => ⟨h, rfl⟩) le_rfl
    (fun _ h => h) fun _ =>
      ⟨rfl, rfl, rfl, rfl, rfl, fun _ h => h, fun _ h => h, fun _ _ => rfl⟩, rfl, hkeys.1⟩
  rw [hperm.mem_iff, List.mem_cons]
  simp [hu]

end Tasks

end LockFreeLocalWorkQueue

end ConcurrencySandbox

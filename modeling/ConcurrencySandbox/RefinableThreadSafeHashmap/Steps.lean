import ConcurrencySandbox.RefinableThreadSafeHashmap.Sections

/-!
# What the steps of the hash map do

One lemma for each change of the shared state. The second step of a critical section is the call
itself, on the map the buckets stand for; none of the others changes that map.
-/

namespace ConcurrencySandbox

open Interleaving Structures HazardPointer

namespace RefinableThreadSafeHashmap

variable {τ L K V : Type*} [DecidableEq τ] [DecidableEq L] [DecidableEq K] {mHasher : K → ℕ}
  {g : Ghost τ L} {s : Shared τ L K V} {t u : τ} {a b : L} {i j : ℕ}

/-- A step that changes neither the mutexes nor the buckets. -/
theorem Effect.of_same {g' : Ghost τ L} {s' : Shared τ L K V} {e : Hazards.Event (τ × ℕ) L}
    (hG' : Shape mHasher g' s') (hlocks : s'.locks = s.locks) (hmLocks : s'.mLocks = s.mLocks)
    (hb : s'.mBuckets = s.mBuckets) (hr : g'.rehash = g.rehash) (hp : g'.passed = g.passed)
    (hazards : g'.hazards = g.hazards.apply e) (enabled : g.hazards.Enabled e)
    (store : ∀ x v, e = .store x v → x.1 = t)
    (published : ∀ b ∈ g.published, e ≠ .free b → b ∈ g'.published)
    (own : ∀ u, u ≠ t → ∀ b, g.owner b = some u →
      g'.owner b = some u ∧ (b ∈ g'.published ↔ b ∈ g.published)) :
    Effect mHasher t g g' s s' e where
  shape := hG'
  hazards := hazards
  enabled := enabled
  store := store
  holds u _ b _ j h := by rwa [Holds, hlocks]
  size b _ := by rw [hlocks]
  published := published
  own u hu b h := ⟨(own u hu b h).1, fun _ => congrFun hlocks b, (own u hu b h).2⟩
  locks := .inl hmLocks
  critical u _ j _ h := ⟨hmLocks, hp.symm ▸ h, congrArg _ hb, by rw [hb]⟩
  rehash u _ h := ⟨hr.trans h, hp, hmLocks, congrArg _ hb, fun _ => hb⟩

/-- A step that leaves the hazard pointers and the published arrays alone. -/
theorem Effect.of_skip {g' : Ghost τ L} {s' : Shared τ L K V} (hG' : Shape mHasher g' s')
    (hh : g'.hazards = g.hazards) (hpub : g'.published = g.published)
    (hmLocks : s'.mLocks = s.mLocks)
    (holds : ∀ u, u ≠ t → ∀ b ∈ g.published, ∀ j, Holds s u b j → Holds s' u b j)
    (size : ∀ b ∈ g.published, (s'.locks b).length = (s.locks b).length)
    (own : ∀ u, u ≠ t → ∀ b, g.owner b = some u →
      g'.owner b = some u ∧ (b ∉ g.published → s'.locks b = s.locks b))
    (critical : ∀ u, u ≠ t → ∀ j, Holds s u s.mLocks j → g.passed ≤ j →
      g'.passed ≤ j ∧ s'.mBuckets.length = s.mBuckets.length ∧ s'.mBuckets[j]? = s.mBuckets[j]?)
    (rehash : ∀ u, u ≠ t → g.rehash = some u → g'.rehash = some u ∧ g'.passed = g.passed ∧
      s'.mBuckets.length = s.mBuckets.length ∧
        ((s.locks s.mLocks).length ≤ g.passed → s'.mBuckets = s.mBuckets)) :
    Effect mHasher t g g' s s' .skip where
  shape := hG'
  hazards := hh
  enabled := trivial
  store := nofun
  holds := holds
  size := size
  published b hb _ := hpub ▸ hb
  own u hu b h := ⟨(own u hu b h).1, (own u hu b h).2, by rw [hpub]⟩
  locks := .inl hmLocks
  critical u hu j h hj := ⟨hmLocks, critical u hu j h hj⟩
  rehash u hu h := by
    obtain ⟨h1, h2, h3⟩ := rehash u hu h
    exact ⟨h1, h2, hmLocks, h3⟩

/-- A step that changes no mutex. -/
theorem Effect.of_locks {g' : Ghost τ L} {s' : Shared τ L K V} (hG' : Shape mHasher g' s')
    (hh : g'.hazards = g.hazards) (hpub : g'.published = g.published) (ho : g'.owner = g.owner)
    (hlocks : s'.locks = s.locks) (hmLocks : s'.mLocks = s.mLocks)
    (critical : ∀ u, u ≠ t → ∀ j, Holds s u s.mLocks j → g.passed ≤ j →
      g'.passed ≤ j ∧ s'.mBuckets.length = s.mBuckets.length ∧ s'.mBuckets[j]? = s.mBuckets[j]?)
    (rehash : ∀ u, u ≠ t → g.rehash = some u → g'.rehash = some u ∧ g'.passed = g.passed ∧
      s'.mBuckets.length = s.mBuckets.length ∧
        ((s.locks s.mLocks).length ≤ g.passed → s'.mBuckets = s.mBuckets)) :
    Effect mHasher t g g' s s' .skip := by
  refine .of_skip hG' hh hpub hmLocks (fun u _ b _ j h => ?_) (fun b _ => by rw [hlocks])
    (fun u _ b h => ⟨ho ▸ h, fun _ => congrFun hlocks b⟩) critical rehash
  rwa [Holds, hlocks]

theorem quiet_spec (hG : Shape mHasher g s) (t : τ) (d : Domain τ L) (n : UInt64) :
    Effect mHasher t g g s { s with domain := d, mSize := n } .skip := by
  have hG' : Shape mHasher g { s with domain := d, mSize := n } := { hG with }
  exact .of_same hG' rfl rfl rfl rfl rfl rfl trivial nofun (fun _ h _ => h)
    fun _ _ _ h => ⟨h, Iff.rfl⟩

/-- A step that changes the slots of thread `t` only. -/
theorem store_spec (hG : Shape mHasher g s) (t : τ) (i : ℕ) (v : Option L) {d : Domain τ L} :
    Effect mHasher t g { g with hazards := g.hazards.apply (.store (t, i) v) } s
      { s with domain := d } (.store (t, i) v) := by
  have hG' : Shape mHasher { g with hazards := g.hazards.apply (.store (t, i) v) }
      { s with domain := d } := { hG with }
  refine .of_same hG' rfl rfl rfl rfl rfl rfl trivial (fun x w h => ?_) (fun _ h _ => h)
    fun _ _ _ h => ⟨h, Iff.rfl⟩
  cases h
  rfl

/-- The old array of a rehash is retired. -/
theorem retire_spec (hG : Shape mHasher g s) (ho : g.owner a = some t) (ha : a ∈ g.published)
    {d : Domain τ L} :
    Effect mHasher t g { g with hazards := g.hazards.apply (.retire a)
                                owner := Function.update g.owner a none } s { s with domain := d }
      (.retire a) := by
  have hr : a ∉ g.hazards.retired := fun h => by simpa [ho] using (hG.retired a h).2
  have hcur : s.mLocks ≠ a := fun h => by simpa [h, ho] using hG.current.2.2
  have hG' : Shape mHasher { g with hazards := g.hazards.apply (.retire a)
                                    owner := Function.update g.owner a none }
      { s with domain := d } := { hG with current := ?_, retired := ?_, allocated := ?_ }
  · refine .of_same hG' rfl rfl rfl rfl rfl rfl hr nofun (fun _ h _ => h) fun u hu b hb => ?_
    have hba : b ≠ a := fun h => hu (Option.some.inj ((h ▸ hb).symm.trans ho))
    exact ⟨(Function.update_of_ne hba _ _).trans hb, Iff.rfl⟩
  · refine ⟨hG.current.1, fun h => h.elim hcur hG.current.2.1, ?_⟩
    exact (Function.update_of_ne hcur _ _).trans hG.current.2.2
  · rintro b (rfl | hb)
    · exact ⟨ha, Function.update_self ..⟩
    · have hba : b ≠ a := fun h => hr (h ▸ hb)
      obtain ⟨h1, h2⟩ := hG.retired b hb
      exact ⟨h1, (Function.update_of_ne hba _ _).trans h2⟩
  · intro b hb
    by_cases hba : b = a
    · exact hba ▸ hG.allocated a (.inl ha)
    · exact hG.allocated b (by simpa [hba] using hb)

/-- A deleter runs. -/
theorem free_spec (hG : Shape mHasher g s) (t : τ) {d : Domain τ L}
    (he : g.hazards.Enabled (.free a)) :
    ∃ g', Effect mHasher t g g' s ({ s with domain := d }.free a) (.free a) := by
  obtain ⟨ha, ho⟩ := hG.retired a he.1
  have hcur : s.mLocks ≠ a := fun h => hG.current.2.1 (h ▸ he.1)
  have hG' : Shape mHasher
      { g with hazards := g.hazards.apply (.free a), published := g.published \ {a} }
      ({ s with domain := d }.free a) := { hG with current := ?_, retired := ?_, allocated := ?_ }
  · refine ⟨_, .of_same hG' rfl rfl rfl rfl rfl rfl he nofun (fun b hb hne => ?_)
      fun u _ b hb => ⟨hb, ?_⟩⟩
    · exact ⟨hb, fun h => hne (congrArg _ (Eq.symm h))⟩
    · have hba : b ≠ a := by
        rintro rfl
        simp [ho] at hb
      exact ⟨fun h => h.1, fun h => ⟨h, hba⟩⟩
  · exact ⟨⟨hG.current.1, hcur⟩, fun h => hG.current.2.1 h.1, hG.current.2.2⟩
  · exact fun b hb => ⟨⟨(hG.retired b hb.1).1, hb.2⟩, (hG.retired b hb.1).2⟩
  · intro b hb
    have hba : b ≠ a := by
      rintro rfl
      exact hb.elim (fun h => h.2 rfl) fun h => h ho
    exact (Function.update_of_ne hba _ _).trans (hG.allocated b (hb.imp (·.1) id))

section Locks

omit [DecidableEq τ] [DecidableEq K] in
theorem holds_setLock {x : Option τ} (h : Holds s u b j) (hne : ¬ Holds s u a i) :
    Holds (s.setLock a i x) u b j := by
  unfold Holds Shared.setLock at *
  by_cases hb : b = a
  · subst hb
    have hij : i ≠ j := fun e => hne (e ▸ h)
    simpa [hij] using h
  · simpa [hb] using h

omit [DecidableEq τ] [DecidableEq K] in
theorem length_setLock (s : Shared τ L K V) (a b : L) (i : ℕ) (x : Option τ) :
    ((s.setLock a i x).locks b).length = (s.locks b).length := by
  unfold Shared.setLock
  by_cases hb : b = a
  · subst hb
    simp
  · simp [hb]

/-- A mutex nobody else holds changes hands; a rehash may have passed it. -/
theorem setLock_spec (hG : Shape mHasher g s) (t : τ) (ha : a ∈ g.published)
    (hi : ∀ u, u ≠ t → ¬ Holds s u a i) (x : Option τ) (p : ℕ)
    (hp : p = g.passed ∨ g.rehash = some t ∧ a = s.mLocks ∧ i = g.passed ∧ p = i + 1) :
    Effect mHasher t g { g with passed := p } s (s.setLock a i x) .skip := by
  have hlen := length_setLock s
  have hG' : Shape mHasher { g with passed := p } (s.setLock a i x) :=
    { hG with quiet := fun h => ?_, length := fun h => ?_ }
  · refine .of_skip hG' rfl rfl rfl (fun u hu b _ j h => holds_setLock h (hi u hu))
      (fun b _ => hlen a b i x) (fun u _ b hb => ⟨hb, fun hn => ?_⟩)
      (fun u hu j h hj => ⟨?_, rfl, rfl⟩) fun u hu h => ⟨h, ?_, rfl, fun _ => rfl⟩
    · have hba : b ≠ a := fun h => hn (h ▸ ha)
      exact Function.update_of_ne hba _ _
    · rcases hp with rfl | ⟨-, rfl, rfl, rfl⟩
      · exact hj
      · exact lt_of_le_of_ne hj fun e => hi u hu (e ▸ h)
    · rcases hp with hp | ⟨h1, -⟩
      · exact hp
      · exact absurd (Option.some.inj (h.symm.trans h1)) hu
  · rcases hp with rfl | ⟨h1, -⟩
    · exact hG.quiet h
    · cases h1.symm.trans h
  · rw [hlen] at h ⊢
    refine hG.length (lt_of_le_of_lt ?_ h)
    rcases hp with rfl | ⟨-, -, rfl, rfl⟩
    · exact le_rfl
    · exact Nat.le_succ _

end Locks

section Rehash

/-- `mRehash.exchange(true)` finds false. -/
theorem flag_spec (hG : Shape mHasher g s) (t : τ) (hr : s.mRehash = false) :
    Effect mHasher t g { g with rehash := some t } s { s with mRehash := true } .skip ∧
      g.passed = 0 := by
  have hn : g.rehash = none := by simpa [hr] using hG.flag.symm
  have hG' : Shape mHasher { g with rehash := some t } { s with mRehash := true } :=
    { hG with flag := rfl, quiet := nofun }
  refine ⟨.of_locks hG' rfl rfl rfl rfl rfl (fun _ _ _ _ h => ⟨h, rfl, rfl⟩) fun u _ h => ?_,
    hG.quiet hn⟩
  cases hn.symm.trans h

/-- `mRehash.store(false)`. -/
theorem unflag_spec (hG : Shape mHasher g s) (hr : g.rehash = some t) (hp : g.passed = 0) :
    Effect mHasher t g { g with rehash := none } s { s with mRehash := false } .skip := by
  have hG' : Shape mHasher { g with rehash := none } { s with mRehash := false } :=
    { hG with flag := rfl, quiet := fun _ => hp }
  exact .of_locks hG' rfl rfl rfl rfl rfl (fun _ _ _ _ h => ⟨h, rfl, rfl⟩)
    fun u hu h => absurd (Option.some.inj (h.symm.trans hr)) hu

/-- `swap(mBuckets, newBucket)`. -/
theorem swap_spec (hG : Shape mHasher g s) (hA : Alone g s t a) {bs : List (List (K × V))}
    (hT : Table mHasher bs) (hm : ∀ x, x ∈ bs.flatten ↔ x ∈ s.mBuckets.flatten) :
    Effect mHasher t g g s { s with mBuckets := bs } .skip := by
  obtain ⟨hr, -, hlen⟩ := hA
  have hG' : Shape mHasher g { s with mBuckets := bs } :=
    { hG with
      length := fun h => absurd h (Nat.not_lt.2 hlen)
      table := hT
      explained := by
        show Explained s.history (Table.get mHasher bs)
        rw [hG.table.ext hT hm]
        exact hG.explained }
  refine .of_locks hG' rfl rfl rfl rfl rfl (fun u _ i h hi => ?_)
    fun u hu h => absurd (Option.some.inj (h.symm.trans hr)) hu
  have hlt := (List.getElem?_eq_some_iff.1 h).1
  omega

/-- `new std::vector<std::mutex>(n)`. -/
theorem make_spec (hG : Shape mHasher g s) (t : τ) (ha : ¬ s.allocated a = true) (n : ℕ) :
    Effect mHasher t g { g with owner := Function.update g.owner a (some t) } s (s.make a n) .skip ∧
      a ∉ g.published ∧ (s.make a n).locks a = List.replicate n none ∧ a ≠ s.mLocks := by
  have hn : a ∉ g.published := fun h => ha (hG.allocated a (.inl h))
  have hpub : ∀ b ∈ g.published, b ≠ a := fun b hb h => hn (h ▸ hb)
  have hlocks : ∀ b, b ≠ a → (s.make a n).locks b = s.locks b := fun b hb =>
    Function.update_of_ne hb _ _
  have hcur := hpub _ hG.current.1
  refine ⟨?_, hn, Function.update_self .., hcur.symm⟩
  have hG' : Shape mHasher { g with owner := Function.update g.owner a (some t) } (s.make a n) :=
    { hG with current := ?_, retired := ?_, allocated := ?_, length := ?_ }
  · refine .of_skip hG' rfl rfl rfl (fun u _ b hb j h => ?_)
      (fun b hb => congrArg List.length (hlocks b (hpub b hb))) (fun u _ b hb => ?_)
      (fun _ _ _ _ h => ⟨h, rfl, rfl⟩) fun u _ h => ⟨h, rfl, rfl, fun _ => rfl⟩
    · unfold Holds
      rw [hlocks b (hpub b hb)]
      exact h
    · have hba : b ≠ a := by
        rintro rfl
        exact ha (hG.allocated b (.inr (by simp [hb])))
      exact ⟨(Function.update_of_ne hba _ _).trans hb, fun _ => hlocks b hba⟩
  · refine ⟨hG.current.1, hG.current.2.1, ?_⟩
    exact (Function.update_of_ne hcur _ _).trans hG.current.2.2
  · intro b hb
    obtain ⟨h1, h2⟩ := hG.retired b hb
    exact ⟨h1, (Function.update_of_ne (hpub b h1) _ _).trans h2⟩
  · intro b hb
    by_cases hba : b = a
    · simp [Shared.make, hba]
    · exact (Function.update_of_ne hba _ _).trans (hG.allocated b (by simpa [hba] using hb))
  · show g.passed < ((s.make a n).locks s.mLocks).length →
      ((s.make a n).locks s.mLocks).length = s.mBuckets.length
    rw [hlocks _ hcur]
    exact hG.length

/-- `mLocks.exchange(newLocks)`. -/
theorem locks_spec (hG : Shape mHasher g s) (hA : Alone g s t a) (hb : g.owner b = some t)
    (hn : b ∉ g.published) (hl : s.locks b = List.replicate s.mBuckets.length none) :
    ∃ g', Effect mHasher t g g' s { s with mLocks := b } .skip ∧
      (g'.rehash = some t ∧ g'.passed = 0) ∧ g'.owner a = some t ∧ a ∈ g'.published := by
  obtain ⟨hr, rfl, hlen⟩ := hA
  have hab : s.mLocks ≠ b := fun h => hn (h ▸ hG.current.1)
  have hbr : b ∉ g.hazards.retired := fun h => hn (hG.retired b h).1
  refine ⟨{ g with
    published := insert b g.published, passed := 0
    owner := Function.update (Function.update g.owner b none) s.mLocks (some t) }, ?_, ⟨hr, rfl⟩,
    Function.update_self .., .inr hG.current.1⟩
  refine
    { shape := { hG with current := ?_, retired := ?_, allocated := ?_, quiet := ?_, length := ?_ }
      hazards := rfl
      enabled := trivial
      store := nofun
      holds := fun _ _ _ _ _ h => h
      size := fun _ _ => rfl
      published := fun c hc _ => .inr hc
      own := fun u hu c hc => ?_
      locks := .inr hn
      critical := fun u _ i h hi => ?_
      rehash := fun u hu h => absurd (Option.some.inj (h.symm.trans hr)) hu }
  · refine ⟨.inl rfl, hbr, ?_⟩
    exact (Function.update_of_ne hab.symm _ _).trans (Function.update_self ..)
  · intro c hc
    obtain ⟨h1, h2⟩ := hG.retired c hc
    have hcb : c ≠ b := fun h => hn (h ▸ h1)
    have hca : c ≠ s.mLocks := fun h => hG.current.2.1 (h ▸ hc)
    exact ⟨.inr h1, ((Function.update_of_ne hca _ _).trans (Function.update_of_ne hcb _ _)).trans
      h2⟩
  · intro c hc
    by_cases hcb : c = b
    · exact hG.allocated c (.inr (by simp [hcb, hb]))
    · by_cases hca : c = s.mLocks
      · exact hca ▸ hG.allocated _ (.inl hG.current.1)
      · exact hG.allocated c (by simpa [hcb, hca] using hc)
  · exact fun _ => rfl
  · intro _
    show (s.locks b).length = _
    rw [hl, List.length_replicate]
  · have hcb : c ≠ b := fun h => hu (Option.some.inj ((h ▸ hc).symm.trans hb))
    have hca : c ≠ s.mLocks := fun h => by simp [h, hG.current.2.2] at hc
    refine ⟨?_, fun _ => rfl, or_iff_right hcb⟩
    exact ((Function.update_of_ne hca _ _).trans (Function.update_of_ne hcb _ _)).trans hc
  · have hlt := (List.getElem?_eq_some_iff.1 h).1
    omega

end Rehash

section Calls

variable {op : Op K V} {ans : Option V}

omit [DecidableEq τ] [DecidableEq L] in
/-- In a critical section there are as many buckets as mutexes. -/
theorem Shape.section_length (hG : Shape mHasher g s) (hC : Critical g s t a i) :
    (s.locks a).length = s.mBuckets.length ∧ i < s.mBuckets.length := by
  obtain ⟨rfl, h, hi⟩ := hC
  have hlt := (List.getElem?_eq_some_iff.1 h).1
  have hlen := hG.length (lt_of_le_of_lt hi hlt)
  exact ⟨hlen, hlen ▸ hlt⟩

omit [DecidableEq τ] [DecidableEq L] in
theorem Shape.bucket (hG : Shape mHasher g s) (hC : Critical g s t a i) :
    s.mBuckets[i]? = some (s.mBuckets.getD i []) := by
  have hlt := (hG.section_length hC).2
  rw [List.getD_eq_getElem?_getD, List.getElem?_eq_getElem hlt, Option.getD_some]

/-- A critical section changes its bucket, as the call changes the map. -/
theorem section_spec (hG : Shape mHasher g s) (hC : Critical g s t a i)
    {bs : List (List (K × V))} (hP : Performs mHasher op i s.mBuckets ans bs) :
    Effect mHasher t g g s ({ s with mBuckets := bs }.log op ans) .skip := by
  have hlt := hG.section_length hC
  obtain ⟨rfl, hh, hi⟩ := hC
  have hex := hG.explained.snoc op
  rw [hP.spec] at hex
  have hG' : Shape mHasher g ({ s with mBuckets := bs }.log op ans) :=
    { hG with
      length := fun h => (hG.length h).trans hP.length.symm, table := hP.table, explained := hex }
  refine .of_locks hG' rfl rfl rfl rfl rfl
    (fun u hu j h hj => ⟨hj, hP.length, hP.other j fun e => ?_⟩)
    fun u _ h => ⟨h, rfl, hP.length, fun hp => ?_⟩
  · cases (e ▸ hh).symm.trans h
    exact hu rfl
  · omega

end Calls

end RefinableThreadSafeHashmap

end ConcurrencySandbox

import ConcurrencySandbox.HazardPointerList.Refinement

/-!
# What the list of nodes protects

Every run at the nodes has a run of `HazardPointer.system` beside it (`simulation`), so what a claim
guards there is guarded here: no `append` loses a node of another one, a node never leaves the list,
and what `claimPointer` returned is not freed while the node of its slot holds it (`node_domain`).
-/

namespace ConcurrencySandbox

open Interleaving Structures HazardPointer

namespace HazardPointerList

variable {τ L B A : Type*}

/-- What the node of slot `i` of thread `t` holds. -/
def Shared.slot (s : Shared τ L B A) (t : τ) (i : ℕ) : Option A := (s.owner (t, i)).bind s.mPointer

/-- The constructors of the thread's `HazardPointerOwner`s have returned, and it has not begun to
exit. -/
def Constructed : PC L B A → Prop
  | .domain .unstarted | .domain (.owner _) | .domain (.appendNext ..) | .domain (.appendSize ..)
  | .domain (.appendCas ..) | .domain (.exitOwner ..) | .domain (.exitList _)
  | .domain .exited => False
  | _ => True

variable {N : ℕ} {q : List B} {s : Shared τ L B A} {S : HazardPointer.Shared τ L A} {t : τ}
  {p : PC L B A} {P : HazardPointer.PC τ L A} {c c₁ : Conf τ (Shared τ L B A) (PC L B A)}
  {c' : Conf τ (HazardPointer.Shared τ L A) (HazardPointer.PC τ L A)}

theorem Matches.slot (hm : Matches q s S) (t : τ) (i : ℕ) :
    S.domain.mPointer (t, i) = s.slot t i := by
  unfold Shared.slot
  cases h : s.owner (t, i) with
  | none => exact hm.unmade _ h
  | some b => exact hm.pointer _ b h

/-- A thread that has its slots has them in both systems. -/
theorem PlacedAt.registered (hp : PlacedAt N q s t p P) (hc : Constructed p) :
    HazardPointer.registered N (frameOf P) = N := by
  cases p with
  | domain f =>
    obtain ⟨F, rfl, hf⟩ := hp
    cases f with
    | getPointers | getNext =>
      obtain ⟨rest, rfl, -⟩ := hf
      rfl
    | ready | retireTest | loadGlobal | resetGlobal | reserve | loadHead | filter =>
      obtain rfl : F = _ := hf
      rfl
    | _ => exact hc.elim
  | _ =>
    obtain rfl : P = _ := hp
    rfl

section Simulates

variable [DecidableEq τ] [DecidableEq L] [DecidableEq B] [DecidableEq A] {l : τ × Act L B A}

theorem refined_init (hc : (system (τ := τ) (L := L) (B := B) (A := A) N).init c) :
    ∃ c', (HazardPointer.system N).init c' ∧ RefinedAt N [] c c' := by
  obtain ⟨s, f⟩ := c
  obtain ⟨hi, rfl⟩ := hc
  change Initial s at hi
  have howner : ∀ x, s.owner x = none := fun x => congrFun hi.owner x
  have hnot : ∀ {P : Prop} x b, s.owner x = some b → P := fun x b h => by
    rw [howner x] at h
    cases h
  refine ⟨⟨⟨.initial, s.location, s.life⟩, fun _ => .domain .unstarted⟩,
    ⟨⟨rfl, hi.life, hi.location⟩, rfl⟩, ?_, fun t => ⟨_, rfl, rfl, fun k => howner (t, k)⟩⟩
  exact {
    location := rfl
    life := rfl
    mSize := hi.mSize.symm
    globalDeleteList := hi.globalDeleteList.symm
    localDeleteList := hi.localDeleteList.symm
    chain := hi.mHead
    slots := rfl
    pointer := fun x b hx => hnot x b hx
    unmade := fun _ _ => rfl
    inj := fun x _ b hx _ => hnot x b hx
    allocated := fun x b hx => hnot x b hx }

/-- A step at the nodes is a step of the domain of slots, or none, and the list grows. -/
theorem refined_step (hR : RefinedAt N q c c')
    (hr : (HazardPointer.system N).Reach HazardPointer.Disciplined c') (hC : Disciplined c l)
    (hs : (system N).step c l = some c₁) :
    ∃ q', Grows q c.shared q' c₁.shared l.1 ∧
      (HazardPointer.system N).Matched HazardPointer.Disciplined (RefinedAt N q') c₁ c' := by
  obtain ⟨t, act⟩ := l
  obtain ⟨s', p', hn, rfl⟩ := Program.step_eq_some.1 hs
  obtain ⟨h, hK, hP⟩ := held_reach hr
  have hclaim : ∀ l i v, c.pc t = .claimStore l i v → i < N := fun l i v he => by
    have h1 := hR.pc t
    have h2 := hP t
    rw [he] at h1
    rw [show c'.pc t = .claimStore l i v from h1] at h2
    exact h2
  obtain ⟨q', hg, hfollow⟩ := next_follows hR.shared (hR.pc t) (hK.refines.started t) hclaim hC hn
  have hother : ∀ u, u ≠ t → PlacedAt N q' s' u (c.pc u) (c'.pc u) :=
    fun u hu => (hR.pc u).grows hg hu
  refine ⟨q', hg, ?_⟩
  rcases hfollow with ⟨hm, hp⟩ | ⟨act', S', P', hD, hN, hm, hp⟩
  · exact .stutter ⟨hm, Program.forall_update
      (L := fun u p => PlacedAt N q' s' u p (c'.pc u)) hp hother⟩
  · refine .step (b := (t, act')) (hD c'.pc) (Program.step_eq_some.2 ⟨S', P', hN, rfl⟩)
      ⟨hm, fun u => ?_⟩
    by_cases hu : u = t
    · subst hu
      simpa using hp
    · simpa [hu] using hother u hu

theorem simulation : (system N).Simulation (Disciplined (τ := τ) (L := L) (B := B) (A := A))
    (HazardPointer.system N) HazardPointer.Disciplined fun c c' => ∃ q, RefinedAt N q c c' where
  init c hc := by
    obtain ⟨c', h1, h2⟩ := refined_init hc
    exact ⟨c', h1, [], h2⟩
  step c l c₁ c' hR hr hC hs := by
    obtain ⟨q, hR⟩ := hR
    obtain ⟨q', -, h⟩ := refined_step hR hr hC hs
    rcases h with h | ⟨h1, h2, h3⟩
    · exact .stutter ⟨q', h⟩
    · exact .step h1 h2 ⟨q', h3⟩

/-! ### Claims -/

/-- The slot guards `a`, whose deleter has not run. -/
def Safe (h : Hazards (τ × ℕ) A) (S : HazardPointer.Shared τ L A) (t : τ) (i : ℕ) (a : A) : Prop :=
  h.Guarded (t, i) a ∧ S.life a ≠ .free

variable {h : Hazards (τ × ℕ) A} {S' : HazardPointer.Shared τ L A} {P' : HazardPointer.PC τ L A}
  {act : HazardPointer.Act L A} {a : A} {i : ℕ} {c₁' : Conf τ (HazardPointer.Shared τ L A)
    (HazardPointer.PC τ L A)} {l' : τ × HazardPointer.Act L A}

/-- Only a deleter makes an address free. -/
theorem next_life (hn : HazardPointer.next N t act S P = some (S', P')) (ha : S.life a ≠ .free)
    (he : HazardPointer.event N t act S P ≠ .free a) : S'.life a ≠ .free := by
  have hset : ∀ b x, (b = a → x ≠ .free) → (S.setLife b x).life a ≠ .free := fun b x hx => by
    by_cases hb : a = b
    · subst hb
      simpa [HazardPointer.Shared.setLife] using hx rfl
    · simpa [HazardPointer.Shared.setLife, hb] using ha
  revert hn
  fun_cases HazardPointer.next N t act S P <;> intro hn <;> cases hn
  case case5 b => exact hset b .live fun _ => by decide
  case case7 b => exact hset b .retired fun _ => by decide
  case case10 f ok d f' b hstep =>
    refine hset b .free fun hb => ?_
    rw [event_domain, hstep] at he
    exact absurd (congrArg Hazards.Event.free hb) he
  all_goals exact ha

theorem next_claimed (hn : HazardPointer.next N t act S P = some (S', .claimed i (some a))) :
    S' = S ∧ ∃ l, S.location l = some a := by
  generalize hP' : HazardPointer.PC.claimed i (some a) = P' at hn
  revert hn
  fun_cases HazardPointer.next N t act S P <;> intro hn <;> cases hn
  case case15 l i ok =>
    obtain ⟨-, hl⟩ := HazardPointer.PC.claimed.inj hP'
    exact ⟨rfl, l, hl.symm⟩
  all_goals cases hP'

theorem Safe.step (hH : HazardPointer.Held N h c') (hS : Safe h c'.shared t i a)
    (hC : HazardPointer.Disciplined c' l')
    (hs : (HazardPointer.system N).step c' l' = some c₁')
    (hv : ∀ v, stepEvent N c' l' = .store (t, i) v → v = some a) :
    Safe (h.apply (stepEvent N c' l')) c₁'.shared t i a := by
  obtain ⟨he, -⟩ := held_step hH hC hs
  obtain ⟨hg, hne⟩ := hS.1.apply he hv
  exact ⟨hg, next_life (Program.step_next hs).1 hS.2 hne⟩

/-- What `claimPointer` returned is safe. -/
theorem claimed_safe (hr : (HazardPointer.system N).Reach HazardPointer.Disciplined c') :
    ∃ h, HazardPointer.Held N h c' ∧ ∀ t i a, c'.pc t = .claimed i (some a) →
    Safe h c'.shared t i a := by
  refine hr.induct (P := fun c => ∃ h, HazardPointer.Held N h c ∧
    ∀ t i a, c.pc t = .claimed i (some a) → Safe h c.shared t i a) (fun c hc => ?_)
    fun c l c₁ hr ⟨h, hH, hS⟩ hC hs => ?_
  · obtain ⟨h, hH⟩ := held_reach (.init hc)
    obtain ⟨s, f⟩ := c
    obtain ⟨-, rfl⟩ := hc
    exact ⟨h, hH, nofun⟩
  · obtain ⟨he, hH'⟩ := held_step hH hC hs
    refine ⟨_, hH', fun t i a hpc => ?_⟩
    obtain ⟨hn, hother⟩ := Program.step_next hs
    by_cases ht : t = l.1
    · -- the location still held it
      subst ht
      have hg := hH'.2 l.1
      rw [hpc] at hg hn
      obtain ⟨hs', l', hl⟩ := next_claimed hn
      refine ⟨hg, ?_⟩
      rw [hs', hH.1.location l' a hl]
      exact nofun
    · rw [hother t ht] at hpc
      exact (hS t i a hpc).step hH hC hs
        fun v hv => absurd (event_store hv).symm (by simpa using Ne.symm ht)

/-! ### Runs -/

variable {n : ℕ}

/-- The nodes of the list, from its head. -/
structure IsList (N : ℕ) (c : Conf τ (Shared τ L B A) (PC L B A)) (q : List B) : Prop where
  chain : Seg c.shared.mNext c.shared.mHead q none
  nodup : q.Nodup
  slots : ∀ b ∈ q, ∃ x, c.shared.owner x = some b
  appended : ∀ t, Constructed (c.pc t) → ∀ i < N, ∃ b ∈ q, c.shared.owner (t, i) = some b

/-- A run of threads that start, claim, publish, retire and exit, at the nodes of the list. -/
structure IsDomain (r : (system N).Run (Disciplined (τ := τ) (L := L) (B := B) (A := A)) n) :
    Prop where
  nodes : ∃ q : ℕ → List B, (∀ i ≤ n, IsList N (r.state i) (q i)) ∧ ∀ i < n, q i <:+ q (i + 1)
  fixed : ∀ i < n, ∀ x b, (r.state i).shared.owner x = some b →
    (r.state (i + 1)).shared.owner x = some b
  claimed : ∀ k ≤ n, ∀ t i a, (r.state k).pc t = .claimed i (some a) → ∀ m, k ≤ m → m ≤ n →
    (∀ j, k ≤ j → j ≤ m → (r.state j).shared.slot t i = some a) → (r.state m).shared.life a ≠ .free

variable (r : (system N).Run (Disciplined (τ := τ) (L := L) (B := B) (A := A)) n)

omit [DecidableEq B] in
theorem RefinedAt.isList (hR : RefinedAt N q c c')
    (hr : (HazardPointer.system N).Reach HazardPointer.Disciplined c') : IsList N c q where
  chain := hR.shared.chain
  nodup := hR.shared.chain.nodup
  slots b hb := by
    obtain ⟨x, -, hx⟩ := hR.shared.mem_of_owner hb
    exact ⟨x, hx⟩
  appended t ht i hi := by
    obtain ⟨h, hK, -⟩ := held_reach hr
    have hreg := (hR.pc t).registered ht
    exact hR.shared.owner_of_mem (hK.refines.started t i (hreg.symm ▸ hi))

/-- The list at each moment, and the run of the slots. -/
theorem lists : ∃ q : ℕ → List B, ∀ i ≤ n,
    ∃ c', (HazardPointer.system N).Reach HazardPointer.Disciplined c' ∧
    RefinedAt N (q i) (r.state i) c' := by
  have h : ∀ i, ∃ q, i ≤ n → ∃ c', (HazardPointer.system N).Reach HazardPointer.Disciplined c' ∧
      RefinedAt N q (r.state i) c' := fun i => by
    by_cases hi : i ≤ n
    · obtain ⟨c', hr, q, hR⟩ := simulation.reach (r.reach hi)
      exact ⟨q, fun _ => ⟨c', hr, hR⟩⟩
    · exact ⟨[], fun h => absurd h hi⟩
  choose q hq using h
  exact ⟨q, hq⟩

/-- The claim guards its address in the run of the slots. -/
theorem claimed_run {m : ℕ} {r' : (HazardPointer.system N).Run HazardPointer.Disciplined m}
    {beside : ℕ → ℕ}
    (hstep : ∀ i < n, beside (i + 1) = beside i ∨ beside (i + 1) = beside i + 1)
    (hR : ∀ i ≤ n, beside i ≤ m ∧ ∃ q, RefinedAt N q (r.state i) (r'.state (beside i)))
    {k : ℕ} (hk : k ≤ n)
    (hpc : (r.state k).pc t = .claimed i (some a)) : ∀ j, k ≤ j → j ≤ n →
      (∀ x, k ≤ x → x ≤ j → (r.state x).shared.slot t i = some a) →
        ∃ h, HazardPointer.Held N h (r'.state (beside j)) ∧
        Safe h (r'.state (beside j)).shared t i a := by
  intro j hkj
  induction j, hkj using Nat.le_induction with
  | base =>
    intro _ _
    obtain ⟨hb, q, hq⟩ := hR k hk
    obtain ⟨h, hH, hS⟩ := claimed_safe (r'.reach hb)
    have := hq.pc t
    rw [hpc] at this
    exact ⟨h, hH, hS t i a this⟩
  | succ j hkj ih =>
    intro hj hslot
    obtain ⟨h, hH, hS⟩ := ih (by omega) fun x h1 h2 => hslot x h1 (by omega)
    obtain ⟨hb, q, hq⟩ := hR (j + 1) hj
    rcases hstep j (by omega) with he | he
    · exact ⟨h, by rwa [he], by rwa [he]⟩
    · rw [he] at hb hq ⊢
      have hst := r'.step (beside j) hb
      have hC := r'.meets (beside j) hb
      have hH' := (held_step hH hC hst).2
      refine ⟨_, hH', hS.step hH hC hst fun v hv => ?_⟩
      -- what the step put into the slot is what it holds after it
      have h1 : (h.apply (stepEvent N (r'.state (beside j)) (r'.label (beside j)))).pointer
          (t, i) = v := by
        rw [hv]
        exact Function.update_self ..
      rw [hH'.1.refines.pointer, hq.shared.slot, hslot (j + 1) (by omega) le_rfl] at h1
      exact h1.symm

/-- The domain, node by node. -/
theorem node_domain : IsDomain r where
  nodes := by
    obtain ⟨q, hq⟩ := lists r
    refine ⟨q, fun i hi => ?_, fun i hi => ?_⟩
    · obtain ⟨c', hr, hR⟩ := hq i hi
      exact hR.isList hr
    · obtain ⟨c', hr, hR⟩ := hq i hi.le
      obtain ⟨c₁', hr₁, hR₁⟩ := hq (i + 1) hi
      obtain ⟨q', hg, hM⟩ := refined_step hR hr (r.meets i hi) (r.step i hi)
      have hchain : Seg (r.state (i + 1)).shared.mNext (r.state (i + 1)).shared.mHead q' none := by
        rcases hM with h | ⟨-, -, h⟩ <;> exact h.shared.chain
      rw [hR₁.shared.chain.unique hchain]
      exact hg.suffix
  fixed i hi x b hx := by
    obtain ⟨q, hq⟩ := lists r
    obtain ⟨c', hr, hR⟩ := hq i hi.le
    obtain ⟨q', hg, -⟩ := refined_step hR hr (r.meets i hi) (r.step i hi)
    exact hg.owner x b hx
  claimed k hk t i a hpc m hkm hm hslot := by
    have : Nonempty (τ × HazardPointer.Act L A) := ⟨(t, .run true)⟩
    obtain ⟨m', r', beside, -, hstep, hR⟩ := simulation.run r
    obtain ⟨h, -, hS⟩ := claimed_run r hstep hR hk hpc m hkm hm hslot
    obtain ⟨-, q, hq⟩ := hR m hm
    rw [← hq.shared.life]
    exact hS.2

end Simulates

end HazardPointerList

end ConcurrencySandbox

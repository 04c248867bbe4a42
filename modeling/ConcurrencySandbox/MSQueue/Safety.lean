import ConcurrencySandbox.MSQueue.Shape

/-!
# mHead and mTail under memory reuse

Every step of a thread has an `Effect`, and keeps its place and its side of the hazard pointer
domain (`moves_step`). So in a run whose validations of `mHead` find the tail elsewhere, the head is
never null, never passes the tail, and only filled nodes are taken (`head_valid`). Without the
condition the head can be lost (`head_lost`).
-/

namespace ConcurrencySandbox

open Interleaving Structures HazardPointer

namespace MSQueue

variable {τ A V : Type*}

def frameOf : PC τ A V → Frame τ A
  | .domain f | .retiring f _ _ => f
  | _ => .ready

/-- The head a `tryPop` is about to validate. -/
def validating : PC τ A V → Option (Option A)
  | .popCheck _ head => some head
  | _ => none

/-- A head is validated only while `mTail` is elsewhere. -/
def TailBehind (c : Conf τ (Shared τ A V) (PC τ A V)) (l : τ × Act A V) : Prop :=
  ∀ head ∈ validating (c.pc l.1), c.shared.mHead = head → c.shared.mTail ≠ head

instance [DecidableEq A] (c : Conf τ (Shared τ A V) (PC τ A V)) (l : τ × Act A V) :
    Decidable (TailBehind c l) :=
  inferInstanceAs (Decidable (∀ head ∈ validating (c.pc l.1), _ → _))

variable {g g' : Ghost τ A} {s s' : Shared τ A V} {t u : τ} {a b : A} {p p' : PC τ A V}
  {f : τ → PC τ A V} {act : Act A V} {ok : Bool} {fr fr' : Frame τ A}

/-- Nothing is retired in the queue, so a thread that finds there what its slot holds has claimed
it. -/
theorem Shape.claimed (hG : Shape g s) (hp : g.hazards.pointer (t, 0) = some a)
    (ha : a ∈ g.queue) : Claimed g t a :=
  ⟨.inl ha, hp, fun h => absurd ((hG.retired a).1 h).1 (hG.queue a ha).2⟩

theorem Shape.tail_mem (hG : Shape g s) (ha : s.mTail = some a) : a ∈ g.queue := by
  obtain ⟨x, hx, hT⟩ := hG.tail
  exact Option.some.inj (hT.symm.trans ha) ▸ hx

theorem Shape.head_mem (hG : Shape g s) (ha : s.mHead = some a) : a ∈ g.queue := by
  have hseg := hG.seg
  rw [ha] at hseg
  exact hseg.head_mem

/-- The head has a successor unless it is the tail. -/
theorem Shape.front_links (hG : Shape g s) (ha : g.Published a) (hf : Front g s a) :
    s.links a ≠ none := by
  rcases ha with ha | ha
  · intro hl
    obtain ⟨hh, hT⟩ := hf ha
    obtain ⟨x, hx, hx'⟩ := hG.tail
    have hseg := hG.seg
    rw [hh] at hseg
    have hone : Seg s.links (some a) [a] none := ⟨rfl, hl⟩
    rw [Seg.unique hseg hone, List.mem_singleton] at hx
    exact hT (hx ▸ hx')
  · exact hG.popped a ha

variable [DecidableEq τ] [DecidableEq A] {e : Hazards.Event (τ × ℕ) A} {x : Option A}

/-- What the step theorem says of the thread that moved. -/
def Moves (g : Ghost τ A) (s : Shared τ A V) (t : τ) (f : τ → PC τ A V) (s' : Shared τ A V)
    (p' : PC τ A V) : Prop :=
  ∃ g' x e, Effect t x g g' s s' e ∧
    Refines 1 s'.domain (Function.update (frameOf ∘ f) t (frameOf p')) g'.hazards ∧
    Placed g' s' t p'

theorem domainStep_spec (hG : Shape g s) (hR : Refines 1 s.domain (frameOf ∘ f) g.hazards)
    (hf : frameOf (f t) = fr) (hs : s.domainStep t ok fr = some (s', fr')) :
    ∃ g' e, Effect t none g g' s s' e ∧
      Refines 1 s'.domain (Function.update (frameOf ∘ f) t fr') g'.hazards := by
  revert hs
  unfold Shared.domainStep
  split
  · rename_i d f' b hd
    rintro ⟨⟩
    obtain ⟨he, hR'⟩ := hR.step (hf ▸ hd)
    obtain ⟨g', hE⟩ := free_spec hG t (d := d) he
    exact ⟨g', _, hE, hE.hazards ▸ hR'⟩
  · rename_i d f' e hne hd
    rintro ⟨⟩
    obtain ⟨he, hR'⟩ := hR.step (hf ▸ hd)
    rcases step_event hd with rfl | ⟨i, rfl⟩ | ⟨b, rfl⟩
    · exact ⟨_, _, quiet_spec hG t d, hR'⟩
    · exact ⟨_, _, store_spec hG t i none, hR'⟩
    · exact absurd rfl (hne b)
  · simp

/-- A step outside the domain. -/
theorem Moves.call (hR : Refines 1 s.domain (frameOf ∘ f) g.hazards) (hf : frameOf (f t) = .ready)
    (hE : Effect t x g g' s s' .skip) (hd : s'.domain = s.domain) (hf' : frameOf p' = .ready)
    (hp : Placed g' s' t p') : Moves g s t f s' p' := by
  refine ⟨g', x, _, hE, ?_, hp⟩
  rw [hd, hf', hE.hazards]
  exact hR.move (congrArg pending hf.symm) (congrArg (registered 1) hf.symm).le trivial

/-- A step that neither reads nor changes the nodes. -/
theorem Moves.stay (hG : Shape g s) (hR : Refines 1 s.domain (frameOf ∘ f) g.hazards)
    (hf : frameOf (f t) = .ready) (hf' : frameOf p' = .ready) (hp : Placed g s t p') :
    Moves g s t f s p' :=
  .call hR hf (quiet_spec hG t s.domain) rfl hf' hp

theorem Moves.storeHp (hG : Shape g s) (hR : Refines 1 s.domain (frameOf ∘ f) g.hazards)
    (hf : frameOf (f t) = .ready) {v : Option A} (hf' : frameOf p' = .ready)
    (hp : Placed { g with hazards := g.hazards.apply (.store (t, 0) v) } (s.storeHp t v) t p') :
    Moves g s t f (s.storeHp t v) p' := by
  have hreg : registered 1 (frameOf (f t)) = 1 := by rw [hf]; rfl
  refine ⟨_, none, _, store_spec hG t 0 v, ?_, hp⟩
  rw [hf']
  exact hR.store v (by simp [hreg]) (congrArg pending hf.symm)
    (congrArg (registered 1) hf.symm).le trivial

theorem moves_push (hG : Shape g s) (hR : Refines 1 s.domain (frameOf ∘ f) g.hazards)
    (hf : frameOf (f t) = frameOf p) (hp : Placed g s t p)
    (hn : nextPush t act s p = some (s', p')) : Moves g s t f s' p' := by
  revert hn
  fun_cases nextPush t act s p <;> intro hn <;> cases hn
  · -- pushNew
    rename_i ha
    obtain ⟨g', hE, hnew⟩ := make_spec hG t ha
    exact .call hR hf hE rfl rfl hnew
  · exact .stay hG hR hf rfl hp
  · exact .storeHp hG hR hf rfl ⟨hp, by simp [Hazards.apply]⟩
  · -- the tail is still in the slot
    rename_i hT
    exact .stay hG hR hf rfl ⟨hp.1, hG.claimed hp.2 (hG.tail_mem hT)⟩
  · exact .stay hG hR hf rfl hp.1
  · rename_i hd
    obtain ⟨hE, hd'⟩ := setData_spec hG t hp.2.1 (Option.isNone_iff_eq_none.1 hd) _
    exact .call hR hf hE rfl rfl ⟨hE.private (by rintro ⟨⟩) hp.1, hE.claimed (by simp) hp.2, hd'⟩
  · rename_i hd
    exact .stay hG hR hf rfl ⟨hp.1, hp.2, fun h => hd (Option.isNone_iff_eq_none.2 h)⟩
  · rename_i hl
    obtain ⟨hnode, hc, hd⟩ := hp
    obtain ⟨g', hE, hl'⟩ := link_spec hG hc.1 hd hl hnode
    exact .call hR hf hE rfl rfl ⟨by rintro _ ⟨⟩, hE.claimed (by simp) hc, hl'⟩
  · rename_i hl
    refine .stay hG hR hf rfl ⟨fun b hb => ?_, hp.2.1, hl⟩
    exact Option.some.inj hb ▸ hp.1
  · obtain ⟨hleft, -, hl⟩ := hp
    have hE := swing_spec hG t hl
    exact .call hR hf hE (s.swing_domain _ _) rfl (hE.private (by rintro ⟨⟩) (hleft _ rfl))
  · have hE := swing_spec hG t hp.2.2
    exact .call hR hf hE (s.swing_domain _ _) rfl trivial
  · obtain ⟨g', hE⟩ := delete_spec hG hp
    exact .call hR hf hE rfl rfl trivial
  · exact .storeHp hG hR hf rfl trivial
  · rename_i hl
    obtain ⟨hnode, hc, hd⟩ := hp
    obtain ⟨g', hE, hl'⟩ := link_spec hG hc.1 hd hl hnode
    exact .call hR hf hE rfl rfl ⟨hE.claimed (by simp) hc, hl'⟩
  · rename_i hl
    exact .stay hG hR hf rfl ⟨hp.1, hp.2.1, hl⟩
  · rename_i ha
    obtain ⟨hc, hl⟩ := hp
    obtain ⟨g', hE, hnew⟩ := make_spec hG t ha
    exact .call hR hf hE rfl rfl
      ⟨hnew, hE.claimed (by simp) hc, (hE.links _ hc.1 (by simp [hl])).trans hl⟩
  · have hE := swing_spec hG t hp.2.2
    exact .call hR hf hE (s.swing_domain _ _) rfl (hE.private (by rintro ⟨⟩) hp.1)
  · exact .stay hG hR hf rfl trivial

theorem moves_pop (hG : Shape g s) (hR : Refines 1 s.domain (frameOf ∘ f) g.hazards)
    (hf : frameOf (f t) = frameOf p) (hp : Placed g s t p)
    (hC : ∀ head ∈ validating p, s.mHead = head → s.mTail ≠ head)
    (hn : nextPop t act s p = some (s', p')) : Moves g s t f s' p' := by
  revert hn
  fun_cases nextPop t act s p <;> intro hn <;> cases hn
  · exact .stay hG hR hf rfl hp
  · exact .storeHp hG hR hf rfl ⟨hp, by simp [Hazards.apply]⟩
  · exact .stay hG hR hf rfl hp.1
  · exact .stay hG hR hf rfl hp
  · -- the head is still in the slot
    rename_i hH
    exact .stay hG hR hf rfl ⟨hp.1, hG.claimed hp.2 (hG.head_mem hH), fun _ => ⟨hH, hC _ rfl hH⟩⟩
  · exact .stay hG hR hf rfl hp.1
  · obtain ⟨hopt, hc, hfr⟩ := hp
    exact .stay hG hR hf rfl ⟨hopt, ⟨hc, hfr⟩, rfl, hG.front_links hc.1 hfr⟩
  · rename_i newTail head next _ hH
    obtain ⟨hopt, ⟨hc, hfr⟩, hl, hne⟩ := hp
    obtain ⟨b, rfl⟩ := Option.ne_none_iff_exists'.1 hne
    obtain ⟨g', hE, hpop⟩ := pop_spec hG t hH hfr hl
    exact .call hR hf hE rfl rfl ⟨hE.privateOpt (by simp) hopt, hpop⟩
  · exact .stay hG hR hf rfl hp.1
  · exact .stay hG hR hf rfl hp
  · exact .storeHp hG hR hf rfl hp
  · -- retire
    obtain ⟨hopt, hpop⟩ := hp
    obtain ⟨g', hE⟩ := retire_spec hG hpop
    refine ⟨g', _, _, hE, ?_, hE.privateOpt (fun b hb hab => ?_) hopt⟩
    · rw [hE.hazards]
      exact hR.retire hf hE.enabled
    · obtain rfl := Option.some.inj hab
      exact (hopt _ hb).2.1 hpop.2
  · exact .stay hG hR hf rfl hp
  · rename_i hs
    obtain ⟨g', e, hE, hR'⟩ := domainStep_spec hG hR hf hs
    exact ⟨g', _, e, hE, hR', hE.privateOpt (by simp) hp⟩
  · exact .storeHp hG hR hf rfl ⟨hp, by simp [Hazards.apply]⟩
  · rename_i hT
    exact .stay hG hR hf rfl ⟨hp.1, hG.claimed hp.2 (hG.tail_mem hT)⟩
  · exact .stay hG hR hf rfl hp.1
  · exact .stay hG hR hf rfl hp.1
  · rename_i hd
    exact .stay hG hR hf rfl ⟨hp.1, hp.2, fun h => hd (Option.isNone_iff_eq_none.2 h)⟩
  · exact .storeHp hG hR hf rfl hp
  · rename_i hl
    exact .stay hG hR hf rfl ⟨hp.1, hp.2.1, hl, by rintro ⟨⟩⟩
  · exact .stay hG hR hf rfl ⟨hp.1 _ rfl, hp.2⟩
  · exact .stay hG hR hf rfl hp.2
  · rename_i ha
    obtain ⟨hc, hd⟩ := hp
    obtain ⟨g', hE, hnew⟩ := make_spec hG t ha
    exact .call hR hf hE rfl rfl ⟨hnew, hE.claimed (by simp) hc, (hE.data _ hc.1 hd).symm ▸ hd⟩
  · rename_i hl
    obtain ⟨hnode, hc, hd⟩ := hp
    obtain ⟨g', hE, hl'⟩ := link_spec hG hc.1 hd hl hnode
    exact .call hR hf hE rfl rfl ⟨by rintro _ ⟨⟩, hE.claimed (by simp) hc, hl', by rintro ⟨⟩⟩
  · rename_i hl
    exact .stay hG hR hf rfl ⟨hp.1, hp.2.1, fun h => absurd (hl.symm.trans h) (by simp)⟩
  · refine .stay hG hR hf rfl ⟨fun b hb => ?_, hp.2.1, rfl, hp.2.2⟩
    exact Option.some.inj hb ▸ hp.1
  · obtain ⟨hopt, -, hl, hne⟩ := hp
    obtain ⟨b, rfl⟩ := Option.ne_none_iff_exists'.1 hne
    have hE := swing_spec hG t hl
    exact .call hR hf hE (s.swing_domain _ _) rfl (hE.privateOpt (by simp) hopt)
  · exact .storeHp hG hR hf rfl hp
  · obtain ⟨g', hE⟩ := delete_spec hG (hp _ rfl)
    exact .call hR hf hE rfl rfl trivial
  · exact .stay hG hR hf rfl trivial
  · exact .stay hG hR hf rfl trivial

theorem moves_step (hG : Shape g s) (hR : Refines 1 s.domain (frameOf ∘ f) g.hazards)
    (hf : frameOf (f t) = frameOf p) (hp : Placed g s t p)
    (hC : ∀ head ∈ validating p, s.mHead = head → s.mTail ≠ head)
    (hn : next t act s p = some (s', p')) : Moves g s t f s' p' := by
  have exit : ∀ {q : Frame τ A}, pending q = pending (frameOf p) →
      registered 1 q ≤ registered 1 (frameOf p) →
        Scanned g.hazards (s.domain.localDeleteList t) q → Moves g s t f s (.domain q) :=
    fun h1 h2 h3 => ⟨g, _, _, quiet_spec hG t s.domain,
      hR.move (h1.trans (congrArg pending hf.symm))
      (h2.trans (congrArg (registered 1) hf.symm).le) h3,
      trivial⟩
  revert hn
  fun_cases next t act s p <;> intro hn
  · cases hn
    exact .stay hG hR hf rfl trivial
  · cases hn
    exact .stay hG hR hf rfl nofun
  · rename_i listFirst
    cases hn
    cases listFirst <;> exact exit rfl le_rfl trivial
  · rename_i hs
    cases hn
    obtain ⟨g', e, hE, hR'⟩ := domainStep_spec hG hR hf hs
    exact ⟨g', _, e, hE, hR', trivial⟩
  · cases hn
  · cases hn
  · rename_i hpush
    cases hn
    exact moves_push hG hR hf hp hpush
  · exact moves_pop hG hR hf hp hC hn

/-- In every state of a run: the hazard slots, the nodes, and what every thread relies on. -/
def Sound (g : Ghost τ A) (c : Conf τ (Shared τ A V) (PC τ A V)) : Prop :=
  Shape g c.shared ∧ Refines 1 c.shared.domain (frameOf ∘ c.pc) g.hazards ∧
    ∀ t, Placed g c.shared t (c.pc t)

variable {c : Conf τ (Shared τ A V) (PC τ A V)}

omit [DecidableEq τ] in
theorem sound_initial (a : A) :
    ∃ g : Ghost τ A, Sound g ⟨(initial a : Shared τ A V), fun _ => .domain .unstarted⟩ := by
  refine ⟨⟨⟨fun _ => none, ∅, fun _ => ∅⟩, [a], ∅, fun _ => none⟩,
    ⟨⟨rfl, rfl⟩, ⟨a, by simp, rfl⟩, by simp, fun _ _ h => absurd rfl h, nofun, by simp, ?_⟩,
    Refines.init 1, fun _ => trivial⟩
  simp [Ghost.Published, initial]

theorem sound_reach (h : system.Reach TailBehind c) : ∃ g, Sound g c := by
  refine h.induct (P := fun c => ∃ g, Sound g c) ?_ ?_
  · rintro ⟨s, f⟩ ⟨⟨a, rfl⟩, rfl⟩
    exact sound_initial a
  · rintro c ⟨t, act⟩ c' - ⟨g, hG, hR, hp⟩ hC hs
    obtain ⟨s', p', hn, rfl⟩ := Program.step_eq_some.1 hs
    obtain ⟨g', x, e, hE, hR', hp'⟩ := moves_step hG hR rfl (hp t) hC hn
    refine ⟨g', hE.shape, by rwa [Function.comp_update], Program.forall_update hp' fun u hu => ?_⟩
    exact (hp u).effect hE hu

/-- The head is there and the tail is reached from it; a `tryPop` whose `mHead.compare_exchange` is
about to succeed takes a filled node. -/
def HeadValid (c : Conf τ (Shared τ A V) (PC τ A V)) : Prop :=
  c.shared.mHead ≠ none ∧
  (∃ tail q, c.shared.mTail = some tail ∧ Seg c.shared.links c.shared.mHead q (some tail)) ∧
  ∀ t newTail head next, c.pc t = .popCas newTail head next → c.shared.mHead = some head →
    c.shared.data head ≠ none

theorem head_valid (h : system.Reach TailBehind c) : HeadValid c := by
  obtain ⟨g, hG, -, hp⟩ := sound_reach h
  obtain ⟨tail, htail, hT⟩ := hG.tail
  obtain ⟨q₁, q₂, hq, hseg, -⟩ := hG.seg.split htail
  refine ⟨fun hh => ?_, ⟨tail, q₁, hT, hseg⟩, fun t newTail head next hpc hh => ?_⟩
  · rw [hh] at hseg
    cases q₁ with
    | nil => cases hseg
    | cons x q => cases hseg.1
  · have hcas := hp t
    rw [hpc] at hcas
    obtain ⟨-, -, hl, hne⟩ := hcas
    exact hG.full head (.inl (hG.head_mem hh)) (hl ▸ hne)

/-- Thread 0 loads `mHead`, node 0, and is held up before it stores its hazard pointer. Thread 1
pushes and pops until node 0 is freed, pushes it again and then another one behind it, and pops what
is before it. So it is the new node 0 that thread 0 validates. -/
theorem head_valid_reused : ∃ (n : ℕ)
    (r : system.Run (TailBehind (τ := Fin 2) (A := ℕ) (V := ℕ)) n),
    (r.state 141).shared.allocated 0 = false ∧ (validating ((r.state 177).pc 0) = some (some 0) ∧
      (r.state 177).shared.mHead = some 0 ∧ (r.state 177).shared.mTail = some 6) ∧
        ∀ i ≤ n, HeadValid (r.state i) := by
  let run (t : Fin 2) (n : ℕ) : List (Fin 2 × Act ℕ ℕ) := List.replicate n (t, .run true)
  let push (n k : ℕ) : List (Fin 2 × Act ℕ ℕ) := (1, .push 7) :: (1, .alloc n) :: run 1 k
  let pop (k : ℕ) : List (Fin 2 × Act ℕ ℕ) := (1, .tryPop) :: run 1 k
  let as := run 0 4 ++ run 1 4 ++ (0, .tryPop) :: run 0 1 ++ (push 1 8 ++ pop 13) ++
    (push 2 8 ++ pop 13) ++ (push 3 8 ++ pop 13) ++ (push 4 8 ++ pop 13) ++ (push 5 8 ++ pop 24) ++
    push 0 8 ++ push 6 8 ++ pop 13 ++ run 0 4
  obtain ⟨r, hr⟩ := System.exists_run_through (S := system) (C := TailBehind) as (0, .run true)
    (s := ⟨initial 0, fun _ => .domain .unstarted⟩) ⟨⟨0, rfl⟩, rfl⟩ (fun _ _ => id)
    (by decide +kernel)
  have hfreed := hr 141 (by decide +kernel) (fun c => decide (c.shared.allocated 0 = false) = true)
    ((Option.any_eq_true _ _).1 (by decide +kernel))
  have hagain := hr 177 (by decide +kernel) (fun c => decide (validating (c.pc 0) = some (some 0) ∧
    c.shared.mHead = some 0 ∧ c.shared.mTail = some 6) = true)
    ((Option.any_eq_true _ _).1 (by decide +kernel))
  exact ⟨_, r, of_decide_eq_true hfreed, of_decide_eq_true hagain,
    fun i hi => head_valid (r.reach hi)⟩

set_option maxRecDepth 100000 in
/-- Thread 0 loads `mHead`, node 0, and is held up before it stores its hazard pointer. Thread 1
pushes and pops until node 0 is freed, and pushes it again: it is the last node, behind node 5, when
thread 0 finds `mTail` elsewhere. Thread 1 then moves `mTail` to node 0 and takes node 5, so thread
0 validates node 0 and puts its null link into `mHead`. -/
theorem head_lost : ∃ c : Conf (Fin 2) (Shared (Fin 2) ℕ ℕ) (PC (Fin 2) ℕ ℕ),
    system.Reachable c ∧ c.shared.mHead = none ∧ c.shared.mTail = some 0 ∧ ¬ HeadValid c := by
  let run (t : Fin 2) (n : ℕ) : List (Fin 2 × Act ℕ ℕ) := List.replicate n (t, .run true)
  let push (n k : ℕ) : List (Fin 2 × Act ℕ ℕ) := (1, .push 7) :: (1, .alloc n) :: run 1 k
  let pop (k : ℕ) : List (Fin 2 × Act ℕ ℕ) := (1, .tryPop) :: run 1 k
  let as := run 0 4 ++ run 1 4 ++ (0, .tryPop) :: run 0 1 ++ (push 1 8 ++ pop 13) ++
    (push 2 8 ++ pop 13) ++ (push 3 8 ++ pop 13) ++ (push 4 8 ++ pop 13) ++ (push 5 8 ++ pop 24) ++
    push 0 5 ++ run 0 2 ++ (run 1 3 ++ pop 6) ++ run 0 3
  have hex : ∃ c : Conf (Fin 2) (Shared (Fin 2) ℕ ℕ) (PC (Fin 2) ℕ ℕ),
      system.exec ⟨initial 0, fun _ => .domain .unstarted⟩ as = some c ∧
        c.shared.mHead = none ∧ c.shared.mTail = some 0 := ⟨_, rfl, rfl, rfl⟩
  obtain ⟨c, hc, hH, hT⟩ := hex
  exact ⟨c, .exec (.init ⟨⟨0, rfl⟩, rfl⟩) hc, hH, hT, fun h => h.1 hH⟩

end MSQueue

end ConcurrencySandbox

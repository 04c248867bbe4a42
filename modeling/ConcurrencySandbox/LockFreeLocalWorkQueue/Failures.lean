import ConcurrencySandbox.Interleaving.Exceptions
import ConcurrencySandbox.LockFreeLocalWorkQueue.ExactlyOnce

/-!
# A push that fails

Every allocation of `push` may throw: the new array, the node that `retire` makes, the vector of
`getPointers`, which may also grow while the pointers are read, and the new task. The exception
leaves the call, and as long as `newTasks` is a `unique_ptr` it takes the new array with it.

Before the store of `mTasks` the new array is no thread's concern, and after `retire` it is no
longer owned; in between `mTasks` designates an array that is freed.
-/

namespace ConcurrencySandbox

open Interleaving Structures HazardPointer

namespace LockFreeLocalWorkQueue

variable {τ C P T : Type*}

/-- The allocation at a place of `push` throws. -/
def throwPush [DecidableEq C] (s : Shared τ C P T) :
    PC τ C P T → Option (Shared τ C P T × PC τ C P T)
  | .pushResize .. => some (s, .domain .ready)
  -- `newTasks` still owns the array
  | .pushRetire _ _ _ newTasks | .retiring .loadHead _ _ newTasks
  | .retiring (.getPointers ..) _ _ newTasks => some (s.free newTasks, .domain .ready)
  | .pushNew .. => some (s, .domain .ready)
  | _ => none

/-- The call is inside `HazardPointerDomain::retire`. -/
def InRetireCall : PC τ C P T → Prop
  | .pushRetire .. | .retiring .. => True
  | _ => False

instance : DecidablePred (InRetireCall : PC τ C P T → Prop) := fun p => by
  cases p <;> first | exact isTrue trivial | exact isFalse id

/-- Inside `push`, before the slot is written. -/
def Offering : PC τ C P T → Prop
  | .pushBottom _ | .pushTop .. | .pushTasks .. | .pushReload .. | .pushResize .. | .pushCopy ..
  | .pushTasksStore .. | .pushRetire .. | .retiring .. | .pushNew .. => True
  | _ => False

/-- What a call to `push` that adds nothing leaves of the queue: the tasks that were there, less
those stolen from the top. -/
structure Kept (s s' : Shared τ C P T) : Prop where
  mTop : s.mTop ≤ s'.mTop
  mBottom : s'.mBottom = s.mBottom
  pushed : s'.pushed = s.pushed
  stored : s'.stored = s.stored.drop (s'.mTop - s.mTop).toNat

/-- `mTasks` is an array that is allocated and in no delete list. -/
def Live (c : Conf τ (Shared τ C P T) (PC τ C P T)) : Prop :=
  c.shared.allocated c.shared.mTasks = true ∧ c.shared.mTasks ∉ c.shared.domain.globalDeleteList ∧
    ∀ t, c.shared.mTasks ∉ pending (frameOf (c.pc t)) ++ c.shared.domain.localDeleteList t

theorem Kept.refl (s : Shared τ C P T) : Kept s s := ⟨le_rfl, rfl, rfl, by simp⟩

theorem Kept.trans {s₁ s₂ s₃ : Shared τ C P T} (h : Kept s₁ s₂) (h' : Kept s₂ s₃) : Kept s₁ s₃ where
  mTop := h.mTop.trans h'.mTop
  mBottom := h'.mBottom.trans h.mBottom
  pushed := h'.pushed.trans h.pushed
  stored := by
    have h1 := h.mTop
    have h2 := h'.mTop
    rw [h'.stored, h.stored, List.drop_drop]
    congr 1
    omega

theorem Offering.pushing {o t : τ} {g : Ghost τ C P T} {s : Shared τ C P T} {p : PC τ C P T}
    (hO : Offering p) (hp : Placed o t g s p) : ∃ b, Pushing o t g s b := by
  cases p with
  | pushBottom _ | pushTop _ _ => exact ⟨_, hp⟩
  | pushTasks _ _ _ | pushReload _ _ _ _ | pushResize _ _ _ _ _ | pushCopy _ _ _ _ _ _
  | pushTasksStore _ _ _ _ | retiring _ _ _ _ | pushNew _ _ _ => exact ⟨_, hp.1⟩
  | pushRetire _ _ _ _ => exact ⟨_, hp.1.1⟩
  | _ => exact hO.elim

/-- The window moves up, and its cells and their tasks stay. -/
theorem Kept.of_shape {g g' : Ghost τ C P T} {s s' : Shared τ C P T} (hG : Shape g s)
    (hG' : Shape g' s') (hB : Settled g s) (hB' : Settled g' s') (htop : g.top ≤ g'.top)
    (hmB : s'.mBottom = s.mBottom) (hpushed : s'.pushed = s.pushed)
    (hcell : ∀ k, g'.top ≤ k → k < g.bottom → s'.cell s'.mTasks k = s.cell s.mTasks k)
    (htasks : ∀ q ∈ g.items, s'.tasks q = s.tasks q) : Kept s s' := by
  have hbot : g'.bottom = g.bottom := by
    have := hB.symm.trans (hmB.symm.trans hB')
    exact_mod_cast this.symm
  obtain ⟨d, hd⟩ := Nat.exists_eq_add_of_le htop
  have hlen : d + g'.items.length = g.items.length := by
    unfold Ghost.bottom at hbot
    omega
  have hitems : g'.items = g.items.drop d := by
    have hwin := hG.window.drop (d := d) (by omega)
    rw [← hd] at hwin
    refine hG'.window.unique (hwin.congr fun k h1 h2 => hcell k h1 ?_) ?_
    · rw [List.length_drop] at h2
      unfold Ghost.bottom
      omega
    · rw [List.length_drop]
      omega
  have hmTop : s'.mTop - s.mTop = d := by
    rw [hG'.top, hG.top, hd]
    omega
  refine ⟨by omega, hmB, hpushed, ?_⟩
  rw [hG'.stored_eq hB', hG.stored_eq hB, hmTop, Int.toNat_natCast, ← List.map_drop, ← hitems]
  refine List.map_congr_left fun q hq => htasks q ?_
  rw [hitems] at hq
  exact List.mem_of_mem_drop hq

variable [DecidableEq τ] [DecidableEq C] [DecidableEq P] {g g' : Ghost τ C P T}
  {s s' : Shared τ C P T} {o t : τ} {p p' : PC τ C P T} {f : τ → PC τ C P T} {act : Act C P T}
  {ok : Bool} {fr fr' : Frame τ C}

omit [DecidableEq P] in
theorem domainStep_frame (hs : s.domainStep t ok fr = some (s', fr')) :
    s' = { s with domain := s'.domain, allocated := s'.allocated } := by
  revert hs
  unfold Shared.domainStep
  split <;> simp only [Option.some.injEq, Prod.mk.injEq, reduceCtorEq, IsEmpty.forall_iff]
  all_goals
    rintro ⟨rfl, rfl⟩
    rfl

/-- A step leaves the tasks of the window alone. -/
theorem next_tasks (hG : Shape g s) (hp : Placed o t g s p)
    (hn : next o t act s p = some (s', p')) {q : P} (hq : q ∈ g.items) :
    s'.tasks q = s.tasks q := by
  have push : ∀ {r}, nextPush t act s p = some r → r.1.tasks q = s.tasks q := by
    intro r hr
    revert hr
    fun_cases nextPush t act s p <;> intro hr <;> cases hr <;> try rfl
    · rename_i hs
      rw [domainStep_frame hs]
    · rename_i r hr
      obtain ⟨stored, hmap, -⟩ := hG.account
      refine Function.update_of_ne (fun h => hr ?_) _ _
      have hmem : s.tasks q ∈ stored.map some := hmap ▸ List.mem_map_of_mem hq
      obtain ⟨x, -, hx⟩ := List.mem_map.1 hmem
      rw [← h, ← hx]
      rfl
  have pop : ∀ {r}, nextPop t act s p = some r → r.1.tasks q = s.tasks q := by
    intro r hr
    revert hr
    fun_cases nextPop t act s p <;> intro hr <;> cases hr <;> try rfl
    all_goals
      obtain ⟨⟨r, task, h1, h2, -⟩, -⟩ := hp
      rw [← Option.some.inj h1] at h2
      refine Function.update_of_ne (fun h => h2.notMem hG ?_) _ _
      rwa [← h]
  revert hn
  fun_cases next o t act s p <;> intro hn
  case case10 hpush =>
    cases hn
    exact push hpush
  case case11 => exact pop hn
  case case7 hs =>
    cases hn
    rw [domainStep_frame hs]
  all_goals
    cases hn
    try rfl

/-- The owner's steps in `push` keep the window, also when the array is replaced. -/
theorem push_cells (hG : Shape g s) (hp : Placed o t g s p) (hO : Offering p) (hO' : Offering p')
    (hn : next o t act s p = some (s', p')) : s'.mTop = s.mTop ∧ s'.mBottom = s.mBottom ∧
      s'.pushed = s.pushed ∧
      ∀ k, g.top ≤ k → k < g.bottom → s'.cell s'.mTasks k = s.cell s.mTasks k := by
  have push : nextPush t act s p = some (s', p') := by
    revert hn
    fun_cases next o t act s p <;> intro hn
    case case10 hpush => exact hn ▸ hpush
    case case11 hpop hpush => cases p <;> first | exact hO.elim | simp [nextPop] at hn
    all_goals exact hO.elim
  revert push
  fun_cases nextPush t act s p <;> intro hn <;> cases hn <;>
    first | exact hO'.elim | exact ⟨rfl, rfl, rfl, fun _ _ _ => rfl⟩ | skip
  · -- a new array is not the current one
    rename_i ha
    have hcur := hG.allocated _ hG.current.1
    refine ⟨rfl, rfl, rfl, fun k _ _ =>
      congrArg (CircularArray.get · k) (Function.update_of_ne (fun h => ha ?_) _ _)⟩
    rwa [← h]
  · obtain ⟨-, ⟨-, -, hnew, -⟩, -⟩ := hp
    refine ⟨rfl, rfl, rfl, fun k _ _ =>
      congrArg (CircularArray.get · k) (Function.update_of_ne (fun h => hnew ?_) _ _)⟩
    rw [← h]
    exact hG.current.1
  · exact ⟨rfl, rfl, rfl, hp.2.2.2⟩
  · rename_i hs
    rw [domainStep_frame hs]
    exact ⟨rfl, rfl, rfl, fun _ _ _ => rfl⟩

/-- The threads of `system`, where the allocations of `push` may throw. -/
def failing (owner : τ) : System (Conf τ (Shared τ C P T) (PC τ C P T)) (τ × Trial (Act C P T)) :=
  ((program owner).orThrow throwPush).system
    (fun s => ∃ a initialCapacity, 1 ≤ initialCapacity ∧ s = initial a initialCapacity)
    (.domain .unstarted)

/-- Fewer than 2 ^ 63 pushes, and no allocation of `retire` throws. -/
def Spared (c : Conf τ (Shared τ C P T) (PC τ C P T)) (l : τ × Trial (Act C P T)) : Prop :=
  match l.2 with
  | .act a => Few c (l.1, a)
  | .throw => ¬ InRetireCall (c.pc l.1)

instance (c : Conf τ (Shared τ C P T) (PC τ C P T)) : ∀ l, Decidable (Spared c l)
  | (t, .act a) => inferInstanceAs (Decidable (Few c (t, a)))
  | (t, .throw) => inferInstanceAs (Decidable (¬ InRetireCall (c.pc t)))

section Steps

variable {c c' : Conf τ (Shared τ C P T) (PC τ C P T)} {l : τ × Trial (Act C P T)}

omit [DecidableEq τ] [DecidableEq P] in
/-- Outside `retire`, an exception changes nothing. -/
theorem throwPush_eq (hn : throwPush s p = some (s', p')) (hp : ¬ InRetireCall p) :
    s' = s ∧ p' = .domain .ready ∧ frameOf p = .ready := by
  revert hn
  fun_cases throwPush s p <;> intro hn <;> cases hn
  · exact ⟨rfl, rfl, rfl⟩
  all_goals first | exact absurd trivial hp | exact ⟨rfl, rfl, rfl⟩

omit [DecidableEq τ] [DecidableEq P] in
theorem throwPush_offering (hn : throwPush s p = some (s', p')) : Offering p := by
  revert hn
  fun_cases throwPush s p <;> intro hn <;> cases hn <;> exact trivial

theorem sound_step (hS : Sound o g c) (hC : Spared c l) (hs : (failing o).step c l = some c') :
    ∃ g', Sound o g' c' ∧ g.top ≤ g'.top ∧ (l.1 ≠ o → Steady g g' c.shared c'.shared) := by
  obtain ⟨hG, hR, hp⟩ := hS
  obtain ⟨t, trial⟩ := l
  obtain ⟨s', p', hn, rfl⟩ := Program.step_eq_some.1 hs
  have hm : Moves o g c.shared t c.pc s' p' := by
    cases trial with
    | act a =>
      refine moves_step hG hR rfl (hp t) ?_ hn
      rintro task rfl
      exact hC
    | throw =>
      obtain ⟨rfl, rfl, hf⟩ := throwPush_eq hn hC
      obtain ⟨b, rfl, h1, h2, -⟩ := (throwPush_offering hn).pushing (hp t)
      exact .stay hG hR hf rfl ⟨h1, fun _ => h2⟩
  obtain ⟨g', e, hE, hR', hp'⟩ := hm
  refine ⟨g', ⟨hE.shape, by rwa [Function.comp_update], Program.forall_update hp' fun u hu => ?_⟩,
    hE.top, hE.steady⟩
  exact (hp u).effect hE hu

theorem sound_failing (h : (failing o).Reach Spared c) : ∃ g, Sound o g c := by
  refine h.induct (P := fun c => ∃ g, Sound o g c) ?_ fun c l c' _ ⟨g, hS⟩ hC hs => ?_
  · rintro ⟨s, f⟩ ⟨⟨a, n, hn, rfl⟩, rfl⟩
    exact sound_initial o a hn
  · obtain ⟨g', hS', -⟩ := sound_step hS hC hs
    exact ⟨g', hS'⟩

/-- While the owner is inside `push`, no step of any thread adds a task. -/
theorem kept_step (hS : Sound o g c) (hC : Spared c l) (hs : (failing o).step c l = some c')
    (hO : Offering (c.pc o)) (hO' : Offering (c'.pc o)) : Kept c.shared c'.shared := by
  obtain ⟨g', hS', htop, hsteady⟩ := sound_step hS hC hs
  obtain ⟨-, -, -, hB, -⟩ := hO.pushing (hS.2.2 o)
  obtain ⟨-, -, -, hB', -⟩ := hO'.pushing (hS'.2.2 o)
  obtain ⟨t, trial⟩ := l
  obtain ⟨s', p', hn, rfl⟩ := Program.step_eq_some.1 hs
  cases trial with
  | throw =>
    obtain ⟨rfl, -⟩ := throwPush_eq hn hC
    exact .refl _
  | act a =>
    have htasks := fun q => next_tasks hS.1 (hS.2.2 t) hn (q := q)
    by_cases ht : t = o
    · subst ht
      have hp' : Offering p' := by simpa using hO'
      obtain ⟨-, h2, h3, h4⟩ := push_cells hS.1 (hS.2.2 t) hO hp' hn
      exact .of_shape hS.1 hS'.1 hB hB' htop h2 h3 (fun k h => h4 k (htop.trans h)) htasks
    · have hst := hsteady ht
      refine .of_shape hS.1 hS'.1 hB hB' htop hst.mBottom hst.pushed (fun k _ _ => ?_) htasks
      rw [hst.mTasks, hst.cell]

omit [DecidableEq τ] [DecidableEq C] [DecidableEq P] in
theorem Sound.live (hS : Sound o g c) : Live c := by
  obtain ⟨hG, hR, -⟩ := hS
  have hlists := hR.lists.mem c.shared.mTasks
  refine ⟨hG.allocated _ hG.current.1, fun h => hG.current.2 (hlists.2 (.inl h)), fun t h => ?_⟩
  exact hG.current.2 (hlists.2 (.inr ⟨t, h⟩))

/-- A call gets inside `push` by being called. -/
theorem offering_entered {trial : Trial (Act C P T)} (hp : ¬ Offering p) (hp' : Offering p')
    (hn : ((program o).orThrow throwPush).next t trial s p = some (s', p')) :
    ∃ task, trial = .act (.push task) ∧ s' = s := by
  cases trial with
  | throw => exact absurd (throwPush_offering hn) hp
  | act a =>
    have push : ∀ {r}, nextPush t a s p = some r → ¬ Offering r.2 := by
      intro r hr
      revert hr
      fun_cases nextPush t a s p <;> intro hr <;> cases hr <;>
        first | exact absurd trivial hp | exact id
    have pop : ∀ {r}, nextPop t a s p = some r → ¬ Offering r.2 := by
      intro r hr
      revert hr
      fun_cases nextPop t a s p <;> intro hr <;> cases hr <;> exact id
    change next o t a s p = _ at hn
    revert hn
    fun_cases next o t a s p <;> intro hn
    case case10 hpush =>
      cases hn
      exact absurd hp' (push hpush)
    case case11 => exact absurd hp' (pop hn)
    case case1 =>
      cases hn
      exact ⟨_, rfl, rfl⟩
    all_goals cases hn <;> exact hp'.elim

omit [DecidableEq τ] [DecidableEq P] in
/-- An exception out of `retire` frees the array that `mTasks` designates. -/
theorem Placed.not_live (hp : Placed o t g c.shared p) (hn : throwPush c.shared p = some (s', p'))
    (hr : InRetireCall p) {f' : τ → PC τ C P T} : ¬ Live ⟨s', f'⟩ := by
  have freed : ∀ a, a = c.shared.mTasks → ¬ Live ⟨c.shared.free a, f'⟩ := by
    rintro a rfl ⟨h, -⟩
    simp [Shared.free] at h
  revert hn
  fun_cases throwPush c.shared p <;> intro hn <;> cases hn
  case case2 => exact freed _ hp.1.2.1
  case case3 | case4 => exact freed _ hp.2.1
  all_goals exact hr.elim

end Steps

/-- A `push` that throws leaves a live array with the tasks that were there, and adds none, if and
only if the exception does not come out of `retire`. -/
theorem push_failure_iff {n : ℕ} {c : Conf τ (Shared τ C P T) (PC τ C P T)}
    (r : (failing o).Run Spared n)
    (hs : (failing o).step (r.state n) (t, .throw) = some c) :
    ∃ j < n, ∃ task, r.label j = (t, .act (.push task)) ∧
      (∀ m, j < m → m ≤ n → Offering ((r.state m).pc t)) ∧
        (Live c ∧ Kept (r.state j).shared c.shared ↔ ¬ InRetireCall ((r.state n).pc t)) := by
  obtain ⟨g, hS⟩ := sound_failing (r.reach le_rfl)
  obtain ⟨s', p', hn, rfl⟩ := Program.step_eq_some.1 hs
  have hO := throwPush_offering hn
  obtain ⟨b, rfl, -⟩ := hO.pushing (hS.2.2 t)
  obtain ⟨j, hj, hthread, hout, hnext, hin⟩ := Program.entered r (E := Offering) id le_rfl hO
  obtain ⟨task, htrial, hsame⟩ := offering_entered hout (hin _ (Nat.lt_succ_self j) hj) hnext
  refine ⟨j, hj, task, Prod.ext hthread htrial, hin, ?_⟩
  constructor
  · exact fun h hr => (hS.2.2 t).not_live hn hr h.1
  · intro hr
    -- up to the exception the queue is kept, step by step
    have hkept : Kept (r.state (j + 1)).shared (r.state n).shared := by
      refine r.chain (R := fun c c' => Kept c.shared c'.shared) (fun _ => .refl _)
        (fun _ _ _ => Kept.trans) hj fun m hm hmn => ?_
      obtain ⟨g', hS'⟩ := sound_failing (r.reach hmn.le)
      exact kept_step hS' (r.meets m hmn) (r.step m hmn) (hin m hm hmn.le)
        (hin (m + 1) (by omega) hmn)
    rw [hsame] at hkept
    obtain ⟨g', hS', -⟩ := sound_step hS (l := (t, .throw)) hr hs
    obtain ⟨rfl, -⟩ := throwPush_eq hn hr
    exact ⟨hS'.live, hkept⟩

/-- Task 7 is in the queue, of capacity 2, and the new array for task 8 cannot be allocated. -/
theorem push_failure_new : ∃ (n : ℕ) (r : (failing (0 : Fin 1)).Run Spared n)
    (c : Conf (Fin 1) (Shared (Fin 1) ℕ ℕ ℕ) (PC (Fin 1) ℕ ℕ ℕ)),
    (failing 0).step (r.state n) (0, .throw) = some c ∧ c.shared.stored = [some 7] ∧ Live c := by
  let run (n : ℕ) : List (Fin 1 × Trial (Act ℕ ℕ ℕ)) := List.replicate n (0, .act (.run true))
  let as := run 4 ++ (0, .act (.push 7)) :: run 3 ++ (0, .act (.allocTask 5)) :: run 3 ++
    (0, .act (.push 8)) :: run 4
  obtain ⟨c₀, h0, c, hs, hstored, hnot⟩ : ∃ c₀, (failing 0).execIf Spared
      ⟨(initial 0 2 : Shared (Fin 1) ℕ ℕ ℕ), fun _ => .domain .unstarted⟩ as = some c₀ ∧
        ∃ c, (failing 0).step c₀ (0, .throw) = some c ∧ c.shared.stored = [some 7] ∧
          ¬ InRetireCall (c₀.pc 0) := ⟨_, rfl, _, rfl, rfl, id⟩
  obtain ⟨r, rfl⟩ := System.exists_run_of_execIf (S := failing 0) (0, .throw)
    ⟨⟨0, 2, by decide, rfl⟩, rfl⟩ h0
  obtain ⟨j, hj, task, -, -, hiff⟩ := push_failure_iff r hs
  exact ⟨_, r, c, hs, hstored, (hiff.2 hnot).1⟩

/-- The node of the delete list cannot be allocated: the new array is freed, and `mTasks` is its
address. -/
theorem push_not_all_or_nothing : ∃ (n : ℕ) (r : (failing (0 : Fin 1)).Run Spared n)
    (c : Conf (Fin 1) (Shared (Fin 1) ℕ ℕ ℕ) (PC (Fin 1) ℕ ℕ ℕ)),
    (failing 0).step (r.state n) (0, .throw) = some c ∧ c.shared.mTasks = 1 ∧ ¬ Live c := by
  let run (n : ℕ) : List (Fin 1 × Trial (Act ℕ ℕ ℕ)) := List.replicate n (0, .act (.run true))
  let as := run 4 ++ (0, .act (.push 7)) :: run 4 ++ (0, .act (.alloc 1)) :: run 2
  obtain ⟨c₀, h0, c, hs, hmTasks, hfree⟩ : ∃ c₀, (failing 0).execIf Spared
      ⟨(initial 0 1 : Shared (Fin 1) ℕ ℕ ℕ), fun _ => .domain .unstarted⟩ as = some c₀ ∧
        ∃ c, (failing 0).step c₀ (0, .throw) = some c ∧ c.shared.mTasks = 1 ∧
          c.shared.allocated c.shared.mTasks = false := ⟨_, rfl, _, rfl, rfl, rfl⟩
  obtain ⟨r, rfl⟩ := System.exists_run_of_execIf (S := failing 0) (0, .throw)
    ⟨⟨0, 1, by decide, rfl⟩, rfl⟩ h0
  refine ⟨_, r, c, hs, hmTasks, fun h => ?_⟩
  rw [h.1] at hfree
  cases hfree

end LockFreeLocalWorkQueue

end ConcurrencySandbox

import ConcurrencySandbox.CLHTimeOutQueueLock.Basic
import ConcurrencySandbox.Structures.Adjacent

/-!
# Who may delete a node

The nodes behind `mTail` are a list (`Inv`). The one before a thread's own node is this thread's to
read, and to delete once its `mPred` is set; a node at the end of the list is deleted by its own
thread, which takes it out first. A thread has the lock when its node is the first, with no `mPred`.
So no pointer that is left anywhere leads to a deleted node (`safe`).
-/

namespace ConcurrencySandbox

open Interleaving Structures

namespace CLHTimeOutQueueLock

variable {τ A : Type*}

/-- `sMyNode`, while it is used. -/
def PC.own : PC A → Option A
  | .idle => none
  | .store a | .exchange a | .test a _ | .load a _ | .take a _ | .skip a _ _ | .clock a _
  | .withdraw a _ | .abandon a _ | .deleteWithdrawn a | .held a | .release a |
      .deleteHeld a => some a

/-- The other pointers that the call may still follow. -/
def PC.pred : PC A → List A
  | .test _ p | .load _ p | .take _ p | .clock _ p | .withdraw _ p | .abandon _ p => [p]
  | .skip _ p pp => [p, pp]
  | _ => []

/-- The thread is between a `tryLock` that has succeeded and the end of its `unlock`. -/
def PC.holds : PC A → Bool
  | .take .. | .held _ | .release _ => true
  | _ => false

def Placed (q : List A) (s : Shared A) : PC A → Prop
  | .idle => True
  | .store a | .exchange a | .deleteWithdrawn a | .deleteHeld a => s.allocated a = true ∧ a ∉ q
  | .test a p | .load a p | .clock a p | .withdraw a p | .abandon a p => Adjacent q p a
  | .take a p => Adjacent q p a ∧ s.mPred p = .avaiable
  | .skip a p pp => Adjacent q p a ∧ s.mPred p = .node pp
  | .held a | .release a => q.head? = some a

structure Inv (q : List A) (s : Shared A) (f : τ → PC A) : Prop where
  nodup : q.Nodup
  tail : s.mTail = q.getLast?
  allocated : ∀ a ∈ q, s.allocated a = true
  avaiable : ∀ a ∈ q, s.mPred a = .avaiable → q.head? = some a
  pred : ∀ a b, s.allocated a = true → s.mPred a = .node b → Adjacent q b a
  null : ∀ t a, (f t).own = some a → s.mPred a = .null
  apart : ∀ t u a, (f t).own = some a → (f u).own = some a → t = u
  placed : ∀ t, Placed q s (f t)

/-- A node that has been deleted is not there. -/
structure Ledger (s : Shared A) : Prop where
  nodup : s.deleted.Nodup
  deleted : ∀ a n, (a, n) ∈ s.deleted → n ≤ s.births a ∧ (n = s.births a → s.allocated a = false)

variable {q : List A} {s s' : Shared A} {f : τ → PC A} {t u : τ} {a b p : A} {x : PC A}

theorem Inv.own_allocated (h : Inv q s f) (ht : (f t).own = some a) : s.allocated a = true := by
  have hp := h.placed t
  cases hf : f t <;> rw [hf] at ht hp <;> cases ht
  case store | exchange | deleteWithdrawn | deleteHeld => exact hp.1
  case held | release => exact h.allocated _ (List.mem_of_head? hp)
  case take | skip => exact h.allocated _ hp.1.mem.2
  all_goals exact h.allocated _ (Adjacent.mem hp).2

/-- What others rely on is kept when the list is, for the nodes that are not the mover's. -/
theorem Placed.keep {q' : List A} (h : Placed q s x) (hown : ∀ b, x.own = some b →
    (∀ p, Adjacent q p b → Adjacent q' p b ∧ (s.mPred p ≠ .null → s'.mPred p = s.mPred p)) ∧
    (q.head? = some b → q'.head? = some b) ∧
    (s.allocated b = true → b ∉ q → s'.allocated b = true ∧ b ∉ q')) : Placed q' s' x := by
  cases x with
  | idle => trivial
  | store a | exchange a | deleteWithdrawn a | deleteHeld a => exact (hown a rfl).2.2 h.1 h.2
  | test a p | load a p | clock a p | withdraw a p | abandon a p => exact ((hown a rfl).1 p h).1
  | take a p =>
    obtain ⟨h1, h2⟩ := (hown a rfl).1 p h.1
    exact ⟨h1, (h2 (by simp [h.2])).trans h.2⟩
  | skip a p pp =>
    obtain ⟨h1, h2⟩ := (hown a rfl).1 p h.1
    exact ⟨h1, (h2 (by simp [h.2])).trans h.2⟩
  | held a | release a => exact (hown a rfl).2.1 h

variable [DecidableEq τ]

/-- Which node a thread owns changes by its own steps. -/
theorem own_update (hu : (Function.update f t x u).own = some b) :
    u = t ∧ x.own = some b ∨ u ≠ t ∧ (f u).own = some b := by
  by_cases hut : u = t
  · rw [hut, Function.update_self] at hu
    exact .inl ⟨hut, hu⟩
  · rw [Function.update_of_ne hut] at hu
    exact .inr ⟨hut, hu⟩

/-- A step that writes nothing, by a thread that keeps its node. -/
theorem Inv.stay (h : Inv q s f) (hx : x.own = (f t).own) (hp : Placed q s x) :
    Inv q s (Function.update f t x) := by
  have hown : ∀ u b, (Function.update f t x u).own = some b → (f u).own = some b := by
    intro u b hu
    rcases own_update hu with ⟨rfl, hb⟩ | ⟨-, hb⟩
    · exact hx ▸ hb
    · exact hb
  exact ⟨h.nodup, h.tail, h.allocated, h.avaiable, h.pred, fun u b hu => h.null u b (hown u b hu),
    fun u v b hu hv => h.apart u v b (hown u b hu) (hown v b hv),
    Program.forall_update (L := fun _ => Placed q s) hp fun u _ => h.placed u⟩

/-- The thread's own node, which is last, or one that only this thread follows leaves the list. -/
theorem Inv.cut (h : Inv q s f) {l r : List A} (hq : q = l ++ p :: r)
    (hpred : s'.mPred = s.mPred) (htail : s'.mTail = (l ++ r).getLast?)
    (hle : ∀ b, s'.allocated b = true → s.allocated b = true)
    (hge : ∀ b, b ≠ p → s.allocated b = true → s'.allocated b = true)
    (hnext : ∀ b, Adjacent q p b → s.mPred b = .null ∧ ∀ u, (f u).own = some b → u = t)
    (hself : s'.allocated p = true → s.mPred p = .null)
    (hp : ∀ u, (f u).own = some p → u = t) (hx : ∀ b, x.own = some b → (f t).own = some b)
    (hplaced : Placed (l ++ r) s' x) : Inv (l ++ r) s' (Function.update f t x) := by
  have hnd := h.nodup
  have hsub : ∀ {b}, b ∈ l ++ r → b ∈ q ∧ b ≠ p := by
    intro b hb
    rw [hq, List.nodup_middle, List.nodup_cons] at hnd
    refine ⟨?_, fun he => hnd.1 (he ▸ hb)⟩
    rw [hq]
    simp only [List.mem_append, List.mem_cons] at hb ⊢
    tauto
  have hhead : ∀ {b}, b ≠ p → q.head? = some b → (l ++ r).head? = some b := by
    intro b hb hbq
    rw [hq] at hbq
    cases l with
    | nil => exact absurd (Option.some.inj hbq).symm hb
    | cons c l => exact hbq
  have hown : ∀ u b, (Function.update f t x u).own = some b → (f u).own = some b := by
    intro u b hu
    rcases own_update hu with ⟨rfl, hb⟩ | ⟨-, hb⟩
    · exact hx b hb
    · exact hb
  have hadj : ∀ {y z}, z ≠ p → ¬ Adjacent q p z → Adjacent q y z → Adjacent (l ++ r) y z := by
    intro y z hz hpz hyz
    rw [hq] at hyz
    exact hyz.cut (fun he => hpz (hq ▸ he ▸ hyz)) hz
  refine ⟨?_, htail, fun b hb => hge b (hsub hb).2 (h.allocated b (hsub hb).1), fun b hb ha => ?_,
    fun b c hb hc => ?_, fun u b hu => hpred ▸ h.null u b (hown u b hu),
    fun u v b hu hv => h.apart u v b (hown u b hu) (hown v b hv),
    Program.forall_update (L := fun _ => Placed (l ++ r) s') hplaced fun u hu => ?_⟩
  · rw [hq, List.nodup_middle, List.nodup_cons] at hnd
    exact hnd.2
  · exact hhead (hsub hb).2 (h.avaiable b (hsub hb).1 (hpred ▸ ha))
  · rw [hpred] at hc
    have hbc := h.pred b c (hle b hb) hc
    refine hadj (fun he => ?_) (fun hpb => ?_) hbc
    · subst he
      simp [hself hb] at hc
    · simp [(hnext b hpb).1] at hc
  · refine (h.placed u).keep fun b hb => ⟨fun y hyb => ⟨?_, fun _ => by rw [hpred]⟩,
      hhead ?_, fun h1 h2 => ?_⟩
    · exact hadj (fun he => hu (hp u (he ▸ hb))) (fun hpb => hu ((hnext b hpb).2 u hb)) hyb
    · exact fun he => hu (hp u (he ▸ hb))
    · exact ⟨hge b (fun he => hu (hp u (he ▸ hb))) h1, fun hm => h2 (hsub hm).1⟩

variable [DecidableEq A]

theorem Inv.make (h : Inv q s f) (ha : ¬ s.allocated a = true) :
    Inv q (s.make a) (Function.update f t (.store a)) := by
  have hne : ∀ {b}, s.allocated b = true → b ≠ a := fun hb he => ha (he ▸ hb)
  have hm : a ∉ q := fun hm => ha (h.allocated a hm)
  have hown : ∀ u b, (Function.update f t (.store a) u).own = some b → u = t ∧ b = a ∨
      u ≠ t ∧ (f u).own = some b := by
    intro u b hu
    rcases own_update hu with ⟨hut, hb⟩ | h
    · exact .inl ⟨hut, (Option.some.inj hb).symm⟩
    · exact .inr h
  have hpred : ∀ b, b ≠ a → (s.make a).mPred b = s.mPred b :=
    fun b hb => Function.update_of_ne hb _ _
  have halloc : ∀ b, s.allocated b = true → (s.make a).allocated b = true := fun b hb =>
    (Function.update_of_ne (hne hb) _ _).trans hb
  refine ⟨h.nodup, h.tail, fun b hb => halloc b (h.allocated b hb), fun b hb hp => ?_,
    fun b c hb hc => ?_, fun u b hu => ?_, fun u v b hu hv => ?_,
    Program.forall_update (L := fun _ => Placed q (s.make a)) ⟨Function.update_self .., hm⟩
      fun u hu => ?_⟩
  · exact h.avaiable b hb (hpred b (hne (h.allocated b hb)) ▸ hp)
  · by_cases hba : b = a
    · subst hba
      have : (s.make b).mPred b = .null := Function.update_self ..
      cases this.symm.trans hc
    · rw [hpred b hba] at hc
      exact h.pred b c ((Function.update_of_ne hba _ _).symm.trans hb) hc
  · rcases hown u b hu with ⟨-, rfl⟩ | ⟨-, hu⟩
    · exact Function.update_self ..
    · rw [hpred b (hne (h.own_allocated hu))]
      exact h.null u b hu
  · rcases hown u b hu with ⟨hu, hb⟩ | ⟨-, hu⟩ <;> rcases hown v b hv with ⟨hv, hb'⟩ | ⟨-, hv⟩
    · exact hu.trans hv.symm
    · exact absurd hb (hne (h.own_allocated hv))
    · exact absurd hb' (hne (h.own_allocated hu))
    · exact h.apart u v b hu hv
  · refine (h.placed u).keep fun b hb => ⟨fun p hp => ⟨hp, fun _ => ?_⟩, id, fun h1 h2 => ?_⟩
    · exact hpred p (hne (h.allocated p hp.mem.1))
    · exact ⟨halloc b h1, h2⟩

omit [DecidableEq A] in
theorem Inv.exchange (h : Inv q s f) (hf : f t = .exchange a)
    (hx : x = match s.mTail with
      | none => .held a
      | some pred => .test a pred) :
    Inv (q ++ [a]) { s with mTail := some a } (Function.update f t x) := by
  obtain ⟨halloc, hm⟩ : Placed q s (.exchange a) := hf ▸ h.placed t
  have hft : (f t).own = some a := by rw [hf]; rfl
  have hxo : x.own = some a := by rw [hx]; split <;> rfl
  have hown : ∀ u b, (Function.update f t x u).own = some b → (f u).own = some b := by
    intro u b hu
    rcases own_update hu with ⟨rfl, hb⟩ | ⟨-, hb⟩
    · exact hft.trans (hxo.symm.trans hb)
    · exact hb
  have hhead : ∀ {b}, q.head? = some b → (q ++ [a]).head? = some b := fun hb => by
    rw [List.head?_append, hb, Option.some_or]
  refine ⟨?_, by simp, fun b hb => ?_, fun b hb hp => ?_, fun b c hb hc => ?_,
    fun u b hu => h.null u b (hown u b hu),
    fun u v b hu hv => h.apart u v b (hown u b hu) (hown v b hv),
    Program.forall_update (L := fun _ => Placed _ _) ?_ fun u hu => ?_⟩
  · exact List.nodup_append.2 ⟨h.nodup, List.nodup_singleton a, fun b hb c hc he =>
      hm (List.mem_singleton.1 hc ▸ he ▸ hb)⟩
  · rw [List.mem_append, List.mem_singleton] at hb
    exact hb.elim (h.allocated b) fun hb => hb ▸ halloc
  · rw [List.mem_append, List.mem_singleton] at hb
    rcases hb with hb | rfl
    · exact hhead (h.avaiable b hb hp)
    · cases (h.null t b hft).symm.trans hp
  · exact adjacent_concat.2 (.inl (h.pred b c hb hc))
  · rw [hx, h.tail]
    cases hl : q.getLast? with
    | none =>
      rw [List.getLast?_eq_none_iff.1 hl]
      rfl
    | some p => exact adjacent_concat.2 (.inr ⟨hl, rfl⟩)
  · refine (h.placed u).keep fun b hb => ⟨fun p hp => ⟨adjacent_concat.2 (.inl hp), fun _ => rfl⟩,
      hhead, fun h1 h2 => ⟨h1, ?_⟩⟩
    rw [List.mem_append, List.mem_singleton]
    rintro (hb' | rfl)
    · exact h2 hb'
    · exact hu (h.apart u t b hb hft)

/-- The last access to a node by its own thread leaves it to the next one. -/
theorem Inv.publish (h : Inv q s f) (hf : (f t).own = some a) {v : Pred A}
    (hav : v = .avaiable → q.head? = some a) (hnode : ∀ b, v = .node b → Adjacent q b a) :
    Inv q (s.storePred a v) (Function.update f t .idle) := by
  have hpred : ∀ b, b ≠ a → (s.storePred a v).mPred b = s.mPred b := fun b hb =>
    Function.update_of_ne hb _ _
  have hself : (s.storePred a v).mPred a = v := Function.update_self ..
  have hown : ∀ u b, (Function.update f t .idle u).own = some b → u ≠ t ∧ (f u).own = some b :=
    fun u b hu => (own_update hu).resolve_left (by rintro ⟨-, ⟨⟩⟩)
  refine ⟨h.nodup, h.tail, h.allocated, fun b hb hp => ?_, fun b c hb hc => ?_, fun u b hu => ?_,
    fun u w b hu hw => h.apart u w b (hown u b hu).2 (hown w b hw).2,
    Program.forall_update (L := fun _ => Placed q (s.storePred a v)) trivial fun u hu => ?_⟩
  · by_cases hba : b = a
    · subst hba
      exact hav (hself.symm.trans hp)
    · exact h.avaiable b hb (hpred b hba ▸ hp)
  · by_cases hba : b = a
    · subst hba
      exact hnode c (hself.symm.trans hc)
    · exact h.pred b c hb (hpred b hba ▸ hc)
  · obtain ⟨hut, hu⟩ := hown u b hu
    rw [hpred b fun he => hut (h.apart u t a (he ▸ hu) hf)]
    exact h.null u b hu
  · refine (h.placed u).keep fun b hb => ⟨fun p hp => ⟨hp, fun hne => hpred p ?_⟩, id,
      fun h1 h2 => ⟨h1, h2⟩⟩
    rintro rfl
    exact hne (h.null t p hf)

/-- A node that has been taken out is deleted by its own thread. -/
theorem Inv.discard (h : Inv q s f) (hf : (f t).own = some a) (hm : a ∉ q) :
    Inv q (s.delete a) (Function.update f t .idle) := by
  have halloc : ∀ b, b ≠ a → (s.delete a).allocated b = s.allocated b := fun b hb =>
    Function.update_of_ne hb _ _
  have hown : ∀ u b, (Function.update f t .idle u).own = some b → u ≠ t ∧ (f u).own = some b :=
    fun u b hu => (own_update hu).resolve_left (by rintro ⟨-, ⟨⟩⟩)
  refine ⟨h.nodup, h.tail, fun b hb => ?_, h.avaiable, fun b c hb hc => ?_,
    fun u b hu => h.null u b (hown u b hu).2,
    fun u w b hu hw => h.apart u w b (hown u b hu).2 (hown w b hw).2,
    Program.forall_update (L := fun _ => Placed q (s.delete a)) trivial fun u hu => ?_⟩
  · rw [halloc b fun he => hm (he ▸ hb)]
    exact h.allocated b hb
  · by_cases hba : b = a
    · subst hba
      cases (h.null t b hf).symm.trans hc
    · exact h.pred b c (halloc b hba ▸ hb) hc
  · refine (h.placed u).keep fun b hb => ⟨fun p hp => ⟨hp, fun _ => rfl⟩, id, fun h1 h2 => ⟨?_, h2⟩⟩
    rw [halloc b fun he => hu (h.apart u t a (he ▸ hb) hf)]
    exact h1

/-- The node before the thread's own leaves the list and is deleted. -/
theorem Inv.follow (h : Inv q s f) (hf : (f t).own = some a) {l r : List A}
    (hq : q = l ++ p :: a :: r)
    (hp : s.mPred p ≠ .null) (hx : x.own = some a) (hplaced : Placed (l ++ a :: r) (s.delete p) x) :
    Inv (l ++ a :: r) (s.delete p) (Function.update f t x) := by
  have hnd := h.nodup
  have hadj : Adjacent q p a := by
    rw [hq]
    exact adjacent_append.2 (.inr (.inl (adjacent_cons.2 (.inl ⟨rfl, rfl⟩))))
  refine h.cut hq rfl ?_ (fun b hb => ?_) (fun b hb ha => ?_) (fun b hb => ?_) (fun hself => ?_)
    (fun u hu => absurd (h.null u p hu) hp) (fun b hb => ?_) hplaced
  · change s.mTail = _
    rw [h.tail, hq]
    simp
  · by_contra hne
    have hbp : b ≠ p := by
      rintro rfl
      exact Bool.false_ne_true ((Function.update_self ..).symm.trans hb)
    exact hne ((Function.update_of_ne hbp _ _).symm.trans hb)
  · exact (Function.update_of_ne hb _ _).trans ha
  · obtain rfl := hb.right_unique hnd hadj
    exact ⟨h.null t b hf, fun u hu => h.apart u t b hu hf⟩
  · exact absurd ((Function.update_self ..).symm.trans hself) Bool.false_ne_true
  · rw [hx] at hb
    exact hf.trans hb

omit [DecidableEq A] in
/-- The thread's own node, when it is the last, leaves the list. -/
theorem Inv.retreat (h : Inv q s f) (hf : (f t).own = some a) {l : List A} (hq : q = l ++ [a])
    (hx : x.own = some a) (hplaced : Placed l { s with mTail := l.getLast? } x) :
    Inv l { s with mTail := l.getLast? } (Function.update f t x) := by
  have hlast : ∀ b, ¬ Adjacent q a b := fun b hb => by
    refine hb.ne_last h.nodup ?_
    rw [hq, List.getLast?_concat]
  rw [← List.append_nil l] at hplaced ⊢
  have hpred : ({ s with mTail := (l ++ []).getLast? } : Shared A).mPred = s.mPred := rfl
  refine h.cut hq hpred rfl (fun _ hb => hb)
    (fun _ _ hb => hb) (fun b hb => absurd hb (hlast b)) (fun _ => h.null t a hf)
    (fun u hu => h.apart u t a hu hf) (fun b hb => ?_) hplaced
  rw [hx] at hb
  exact hf.trans hb

theorem next_spec {act : Act A} (h : Inv q s f) (hn : next act s (f t) = some (s', x)) :
    ∃ q', Inv q' s' (Function.update f t x) := by
  have hp := h.placed t
  have hnull := h.null t
  have hpub := fun (v : Pred A) (a : A) => h.publish (t := t) (a := a) (v := v)
  revert hn
  generalize hf : f t = y at hp hnull hpub
  have hown : (f t).own = y.own := by rw [hf]
  have stay : ∀ {x}, x.own = y.own → Placed q s x → ∃ q', Inv q' s (Function.update f t x) :=
    fun hx hpx => ⟨q, h.stay (hx.trans hown.symm) hpx⟩
  fun_cases next act s y <;> intro hn <;> cases hn
  · rename_i ha
    exact ⟨q, h.make ha⟩
  · rename_i node
    have hsame : s.storePred node .null = s := by
      rw [Shared.storePred, ← hnull node rfl, Function.update_eq_self]
    rw [hsame]
    exact stay rfl hp
  · exact ⟨_, h.exchange hf rfl⟩
  · split_ifs with hav
    · exact stay rfl ⟨hp, hav⟩
    · exact stay rfl hp
  · rename_i node pred
    cases hv : s.mPred pred with
    | avaiable => exact stay rfl ⟨hp, hv⟩
    | node pp => exact stay rfl ⟨hp, hv⟩
    | null => exact stay rfl hp
  · -- the released node is the first
    rename_i node pred
    obtain ⟨hadj, hav⟩ := hp
    obtain ⟨r, hq⟩ := List.head?_eq_some_iff.1 (h.avaiable pred hadj.mem.1 hav)
    obtain ⟨r', rfl⟩ : ∃ r', r = node :: r' := by
      have hnd := (List.nodup_cons.1 (hq ▸ h.nodup)).1
      rw [hq, adjacent_cons] at hadj
      rcases hadj with ⟨-, hr⟩ | hr
      · exact List.head?_eq_some_iff.1 hr
      · exact absurd hr.mem.1 hnd
    exact ⟨_, h.follow hown (l := []) hq (by simp [hav]) rfl rfl⟩
  · rename_i node pred pp
    obtain ⟨hadj, hpp⟩ := hp
    obtain ⟨l, r, hq⟩ := hadj
    have hback := h.pred pred pp (h.allocated pred (hq ▸ by simp)) hpp
    obtain ⟨l', rfl⟩ : ∃ l', l = l' ++ [pp] := by
      rw [← hq, List.append_assoc, adjacent_append] at hback
      have hnd := h.nodup
      rw [← hq, List.append_assoc, List.nodup_append] at hnd
      rcases hback with hb | hb | ⟨hb, -⟩
      · exact absurd rfl (hnd.2.2 pred hb.mem.2 pred (by simp))
      · exact absurd rfl (hb.ne_head hnd.2.1)
      · exact List.getLast?_eq_some_iff.1 hb
    have hq' : q = (l' ++ [pp]) ++ pred :: node :: r := by
      rw [← hq]
      simp
    refine ⟨_, h.follow hown hq' (by simp [hpp]) rfl ?_⟩
    exact adjacent_append.2 (.inr (.inr ⟨List.getLast?_concat, rfl⟩))
  · exact stay rfl hp
  · exact stay rfl hp
  · rename_i node pred hlast
    obtain ⟨l, hq⟩ := List.getLast?_eq_some_iff.1 (h.tail ▸ hlast)
    have hnd := hq ▸ h.nodup
    rw [List.nodup_append] at hnd
    have hl : l.getLast? = some pred := by
      have hadj : Adjacent q pred node := hp
      rw [hq, adjacent_concat] at hadj
      exact hadj.elim (fun hb => absurd rfl (hnd.2.2 node hb.mem.2 node (by simp))) And.left
    rw [← hl]
    refine ⟨l, h.retreat hown hq rfl ⟨h.own_allocated hown, fun hm => ?_⟩⟩
    exact hnd.2.2 node hm node (by simp) rfl
  · exact stay rfl hp
  · rename_i node pred
    exact ⟨q, hpub _ node rfl nofun fun b hb => Pred.node.inj hb ▸ hp⟩
  · exact ⟨q, h.discard hown hp.2⟩
  · -- the first node is the last
    rename_i node hlast
    obtain ⟨l, hq⟩ := List.getLast?_eq_some_iff.1 (h.tail ▸ hlast)
    obtain rfl : l = [] := by
      have hnd := hq ▸ h.nodup
      rw [List.nodup_append] at hnd
      cases l with
      | nil => rfl
      | cons b l =>
        have hhead : q.head? = some node := hp
        rw [hq] at hhead
        obtain rfl : b = node := Option.some.inj hhead
        exact absurd rfl (hnd.2.2 b (by simp) b (by simp))
    exact ⟨[], h.retreat hown hq rfl ⟨h.own_allocated hown, nofun⟩⟩
  · exact stay rfl hp
  · rename_i node
    exact ⟨q, hpub _ node rfl (fun _ => hp) nofun⟩
  · exact ⟨q, h.discard hown hp.2⟩

theorem Ledger.make (h : Ledger s) : Ledger (s.make a) := by
  refine ⟨h.nodup, fun b n hb => ?_⟩
  obtain ⟨h1, h2⟩ := h.deleted b n hb
  by_cases hba : b = a
  · subst hba
    have hbirths : (s.make b).births b = s.births b + 1 := Function.update_self ..
    rw [hbirths]
    exact ⟨by omega, by omega⟩
  · have hbirths : (s.make a).births b = s.births b := Function.update_of_ne hba _ _
    have halloc : (s.make a).allocated b = s.allocated b := Function.update_of_ne hba _ _
    rw [hbirths, halloc]
    exact ⟨h1, h2⟩

theorem Ledger.delete (h : Ledger s) (ha : s.allocated a = true) : Ledger (s.delete a) := by
  have hnew : (a, s.births a) ∉ s.deleted := fun hm =>
    Bool.false_ne_true (((h.deleted a _ hm).2 rfl).symm.trans ha)
  refine ⟨?_, fun b n hb => ?_⟩
  · exact List.nodup_append.2 ⟨h.nodup, List.nodup_singleton _, fun x hx y hy he =>
      hnew (List.mem_singleton.1 hy ▸ he ▸ hx)⟩
  · have hself : ∀ b, s.allocated b = false → (s.delete a).allocated b = false := fun b hb => by
      by_cases hba : b = a
      · exact hba ▸ Function.update_self ..
      · exact (Function.update_of_ne hba _ _).trans hb
    rcases List.mem_append.1 hb with hb | hb
    · exact ⟨(h.deleted b n hb).1, fun hn => hself b ((h.deleted b n hb).2 hn)⟩
    · obtain ⟨rfl, rfl⟩ := Prod.mk.inj (List.mem_singleton.1 hb)
      exact ⟨le_rfl, fun _ => Function.update_self ..⟩

omit [DecidableEq τ] in
theorem ledger_spec {act : Act A} (h : Inv q s f) (hL : Ledger s)
    (hn : next act s (f t) = some (s', x)) : Ledger s' := by
  have hp := h.placed t
  have hown := fun a => h.own_allocated (t := t) (a := a)
  revert hn
  generalize f t = y at hp hown
  fun_cases next act s y <;> intro hn <;> cases hn
  case case2 => exact hL.make
  case case8 => exact hL.delete (h.allocated _ hp.1.mem.1)
  case case9 => exact hL.delete (h.allocated _ hp.1.mem.1)
  case case15 => exact hL.delete (hown _ rfl)
  case case19 => exact hL.delete (hown _ rfl)
  all_goals exact ⟨hL.nodup, hL.deleted⟩

variable {c : Conf τ (Shared A) (PC A)}

/-- A pointer that may still be followed. -/
inductive Pointer (c : Conf τ (Shared A) (PC A)) (a : A) : Prop
  | tail (h : c.shared.mTail = some a)
  | pred (b : A) (hb : c.shared.allocated b = true) (h : c.shared.mPred b = .node a)
  | own (t : τ) (h : (c.pc t).own = some a)
  | other (t : τ) (h : a ∈ (c.pc t).pred)

/-- As no pointer leads to a deleted node in any state, none leads to another node that is made at
the address later. -/
structure Safe (c : Conf τ (Shared A) (PC A)) : Prop where
  exclusive : ∀ t u, (c.pc t).holds = true → (c.pc u).holds = true → t = u
  once : c.shared.deleted.Nodup
  pointers : ∀ a, Pointer c a → c.shared.allocated a = true

theorem inv_reach (h : (system (τ := τ)).Reachable c) :
    (∃ q, Inv q c.shared c.pc) ∧ Ledger c.shared := by
  refine h.induct (P := fun c => (∃ q, Inv q c.shared c.pc) ∧ Ledger c.shared) ?_ ?_
  · rintro ⟨s, f⟩ ⟨rfl, rfl⟩
    exact ⟨⟨[], List.nodup_nil, rfl, nofun, nofun, nofun, nofun, nofun, fun _ => trivial⟩,
      List.nodup_nil, nofun⟩
  · rintro c ⟨t, act⟩ c' - ⟨⟨q, h⟩, hL⟩ - hs
    obtain ⟨s', x, hn, rfl⟩ := Program.step_eq_some.1 hs
    exact ⟨next_spec h hn, ledger_spec h hL hn⟩

omit [DecidableEq τ] [DecidableEq A] in
/-- The node that the holder has, or is about to put first. -/
theorem Inv.holder (h : Inv q s f) (ht : (f t).holds = true) :
    ∃ a b, (f t).own = some a ∧ q.head? = some b ∧
      (a = b ∧ s.mPred b = .null ∨ Adjacent q b a ∧ s.mPred b = .avaiable) := by
  have hp := h.placed t
  have hnull := h.null t
  cases hf : f t <;> rw [hf] at ht hp hnull <;> cases ht
  case take a b => exact ⟨a, b, rfl, h.avaiable b hp.1.mem.1 hp.2, .inr hp⟩
  case held a => exact ⟨a, a, rfl, hp, .inl ⟨rfl, hnull a rfl⟩⟩
  case release a => exact ⟨a, a, rfl, hp, .inl ⟨rfl, hnull a rfl⟩⟩

theorem safe (h : (system (τ := τ)).Reachable c) : Safe c := by
  obtain ⟨⟨q, h⟩, hL⟩ := inv_reach h
  refine ⟨fun t u ht hu => ?_, hL.nodup, fun a ha => ?_⟩
  · obtain ⟨a, b, hta, hb, hab⟩ := h.holder ht
    obtain ⟨a', b', hua, hb', hab'⟩ := h.holder hu
    obtain rfl := Option.some.inj (hb.symm.trans hb')
    refine h.apart t u a hta (hua.trans (congrArg some ?_))
    rcases hab with ⟨rfl, h1⟩ | ⟨h1, h2⟩ <;> rcases hab' with ⟨rfl, h3⟩ | ⟨h3, h4⟩
    · rfl
    · cases h1.symm.trans h4
    · cases h3.symm.trans h2
    · exact h3.right_unique h.nodup h1
  · cases ha with
    | tail ha =>
      rw [h.tail] at ha
      exact h.allocated a (List.mem_of_getLast? ha)
    | pred b hb ha => exact h.allocated a (h.pred b a hb ha).mem.1
    | own t ha => exact h.own_allocated ha
    | other t ha =>
      have hp := h.placed t
      cases hf : c.pc t <;> rw [hf] at ha hp <;> simp only [PC.pred, List.mem_cons,
        List.not_mem_nil, or_false] at ha
      case take => exact h.allocated a (ha ▸ hp.1.mem.1)
      case skip node p pp =>
        have hmem := h.allocated p hp.1.mem.1
        rcases ha with rfl | rfl
        · exact hmem
        · exact h.allocated a (h.pred p a hmem hp.2).mem.1
      all_goals exact h.allocated a (ha ▸ (Adjacent.mem hp).1)

/-- Thread 1 gives up between two others, thread 2 deletes its node, and thread 1 gets the address
again for its next one. -/
theorem safe_reuse : ∃ c : Conf (Fin 3) (Shared ℕ) (PC ℕ), c.pc 2 = .held 2 ∧
    c.shared.deleted = [(1, 1), (0, 1)] ∧ c.pc 1 = .clock 1 2 ∧ Safe c := by
  let run (t : Fin 3) (n : ℕ) : List (Fin 3 × Act ℕ) := List.replicate n (t, .run)
  let as := (0, .alloc 0) :: run 0 2 ++ (1, .alloc 1) :: run 1 4 ++ (2, .alloc 2) :: run 2 3 ++
    [(1, .expire)] ++ run 1 2 ++ run 2 2 ++ (1, .alloc 1) :: run 1 4 ++ run 0 2 ++ run 2 3
  have hex : ∃ c : Conf (Fin 3) (Shared ℕ) (PC ℕ),
    system.exec ⟨initial, fun _ => .idle⟩ as = some c ∧
      c.pc 2 = .held 2 ∧ c.shared.deleted = [(1, 1), (0, 1)] ∧ c.pc 1 = .clock 1 2 :=
    ⟨_, rfl, rfl, rfl, rfl⟩
  obtain ⟨c, hc, h1, h2, h3⟩ := hex
  have hr : (system (τ := Fin 3)).Reachable c := .exec (.init ⟨rfl, rfl⟩) hc
  exact ⟨c, h1, h2, h3, safe hr⟩

end CLHTimeOutQueueLock

end ConcurrencySandbox

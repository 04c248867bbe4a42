import ConcurrencySandbox.HazardPointer.Client
import ConcurrencySandbox.LockFreeStack.Basic
import ConcurrencySandbox.Structures.Chain

/-!
# The stack is linearizable

A `pop` compares only the address of the head and stores an `mNext` it read before. A node that was
the head while the thread's slot held it is not freed, and a node keeps its `mNext` from its `push`
until it is freed, so if it is the head again it was never removed and `mNext` is the one read.
`stack_linearizable` follows from what every step does to the nodes (`Effect`).
-/

namespace ConcurrencySandbox

open Interleaving Structures HazardPointer

namespace LockFreeStack

variable {τ A T : Type*}

def Shared.links (s : Shared τ A T) (a : A) : Option A := (s.heap a).mNext

def Shared.data (s : Shared τ A T) (a : A) : Option T := (s.heap a).mData

structure Shape (n : Lifetimes τ A) (s : Shared τ A T) : Prop where
  nodes : n.Valid s.allocated
  chain : ∃ q, Seg s.links s.mHead q none ∧ (∀ a, a ∈ n.linked ↔ a ∈ q) ∧
    Stack.Leaves (s.history.map Prod.snd) (q.map s.data)
  full : ∀ a ∈ n.linked, s.data a ≠ none

/-- What a step of thread `t` does to the nodes, as far as the other threads rely on it: a published
node keeps its link, and their own nodes are as they were. -/
structure Effect [DecidableEq τ] [DecidableEq A] (t : τ) (n : Lifetimes τ A)
    (e : Lifetimes.Event τ A) (s s' : Shared τ A T) : Prop where
  shape : Shape (n.apply e) s'
  enabled : n.Enabled s.allocated e
  thread : ∀ u, e.thread = some u → u = t
  own : ∀ u a, u ≠ t → n.owner a = some u → s'.heap a = s.heap a
  links : ∀ a, n.Published a → s'.links a = s.links a
  history : ∀ u, u ≠ t → eventsOf u s'.history = eventsOf u s.history
  returned : ∀ u, u ≠ t → eventsOf u s'.returned = eventsOf u s.returned

/-- What the thread's place says of the nodes. -/
def Placed (n : Lifetimes τ A) (s : Shared τ A T) (t : τ) : PC τ A T → Prop
  | .pushLoad val a | .pushCas val a => n.Private t a ∧ s.data a = some val
  | .popCheck h => n.hazards.pointer (t, 0) = h
  | .popNext a => n.Claimed t a
  | .popCas a next => n.Claimed t a ∧ s.links a = next
  | .popRelease (some a) | .popSwap a => n.Taken t a ∧ s.data a ≠ none
  | .popRetire a ans => n.Taken t a ∧ ans ≠ none
  | .retiring _ ans => ans ≠ none
  | _ => True

/-- What a thread has done in its call and not returned from. -/
def pending (s : Shared τ A T) : PC τ A T → List (Event (Option T))
  | .pushed val => [.push (some val)]
  | .popRelease (some a) | .popSwap a => [.pop (s.data a)]
  | .popRetire _ ans | .retiring _ ans => [.pop ans]
  | .popped (some ans) => [.pop (some ans)]
  | _ => []

/-- Each successful `compare_exchange` is that of one call. -/
def Accounted [DecidableEq τ] (s : Shared τ A T) (t : τ) (p : PC τ A T) : Prop :=
  eventsOf t s.history = eventsOf t s.returned ++ pending s p

def frameOf : PC τ A T → Frame τ A
  | .domain f | .retiring f _ => f
  | _ => .ready

variable {n : Lifetimes τ A} {s s' : Shared τ A T} {t u : τ} {a b : A} {p p' : PC τ A T}

section Others

variable [DecidableEq τ] [DecidableEq A] {e : Lifetimes.Event τ A}

theorem Effect.foreign (hE : Effect t n e s s') (hu : u ≠ t) : e.thread ≠ some u :=
  fun h => hu (hE.thread u h)

theorem Effect.no_store (hE : Effect t n e s s') (hu : u ≠ t) (i : ℕ) (v : Option A) :
    e ≠ .store u i v := by
  rintro rfl
  exact hE.foreign hu rfl

theorem Effect.data (hE : Effect t n e s s') (hu : u ≠ t) (ha : n.owner a = some u) :
    s'.data a = s.data a := congrArg Node.mData (hE.own u a hu ha)

/-- Another thread's place survives. -/
theorem Placed.effect (h : Placed n s u p) (hn : n.Valid s.allocated) (hE : Effect t n e s s')
    (hu : u ≠ t) : Placed (n.apply e) s' u p := by
  have hth := hE.foreign hu
  cases p with
  | pushLoad val a | pushCas val a =>
    exact ⟨h.1.apply hn hE.enabled hth, (hE.data hu h.1.1).trans h.2⟩
  | popCheck v => exact (Lifetimes.pointer_apply (hE.no_store hu)).trans h
  | popNext a => exact Lifetimes.Claimed.apply h hn hE.enabled (hE.no_store hu)
  | popCas a next => exact ⟨h.1.apply hn hE.enabled (hE.no_store hu), (hE.links a h.1.1).trans h.2⟩
  | popRelease v =>
    cases v with
    | none => trivial
    | some a => exact ⟨h.1.apply hn hE.enabled hth, (hE.data hu h.1.1).trans_ne h.2⟩
  | popSwap a => exact ⟨h.1.apply hn hE.enabled hth, (hE.data hu h.1.1).trans_ne h.2⟩
  | popRetire a ans => exact ⟨h.1.apply hn hE.enabled hth, h.2⟩
  | retiring f ans => exact h
  | domain _ | pushNew _ | pushed _ | popLoad | popStore _ | popped _ => trivial

theorem Accounted.effect (h : Accounted s u p) (hp : Placed n s u p) (hE : Effect t n e s s')
    (hu : u ≠ t) : Accounted s' u p := by
  have hpend : pending s' p = pending s p := by
    unfold pending
    split
    · rfl
    · rw [hE.data hu hp.1.1]
    · rw [hE.data hu hp.1.1]
    all_goals rfl
  unfold Accounted
  rw [hE.history u hu, hE.returned u hu, hpend]
  exact h

end Others

section Specs

variable [DecidableEq τ] [DecidableEq A] {e : Lifetimes.Event τ A}

/-- A step that leaves the chain as it is, and of the allocated nodes changes only the thread's
own. -/
theorem Shape.keep (hG : Shape n s) (he : n.Enabled s.allocated e)
    (ht : ∀ u, e.thread = some u → u = t) (hlinked : (n.apply e).linked = n.linked)
    (hmem : s'.allocated = e.memory s.allocated) (hhead : s'.mHead = s.mHead)
    (hhist : s'.history = s.history)
    (hheap : ∀ a, s.allocated a = true → n.owner a ≠ some t → s'.heap a = s.heap a)
    (htaken : ∀ a, n.Taken t a → s'.links a = s.links a)
    (hret : ∀ u, u ≠ t → eventsOf u s'.returned = eventsOf u s.returned) : Effect t n e s s' := by
  have hl : ∀ a ∈ n.linked, s'.heap a = s.heap a := fun a ha =>
    hheap a (hG.nodes.allocated a (.inl (.inl ha))) (by simp [(hG.nodes.linked a ha).1])
  refine ⟨⟨hmem ▸ hG.nodes.apply he, ?_, fun a ha => ?_⟩, he, ht,
    fun u a hu ha => ?_, fun a ha => ?_,
    fun u _ => by rw [hhist], hret⟩
  · obtain ⟨q, hq, hmem, hleaves⟩ := hG.chain
    refine ⟨q, hhead ▸ hq.congr fun a ha => ?_, hlinked ▸ hmem, ?_⟩
    · exact congrArg Node.mNext (hl a ((hmem a).2 ha))
    · have hdata : q.map s'.data = q.map s.data := List.map_congr_left fun a ha =>
        congrArg Node.mData (hl a ((hmem a).2 ha))
      rw [hhist, hdata]
      exact hleaves
  · rw [hlinked] at ha
    exact (congrArg Node.mData (hl a ha)).trans_ne (hG.full a ha)
  · exact hheap a (hG.nodes.allocated a (.inr (by simp [ha]))) (by simp [ha, hu])
  · rcases ha with ha | ha
    · exact congrArg Node.mNext (hl a ha)
    · by_cases ho : n.owner a = some t
      · exact htaken a ⟨ho, ha⟩
      · exact congrArg Node.mNext (hheap a (hG.nodes.allocated a (.inl (.inr ha))) ho)

/-- A step that changes no node. -/
theorem Shape.quiet (hG : Shape n s) (he : n.Enabled s.allocated e)
    (ht : ∀ u, e.thread = some u → u = t) (hlinked : (n.apply e).linked = n.linked)
    (hmem : s'.allocated = e.memory s.allocated) (hhead : s'.mHead = s.mHead)
    (hhist : s'.history = s.history) (hheap : s'.heap = s.heap)
    (hret : ∀ u, u ≠ t → eventsOf u s'.returned = eventsOf u s.returned) : Effect t n e s s' :=
  hG.keep he ht hlinked hmem hhead hhist (fun a _ _ => congrFun hheap a)
    (fun a _ => congrArg Node.mNext (congrFun hheap a)) hret

omit [DecidableEq τ] [DecidableEq A] in
theorem Shape.head_linked (hG : Shape n s) (ha : s.mHead = some a) : a ∈ n.linked := by
  obtain ⟨q, hq, hmem, -⟩ := hG.chain
  rw [ha] at hq
  exact (hmem a).2 hq.head_mem

theorem make_spec (hG : Shape n s) (t : τ) (ha : ¬ s.allocated a = true) (val : T) :
    Effect t n (.make t a) s (s.make a val) ∧ (n.apply (.make t a)).Private t a ∧
      (s.make a val).data a = some val := by
  have hne : ∀ b, s.allocated b = true → b ≠ a := fun b hb hab => ha (hab ▸ hb)
  have hheap : ∀ b, b ≠ a → (s.make a val).heap b = s.heap b :=
    fun b hb => Function.update_of_ne hb _ _
  have he : n.Enabled s.allocated (.make t a) := Bool.eq_false_iff.2 ha
  refine ⟨hG.keep he (fun u hu => (Option.some.inj hu).symm) rfl rfl rfl rfl
    (fun b hb _ => hheap b (hne b hb)) (fun b hb => ?_) fun _ _ => rfl,
    ⟨Function.update_self .., fun hr => ?_⟩, ?_⟩
  · exact congrArg Node.mNext (hheap b (hne b (hG.nodes.allocated b (.inr (by simp [hb.1])))))
  · exact ha (hG.nodes.allocated a (.inl (.inr hr)))
  · simp [Shared.data, Shared.make]

/-- The new node's `mNext` is set to the head. -/
theorem setNext_spec (hG : Shape n s) (ha : n.Private t a) (v : Option A) :
    Effect t n .quiet s (s.setNext a v) := by
  have hheap : ∀ b, b ≠ a → (s.setNext a v).heap b = s.heap b :=
    fun b hb => Function.update_of_ne hb _ _
  refine hG.keep trivial nofun rfl rfl rfl rfl (fun b _ ho => ?_) (fun b hb => ?_) fun _ _ => rfl
  · exact hheap b fun hab => ho (hab ▸ ha.1)
  · exact congrArg Node.mNext (hheap b fun hab => ha.2 (hab ▸ hb.2))

/-- `swap(ans, oldHead->mData)`. -/
theorem setData_spec (hG : Shape n s) (ha : n.Taken t a) (d : Option T) :
    Effect t n .quiet s (s.setData a d) := by
  refine hG.keep trivial nofun rfl rfl rfl rfl (fun b _ ho => ?_) (fun b _ => ?_) fun _ _ => rfl
  · have hba : b ≠ a := fun hab => ho (hab ▸ ha.1)
    exact Function.update_of_ne hba _ _
  · by_cases hba : b = a <;> simp [Shared.links, Shared.setData, hba]

/-- The compare-and-swap of `push`. -/
theorem push_spec (hG : Shape n s) (ha : n.Private t a) {val : T} (hd : s.data a = some val)
    (hh : s.mHead = s.links a) :
    Effect t n (.link t a) s (s.exchange t (some a) (.push (some val))) := by
  obtain ⟨q, hq, hmem, hleaves⟩ := hG.chain
  refine ⟨⟨hG.nodes.apply (e := .link t a) ha, ⟨a :: q, ⟨rfl, ?_⟩, fun b => ?_, ?_⟩,
    fun b hb => ?_⟩, ha,
    fun u hu => (Option.some.inj hu).symm, fun _ _ _ _ => rfl, fun _ _ => rfl,
    fun u hu => eventsOf_concat_of_ne hu _ _, fun _ _ => rfl⟩
  · exact hh ▸ hq
  · simp [Lifetimes.apply, hmem]
  · show Stack.Leaves (List.map Prod.snd (s.history ++ [(t, .push (some val))]))
      (s.data a :: q.map s.data)
    rw [List.map_append, hd]
    exact hleaves.push _
  · rcases hb with rfl | hb
    · exact hd ▸ Option.some_ne_none val
    · exact hG.full b hb

/-- The compare-and-swap of `pop`: the head is claimed, so it was not removed since its `mNext` was
read. -/
theorem pop_spec (hG : Shape n s) (t : τ) (hh : s.mHead = some a) :
    Effect t n (.remove t a) s (s.exchange t (s.links a) (.pop (s.data a))) ∧
      (n.apply (.remove t a)).Taken t a ∧ s.data a ≠ none := by
  obtain ⟨q, hq, hmem, hleaves⟩ := hG.chain
  rw [hh] at hq
  cases q with
  | nil => cases hq
  | cons b q =>
    obtain rfl : a = b := Option.some.inj hq.1
    have hnd := List.nodup_cons.1 hq.nodup
    have ha : a ∈ n.linked := (hmem a).2 List.mem_cons_self
    refine ⟨⟨⟨hG.nodes.apply (e := .remove t a) ha, ⟨q, hq.2, fun b => ?_, ?_⟩,
      fun b hb => hG.full b hb.1⟩, ha, fun u hu => (Option.some.inj hu).symm, fun _ _ _ _ => rfl,
      fun _ _ => rfl, fun u hu => eventsOf_concat_of_ne hu _ _, fun _ _ => rfl⟩,
      ⟨Function.update_self .., Set.mem_insert _ _⟩, hG.full a ha⟩
    · simp only [Lifetimes.apply, Set.mem_sdiff, Set.mem_singleton_iff, hmem, List.mem_cons]
      constructor
      · rintro ⟨rfl | hb, hba⟩
        · exact absurd rfl hba
        · exact hb
      · exact fun hb => ⟨.inr hb, fun hba => hnd.1 (hba ▸ hb)⟩
    · show Stack.Leaves (List.map Prod.snd (s.history ++ [(t, .pop (s.data a))])) (q.map s.data)
      rw [List.map_append]
      exact hleaves.pop

end Specs

section Steps

variable [DecidableEq τ] [DecidableEq A] {e : Lifetimes.Event τ A} {f : τ → PC τ A T}
  {act : Act A T} {ok : Bool} {fr fr' : Frame τ A}

theorem domainStep_spec (hG : Shape n s) (hR : Refines 1 s.domain (frameOf ∘ f) n.hazards)
    (hf : frameOf (f t) = fr) (hs : s.domainStep t ok fr = some (s', fr')) :
    ∃ e, Effect t n e s s' ∧
      Refines 1 s'.domain (Function.update (frameOf ∘ f) t fr') (n.apply e).hazards ∧
        s'.heap = s.heap ∧ s'.history = s.history ∧ s'.returned = s.returned := by
  revert hs
  unfold Shared.domainStep
  split
  · rename_i d f' b hd
    rintro ⟨⟩
    obtain ⟨he, ht, hR'⟩ := hR.domainStep hf hd s.allocated
    exact ⟨_, hG.quiet he ht rfl rfl rfl rfl rfl fun _ _ => rfl, hR', rfl, rfl, rfl⟩
  · rename_i d f' e hne hd
    rintro ⟨⟩
    obtain ⟨he, ht, hR'⟩ := hR.domainStep hf hd s.allocated
    have hmem : (Lifetimes.Event.ofHazard t e).memory s.allocated = s.allocated := by
      cases e with
      | free a => exact absurd rfl (hne a)
      | _ => rfl
    exact ⟨_, hG.quiet he ht (by simp) hmem.symm rfl rfl rfl fun _ _ => rfl, hR', rfl, rfl, rfl⟩
  · simp

/-- What the step theorem says of the thread that moved. -/
def Moves (n : Lifetimes τ A) (s : Shared τ A T) (t : τ) (f : τ → PC τ A T) (s' : Shared τ A T)
    (p' : PC τ A T) : Prop :=
  ∃ e, Effect t n e s s' ∧
    Refines 1 s'.domain (Function.update (frameOf ∘ f) t (frameOf p')) (n.apply e).hazards ∧
    Placed (n.apply e) s' t p' ∧ Accounted s' t p'

/-- A step outside the domain. -/
theorem Moves.call (hR : Refines 1 s.domain (frameOf ∘ f) n.hazards) (hE : Effect t n e s s')
    (he : e.hazard = .skip) (hd : s'.domain = s.domain) (hf : frameOf (f t) = frameOf p')
    (hp : Placed (n.apply e) s' t p') (ha : Accounted s' t p') : Moves n s t f s' p' := by
  refine ⟨e, hE, ?_, hp, ha⟩
  rw [hd, Lifetimes.apply_hazards, he]
  exact hR.stay hf

/-- A step that neither reads nor changes the nodes. -/
theorem Moves.stay (hG : Shape n s) (hR : Refines 1 s.domain (frameOf ∘ f) n.hazards)
    (hf : frameOf (f t) = frameOf p') (hp : Placed n s t p') (ha : Accounted s t p') :
    Moves n s t f s p' :=
  .call hR (hG.quiet (e := .quiet) trivial nofun rfl rfl rfl rfl rfl
  fun _ _ => rfl) rfl rfl hf hp ha

theorem Moves.storeHp (hG : Shape n s) (hR : Refines 1 s.domain (frameOf ∘ f) n.hazards)
    (hf : frameOf (f t) = .ready) {v : Option A} (hf' : frameOf p' = .ready)
    (hp : Placed (n.apply (.store t 0 v)) (s.storeHp t v) t p')
    (ha : Accounted (s.storeHp t v) t p') : Moves n s t f (s.storeHp t v) p' :=
  ⟨.store t 0 v, hG.quiet trivial (fun _ hu => (Option.some.inj hu).symm) rfl rfl rfl rfl rfl
    fun _ _ => rfl, hf' ▸ hR.storeHp hf Nat.one_pos v, hp, ha⟩

section Accounts

omit [DecidableEq A]

/-- A step to the same history and answers. -/
theorem Accounted.to (h : Accounted s t p) (hp : pending s' p' = pending s p)
    (hh : s'.history = s.history) (hr : s'.returned = s.returned) : Accounted s' t p' := by
  unfold Accounted
  rw [hh, hr, hp]
  exact h

theorem Accounted.exchange (h : Accounted s t p) {head : Option A} {ev : Event (Option T)}
    (hp : pending s p = []) (hp' : pending (s.exchange t head ev) p' = [ev]) :
    Accounted (s.exchange t head ev) t p' := by
  unfold Accounted at h ⊢
  rw [hp', Shared.exchange, eventsOf_concat_self, h, hp, List.append_nil]

theorem Accounted.answer (h : Accounted s t p) {ev : Event (Option T)}
    (hp : pending s p = [ev]) (hp' : pending (s.answer t ev) p' = []) :
    Accounted (s.answer t ev) t p' := by
  unfold Accounted at h ⊢
  rw [hp', Shared.answer, eventsOf_concat_self, h, hp, List.append_nil]

end Accounts

theorem Moves.answer (hG : Shape n s) (hR : Refines 1 s.domain (frameOf ∘ f) n.hazards)
    (hf : frameOf (f t) = .ready) {ev : Event (Option T)} (ha : Accounted s t p)
    (hp : pending s p = [ev]) : Moves n s t f (s.answer t ev) (.domain .ready) :=
  .call hR (hG.quiet (e := .quiet) trivial nofun rfl rfl rfl rfl rfl fun _ hu =>
    eventsOf_concat_of_ne hu _ _) rfl rfl hf trivial (ha.answer hp rfl)

theorem moves_call (hG : Shape n s) (hR : Refines 1 s.domain (frameOf ∘ f) n.hazards)
    (hf : frameOf (f t) = frameOf p) (hp : Placed n s t p) (ha : Accounted s t p)
    (hn : nextCall t act s p = some (s', p')) : Moves n s t f s' p' := by
  revert hn
  fun_cases nextCall t act s p <;> intro hn <;> cases hn
  · -- pushNew
    rename_i hal
    obtain ⟨hE, hnew⟩ := make_spec hG t hal _
    exact .call hR hE rfl rfl hf hnew (ha.to rfl rfl rfl)
  · exact .call hR (setNext_spec hG hp.1 _) rfl rfl hf
      ⟨hp.1, by simpa [Shared.data, Shared.setNext] using hp.2⟩
      (ha.to rfl rfl rfl)
  · -- the exchange of push
    rename_i hcas
    exact .call hR (push_spec hG hp.1 hp.2 hcas.2) rfl rfl hf trivial (ha.exchange rfl rfl)
  · exact .call hR (setNext_spec hG hp.1 _) rfl rfl hf
      ⟨hp.1, by simpa [Shared.data, Shared.setNext] using hp.2⟩
      (ha.to rfl rfl rfl)
  · exact .answer hG hR hf ha rfl
  · exact .stay hG hR hf trivial (ha.to rfl rfl rfl)
  · refine .storeHp hG hR hf rfl ?_ (ha.to rfl rfl rfl)
    simp [Placed, Lifetimes.apply, Hazards.apply]
  · -- the head is still in the slot
    rename_i hh
    exact .stay hG hR hf (hG.nodes.claimed hp (hG.head_linked hh)) (ha.to rfl rfl rfl)
  · exact .stay hG hR hf trivial (ha.to rfl rfl rfl)
  · exact .stay hG hR hf trivial (ha.to rfl rfl rfl)
  · exact .stay hG hR hf ⟨hp, rfl⟩ (ha.to rfl rfl rfl)
  · -- the exchange of pop
    rename_i hh
    obtain ⟨-, rfl⟩ := hp
    obtain ⟨hE, htaken, hd⟩ := pop_spec hG t hh
    exact .call hR hE rfl rfl hf ⟨htaken, hd⟩ (ha.exchange rfl rfl)
  · exact .stay hG hR hf trivial (ha.to rfl rfl rfl)
  · exact .storeHp hG hR hf rfl hp (ha.to rfl rfl rfl)
  · exact .storeHp hG hR hf rfl trivial (ha.to rfl rfl rfl)
  · exact .call hR (setData_spec hG hp.1 _) rfl rfl hf hp (ha.to rfl rfl rfl)
  · -- retire
    rename_i a ans _
    obtain ⟨htaken, hans⟩ := hp
    refine ⟨.retire t a, hG.quiet htaken (fun _ hu => (Option.some.inj hu).symm) rfl rfl rfl rfl rfl
      fun _ _ => rfl, hR.retire hf ?_, hans, ha.to rfl rfl rfl⟩
    exact hG.nodes.not_retired (by simp [htaken.1])
  · obtain ⟨v, rfl⟩ := Option.ne_none_iff_exists'.1 hp
    exact .stay hG hR hf trivial (ha.to rfl rfl rfl)
  · rename_i hs
    obtain ⟨e, hE, hR', -, hh, hr⟩ := domainStep_spec hG hR hf hs
    exact ⟨e, hE, hR', hp, ha.to rfl hh hr⟩
  · exact .stay hG hR hf trivial (ha.to rfl rfl rfl)
  · exact .answer hG hR hf ha rfl

theorem moves_step (hG : Shape n s) (hR : Refines 1 s.domain (frameOf ∘ f) n.hazards)
    (hf : frameOf (f t) = frameOf p) (hp : Placed n s t p) (ha : Accounted s t p)
    (hn : next t act s p = some (s', p')) : Moves n s t f s' p' := by
  revert hn
  fun_cases next t act s p <;> intro hn
  · cases hn
    exact .stay hG hR hf trivial (ha.to rfl rfl rfl)
  · cases hn
    exact .stay hG hR hf trivial (ha.to rfl rfl rfl)
  · rename_i listFirst
    cases hn
    exact ⟨.quiet, hG.quiet trivial nofun rfl rfl rfl rfl rfl fun _ _ => rfl,
      hR.exit hf listFirst, trivial, ha.to rfl rfl rfl⟩
  · rename_i hs
    cases hn
    obtain ⟨e, hE, hR', -, hh, hr⟩ := domainStep_spec hG hR hf hs
    exact ⟨e, hE, hR', trivial, ha.to rfl hh hr⟩
  · cases hn
  · cases hn
  · exact moves_call hG hR hf hp ha hn

end Steps

variable [DecidableEq τ] [DecidableEq A] {c : Conf τ (Shared τ A T) (PC τ A T)}

/-- In every state of a run: the nodes, the hazard slots, and what every thread relies on. -/
def Sound (n : Lifetimes τ A) (c : Conf τ (Shared τ A T) (PC τ A T)) : Prop :=
  Shape n c.shared ∧ Refines 1 c.shared.domain (frameOf ∘ c.pc) n.hazards ∧
    ∀ t, Placed n c.shared t (c.pc t) ∧ Accounted c.shared t (c.pc t)

theorem sound_reach (h : system.Reachable c) : ∃ n, Sound n c := by
  refine h.induct (P := fun c => ∃ n, Sound n c) ?_ ?_
  · rintro ⟨s, f⟩ ⟨rfl, rfl⟩
    refine ⟨⟨⟨fun _ => none, ∅, fun _ => ∅⟩, ∅, ∅, fun _ => none⟩,
      ⟨⟨?_, ?_, ?_⟩, ⟨[], rfl, ?_, .nil⟩, ?_⟩, Refines.init 1, fun _ => ⟨trivial, rfl⟩⟩ <;>
      simp [Lifetimes.Published]
  · rintro c ⟨t, act⟩ c' - ⟨n, hG, hR, hp⟩ - hs
    obtain ⟨s', p', hn, rfl⟩ := Program.step_eq_some.1 hs
    obtain ⟨e, hE, hR', hp'⟩ := moves_step hG hR rfl (hp t).1 (hp t).2 hn
    refine ⟨n.apply e, hE.shape, by rwa [Function.comp_update],
      Program.forall_update (L := fun u p => Placed _ s' u p ∧ Accounted s' u p) hp' fun u hu => ?_⟩
    exact ⟨(hp u).1.effect hG.nodes hE hu, (hp u).2.effect (hp u).1 hE hu⟩

/-- The stack: what the nodes from `mHead` on hold. -/
def Contents (s : Shared τ A T) (l : List (Option T)) : Prop :=
  ∃ q, Seg s.links s.mHead q none ∧ q.map s.data = l

/-- The exchanges so far are pushes and pops of the stack from `mHead`, each is that of one call,
and what was returned was pushed, no more often. -/
structure Linearized (c : Conf τ (Shared τ A T) (PC τ A T)) : Prop where
  stack : ∃ l, Contents c.shared l ∧ Stack.Leaves (c.shared.history.map Prod.snd) l
  calls : ∀ t, Accounted c.shared t (c.pc t)
  once : ((c.shared.returned.map Prod.snd).filterMap Event.popped?).Subperm
    ((c.shared.history.map Prod.snd).filterMap Event.pushed?)

end LockFreeStack

end ConcurrencySandbox

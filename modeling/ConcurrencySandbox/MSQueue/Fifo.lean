import ConcurrencySandbox.Interleaving.Calls
import ConcurrencySandbox.MSQueue.Safety

/-!
# The queue is first in, first out, when no address is used twice

`push` stores its value in the last node and leaves it to whoever comes first to link the next one.
`Order` keeps all the nodes ever linked, with the positions of `mHead` and `mTail` in them: every
node but the last has a successor and a value, the last may have a value already, and both positions
only move on. A head a `tryPop` has loaded is not ahead of `mHead`, so if it is not `mTail` then
`mTail` is ahead of it for good. Nothing here depends on the hazard pointers.
-/

namespace ConcurrencySandbox

open Interleaving Structures HazardPointer

namespace MSQueue

variable {τ A V : Type*}

section Events

variable [DecidableEq A]

/-- The call of a `push`. -/
def begun (act : Act A V) (pc : PC τ A V) : List (Option V) :=
  match act, pc with
  | .push val, .domain .ready => [some val]
  | _, _ => []

/-- The step that puts a value into the queue or takes one out. -/
def commit (act : Act A V) (s : Shared τ A V) (pc : PC τ A V) : List (Event (Option V)) :=
  match pc, act with
  | .pushData val _ tail, .run _ =>
    if (s.heap tail).mData.isNone then [.push (some val)] else []
  | .popCas _ head _, .run _ => if s.mHead = some head then [.pop (s.heap head).mData] else []
  | _, _ => []

/-- The return of a `tryPop` that has taken a value. -/
def answer (act : Act A V) (pc : PC τ A V) : List (Option V) :=
  match pc, act with
  | .popped (some ans), .run _ => [some ans]
  | _, _ => []

end Events

/-- What a `push` was called with and has not put into the queue. -/
def owed : PC τ A V → List (Option V)
  | .pushNew val | .pushTail val _ | .pushStore val _ _ | .pushCheck val _ _ | .pushData val _ _
  | .pushHelp val _ _ | .pushHelpNew val _ _ | .pushHelpSwing val _ _ _ => [some val]
  | _ => []

/-- What a thread has taken and not returned. -/
def pending (s : Shared τ A V) : PC τ A V → List (Option V)
  | .popRead _ head => [s.data head]
  | .popRelease _ _ ans | .popRetire _ _ ans | .retiring _ _ ans => [ans]
  | .popDelete _ (some ans) | .popped (some ans) => [some ans]
  | _ => []

/-- All nodes ever linked, where `mHead` and `mTail` are in them, and who made a node. -/
structure Order (τ A : Type*) where
  nodes : List A
  head : ℕ
  tail : ℕ
  owner : A → Option τ

namespace Order

structure Valid (o : Order τ A) (s : Shared τ A V) : Prop where
  nodup : o.nodes.Nodup
  links : ∀ {k a}, o.nodes[k]? = some a → s.links a = o.nodes[k + 1]?
  full : ∀ a ∈ o.nodes, s.links a ≠ none → s.data a ≠ none
  head : s.mHead = o.nodes[o.head]?
  tail : s.mTail = o.nodes[o.tail]?
  head_le : o.head ≤ o.tail
  tail_lt : o.tail < o.nodes.length

/-- The values in the queue. -/
def content (o : Order τ A) (s : Shared τ A V) : List V := (o.nodes.drop o.head).filterMap s.data

/-- The address was allocated. -/
def Known (o : Order τ A) (a : A) : Prop := a ∈ o.nodes ∨ o.owner a ≠ none

/-- A new node the thread has not linked. -/
def Private (o : Order τ A) (s : Shared τ A V) (t : τ) (a : A) : Prop :=
  o.owner a = some t ∧ a ∉ o.nodes ∧ s.heap a = ⟨none, none⟩

def PrivateOpt (o : Order τ A) (s : Shared τ A V) (t : τ) (n : Option A) : Prop :=
  ∀ a, n = some a → Private o s t a

/-- A node that was the head. -/
def Passed (o : Order τ A) (p : Option A) : Prop := ∃ k ≤ o.head, p = o.nodes[k]?

/-- A node that `mTail` has passed. -/
def Behind (o : Order τ A) (p : Option A) : Prop := ∃ k < o.tail, p = o.nodes[k]?

def Placed (o : Order τ A) (s : Shared τ A V) (t : τ) : PC τ A V → Prop
  | .pushTail _ node | .pushStore _ node _ | .pushCheck _ node _ => Private o s t node
  | .pushData _ node tail => Private o s t node ∧ tail ∈ o.nodes
  | .pushNext node tail | .pushHelp _ node tail =>
    Private o s t node ∧ tail ∈ o.nodes ∧ s.data tail ≠ none
  | .pushSwing _ tail newNext => tail ∈ o.nodes ∧ s.links tail = some newNext
  | .pushHelpNew _ tail newNext => tail ∈ o.nodes ∧ s.links tail = some newNext
  | .pushHelpSwing _ node tail newNext =>
    Private o s t node ∧ tail ∈ o.nodes ∧ s.links tail = some newNext
  | .popHead newTail | .popAgain newTail => PrivateOpt o s t newTail
  | .popStore newTail p | .popTail newTail p | .popStoreTail newTail p | .popTailCheck newTail p =>
    PrivateOpt o s t newTail ∧ Passed o p
  | .popCheck newTail p => PrivateOpt o s t newTail ∧ Behind o p
  | .popHeadNext newTail head => PrivateOpt o s t newTail ∧ Behind o (some head)
  | .popCas newTail head next =>
    PrivateOpt o s t newTail ∧ Behind o (some head) ∧ s.links head = next ∧ next ≠ none
  | .popRead _ head => head ∈ o.nodes ∧ s.data head ≠ none
  | .popRelease _ _ ans | .popRetire _ _ ans | .retiring _ _ ans => ans ≠ none
  | .popData newTail tail => PrivateOpt o s t newTail ∧ Passed o (some tail)
  | .popNext newTail tail => PrivateOpt o s t newTail ∧ tail ∈ o.nodes ∧ s.data tail ≠ none
  | .popNew tail => tail ∈ o.nodes ∧ s.data tail ≠ none
  | .popLink newTail tail => Private o s t newTail ∧ tail ∈ o.nodes ∧ s.data tail ≠ none
  | .popReload newTail tail => Private o s t newTail ∧ tail ∈ o.nodes ∧ s.links tail ≠ none
  | .popSwing newTail tail next =>
    PrivateOpt o s t newTail ∧ tail ∈ o.nodes ∧ s.links tail = next ∧ next ≠ none
  | _ => True

/-- What a step of thread `t` may do, which links the node `x` of its own if any. -/
structure Extends (t : τ) (x : Option A) (o o' : Order τ A) (s s' : Shared τ A V) : Prop where
  nodes : o.nodes <+: o'.nodes
  head : o.head ≤ o'.head
  tail : o.tail ≤ o'.tail
  given : ∀ a, x = some a → o.owner a = some t
  own : ∀ u a, x ≠ some a → Private o s u a → Private o' s' u a
  data : ∀ a ∈ o.nodes, s.data a ≠ none → s'.data a = s.data a
  links : ∀ a ∈ o.nodes, s.links a ≠ none → s'.links a = s.links a

variable {o o' : Order τ A} {s s' : Shared τ A V} {t u : τ} {a b : A} {n p x : Option A}
  {pc pc' : PC τ A V}

theorem getElem?_extends (h : o.nodes <+: o'.nodes) {k : ℕ} (hk : k < o.nodes.length) :
    o'.nodes[k]? = o.nodes[k]? := by
  obtain ⟨l, hl⟩ := h
  rw [← hl, List.getElem?_append_left hk]

theorem Passed.extends (h : Passed o p) (hv : Valid o s) (hE : Extends t x o o' s s') :
    Passed o' p := by
  obtain ⟨k, hk, rfl⟩ := h
  have := hv.head_le
  have := hv.tail_lt
  exact ⟨k, hk.trans hE.head, (getElem?_extends hE.nodes (by omega)).symm⟩

theorem Behind.extends (h : Behind o p) (hv : Valid o s) (hE : Extends t x o o' s s') :
    Behind o' p := by
  obtain ⟨k, hk, rfl⟩ := h
  have := hv.tail_lt
  exact ⟨k, hk.trans_le hE.tail, (getElem?_extends hE.nodes (by omega)).symm⟩

theorem Extends.mem (hE : Extends t x o o' s s') (h : a ∈ o.nodes) : a ∈ o'.nodes :=
  hE.nodes.subset h

theorem Behind.mem (h : Behind o (some a)) : a ∈ o.nodes := by
  obtain ⟨k, -, hk⟩ := h
  exact List.mem_of_getElem? hk.symm

theorem Passed.mem (h : Passed o (some a)) : a ∈ o.nodes := by
  obtain ⟨k, -, hk⟩ := h
  exact List.mem_of_getElem? hk.symm

/-- Another thread's place survives. -/
theorem Placed.extends (h : Placed o s u pc) (hv : Valid o s) (hE : Extends t x o o' s s')
    (hu : u ≠ t) : Placed o' s' u pc := by
  have own : ∀ {a}, Private o s u a → Private o' s' u a := fun h =>
    hE.own u _ (fun hx => hu (Option.some.inj (h.1.symm.trans (hE.given _ hx)))) h
  have opt : ∀ {n}, PrivateOpt o s u n → PrivateOpt o' s' u n := fun h a ha => own (h a ha)
  have data : ∀ {a}, a ∈ o.nodes → s.data a ≠ none → s'.data a ≠ none := fun ha hd =>
    (hE.data _ ha hd).trans_ne hd
  have links : ∀ {a n}, a ∈ o.nodes → s.links a = n → n ≠ none → s'.links a = n :=
    fun ha hl hn => (hE.links _ ha (hl.trans_ne hn)).trans hl
  cases pc with
  | pushTail _ _ | pushStore _ _ _ | pushCheck _ _ _ => exact own h
  | pushData _ _ _ => exact ⟨own h.1, hE.mem h.2⟩
  | pushNext _ _ | pushHelp _ _ _ | popLink _ _ => exact ⟨own h.1, hE.mem h.2.1, data h.2.1 h.2.2⟩
  | pushSwing _ _ _ | pushHelpNew _ _ _ => exact ⟨hE.mem h.1, links h.1 h.2 (Option.some_ne_none _)⟩
  | pushHelpSwing _ _ _ _ =>
    exact ⟨own h.1, hE.mem h.2.1, links h.2.1 h.2.2 (Option.some_ne_none _)⟩
  | popHead _ | popAgain _ => exact opt h
  | popStore _ _ | popTail _ _ | popStoreTail _ _ | popTailCheck _ _ | popData _ _ =>
    exact ⟨opt h.1, h.2.extends hv hE⟩
  | popCheck _ _ | popHeadNext _ _ => exact ⟨opt h.1, h.2.extends hv hE⟩
  | popCas _ _ _ =>
    obtain ⟨h1, h2, h3, h4⟩ := h
    exact ⟨opt h1, h2.extends hv hE, links h2.mem h3 h4, h4⟩
  | popRead _ _ => exact ⟨hE.mem h.1, data h.1 h.2⟩
  | popRelease _ _ _ | popRetire _ _ _ | retiring _ _ _ => exact h
  | popNext _ _ => exact ⟨opt h.1, hE.mem h.2.1, data h.2.1 h.2.2⟩
  | popNew _ => exact ⟨hE.mem h.1, data h.1 h.2⟩
  | popReload _ _ =>
    obtain ⟨h1, h2, h3⟩ := h
    exact ⟨own h1, hE.mem h2, (hE.links _ h2 h3).trans_ne h3⟩
  | popSwing _ _ _ =>
    obtain ⟨h1, h2, h3, h4⟩ := h
    exact ⟨opt h1, hE.mem h2, links h2 h3 h4, h4⟩
  | domain _ | pushNew _ | pushDelete _ | pushRelease | pushed | popEmpty _ | popDelete _ _
  | popped _ => trivial

/-- What another thread has taken stays the same. -/
theorem Placed.pending_eq (h : Placed o s u pc) (hE : Extends t x o o' s s') :
    pending s' pc = pending s pc := by
  unfold pending
  split
  · rw [hE.data _ h.1 h.2]
  all_goals rfl

theorem Valid.congr (hv : Valid o s) (hheap : ∀ a ∈ o.nodes, s'.heap a = s.heap a)
    (hh : s'.mHead = s.mHead) (ht : s'.mTail = s.mTail) : Valid o s' where
  nodup := hv.nodup
  links {_ a} hk :=
    (congrArg Node.mNext (hheap a (List.mem_of_getElem? hk))).trans (hv.links hk)
  full a ha hl := by
    unfold Shared.data
    rw [hheap a ha]
    exact hv.full a ha fun h => hl ((congrArg Node.mNext (hheap a ha)).trans h)
  head := hh.trans hv.head
  tail := ht.trans hv.tail
  head_le := hv.head_le
  tail_lt := hv.tail_lt

theorem content_congr (hheap : ∀ a ∈ o.nodes, s'.data a = s.data a) :
    content o s' = content o s :=
  List.filterMap_congr fun a ha => hheap a (List.mem_of_mem_drop ha)

/-- The node without a successor is the last. -/
theorem Valid.last (hv : Valid o s) (ha : a ∈ o.nodes) (hl : s.links a = none) :
    ∃ q, o.nodes = q ++ [a] ∧ o.head ≤ o.tail ∧ o.tail ≤ q.length ∧ a ∉ q := by
  obtain ⟨k, hk⟩ := List.mem_iff_getElem?.1 ha
  have hk1 := hv.links hk
  rw [hl, eq_comm, List.getElem?_eq_none_iff] at hk1
  have hlt := (List.getElem?_eq_some_iff.1 hk).1
  have hlast : o.nodes.getLast? = some a := by
    rw [List.getLast?_eq_getElem?, show o.nodes.length - 1 = k by omega, hk]
  obtain ⟨q, hq⟩ := List.getLast?_eq_some_iff.1 hlast
  have htail := hv.tail_lt
  have hnd := hv.nodup
  rw [hq] at htail hnd
  simp only [List.length_append, List.length_singleton] at htail
  exact ⟨q, hq, hv.head_le, by omega, fun h => (List.nodup_append.1 hnd).2.2 a h a (by simp) rfl⟩

/-- The end of the queue is where its last node is. -/
theorem Valid.head_links (hv : Valid o s) (hp : Passed o (some a)) (hd : s.data a = none) :
    content o s = [] := by
  have hl : s.links a = none := by
    by_contra hl
    exact hv.full a hp.mem hl hd
  obtain ⟨q, hq, h1, h2, h3⟩ := hv.last hp.mem hl
  obtain ⟨k, hk, hka⟩ := hp
  -- the node's position is the last, and the head's is no smaller
  have hkq : k = q.length := by
    rcases Nat.lt_or_ge k q.length with h | h
    · rw [hq, List.getElem?_append_left h] at hka
      exact absurd (List.mem_of_getElem? hka.symm) h3
    · omega
  unfold content
  rw [hq, show o.head = q.length by omega, List.drop_left]
  simp [hd]

section Specs

variable [DecidableEq A]

theorem make_spec (hv : Valid o s) (t : τ) (ha : ¬ Known o a) :
    ∃ o', Valid o' (s.make a) ∧ Extends t none o o' s (s.make a) ∧
      (∀ b, Known o' b → Known o b ∨ b = a) ∧ Private o' (s.make a) t a ∧
        content o' (s.make a) = content o s := by
  have hheap := s.make_heap a
  have hne : ∀ b ∈ o.nodes, b ≠ a := fun b hb e => ha (.inl (e ▸ hb))
  have hnodes : ∀ b ∈ o.nodes, (s.make a).heap b = s.heap b := fun b hb => hheap b (hne b hb)
  have hv' := hv.congr hnodes rfl rfl
  refine ⟨{ o with owner := Function.update o.owner a (some t) },
    ⟨hv'.nodup, hv'.links, hv'.full, hv'.head, hv'.tail, hv'.head_le, hv'.tail_lt⟩,
    ⟨List.prefix_rfl, le_rfl, le_rfl, nofun, fun u b _ hb => ?_,
    fun b hb _ => ?_, fun b hb _ => ?_⟩,
    fun b hb => ?_, ⟨Function.update_self .., fun h => ha (.inl h), ?_⟩, ?_⟩
  · have hba : b ≠ a := fun e => ha (.inr (by simp [← e, hb.1]))
    exact ⟨(Function.update_of_ne hba _ _).trans hb.1, hb.2.1, (hheap b hba).trans hb.2.2⟩
  · exact congrArg Node.mData (hnodes b hb)
  · exact congrArg Node.mNext (hnodes b hb)
  · by_cases hba : b = a
    · exact .inr hba
    · exact .inl (by simpa [Known, hba] using hb)
  · simp [Shared.make]
  · exact content_congr fun b hb => congrArg Node.mData (hnodes b hb)

/-- The compare-and-swap of `mData` from null. -/
theorem setData_spec (hv : Valid o s) (t : τ) (ha : a ∈ o.nodes) (hd : s.data a = none) (v : V) :
    Valid o (s.setData a (some v)) ∧ Extends t none o o s (s.setData a (some v)) ∧
      (s.setData a (some v)).data a ≠ none ∧
        content o (s.setData a (some v)) = content o s ++ [v] := by
  have hheap := s.setData_heap a (some v)
  have hlinks := s.setData_links a (some v)
  have hdata := s.setData_data a (some v)
  have hself := s.setData_self a (some v)
  have hl : s.links a = none := by
    by_contra hl
    exact hv.full a ha hl hd
  obtain ⟨q, hq, h1, h2, haq⟩ := hv.last ha hl
  refine ⟨⟨hv.nodup, fun hk => (hlinks _).trans (hv.links hk), fun b hb hbl => ?_, hv.head, hv.tail,
    hv.head_le, hv.tail_lt⟩, ⟨List.prefix_rfl, le_rfl, le_rfl, by simp, fun u b _ hb => ?_,
    fun b _ hb => ?_, fun b _ _ => hlinks b⟩, hself.trans_ne (Option.some_ne_none v), ?_⟩
  · by_cases hba : b = a
    · exact hba ▸ hself.trans_ne (Option.some_ne_none v)
    · exact (hdata b hba).trans_ne (hv.full b hb ((hlinks b).symm.trans_ne hbl))
  · have hba : b ≠ a := fun e => hb.2.1 (e ▸ ha)
    exact ⟨hb.1, hb.2.1, (hheap b hba).trans hb.2.2⟩
  · exact hdata b fun e => hb (e ▸ hd)
  · have hcongr : (q.drop o.head).filterMap (s.setData a (some v)).data
        = (q.drop o.head).filterMap s.data := List.filterMap_congr fun b hb =>
      hdata b fun e => haq (e ▸ List.mem_of_mem_drop hb)
    unfold content
    rw [hq, List.drop_append_of_le_length (h1.trans h2), List.filterMap_append,
      List.filterMap_append, hcongr]
    simp [hd, hself]

/-- The compare-and-swap of `mNext` from null. -/
theorem link_spec (hv : Valid o s) (ha : a ∈ o.nodes) (hd : s.data a ≠ none)
    (hl : s.links a = none) (hb : Private o s t b) :
    ∃ o', Valid o' (s.setNext a (some b)) ∧ Extends t (some b) o o' s (s.setNext a (some b)) ∧
      (∀ c, Known o' c → Known o c) ∧ a ∈ o'.nodes ∧ (s.setNext a (some b)).links a = some b ∧
        content o' (s.setNext a (some b)) = content o s := by
  have hheap := s.setNext_heap a (some b)
  have hlinks : ∀ c, c ≠ a → (s.setNext a (some b)).links c = s.links c := fun c hc =>
    congrArg Node.mNext (hheap c hc)
  have hdata := s.setNext_data a (some b)
  have hself : (s.setNext a (some b)).links a = some b := by
    rw [s.setNext_links, Function.update_self]
  obtain ⟨hbo, hbn, hb0⟩ := hb
  have hba : b ≠ a := fun e => hbn (e ▸ ha)
  have hbl : (s.setNext a (some b)).links b = none := by
    rw [hlinks b hba, Shared.links, hb0]
  have hbd : s.data b = none := by rw [Shared.data, hb0]
  obtain ⟨q, hq, h1, h2, haq⟩ := hv.last ha hl
  have hlen : o.nodes.length = q.length + 1 := by simp [hq]
  refine ⟨{ o with nodes := o.nodes ++ [b] }, ⟨?_, fun {k c} hk => ?_, fun c hc hcl => ?_, ?_, ?_,
    hv.head_le, ?_⟩, ⟨List.prefix_append _ _, le_rfl, le_rfl,
    fun c hc => Option.some.inj hc ▸ hbo, fun u c hx hc => ?_, fun c _ _ => hdata c,
    fun c _ hcl => hlinks c fun e => hcl (e ▸ hl)⟩, fun c hc => ?_,
      List.mem_append_left _ ha, hself, ?_⟩
  · refine List.nodup_append.2 ⟨hv.nodup, List.nodup_singleton b, fun c hc d hd' e => ?_⟩
    rw [List.mem_singleton] at hd'
    exact hbn (hd' ▸ e ▸ hc)
  · simp only at hk ⊢
    rcases Nat.lt_trichotomy k q.length with h | rfl | h
    · -- a node with a successor
      rw [List.getElem?_append_left (by omega)] at hk ⊢
      have hca : c ≠ a := fun e => by
        rw [hq, List.getElem?_append_left h] at hk
        exact haq (e ▸ List.mem_of_getElem? hk)
      rw [hlinks c hca, hv.links hk]
    · have hca : a = c := by simpa [hq] using hk
      simp [← hca, hself, hq]
    · have hk1 : k = q.length + 1 := by
        have := (List.getElem?_eq_some_iff.1 hk).1
        simp only [List.length_append, List.length_singleton] at this
        omega
      have hcb : b = c := by simpa [hk1, ← hlen] using hk
      rw [← hcb, hbl, eq_comm, List.getElem?_eq_none_iff]
      simp [hk1, hlen]
  · rw [hdata]
    rcases List.mem_append.1 hc with hc | hc
    · by_cases hca : c = a
      · exact hca ▸ hd
      · exact hv.full c hc ((hlinks c hca).symm.trans_ne hcl)
    · exact absurd (List.mem_singleton.1 hc ▸ hbl) hcl
  · exact hv.head.trans (List.getElem?_append_left (by omega)).symm
  · exact hv.tail.trans (List.getElem?_append_left (by omega)).symm
  · simp only [List.length_append]
    have := hv.tail_lt
    omega
  · have hcb : c ≠ b := fun e => hx (e ▸ rfl)
    have hca : c ≠ a := fun e => hc.2.1 (e ▸ ha)
    refine ⟨hc.1, ?_, (hheap c hca).trans hc.2.2⟩
    simpa [hcb] using hc.2.1
  · rcases hc with hc | hc
    · rcases List.mem_append.1 hc with hc | hc
      · exact .inl hc
      · exact .inr (by simp [List.mem_singleton.1 hc, hbo])
    · exact .inr hc
  · have hle : o.head ≤ o.nodes.length := by omega
    unfold content
    simp only
    rw [List.drop_append_of_le_length hle, List.filterMap_append,
      List.filterMap_congr fun c _ => hdata c]
    simp [hdata, hbd]

/-- `mTail` moves from a node to its successor. -/
theorem swing_spec (hv : Valid o s) (t : τ) (hl : s.links a = n) (hn : n ≠ none) :
    ∃ o', Valid o' (s.swing a n) ∧ Extends t none o o' s (s.swing a n) ∧
      (∀ c, Known o' c → Known o c) ∧ content o' (s.swing a n) = content o s := by
  unfold Shared.swing
  split_ifs with hT
  · have hk : o.nodes[o.tail]? = some a := hv.tail.symm.trans hT
    have hl' := hv.links hk
    rw [hl] at hl'
    have hlt : o.tail + 1 < o.nodes.length := by
      rw [hl', ne_eq, List.getElem?_eq_none_iff] at hn
      omega
    exact ⟨{ o with tail := o.tail + 1 }, ⟨hv.nodup, hv.links, hv.full, hv.head, hl',
      hv.head_le.trans (Nat.le_succ _), hlt⟩, ⟨List.prefix_rfl, le_rfl, Nat.le_succ _, nofun,
      fun _ _ _ h => h, fun _ _ _ => rfl, fun _ _ _ => rfl⟩, fun _ h => h, rfl⟩
  · exact ⟨o, hv, ⟨List.prefix_rfl, le_rfl, le_rfl, nofun, fun _ _ _ h => h, fun _ _ _ => rfl,
      fun _ _ _ => rfl⟩, fun _ h => h, rfl⟩

omit [DecidableEq A] in
/-- The compare-and-swap of `mHead`. -/
theorem pop_spec (hv : Valid o s) (t : τ) (hh : s.mHead = some a) (hb : Behind o (some a))
    (hl : s.links a = n) :
    ∃ o' v, Valid o' { s with mHead := n } ∧ Extends t none o o' s { s with mHead := n } ∧
      (∀ c, Known o' c → Known o c) ∧ a ∈ o'.nodes ∧ s.data a = some v ∧
        content o s = v :: content o' s := by
  obtain ⟨k, hk, hka⟩ := hb
  have hhead : o.nodes[o.head]? = some a := hv.head.symm.trans hh
  have hlt := hv.tail_lt
  obtain rfl : k = o.head := (List.getElem?_inj (by omega) hv.nodup).1 (hka.symm.trans hhead.symm)
  have hn := hv.links hhead
  rw [hl] at hn
  have hne : s.links a ≠ none := by
    rw [hl, hn, ne_eq, List.getElem?_eq_none_iff]
    omega
  obtain ⟨v, hd⟩ := Option.ne_none_iff_exists'.1 (hv.full a (List.mem_of_getElem? hhead) hne)
  refine ⟨{ o with head := o.head + 1 }, v,
    ⟨hv.nodup, hv.links, hv.full, hn, hv.tail, hk, hv.tail_lt⟩,
    ⟨List.prefix_rfl, Nat.le_succ _, le_rfl, nofun, fun _ _ _ h => h, fun _ _ _ => rfl,
      fun _ _ _ => rfl⟩, fun _ h => h, List.mem_of_getElem? hhead, hd, ?_⟩
  obtain ⟨hlt', ha'⟩ := List.getElem?_eq_some_iff.1 hhead
  unfold content
  rw [List.drop_eq_getElem_cons hlt', ha', List.filterMap_cons, hd]

end Specs

section Steps

variable [DecidableEq τ] [DecidableEq A] {act : Act A V}

/-- What the step theorem says of the thread that moved. -/
def Moves (o : Order τ A) (act : Act A V) (t : τ) (s : Shared τ A V) (pc : PC τ A V)
    (s' : Shared τ A V) (pc' : PC τ A V) : Prop :=
  ∃ o' x, Valid o' s' ∧ Extends t x o o' s s' ∧ (∀ a, Known o' a → Known o a ∨ act = .alloc a) ∧
    Placed o' s' t pc' ∧
    (∀ h, Queue.Leaves h ((content o s).map some) →
      Queue.Leaves (h ++ commit act s pc) ((content o' s').map some)) ∧
    pending s pc ++ (commit act s pc).filterMap Event.popped? = answer act pc ++ pending s' pc'

omit [DecidableEq τ] in
/-- A step that does not change the values in the queue. -/
theorem Moves.call {o' : Order τ A} (hv : Valid o' s') (hE : Extends t x o o' s s')
    (hk : ∀ a, Known o' a → Known o a ∨ act = .alloc a) (hp : Placed o' s' t pc')
    (hc : content o' s' = content o s) (hcommit : commit act s pc = [])
    (hpend : pending s pc = answer act pc ++ pending s' pc') : Moves o act t s pc s' pc' := by
  refine ⟨o', x, hv, hE, hk, hp, fun h hl => ?_, ?_⟩
  · rwa [hcommit, hc, List.append_nil]
  · rw [hcommit, hpend]
    simp

omit [DecidableEq τ] in
/-- A step that changes no node. -/
theorem Moves.stay (hv : Valid o s) (hheap : s'.heap = s.heap) (hh : s'.mHead = s.mHead)
    (ht : s'.mTail = s.mTail) (hp : Placed o s' t pc') (hcommit : commit act s pc = [])
    (hpend : pending s pc = answer act pc ++ pending s' pc') : Moves o act t s pc s' pc' := by
  have hdata : ∀ a, s'.data a = s.data a := fun a => congrArg Node.mData (congrFun hheap a)
  refine .call (x := none) (hv.congr (fun a _ => congrFun hheap a) hh ht)
    ⟨List.prefix_rfl, le_rfl, le_rfl, nofun, fun u a _ ha => ?_, fun a _ _ => hdata a,
    fun a _ _ => congrArg Node.mNext (congrFun hheap a)⟩ (fun _ => .inl) hp
    (content_congr fun a _ => hdata a) hcommit hpend
  exact ⟨ha.1, ha.2.1, (congrFun hheap a).trans ha.2.2⟩

theorem domainStep_same {ok : Bool} {f f' : Frame τ A} (hs : s.domainStep t ok f = some (s', f')) :
    s'.heap = s.heap ∧ s'.mHead = s.mHead ∧ s'.mTail = s.mTail := by
  revert hs
  unfold Shared.domainStep
  split <;> rintro ⟨⟩ <;> exact ⟨rfl, rfl, rfl⟩

theorem moves_push (hv : Valid o s) (hp : Placed o s t pc)
    (hfresh : ∀ a, act = .alloc a → ¬ Known o a) (hn : nextPush t act s pc = some (s', pc')) :
    Moves o act t s pc s' pc' := by
  revert hn
  fun_cases nextPush t act s pc <;> intro hn <;> cases hn
  · -- pushNew
    obtain ⟨o', h1, h2, h3, h4, h5⟩ := make_spec hv t (hfresh _ rfl)
    exact .call h1 h2 (fun b hb => (h3 b hb).imp id fun e => by rw [e]) h4 h5 rfl rfl
  · exact .stay hv rfl rfl rfl hp rfl rfl
  · exact .stay hv rfl rfl rfl hp rfl rfl
  · -- the tail is a node
    rename_i hT
    exact .stay hv rfl rfl rfl ⟨hp, List.mem_of_getElem? (hv.tail.symm.trans hT)⟩ rfl rfl
  · exact .stay hv rfl rfl rfl hp rfl rfl
  · -- the value is in the queue
    rename_i val node tail _ hd
    obtain ⟨hnode, htail⟩ := hp
    obtain ⟨h1, h2, h3, h4⟩ := setData_spec hv t htail (Option.isNone_iff_eq_none.1 hd) val
    refine ⟨o, none, h1, h2, fun _ => .inl, ⟨h2.own t _ (by rintro ⟨⟩) hnode, htail, h3⟩,
      fun h hl => ?_, ?_⟩
    · simp only [commit, hd, if_true, h4, List.map_append, List.map_singleton]
      exact hl.push _
    · simp [commit, hd, pending, answer]
  · rename_i hd
    exact .stay hv rfl rfl rfl ⟨hp.1, hp.2, fun h => hd (Option.isNone_iff_eq_none.2 h)⟩
      (by simp only [commit, hd]; rfl) rfl
  · rename_i hl
    obtain ⟨hnode, htail, hd⟩ := hp
    obtain ⟨o', h1, h2, h3, h4, h5, h6⟩ := link_spec hv htail hd hl hnode
    exact .call h1 h2 (fun b hb => .inl (h3 b hb)) ⟨h4, h5⟩ h6 rfl rfl
  · rename_i hl
    exact .stay hv rfl rfl rfl ⟨hp.2.1, hl⟩ rfl rfl
  · obtain ⟨o', h1, h2, h3, h4⟩ := swing_spec hv t hp.2 (Option.some_ne_none _)
    exact .call h1 h2 (fun b hb => .inl (h3 b hb)) trivial h4 rfl rfl
  · obtain ⟨o', h1, h2, h3, h4⟩ := swing_spec hv t hp.2 (Option.some_ne_none _)
    exact .call h1 h2 (fun b hb => .inl (h3 b hb)) trivial h4 rfl rfl
  · exact .stay hv rfl rfl rfl trivial rfl rfl
  · exact .stay hv rfl rfl rfl trivial rfl rfl
  · rename_i hl
    obtain ⟨hnode, htail, hd⟩ := hp
    obtain ⟨o', h1, h2, h3, h4, h5, h6⟩ := link_spec hv htail hd hl hnode
    exact .call h1 h2 (fun b hb => .inl (h3 b hb)) ⟨h4, h5⟩ h6 rfl rfl
  · rename_i hl
    exact .stay hv rfl rfl rfl ⟨hp.1, hp.2.1, hl⟩ rfl rfl
  · obtain ⟨o', h1, h2, h3, h4, h5⟩ := make_spec hv t (hfresh _ rfl)
    refine .call h1 h2 (fun b hb => (h3 b hb).imp id fun e => by rw [e])
      ⟨h4, h2.mem hp.1, ?_⟩ h5 rfl rfl
    exact (h2.links _ hp.1 (hp.2.trans_ne (Option.some_ne_none _))).trans hp.2
  · obtain ⟨o', h1, h2, h3, h4⟩ := swing_spec hv t hp.2.2 (Option.some_ne_none _)
    exact .call h1 h2 (fun b hb => .inl (h3 b hb)) (h2.own t _ (by rintro ⟨⟩) hp.1) h4 rfl rfl
  · exact .stay hv rfl rfl rfl trivial rfl rfl

theorem moves_pop (hv : Valid o s) (hp : Placed o s t pc)
    (hfresh : ∀ a, act = .alloc a → ¬ Known o a) (hn : nextPop t act s pc = some (s', pc')) :
    Moves o act t s pc s' pc' := by
  revert hn
  fun_cases nextPop t act s pc <;> intro hn <;> cases hn
  · exact .stay hv rfl rfl rfl ⟨hp, o.head, le_rfl, hv.head⟩ rfl rfl
  · exact .stay hv rfl rfl rfl hp rfl rfl
  · -- the head is the tail
    exact .stay hv rfl rfl rfl hp rfl rfl
  · -- mTail is not the head, so it is ahead of it
    rename_i hT
    obtain ⟨hopt, k, hk, rfl⟩ := hp
    refine .stay hv rfl rfl rfl ⟨hopt, k, ?_, rfl⟩ rfl rfl
    refine lt_of_le_of_ne (hk.trans hv.head_le) fun e => hT ?_
    rw [hv.tail, e]
  · rename_i hH
    exact .stay hv rfl rfl rfl hp rfl rfl
  · exact .stay hv rfl rfl rfl hp.1 rfl rfl
  · rename_i newTail head ok
    obtain ⟨hopt, hb⟩ := hp
    refine .stay hv rfl rfl rfl ⟨hopt, hb, rfl, ?_⟩ rfl rfl
    obtain ⟨k, hk, hka⟩ := hb
    have hlt := hv.tail_lt
    show s.links head ≠ none
    rw [hv.links hka.symm, ne_eq, List.getElem?_eq_none_iff]
    omega
  · -- the head is taken
    rename_i newTail head next _ hH
    obtain ⟨hopt, hb, hl, hne⟩ := hp
    obtain ⟨o', v, h1, h2, h3, h4, h5, h6⟩ := pop_spec hv t hH hb hl
    refine ⟨o', none, h1, h2, fun b hb => .inl (h3 b hb), ⟨h4, h5.trans_ne (Option.some_ne_none v)⟩,
      fun h hq => ?_, ?_⟩
    · rw [h6, List.map_cons] at hq
      simp only [commit, hH, if_true, show (s.heap head).mData = some v from h5]
      exact hq.pop
    · simp only [commit, hH, if_true, pending, answer]
      rfl
  · rename_i hH
    exact .stay hv rfl rfl rfl hp.1 (by simp only [commit, hH]; rfl) rfl
  · exact .stay hv rfl rfl rfl hp.2 rfl rfl
  · exact .stay hv rfl rfl rfl hp rfl rfl
  · exact .stay hv rfl rfl rfl hp rfl rfl
  · obtain ⟨v, rfl⟩ := Option.ne_none_iff_exists'.1 hp
    exact .stay hv rfl rfl rfl trivial rfl rfl
  · rename_i hs
    obtain ⟨h1, h2, h3⟩ := domainStep_same hs
    exact .stay hv h1 h2 h3 hp rfl rfl
  · exact .stay hv rfl rfl rfl hp rfl rfl
  · exact .stay hv rfl rfl rfl hp rfl rfl
  · exact .stay hv rfl rfl rfl hp.1 rfl rfl
  · exact .stay hv rfl rfl rfl trivial rfl rfl
  · rename_i hd
    exact .stay hv rfl rfl rfl ⟨hp.1, hp.2.mem, fun h => hd (Option.isNone_iff_eq_none.2 h)⟩ rfl rfl
  · exact .stay hv rfl rfl rfl trivial rfl rfl
  · rename_i hl
    exact .stay hv rfl rfl rfl ⟨hp.1, hp.2.1, hl, by rintro ⟨⟩⟩ rfl rfl
  · exact .stay hv rfl rfl rfl ⟨hp.1 _ rfl, hp.2⟩ rfl rfl
  · exact .stay hv rfl rfl rfl hp.2 rfl rfl
  · obtain ⟨o', h1, h2, h3, h4, h5⟩ := make_spec hv t (hfresh _ rfl)
    refine .call h1 h2 (fun b hb => (h3 b hb).imp id fun e => by rw [e])
      ⟨h4, h2.mem hp.1, ?_⟩ h5 rfl rfl
    exact (h2.data _ hp.1 hp.2).trans_ne hp.2
  · rename_i hl
    obtain ⟨hnode, htail, hd⟩ := hp
    obtain ⟨o', h1, h2, h3, h4, h5, h6⟩ := link_spec hv htail hd hl hnode
    exact .call h1 h2 (fun b hb => .inl (h3 b hb)) ⟨by rintro _ ⟨⟩, h4, h5, by rintro ⟨⟩⟩ h6 rfl rfl
  · rename_i hl
    exact .stay hv rfl rfl rfl ⟨hp.1, hp.2.1, fun h => absurd (hl.symm.trans h) (by simp)⟩ rfl rfl
  · refine .stay hv rfl rfl rfl ⟨fun b hb => ?_, hp.2.1, rfl, hp.2.2⟩ rfl rfl
    exact Option.some.inj hb ▸ hp.1
  · obtain ⟨hopt, -, hl, hne⟩ := hp
    obtain ⟨o', h1, h2, h3, h4⟩ := swing_spec hv t hl hne
    exact .call h1 h2 (fun b hb => .inl (h3 b hb))
      (fun b hb => h2.own t b (by rintro ⟨⟩) (hopt b hb)) h4 rfl rfl
  · exact .stay hv rfl rfl rfl hp rfl rfl
  · rename_i ans _ _
    exact .stay hv rfl rfl rfl trivial rfl (by cases ans <;> rfl)
  · rename_i ans _
    exact .stay hv rfl rfl rfl trivial rfl (by cases ans <;> rfl)
  · rename_i ans _
    exact .stay hv rfl rfl rfl trivial rfl (by cases ans <;> rfl)

theorem moves_step (hv : Valid o s) (hp : Placed o s t pc)
    (hfresh : ∀ a, act = .alloc a → ¬ Known o a) (hn : next t act s pc = some (s', pc')) :
    Moves o act t s pc s' pc' := by
  revert hn
  fun_cases next t act s pc <;> intro hn
  · cases hn
    exact .stay hv rfl rfl rfl trivial rfl rfl
  · cases hn
    exact .stay hv rfl rfl rfl (by rintro _ ⟨⟩) rfl rfl
  · cases hn
    exact .stay hv rfl rfl rfl trivial rfl rfl
  · rename_i hs
    cases hn
    obtain ⟨h1, h2, h3⟩ := domainStep_same hs
    exact .stay hv h1 h2 h3 trivial rfl rfl
  · cases hn
  · cases hn
  · rename_i hpush
    cases hn
    exact moves_push hv hp hfresh hpush
  · exact moves_pop hv hp hfresh hn

end Steps

end Order

variable [DecidableEq τ] [DecidableEq A] {k i : ℕ}

/-- The nodes from `mHead` on hold these values. -/
def Contents (s : Shared τ A V) (l : List V) : Prop :=
  ∃ q, Seg s.links s.mHead q none ∧ q.filterMap s.data = l

omit [DecidableEq τ] [DecidableEq A] in
theorem Order.Valid.contents {o : Order τ A} {s : Shared τ A V} (hv : o.Valid s) :
    Contents s (o.content s) := by
  refine ⟨o.nodes.drop o.head, ?_, rfl⟩
  rw [hv.head, ← Nat.add_zero o.head, ← List.getElem?_drop]
  refine Seg.of_getElem? fun k a hk => ?_
  rw [List.getElem?_drop] at hk ⊢
  exact hv.links hk

section Runs

variable (r : (system (τ := τ) (A := A) (V := V)).Run (fun _ _ => True) k)

/-- The address was given to a node before. -/
def Used (i : ℕ) (a : A) : Prop :=
  (r.state 0).shared.allocated a = true ∨ ∃ j < i, (r.label j).2 = .alloc a

/-- No address is given to two nodes. -/
def Fresh : Prop := ∀ i < k, ∀ a, (r.label i).2 = .alloc a → ¬ Used r i a

/-- The successful compare-and-swaps of `push` on `mData` and of `tryPop` on `mHead`, in order. -/
def history (i : ℕ) : List (τ × Event (Option V)) :=
  r.log (fun c l => (commit l.2 c.shared (c.pc l.1)).map (l.1, ·)) i

/-- What `push` has been called with. -/
def called (i : ℕ) : List (τ × Option V) :=
  r.log (fun c l => (begun l.2 (c.pc l.1)).map (l.1, ·)) i

/-- What calls of `tryPop` have returned, null apart. -/
def returned (i : ℕ) : List (τ × Option V) :=
  r.log (fun c l => (answer l.2 (c.pc l.1)).map (l.1, ·)) i

/-- The thread is about to return null. -/
def FoundEmpty : PC τ A V → Prop
  | .popEmpty _ | .popDelete _ none | .popped none => True
  | _ => False

structure Fifo (i : ℕ) : Prop where
  queue : ∃ l, Contents (r.state i).shared l ∧
    Queue.Leaves ((history r i).map Prod.snd) (l.map some)
  order : ((history r i).map Prod.snd).filterMap Event.popped? <+:
    ((history r i).map Prod.snd).filterMap Event.pushed?
  calls : ∀ t, eventsOf t (called r i) =
    (eventsOf t (history r i)).filterMap Event.pushed? ++ owed ((r.state i).pc t)
  results : ∀ t, (eventsOf t (history r i)).filterMap Event.popped? =
    eventsOf t (returned r i) ++ pending (r.state i).shared ((r.state i).pc t)
  null : ∀ t, FoundEmpty ((r.state i).pc t) → ∃ j < i, (r.label j).1 = t ∧
    (∃ newTail tail, (r.state j).pc t = .popData newTail tail) ∧ Contents (r.state j).shared [] ∧
      ∀ m, j < m → m ≤ i → FoundEmpty ((r.state m).pc t)

variable {r}

theorem history_succ : history r (i + 1) = history r i ++
    (commit (r.label i).2 (r.state i).shared ((r.state i).pc (r.label i).1)).map
      ((r.label i).1, ·) :=
  r.log_succ _ i

theorem order_run (hf : Fresh r) (hi : i ≤ k) :
    ∃ o : Order τ A, o.Valid (r.state i).shared ∧ (∀ a, o.Known a → Used r i a) ∧
      (∀ t, o.Placed (r.state i).shared t ((r.state i).pc t)) ∧
      Queue.Leaves ((history r i).map Prod.snd) ((o.content (r.state i).shared).map some) := by
  induction i with
  | zero =>
    obtain ⟨⟨a, hs⟩, hp⟩ := r.init
    refine ⟨⟨[a], 0, 0, fun _ => none⟩, ?_, fun b hb => ?_, fun t => ?_, ?_⟩
    · rw [hs]
      refine ⟨List.nodup_singleton a, fun {k b} hk => ?_, fun b _ hb => absurd rfl hb, rfl,
        rfl, le_rfl, Nat.one_pos⟩
      exact (List.getElem?_eq_none (Nat.le_add_left 1 k)).symm
    · have hba : b = a := by simpa [Order.Known] using hb
      left
      rw [hs, hba]
      simp [initial]
    · rw [hp]
      trivial
    · rw [hs]
      exact .nil
  | succ i ih =>
    obtain ⟨o, hv, hk, hp, hq⟩ := ih (by omega)
    obtain ⟨hn, hother⟩ := Program.run_step r hi
    have hfresh : ∀ a, (r.label i).2 = .alloc a → ¬ o.Known a := fun a ha h =>
      hf i hi a ha (hk a h)
    obtain ⟨o', x, hv', hE, hk', hp', hq', -⟩ := Order.moves_step hv (hp _) hfresh hn
    refine ⟨o', hv', fun a ha => ?_, fun t => ?_, ?_⟩
    · rcases hk' a ha with h | h
      · rcases hk a h with h | ⟨j, hj, h⟩
        · exact .inl h
        · exact .inr ⟨j, by omega, h⟩
      · exact .inr ⟨i, by omega, h⟩
    · by_cases ht : t = (r.label i).1
      · rw [ht]
        exact hp'
      · rw [hother t ht]
        exact (hp t).extends hv hE ht
    · rw [history_succ, List.map_append, List.map_map]
      have := hq' _ hq
      simpa [Function.comp_def] using this

theorem results_run (hf : Fresh r) (hi : i ≤ k) (t : τ) :
    (eventsOf t (history r i)).filterMap Event.popped? =
      eventsOf t (returned r i) ++ pending (r.state i).shared ((r.state i).pc t) := by
  unfold history returned
  rw [System.Run.filterMap_eventsOf_log]
  refine r.eventsOf_log (fun c t => pending c.shared (c.pc t)) (fun t => ?_) (fun i hi => ?_)
    (fun i hi u hu => ?_) hi t
  · rw [r.init.2]
    rfl
  all_goals
    obtain ⟨o, hv, hk, hp, -⟩ := order_run hf hi.le
    obtain ⟨hn, hother⟩ := Program.run_step r hi
    obtain ⟨o', x, -, hE, -, -, -, hr⟩ :=
      Order.moves_step hv (hp _) (fun a ha h => hf i hi a ha (hk a h)) hn
  · exact hr
  · rw [hother u hu, (hp u).pending_eq hE]

theorem nextPush_calls {act : Act A V} {s s' : Shared τ A V} {p p' : PC τ A V} {t : τ}
    (hn : nextPush t act s p = some (s', p')) :
    owed p ++ begun act p = (commit act s p).filterMap Event.pushed? ++ owed p' := by
  revert hn
  fun_cases nextPush t act s p <;> intro hn <;> cases hn <;> try rfl
  all_goals simp [owed, begun, commit, *]

theorem nextPop_calls {act : Act A V} {s s' : Shared τ A V} {p p' : PC τ A V} {t : τ}
    (hn : nextPop t act s p = some (s', p')) :
    owed p ++ begun act p = (commit act s p).filterMap Event.pushed? ++ owed p' := by
  revert hn
  fun_cases nextPop t act s p <;> intro hn <;> cases hn <;> try rfl
  all_goals simp [owed, begun, commit, *]

/-- A `push` puts what it was called with into the queue, once, before it returns. -/
theorem next_calls {act : Act A V} {s s' : Shared τ A V} {p p' : PC τ A V} {t : τ}
    (hn : next t act s p = some (s', p')) :
    owed p ++ begun act p = (commit act s p).filterMap Event.pushed? ++ owed p' := by
  revert hn
  fun_cases next t act s p <;> intro hn
  case case7 h =>
    cases hn
    exact nextPush_calls h
  case case8 => exact nextPop_calls hn
  all_goals cases hn
  all_goals rfl

theorem calls_run (hi : i ≤ k) (t : τ) : eventsOf t (called r i) =
    (eventsOf t (history r i)).filterMap Event.pushed? ++ owed ((r.state i).pc t) := by
  unfold called history
  rw [System.Run.filterMap_eventsOf_log]
  exact Program.eventsOf_log r rfl (fun i hi => next_calls (Program.run_step r hi).1) hi t

theorem nextPush_foundEmpty {act : Act A V} {s s' : Shared τ A V} {p p' : PC τ A V} {t : τ}
    (hn : nextPush t act s p = some (s', p')) : ¬ FoundEmpty p' := by
  revert hn
  fun_cases nextPush t act s p <;> intro hn <;> cases hn <;> exact id

theorem nextPop_foundEmpty {act : Act A V} {s s' : Shared τ A V} {p p' : PC τ A V} {t : τ}
    {o : Order τ A} (hv : o.Valid s) (hp : o.Placed s t p) (hn : nextPop t act s p = some (s', p'))
    (he : FoundEmpty p') :
    FoundEmpty p ∨ ∃ newTail tail, p = .popData newTail tail ∧ o.content s = [] := by
  revert hn
  fun_cases nextPop t act s p <;> intro hn <;> cases hn <;> try exact absurd he id
  · obtain ⟨v, rfl⟩ := Option.ne_none_iff_exists'.1 hp
    exact absurd he id
  · rename_i hd
    exact .inr ⟨_, _, rfl, hv.head_links hp.2 (Option.isNone_iff_eq_none.1 hd)⟩
  · exact .inl trivial
  · rename_i ans _ _
    cases ans with
    | none => exact .inl trivial
    | some v => exact absurd he id
  · rename_i ans _
    cases ans with
    | none => exact .inl trivial
    | some v => exact absurd he id

theorem next_foundEmpty {act : Act A V} {s s' : Shared τ A V} {p p' : PC τ A V} {t : τ}
    {o : Order τ A} (hv : o.Valid s) (hp : o.Placed s t p) (hn : next t act s p = some (s', p'))
    (he : FoundEmpty p') :
    FoundEmpty p ∨ ∃ newTail tail, p = .popData newTail tail ∧ o.content s = [] := by
  revert hn
  fun_cases next t act s p <;> intro hn
  case case7 h =>
    cases hn
    exact absurd he (nextPush_foundEmpty h)
  case case8 => exact nextPop_foundEmpty hv hp hn he
  all_goals cases hn <;> exact absurd he id

/-- The queue is linearizable when no address is used twice: what was popped, in the order of the
exchanges of `mHead`, is the first part of what was pushed, in the order of the exchanges of
`mData`, every call of `push` has put its value into the queue when it returns, each pop is that of
one call, and a `tryPop` that returns null has read an empty queue. -/
theorem queue_linearizable (hf : Fresh r) (hi : i ≤ k) : Fifo r i := by
  obtain ⟨o, hv, -, -, hq⟩ := order_run hf hi
  refine ⟨⟨_, hv.contents, hq⟩, hq.eq ▸ List.prefix_append _ _, calls_run hi, results_run hf hi,
    fun t ht => ?_⟩
  obtain ⟨j, hj, hl, hno, hn, hlast⟩ := Program.entered r (E := FoundEmpty) id hi ht
  obtain ⟨o, hv, -, hp, -⟩ := order_run hf (show j ≤ k by omega)
  obtain ⟨newTail, tail, hpc, hempty⟩ :=
    (next_foundEmpty hv (hp t) hn (hlast (j + 1) (by omega) hj)).resolve_left hno
  exact ⟨j, hj, hl, ⟨newTail, tail, hpc⟩, hempty ▸ hv.contents, hlast⟩

end Runs

/-- The address a step makes a node at. -/
def made : Act ℕ ℕ → Option ℕ
  | .alloc a => some a
  | _ => none

/-- Thread 0 pushes 7, pops it, and then finds the queue empty. -/
theorem queue_linearizable_once : ∃ r :
    (system (τ := Fin 1) (A := ℕ) (V := ℕ)).Run (fun _ _ => True) 37,
    Fresh r ∧ (r.state 37).pc 0 = .popped none ∧ Fifo r 37 := by
  let run (n : ℕ) : List (Fin 1 × Act ℕ ℕ) := List.replicate n (0, .run true)
  let as := run 4 ++ [(0, .push 7), (0, .alloc 1)] ++ run 8 ++ (0, .tryPop) :: run 13 ++
    (0, .tryPop) :: run 8
  let c₀ : Conf (Fin 1) (Shared (Fin 1) ℕ ℕ) (PC (Fin 1) ℕ ℕ) :=
    ⟨initial 0, fun _ => .domain .unstarted⟩
  have hex : ∃ c, system.exec c₀ as = some c ∧ c.pc 0 = .popped none := ⟨_, rfl, rfl⟩
  obtain ⟨c, hc, hpc⟩ := hex
  have hinit : system.init c₀ := ⟨⟨0, rfl⟩, rfl⟩
  obtain ⟨r, hr, hl⟩ := System.exists_run (C := fun _ _ => True) (0, .run true) hinit hc
    fun _ _ _ _ => trivial
  -- the only address made is 1, at step 5
  have honce : ∀ i : Fin 37, made (as[i]).2 = if i = 5 then some 1 else none := by decide
  have hmade : ∀ i < 37, ∀ a, (r.label i).2 = .alloc a → i = 5 ∧ a = 1 := fun i hi a ha => by
    have h := honce ⟨i, hi⟩
    rw [show as[(⟨i, hi⟩ : Fin 37)] = r.label i from (hl i hi).symm, ha] at h
    by_cases h5 : (⟨i, hi⟩ : Fin 37) = 5
    · rw [if_pos h5] at h
      exact ⟨congrArg Fin.val h5, Option.some.inj h⟩
    · rw [if_neg h5] at h
      cases h
  have hfresh : Fresh r := fun i hi a ha hu => by
    obtain ⟨rfl, rfl⟩ := hmade i hi a ha
    rcases hu with h | ⟨j, hj, h⟩
    · rw [← Option.some.inj (hr 0 (Nat.zero_le _))] at h
      cases h
    · exact absurd (hmade j (by omega) 1 h).1 (by omega)
  have hlast : r.state 37 = c := by
    have h := hr 37 le_rfl
    rw [show as.take 37 = as from rfl, hc] at h
    exact (Option.some.inj h).symm
  exact ⟨r, hfresh, hlast ▸ hpc, queue_linearizable hfresh le_rfl⟩

end MSQueue

end ConcurrencySandbox

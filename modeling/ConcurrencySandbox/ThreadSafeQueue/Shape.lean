import ConcurrencySandbox.ThreadSafeQueue.Basic
import ConcurrencySandbox.Structures.Chain
import ConcurrencySandbox.Interleaving.Mutex

/-!
# The shape of the list

At every moment the nodes from `mHead` up to `mTail` are a chain of allocated nodes without
repetition, and a node a thread has to itself (a producer's new node, a consumer's old head) is
outside it. A lock's holder is the one thread inside its section. A consumer that found `mHead`
different from the tail it read pops a value: the tail only moves away while it holds `mHeadLock`.
-/

namespace ConcurrencySandbox

open Interleaving Structures

namespace ThreadSafeQueue

variable {τ A V : Type*}

def holdsHead : PC A V → Bool
  | .waitPred _ | .waitTest .. | .tryTail _ | .tryTest .. | .tryUnlock | .moveData _
  | .popHead .. | .popUnlock .. | .emptyTail | .emptyTest _ | .emptyUnlock _ => true
  | _ => false

def holdsTail : PC A V → Bool
  | .pushData .. | .pushNext _ | .pushTail | .pushUnlock => true
  | _ => false

/-- The consumer has found the queue not empty. -/
def popping : PC A V → Bool
  | .moveData _ | .popHead .. => true
  | _ => false

/-- The tail a consumer has read and not yet compared. -/
def seen : PC A V → Option A
  | .waitTest _ tail | .tryTest _ tail | .emptyTest tail => some tail
  | _ => none

def Shared.links (s : Shared τ A V) : A → Option A := fun a => (s.heap a).mNext

/-- The node a thread has to itself. Between the writes of `mNext` and `mTail` the producer's new
node is the one behind `mTail`. -/
def owned (s : Shared τ A V) : PC A V → Option A
  | .pushLock _ a | .pushData _ a | .pushNext a | .popUnlock a _ | .popRead a _ => some a
  | .pushTail => s.links s.mTail
  | _ => none

/-- What the proof keeps track of beside the state: the nodes before `mTail`, and which thread
has a node to itself. -/
structure Ghost (τ A : Type*) where
  nodes : List A
  owner : A → Option τ

structure Chained (g : Ghost τ A) (s : Shared τ A V) : Prop where
  seg : Seg s.links s.mHead g.nodes (some s.mTail)
  nodup : (g.nodes ++ [s.mTail]).Nodup
  listed : ∀ a ∈ g.nodes ++ [s.mTail], s.allocated a = true ∧ g.owner a = none
  owner : ∀ a, g.owner a ≠ none → s.allocated a = true

structure Placed (g : Ghost τ A) (s : Shared τ A V) (t : τ) (p : PC A V) : Prop where
  owns : ∀ a, owned s p = some a → g.owner a = some t
  pops : popping p = true → g.nodes ≠ []
  reads : ∀ a, seen p = some a → g.nodes = [] → a = s.mTail

section Links

variable [DecidableEq A] (s : Shared τ A V) (a : A)

theorem links_setData (d : Option V) : (s.setData a d).links = s.links := by
  funext b
  by_cases h : b = a <;> simp [Shared.links, Shared.setData, h]

theorem links_setNext (n : Option A) : (s.setNext a n).links = Function.update s.links a n := by
  funext b
  by_cases h : b = a <;> simp [Shared.links, Shared.setNext, h]

theorem links_make : (s.make a).links = Function.update s.links a none := by
  funext b
  by_cases h : b = a <;> simp [Shared.links, Shared.make, h]

end Links

variable {t u : τ} {s s' : Shared τ A V} {f : τ → PC A V} {p p' q : PC A V} {g : Ghost τ A}

/-- The nodes before `mTail` after a step at `p`: filling the dummy adds it at the end, `popHead`
takes the first. -/
def nodesAfter (s : Shared τ A V) (q : List A) : PC A V → List A
  | .pushTail => q ++ [s.mTail]
  | .popHead .. => q.tail
  | _ => q

/-- The shape after a step of thread `t` to `p'`, the other threads where they are. -/
def Shaped (s : Shared τ A V) (t : τ) (p' : PC A V) (f : τ → PC A V) (q : List A) : Prop :=
  ∃ g, g.nodes = q ∧ Chained g s ∧ Placed g s t p' ∧ ∀ u, u ≠ t → Placed g s u (f u)

theorem Placed.move (h : Placed g s t p) (ho : owned s' p' = none ∨ owned s' p' = owned s p)
    (hp : popping p' = false) (hr : ThreadSafeQueue.seen p' = none) : Placed g s' t p' where
  owns a ha := by
    rcases ho with ho | ho
    · rw [ho] at ha
      cases ha
    · exact h.owns a (ho ▸ ha)
  pops := by simp [hp]
  reads := by simp [hr]

/-- A thread keeps what it owns when no step takes it away and the link behind `mTail` is its own
business. -/
theorem owned_frame (hl : q ≠ .pushTail ∨ s'.links s'.mTail = s.links s.mTail) :
    owned s' q = owned s q := by
  cases q <;> simp_all [owned]

/-- Another thread's part survives a step that leaves its nodes and the list before `mTail`. -/
theorem Placed.frame {g' : Ghost τ A} (h : Placed g s u q)
    (hl : q ≠ .pushTail ∨ s'.links s'.mTail = s.links s.mTail)
    (ho : ∀ a, g.owner a = some u → g'.owner a = some u) (hT : s'.mTail = s.mTail)
    (hn : g'.nodes = g.nodes) : Placed g' s' u q where
  owns a ha := ho a (h.owns a (owned_frame hl ▸ ha))
  pops hq := hn ▸ h.pops hq
  reads a ha hg := hT ▸ h.reads a ha (hn ▸ hg)

/-- A consumer that found `mHead` different from the tail it read has a value to pop. -/
theorem nodes_ne_nil (hG : Chained g s) (ht : Placed g s t p) {tail : A}
    (hr : ThreadSafeQueue.seen p = some tail) (hne : ¬ s.mHead = some tail) : g.nodes ≠ [] := by
  intro h
  have hseg := hG.seg
  rw [h, Seg.nil_iff] at hseg
  exact hne (by rw [hseg, ht.reads tail hr h])

variable [DecidableEq A]

theorem shaped_make (hG : Chained g s) (hL : ∀ u, Placed g s u (f u)) {a : A} {val : V}
    (ha : ¬ s.allocated a = true) : Shaped (s.make a) t (.pushLock val a) f g.nodes := by
  have hne : ∀ b ∈ g.nodes ++ [s.mTail], b ≠ a := fun b hb h => ha (h ▸ (hG.listed b hb).1)
  have hfree : g.owner a = none := by
    by_contra h
    exact ha (hG.owner a h)
  refine ⟨⟨g.nodes, Function.update g.owner a (some t)⟩, rfl, ⟨?_, hG.nodup, fun b hb => ?_, ?_⟩,
    ⟨by simp [owned], by simp [popping], by simp [ThreadSafeQueue.seen]⟩, fun u hu => ?_⟩
  · rw [links_make]
    exact hG.seg.update fun h => hne a (by simp [h]) rfl
  · simpa [Shared.make, hne b hb] using hG.listed b hb
  · intro b hb
    by_cases h : b = a
    · simp [Shared.make, h]
    · simp only [Function.update_of_ne h] at hb
      simpa [Shared.make, h] using hG.owner b hb
  · refine (hL u).frame (.inr ?_) (fun b hb => ?_) rfl rfl
    · rw [links_make]
      exact Function.update_of_ne (hne s.mTail (by simp)) _ _
    · have hb' : b ≠ a := fun h => by rw [h, hfree] at hb; cases hb
      simpa [hb'] using hb

theorem shaped_setData (hG : Chained g s) (hL : ∀ u, Placed g s u (f u)) {d : Option V} {a : A}
    (hp : g.owner a = some t) : Shaped (s.setData s.mTail d) t (.pushNext a) f g.nodes := by
  have hl := links_setData s s.mTail d
  exact ⟨g, rfl, ⟨hl ▸ hG.seg, hG.nodup, hG.listed, hG.owner⟩,
    ⟨by simpa [owned] using hp, by simp [popping], by simp [ThreadSafeQueue.seen]⟩,
    fun u _ => (hL u).frame (.inr (congrFun hl _)) (fun _ => id) rfl rfl⟩

theorem shaped_setNext (hG : Chained g s) (hL : ∀ u, Placed g s u (f u)) {a : A}
    (hp : g.owner a = some t) (hT : ∀ u, u ≠ t → f u ≠ .pushTail) :
    Shaped (s.setNext s.mTail (some a)) t .pushTail f g.nodes := by
  have hl := links_setNext s s.mTail (some a)
  have hnot : s.mTail ∉ g.nodes := by
    have := hG.nodup
    grind
  refine ⟨g, rfl, ⟨?_, hG.nodup, hG.listed, hG.owner⟩,
    ⟨fun b hb => ?_, by simp [popping], by simp [ThreadSafeQueue.seen]⟩,
    fun u hu => (hL u).frame (.inl (hT u hu)) (fun _ => id) rfl rfl⟩
  · rw [hl]
    exact hG.seg.update hnot
  · have : owned (s.setNext s.mTail (some a)) (.pushTail : PC A V) = some a := by
      show (s.setNext s.mTail (some a)).links s.mTail = some a
      rw [hl, Function.update_self]
    rw [this] at hb
    exact Option.some.inj hb ▸ hp

/-- Moving `mTail` puts the old dummy, now filled, at the end of the chain. -/
theorem shaped_setTail (hG : Chained g s) (hL : ∀ u, Placed g s u (f u)) {n : A}
    (hl : s.links s.mTail = some n) (hp : g.owner n = some t) (hT : ∀ u, u ≠ t → f u ≠ .pushTail) :
    Shaped { s with mTail := n } t .pushUnlock f (g.nodes ++ [s.mTail]) := by
  have hnew : n ∉ g.nodes ++ [s.mTail] := fun h => by
    have := (hG.listed n h).2
    rw [hp] at this
    cases this
  refine ⟨⟨g.nodes ++ [s.mTail], Function.update g.owner n none⟩, rfl, ⟨?_, ?_, fun b hb => ?_, ?_⟩,
    ⟨by simp [owned], by simp [popping], by simp [ThreadSafeQueue.seen]⟩, fun u hu => ?_⟩
  · exact hl ▸ hG.seg.snoc
  · refine List.nodup_append.2 ⟨hG.nodup, List.nodup_singleton _, fun b hb c hc h => hnew ?_⟩
    obtain rfl : b = n := h.trans (List.mem_singleton.1 hc)
    exact hb
  · rcases List.mem_append.1 hb with hb | hb
    · have hne : b ≠ n := fun h => hnew (h ▸ hb)
      simpa [hne] using hG.listed b hb
    · obtain rfl := List.mem_singleton.1 hb
      exact ⟨hG.owner _ (by simp [hp]), by simp⟩
  · intro b hb
    by_cases h : b = n
    · simp [h] at hb
    · exact hG.owner b (by simpa [h] using hb)
  · refine ⟨fun a ha => ?_, fun _ => by simp, fun a _ h => by simp at h⟩
    rw [owned_frame (.inl (hT u hu))] at ha
    have := (hL u).owns a ha
    have hne : a ≠ n := fun h => by
      rw [h, hp] at this
      exact hu (Option.some.inj this).symm
    simpa [hne] using this

/-- Unlinking the head: the consumer has it to itself, the chain starts one node later. -/
theorem shaped_popHead (hG : Chained g s) (hL : ∀ u, Placed g s u (f u)) {h : A}
    {val : Option (Option V)} (hh : s.mHead = some h) (hne : g.nodes ≠ [])
    (hH : ∀ u, u ≠ t → holdsHead (f u) = false) :
    Shaped (({ s with mHead := (s.heap h).mNext }).setNext h none) t (.popUnlock h val) f
      g.nodes.tail := by
  obtain ⟨x, q, hq⟩ := List.exists_cons_of_ne_nil hne
  have hseg := hG.seg
  have hnd := hG.nodup
  have hlist := hG.listed
  rw [hq] at hseg hnd hlist
  obtain rfl : h = x := Option.some.inj (hh.symm.trans hseg.1)
  simp only [List.cons_append, List.nodup_cons] at hnd
  simp only [List.cons_append, List.mem_cons, forall_eq_or_imp] at hlist
  have hl := links_setNext { s with mHead := (s.heap h).mNext } h none
  refine ⟨⟨q, Function.update g.owner h (some t)⟩, by rw [hq, List.tail_cons],
    ⟨?_, hnd.2, fun b hb => ?_, ?_⟩,
    ⟨by simp [owned], by simp [popping], by simp [ThreadSafeQueue.seen]⟩, fun u hu => ?_⟩
  · rw [hl]
    exact hseg.2.update fun hx => hnd.1 (by simp [hx])
  · have hb' : b ≠ h := fun e => hnd.1 (e ▸ hb)
    simpa [hb', Shared.setNext] using hlist.2 b hb
  · intro b hb
    by_cases e : b = h
    · exact e ▸ hlist.1.1
    · exact hG.owner b (by simpa [e] using hb)
  · have hu' := hH u hu
    have hmt : s.mTail ≠ h := fun e => hnd.1 (by simp [e])
    refine ⟨fun a ha => ?_, fun hp => ?_, fun a ha => ?_⟩
    · rw [owned_frame (s := s) (.inr (by rw [hl]; exact Function.update_of_ne hmt _ _))] at ha
      have := (hL u).owns a ha
      have hne' : a ≠ h := fun e => by rw [e, hlist.1.2] at this; cases this
      simpa [hne'] using this
    · generalize f u = p at hu' hp
      cases p <;> simp [holdsHead, popping] at hu' hp
    · generalize f u = p at hu' ha
      cases p <;> simp [holdsHead, ThreadSafeQueue.seen] at hu' ha

theorem shaped_free (hG : Chained g s) (hL : ∀ u, Placed g s u (f u)) {a : A} {val : Option V}
    (hp : g.owner a = some t) : Shaped (s.free a) t (.popped val) f g.nodes := by
  have hne : ∀ b, g.owner b ≠ some t → b ≠ a := fun b hb h => hb (h ▸ hp)
  refine ⟨⟨g.nodes, Function.update g.owner a none⟩, rfl, ⟨hG.seg, hG.nodup, fun b hb => ?_, ?_⟩,
    ⟨by simp [owned], by simp [popping], by simp [ThreadSafeQueue.seen]⟩, fun u hu => ?_⟩
  · have := hG.listed b hb
    simpa [Shared.free, hne b (by simp [this.2])] using this
  · intro b hb
    by_cases h : b = a
    · simp [h] at hb
    · simpa [Shared.free, h] using hG.owner b (by simpa [h] using hb)
  · refine (hL u).frame (.inr rfl) (fun b hb => ?_) rfl rfl
    have : b ≠ a := hne b (by rw [hb]; simpa using hu)
    simpa [this] using hb

variable [DecidableEq τ] {act : Act τ A V}

theorem next_head (hn : next t act s p = some (s', p')) :
    LockStep t (holdsHead p) s.mHeadLock (holdsHead p') s'.mHeadLock := by
  revert hn
  fun_cases next t act s p <;> intro hn <;> cases hn <;>
    first | exact .keep _ _ | exact .release _ | exact .acquire (by simp_all)

theorem next_tail (hn : next t act s p = some (s', p')) :
    LockStep t (holdsTail p) s.mTailLock (holdsTail p') s'.mTailLock := by
  revert hn
  fun_cases next t act s p <;> intro hn <;> cases hn <;>
    first | exact .keep _ _ | exact .release _ | exact .acquire (by simp_all)

/-- A step keeps the shape. -/
theorem shape_step (hG : Chained g s) (hL : ∀ u, Placed g s u (f u))
    (hH : Held holdsHead s.mHeadLock f) (hT : Held holdsTail s.mTailLock f)
    (hn : next t act s (f t) = some (s', p')) :
    Shaped s' t p' f (nodesAfter s g.nodes (f t)) := by
  have ht := hL t
  have hH' : holdsHead (f t) = true → ∀ u, u ≠ t → holdsHead (f u) = false := fun h u hu =>
    Bool.eq_false_iff.2 fun h' => hu (hH.eq h' h)
  have hT' : holdsTail (f t) = true → ∀ u, u ≠ t → f u ≠ .pushTail := fun h u hu e =>
    hu (hT.eq (by rw [e]; rfl) h)
  have hpop : ∀ p', owned s p' = none → popping p' = true → ThreadSafeQueue.seen p' = none →
      g.nodes ≠ [] → Shaped s t p' f g.nodes := fun p' h1 h2 h3 hne =>
    ⟨g, rfl, hG, ⟨by simp [h1], fun _ => hne, by simp [h3]⟩, fun u _ => hL u⟩
  have hread : ∀ p', owned s p' = none → popping p' = false →
      ThreadSafeQueue.seen p' = some s.mTail → Shaped s t p' f g.nodes := fun p' h1 h2 h3 =>
    ⟨g, rfl, hG, ⟨by simp [h1], by simp [h2], fun a ha _ => by simp_all⟩, fun u _ => hL u⟩
  revert hn
  generalize f t = p at ht hH' hT'
  fun_cases next t act s p <;> intro hn <;> cases hn
  -- steps that touch no node: the calls, the locks, the sleepers and the returns
  all_goals
    try exact ⟨g, rfl, ⟨hG.seg, hG.nodup, hG.listed, hG.owner⟩, ht.move (.inl rfl) rfl rfl,
      fun u _ => ⟨(hL u).owns, (hL u).pops, (hL u).reads⟩⟩
  all_goals
    try exact ⟨g, rfl, ⟨hG.seg, hG.nodup, hG.listed, hG.owner⟩, ht.move (.inr rfl) rfl rfl,
      fun u _ => ⟨(hL u).owns, (hL u).pops, (hL u).reads⟩⟩
  -- `getTail`, and the test of what it returned
  all_goals try exact hread _ rfl rfl rfl
  all_goals try exact hpop _ rfl rfl rfl (nodes_ne_nil hG ht rfl ‹_›)
  · exact shaped_make hG hL ‹_›
  · exact shaped_setData hG hL (ht.owns _ rfl)
  · exact shaped_setNext hG hL (ht.owns _ rfl) (hT' rfl)
  · exact shaped_setTail hG hL ‹_› (ht.owns _ ‹_›) (hT' rfl)
  · exact hpop _ rfl rfl rfl (ht.pops rfl)
  · exact shaped_popHead hG hL ‹_› (ht.pops rfl) (hH' rfl)
  · exact shaped_free hG hL (ht.owns _ rfl)

end ThreadSafeQueue

end ConcurrencySandbox

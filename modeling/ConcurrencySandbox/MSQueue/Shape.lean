import ConcurrencySandbox.HazardPointer.Refinement
import ConcurrencySandbox.MSQueue.Basic
import ConcurrencySandbox.Structures.Chain

/-!
# The shape of the queue

The nodes from `mHead` are a chain that holds `mTail`; a node that was popped keeps its link until
its deleter runs. A thread that validated its hazard pointer has a node that was published and not
freed since, and what it read there of `mData` and `mNext` stays, for neither goes back to null.

`tryPop` compares `mHead` with a tail it loaded before it validated `mHead`. By then the address may
have been popped, freed, made again and become the last node; taking it leaves no node at all. With
the tail elsewhere at the moment of the validation (`TailBehind`) the head it takes has a successor.
-/

namespace ConcurrencySandbox

open Interleaving Structures HazardPointer

namespace MSQueue

variable {τ A V : Type*}

def Shared.links (s : Shared τ A V) (a : A) : Option A := (s.heap a).mNext

def Shared.data (s : Shared τ A V) (a : A) : Option V := (s.heap a).mData

section Stores

variable [DecidableEq A] (s : Shared τ A V) (a : A) (d : Option V) (n : Option A) (b : A)

theorem Shared.make_heap (hb : b ≠ a) : (s.make a).heap b = s.heap b := Function.update_of_ne hb _ _

theorem Shared.setData_heap (hb : b ≠ a) : (s.setData a d).heap b = s.heap b :=
  Function.update_of_ne hb _ _

theorem Shared.setData_links : (s.setData a d).links b = s.links b := by
  by_cases hb : b = a <;> simp [Shared.links, Shared.setData, hb]

theorem Shared.setData_data (hb : b ≠ a) : (s.setData a d).data b = s.data b :=
  congrArg Node.mData (s.setData_heap a d b hb)

@[simp]
theorem Shared.setData_self : (s.setData a d).data a = d := by simp [Shared.data, Shared.setData]

theorem Shared.setNext_heap (hb : b ≠ a) : (s.setNext a n).heap b = s.heap b :=
  Function.update_of_ne hb _ _

theorem Shared.setNext_links : (s.setNext a n).links = Function.update s.links a n := by
  funext b
  by_cases hb : b = a <;> simp [Shared.links, Shared.setNext, hb]

theorem Shared.setNext_data : (s.setNext a n).data b = s.data b := by
  by_cases hb : b = a <;> simp [Shared.data, Shared.setNext, hb]

end Stores

/-- What the proof keeps track of beside the state: the hazard slots, the nodes from `mHead` on, the
popped nodes not yet freed, and which thread has a node to itself. -/
structure Ghost (τ A : Type*) where
  hazards : Hazards (τ × ℕ) A
  queue : List A
  popped : Set A
  owner : A → Option τ

/-- The node has been linked and not freed since. -/
def Ghost.Published (g : Ghost τ A) (a : A) : Prop := a ∈ g.queue ∨ a ∈ g.popped

structure Shape (g : Ghost τ A) (s : Shared τ A V) : Prop where
  seg : Seg s.links s.mHead g.queue none
  tail : ∃ x ∈ g.queue, s.mTail = some x
  queue : ∀ a ∈ g.queue, g.owner a = none ∧ a ∉ g.popped
  full : ∀ a, g.Published a → s.links a ≠ none → s.data a ≠ none
  popped : ∀ a ∈ g.popped, s.links a ≠ none
  retired : ∀ a, a ∈ g.hazards.retired ↔ a ∈ g.popped ∧ g.owner a = none
  allocated : ∀ a, g.Published a ∨ g.owner a ≠ none → s.allocated a = true

/-- A new node the thread has not linked. -/
def Private (g : Ghost τ A) (s : Shared τ A V) (t : τ) (a : A) : Prop :=
  g.owner a = some t ∧ a ∉ g.popped ∧ s.heap a = ⟨none, none⟩

def PrivateOpt (g : Ghost τ A) (s : Shared τ A V) (t : τ) (n : Option A) : Prop :=
  ∀ a, n = some a → Private g s t a

/-- A published node that the thread's slot keeps from being freed. -/
def Claimed (g : Ghost τ A) (t : τ) (a : A) : Prop :=
  g.Published a ∧ g.hazards.Guarded (t, 0) a

/-- A popped node the thread is to retire. -/
def Popped (g : Ghost τ A) (t : τ) (a : A) : Prop := g.owner a = some t ∧ a ∈ g.popped

/-- As long as the node is in the queue it is the head, and not the tail. -/
def Front (g : Ghost τ A) (s : Shared τ A V) (a : A) : Prop :=
  a ∈ g.queue → s.mHead = some a ∧ s.mTail ≠ some a

def Placed (g : Ghost τ A) (s : Shared τ A V) (t : τ) : PC τ A V → Prop
  | .pushTail _ node | .pushStore _ node _ => Private g s t node
  | .pushCheck _ node tail => Private g s t node ∧ g.hazards.pointer (t, 0) = tail
  | .pushData _ node tail => Private g s t node ∧ Claimed g t tail
  | .pushNext node tail | .pushHelp _ node tail =>
    Private g s t node ∧ Claimed g t tail ∧ s.data tail ≠ none
  | .pushSwing left tail newNext =>
    PrivateOpt g s t left ∧ Claimed g t tail ∧ s.links tail = some newNext
  | .pushDelete left => Private g s t left
  | .pushHelpNew _ tail newNext => Claimed g t tail ∧ s.links tail = some newNext
  | .pushHelpSwing _ node tail newNext =>
    Private g s t node ∧ Claimed g t tail ∧ s.links tail = some newNext
  | .popHead newTail | .popStore newTail _ | .popStoreTail newTail _ | .popEmpty newTail
  | .popAgain newTail | .popDelete newTail _ | .retiring _ newTail _ => PrivateOpt g s t newTail
  | .popTail newTail p | .popCheck newTail p | .popTailCheck newTail p =>
    PrivateOpt g s t newTail ∧ g.hazards.pointer (t, 0) = p
  | .popHeadNext newTail head => PrivateOpt g s t newTail ∧ Claimed g t head ∧ Front g s head
  | .popCas newTail head next =>
    PrivateOpt g s t newTail ∧ (Claimed g t head ∧ Front g s head) ∧
      s.links head = next ∧ next ≠ none
  | .popRead newTail head | .popRelease newTail head _ | .popRetire newTail head _ =>
    PrivateOpt g s t newTail ∧ Popped g t head
  | .popData newTail tail => PrivateOpt g s t newTail ∧ Claimed g t tail
  | .popNext newTail tail => PrivateOpt g s t newTail ∧ Claimed g t tail ∧ s.data tail ≠ none
  | .popNew tail => Claimed g t tail ∧ s.data tail ≠ none
  | .popLink newTail tail => Private g s t newTail ∧ Claimed g t tail ∧ s.data tail ≠ none
  | .popReload newTail tail => Private g s t newTail ∧ Claimed g t tail ∧ s.links tail ≠ none
  | .popSwing newTail tail next =>
    PrivateOpt g s t newTail ∧ Claimed g t tail ∧ s.links tail = next ∧ next ≠ none
  | _ => True

/-- What a step of thread `t` may do: it gives up the node `x` of its own if any, all others stay
with their threads, and a published node stays published until it is freed and keeps its data and
its link. -/
structure Effect [DecidableEq τ] [DecidableEq A] (t : τ) (x : Option A) (g g' : Ghost τ A)
    (s s' : Shared τ A V) (e : Hazards.Event (τ × ℕ) A) : Prop where
  shape : Shape g' s'
  hazards : g'.hazards = g.hazards.apply e
  enabled : g.hazards.Enabled e
  store : ∀ x v, e = .store x v → x.1 = t
  given : ∀ a, x = some a → g.owner a = some t
  own : ∀ a, g.owner a ≠ none → x ≠ some a →
    g'.owner a = g.owner a ∧ s'.heap a = s.heap a ∧ (a ∈ g'.popped ↔ a ∈ g.popped)
  published : ∀ a, g.Published a → e ≠ .free a → g'.Published a
  data : ∀ a, g.Published a → s.data a ≠ none → s'.data a = s.data a
  links : ∀ a, g.Published a → s.links a ≠ none → s'.links a = s.links a
  front : ∀ a, g.Published a → Front g s a → Front g' s' a

variable {g g' : Ghost τ A} {s s' : Shared τ A V} {t u : τ} {a b : A} {n : Option A}
  {p p' : PC τ A V}

section Others

variable [DecidableEq τ] [DecidableEq A] {e : Hazards.Event (τ × ℕ) A}
  {x : Option A}

theorem Effect.private (hE : Effect t x g g' s s' e) (hx : x ≠ some a) (h : Private g s u a) :
    Private g' s' u a := by
  obtain ⟨h1, h2, h3⟩ := hE.own a (by simp [h.1]) hx
  exact ⟨h1.trans h.1, h3.not.2 h.2.1, h2.trans h.2.2⟩

theorem Effect.privateOpt (hE : Effect t x g g' s s' e) (hx : ∀ a, n = some a → x ≠ some a)
    (h : PrivateOpt g s u n) : PrivateOpt g' s' u n := fun a ha => hE.private (hx a ha) (h a ha)

theorem Effect.popped (hE : Effect t x g g' s s' e) (hx : x ≠ some a) (h : Popped g u a) :
    Popped g' u a := by
  obtain ⟨h1, -, h3⟩ := hE.own a (by simp [h.1]) hx
  exact ⟨h1.trans h.1, h3.2 h.2⟩

theorem Effect.claimed (hE : Effect t x g g' s s' e) (hs : ∀ v, e ≠ .store (u, 0) v)
    (h : Claimed g u a) : Claimed g' u a := by
  obtain ⟨hg, hf⟩ := h.2.apply hE.enabled fun v he => absurd he (hs v)
  exact ⟨hE.published a h.1 hf, hE.hazards ▸ hg⟩

theorem Effect.pointer (hE : Effect t x g g' s s' e) (hs : ∀ v, e ≠ .store (u, 0) v)
    (h : g.hazards.pointer (u, 0) = n) : g'.hazards.pointer (u, 0) = n := by
  rw [hE.hazards]
  cases e with
  | store x v =>
    have hne : (u, 0) ≠ x := fun hx => hs v (hx ▸ rfl)
    simpa [Hazards.apply, hne] using h
  | _ => exact h

/-- Another thread's place survives. -/
theorem Placed.effect (h : Placed g s u p) (hE : Effect t x g g' s s' e) (hu : u ≠ t) :
    Placed g' s' u p := by
  have hs : ∀ v, e ≠ .store (u, 0) v := fun v he => hu (hE.store _ _ he)
  have given : ∀ {a}, g.owner a = some u → x ≠ some a := fun ho hx =>
    hu (Option.some.inj (ho.symm.trans (hE.given _ hx)))
  have priv : ∀ {a}, Private g s u a → Private g' s' u a := fun h => hE.private (given h.1) h
  have opt : ∀ {n}, PrivateOpt g s u n → PrivateOpt g' s' u n := fun h =>
    hE.privateOpt (fun a ha => given (h a ha).1) h
  have data : ∀ {a}, Claimed g u a → s.data a ≠ none → s'.data a ≠ none := fun hc hd =>
    (hE.data _ hc.1 hd).symm ▸ hd
  have links : ∀ {a n}, Claimed g u a → s.links a = some n → s'.links a = some n := fun hc hl =>
    (hE.links _ hc.1 (by simp [hl])).trans hl
  have links' : ∀ {a n}, Claimed g u a → s.links a = n → n ≠ none → s'.links a = n :=
    fun hc hl hn => (hE.links _ hc.1 (hl ▸ hn)).trans hl
  cases p with
  | pushTail _ _ | pushStore _ _ _ | pushDelete _ => exact priv h
  | pushCheck _ _ _ => exact ⟨priv h.1, hE.pointer hs h.2⟩
  | pushData _ _ _ => exact ⟨priv h.1, hE.claimed hs h.2⟩
  | pushNext _ _ | pushHelp _ _ _ | popLink _ _ =>
    exact ⟨priv h.1, hE.claimed hs h.2.1, data h.2.1 h.2.2⟩
  | pushSwing _ _ _ => exact ⟨opt h.1, hE.claimed hs h.2.1, links h.2.1 h.2.2⟩
  | pushHelpNew _ _ _ => exact ⟨hE.claimed hs h.1, links h.1 h.2⟩
  | pushHelpSwing _ _ _ _ => exact ⟨priv h.1, hE.claimed hs h.2.1, links h.2.1 h.2.2⟩
  | popHead _ | popStore _ _ | popStoreTail _ _ | popEmpty _ | popAgain _ | popDelete _ _
  | retiring _ _ _ => exact opt h
  | popTail _ _ | popCheck _ _ | popTailCheck _ _ =>
    exact ⟨opt h.1, hE.pointer hs h.2⟩
  | popHeadNext _ _ =>
    exact ⟨opt h.1, hE.claimed hs h.2.1, hE.front _ h.2.1.1 h.2.2⟩
  | popCas _ _ _ =>
    obtain ⟨h1, ⟨h2, h3⟩, h4, h5⟩ := h
    exact ⟨opt h1, ⟨hE.claimed hs h2, hE.front _ h2.1 h3⟩, links' h2 h4 h5, h5⟩
  | popRead _ _ | popRelease _ _ _ | popRetire _ _ _ =>
    exact ⟨opt h.1, hE.popped (given h.2.1) h.2⟩
  | popData _ _ => exact ⟨opt h.1, hE.claimed hs h.2⟩
  | popNext _ _ => exact ⟨opt h.1, hE.claimed hs h.2.1, data h.2.1 h.2.2⟩
  | popNew _ => exact ⟨hE.claimed hs h.1, data h.1 h.2⟩
  | popReload _ _ =>
    obtain ⟨h1, h2, h3⟩ := h
    exact ⟨priv h1, hE.claimed hs h2, (hE.links _ h2.1 h3).symm ▸ h3⟩
  | popSwing _ _ _ =>
    obtain ⟨h1, h2, h3, h4⟩ := h
    exact ⟨opt h1, hE.claimed hs h2, links' h2 h3 h4, h4⟩
  | domain _ | pushNew _ | pushRelease | pushed | popped _ => trivial

end Others

section Specs

variable [DecidableEq τ] [DecidableEq A]

theorem quiet_spec (hG : Shape g s) (t : τ) (d : Domain τ A) :
    Effect t none g g s { s with domain := d } .skip :=
  ⟨⟨hG.seg, hG.tail, hG.queue, hG.full, hG.popped, hG.retired, hG.allocated⟩, rfl, trivial, nofun,
    nofun, fun _ _ _ => ⟨rfl, rfl, Iff.rfl⟩, fun _ h _ => h, fun _ _ _ => rfl, fun _ _ _ => rfl,
    fun _ _ h => h⟩

/-- A step that changes the slots of thread `t` only. -/
theorem store_spec (hG : Shape g s) (t : τ) (i : ℕ) (v : Option A) {d : Domain τ A} :
    Effect t none g { g with hazards := g.hazards.apply (.store (t, i) v) } s
      { s with domain := d } (.store (t, i) v) :=
  ⟨⟨hG.seg, hG.tail, hG.queue, hG.full, hG.popped, hG.retired, hG.allocated⟩, rfl, trivial,
    fun _ _ h => by cases h; rfl, nofun, fun _ _ _ => ⟨rfl, rfl, Iff.rfl⟩, fun _ h _ => h,
    fun _ _ _ => rfl, fun _ _ _ => rfl, fun _ _ h => h⟩

theorem make_spec (hG : Shape g s) (t : τ) (ha : ¬ s.allocated a = true) :
    ∃ g', Effect t none g g' s (s.make a) .skip ∧ Private g' (s.make a) t a := by
  have hpub : ∀ b, g.Published b → b ≠ a := fun b hb e => ha (e ▸ hG.allocated b (.inl hb))
  have hown : ∀ b, g.owner b ≠ none → b ≠ a := fun b hb e => ha (e ▸ hG.allocated b (.inr hb))
  have hheap := s.make_heap a
  have hlinks : ∀ b, b ≠ a → (s.make a).links b = s.links b := fun b hb =>
    congrArg Node.mNext (hheap b hb)
  have hdata : ∀ b, b ≠ a → (s.make a).data b = s.data b := fun b hb =>
    congrArg Node.mData (hheap b hb)
  refine ⟨{ g with owner := Function.update g.owner a (some t) }, ⟨⟨?_, hG.tail, fun b hb => ?_,
    fun b hb hl => ?_, fun b hb => ?_, fun b => ?_, fun b hb => ?_⟩, rfl, trivial, nofun, nofun,
    fun b hb _ => ?_, fun _ h _ => h, fun b hb _ => hdata b (hpub b hb),
    fun b hb _ => hlinks b (hpub b hb), fun _ _ h => h⟩, by simp,
    fun h => hpub a (.inr h) rfl, by simp [Shared.make]⟩
  · exact hG.seg.congr fun b hb => hlinks b (hpub b (.inl hb))
  · simpa [hpub b (.inl hb)] using hG.queue b hb
  · have hba := hpub b hb
    rw [hdata b hba]
    exact hG.full b hb (hlinks b hba ▸ hl)
  · rw [hlinks b (hpub b (.inr hb))]
    exact hG.popped b hb
  · refine (hG.retired b).trans (and_congr_right fun hb => ?_)
    simp [hpub b (.inr hb)]
  · by_cases hba : b = a
    · simp [Shared.make, hba]
    · simpa [Shared.make, hba] using hG.allocated b (by simpa [hba, Ghost.Published] using hb)
  · have hba := hown b hb
    exact ⟨by simp [hba], hheap b hba, Iff.rfl⟩

theorem delete_spec (hG : Shape g s) (ha : Private g s t a) :
    ∃ g', Effect t (some a) g g' s (s.free a) .skip := by
  have hpub : ∀ b, g.Published b → b ≠ a := fun b hb e => by
    subst e
    rcases hb with hb | hb
    · simpa [ha.1] using hG.queue _ hb
    · exact ha.2.1 hb
  refine ⟨{ g with owner := Function.update g.owner a none }, ⟨hG.seg, hG.tail, fun b hb => ?_,
    hG.full, hG.popped, fun b => ?_, fun b hb => ?_⟩, rfl, trivial, nofun,
    fun b hb => Option.some.inj hb ▸ ha.1, fun b _ hx => ?_, fun _ h _ => h, fun _ _ _ => rfl,
    fun _ _ _ => rfl, fun _ _ h => h⟩
  · simpa [hpub b (.inl hb)] using hG.queue b hb
  · refine (hG.retired b).trans (and_congr_right fun hb => ?_)
    simp [hpub b (.inr hb)]
  · have hba : b ≠ a := fun e => by
      rcases hb with hb | hb
      · exact hpub b hb e
      · simp [e] at hb
    simpa [Shared.free, hba] using hG.allocated b (by simpa [hba, Ghost.Published] using hb)
  · have hba : b ≠ a := fun e => hx (e ▸ rfl)
    exact ⟨by simp [hba], rfl, Iff.rfl⟩

/-- The compare-and-swap of `mData` from null. -/
theorem setData_spec (hG : Shape g s) (t : τ) (ha : g.Published a) (hd : s.data a = none) (v : V) :
    Effect t none g g s (s.setData a (some v)) .skip ∧ (s.setData a (some v)).data a ≠ none := by
  have hheap := s.setData_heap a (some v)
  have hlinks := s.setData_links a (some v)
  have hdata := s.setData_data a (some v)
  have hself : (s.setData a (some v)).data a ≠ none := by simp
  have howner : g.owner a = none := by
    rcases ha with ha | ha
    · exact (hG.queue a ha).1
    · exact absurd hd (hG.full a (.inr ha) (hG.popped a ha))
  refine ⟨⟨⟨hG.seg.congr fun b _ => hlinks b, hG.tail, hG.queue, fun b hb hl => ?_,
    fun b hb => hlinks b ▸ hG.popped b hb, hG.retired, hG.allocated⟩, rfl, trivial, nofun, nofun,
    fun b hb _ => ?_, fun _ h _ => h, fun b _ hb => ?_, fun b _ _ => hlinks b, fun _ _ h => h⟩,
    hself⟩
  · by_cases hba : b = a
    · exact hba ▸ hself
    · exact hdata b hba ▸ hG.full b hb (hlinks b ▸ hl)
  · exact ⟨rfl, hheap b fun e => hb (e ▸ howner), Iff.rfl⟩
  · exact hdata b fun e => hb (e ▸ hd)

/-- The compare-and-swap of `mNext` from null: the last node gets a successor. -/
theorem link_spec (hG : Shape g s) (ha : g.Published a) (hd : s.data a ≠ none)
    (hl : s.links a = none) (hb : Private g s t b) :
    ∃ g', Effect t (some b) g g' s (s.setNext a (some b)) .skip ∧
      (s.setNext a (some b)).links a = some b := by
  have haq : a ∈ g.queue := ha.resolve_right fun h => hG.popped a h hl
  have hpub : ∀ c, g.Published c → c ≠ b := fun c hc e => by
    subst e
    rcases hc with hc | hc
    · simpa [hb.1] using hG.queue _ hc
    · exact hb.2.1 hc
  have hab := hpub a ha
  have hheap := s.setNext_heap a (some b)
  have hlinks := s.setNext_links a (some b)
  have hdata := s.setNext_data a (some b)
  have hlinks' : ∀ c, s.links c ≠ none → (s.setNext a (some b)).links c = s.links c :=
    fun c hc => hlinks ▸ Function.update_of_ne (show c ≠ a from fun e => hc (e ▸ hl)) _ _
  obtain ⟨q₁, q₂, hq, h1, h2⟩ := hG.seg.split haq
  rw [hl] at h2
  obtain rfl : q₂ = [] := Seg.unique h2 rfl
  have hnd := hG.seg.nodup
  rw [hq] at hnd
  refine ⟨{ g with queue := g.queue ++ [b], owner := Function.update g.owner b none },
    ⟨⟨?_, ?_, fun c hc => ?_, fun c hc hcl => ?_, fun c hc => ?_, fun c => ?_, fun c hc => ?_⟩, rfl,
    trivial, nofun, fun c hc => Option.some.inj hc ▸ hb.1, fun c hc hx => ?_, fun c hc _ => ?_,
    fun c _ _ => hdata c, fun c _ hcl => hlinks' c hcl, fun c hc hf hcq => ?_⟩, ?_⟩
  · rw [hq, List.append_assoc, List.singleton_append, hlinks]
    refine Seg.append_iff.2 ⟨_, h1.update fun h => ?_, rfl, ?_⟩
    · exact (List.nodup_append.1 hnd).2.2 a h a (by simp) rfl
    · rw [Function.update_self]
      exact ⟨rfl, by rw [Function.update_of_ne hab.symm, Shared.links, hb.2.2]; rfl⟩
  · obtain ⟨x, hx, hT⟩ := hG.tail
    exact ⟨x, List.mem_append_left _ hx, hT⟩
  · rcases List.mem_append.1 hc with hc | hc
    · simpa [hpub c (.inl hc)] using hG.queue c hc
    · obtain rfl := List.mem_singleton.1 hc
      exact ⟨by simp, hb.2.1⟩
  · rw [hdata]
    by_cases hca : c = a
    · exact hca ▸ hd
    · have hcl' : s.links c ≠ none := by rwa [hlinks, Function.update_of_ne hca] at hcl
      by_cases hcb : c = b
      · exact absurd (by rw [hcb, Shared.links, hb.2.2]) hcl'
      · exact hG.full c (by simpa [Ghost.Published, hcb] using hc) hcl'
  · rw [hlinks' c (hG.popped c hc)]
    exact hG.popped c hc
  · refine (hG.retired c).trans (and_congr_right fun hc => ?_)
    simp [hpub c (.inr hc)]
  · by_cases hcb : c = b
    · exact hcb ▸ hG.allocated b (.inr (by simp [hb.1]))
    · exact hG.allocated c (by simpa [Ghost.Published, hcb] using hc)
  · have hcb : c ≠ b := fun e => hx (e ▸ rfl)
    have hca : c ≠ a := fun e => hc (e ▸ (hG.queue a haq).1)
    exact ⟨by simp [hcb], hheap c hca, Iff.rfl⟩
  · exact hc.imp (List.mem_append_left _) id
  · have hcq' : c ∈ g.queue := (List.mem_append.1 hcq).resolve_right fun h =>
      hpub c hc (List.mem_singleton.1 h)
    exact hf hcq'
  · rw [hlinks, Function.update_self]

omit [DecidableEq τ] in
@[simp] theorem Shared.swing_domain (s : Shared τ A V) (a : A) (n : Option A) :
    (s.swing a n).domain = s.domain := by
  unfold Shared.swing
  split_ifs <;> rfl

/-- `mTail` moves from a node to its successor. -/
theorem swing_spec (hG : Shape g s) (t : τ) (hl : s.links a = some b) :
    Effect t none g g s (s.swing a (some b)) .skip := by
  unfold Shared.swing
  split_ifs with hT
  · obtain ⟨x, hx, hT'⟩ := hG.tail
    obtain rfl : x = a := Option.some.inj (hT'.symm.trans hT)
    refine ⟨⟨hG.seg, ⟨b, hG.seg.next_mem hx hl, rfl⟩, hG.queue, hG.full, hG.popped, hG.retired,
      hG.allocated⟩, rfl, trivial, nofun, nofun, fun _ _ _ => ⟨rfl, rfl, Iff.rfl⟩, fun _ h _ => h,
      fun _ _ _ => rfl, fun _ _ _ => rfl, fun c _ hf hc => ?_⟩
    obtain ⟨h1, -⟩ := hf hc
    -- the head follows no node
    have hseg := hG.seg
    rw [h1] at hseg
    exact ⟨h1, hl ▸ hseg.head_ne_next hx⟩
  · exact quiet_spec hG t s.domain

/-- The compare-and-swap of `mHead`: the old head is the thread's to retire. -/
theorem pop_spec (hG : Shape g s) (t : τ) (hh : s.mHead = some a) (hf : Front g s a)
    (hl : s.links a = some b) :
    ∃ g', Effect t none g g' s { s with mHead := some b } .skip ∧ Popped g' t a := by
  obtain ⟨q, hq, hseg⟩ : ∃ q, g.queue = a :: q ∧ Seg s.links (s.links a) q none := by
    have := hG.seg
    rw [hh] at this
    cases hq : g.queue with
    | nil => rw [hq] at this; cases this
    | cons x q =>
      rw [hq] at this
      obtain rfl : a = x := Option.some.inj this.1
      exact ⟨q, rfl, this.2⟩
  have hnd := hG.seg.nodup
  rw [hq, List.nodup_cons] at hnd
  have haq : a ∈ g.queue := by simp [hq]
  obtain ⟨ho, hap⟩ := hG.queue a haq
  have hmem : ∀ c, c ∈ q → c ∈ g.queue ∧ c ≠ a := fun c hc =>
    ⟨by simp [hq, hc], fun e => hnd.1 (e ▸ hc)⟩
  have hpub : ∀ c, c ∈ q ∨ c ∈ insert a g.popped ↔ g.Published c := fun c => by
    simp only [Ghost.Published, hq, List.mem_cons, Set.mem_insert_iff]
    tauto
  refine ⟨{ g with
      queue := q, popped := insert a g.popped, owner := Function.update g.owner a (some t) },
    ⟨⟨hl ▸ hseg, ?_, fun c hc => ?_, fun c hc => hG.full c ((hpub c).1 hc),
    fun c hc => ?_, fun c => ?_,
    fun c hc => ?_⟩, rfl, trivial, nofun, nofun, fun c hc _ => ?_, fun c hc _ => (hpub c).2 hc,
    fun _ _ _ => rfl, fun _ _ _ => rfl, fun c _ hf' hc => ?_⟩, by simp, Set.mem_insert _ _⟩
  · obtain ⟨x, hx, hT⟩ := hG.tail
    have hxa : x ≠ a := fun e => (hf haq).2 (e ▸ hT)
    rw [hq, List.mem_cons] at hx
    exact ⟨x, hx.resolve_left hxa, hT⟩
  · obtain ⟨hcq, hca⟩ := hmem c hc
    simpa [hca] using hG.queue c hcq
  · rcases hc with rfl | hc
    · show s.links c ≠ none
      simp [hl]
    · exact hG.popped c hc
  · refine (hG.retired c).trans ?_
    by_cases hca : c = a
    · subst hca
      simp [hap]
    · simp [hca]
  · refine hG.allocated c ?_
    by_cases hca : c = a
    · exact .inl (.inl (hca ▸ haq))
    · exact hc.imp (hpub c).1 fun h => by simpa [hca] using h
  · have hca : c ≠ a := fun e => hc (e ▸ ho)
    exact ⟨by simp [hca], rfl, by simp [hca]⟩
  · obtain ⟨hcq, hca⟩ := hmem c hc
    exact absurd (Option.some.inj ((hf' hcq).1.symm.trans hh)) hca

theorem retire_spec (hG : Shape g s) (ha : Popped g t a) :
    ∃ g', Effect t (some a) g g' s { s with domain := s.domain.retire t a } (.retire a) := by
  have hnot : a ∉ g.hazards.retired := fun h => by simpa [ha.1] using (hG.retired a).1 h
  have hq : ∀ b ∈ g.queue, b ≠ a := fun b hb e => (hG.queue b hb).2 (e ▸ ha.2)
  refine ⟨{ g with
      hazards := g.hazards.apply (.retire a), owner := Function.update g.owner a none },
    ⟨hG.seg, hG.tail, fun b hb => ?_, hG.full, hG.popped, fun b => ?_, fun b hb => ?_⟩, rfl, hnot,
    nofun, fun b hb => Option.some.inj hb ▸ ha.1, fun b _ hx => ?_,
    fun _ h _ => h, fun _ _ _ => rfl,
    fun _ _ _ => rfl, fun _ _ h => h⟩
  · simpa [hq b hb] using hG.queue b hb
  · by_cases hba : b = a
    · subst hba
      simp [Hazards.apply, ha.2]
    · simpa [Hazards.apply, hba] using hG.retired b
  · by_cases hba : b = a
    · exact hba ▸ hG.allocated a (.inl (.inr ha.2))
    · exact hG.allocated b (by simpa [Ghost.Published, hba] using hb)
  · have hba : b ≠ a := fun e => hx (e ▸ rfl)
    exact ⟨by simp [hba], rfl, Iff.rfl⟩

/-- A deleter runs. -/
theorem free_spec (hG : Shape g s) (t : τ) {d : Domain τ A}
    (he : g.hazards.Enabled (.free a)) :
    ∃ g', Effect t none g g' s ({ s with domain := d }.free a) (.free a) := by
  obtain ⟨hap, hao⟩ := (hG.retired a).1 he.1
  have hq : ∀ b ∈ g.queue, b ≠ a := fun b hb e => (hG.queue b hb).2 (e ▸ hap)
  have hpub : ∀ b, b ∈ g.queue ∨ b ∈ g.popped \ {a} ↔ g.Published b ∧ b ≠ a := fun b => by
    have := hq b
    simp only [Ghost.Published, Set.mem_sdiff, Set.mem_singleton_iff]
    tauto
  refine ⟨{ g with hazards := g.hazards.apply (.free a), popped := g.popped \ {a} },
    ⟨hG.seg, hG.tail, fun b hb => ⟨(hG.queue b hb).1, fun h => (hG.queue b hb).2 h.1⟩,
      fun b hb => hG.full b ((hpub b).1 hb).1, fun b hb => hG.popped b hb.1,
        fun b => ?_, fun b hb => ?_⟩,
    rfl, he, nofun, nofun, fun b hb _ => ?_, fun b hb hne => ?_, fun _ _ _ => rfl, fun _ _ _ => rfl,
    fun _ _ h => h⟩
  · have := hG.retired b
    simp only [Hazards.apply, Set.mem_sdiff, Set.mem_singleton_iff]
    tauto
  · have hba : b ≠ a := fun e => by
      rcases hb with hb | hb
      · exact ((hpub b).1 hb).2 e
      · exact hb (e ▸ hao)
    have := hG.allocated b (hb.imp (fun h => ((hpub b).1 h).1) id)
    simpa [Shared.free, hba] using this
  · have hba : b ≠ a := fun e => hb (e ▸ hao)
    exact ⟨rfl, rfl, by simp [hba]⟩
  · exact (hpub b).2 ⟨hb, fun e => hne (e ▸ rfl)⟩

end Specs

end MSQueue

end ConcurrencySandbox

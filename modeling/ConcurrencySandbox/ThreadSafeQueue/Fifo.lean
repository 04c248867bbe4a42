import ConcurrencySandbox.Interleaving.Calls
import ConcurrencySandbox.ThreadSafeQueue.Shape

/-!
# ThreadSafeQueue is first in, first out

The values in the queue are those of the nodes from `mHead` up to `mTail`, and of the dummy while a
producer fills it. Only the holder of `mTailLock` writes the dummy, which is blank otherwise, and
only the holder of `mHeadLock` moves `mHead`, so the two sections overlap without meeting: what
`popHead` takes is the oldest value whose producer has moved `mTail`.
-/

namespace ConcurrencySandbox

open Interleaving Structures

namespace ThreadSafeQueue

variable {τ A V : Type*}

/-- The call of a `push`. -/
def begun (act : Act τ A V) (pc : PC A V) : List (Option V) :=
  match act, pc with
  | .call (.push val), .idle => [some val]
  | _, _ => []

/-- A push fills the dummy under `mTailLock`, a pop unlinks the head under `mHeadLock`. -/
def commit (act : Act τ A V) (s : Shared τ A V) (pc : PC A V) : List (Event (Option V)) :=
  match pc, act with
  | .pushData val _, .run => [.push (some val)]
  | .popHead _ val, .run => s.mHead.toList.map fun h => .pop (val.getD (s.heap h).mData)
  | _, _ => []

/-- The return of a `tryPop` or `waitAndPop` that has taken a value. -/
def answer (act : Act τ A V) (pc : PC A V) : List (Option V) :=
  match pc, act with
  | .popped (some ans), .run => [some ans]
  | _, _ => []

/-- What a `push` was called with and has not put into the queue. -/
def owed : PC A V → List (Option V)
  | .pushNode val | .pushLock val _ | .pushData val _ => [some val]
  | _ => []

/-- What a thread has taken and not returned. -/
def taken (s : Shared τ A V) : PC A V → List (Option V)
  | .popUnlock oldHead val | .popRead oldHead val => [val.getD (s.heap oldHead).mData]
  | .popped (some ans) => [some ans]
  | _ => []

/-- A producer has written the data of the dummy, and not moved `mTail` yet. -/
def filling : PC A V → Bool
  | .pushNext _ | .pushTail => true
  | _ => false

/-- What a thread knows of the nodes it works on. -/
def Carries (s : Shared τ A V) : PC A V → Prop
  | .pushLock _ a | .pushData _ a => s.heap a = ⟨none, none⟩
  | .pushNext a => s.heap a = ⟨none, none⟩ ∧ s.links s.mTail = none ∧ (s.heap s.mTail).mData ≠ none
  | .pushTail => (∀ n, s.links s.mTail = some n → s.heap n = ⟨none, none⟩) ∧
      (s.heap s.mTail).mData ≠ none
  | .popHead _ val => ∀ d h, val = some d → s.mHead = some h → d = (s.heap h).mData
  | .popUnlock oldHead val | .popRead oldHead val =>
    (s.heap oldHead).mData ≠ none ∧ ∀ d, val = some d → d = (s.heap oldHead).mData
  | _ => True

/-- The values of the nodes up to `mTail`, and of the dummy when it has one. -/
def content (s : Shared τ A V) (q : List A) : List V :=
  (q ++ [s.mTail]).filterMap fun a => (s.heap a).mData

/-- The shape of the list, its locks and its values. -/
structure Ordered (g : Ghost τ A) (s : Shared τ A V) (f : τ → PC A V) : Prop where
  chained : Chained g s
  placed : ∀ t, Placed g s t (f t)
  headLock : Held holdsHead s.mHeadLock f
  tailLock : Held holdsTail s.mTailLock f
  full : ∀ a ∈ g.nodes, (s.heap a).mData ≠ none
  dummy : (∀ t, filling (f t) = false) → s.heap s.mTail = ⟨none, none⟩
  carries : ∀ t, Carries s (f t)

variable {t u : τ} {s s' : Shared τ A V} {f : τ → PC A V} {p p' q : PC A V}
    {g : Ghost τ A} {a h : A}

/-- Another thread's nodes stay as they are when no step takes them or writes them. -/
theorem Carries.frame (hc : Carries s q) (ho : ∀ a, owned s q = some a → s'.heap a = s.heap a)
    (hT : holdsTail q = true → s'.mTail = s.mTail ∧ s'.heap s.mTail = s.heap s.mTail)
    (hH : popping q = true → s'.mHead = s.mHead ∧
      ∀ h, s.mHead = some h → (s'.heap h).mData = (s.heap h).mData) : Carries s' q := by
  unfold Carries at hc ⊢
  split at hc
  · exact (ho _ rfl).trans hc
  · exact (ho _ rfl).trans hc
  · obtain ⟨h1, h2⟩ := hT rfl
    rw [Shared.links, h1, h2, ho _ rfl]
    exact hc
  · obtain ⟨h1, h2⟩ := hT rfl
    rw [Shared.links, h1, h2]
    exact ⟨fun n hn => (ho n hn).trans (hc.1 n hn), hc.2⟩
  · obtain ⟨h1, h2⟩ := hH rfl
    intro d h hd hh
    rw [h1] at hh
    rw [h2 h hh]
    exact hc d h hd hh
  · rw [ho _ rfl]
    exact hc
  · rw [ho _ rfl]
    exact hc
  · trivial

theorem taken_frame (ho : ∀ a, owned s q = some a → s'.heap a = s.heap a) :
    taken s' q = taken s q := by
  unfold taken
  split
  · rw [ho _ rfl]
  · rw [ho _ rfl]
  all_goals rfl

theorem content_congr {r : List A} (hT : s'.mTail = s.mTail)
    (hd : ∀ a ∈ r ++ [s.mTail], (s'.heap a).mData = (s.heap a).mData) :
    content s' r = content s r := by
  unfold content
  rw [hT]
  exact List.filterMap_congr hd

/-- What a step of thread `t` does to the values. -/
structure Kept (t : τ) (act : Act τ A V) (g : Ghost τ A) (s s' : Shared τ A V) (f : τ → PC A V)
    (p p' : PC A V) : Prop where
  full : ∀ a ∈ nodesAfter s g.nodes p, (s'.heap a).mData ≠ none
  dummy : filling p' = false → (∀ u, u ≠ t → filling (f u) = false) →
    s'.heap s'.mTail = ⟨none, none⟩
  own : Carries s' p'
  others : ∀ u, u ≠ t → Carries s' (f u) ∧ taken s' (f u) = taken s (f u)
  content : ∀ l, Queue.Leaves l ((content s g.nodes).map some) →
    Queue.Leaves (l ++ commit act s p) ((content s' (nodesAfter s g.nodes p)).map some)
  taken : taken s p ++ (commit act s p).filterMap Event.popped? = answer act p ++ taken s' p'

variable {act : Act τ A V}

theorem Ordered.blank (hO : Ordered g s f) (hp : f t = p) (hf : filling p = false)
    (hu : ∀ u, u ≠ t → filling (f u) = false) : s.heap s.mTail = ⟨none, none⟩ :=
  hO.dummy fun u => by
    by_cases hut : u = t
    · rw [hut, hp, hf]
    · exact hu u hut

/-- A step that touches no node. -/
theorem Ordered.stay (hO : Ordered g s f) (hp : f t = p) (hheap : s'.heap = s.heap)
    (hH : s'.mHead = s.mHead) (hT : s'.mTail = s.mTail) (hf : filling p = false)
    (hn : nodesAfter s g.nodes p = g.nodes) (hc : commit act s p = []) (hown : Carries s' p')
    (htk : ThreadSafeQueue.taken s p = answer act p ++ ThreadSafeQueue.taken s' p') :
    Kept t act g s s' f p p' where
  full a ha := by
    rw [hheap]
    exact hO.full a (hn ▸ ha)
  dummy _ hu := by
    rw [hheap, hT]
    exact hO.blank hp hf hu
  own := hown
  others u _ := ⟨(hO.carries u).frame (fun a _ => by rw [hheap]) (fun _ => ⟨hT, by rw [hheap]⟩)
    fun _ => ⟨hH, fun h _ => by rw [hheap]⟩, taken_frame fun a _ => by rw [hheap]⟩
  content l hl := by
    rw [hn, hc, List.append_nil, content_congr hT fun a _ => by rw [hheap]]
    exact hl
  taken := by rw [hc, htk, List.filterMap_nil, List.append_nil]

/-- A node that another thread has to itself is not in the list. -/
theorem Ordered.owned_ne (hO : Ordered g s f) (hu : owned s (f u) = some a) {b : A}
    (hb : b ∈ g.nodes ++ [s.mTail]) : a ≠ b := by
  rintro rfl
  have := (hO.chained.listed a hb).2
  rw [(hO.placed u).owns a hu] at this
  cases this

/-- `mHead` is a node of the list. -/
theorem Ordered.head_mem (hO : Ordered g s f) (hh : s.mHead = some h) :
    h ∈ g.nodes ++ [s.mTail] := by
  have hseg := hO.chained.seg.snoc
  cases hq : g.nodes with
  | nil =>
    rw [hq, hh] at hseg
    rw [Option.some.inj hseg.1]
    exact List.mem_singleton_self _
  | cons x q =>
    rw [hq, hh] at hseg
    rw [Option.some.inj hseg.1]
    exact List.mem_cons_self

theorem Ordered.tail_not_mem (hO : Ordered g s f) : s.mTail ∉ g.nodes := fun h =>
  (List.nodup_append.1 hO.chained.nodup).2.2 _ h _ (List.mem_singleton_self _) rfl

/-- No other thread is in the section of `mTailLock`. -/
theorem Ordered.tail_alone (hO : Ordered g s f) (hp : holdsTail (f t) = true) (hu : u ≠ t) :
    holdsTail (f u) = false :=
  Bool.eq_false_iff.2 fun h => hu (hO.tailLock.eq h hp)

theorem Ordered.head_alone (hO : Ordered g s f) (hp : holdsHead (f t) = true) (hu : u ≠ t) :
    holdsHead (f u) = false :=
  Bool.eq_false_iff.2 fun h => hu (hO.headLock.eq h hp)

theorem filling_holds (h : holdsTail p = false) : filling p = false := by
  cases p <;> first | rfl | cases h

theorem popping_holds (h : holdsHead p = false) : popping p = false := by
  cases p <;> first | rfl | cases h

/-- A consumer that pops finds `mHead` at a node with a value. -/
theorem Ordered.popping_mem (hO : Ordered g s f) (hp : popping (f u) = true)
    (hh : s.mHead = some h) : h ∈ g.nodes := by
  obtain ⟨x, q, hq⟩ := List.exists_cons_of_ne_nil ((hO.placed u).pops hp)
  have hseg := hO.chained.seg
  rw [hq, hh] at hseg
  rw [hq, Option.some.inj hseg.1]
  exact List.mem_cons_self

variable [DecidableEq A]

theorem Ordered.make (hO : Ordered g s f) {val : V} (hp : f t = .pushNode val)
    (ha : ¬ s.allocated a = true) :
    Kept t act g s (s.make a) f (.pushNode val) (.pushLock val a) := by
  have hne : ∀ b ∈ g.nodes ++ [s.mTail], b ≠ a := fun b hb he =>
    ha (he ▸ (hO.chained.listed b hb).1)
  have hheap : ∀ b, b ≠ a → (s.make a).heap b = s.heap b := fun b hb => Function.update_of_ne hb _ _
  have howned : ∀ u b, owned s (f u) = some b → b ≠ a := fun u b hb he =>
    ha (he ▸ hO.chained.owner b (by rw [(hO.placed u).owns b hb]; exact Option.some_ne_none u))
  have htail : s.mTail ≠ a := hne _ (by simp)
  refine ⟨fun b hb => ?_, fun _ hu => ?_, ?_, fun u hu => ⟨?_, ?_⟩, fun l hl => ?_, rfl⟩
  · rw [hheap b (hne b (List.mem_append_left _ hb))]
    exact hO.full b hb
  · change (s.make a).heap s.mTail = _
    rw [hheap _ htail]
    exact hO.blank hp rfl hu
  · exact Function.update_self ..
  · refine (hO.carries u).frame (fun b hb => hheap b (howned u b hb))
      (fun _ => ⟨rfl, hheap _ htail⟩)
      fun _ => ⟨rfl, fun h hh => ?_⟩
    rw [hheap h (hne h (hO.head_mem hh))]
  · exact taken_frame fun b hb => hheap b (howned u b hb)
  · have hcont : content (s.make a) g.nodes = content s g.nodes :=
      content_congr rfl fun b hb => by rw [hheap b (hne b hb)]
    change Queue.Leaves (l ++ []) ((content (s.make a) g.nodes).map some)
    rwa [List.append_nil, hcont]

theorem Ordered.setData (hO : Ordered g s f) {val : V} (hp : f t = .pushData val a) :
    Kept t .run g s (s.setData s.mTail (some val)) f (.pushData val a) (.pushNext a) := by
  have hother : ∀ u, u ≠ t → holdsTail (f u) = false := fun u hu =>
    hO.tail_alone (by rw [hp]; rfl) hu
  have hblank := hO.blank hp rfl fun u hu => filling_holds (hother u hu)
  have hheap : ∀ b, b ≠ s.mTail → (s.setData s.mTail (some val)).heap b = s.heap b :=
    fun b hb => Function.update_of_ne hb _ _
  have hself : (s.setData s.mTail (some val)).heap s.mTail = ⟨some val, none⟩ := by
    simp [Shared.setData, hblank]
  have htail : s.mTail ∈ g.nodes ++ [s.mTail] := by simp
  refine ⟨fun b hb => ?_, by rintro ⟨⟩, ⟨?_, ?_, ?_⟩, fun u hu => ⟨?_, ?_⟩, fun l hl => ?_, rfl⟩
  · rw [hheap b fun he => hO.tail_not_mem (he ▸ hb)]
    exact hO.full b hb
  · have ha := hO.carries t
    rw [hp] at ha
    rw [hheap a (hO.owned_ne (u := t) (by rw [hp]; rfl) htail)]
    exact ha
  · change ((s.setData s.mTail (some val)).heap s.mTail).mNext = none
    rw [hself]
  · change ((s.setData s.mTail (some val)).heap s.mTail).mData ≠ none
    rw [hself]
    exact Option.some_ne_none val
  · refine (hO.carries u).frame (fun b hb => hheap b (hO.owned_ne hb htail))
      (fun h => absurd h (by simp [hother u hu])) fun hpop => ⟨rfl, fun h hh => ?_⟩
    rw [hheap h fun he => hO.tail_not_mem (he ▸ hO.popping_mem hpop hh)]
  · exact taken_frame fun b hb => hheap b (hO.owned_ne hb htail)
  · have hcont : content (s.setData s.mTail (some val)) g.nodes = content s g.nodes ++ [val] := by
      unfold content
      rw [List.filterMap_append, List.filterMap_append, List.filterMap_congr fun b hb => by
        rw [hheap b fun he => hO.tail_not_mem (he ▸ hb)]]
      change _ ++ [s.mTail].filterMap (fun b => ((s.setData s.mTail (some val)).heap b).mData) = _
      simp [hself, hblank]
    change Queue.Leaves _ ((content (s.setData s.mTail (some val)) g.nodes).map some)
    rw [hcont, List.map_append]
    exact hl.push _

/-- Writing the link of a node leaves its data. -/
theorem setNext_data (s : Shared τ A V) (a b : A) (n : Option A) :
    ((s.setNext a n).heap b).mData = (s.heap b).mData := by
  by_cases h : b = a <;> simp [Shared.setNext, h]

theorem Ordered.setNext (hO : Ordered g s f) (hp : f t = .pushNext a) :
    Kept t .run g s (s.setNext s.mTail (some a)) f (.pushNext a) .pushTail := by
  have hheap : ∀ b, b ≠ s.mTail → (s.setNext s.mTail (some a)).heap b = s.heap b :=
    fun b hb => Function.update_of_ne hb _ _
  have htail : s.mTail ∈ g.nodes ++ [s.mTail] := by simp
  have hc := hO.carries t
  rw [hp] at hc
  refine ⟨fun b hb => ?_, nofun, ⟨fun n hn => ?_, ?_⟩, fun u hu => ⟨?_, ?_⟩, fun l hl => ?_, rfl⟩
  · rw [setNext_data]
    exact hO.full b hb
  · change (s.setNext s.mTail (some a)).links s.mTail = some n at hn
    rw [links_setNext, Function.update_self, Option.some.injEq] at hn
    subst hn
    rw [hheap a (hO.owned_ne (u := t) (by rw [hp]; rfl) htail)]
    exact hc.1
  · rw [setNext_data]
    exact hc.2.2
  · refine (hO.carries u).frame (fun b hb => hheap b (hO.owned_ne hb htail)) (fun h => ?_)
      fun _ => ⟨rfl, fun h _ => setNext_data ..⟩
    rw [hO.tail_alone (t := t) (by rw [hp]; rfl) hu] at h
    cases h
  · exact taken_frame fun b hb => hheap b (hO.owned_ne hb htail)
  · have hcont : content (s.setNext s.mTail (some a)) g.nodes = content s g.nodes :=
      content_congr rfl fun b _ => setNext_data ..
    change Queue.Leaves (l ++ []) ((content (s.setNext s.mTail (some a)) g.nodes).map some)
    rwa [List.append_nil, hcont]

omit [DecidableEq A] in
theorem Ordered.setTail (hO : Ordered g s f) {n : A} (hp : f t = .pushTail)
    (hl : (s.heap s.mTail).mNext = some n) :
    Kept t .run g s { s with mTail := n } f .pushTail .pushUnlock := by
  have hc := hO.carries t
  rw [hp] at hc
  have hn : s.heap n = ⟨none, none⟩ := hc.1 n hl
  refine ⟨fun b hb => ?_, fun _ _ => hn, trivial, fun u hu => ⟨?_, taken_frame fun _ _ => ?_⟩,
    fun l hq => ?_, rfl⟩
  · rcases List.mem_append.1 hb with hb | hb
    · exact hO.full b hb
    · rw [List.mem_singleton.1 hb]
      exact hc.2
  · -- nothing that another thread knows of mentions `mTail`
    have hu' := hO.tail_alone (t := t) (by rw [hp]; rfl) hu
    refine (hO.carries u).frame (fun b hb => rfl) (fun h => ?_) fun _ => ⟨rfl, fun h _ => rfl⟩
    rw [hu'] at h
    cases h
  · rfl
  · have hcont : content { s with mTail := n } (g.nodes ++ [s.mTail]) = content s g.nodes := by
      simp [content, hn]
    change Queue.Leaves (l ++ []) ((content { s with mTail := n } (g.nodes ++ [s.mTail])).map some)
    rwa [List.append_nil, hcont]

theorem Ordered.popHead (hO : Ordered g s f) {wait : Bool} {val : Option (Option V)}
    (hp : f t = .popHead wait val) (hh : s.mHead = some h) :
    Kept t .run g s (({ s with mHead := (s.heap h).mNext }).setNext h none) f (.popHead wait val)
      (.popUnlock h val) := by
  set s' := ({ s with mHead := (s.heap h).mNext }).setNext h none with hs'
  have hdata : ∀ b, (s'.heap b).mData = (s.heap b).mData := fun b => setNext_data ..
  have hheap : ∀ b, b ≠ h → s'.heap b = s.heap b := fun b hb => Function.update_of_ne hb _ _
  obtain ⟨x, q, hq⟩ := List.exists_cons_of_ne_nil ((hO.placed t).pops (by rw [hp]; rfl))
  have hseg := hO.chained.seg
  rw [hq, hh] at hseg
  obtain rfl : h = x := Option.some.inj hseg.1
  have hmem : h ∈ g.nodes := hq ▸ List.mem_cons_self
  have htail : s.mTail ≠ h := fun he => hO.tail_not_mem (he ▸ hmem)
  have hhead : h ∈ g.nodes ++ [s.mTail] := List.mem_append_left _ hmem
  obtain ⟨v, hv⟩ := Option.ne_none_iff_exists'.1 (hO.full h hmem)
  have hc := hO.carries t
  rw [hp] at hc
  have hval : val.getD (s.heap h).mData = some v := by
    cases val with
    | none => exact hv
    | some d => exact (hc d h rfl hh).trans hv
  refine ⟨fun b hb => ?_, fun _ hu => ?_, ⟨?_, fun d hd => ?_⟩,
    fun u hu => ⟨?_, ?_⟩, fun l hl => ?_, ?_⟩
  · rw [hdata]
    exact hO.full b (List.mem_of_mem_tail hb)
  · change s'.heap s.mTail = _
    rw [hheap _ htail]
    exact hO.blank hp rfl hu
  · rw [hdata, hv]
    exact Option.some_ne_none v
  · rw [hdata]
    exact hc d h hd hh
  · refine (hO.carries u).frame (fun b hb => hheap b (hO.owned_ne hb hhead))
      (fun _ => ⟨rfl, hheap _ htail⟩) fun hpop => ?_
    rw [popping_holds (hO.head_alone (t := t) (by rw [hp]; rfl) hu)] at hpop
    cases hpop
  · exact taken_frame fun b hb => hheap b (hO.owned_ne hb hhead)
  · have hcont : content s g.nodes = v :: content s' q := by
      unfold content
      rw [hq, List.cons_append, List.filterMap_cons, hv]
      simp only [hdata]
      rfl
    change Queue.Leaves (l ++ s.mHead.toList.map fun h => .pop (val.getD (s.heap h).mData))
      ((content s' g.nodes.tail).map some)
    rw [hh, Option.toList_some, List.map_singleton, hval, hq, List.tail_cons]
    rw [hcont] at hl
    exact hl.pop
  · change [] ++ (s.mHead.toList.map fun h => Event.pop (val.getD (s.heap h).mData)).filterMap
      Event.popped? = [] ++ [val.getD (s'.heap h).mData]
    rw [hh, hdata]
    rfl

variable [DecidableEq τ]

theorem kept_step (hO : Ordered g s f) (hp : f t = p) (hn : next t act s p = some (s', p')) :
    Kept t act g s s' f p p' := by
  have hc := hO.carries t
  rw [hp] at hc
  revert hn
  fun_cases next t act s p <;> intro hn <;> cases hn
  -- steps that touch no node: the calls, the locks, the sleepers, the tests and the returns
  all_goals try exact hO.stay hp rfl rfl rfl rfl rfl rfl trivial rfl
  · exact hO.make hp ‹_›
  · exact hO.stay hp rfl rfl rfl rfl rfl rfl hc rfl
  · exact hO.setData hp
  · exact hO.setNext hp
  · exact hO.setTail hp ‹_›
  · exact hO.stay hp rfl rfl rfl rfl rfl rfl (by rintro _ _ ⟨⟩) rfl
  · exact hO.stay hp rfl rfl rfl rfl rfl rfl (by rintro _ _ ⟨⟩) rfl
  · refine hO.stay hp rfl rfl rfl rfl rfl rfl (fun d h hd hh => ?_) rfl
    rename_i n hhead
    obtain rfl : n = h := Option.some.inj (hhead.symm.trans hh)
    exact (Option.some.inj hd).symm
  · exact hO.popHead hp ‹_›
  · exact hO.stay hp rfl rfl rfl rfl rfl rfl hc rfl
  · rename_i oldHead val
    obtain ⟨v, hv⟩ := Option.ne_none_iff_exists'.1 hc.1
    have hval : val.getD (s.heap oldHead).mData = some v := by
      cases val with
      | none => exact hv
      | some d => exact (hc.2 d rfl).trans hv
    rw [hval]
    exact hO.stay hp rfl rfl rfl rfl rfl rfl trivial (congrArg (fun x => [x]) hval)
  · rename_i val
    cases val with
    | none => exact hO.stay hp rfl rfl rfl rfl rfl rfl trivial rfl
    | some v => exact hO.stay hp rfl rfl rfl rfl rfl rfl trivial rfl

theorem ordered_step (hO : Ordered g s f) (hn : next t act s (f t) = some (s', p')) :
    ∃ g' : Ghost τ A, Ordered g' s' (Function.update f t p') ∧
      g'.nodes = nodesAfter s g.nodes (f t) ∧ Kept t act g s s' f (f t) p' := by
  have hk := kept_step hO rfl hn
  obtain ⟨g', hq, hG, hown, hother⟩ := shape_step hO.chained hO.placed hO.headLock hO.tailLock hn
  refine ⟨g', ⟨hG, Program.forall_update hown hother, hO.headLock.step (next_head hn),
    hO.tailLock.step (next_tail hn), fun a ha => hk.full a (hq ▸ ha), fun hall => ?_,
    Program.forall_update (L := fun _ => Carries s') hk.own fun u hu => (hk.others u hu).1⟩, hq, hk⟩
  refine hk.dummy ?_ fun u hu => ?_
  · simpa using hall t
  · simpa [hu] using hall u

/-- A `push` puts what it was called with into the queue, once, before it returns. -/
theorem next_calls (hn : next t act s p = some (s', p')) :
    owed p ++ begun act p = (commit act s p).filterMap Event.pushed? ++ owed p' := by
  revert hn
  fun_cases next t act s p <;> intro hn <;> cases hn <;> try rfl
  all_goals simp [owed, begun, commit, *]

/-- A pop that is about to report an empty queue. -/
def FoundEmpty (p : PC A V) : Prop := p = .tryUnlock ∨ p = .popped none

theorem next_foundEmpty (hO : Ordered g s f) (hp : f t = p) (hn : next t act s p = some (s', p'))
    (he : FoundEmpty p') (hno : ¬ FoundEmpty p) :
    ∃ byRef tail, p = .tryTest byRef tail ∧ s.mHead = some tail := by
  have hc := hO.carries t
  rw [hp] at hc
  revert hn
  fun_cases next t act s p <;> intro hn <;> cases hn
  all_goals try (simp [FoundEmpty] at he; done)
  · exact ⟨_, _, rfl, ‹_›⟩
  · exact absurd (.inl rfl) hno
  · rename_i oldHead val
    obtain ⟨hd, hval⟩ := hc
    simp only [FoundEmpty, reduceCtorEq, PC.popped.injEq, false_or] at he
    cases val with
    | none => exact absurd he hd
    | some d => exact absurd ((hval d rfl).symm.trans he) hd

section Runs

variable {k i : ℕ} (r : (system (τ := τ) (A := A) (V := V)).Run (fun _ _ => True) k)

/-- The pushes in the order of their sections of `mTailLock`, and the pops in that of `popHead`. -/
def history (i : ℕ) : List (τ × Event (Option V)) :=
  r.log (fun c l => (commit l.2 c.shared (c.pc l.1)).map (l.1, ·)) i

/-- What `push` has been called with. -/
def called (i : ℕ) : List (τ × Option V) :=
  r.log (fun c l => (begun l.2 (c.pc l.1)).map (l.1, ·)) i

/-- What calls have returned, an empty queue apart. -/
def returned (i : ℕ) : List (τ × Option V) :=
  r.log (fun c l => (answer l.2 (c.pc l.1)).map (l.1, ·)) i

structure Fifo (i : ℕ) : Prop where
  nodes : ∃ q, Seg (r.state i).shared.links (r.state i).shared.mHead q
      (some (r.state i).shared.mTail) ∧ (q ++ [(r.state i).shared.mTail]).Nodup ∧
    ∀ a ∈ q, ((r.state i).shared.heap a).mData ≠ none ∧ (r.state i).shared.links a ≠ none
  dummy : (r.state i).shared.mTailLock = none →
    (r.state i).shared.links (r.state i).shared.mTail = none
  order : ((history r i).map Prod.snd).filterMap Event.popped? <+:
    ((history r i).map Prod.snd).filterMap Event.pushed?
  calls : ∀ t, eventsOf t (called r i) =
    (eventsOf t (history r i)).filterMap Event.pushed? ++ owed ((r.state i).pc t)
  results : ∀ t, (eventsOf t (history r i)).filterMap Event.popped? =
    eventsOf t (returned r i) ++ taken (r.state i).shared ((r.state i).pc t)
  deref : ∀ t, popping ((r.state i).pc t) = true → ∃ h v,
    (r.state i).shared.mHead = some h ∧ ((r.state i).shared.heap h).mData = some v
  empty : ∀ t, FoundEmpty ((r.state i).pc t) → ∃ j < i, ∃ byRef, (r.label j).1 = t ∧
    (r.state j).pc t = .tryTail byRef ∧ (r.state j).shared.mHead = some (r.state j).shared.mTail ∧
      Queue.Leaves ((history r j).map Prod.snd) [] ∧
        ∀ m, j < m → m ≤ i → (∃ tail, (r.state m).pc t = .tryTest byRef tail) ∨
          FoundEmpty ((r.state m).pc t)

/-- It lasts for the whole run. -/
def Correct : Prop := ∀ i ≤ k, Fifo r i

variable {r}

theorem history_succ : history r (i + 1) = history r i ++
    (commit (r.label i).2 (r.state i).shared ((r.state i).pc (r.label i).1)).map
      ((r.label i).1, ·) :=
  r.log_succ _ i

theorem ordered_run (hi : i ≤ k) : ∃ g : Ghost τ A,
    Ordered g (r.state i).shared (r.state i).pc ∧
      Queue.Leaves ((history r i).map Prod.snd)
        ((content (r.state i).shared g.nodes).map some) := by
  induction i with
  | zero =>
    obtain ⟨⟨a, hs⟩, hp⟩ := r.init
    refine ⟨⟨[], fun _ => none⟩, ⟨?_, fun t => ?_, ?_, ?_, nofun, fun _ => ?_, fun t => ?_⟩, ?_⟩
    · rw [hs]
      exact ⟨by simp [initial], by simp, by simp [initial], by simp⟩
    · rw [hp]
      exact ⟨by simp [owned], by simp [popping], by simp [ThreadSafeQueue.seen]⟩
    · rw [hs, hp]
      exact .init rfl
    · rw [hs, hp]
      exact .init rfl
    · rw [hs]
      rfl
    · rw [hp]
      trivial
    · rw [hs]
      exact .nil
  | succ i ih =>
    obtain ⟨g, hO, hq⟩ := ih (by omega)
    obtain ⟨hn, hother⟩ := Program.run_step r hi
    have hpc : (r.state (i + 1)).pc = Function.update (r.state i).pc (r.label i).1
        ((r.state (i + 1)).pc (r.label i).1) := by
      funext u
      by_cases hu : u = (r.label i).1
      · rw [hu, Function.update_self]
      · rw [Function.update_of_ne hu, hother u hu]
    obtain ⟨g', hO', hnodes, hk⟩ := ordered_step hO hn
    rw [← hpc] at hO'
    have hl := hk.content _ hq
    refine ⟨g', hO', ?_⟩
    rw [history_succ, List.map_append, List.map_map, hnodes]
    simpa [Function.comp_def] using hl

theorem results_run (hi : i ≤ k) (t : τ) : (eventsOf t (history r i)).filterMap Event.popped? =
    eventsOf t (returned r i) ++ taken (r.state i).shared ((r.state i).pc t) := by
  unfold history returned
  rw [System.Run.filterMap_eventsOf_log]
  refine r.eventsOf_log (fun c t => taken c.shared (c.pc t)) (fun t => ?_) (fun i hi => ?_)
    (fun i hi u hu => ?_) hi t
  · rw [r.init.2]
    rfl
  all_goals
    obtain ⟨g, hO, -⟩ := ordered_run (r := r) hi.le
    obtain ⟨hn, hother⟩ := Program.run_step r hi
    obtain ⟨-, -, -, hk⟩ := ordered_step hO hn
  · exact hk.taken
  · rw [hother u hu, (hk.others u hu).2]

theorem calls_run (hi : i ≤ k) (t : τ) : eventsOf t (called r i) =
    (eventsOf t (history r i)).filterMap Event.pushed? ++ owed ((r.state i).pc t) := by
  unfold called history
  rw [System.Run.filterMap_eventsOf_log]
  exact Program.eventsOf_log r rfl (fun i hi => next_calls (Program.run_step r hi).1) hi t

end Runs

end ThreadSafeQueue

end ConcurrencySandbox

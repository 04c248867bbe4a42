import ConcurrencySandbox.HazardPointer.Refinement
import ConcurrencySandbox.LockFreeHashMap.Basic
import ConcurrencySandbox.Structures.Chain
import ConcurrencySandbox.Structures.Precedes

/-!
# The shape of the list

The nodes from `mHead` are a chain in the order of their keys; a node that has left it is marked, so
an unmarked node whose address was not handed out again is in the list. What a marked node has for a
link stays. `find` has passed no node with its key (`Clear`) as long as the node it stands at is in
the list, for a new node goes behind all nodes with its hash value.
-/

namespace ConcurrencySandbox

open Interleaving Structures HazardPointer

namespace LockFreeHashMap

variable {τ A K V : Type*}

def Node.name (n : Node A K V) : HashValueType × Option K := (n.mHashValue, n.key)

namespace Shared

variable (s : Shared τ A K V)

def links (a : A) : Option A := (s.heap a).mNext.1

def marked (a : A) : Bool := (s.heap a).mNext.2

/-- The list holds the key with this value: a node with them is reached from `mHead` and is not
marked. -/
def Holds (key : K) (value : V) : Prop :=
  ∃ a, Reaches s.links s.mHead a ∧ s.marked a = false ∧ (s.heap a).mValue = some (key, value)

end Shared

namespace Call

variable (mHash : K → HashValueType) (c : Call K V)

def name : HashValueType × Option K := (c.hashValue mHash, c.key)

/-- The sentinel of the bucket is not behind the key. -/
def Legal : Prop := makeSentinelKey c.slot ≤ c.hashValue mHash

/-- It is in front of it. -/
def Strict : Prop := makeSentinelKey c.slot < c.hashValue mHash

variable {mHash c}

theorem hashValue_of_key {k : K} (h : c.key = some k) :
    c.hashValue mHash = makeOrdinaryKey (mHash k) := by
  cases c <;> cases h <;> rfl

/-- No sentinel has an ordinary key. -/
theorem Legal.strict (h : c.Legal mHash) (hk : c.key ≠ none) : c.Strict mHash := by
  obtain ⟨k, hk⟩ := Option.ne_none_iff_exists'.1 hk
  refine Std.lt_of_le_of_ne h fun he => ?_
  rw [hashValue_of_key hk] at he
  exact makeSentinelKey_ne _ _ he

end Call

/-- A change of what the list holds. -/
inductive Change (K V : Type*)
  | none
  | add (key : K) (value : V)
  | remove (key : K)

def Change.apply : Change K V → (K → V → Prop) → K → V → Prop
  | .none, P, k, v => P k v
  | .add key value, P, k, v => P k v ∨ k = key ∧ v = value
  | .remove key, P, k, v => P k v ∧ k ≠ key

/-- A key is added when it is absent and removed when it is present. -/
def Change.Fits : Change K V → (K → V → Prop) → Prop
  | .none, _ => True
  | .add key _, P => ∀ v, ¬ P key v
  | .remove key, P => ∃ v, P key v

/-- What the proof keeps track of beside the state: the hazard slots, the nodes from `mHead` on, the
nodes that have been linked and whose address was not handed out since, and which thread has a node
to itself. -/
structure Ghost (τ A : Type*) where
  hazards : Hazards (τ × ℕ) A
  list : List A
  published : Set A
  owner : A → Option τ

structure Shape (mHash : K → HashValueType) (g : Ghost τ A) (s : Shared τ A K V) : Prop where
  seg : Seg s.links (some s.mHead) g.list none
  sorted : ∀ a b, Precedes g.list a b → (s.heap a).mHashValue ≤ (s.heap b).mHashValue
  unique : ∀ a ∈ g.list, ∀ b ∈ g.list, (s.heap a).key = (s.heap b).key →
    (s.heap a).key ≠ none → a = b
  listed : ∀ a ∈ g.list, a ∈ g.published ∧ a ∉ g.hazards.retired ∧ g.owner a = none
  unlinked : ∀ a ∈ g.published, a ∉ g.list → s.marked a = true
  ordinary : ∀ a ∈ g.published, ∀ k, (s.heap a).key = some k →
    (s.heap a).mHashValue = makeOrdinaryKey (mHash k)
  sentinel : ∀ a ∈ g.published, (s.heap a).key = none →
    s.marked a = false ∧ ∀ i, (s.heap a).mHashValue ≠ makeOrdinaryKey i
  retired : ∀ a ∈ g.hazards.retired, a ∈ g.published ∧ g.owner a = none
  allocated : ∀ a, a ∈ g.list ∨ a ∈ g.hazards.retired ∨ g.owner a ≠ none → s.allocated a = true
  buckets : ∀ i a, s.mBuckets i = some a →
    a ∈ g.list ∧ (s.heap a).key = none ∧ (s.heap a).mHashValue = makeSentinelKey i

/-- A published node that slot `i` of the thread keeps from being freed. -/
def Claimed (g : Ghost τ A) (s : Shared τ A K V) (t : τ) (i : Fin 3) (a : A) : Prop :=
  a ∈ g.published ∧ s.allocated a = true ∧ g.hazards.Guarded (t, i) a

/-- While the node is in the list, what is before it does not have the name. -/
def Clear (g : Ghost τ A) (s : Shared τ A K V) (x : HashValueType × Option K) (a : A) : Prop :=
  (s.heap a).mHashValue ≤ x.1 → ∀ m, Precedes g.list m a → (s.heap m).name ≠ x

/-- A new node the thread has not linked. -/
def Private (mHash : K → HashValueType) (g : Ghost τ A) (s : Shared τ A K V) (t : τ) (c : Call K V)
    (a : A) : Prop :=
  g.owner a = some t ∧ a ∉ g.published ∧ (s.heap a).name = c.name mHash ∧
    (s.heap a).mValue = c.value ∧ s.marked a = false

/-- A node the thread has unlinked and is to retire. -/
def Unlinked (g : Ghost τ A) (t : τ) (a : A) : Prop := g.owner a = some t ∧ a ∈ g.published

/-- A sentinel that is in the list for good. -/
def Rooted (mHash : K → HashValueType) (g : Ghost τ A) (s : Shared τ A K V) (c : Call K V)
    (a : A) : Prop :=
  a ∈ g.list ∧ (s.heap a).key = none ∧ (s.heap a).mHashValue = c.hashValue mHash

section Places

variable (mHash : K → HashValueType) (g : Ghost τ A) (s : Shared τ A K V) (t : τ)
  (c : Caller A K V) (h : Holders)

/-- `find` has come to the node. -/
def Met (i : Fin 3) (a : A) : Prop :=
  Claimed g s t i a ∧ (c.call.Strict mHash → Clear g s (c.call.name mHash) a)

/-- `find` has gone past the node. -/
def Passed (a : A) : Prop :=
  Met mHash g s t c h.pred a ∧ (s.heap a).mHashValue ≤ c.call.hashValue mHash ∧
    (c.call.Strict mHash → (s.heap a).name ≠ c.call.name mHash)

def Standing : Site A → Prop
  | .head => True
  | .cur pred => Passed mHash g s t c h pred ∧ (s.heap pred).key = none
  | .succ pred cur => Passed mHash g s t c h pred ∧ Met mHash g s t c h.cur cur

/-- The node `find` has returned is the first that is not before the name. -/
def Returned (pred cur : A) : Prop :=
  Passed mHash g s t c h pred ∧ Claimed g s t h.cur cur ∧
    (c.call.hashValue mHash < (s.heap cur).mHashValue ∨ (s.heap cur).name = c.call.name mHash)

/-- The call may link its new node in front of `cur`. -/
def Inserting (pred cur : A) : Prop :=
  Passed mHash g s t c h pred ∧ Claimed g s t h.cur cur ∧
    c.call.hashValue mHash < (s.heap cur).mHashValue

/-- The call may mark `cur`. -/
def Removing (pred cur : A) : Prop :=
  Passed mHash g s t c h pred ∧ Claimed g s t h.cur cur ∧ (s.heap cur).key = c.call.key ∧
    c.call.key ≠ none

/-- `cur` is marked, and may be unlinked. -/
def Unlinking (pred cur : A) (succ : Option A) : Prop :=
  Passed mHash g s t c h pred ∧ Claimed g s t h.cur cur ∧ s.marked cur = true ∧ s.links cur = succ

def At : PC τ A K V → Prop
  | .new call => call.value.map Prod.fst = call.key
  | .claimLoad c h site | .claimStore c h site _ =>
    c.call.isGet = false → Standing mHash g s t c h site
  | .claimCheck c h site p => (c.call.isGet = false → Standing mHash g s t c h site) ∧
      g.hazards.pointer (t, site.holder h) = p
  | .findUnlink c h pred cur succ => Unlinking mHash g s t c h pred cur succ ∧
      (cur ∈ g.list → ∀ p, succ = some p → Claimed g s t h.succ p)
  | .findDrop c h pred cur succ | .findRetire c h pred cur succ =>
    Passed mHash g s t c h pred ∧ Unlinked g t cur ∧
      ∀ p, succ = some p → Met mHash g s t c h.succ p
  | .findRetiring f c h pred succ => InRetire f ∧ Passed mHash g s t c h pred ∧
      ∀ p, succ = some p → Met mHash g s t c h.succ p
  | .findTest c h pred cur succ => Passed mHash g s t c h pred ∧ Met mHash g s t c h.cur cur ∧
      ∀ p, succ = some p → Claimed g s t h.succ p ∧
        ((s.heap cur).mHashValue ≤ c.call.hashValue mHash →
          (s.heap cur).name ≠ c.call.name mHash →
            c.call.Strict mHash → Clear g s (c.call.name mHash) p)
  | .getTest c .. => c.call.isGet = true
  | .findReturn c h pred cur | .found c h pred cur => Returned mHash g s t c h pred cur
  | .insertStore c h pred cur => Inserting mHash g s t c h pred cur
  | .insertCas c h pred cur => Inserting mHash g s t c h pred cur ∧
      ∀ a, c.newNode = some a → s.links a = some cur
  | .removeLoad c h pred cur | .removeMark c h pred cur _ => Removing mHash g s t c h pred cur
  | .removeUnlink c h pred cur succ => Unlinking mHash g s t c h pred cur succ
  | .removeDrop _ _ _ cur | .removeRetire _ _ _ cur => Unlinked g t cur
  | .release c _ (.publish a) | .publishLoad c a | .publishStore c a => Rooted mHash g s c.call a
  | _ => True

end Places

/-- The call a thread is in, with the node it has made. -/
def PC.caller : PC τ A K V → Option (Caller A K V)
  | .domain _ | .returned .. => none
  | .new call => some ⟨call, none⟩
  | .claimLoad c .. | .claimStore c .. | .claimCheck c .. | .findUnlink c .. | .findDrop c ..
  | .findRetire c .. | .findRetiring _ c .. | .findTest c .. | .findReturn c .. | .getTest c ..
  | .found c .. | .insertStore c .. | .insertCas c .. | .removeLoad c .. | .removeMark c ..
  | .removeUnlink c .. | .removeDrop c .. | .removeRetire c .. | .removeRetiring _ c ..
  | .release c .. | .publishLoad c .. | .publishStore c .. | .delete c .. => some c

/-- What a call relies on from its first step on. -/
def Calling (mHash : K → HashValueType) (g : Ghost τ A) (s : Shared τ A K V) (t : τ)
    (c : Caller A K V) : Prop :=
  c.call.Legal mHash ∧ ∀ a, c.newNode = some a → Private mHash g s t c.call a

def Placed (mHash : K → HashValueType) (g : Ghost τ A) (s : Shared τ A K V) (t : τ)
    (p : PC τ A K V) : Prop :=
  (∀ c, p.caller = some c → Calling mHash g s t c) ∧ At mHash g s t p

/-- How the link of a published node may change. -/
inductive Relink (g g' : Ghost τ A) (s s' : Shared τ A K V) (a : A) : Prop
  | same (h : s'.links a = s.links a)
  | unlink (b : A) (h : s.links a = some b) (hb : b ∈ g.list) (hm : s.marked b = true)
      (h' : s'.links a = s.links b)
  | insert (b c : A) (h : s.links a = some c) (h' : s'.links a = some b) (hb : s'.links b = some c)
      (hl : b ∈ g'.list) (hh : (s'.heap b).mHashValue < (s.heap c).mHashValue)

/-- What a step of thread `t` may do: it gives up the node `x` of its own if any, all others stay
with their threads; a published node keeps its key and value, and its link once it is marked, and
does not come back into the list; and what the list holds changes as `δ` says. -/
structure Effect [DecidableEq τ] [DecidableEq A] (mHash : K → HashValueType)
    (t : τ) (act : Act A K V)
    (x : Option A) (δ : Change K V) (g g' : Ghost τ A) (s s' : Shared τ A K V)
    (e : Hazards.Event (τ × ℕ) A) : Prop where
  shape : Shape mHash g' s'
  hazards : g'.hazards = g.hazards.apply e := by rfl
  enabled : g.hazards.Enabled e := by trivial
  store : ∀ y v, e = .store y v → y.1 = t := by nofun
  given : ∀ a, x = some a → g.owner a = some t := by nofun
  own : ∀ a, g.owner a ≠ none → x ≠ some a →
      g'.owner a = g.owner a ∧ s'.heap a = s.heap a ∧ (a ∈ g'.published ↔ a ∈ g.published) := by
    exact fun _ _ _ => ⟨rfl, rfl, Iff.rfl⟩
  gained : ∀ a, g'.owner a ≠ none → g.owner a ≠ none ∨ a ∈ g.list ∨ act = .alloc a := by
    exact fun _ h => .inl h
  published : ∀ a ∈ g.published, a ∈ g'.published ∨ act = .alloc a := by exact fun _ h => .inl h
  alive : ∀ a ∈ g.published, s.allocated a = true → e ≠ .free a →
      a ∈ g'.published ∧ s'.allocated a = true := by
    exact fun _ h1 h2 _ => ⟨h1, h2⟩
  content : ∀ a ∈ g.published, a ∈ g'.published →
      (s'.heap a).mHashValue = (s.heap a).mHashValue ∧ (s'.heap a).mValue = (s.heap a).mValue := by
    exact fun _ _ _ => ⟨rfl, rfl⟩
  frozen : ∀ a ∈ g.published, a ∈ g'.published → s.marked a = true →
      (s'.heap a).mNext = (s.heap a).mNext := by
    exact fun _ _ _ _ => rfl
  listed : ∀ a ∈ g.published, a ∈ g'.list → a ∈ g.list := by exact fun _ _ h => h
  clear : ∀ n a, a ∈ g.published → a ∈ g'.published → Clear g s n a → Clear g' s' n a := by
    exact fun _ _ _ _ h => h
  rooted : ∀ a ∈ g.list, (s.heap a).key = none → a ∈ g'.list := by exact fun _ h _ => h
  relink : ∀ a ∈ g.published, a ∈ g'.published → Relink g g' s s' a := by
    exact fun _ _ _ => .same rfl
  keep : ∀ a ∈ g.list, s.marked a = false →
      a ∈ g'.list ∧ s'.marked a = false ∨ ∃ k, δ = .remove k ∧ (s.heap a).key = some k := by
    exact fun _ h1 h2 => .inl ⟨h1, h2⟩
  fits : δ.Fits s.Holds := by trivial
  holds : ∀ k v, s'.Holds k v ↔ δ.apply s.Holds k v := by exact fun _ _ => Iff.rfl

section Others

variable [DecidableEq τ] [DecidableEq A] {mHash : K → HashValueType} {t u : τ} {act : Act A K V}
  {x : Option A} {δ : Change K V} {g g' : Ghost τ A} {s s' : Shared τ A K V}
  {e : Hazards.Event (τ × ℕ) A} {a b : A} {c : Caller A K V} {h h' : Holders} {i : Fin 3}
  {p p' : PC τ A K V}

namespace Effect

variable (hE : Effect mHash t act x δ g g' s s' e)
include hE

theorem key (ha : a ∈ g.published) (ha' : a ∈ g'.published) : (s'.heap a).key = (s.heap a).key :=
  congrArg (Option.map Prod.fst) (hE.content a ha ha').2

theorem name (ha : a ∈ g.published) (ha' : a ∈ g'.published) :
    (s'.heap a).name = (s.heap a).name :=
  Prod.ext (hE.content a ha ha').1 (hE.key ha ha')

theorem claimed (hs : ∀ v, e = .store (u, i) v → v = some a) (h : Claimed g s u i a) :
    Claimed g' s' u i a := by
  obtain ⟨h1, h2, h3⟩ := h
  obtain ⟨hg, hf⟩ := h3.apply hE.enabled hs
  obtain ⟨h4, h5⟩ := hE.alive a h1 h2 hf
  exact ⟨h4, h5, hE.hazards ▸ hg⟩

theorem pointer (hs : ∀ v, e ≠ .store (u, i) v) {n : Option A}
    (h : g.hazards.pointer (u, i) = n) : g'.hazards.pointer (u, i) = n := by
  rw [hE.hazards]
  cases e with
  | store y v =>
    have hne : (u, (i : ℕ)) ≠ y := fun hy => hs v (hy ▸ rfl)
    simpa [Hazards.apply, hne] using h
  | _ => exact h

theorem met (hs : ∀ v, e = .store (u, i) v → v = some a) (h : Met mHash g s u c i a) :
    Met mHash g' s' u c i a := by
  have hc := hE.claimed hs h.1
  exact ⟨hc, fun hst => hE.clear _ a h.1.1 hc.1 (h.2 hst)⟩

theorem passed (hs : ∀ v, e = .store (u, h.pred) v → v = some a)
    (hp : Passed mHash g s u c h a) : Passed mHash g' s' u c h a := by
  have hm := hE.met hs hp.1
  refine ⟨hm, ?_, fun hst => ?_⟩
  · rw [(hE.content a hp.1.1.1 hm.1.1).1]
    exact hp.2.1
  · rw [hE.name hp.1.1.1 hm.1.1]
    exact hp.2.2 hst

/-- The slots but one are left alone. -/
theorem standing {site : Site A}
    (hs : ∀ j, j ≠ site.holder h → ∀ v a, e = .store (u, (j : Fin 3)) v → v = some a)
    (hst : Standing mHash g s u c h site) : Standing mHash g' s' u c h site := by
  cases site with
  | head => trivial
  | cur pred =>
    obtain ⟨h1, h2⟩ := hst
    have h1' := hE.passed (fun v => hs h.pred h.apart.1 v _) h1
    exact ⟨h1', (hE.key h1.1.1.1 h1'.1.1.1).trans h2⟩
  | succ pred cur =>
    exact ⟨hE.passed (fun v => hs h.pred h.apart.2.1 v _) hst.1,
      hE.met (fun v => hs h.cur h.apart.2.2 v _) hst.2⟩

section Found

variable {pred cur : A} {succ : Option A}
  (hs : ∀ j, j ≠ h.succ → ∀ v a, e = .store (u, (j : Fin 3)) v → v = some a)
include hs

theorem found (h1 : Passed mHash g s u c h pred) (h2 : Claimed g s u h.cur cur) :
    Passed mHash g' s' u c h pred ∧ Claimed g' s' u h.cur cur :=
  ⟨hE.passed (fun v => hs h.pred h.apart.2.1 v _) h1,
    hE.claimed (fun v => hs h.cur h.apart.2.2 v _) h2⟩

theorem returned (hr : Returned mHash g s u c h pred cur) :
    Returned mHash g' s' u c h pred cur := by
  obtain ⟨h1, h2⟩ := hE.found hs hr.1 hr.2.1
  refine ⟨h1, h2, ?_⟩
  rw [(hE.content cur hr.2.1.1 h2.1).1, hE.name hr.2.1.1 h2.1]
  exact hr.2.2

theorem inserting (hr : Inserting mHash g s u c h pred cur) :
    Inserting mHash g' s' u c h pred cur := by
  obtain ⟨h1, h2⟩ := hE.found hs hr.1 hr.2.1
  refine ⟨h1, h2, ?_⟩
  rw [(hE.content cur hr.2.1.1 h2.1).1]
  exact hr.2.2

theorem removing (hr : Removing mHash g s u c h pred cur) :
    Removing mHash g' s' u c h pred cur := by
  obtain ⟨h1, h2⟩ := hE.found hs hr.1 hr.2.1
  exact ⟨h1, h2, (hE.key hr.2.1.1 h2.1).trans hr.2.2.1, hr.2.2.2⟩

theorem unlinking (hr : Unlinking mHash g s u c h pred cur succ) :
    Unlinking mHash g' s' u c h pred cur succ := by
  obtain ⟨h1, h2⟩ := hE.found hs hr.1 hr.2.1
  have hf := hE.frozen cur hr.2.1.1 h2.1 hr.2.2.1
  exact ⟨h1, h2, (congrArg Prod.snd hf).trans hr.2.2.1, (congrArg Prod.fst hf).trans hr.2.2.2⟩

end Found

theorem privately (hx : x ≠ some a) (h : Private mHash g s u c.call a) :
    Private mHash g' s' u c.call a := by
  obtain ⟨h1, h2, h3, h4, h5⟩ := h
  obtain ⟨h6, h7, h8⟩ := hE.own a (by simp [h1]) hx
  refine ⟨h6.trans h1, h8.not.2 h2, h7 ▸ h3, h7 ▸ h4, ?_⟩
  rw [Shared.marked, h7]
  exact h5

theorem calling (hx : ∀ a, c.newNode = some a → x ≠ some a) (h : Calling mHash g s u c) :
    Calling mHash g' s' u c :=
  ⟨h.1, fun a ha => hE.privately (hx a ha) (h.2 a ha)⟩

theorem unlinked (hx : x ≠ some a) (h : Unlinked g u a) : Unlinked g' u a := by
  obtain ⟨h1, -, h3⟩ := hE.own a (by simp [h.1]) hx
  exact ⟨h1.trans h.1, h3.2 h.2⟩

theorem rooting {c : Call K V} (hG : Shape mHash g s) (h : Rooted mHash g s c a) :
    Rooted mHash g' s' c a := by
  obtain ⟨h1, h2, h3⟩ := h
  have h4 := hE.rooted a h1 h2
  have h5 := (hG.listed a h1).1
  have h6 := (hE.shape.listed a h4).1
  exact ⟨h4, (hE.key h5 h6).trans h2, (hE.content a h5 h6).1.trans h3⟩

/-- Another thread's place survives. -/
theorem placed (hG : Shape mHash g s) (hu : u ≠ t) (hp : Placed mHash g s u p) :
    Placed mHash g' s' u p := by
  have hs : ∀ {i : Fin 3} v, e ≠ .store (u, i) v := fun v he => hu (hE.store _ _ he)
  have hs' : ∀ {a} {i : Fin 3} v, e = .store (u, i) v → v = some a := fun v he =>
    absurd he (hs v)
  have hall : ∀ {k : Fin 3} j, j ≠ k → ∀ v a, e = .store (u, (j : Fin 3)) v → v = some a :=
    fun _ _ v _ => hs' v
  have given : ∀ {a}, g.owner a = some u → x ≠ some a := fun ho hx =>
    hu (Option.some.inj (ho.symm.trans (hE.given _ hx)))
  have passed : ∀ {c h a}, Passed mHash g s u c h a → Passed mHash g' s' u c h a :=
    hE.passed hs'
  have claimed : ∀ {i a}, Claimed g s u i a → Claimed g' s' u i a := hE.claimed hs'
  obtain ⟨hcall, hp⟩ := hp
  refine ⟨fun c hc => hE.calling (fun a ha => given ((hcall c hc).2 a ha).1) (hcall c hc), ?_⟩
  cases p with
  | claimLoad _ _ _ | claimStore _ _ _ _ => exact fun hget => hE.standing hall (hp hget)
  | claimCheck _ _ _ _ =>
    exact ⟨fun hget => hE.standing hall (hp.1 hget), hE.pointer hs hp.2⟩
  | findUnlink _ _ _ cur _ =>
    refine ⟨hE.unlinking hall hp.1, fun hcur n hn => ?_⟩
    exact claimed (hp.2 (hE.listed cur hp.1.2.1.1 hcur) n hn)
  | findDrop _ _ _ _ _ | findRetire _ _ _ _ _ =>
    exact ⟨passed hp.1, hE.unlinked (given hp.2.1.1) hp.2.1, fun n hn => hE.met hs' (hp.2.2 n hn)⟩
  | findRetiring _ _ _ _ _ => exact ⟨hp.1, passed hp.2.1, fun n hn => hE.met hs' (hp.2.2 n hn)⟩
  | findTest _ _ _ cur _ =>
    obtain ⟨h1, h2, h3⟩ := hp
    have h2' := hE.met hs' h2
    refine ⟨passed h1, h2', fun n hn => ?_⟩
    have hn' := claimed (h3 n hn).1
    refine ⟨hn', ?_⟩
    rw [(hE.content cur h2.1.1 h2'.1.1).1, hE.name h2.1.1 h2'.1.1]
    exact fun h4 h5 h6 => hE.clear _ n (h3 n hn).1.1 hn'.1 ((h3 n hn).2 h4 h5 h6)
  | new _ | getTest _ _ _ _ _ => exact hp
  | findReturn _ _ _ _ | found _ _ _ _ => exact hE.returned hall hp
  | insertStore _ _ _ _ => exact hE.inserting hall hp
  | insertCas c _ _ _ =>
    refine ⟨hE.inserting hall hp.1, fun a ha => ?_⟩
    have ho := ((hcall c rfl).2 a ha).1
    obtain ⟨-, hh, -⟩ := hE.own a (by simp [ho]) (given ho)
    rw [Shared.links, hh]
    exact hp.2 a ha
  | removeLoad _ _ _ _ | removeMark _ _ _ _ _ => exact hE.removing hall hp
  | removeUnlink _ _ _ _ _ => exact hE.unlinking hall hp
  | removeDrop _ _ _ _ | removeRetire _ _ _ _ => exact hE.unlinked (given hp.1) hp
  | release _ _ k =>
    cases k with
    | publish _ => exact hE.rooting hG hp
    | _ => trivial
  | publishLoad _ _ | publishStore _ _ => exact hE.rooting hG hp
  | _ => trivial

end Effect

end Others

end LockFreeHashMap

end ConcurrencySandbox

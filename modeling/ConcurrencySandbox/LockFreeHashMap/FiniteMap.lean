import Mathlib.Data.Finset.Card
import ConcurrencySandbox.LockFreeHashMap.Sequential
import ConcurrencySandbox.Structures.Chain

/-!
# One thread's LockFreeHashMap is a finite map

The list is ordered by hash value, with an ordinary node's key to tell apart those of equal hash
value (`Lower`), and a bucket's sentinel is lower than the keys of the bucket at every table size.
So `find` stops at the node with the key or at the first one behind its place, wherever it starts,
and the sentinels that a call inserts on its way change none of the entries.
-/

namespace ConcurrencySandbox

open Structures

namespace LockFreeHashMap

namespace Sequential

variable {K V : Type*}

/-- The order of the list: the hash value, and different keys for ordinary nodes of one hash
value. -/
def Lower (x y : HashValueType × Option K) : Prop :=
  x.1 < y.1 ∨ x.1 = y.1 ∧ x.2 ≠ none ∧ y.2 ≠ none ∧ x.2 ≠ y.2

/-- The hash value is that of the key; without a key it is that of no key. -/
def Fits (mHash : K → HashValueType) (x : HashValueType × Option K) : Prop :=
  (∀ k, x.2 = some k → x.1 = makeOrdinaryKey (mHash k)) ∧
  (x.2 = none → ∀ h, x.1 ≠ makeOrdinaryKey h)

section Order

variable {mHash : K → HashValueType} {x y z : HashValueType × Option K}

theorem fits_ordinary (mHash : K → HashValueType) (k : K) :
    Fits mHash (makeOrdinaryKey (mHash k), some k) :=
  ⟨fun _ h => Option.some.inj h ▸ rfl, nofun⟩

theorem fits_sentinel (mHash : K → HashValueType) (i : HashValueType) :
    Fits mHash (makeSentinelKey i, none) :=
  ⟨nofun, fun _ => makeSentinelKey_ne i⟩

theorem Lower.le (h : Lower x y) : x.1 ≤ y.1 := by
  rcases h with h | h
  · exact Std.le_of_lt h
  · exact Std.le_of_eq h.1

theorem Lower.ne (h : Lower x y) : x ≠ y := by
  rintro rfl
  rcases h with h | h
  · exact Std.lt_irrefl h
  · exact h.2.2.2 rfl

theorem lower_of_lt_of_lower (h : x.1 < y.1) (h' : Lower y z) : Lower x z :=
  .inl (Std.lt_of_lt_of_le h h'.le)

/-- Of two nodes one is lower unless they are the same. -/
theorem lower_iff (hx : Fits mHash x) (hy : Fits mHash y) : Lower x y ↔ ¬ (y.1 < x.1 ∨ x = y) := by
  constructor
  · rintro h (h' | h')
    · exact Std.lt_irrefl (Std.lt_of_lt_of_le h' h.le)
    · exact h.ne h'
  · intro h
    rw [not_or] at h
    by_cases heq : x.1 = y.1
    swap
    · exact .inl (Std.lt_of_le_of_ne (Std.not_lt.1 h.1) heq)
    · obtain ⟨x₁, xk⟩ := x
      obtain ⟨y₁, yk⟩ := y
      obtain rfl : x₁ = y₁ := heq
      refine .inr ⟨rfl, fun hxk => ?_, fun hyk => ?_, fun e => h.2 (by rw [show xk = yk from e])⟩
      all_goals
        cases xk with
        | none =>
          cases yk with
          | none => exact h.2 rfl
          | some k => exact hx.2 rfl _ (hy.1 k rfl)
        | some k =>
          cases yk with
          | none => exact hy.2 rfl _ (hx.1 k rfl)
          | some k' => first | cases hxk | cases hyk

end Order

namespace State

variable (s : State K V)

def links (a : ℕ) : Option ℕ := (s.heap a).mNext.1

def mark (a : ℕ) : Bool := (s.heap a).mNext.2

def order (a : ℕ) : HashValueType × Option K := ((s.heap a).mHashValue, (s.heap a).key)

def value (a : ℕ) : Option (K × V) := (s.heap a).mValue

variable {s} {a b : ℕ} {n : Option ℕ × Bool}

@[simp] theorem setNext_order : (s.setNext a n).order = s.order := by
  funext b
  by_cases h : b = a <;> simp [order, setNext, Node.key, h]

@[simp] theorem setNext_value : (s.setNext a n).value = s.value := by
  funext b
  by_cases h : b = a <;> simp [value, setNext, h]

@[simp] theorem setNext_links : (s.setNext a n).links = Function.update s.links a n.1 := by
  funext b
  by_cases h : b = a <;> simp [links, setNext, h]

@[simp] theorem setNext_mark : (s.setNext a n).mark = Function.update s.mark a n.2 := by
  funext b
  by_cases h : b = a <;> simp [mark, setNext, h]

end State

structure Rep (mHash : K → HashValueType) (s : State K V) (q : List ℕ) : Prop where
  head : ∃ a, s.mBuckets 0 = some a ∧ Seg s.links (some a) q none
  unmarked : ∀ a ∈ q, s.mark a = false
  lower : q.Pairwise fun x y => Lower (s.order x) (s.order y)
  fits : ∀ a ∈ q, Fits mHash (s.order a)
  last : ∃ z ∈ q, (s.order z).1 = maxHashValue
  buckets : ∀ i a, s.mBuckets i = some a → a ∈ q ∧ (s.order a).1 = makeSentinelKey i
  made : ∀ a ∈ q, a < s.made

/-- What the list holds. -/
def entries (s : State K V) (q : List ℕ) : List (K × V) := q.filterMap s.value

/-- The place of `x` is behind `pred` and before `cur`, if it is not `cur`'s. -/
structure Place (s : State K V) (q : List ℕ) (x : HashValueType × Option K)
    (pred cur : ℕ) : Prop where
  split : ∃ r rest, q = r ++ pred :: cur :: rest ∧ (∀ a ∈ r, Lower (s.order a) x)
  pred : Lower (s.order pred) x
  cur : x.1 < (s.order cur).1 ∨ s.order cur = x

variable {mHash : K → HashValueType} {s s' : State K V} {q : List ℕ} {x : HashValueType × Option K}
  {a b pred cur : ℕ} {slot : HashValueType}

namespace Rep

/-- A change that touches no node of the list. -/
theorem congr (hR : Rep mHash s q) (hheap : ∀ a ∈ q, s'.heap a = s.heap a)
    (hb : s'.mBuckets = s.mBuckets) (hm : s.made ≤ s'.made) : Rep mHash s' q := by
  have horder : ∀ a ∈ q, s'.order a = s.order a := fun a ha => by
    unfold State.order
    rw [hheap a ha]
  obtain ⟨h, h0, hseg⟩ := hR.head
  refine ⟨⟨h, hb ▸ h0, ?_⟩, fun a ha => ?_, ?_, fun a ha => ?_, ?_,
    fun i a hi => ?_, fun a ha => ?_⟩
  · exact hseg.congr fun a ha => congrArg (fun n : Node ℕ K V => n.mNext.1) (hheap a ha)
  · exact (congrArg (fun n : Node ℕ K V => n.mNext.2) (hheap a ha)).trans (hR.unmarked a ha)
  · exact hR.lower.imp_of_mem fun {x y} hx hy h => by rwa [horder x hx, horder y hy]
  · rw [horder a ha]
    exact hR.fits a ha
  · obtain ⟨z, hz, hmax⟩ := hR.last
    exact ⟨z, hz, by rwa [horder z hz]⟩
  · obtain ⟨ha, hk⟩ := hR.buckets i a (hb ▸ hi)
    exact ⟨ha, by rwa [horder a ha]⟩
  · exact (hR.made a ha).trans_le hm

theorem nodup (hR : Rep mHash s q) : q.Nodup := by
  obtain ⟨h, -, hseg⟩ := hR.head
  exact hseg.nodup

theorem links_eq (hR : Rep mHash s q) {r rest : List ℕ} (hq : q = r ++ pred :: cur :: rest) :
    s.links pred = some cur := by
  obtain ⟨h, -, hseg⟩ := hR.head
  rw [hq] at hseg
  obtain ⟨b, -, -, h2⟩ := Seg.append_iff.1 hseg
  exact h2.1

theorem ne_made (hR : Rep mHash s q) (ha : a ∈ q) : a ≠ s.made := Nat.ne_of_lt (hR.made a ha)

end Rep

theorem place_of_not_lower (ha : Fits mHash (s.order a)) (hx : Fits mHash x)
    (h : ¬ Lower (s.order a) x) : x.1 < (s.order a).1 ∨ s.order a = x := by
  rwa [lower_iff ha hx, not_not] at h

section Find

variable [DecidableEq K] {key : Option K} {hashValue : HashValueType} {r rest : List ℕ}

theorem stops_iff (ha : Fits mHash (s.order a)) (hx : Fits mHash (hashValue, key)) :
    (s.heap a).Stops hashValue key ↔ ¬ Lower (s.order a) (hashValue, key) := by
  rw [lower_iff ha hx, not_not]
  refine or_congr_right ?_
  have hnone : (s.heap a).key = none ↔ (s.heap a).mValue.isNone := by simp [Node.key]
  constructor
  · rintro (⟨rfl, h⟩ | ⟨-, rfl, rfl⟩)
    · cases key with
      | none => exact Prod.ext rfl (hnone.2 h)
      | some k => exact absurd (hx.1 k rfl) (ha.2 (hnone.2 h) _)
    · rfl
  · intro h
    obtain ⟨rfl, rfl⟩ := Prod.mk.inj h
    cases hk : (s.heap a).key with
    | none => exact .inl ⟨rfl, hnone.1 hk⟩
    | some k => exact .inr ⟨rfl, rfl, rfl⟩

/-- The loop of `find` goes on while the node is lower. -/
theorem findLoop_spec (hR : Rep mHash s q) (hx : Fits mHash (hashValue, key)) (head : ℕ)
    (hq : q = r ++ pred :: cur :: rest) (hr : ∀ a ∈ r, Lower (s.order a) (hashValue, key))
    (hpred : Lower (s.order pred) (hashValue, key))
    (hstop : ∃ z ∈ cur :: rest, ¬ Lower (s.order z) (hashValue, key)) (fuel : ℕ)
    (hf : rest.length < fuel) :
    ∃ pred' cur', LockFreeList.findLoop hashValue key head fuel s pred cur = some (s, pred', cur') ∧
      Place s q (hashValue, key) pred' cur' := by
  induction rest generalizing r pred cur fuel with
  | nil =>
    obtain ⟨fuel, rfl⟩ := Nat.exists_eq_succ_of_ne_zero (Nat.ne_of_gt (Nat.zero_lt_of_lt hf))
    have hcur : cur ∈ q := by simp [hq]
    obtain ⟨z, hz, hzx⟩ := hstop
    obtain rfl := List.mem_singleton.1 hz
    have hmark : (s.heap z).mNext.2 = false := hR.unmarked z hcur
    have hs := (stops_iff (hR.fits z hcur) hx).2 hzx
    refine ⟨pred, z, ?_, ⟨r, [], hq, hr⟩, hpred, place_of_not_lower (hR.fits z hcur) hx hzx⟩
    simp [LockFreeList.findLoop, hmark, hs]
  | cons succ rest ih =>
    obtain ⟨fuel, rfl⟩ := Nat.exists_eq_succ_of_ne_zero (Nat.ne_of_gt (Nat.zero_lt_of_lt hf))
    have hcur : cur ∈ q := by simp [hq]
    have hmark : (s.heap cur).mNext.2 = false := hR.unmarked cur hcur
    by_cases hlow : Lower (s.order cur) (hashValue, key)
    · have hs : ¬ (s.heap cur).Stops hashValue key := fun h =>
        (stops_iff (hR.fits cur hcur) hx).1 h hlow
      have hq' : q = (r ++ [pred]) ++ cur :: succ :: rest := by simp [hq]
      have hnext : (s.heap cur).mNext.1 = some succ := hR.links_eq hq'
      obtain ⟨z, hz, hzx⟩ := hstop
      have hz' : z ∈ succ :: rest := (List.mem_cons.1 hz).resolve_left fun e => hzx (e ▸ hlow)
      have hr' : ∀ a ∈ r ++ [pred], Lower (s.order a) (hashValue, key) := fun a ha => by
        rcases List.mem_append.1 ha with ha | ha
        · exact hr a ha
        · exact List.mem_singleton.1 ha ▸ hpred
      obtain ⟨pred', cur', h1, h2⟩ := ih hq' hr' hlow ⟨z, hz', hzx⟩ fuel
        (by simpa using Nat.lt_of_succ_lt_succ hf)
      refine ⟨pred', cur', ?_, h2⟩
      simpa [LockFreeList.findLoop, hmark, hs, hnext] using h1
    · have hs := (stops_iff (hR.fits cur hcur) hx).2 hlow
      refine ⟨pred, cur, ?_, ⟨r, succ :: rest, hq, hr⟩, hpred,
        place_of_not_lower (hR.fits cur hcur) hx hlow⟩
      simp [LockFreeList.findLoop, hmark, hs]

omit [DecidableEq K] in
/-- A bucket's sentinel has a successor, and all up to it are lower than the keys of the bucket. -/
theorem Rep.from_slot (hR : Rep mHash s q) (hx : x.1 < maxHashValue) {h : ℕ}
    (hslot : s.mBuckets slot = some h) (hlt : makeSentinelKey slot < x.1) :
    ∃ r cur rest, q = r ++ h :: cur :: rest ∧ s.links h = some cur ∧
      (∀ a ∈ r, Lower (s.order a) x) ∧ Lower (s.order h) x ∧
        ∃ z ∈ cur :: rest, ¬ Lower (s.order z) x := by
  obtain ⟨hh, hk⟩ := hR.buckets slot h hslot
  obtain ⟨z, hz, hmax⟩ := hR.last
  obtain ⟨r, rest, rfl⟩ := List.append_of_mem hh
  have hlow : (s.order h).1 < x.1 := hk ▸ hlt
  have hr : ∀ a ∈ r, Lower (s.order a) x := fun a ha => by
    have := (List.pairwise_append.1 hR.lower).2.2 a ha h (by simp)
    exact .inl (Std.lt_of_le_of_lt this.le hlow)
  have hzx : ¬ Lower (s.order z) x := fun h =>
    Std.lt_irrefl (Std.lt_of_lt_of_le hx (hmax ▸ h.le))
  have hz' : z ∈ rest := by
    rcases List.mem_append.1 hz with hz | hz
    · exact absurd (hr z hz) hzx
    · exact (List.mem_cons.1 hz).resolve_left fun e => hzx (e ▸ .inl hlow)
  cases rest with
  | nil => cases hz'
  | cons cur rest => exact ⟨r, cur, rest, rfl, hR.links_eq rfl, hr, .inl hlow, z, hz', hzx⟩

theorem find_spec (hR : Rep mHash s q) (hx : Fits mHash (hashValue, key))
    (hmax : hashValue < maxHashValue) (hslot : s.mBuckets slot ≠ none)
    (hlt : makeSentinelKey slot < hashValue) (fuel : ℕ) (hf : q.length ≤ fuel) :
    ∃ pred cur, LockFreeList.find fuel s slot hashValue key = some (s, pred, cur) ∧
      Place s q (hashValue, key) pred cur := by
  obtain ⟨h, hh⟩ := Option.ne_none_iff_exists'.1 hslot
  obtain ⟨r, cur, rest, hq, hnext, hr, hlow, hstop⟩ :=
    hR.from_slot (x := (hashValue, key)) hmax hh hlt
  have hlen : rest.length < fuel := by
    rw [hq] at hf
    simp only [List.length_append, List.length_cons] at hf
    omega
  obtain ⟨pred', cur', h1, h2⟩ := findLoop_spec hR hx h hq hr hlow hstop fuel hlen
  refine ⟨pred', cur', ?_, h2⟩
  have hnext' : (s.heap h).mNext.1 = some cur := hnext
  simpa [LockFreeList.find, hh, hnext'] using h1

end Find

namespace Place

theorem mem_pred (hp : Place s q x pred cur) : pred ∈ q := by
  obtain ⟨r, rest, rfl, -⟩ := hp.split
  simp

theorem mem_cur (hp : Place s q x pred cur) : cur ∈ q := by
  obtain ⟨r, rest, rfl, -⟩ := hp.split
  simp

/-- What is behind a higher node is higher. -/
theorem absent (hp : Place s q x pred cur) (hR : Rep mHash s q) (hcur : s.order cur ≠ x)
    (ha : a ∈ q) : s.order a ≠ x := by
  obtain ⟨r, rest, rfl, hr⟩ := hp.split
  have hlt := hp.cur.resolve_right hcur
  rw [List.mem_append, List.mem_cons, List.mem_cons] at ha
  rcases ha with ha | rfl | rfl | ha
  · exact (hr a ha).ne
  · exact hp.pred.ne
  · exact hcur
  · have hlow : Lower (s.order cur) (s.order a) := by
      have h := (List.pairwise_append.1 hR.lower).2.1
      exact (List.pairwise_cons.1 (List.pairwise_cons.1 h).2).1 a ha
    exact (lower_of_lt_of_lower (x := x) hlt (z := s.order a) hlow).ne.symm

/-- The new node `b` is linked between `pred` and `cur`. -/
theorem link (hp : Place s q x pred cur) (hR : Rep mHash s q) (hcur : s.order cur ≠ x)
    (hb : b ∉ q) (hm : b < s.made) (hbx : s.order b = x) (hx : Fits mHash x) :
    (s.setNext b (some cur, false)).exchange pred (some cur, false) (some b, false) =
        some ((s.setNext b (some cur, false)).setNext pred (some b, false)) ∧
      ∃ q', Rep mHash ((s.setNext b (some cur, false)).setNext pred (some b, false)) q' ∧ b ∈ q' ∧
        q'.length = q.length + 1 ∧
        (q'.filterMap s.value).Perm ((s.value b).toList ++ entries s q) := by
  obtain ⟨r, rest, rfl, hr⟩ := hp.split
  have hlt := hp.cur.resolve_right hcur
  have hbp : pred ≠ b := fun e => hb (e ▸ hp.mem_pred)
  have hnext : (s.heap pred).mNext = (some cur, false) :=
    Prod.ext (hR.links_eq rfl) (hR.unmarked pred hp.mem_pred)
  refine ⟨?_, r ++ pred :: b :: cur :: rest,
    ⟨?_, fun a ha => ?_, ?_, fun a ha => ?_, ?_, fun i a hi => ?_,
    fun a ha => ?_⟩, by simp, by simp; omega, ?_⟩
  · simp [State.exchange, State.setNext, hbp, hnext]
  · obtain ⟨h, h0, hseg⟩ := hR.head
    refine ⟨h, h0, ?_⟩
    rw [State.setNext_links, State.setNext_links]
    refine Seg.insert_at (hseg.update hb) hb ?_
    rw [Function.update_self, Function.update_of_ne hbp, hR.links_eq rfl]
  · rw [State.setNext_mark, State.setNext_mark]
    by_cases hap : a = pred
    · simp [hap]
    · by_cases hab : a = b
      · rw [hab, Function.update_of_ne hbp.symm, Function.update_self]
      · simp only [List.mem_append, List.mem_cons] at ha
        simp only [Function.update_of_ne hap, Function.update_of_ne hab]
        exact hR.unmarked a (by simp only [List.mem_append, List.mem_cons]; tauto)
  · simp only [State.setNext_order]
    have hl := hR.lower
    simp only [List.pairwise_append, List.pairwise_cons, List.mem_cons] at hl ⊢
    obtain ⟨h1, ⟨h2, h3, h4⟩, h5⟩ := hl
    refine ⟨h1, ⟨fun a ha => ?_, fun a ha => ?_, h3, h4⟩, fun a ha c hc => ?_⟩
    · rcases ha with rfl | ha
      · exact hbx ▸ hp.pred
      · exact h2 a ha
    · rcases ha with rfl | ha
      · exact .inl (hbx ▸ hlt)
      · exact lower_of_lt_of_lower (hbx ▸ hlt) (h3 a ha)
    · rcases hc with rfl | rfl | hc
      · exact h5 a ha _ (.inl rfl)
      · exact hbx ▸ hr a ha
      · exact h5 a ha c (.inr hc)
  · simp only [State.setNext_order]
    by_cases hab : a = b
    · exact hab ▸ hbx ▸ hx
    · simp only [List.mem_append, List.mem_cons] at ha
      exact hR.fits a (by simp only [List.mem_append, List.mem_cons]; tauto)
  · obtain ⟨z, hz, hmax⟩ := hR.last
    refine ⟨z, ?_, by simpa using hmax⟩
    simp only [List.mem_append, List.mem_cons] at hz ⊢
    tauto
  · obtain ⟨ha, hk⟩ := hR.buckets i a hi
    refine ⟨?_, by simpa using hk⟩
    simp only [List.mem_append, List.mem_cons] at ha ⊢
    tauto
  · by_cases hab : a = b
    · exact hab ▸ hm
    · simp only [List.mem_append, List.mem_cons] at ha
      exact hR.made a (by simp only [List.mem_append, List.mem_cons]; tauto)
  · have : (r ++ pred :: b :: cur :: rest).Perm (b :: (r ++ pred :: cur :: rest)) :=
      ((List.Perm.swap b pred _).append_left r).trans List.perm_middle
    refine (this.filterMap s.value).trans (List.Perm.of_eq ?_)
    rw [List.filterMap_cons]
    cases s.value b <;> rfl

/-- The ordinary node `cur` is marked and unlinked. -/
theorem unlink {k : K} (hp : Place s q (makeOrdinaryKey (mHash k), some k) pred cur)
    (hR : Rep mHash s q) (hcur : s.order cur = (makeOrdinaryKey (mHash k), some k)) :
    s.exchange cur (s.links cur, false) (s.links cur, true) =
        some (s.setNext cur (s.links cur, true)) ∧
      (s.setNext cur (s.links cur, true)).exchange pred (some cur, false) (s.links cur, false) =
        some ((s.setNext cur (s.links cur, true)).setNext pred (s.links cur, false)) ∧
      ∃ q', Rep mHash ((s.setNext cur (s.links cur, true)).setNext pred (s.links cur, false)) q' ∧
        q'.length ≤ q.length ∧
        (entries s q).Perm ((s.value cur).toList ++ q'.filterMap s.value) := by
  obtain ⟨r, rest, rfl, hr⟩ := hp.split
  have hnd := hR.nodup
  have hpc : pred ≠ cur := by
    rintro rfl
    simp [List.nodup_append] at hnd
  have hnext : (s.heap pred).mNext = (some cur, false) :=
    Prod.ext (hR.links_eq rfl) (hR.unmarked pred hp.mem_pred)
  have hself : (s.heap cur).mNext = (s.links cur, false) :=
    Prod.ext rfl (hR.unmarked cur hp.mem_cur)
  have hmem : ∀ a, a ∈ r ++ pred :: rest → a ∈ r ++ pred :: cur :: rest ∧ a ≠ cur := fun a ha => by
    refine ⟨?_, ?_⟩
    · simp only [List.mem_append, List.mem_cons] at ha ⊢
      tauto
    · rintro rfl
      simp only [List.nodup_append, List.nodup_cons, List.mem_append, List.mem_cons] at ha hnd
      rcases ha with ha | rfl | ha
      · exact hnd.2.2 a ha a (.inr (.inl rfl)) rfl
      · exact hpc rfl
      · exact hnd.2.1.2.1 ha
  have hstay : ∀ a ∈ r ++ pred :: cur :: rest, a ≠ cur → a ∈ r ++ pred :: rest := fun a ha hac => by
    simp only [List.mem_append, List.mem_cons] at ha ⊢
    tauto
  refine ⟨?_, ?_, r ++ pred :: rest, ⟨?_, fun a ha => ?_, ?_, fun a ha => ?_, ?_, fun i a hi => ?_,
    fun a ha => ?_⟩, by simp, ?_⟩
  · simp [State.exchange, hself]
  · simp [State.exchange, State.setNext, hpc, hnext]
  · obtain ⟨h, h0, hseg⟩ := hR.head
    refine ⟨h, h0, ?_⟩
    rw [State.setNext_links, State.setNext_links, Function.update_eq_self]
    exact hseg.unlink_at
  · rw [State.setNext_mark, State.setNext_mark]
    by_cases hap : a = pred
    · simp [hap]
    · rw [Function.update_of_ne hap, Function.update_of_ne (hmem a ha).2]
      exact hR.unmarked a (hmem a ha).1
  · simp only [State.setNext_order]
    exact hR.lower.sublist (by simp)
  · simp only [State.setNext_order]
    exact hR.fits a (hmem a ha).1
  · obtain ⟨z, hz, hmax⟩ := hR.last
    refine ⟨z, hstay z hz fun e => ?_, by simpa using hmax⟩
    rw [e, hcur] at hmax
    exact maxHashValue_ne _ hmax.symm
  · obtain ⟨ha, hk⟩ := hR.buckets i a hi
    refine ⟨hstay a ha fun e => ?_, by simpa using hk⟩
    rw [e, hcur] at hk
    exact makeSentinelKey_ne _ _ hk.symm
  · exact hR.made a (hmem a ha).1
  · have : (r ++ pred :: cur :: rest).Perm (cur :: (r ++ pred :: rest)) :=
      ((List.Perm.swap cur pred _).append_left r).trans List.perm_middle
    refine (this.filterMap s.value).trans (List.Perm.of_eq ?_)
    rw [List.filterMap_cons]
    cases s.value cur <;> rfl

end Place

theorem lt_maxHashValue {x : HashValueType} (h : x ≠ maxHashValue) : x < maxHashValue := by
  refine Std.lt_of_le_of_ne ?_ h
  rw [BitVec.le_def]
  exact Nat.le_of_lt_succ x.isLt

theorem makeSentinelKey_lt_max (i : HashValueType) : makeSentinelKey i < maxHashValue := by
  refine lt_maxHashValue fun h => ?_
  have h0 := getLsbD_masked i (j := 0) (by decide)
  rw [h] at h0
  revert h0
  decide

/-- The sentinel of a bucket is lower than the keys of what belongs there. -/
theorem makeSentinelKey_lt {h n : HashValueType} {e : ℕ} (hn : n.toNat = 2 ^ e) :
    makeSentinelKey (h % n) < makeOrdinaryKey h := by
  have hle : makeSentinelKey (h % n) ≤ makeSentinelKey h := makeSentinelKey_le fun j hj => by
    rw [BitVec.getLsbD, BitVec.toNat_umod, hn, Nat.testBit_mod_two_pow, Bool.and_eq_true] at hj
    exact hj.2
  have hor : makeSentinelKey h ≤ makeOrdinaryKey h := le_of_getLsbD fun j hj => by
    rw [getLsbD_makeOrdinaryKey, hj, Bool.true_or]
  exact Std.lt_of_le_of_ne (Std.le_trans hle hor) (makeSentinelKey_ne _ _)

/-- What a call leaves as it is on its way to the list. -/
structure Frame (s s' : State K V) : Prop where
  bucketSize : s'.bucketSize = s.bucketSize
  mSize : s'.mSize = s.mSize
  buckets : ∀ i, s.mBuckets i ≠ none → s'.mBuckets i ≠ none

theorem Frame.refl (s : State K V) : Frame s s := ⟨rfl, rfl, fun _ h => h⟩

theorem Frame.trans {s₁ s₂ s₃ : State K V} (h : Frame s₁ s₂) (h' : Frame s₂ s₃) : Frame s₁ s₃ :=
  ⟨h'.bucketSize.trans h.bucketSize, h'.mSize.trans h.mSize, fun i hi =>
  h'.buckets i (h.buckets i hi)⟩

theorem Rep.make (hR : Rep mHash s q) (hashValue : HashValueType) (value : Option (K × V)) :
    Rep mHash (s.make hashValue value) q ∧ s.made ∉ q ∧
      entries (s.make hashValue value) q = entries s q := by
  have hheap : ∀ a ∈ q, (s.make hashValue value).heap a = s.heap a := fun a ha =>
    Function.update_of_ne (hR.ne_made ha) _ _
  refine ⟨hR.congr hheap rfl (Nat.le_succ _), fun h => hR.ne_made h rfl, ?_⟩
  exact List.filterMap_congr fun a ha => congrArg Node.mValue (hheap a ha)

theorem make_order (hashValue : HashValueType) (value : Option (K × V)) :
    (s.make hashValue value).order s.made = (hashValue, value.map Prod.fst) := by
  simp [State.order, State.make, Node.key]

theorem make_value (hashValue : HashValueType) (value : Option (K × V)) :
    (s.make hashValue value).value s.made = value := by
  simp [State.value, State.make]

section Calls

variable [DecidableEq K] {index bucketSize : HashValueType} {e : ℕ}

theorem sentinelLoop_spec (hR : Rep mHash s q) {parent : HashValueType}
    (hslot : s.mBuckets parent ≠ none)
    (hlt : makeSentinelKey parent < makeSentinelKey index) (fuel : ℕ) (hf : q.length < fuel) :
    ∃ s' node q', sentinelLoop parent (makeSentinelKey index) s.made fuel
        (s.make (makeSentinelKey index) none) = some (s', node) ∧
      Rep mHash s' q' ∧ Frame s s' ∧ node ∈ q' ∧ (s'.order node).1 = makeSentinelKey index ∧
        q'.length ≤ q.length + 1 ∧ (entries s' q').Perm (entries s q) := by
  obtain ⟨fuel, rfl⟩ := Nat.exists_eq_succ_of_ne_zero (Nat.ne_of_gt (Nat.zero_lt_of_lt hf))
  obtain ⟨hR₁, hb, hent⟩ := hR.make (makeSentinelKey index) none
  obtain ⟨pred, cur, hfind, hp⟩ := find_spec hR₁ (fits_sentinel mHash index)
    (makeSentinelKey_lt_max index) hslot hlt fuel (Nat.le_of_lt_succ hf)
  by_cases hcur : (s.make (makeSentinelKey index) none).order cur = (makeSentinelKey index, none)
  · have hk : ((s.make (makeSentinelKey index) none).heap cur).mHashValue = makeSentinelKey index :=
      congrArg Prod.fst hcur
    refine ⟨_, cur, q, ?_, hR₁, ⟨rfl, rfl, fun _ h => h⟩, hp.mem_cur, hk,
      Nat.le_succ _, .of_eq hent⟩
    simp [sentinelLoop, hfind, hk]
  · have hlt' := hp.cur.resolve_right hcur
    have hk : ((s.make (makeSentinelKey index) none).heap cur).mHashValue ≠ makeSentinelKey index :=
      (Std.ne_of_lt hlt').symm
    obtain ⟨hex, q', hR', hbq, hlen, hperm⟩ := hp.link hR₁ hcur hb (Nat.lt_succ_self _)
      (make_order _ none) (fits_sentinel mHash index)
    refine ⟨_, s.made, q', ?_, hR', ⟨rfl, rfl, fun _ h => h⟩, hbq, ?_, hlen.le, ?_⟩
    · simp [sentinelLoop, hfind, hk, hex]
    · rw [State.setNext_order, State.setNext_order, make_order]
    · rw [make_value, hent] at hperm
      unfold entries
      rw [State.setNext_value, State.setNext_value]
      exact hperm

omit [DecidableEq K] in
theorem Rep.setBucket (hR : Rep mHash s q) (h0 : index ≠ 0) (ha : a ∈ q)
    (hk : (s.order a).1 = makeSentinelKey index) : Rep mHash (s.setBucket index a) q := by
  obtain ⟨h, hh, hseg⟩ := hR.head
  refine ⟨⟨h, ?_, hseg⟩, hR.unmarked, hR.lower, hR.fits, hR.last, fun i b hi => ?_, hR.made⟩
  · exact (Function.update_of_ne h0.symm _ _).trans hh
  · by_cases hii : i = index
    · subst hii
      obtain rfl : a = b := by simpa [State.setBucket] using hi
      exact ⟨ha, hk⟩
    · exact hR.buckets i b (by simpa [State.setBucket, hii] using hi)

/-- Sentinels are inserted from the first missing one on, each behind its parent. -/
theorem insertSentinel_spec (he : e ≤ 62) (hb : bucketSize.toNat = 2 ^ e) (j : ℕ)
    (hR : Rep mHash s q)
    (h0 : index ≠ 0) (hlt : index < bucketSize) (hj : index.toNat < 2 ^ j)
    (fuel : ℕ) (hf : q.length + 2 * j + 2 ≤ fuel) :
    ∃ s' q', insertSentinel bucketSize fuel s index = some s' ∧ Rep mHash s' q' ∧ Frame s s' ∧
      s'.mBuckets index ≠ none ∧ q'.length ≤ q.length + j ∧ (entries s' q').Perm (entries s q) := by
  induction j generalizing s q index fuel with
  | zero =>
    refine absurd (BitVec.eq_of_toNat_eq ?_) h0
    simpa using hj
  | succ j ih =>
    obtain ⟨fuel, rfl⟩ := Nat.exists_eq_succ_of_ne_zero (show fuel ≠ 0 by omega)
    obtain ⟨m, hm, h1, h2⟩ := getParentIndex_spec (by omega) hb h0 hlt
    have hmj : 2 ^ m ≤ 2 ^ j := by
      refine Nat.pow_le_pow_right (by decide) (Nat.le_of_lt_succ ?_)
      exact (Nat.pow_lt_pow_iff_right (by decide)).1 (show 2 ^ m < 2 ^ (j + 1) by omega)
    have hparent := makeSentinelKey_parent he hb h0 hlt
    -- the parent's sentinel is there, or inserted first
    obtain ⟨s₁, q₁, hs₁, hR₁, hF₁, hp₁, hlen₁, hent₁⟩ : ∃ s₁ q₁,
        (if s.mBuckets (getParentIndex index bucketSize) = none then
          insertSentinel bucketSize fuel s (getParentIndex index bucketSize) else some s) =
          some s₁ ∧
        Rep mHash s₁ q₁ ∧ Frame s s₁ ∧ s₁.mBuckets (getParentIndex index bucketSize) ≠ none ∧
          q₁.length ≤ q.length + j ∧ (entries s₁ q₁).Perm (entries s q) := by
      by_cases hnone : s.mBuckets (getParentIndex index bucketSize) = none
      · obtain ⟨h, hh, -⟩ := hR.head
        have hp0 : getParentIndex index bucketSize ≠ 0 := fun h => by
          rw [h, hh] at hnone
          cases hnone
        have hplt : getParentIndex index bucketSize < bucketSize := by
          rw [BitVec.lt_def] at hlt ⊢
          omega
        rw [if_pos hnone]
        exact ih hR hp0 hplt (by omega) fuel (by omega)
      · rw [if_neg hnone]
        exact ⟨s, q, rfl, hR, .refl s, hnone, Nat.le_add_right _ _, .refl _⟩
    obtain ⟨s₂, node, q₂, hs₂, hR₂, hF₂, hnode, hk, hlen₂, hent₂⟩ :=
      sentinelLoop_spec hR₁ hp₁ hparent fuel (by omega)
    have hF := hF₁.trans hF₂
    by_cases hnone : s₂.mBuckets index = none
    · refine ⟨s₂.setBucket index node, q₂, ?_, hR₂.setBucket h0 hnode hk,
        ⟨hF.bucketSize, hF.mSize, fun i hi => ?_⟩, ?_, by omega, hent₂.trans hent₁⟩
      · simp [insertSentinel, hs₁, hs₂, hnone]
      · by_cases hii : i = index
        · simp [State.setBucket, hii]
        · simpa [State.setBucket, hii] using hF.buckets i hi
      · simp [State.setBucket]
    · refine ⟨s₂, q₂, ?_, hR₂, hF, hnone, by omega, hent₂.trans hent₁⟩
      simp [insertSentinel, hs₁, hs₂, hnone]

/-- The slot that a key belongs to has its sentinel. -/
theorem getSentinelNode_spec (he : e ≤ 62) (hb : s.bucketSize.toNat = 2 ^ e)
    (hR : Rep mHash s q) (k : K)
    (fuel : ℕ) (hf : q.length + 126 ≤ fuel) :
    ∃ s' slot q', getSentinelNode mHash fuel s k = some (s', slot) ∧ Rep mHash s' q' ∧ Frame s s' ∧
      s'.mBuckets slot ≠ none ∧ makeSentinelKey slot < makeOrdinaryKey (mHash k) ∧
        q'.length ≤ q.length + 62 ∧ (entries s' q').Perm (entries s q) := by
  have hlt := makeSentinelKey_lt (h := mHash k) hb
  have hidx : (mHash k % s.bucketSize).toNat < 2 ^ e := by
    rw [BitVec.toNat_umod, hb]
    exact Nat.mod_lt _ (Nat.pow_pos (by decide))
  by_cases hnone : s.mBuckets (mHash k % s.bucketSize) = none
  · obtain ⟨h, hh, -⟩ := hR.head
    have h0 : mHash k % s.bucketSize ≠ 0 := fun h => by
      rw [h, hh] at hnone
      cases hnone
    obtain ⟨s', q', hs, hR', hF, hslot, hlen, hent⟩ := insertSentinel_spec he hb e hR h0
      (by rw [BitVec.lt_def, hb]; exact hidx) hidx fuel (by omega)
    refine ⟨s', _, q', ?_, hR', hF, hslot, hlt, by omega, hent⟩
    simp [getSentinelNode, hnone, hs]
  · refine ⟨s, _, q, ?_, hR, .refl s, hnone, hlt, Nat.le_add_right _ _, .refl _⟩
    simp [getSentinelNode, hnone]

variable {k : K} {v : V} {n d : ℕ} {m : K → Option V}

omit [DecidableEq K] in
theorem mem_entries : (k, v) ∈ entries s q ↔ ∃ a ∈ q, s.value a = some (k, v) := by
  simp [entries, List.mem_filterMap]

omit [DecidableEq K] in
theorem Rep.order_eq (hR : Rep mHash s q) (ha : a ∈ q) (hk : (s.heap a).key = some k) :
    s.order a = (makeOrdinaryKey (mHash k), some k) :=
  Prod.ext ((hR.fits a ha).1 k hk) hk

omit [DecidableEq K] in
theorem Rep.nodup_order (hR : Rep mHash s q) : (q.map s.order).Nodup :=
  List.pairwise_map.2 (hR.lower.imp Lower.ne)

omit [DecidableEq K] in
theorem Rep.order_inj (hR : Rep mHash s q) (ha : a ∈ q) (hb : b ∈ q) (h : s.order a = s.order b) :
    a = b := List.inj_on_of_nodup_map hR.nodup_order ha hb h

omit [DecidableEq K] in
/-- The key is in the list if the place found for it is that of its node. -/
theorem Place.mem_iff (hp : Place s q (makeOrdinaryKey (mHash k), some k) pred cur)
    (hR : Rep mHash s q) : (k, v) ∈ entries s q ↔
      s.order cur = (makeOrdinaryKey (mHash k), some k) ∧ s.value cur = some (k, v) := by
  rw [mem_entries]
  constructor
  · rintro ⟨a, ha, hv⟩
    have hk : (s.heap a).key = some k := by
      rw [Node.key, show (s.heap a).mValue = some (k, v) from hv]
      rfl
    have horder := hR.order_eq ha hk
    have hcur : s.order cur = (makeOrdinaryKey (mHash k), some k) := by
      by_contra hne
      exact hp.absent hR hne ha horder
    refine ⟨hcur, ?_⟩
    exact hR.order_inj ha hp.mem_cur (horder.trans hcur.symm) ▸ hv
  · rintro ⟨-, hv⟩
    exact ⟨cur, hp.mem_cur, hv⟩

omit [DecidableEq K] in
/-- At the place of a key that is in the list stands its node. -/
theorem Place.absent_or (hp : Place s q (makeOrdinaryKey (mHash k), some k) pred cur)
    (hR : Rep mHash s q) : (∃ v, s.order cur = (makeOrdinaryKey (mHash k), some k) ∧
        s.value cur = some (k, v) ∧ ∀ w, (k, w) ∈ entries s q ↔ w = v) ∨
      s.order cur ≠ (makeOrdinaryKey (mHash k), some k) ∧ ∀ w, (k, w) ∉ entries s q := by
  by_cases hcur : s.order cur = (makeOrdinaryKey (mHash k), some k)
  · left
    have hk : (s.heap cur).key = some k := congrArg Prod.snd hcur
    obtain ⟨⟨k', v⟩, hv, hkk⟩ := Option.map_eq_some_iff.1 hk
    obtain rfl : k' = k := hkk
    refine ⟨v, hcur, hv, fun w => ?_⟩
    rw [hp.mem_iff hR, show s.value cur = some (k', v) from hv]
    simp [hcur, eq_comm]
  · exact .inr ⟨hcur, fun w hw => hcur ((hp.mem_iff hR).1 hw).1⟩

theorem add_spec (hR : Rep mHash s q) (k : K) (v : V) (hslot : s.mBuckets slot ≠ none)
    (hlt : makeSentinelKey slot < makeOrdinaryKey (mHash k)) (fuel : ℕ) (hf : q.length < fuel) :
    ∃ s' q' added, LockFreeList.add fuel s slot (makeOrdinaryKey (mHash k)) k v = some (s', added) ∧
      Rep mHash s' q' ∧ Frame s s' ∧ q'.length ≤ q.length + 1 ∧
        (added = false ∧ (∃ w, (k, w) ∈ entries s q) ∧ (entries s' q').Perm (entries s q) ∨
          added = true ∧ (∀ w, (k, w) ∉ entries s q) ∧
            (entries s' q').Perm ((k, v) :: entries s q)) := by
  obtain ⟨fuel, rfl⟩ := Nat.exists_eq_succ_of_ne_zero (Nat.ne_of_gt (Nat.zero_lt_of_lt hf))
  obtain ⟨hR₁, hb, hent⟩ := hR.make (makeOrdinaryKey (mHash k)) (some (k, v))
  obtain ⟨pred, cur, hfind, hp⟩ := find_spec hR₁ (fits_ordinary mHash k)
    (lt_maxHashValue (maxHashValue_ne _).symm) hslot hlt fuel (Nat.le_of_lt_succ hf)
  rw [← hent]
  rcases hp.absent_or hR₁ with ⟨w, hcur, hv, hw⟩ | ⟨hcur, hw⟩
  · obtain ⟨h1, h2⟩ := Prod.mk.inj hcur
    refine ⟨_, q, false, ?_, hR₁, ⟨rfl, rfl, fun _ h => h⟩, Nat.le_succ _,
      .inl ⟨rfl, ⟨w, (hw w).2 rfl⟩, .refl _⟩⟩
    simp [LockFreeList.add, LockFreeList.addLoop, hfind, h1, h2]
  · obtain ⟨hex, q', hR', -, hlen, hperm⟩ := hp.link hR₁ hcur hb (Nat.lt_succ_self _)
      (make_order _ (some (k, v))) (fits_ordinary mHash k)
    refine ⟨_, q', true, ?_, hR', ⟨rfl, rfl, fun _ h => h⟩, hlen.le, .inr ⟨rfl, hw, ?_⟩⟩
    · have hno : ¬ (((s.make (makeOrdinaryKey (mHash k)) (some (k, v))).heap cur).mHashValue =
          makeOrdinaryKey (mHash k) ∧
          ((s.make (makeOrdinaryKey (mHash k)) (some (k, v))).heap cur).key = some k) :=
        fun h => hcur (Prod.ext h.1 h.2)
      simp [LockFreeList.add, LockFreeList.addLoop, hfind, hno, hex]
    · rw [make_value] at hperm
      unfold entries at hperm ⊢
      rw [State.setNext_value, State.setNext_value]
      exact hperm

theorem remove_spec (hR : Rep mHash s q) (k : K) (hslot : s.mBuckets slot ≠ none)
    (hlt : makeSentinelKey slot < makeOrdinaryKey (mHash k)) (fuel : ℕ) (hf : q.length < fuel) :
    ∃ s' q' removed,
      LockFreeList.remove slot (makeOrdinaryKey (mHash k)) k fuel s = some (s', removed) ∧
        Rep mHash s' q' ∧ Frame s s' ∧ q'.length ≤ q.length ∧
          (removed = false ∧ (∀ w, (k, w) ∉ entries s q) ∧ (entries s' q').Perm (entries s q) ∨
            removed = true ∧ ∃ v, (entries s q).Perm ((k, v) :: entries s' q')) := by
  obtain ⟨fuel, rfl⟩ := Nat.exists_eq_succ_of_ne_zero (Nat.ne_of_gt (Nat.zero_lt_of_lt hf))
  obtain ⟨pred, cur, hfind, hp⟩ := find_spec hR (fits_ordinary mHash k)
    (lt_maxHashValue (maxHashValue_ne _).symm) hslot hlt fuel (Nat.le_of_lt_succ hf)
  rcases hp.absent_or hR with ⟨v, hcur, hv, -⟩ | ⟨hcur, hw⟩
  · obtain ⟨h1, h2⟩ := Prod.mk.inj hcur
    obtain ⟨hex1, hex2, q', hR', hlen, hperm⟩ := hp.unlink hR hcur
    refine ⟨_, q', true, ?_, hR', ⟨rfl, rfl, fun _ h => h⟩, hlen, .inr ⟨rfl, v, ?_⟩⟩
    · unfold State.links at hex1 hex2
      simp [LockFreeList.remove, hfind, h1, h2, hex1, hex2, State.links]
    · rw [hv] at hperm
      unfold entries at hperm ⊢
      rw [State.setNext_value, State.setNext_value]
      exact hperm
  · have hno : (s.heap cur).mHashValue ≠ makeOrdinaryKey (mHash k) ∨ (s.heap cur).key ≠ some k := by
      by_contra h
      rw [not_or, not_not, not_not] at h
      exact hcur (Prod.ext h.1 h.2)
    refine ⟨s, q, false, ?_, hR, .refl s, le_rfl, .inl ⟨rfl, hw, .refl _⟩⟩
    simp only [LockFreeList.remove, hfind, Option.bind_some, if_pos hno]

omit [DecidableEq K] in
/-- The condition of the loop of `get`. -/
theorem get_goes_on (ha : Fits mHash (s.order a)) :
    ((s.heap a).mHashValue < makeOrdinaryKey (mHash k) ∨
      ((s.heap a).mHashValue = makeOrdinaryKey (mHash k) ∧ (s.heap a).key ≠ some k)) ↔
      Lower (s.order a) (makeOrdinaryKey (mHash k), some k) := by
  refine or_congr_right (and_congr_right fun h => ⟨fun hk => ?_, fun hk => hk.2.2⟩)
  exact ⟨fun hn => ha.2 hn _ h, Option.some_ne_none k, hk⟩

theorem getLoop_stop (hp : Place s q (makeOrdinaryKey (mHash k), some k) pred cur)
    (hR : Rep mHash s q) (hcur : ¬ Lower (s.order cur) (makeOrdinaryKey (mHash k), some k)) :
    ∃ ans, LockFreeList.getLoop (makeOrdinaryKey (mHash k)) k (fuel + 1) s cur false = some ans ∧
      ∀ v, ans = some v ↔ (k, v) ∈ entries s q := by
  rw [← get_goes_on (hR.fits cur hp.mem_cur)] at hcur
  rcases hp.absent_or hR with ⟨w, hx, hv, hw⟩ | ⟨hx, hw⟩
  · obtain ⟨h1, h2⟩ := Prod.mk.inj hx
    refine ⟨some w, ?_, fun v => by rw [hw, Option.some.injEq, eq_comm]⟩
    have hv' : (s.heap cur).mValue = some (k, w) := hv
    simp [LockFreeList.getLoop, h1, h2, hv']
  · have hno : (s.heap cur).mHashValue ≠ makeOrdinaryKey (mHash k) ∨ (s.heap cur).key ≠ some k ∨
        (false : Bool) = true := by
      by_contra h
      rw [not_or, not_or, not_not, not_not] at h
      exact hx (Prod.ext h.1 h.2.1)
    refine ⟨none, ?_, fun v => by simp [hw v]⟩
    simp only [LockFreeList.getLoop, if_neg hcur, if_pos hno]

/-- The loop of `get` goes on while the node is lower. -/
theorem getLoop_spec (hR : Rep mHash s q) {r rest : List ℕ} (hq : q = r ++ pred :: cur :: rest)
    (hr : ∀ a ∈ r, Lower (s.order a) (makeOrdinaryKey (mHash k), some k))
    (hpred : Lower (s.order pred) (makeOrdinaryKey (mHash k), some k))
    (hstop : ∃ z ∈ cur :: rest, ¬ Lower (s.order z) (makeOrdinaryKey (mHash k), some k))
    (fuel : ℕ) (hf : rest.length < fuel) :
    ∃ ans, LockFreeList.getLoop (makeOrdinaryKey (mHash k)) k fuel s cur false = some ans ∧
      ∀ v, ans = some v ↔ (k, v) ∈ entries s q := by
  have hx := fits_ordinary mHash k
  induction rest generalizing r pred cur fuel with
  | nil =>
    obtain ⟨fuel, rfl⟩ := Nat.exists_eq_succ_of_ne_zero (Nat.ne_of_gt (Nat.zero_lt_of_lt hf))
    obtain ⟨z, hz, hzx⟩ := hstop
    obtain rfl := List.mem_singleton.1 hz
    have hcur : z ∈ q := by simp [hq]
    exact getLoop_stop ⟨⟨r, [], hq, hr⟩, hpred, place_of_not_lower (hR.fits z hcur) hx hzx⟩ hR hzx
  | cons succ rest ih =>
    obtain ⟨fuel, rfl⟩ := Nat.exists_eq_succ_of_ne_zero (Nat.ne_of_gt (Nat.zero_lt_of_lt hf))
    have hcur : cur ∈ q := by simp [hq]
    by_cases hlow : Lower (s.order cur) (makeOrdinaryKey (mHash k), some k)
    · have hq' : q = (r ++ [pred]) ++ cur :: succ :: rest := by simp [hq]
      have hnext : (s.heap cur).mNext = (some succ, false) :=
        Prod.ext (hR.links_eq hq') (hR.unmarked cur hcur)
      obtain ⟨z, hz, hzx⟩ := hstop
      have hz' : z ∈ succ :: rest := (List.mem_cons.1 hz).resolve_left fun e => hzx (e ▸ hlow)
      have hr' : ∀ a ∈ r ++ [pred], Lower (s.order a) (makeOrdinaryKey (mHash k), some k) :=
        fun a ha => by
          rcases List.mem_append.1 ha with ha | ha
          · exact hr a ha
          · exact List.mem_singleton.1 ha ▸ hpred
      obtain ⟨ans, h1, h2⟩ := ih hq' hr' hlow ⟨z, hz', hzx⟩ fuel
        (by simpa using Nat.lt_of_succ_lt_succ hf)
      refine ⟨ans, ?_, h2⟩
      have hgo := (get_goes_on (k := k) (hR.fits cur hcur)).2 hlow
      simp only [LockFreeList.getLoop, if_pos hgo, hnext, Option.bind_some]
      exact h1
    · exact getLoop_stop ⟨⟨r, succ :: rest, hq, hr⟩, hpred,
        place_of_not_lower (hR.fits cur hcur) hx hlow⟩
        hR hlow

theorem get_spec (hR : Rep mHash s q) (k : K) (hslot : s.mBuckets slot ≠ none)
    (hlt : makeSentinelKey slot < makeOrdinaryKey (mHash k)) (fuel : ℕ) (hf : q.length ≤ fuel) :
    ∃ ans, LockFreeList.get fuel s slot (makeOrdinaryKey (mHash k)) k = some ans ∧
      ∀ v, ans = some v ↔ (k, v) ∈ entries s q := by
  obtain ⟨h, hh⟩ := Option.ne_none_iff_exists'.1 hslot
  obtain ⟨r, cur, rest, hq, hnext, hr, hlow, hstop⟩ :=
    hR.from_slot (x := (makeOrdinaryKey (mHash k), some k))
      (lt_maxHashValue (maxHashValue_ne _).symm) hh hlt
  have hlen : rest.length < fuel := by
    rw [hq] at hf
    simp only [List.length_append, List.length_cons] at hf
    omega
  obtain ⟨ans, h1, h2⟩ := getLoop_spec hR hq hr hlow hstop fuel hlen
  have hnext' : (s.heap h).mNext = (some cur, false) :=
    Prod.ext hnext (hR.unmarked h (by simp [hq]))
  refine ⟨ans, ?_, h2⟩
  simpa [LockFreeList.get, hh, hnext'] using h1

/-- The result a call has on a finite map, and what it makes of the map. -/
def Op.spec : Op K V → (K → Option V) → Result V × (K → Option V)
  | .insert key value, m =>
    (.bool (m key).isNone, if (m key).isNone then Function.update m key (some value) else m)
  | .remove key, m => (.bool (m key).isSome, Function.update m key none)
  | .find key, m => (.value (m key), m)

def Op.specs : List (Op K V) → (K → Option V) → List (Result V) × (K → Option V)
  | [], m => ([], m)
  | op :: ops, m => ((op.spec m).1 :: (specs ops (op.spec m).2).1, (specs ops (op.spec m).2).2)

omit [DecidableEq K] in
/-- The pairs are those of the map. -/
def Lists (m : K → Option V) (l : List (K × V)) : Prop := ∀ k v, m k = some v ↔ (k, v) ∈ l

/-- After `n` calls, and `d` doublings that no call made, the list holds the map. -/
structure Stands (mHash : K → HashValueType) (n d : ℕ) (s : State K V)
    (m : K → Option V) : Prop where
  list : ∃ q, Rep mHash s q ∧ q.length ≤ 2 + 63 * n ∧ Lists m (entries s q) ∧
    s.mSize.toNat = (entries s q).length % 2 ^ 32
  table : ∃ e ≤ 31 + d, s.bucketSize.toNat = 2 ^ e

section Lists

omit [DecidableEq K]

variable {l l' : List (K × V)}

theorem Lists.perm (h : Lists m l) (hp : l'.Perm l) : Lists m l' := fun k v => by
  rw [h k v, hp.mem_iff]

theorem Lists.eq_some (h : Lists m l) (hk : (k, v) ∈ l) : m k = some v := (h k v).2 hk

theorem Lists.eq_none (h : Lists m l) (hk : ∀ w, (k, w) ∉ l) : m k = none := by
  by_contra hm
  obtain ⟨w, hw⟩ := Option.ne_none_iff_exists'.1 hm
  exact hk w ((h k w).1 hw)

theorem Lists.insert [DecidableEq K] (h : Lists m l) (hk : ∀ w, (k, w) ∉ l) :
    Lists (Function.update m k (some v)) ((k, v) :: l) := fun k' v' => by
  rw [List.mem_cons, Prod.mk.injEq]
  by_cases hkk : k' = k
  · subst hkk
    simp [hk v', eq_comm]
  · simp [hkk, h k' v']

theorem Lists.erase [DecidableEq K] (h : Lists m ((k, v) :: l)) (hk : ∀ w, (k, w) ∉ l) :
    Lists (Function.update m k none) l := fun k' v' => by
  by_cases hkk : k' = k
  · subst hkk
    simp [hk v']
  · rw [Function.update_of_ne hkk, h k' v', List.mem_cons, Prod.mk.injEq]
    simp [hkk]

/-- No key is in the list twice. -/
theorem Rep.nodup_keys (hR : Rep mHash s q) : ((entries s q).map Prod.fst).Nodup := by
  refine List.pairwise_map.2 (List.pairwise_filterMap.2 (hR.lower.imp_of_mem ?_))
  rintro a b ha hb hab ⟨k, v⟩ hv ⟨k', v'⟩ hv' hkk
  have hka : (s.heap a).key = some k := congrArg (Option.map Prod.fst) hv
  have hkb : (s.heap b).key = some k' := congrArg (Option.map Prod.fst) hv'
  obtain rfl : k = k' := hkk
  exact hab.ne ((hR.order_eq ha hka).trans (hR.order_eq hb hkb).symm)

end Lists

theorem Stands.card (hS : Stands mHash n d s m) : ∃ keys : Finset K, (∀ k, k ∈ keys ↔ m k ≠ none) ∧
    s.mSize.toNat = keys.card % 2 ^ 32 := by
  obtain ⟨q, hR, -, hm, hsize⟩ := hS.list
  refine ⟨((entries s q).map Prod.fst).toFinset, fun k => ?_, ?_⟩
  · rw [List.mem_toFinset, List.mem_map]
    constructor
    · rintro ⟨⟨k, v⟩, hv, rfl⟩
      simp [hm.eq_some hv]
    · intro hk
      obtain ⟨v, hv⟩ := Option.ne_none_iff_exists'.1 hk
      exact ⟨(k, v), (hm k v).1 hv, rfl⟩
  · rw [List.toFinset_card_of_nodup hR.nodup_keys, List.length_map]
    exact hsize

omit [DecidableEq K] in
theorem extend_table (he : e < 62) (hb : s.bucketSize.toNat = 2 ^ e) :
    s.extend.bucketSize.toNat = 2 ^ (e + 1) := by
  have hpow : 2 ^ (e + 1) ≤ 2 ^ 62 := Nat.pow_le_pow_right (by decide) he
  show (s.bucketSize <<< 1).toNat = _
  rw [BitVec.toNat_shiftLeft, hb, Nat.shiftLeft_eq, ← Nat.pow_succ, Nat.mod_eq_of_lt (by omega)]

omit [DecidableEq K] in
theorem Stands.extend (hS : Stands mHash n d s m) (hd : d < 31) :
    Stands mHash n (d + 1) s.extend m := by
  obtain ⟨⟨q, hR, hlen, hm, hsize⟩, e, he, hb⟩ := hS
  exact ⟨⟨q, hR.congr (fun _ _ => rfl) rfl le_rfl, hlen, hm, hsize⟩, e + 1, by omega,
    extend_table (by omega) hb⟩

/-- The table is doubled while it has at most a third as many buckets as `mSize` can count. -/
theorem table_small {prevSize : BitVec 32} (hb : bucketSize.toNat = 2 ^ e)
    (h : sThreshold < prevSize.setWidth 64 / bucketSize) : e < 31 := by
  rw [BitVec.lt_def, BitVec.toNat_udiv, hb, BitVec.toNat_setWidth] at h
  have hlt : prevSize.toNat < 2 ^ 32 := prevSize.isLt
  rw [Nat.mod_eq_of_lt (by omega)] at h
  by_contra hge
  have hpow : 2 ^ 31 ≤ 2 ^ e := Nat.pow_le_pow_right (by decide) (by omega)
  have hdiv : prevSize.toNat / 2 ^ e ≤ prevSize.toNat / 2 ^ 31 :=
    Nat.div_le_div_left hpow (by decide)
  have h2 : sThreshold.toNat = 2 := rfl
  omega

theorem call_insert (hd : d ≤ 31) (hS : Stands mHash n d s m) (k : K) (v : V) (fuel : ℕ)
    (hf : 63 * n + 192 ≤ fuel) : ∃ s', call mHash fuel s (.insert k v) =
      some (s', ((Op.insert k v).spec m).1) ∧
      Stands mHash (n + 1) d s' ((Op.insert k v).spec m).2 := by
  obtain ⟨⟨q, hR, hlen, hm, hsize⟩, e, he, hb⟩ := hS
  obtain ⟨s₁, slot, q₁, hs₁, hR₁, hF₁, hslot, hlt, hlen₁, hp₁⟩ :=
    getSentinelNode_spec (Nat.le_trans he (by omega)) hb hR k fuel (by omega)
  obtain ⟨s₂, q₂, added, hs₂, hR₂, hF₂, hlen₂, h⟩ :=
    add_spec hR₁ k v hslot hlt fuel (by omega)
  have hF := hF₁.trans hF₂
  rcases h with ⟨rfl, ⟨w, hw⟩, hp₂⟩ | ⟨rfl, hw, hp₂⟩
  · have hk : m k = some w := (hm.perm hp₁).eq_some hw
    have hp := hp₂.trans hp₁
    have hspec : (Op.insert k v).spec m = (.bool false, m) := by simp [Op.spec, hk]
    refine ⟨s₂, ?_, ?_⟩
    · simp [call, insert, hs₁, hs₂, hspec]
    · rw [hspec]
      refine ⟨⟨q₂, hR₂, by omega, hm.perm hp, ?_⟩, e, he, by rw [hF.bucketSize, hb]⟩
      rw [hF.mSize, hsize, hp.length_eq]
  · have hk : m k = none := (hm.perm hp₁).eq_none hw
    have hp := hp₂.trans (hp₁.cons (k, v))
    have hspec : (Op.insert k v).spec m = (.bool true, Function.update m k (some v)) := by
      simp [Op.spec, hk]
    have hm' : Lists (Function.update m k (some v)) (entries s₂ q₂) :=
      (hm.insert fun w' hw' => hw w' (hp₁.mem_iff.2 hw')).perm hp
    have hsize' : (s₂.mSize + 1).toNat = (entries s₂ q₂).length % 2 ^ 32 := by
      rw [hF.mSize, BitVec.toNat_add, hsize, hp.length_eq, List.length_cons]
      simp
    have hb₂ : s₂.bucketSize.toNat = 2 ^ e := by rw [hF.bucketSize, hb]
    let s₃ : State K V := { s₂ with mSize := s₂.mSize + 1 }
    have hR₃ : Rep mHash s₃ q₂ := hR₂.congr (fun _ _ => rfl) rfl le_rfl
    by_cases hext : sThreshold < s₂.mSize.setWidth 64 / s₂.bucketSize
    · refine ⟨s₃.extend, ?_, ?_⟩
      · simp [call, insert, hs₁, hs₂, hspec, hext, s₃]
      · rw [hspec]
        have he31 := table_small hb₂ hext
        refine ⟨⟨q₂, hR₃.congr (fun _ _ => rfl) rfl le_rfl, by omega, hm', hsize'⟩,
          e + 1, by omega, ?_⟩
        exact extend_table (s := s₃) (by omega) hb₂
    · refine ⟨s₃, ?_, ?_⟩
      · simp [call, insert, hs₁, hs₂, hspec, hext, s₃]
      · rw [hspec]
        exact ⟨⟨q₂, hR₃, by omega, hm', hsize'⟩, e, he, hb₂⟩

theorem call_remove (hd : d ≤ 31) (hS : Stands mHash n d s m) (k : K) (fuel : ℕ)
    (hf : 63 * n + 192 ≤ fuel) : ∃ s', call mHash fuel s (.remove k) =
      some (s', ((Op.remove (V := V) k).spec m).1) ∧
      Stands mHash (n + 1) d s' ((Op.remove k).spec m).2 := by
  obtain ⟨⟨q, hR, hlen, hm, hsize⟩, e, he, hb⟩ := hS
  obtain ⟨s₁, slot, q₁, hs₁, hR₁, hF₁, hslot, hlt, hlen₁, hp₁⟩ :=
    getSentinelNode_spec (Nat.le_trans he (by omega)) hb hR k fuel (by omega)
  obtain ⟨s₂, q₂, removed, hs₂, hR₂, hF₂, hlen₂, h⟩ :=
    remove_spec hR₁ k hslot hlt fuel (by omega)
  have hF := hF₁.trans hF₂
  have hb₂ : s₂.bucketSize.toNat = 2 ^ e := by rw [hF.bucketSize, hb]
  have hm₁ := hm.perm hp₁
  rcases h with ⟨rfl, hw, hp₂⟩ | ⟨rfl, w, hp₂⟩
  · have hk : m k = none := hm₁.eq_none hw
    have hspec : (Op.remove k).spec m = (.bool false, m) := by
      simp [Op.spec, hk, Function.update_eq_self_iff]
    refine ⟨s₂, ?_, ?_⟩
    · simp [call, remove, hs₁, hs₂, hspec]
    · rw [hspec]
      refine ⟨⟨q₂, hR₂, by omega, hm₁.perm hp₂, ?_⟩, e, he, hb₂⟩
      rw [hF.mSize, hsize, hp₂.length_eq, hp₁.length_eq]
  · have hk : m k = some w := hm₁.eq_some (hp₂.mem_iff.2 (by simp))
    have hspec : (Op.remove k).spec m = (.bool true, Function.update m k none) := by
      simp [Op.spec, hk]
    have hnd := (hp₂.map Prod.fst).nodup_iff.1 hR₁.nodup_keys
    rw [List.map_cons, List.nodup_cons] at hnd
    have hno : ∀ w', (k, w') ∉ entries s₂ q₂ := fun w' h => hnd.1 (List.mem_map.2 ⟨_, h, rfl⟩)
    have hlen' : (entries s q).length = (entries s₂ q₂).length + 1 := by
      rw [← hp₁.length_eq, hp₂.length_eq, List.length_cons]
    refine ⟨{ s₂ with mSize := s₂.mSize - 1 }, ?_, ?_⟩
    · simp [call, remove, hs₁, hs₂, hspec]
    · rw [hspec]
      refine ⟨⟨q₂, hR₂.congr (fun _ _ => rfl) rfl le_rfl, by omega,
        (hm₁.perm hp₂.symm).erase hno, ?_⟩, e, he, hb₂⟩
      show (s₂.mSize - 1).toNat = (entries s₂ q₂).length % 2 ^ 32
      rw [hF.mSize, BitVec.toNat_sub, hsize, hlen']
      simp
      omega

theorem call_find (hd : d ≤ 31) (hS : Stands mHash n d s m) (k : K) (fuel : ℕ)
    (hf : 63 * n + 192 ≤ fuel) : ∃ s', call mHash fuel s (.find k) =
      some (s', ((Op.find (V := V) k).spec m).1) ∧
      Stands mHash (n + 1) d s' ((Op.find k).spec m).2 := by
  obtain ⟨⟨q, hR, hlen, hm, hsize⟩, e, he, hb⟩ := hS
  obtain ⟨s₁, slot, q₁, hs₁, hR₁, hF₁, hslot, hlt, hlen₁, hp₁⟩ :=
    getSentinelNode_spec (Nat.le_trans he (by omega)) hb hR k fuel (by omega)
  obtain ⟨ans, hans, hiff⟩ := get_spec hR₁ k hslot hlt fuel (by omega)
  have hm₁ := hm.perm hp₁
  have hk : ans = m k := Option.ext fun v => by rw [hiff v, hm₁ k v]
  refine ⟨s₁, ?_, ⟨q₁, hR₁, by omega, hm₁, ?_⟩, e, he, by rw [hF₁.bucketSize, hb]⟩
  · simp [call, find, hs₁, hans, Op.spec, hk]
  · rw [hF₁.mSize, hsize, hp₁.length_eq]

theorem call_spec (hd : d ≤ 31) (hS : Stands mHash n d s m) (op : Op K V) (fuel : ℕ)
    (hf : 63 * n + 192 ≤ fuel) : ∃ s', call mHash fuel s op = some (s', (op.spec m).1) ∧
    Stands mHash (n + 1) d s' (op.spec m).2 := by
  cases op with
  | insert k v => exact call_insert hd hS k v fuel hf
  | remove k => exact call_remove hd hS k fuel hf
  | find k => exact call_find hd hS k fuel hf

theorem calls_spec (hd : d ≤ 31) (hS : Stands mHash n d s m) (ops : List (Op K V))
    (fuel : ℕ) (hf : 63 * (n + ops.length) + 192 ≤ fuel) :
    ∃ s', calls mHash fuel s ops = some (s', (Op.specs ops m).1) ∧
      Stands mHash (n + ops.length) d s' (Op.specs ops m).2 := by
  induction ops generalizing n s m with
  | nil => exact ⟨s, rfl, hS⟩
  | cons op ops ih =>
    rw [List.length_cons] at hf ⊢
    obtain ⟨s₁, h1, hS₁⟩ := call_spec hd hS op fuel (by omega)
    obtain ⟨s₂, h2, hS₂⟩ := ih hS₁ (by omega)
    refine ⟨s₂, ?_, ?_⟩
    · simp [calls, h1, h2, Op.specs]
    · rwa [Nat.add_assoc, Nat.add_comm 1] at hS₂

end Calls

theorem stands_initial (mHash : K → HashValueType) :
    Stands mHash 0 0 (initial : State K V) fun _ => none := by
  have h0 : (initial : State K V).heap 0 = ⟨0, none, some 1, false⟩ := rfl
  have h1 : (initial : State K V).heap 1 = ⟨maxHashValue, none, none, false⟩ := rfl
  have hz : ∀ h, (0 : HashValueType) ≠ makeOrdinaryKey h := fun h => by
    have := makeSentinelKey_ne 0 h
    rwa [makeSentinelKey_zero] at this
  refine ⟨⟨[0, 1], ⟨⟨0, rfl, rfl, rfl, rfl⟩, ?_, ?_, ?_, ⟨1, by simp, rfl⟩, fun i a hi => ?_, ?_⟩,
    by simp, ?_, rfl⟩, 1, by decide, rfl⟩
  · simp [State.mark, h0, h1]
  · simp [Lower, State.order, h0, h1, maxHashValue]
  · simp only [List.mem_cons, List.not_mem_nil, or_false, forall_eq_or_imp, forall_eq]
    exact ⟨⟨nofun, fun _ => hz⟩, nofun, fun _ => maxHashValue_ne⟩
  · obtain ⟨rfl, rfl⟩ : i = 0 ∧ 0 = a := by simpa [initial] using hi
    exact ⟨by simp, makeSentinelKey_zero.symm⟩
  · simp [initial]
  · intro k v
    simp [entries, State.value, h0, h1]

/-- With enough fuel the calls return what they return on a finite map, `size()` is the number of
its keys, and one more doubling of the table changes nothing for the calls that follow. -/
theorem refines_map [DecidableEq K] (mHash : K → HashValueType) (ops ops' : List (Op K V)) :
    ∃ N, ∀ fuel ≥ N, ∃ s, calls mHash fuel initial ops = some (s, (Op.specs ops fun _ => none).1) ∧
      (∃ keys : Finset K, (∀ k, k ∈ keys ↔ (Op.specs ops fun _ => none).2 k ≠ none) ∧
        s.mSize.toNat = keys.card % 2 ^ 32) ∧
      ∃ s', calls mHash fuel s.extend ops' =
        some (s', (Op.specs ops' (Op.specs ops fun _ => none).2).1) := by
  refine ⟨63 * (0 + ops.length + ops'.length) + 192, fun fuel hf => ?_⟩
  obtain ⟨s, hs, hS⟩ := calls_spec (Nat.zero_le 31) (stands_initial mHash) ops fuel (by omega)
  have hE := hS.extend (by decide)
  obtain ⟨s', hs', -⟩ := calls_spec (by decide) hE ops' fuel (by omega)
  exact ⟨s, hs, hS.card, s', hs'⟩

end Sequential

end LockFreeHashMap

end ConcurrencySandbox

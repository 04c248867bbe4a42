import Mathlib.Tactic.IntervalCases
import ConcurrencySandbox.ExtendibleBucket.Basic
import ConcurrencySandbox.Structures.Radix

/-!
# The array under growth

`extend` adds a level once the size is above `pow(BaseArraySize, height + 1)`, while the tree holds
`1024 ^ (height + 1)` elements. For a base below 1024 there is room to spare; for 1024 itself the
comparison lets the size double once more than it may, and two indices share an element
(`shared_element`). Below that, and while `pow` and the `int` in `size` do not overflow
(`limit`), every index has its own element for good.
-/

namespace ConcurrencySandbox

open Interleaving Structures Radix

namespace ExtendibleBucket

variable {A τ : Type*}

def height (s : Shared A) (a : A) : ℕ := (s.heap a).mHeight

def child (s : Shared A) (a : A) (k : ℕ) : Option A := (s.heap a).mBucket k

/-- Where `operator[]` begins its walk for index `i`. -/
def top (s : Shared A) (i : ℕ) : At A := ⟨height s s.mRoot.1, s.mRoot.1, i⟩

/-- The element that index `i` designates. -/
def Designates (s : Shared A) (i : ℕ) (a : A) (x : ℕ) : Prop :=
  Down sBucketSize (child s) (top s i) ⟨0, a, x⟩

/-- The call's index was below `size()` when it loaded the root. -/
def InSize (call : Call) : Prop := ∃ n, sizeOf call.exp = some n ∧ call.i < n

/-- How far the size exponent may grow for `BaseArraySize = 2 ^ b`. -/
def limit (b : ℕ) : ℕ := if b = 10 then 10 else min 30 (max 7 (7 * b + 1))

/-- What the proof keeps track of beside the state: the first index each node of the tree covers,
and which thread has a node to itself. -/
structure Ghost (τ A : Type*) where
  start : A → Option ℕ
  owner : A → Option τ

structure Rooted (b : ℕ) (g : Ghost τ A) (s : Shared A) : Prop where
  root : g.start s.mRoot.1 = some 0
  indexed : Indexed sBucketSize (child s) (height s) g.start
  linked : ∀ a, g.start a ≠ none → s.allocated a = true ∧ g.owner a = none
  owner : ∀ a, g.owner a ≠ none → s.allocated a = true
  small : s.mRoot.2 ≤ limit b
  full : s.mRoot.2 ≤ 10 * (height s s.mRoot.1 + 1)
  tall : height s s.mRoot.1 = 0 ∨
    b * height s s.mRoot.1 + 2 ≤ s.mRoot.2 ∧ height s s.mRoot.1 + 1 ≤ s.mRoot.2

/-- `getImpl` looks for its index in the right subtree. -/
structure Within (g : Ghost τ A) (s : Shared A) (call : Call) (i : ℕ) (node : A) : Prop where
  linked : g.start node ≠ none
  exp : call.exp ≤ s.mRoot.2
  down : InSize call → Down sBucketSize (child s) (top s call.i) ⟨height s node, node, i⟩

def Placed (b : ℕ) (g : Ghost τ A) (s : Shared A) (t : τ) : PC A → Prop
  | .extendTest root _ => g.start root ≠ none
  | .extendCas root exp => g.start root ≠ none ∧ 2 ^ exp ≤ pow (2 ^ b) (height s root + 1)
  | .treeNew root exp => g.start root ≠ none ∧ ¬ 2 ^ exp ≤ pow (2 ^ b) (height s root + 1)
  | .treeStore root exp a =>
    (g.start root ≠ none ∧ ¬ 2 ^ exp ≤ pow (2 ^ b) (height s root + 1)) ∧ g.owner a = some t ∧
      s.heap a = ⟨height s root + 1, fun _ => none⟩
  | .treeCas root exp a =>
    (g.start root ≠ none ∧ ¬ 2 ^ exp ≤ pow (2 ^ b) (height s root + 1)) ∧ g.owner a = some t ∧
      s.heap a = ⟨height s root + 1, Function.update (fun _ => none) 0 (some root)⟩
  | .treeDelete a => g.owner a = some t
  | .getImpl call i node => Within g s call i node
  | .childNew call i node => Within g s call i node ∧ height s node ≠ 0
  | .childCas call i node a => (Within g s call i node ∧ height s node ≠ 0) ∧
      g.owner a = some t ∧ s.heap a = ⟨height s node - 1, fun _ => none⟩
  | .childDelete call i node a => Within g s call i node ∧ g.owner a = some t
  | .outOfRange call => ¬ InSize call
  | .element call a x => call.exp ≤ s.mRoot.2 ∧ (InSize call → Designates s call.i a x)
  | _ => True

section Arithmetic

theorem pow_eq (x : ℕ) : ∀ y, pow x y = x ^ y % 2 ^ 64
  | 0 => rfl
  | y + 1 => by rw [pow, pow_eq x y, Nat.mod_mul_mod, pow_succ x y]

theorem pow_two_pow {b y : ℕ} (h : b * y < 64) : pow (2 ^ b) y = 2 ^ (b * y) := by
  rw [pow_eq, ← pow_mul]
  exact Nat.mod_eq_of_lt (Nat.pow_lt_pow_right (by omega) h)

theorem le_of_pow {b y e : ℕ} (h : 2 ^ e ≤ pow (2 ^ b) y) : e ≤ b * y := by
  rw [pow_eq, ← pow_mul] at h
  exact (Nat.pow_le_pow_iff_right (by omega)).1 (h.trans (Nat.mod_le _ _))

theorem limit_le (b : ℕ) : limit b ≤ 30 := by
  unfold limit
  split_ifs <;> omega

/-- Within the limit the tree has at most six levels of inner nodes. -/
theorem height_le {b h e : ℕ} (hb : b ≤ 10) (he : e ≤ limit b)
    (ht : h = 0 ∨ b * h + 2 ≤ e ∧ h + 1 ≤ e) : h ≤ 6 := by
  unfold limit at he
  interval_cases b <;> simp only [Nat.reduceEqDiff, if_true, if_false] at he <;> omega

end Arithmetic

variable {b : ℕ} {g g' : Ghost τ A} {s s' : Shared A} {t u : τ} {p p' : PC A} {a root node : A}

/-- The tree only grows: nodes stay, and every walk from the root remains one. -/
structure Keeps (g g' : Ghost τ A) (s s' : Shared A) : Prop where
  linked : ∀ a, g.start a ≠ none → g'.start a ≠ none ∧ height s' a = height s a
  exp : s.mRoot.2 ≤ s'.mRoot.2
  down : ∀ i q, i < 2 ^ s.mRoot.2 → Down sBucketSize (child s) (top s i) q →
    Down sBucketSize (child s') (top s' i) q

/-- Thread `u` still has what it had to itself. -/
def Owns (u : τ) (g g' : Ghost τ A) (s s' : Shared A) : Prop :=
  ∀ a, g.owner a = some u → g'.owner a = some u ∧ s'.heap a = s.heap a

theorem Keeps.refl (g : Ghost τ A) (s : Shared A) : Keeps g g s s :=
  ⟨fun _ h => ⟨h, rfl⟩, le_rfl, fun _ _ _ h => h⟩

theorem lt_of_inSize {call : Call} (h : InSize call) (he : call.exp ≤ s.mRoot.2)
    (hs : s.mRoot.2 ≤ 30) : call.i < 2 ^ s.mRoot.2 := by
  obtain ⟨n, hn, hi⟩ := h
  rw [sizeOf, if_pos (by omega), Option.some.injEq] at hn
  exact (hn ▸ hi).trans_le (Nat.pow_le_pow_right (by omega) he)

theorem Within.keeps {call : Call} {i : ℕ} (h : Within g s call i node) (hK : Keeps g g' s s')
    (hs : s.mRoot.2 ≤ 30) : Within g' s' call i node where
  linked := (hK.linked _ h.linked).1
  exp := h.exp.trans hK.exp
  down hc := by
    rw [(hK.linked _ h.linked).2]
    exact hK.down _ _ (lt_of_inSize hc h.exp hs) (h.down hc)

theorem Placed.keeps (h : Placed b g s u p) (hK : Keeps g g' s s') (ho : Owns u g g' s s')
    (hs : s.mRoot.2 ≤ 30) : Placed b g' s' u p := by
  have hroot : ∀ root, g.start root ≠ none → g'.start root ≠ none ∧
      height s' root = height s root :=
    hK.linked
  cases p with
  | extendTest root exp => exact (hroot _ h).1
  | extendCas root exp | treeNew root exp =>
    obtain ⟨h1, h2⟩ := hroot _ h.1
    exact ⟨h1, h2 ▸ h.2⟩
  | treeStore root exp a | treeCas root exp a =>
    obtain ⟨⟨h1, h2⟩, h3, h4⟩ := h
    obtain ⟨k1, k2⟩ := hroot _ h1
    obtain ⟨k3, k4⟩ := ho _ h3
    exact ⟨⟨k1, k2 ▸ h2⟩, k3, by rw [k4, k2, h4]⟩
  | treeDelete a => exact (ho _ h).1
  | getImpl call i node => exact h.keeps hK hs
  | childNew call i node => exact ⟨h.1.keeps hK hs, (hroot _ h.1.linked).2 ▸ h.2⟩
  | childCas call i node a =>
    obtain ⟨⟨h1, h2⟩, h3, h4⟩ := h
    obtain ⟨k1, k2⟩ := hroot _ h1.linked
    obtain ⟨k3, k4⟩ := ho _ h3
    exact ⟨⟨h1.keeps hK hs, k2 ▸ h2⟩, k3, by rw [k4, k2, h4]⟩
  | childDelete call i node a => exact ⟨h.1.keeps hK hs, (ho _ h.2).1⟩
  | outOfRange call => exact h
  | element call a x =>
    exact ⟨h.1.trans hK.exp, fun hc => hK.down _ _ (lt_of_inSize hc h.1 hs) (h.2 hc)⟩
  | idle | extendLoad | extended _ | load _ => trivial

namespace Rooted

theorem exp_le (hR : Rooted b g s) : s.mRoot.2 ≤ 30 := hR.small.trans (limit_le b)

theorem ne_of_owner (hR : Rooted b g s) (hl : g.start node ≠ none) (ho : g.owner a ≠ none) :
    node ≠ a := by
  rintro rfl
  exact ho (hR.linked _ hl).2

/-- The size fits into the tree. -/
theorem lt_capacity (hR : Rooted b g s) {i : ℕ} (hi : i < 2 ^ s.mRoot.2) :
    i < sBucketSize ^ (height s s.mRoot.1 + 1) := by
  refine hi.trans_le ?_
  rw [sBucketSize, ← pow_mul]
  exact Nat.pow_le_pow_right (by omega) hR.full

/-- Changing nodes outside the tree leaves its walks. -/
theorem keeps_of_linked (hR : Rooted b g s) (hr : s'.mRoot = s.mRoot)
    (hs : ∀ a, g.start a ≠ none → g'.start a ≠ none)
    (hh : ∀ a, g.start a ≠ none → height s' a = height s a)
    (hc : ∀ a k c, g.start a ≠ none → child s a k = some c → child s' a k = some c) :
    Keeps g g' s s' where
  linked a ha := ⟨hs a ha, hh a ha⟩
  exp := by rw [hr]
  down i q _ hd := by
    have hroot : g.start s.mRoot.1 ≠ none := by rw [hR.root]; simp
    have htop : top s' i = top s i := by simp only [top, hr, hh _ hroot]
    rw [htop]
    refine hd.mono (P := fun a => g.start a ≠ none) hroot fun a k c ha hk => ⟨?_, hc a k c ha hk⟩
    obtain ⟨n, hn⟩ := Option.ne_none_iff_exists'.1 ha
    rw [(hR.indexed a n k c hn hk).1]
    simp

end Rooted

section Steps

variable [DecidableEq A]

theorem make_spec (hR : Rooted b g s) (t : τ) (h : ℕ) (ha : ¬ s.allocated a = true) :
    ∃ g', Rooted b g' (s.make a h) ∧ Keeps g g' s (s.make a h) ∧
      (∀ u, Owns u g g' s (s.make a h)) ∧ g'.owner a = some t ∧
      (s.make a h).heap a = ⟨h, fun _ => none⟩ := by
  have hl : ∀ c, g.start c ≠ none → c ≠ a := fun c hc e => ha (e ▸ (hR.linked c hc).1)
  have ho : ∀ c, g.owner c ≠ none → c ≠ a := fun c hc e => ha (e ▸ hR.owner c hc)
  have hheap : ∀ c, c ≠ a → (s.make a h).heap c = s.heap c := fun c hc =>
    Function.update_of_ne hc _ _
  have hroot : s.mRoot.1 ≠ a := hl _ (by rw [hR.root]; simp)
  have hH : height (s.make a h) s.mRoot.1 = height s s.mRoot.1 := by rw [height, hheap _ hroot]; rfl
  refine ⟨⟨g.start, Function.update g.owner a (some t)⟩, ?_, ?_, fun u c hc => ?_, by simp,
    by simp [Shared.make]⟩
  · refine ⟨hR.root, fun c i k d hc hd => ?_, fun c hc => ?_, fun c hc => ?_, hR.small, ?_, ?_⟩
    · have hca := hl c (Option.ne_none_iff_exists'.2 ⟨i, hc⟩)
      have := hR.indexed c i k d hc (by simpa [child, hheap c hca] using hd)
      have hda := hl d (by simp [this.1])
      simpa [height, hheap c hca, hheap d hda] using this
    · simpa [Shared.make, hl c hc] using hR.linked c hc
    · by_cases e : c = a
      · simp [Shared.make, e]
      · simpa [Shared.make, e] using hR.owner c (by simpa [e] using hc)
    · exact hH ▸ hR.full
    · exact hH ▸ hR.tall
  · refine hR.keeps_of_linked rfl (fun _ => id) (fun c hc => ?_) fun c k d hc hd => ?_
    · rw [height, hheap c (hl c hc)]
      rfl
    · rw [child, hheap c (hl c hc)]
      exact hd
  · have := ho c (by simp [hc])
    exact ⟨by simpa [this] using hc, hheap c this⟩

theorem free_spec (hR : Rooted b g s) (ho : g.owner a = some t) :
    ∃ g', Rooted b g' (s.free a) ∧ Keeps g g' s (s.free a) ∧
      ∀ u, u ≠ t → Owns u g g' s (s.free a) := by
  refine ⟨⟨g.start, Function.update g.owner a none⟩, ?_, ?_, fun u hu c hc => ?_⟩
  · refine ⟨hR.root, hR.indexed, fun c hc => ?_, fun c hc => ?_, hR.small, hR.full, hR.tall⟩
    · have := hR.ne_of_owner (a := a) hc (by simp [ho])
      simpa [Shared.free, this] using hR.linked c hc
    · by_cases e : c = a
      · simp [e] at hc
      · simpa [Shared.free, e] using hR.owner c (by simpa [e] using hc)
  · exact hR.keeps_of_linked rfl (fun _ => id) (fun _ _ => rfl) fun _ _ _ _ => id
  · have : c ≠ a := fun e => hu (Option.some.inj (hc.symm.trans (e ▸ ho)))
    exact ⟨by simpa [this] using hc, rfl⟩

/-- A write to a node the thread has to itself. -/
theorem store_spec (hR : Rooted b g s) (ho : g.owner a = some t) (k : ℕ) (c : A) :
    Rooted b g (s.setChild a k c) ∧ Keeps g g s (s.setChild a k c) ∧
      ∀ u, u ≠ t → Owns u g g s (s.setChild a k c) := by
  have hl : ∀ d, g.start d ≠ none → (s.setChild a k c).heap d = s.heap d := fun d hd =>
    Function.update_of_ne (hR.ne_of_owner hd (by simp [ho])) _ _
  have hroot : height (s.setChild a k c) s.mRoot.1 = height s s.mRoot.1 := by
    rw [height, hl _ (by rw [hR.root]; simp)]
    rfl
  refine ⟨⟨hR.root, fun d i j e hd he => ?_, hR.linked, hR.owner, hR.small, hroot ▸ hR.full,
    hroot ▸ hR.tall⟩, ?_, fun u hu d hd => ⟨hd, ?_⟩⟩
  · have hd' := hl d (by simp [hd])
    have := hR.indexed d i j e hd (by simpa [child, hd'] using he)
    have he' := hl e (by simp [this.1])
    simpa [height, hd', he'] using this
  · refine hR.keeps_of_linked rfl (fun _ => id) (fun d hd => ?_) fun d j e hd he => ?_
    · rw [height, hl d hd]
      rfl
    · rw [child, hl d hd]
      exact he
  · have : d ≠ a := fun e => hu (Option.some.inj (hd.symm.trans (e ▸ ho)))
    exact Function.update_of_ne this _ _

/-- A new child takes its place below a node of the tree. -/
theorem link_spec (hR : Rooted b g s) (hl : g.start node ≠ none) (hh : height s node ≠ 0)
    (ho : g.owner a = some t) (ha : s.heap a = ⟨height s node - 1, fun _ => none⟩) {k : ℕ}
    (hk : child s node k = none) :
    ∃ g', Rooted b g' (s.setChild node k a) ∧ Keeps g g' s (s.setChild node k a) ∧
      (∀ u, u ≠ t → Owns u g g' s (s.setChild node k a)) ∧ g'.start a ≠ none ∧
      child (s.setChild node k a) node k = some a := by
  obtain ⟨i, hi⟩ := Option.ne_none_iff_exists'.1 hl
  have hne : ∀ c, g.start c ≠ none → c ≠ a := fun c hc => hR.ne_of_owner hc (by simp [ho])
  have hH : ∀ c, height (s.setChild node k a) c = height s c := fun c => by
    by_cases e : c = node <;> simp [height, Shared.setChild, e]
  have hC : ∀ c j d, child s c j = some d → child (s.setChild node k a) c j = some d := by
    intro c j d hd
    by_cases e : c = node
    · subst e
      have : j ≠ k := fun e => by rw [e, hk] at hd; cases hd
      simpa [child, Shared.setChild, this] using hd
    · simpa [child, Shared.setChild, e] using hd
  refine ⟨⟨Function.update g.start a (some (i + k * sBucketSize ^ height s node)),
    Function.update g.owner a none⟩, ?_, ?_, fun u hu c hc => ?_, by simp,
    by simp [child, Shared.setChild]⟩
  · refine ⟨?_, fun c n j d hc hd => ?_, fun c hc => ?_, fun c hc => ?_, hR.small,
      hH _ ▸ hR.full, hH _ ▸ hR.tall⟩
    · have : s.mRoot.1 ≠ a := hne s.mRoot.1 (by rw [hR.root]; simp)
      simpa [Shared.setChild, this] using hR.root
    · rw [hH, hH]
      by_cases e : c = a
      · -- the new child has no children
        subst e
        have : c ≠ node := (hne node hl).symm
        simp [child, Shared.setChild, this, ha] at hd
      · have hc' : g.start c = some n := by simpa [e] using hc
        by_cases hd' : child s c j = some d
        · have := hR.indexed c n j d hc' hd'
          simpa [hne d (by simp [this.1])] using this
        · have hcn : c = node ∧ j = k ∧ d = a := by
            by_contra hcon
            refine hd' ?_
            by_cases e1 : c = node
            · subst e1
              by_cases e2 : j = k
              · subst e2
                simp [child, Shared.setChild] at hd
                exact absurd ⟨rfl, rfl, hd.symm⟩ hcon
              · simpa [child, Shared.setChild, e2] using hd
            · simpa [child, Shared.setChild, e1] using hd
          obtain ⟨rfl, rfl, rfl⟩ := hcn
          obtain rfl : i = n := Option.some.inj (hi.symm.trans hc')
          refine ⟨by simp, ?_⟩
          rw [height, height, ha] at *
          simp only
          omega
    · by_cases e : c = a
      · subst e
        exact ⟨hR.owner _ (by simp [ho]), by simp⟩
      · simpa [e, Shared.setChild] using hR.linked c (by simpa [e] using hc)
    · by_cases e : c = a
      · simp [e] at hc
      · exact hR.owner c (by simpa [e] using hc)
  · refine hR.keeps_of_linked rfl (fun c hc => ?_) (fun c _ => hH c) fun c j d _ => hC c j d
    simpa [hne c hc] using hc
  · have h1 : c ≠ a := fun e => hu (Option.some.inj (hc.symm.trans (e ▸ ho)))
    have h2 : c ≠ node := (hR.ne_of_owner (a := c) hl (by simp [hc])).symm
    exact ⟨by simpa [h1] using hc, Function.update_of_ne h2 _ _⟩

omit [DecidableEq A] in
/-- `extend` within the tree: the old root has room. -/
theorem extend_spec (hR : Rooted b g s) (hb : b ≤ 10) (hL : s.mRoot.2 + 1 ≤ limit b)
    (hp : 2 ^ s.mRoot.2 ≤ pow (2 ^ b) (height s s.mRoot.1 + 1)) :
    Rooted b g { s with mRoot := (s.mRoot.1, s.mRoot.2 + 1) } ∧
      Keeps g g s { s with mRoot := (s.mRoot.1, s.mRoot.2 + 1) } := by
  have he := le_of_pow hp
  refine ⟨⟨hR.root, hR.indexed, hR.linked, hR.owner, hL, ?_, ?_⟩,
    ⟨fun _ h => ⟨h, rfl⟩, Nat.le_succ _, fun _ _ _ h => h⟩⟩
  · show s.mRoot.2 + 1 ≤ 10 * (height s s.mRoot.1 + 1)
    unfold limit at hL
    split_ifs at hL with h10
    · omega
    · have : b * (height s s.mRoot.1 + 1) ≤ 9 * (height s s.mRoot.1 + 1) :=
        Nat.mul_le_mul_right _ (by omega)
      omega
  · exact hR.tall.imp id fun h => ⟨h.1.trans (Nat.le_succ _), h.2.trans (Nat.le_succ _)⟩

/-- `extendTree`: the old root becomes the first child of the new one. -/
theorem tree_spec (hR : Rooted b g s) (hb : b ≤ 10) (hL : s.mRoot.2 + 1 ≤ limit b)
    (hp : ¬ 2 ^ s.mRoot.2 ≤ pow (2 ^ b) (height s s.mRoot.1 + 1)) (ho : g.owner a = some t)
    (ha : s.heap a = ⟨height s s.mRoot.1 + 1, Function.update (fun _ => none) 0 (some s.mRoot.1)⟩) :
    ∃ g', Rooted b g' { s with mRoot := (a, s.mRoot.2 + 1) } ∧
      Keeps g g' s { s with mRoot := (a, s.mRoot.2 + 1) } ∧
      ∀ u, u ≠ t → Owns u g g' s { s with mRoot := (a, s.mRoot.2 + 1) } := by
  have hne : ∀ c, g.start c ≠ none → c ≠ a := fun c hc => hR.ne_of_owner hc (by simp [ho])
  have hroot : s.mRoot.1 ≠ a := hne _ (by rw [hR.root]; simp)
  have hh := height_le hb hR.small hR.tall
  have hsmall := hR.exp_le
  have hfull := hR.full
  have hA : height s a = height s s.mRoot.1 + 1 := by rw [height, ha]
  -- `pow` does not wrap, so the level is added only above its capacity
  have hlt : b * (height s s.mRoot.1 + 1) < 64 := by
    rcases hR.tall with h0 | ⟨h1, -⟩
    · rw [h0]
      omega
    · rw [Nat.mul_succ]
      omega
  have hexp : b * (height s s.mRoot.1 + 1) < s.mRoot.2 := by
    rw [pow_two_pow hlt, not_le] at hp
    exact (Nat.pow_lt_pow_iff_right (by omega)).1 hp
  refine ⟨⟨Function.update g.start a (some 0), Function.update g.owner a none⟩, ?_, ?_,
    fun u hu c hc => ?_⟩
  · refine ⟨by simp, fun c n k d hc hd => ?_, fun c hc => ?_, fun c hc => ?_, hL, ?_, .inr ?_⟩
    · by_cases e : c = a
      · subst e
        obtain rfl : n = 0 := by simpa using hc.symm
        have hk : k = 0 ∧ s.mRoot.1 = d := by
          by_cases hk : k = 0
          · simpa [child, ha, hk] using hd
          · simp [child, ha, hk] at hd
        obtain ⟨rfl, rfl⟩ := hk
        exact ⟨by simp [hroot, hR.root], hA⟩
      · have := hR.indexed c n k d (by simpa [e] using hc) hd
        have hd' := hne d (Option.ne_none_iff_exists'.2 ⟨_, this.1⟩)
        exact ⟨(Function.update_of_ne hd' _ _).trans this.1, this.2⟩
    · by_cases e : c = a
      · subst e
        exact ⟨hR.owner _ (by simp [ho]), by simp⟩
      · simpa [e] using hR.linked c (by simpa [e] using hc)
    · by_cases e : c = a
      · simp [e] at hc
      · exact hR.owner c (by simpa [e] using hc)
    · show s.mRoot.2 + 1 ≤ 10 * (height s a + 1)
      omega
    · show b * height s a + 2 ≤ s.mRoot.2 + 1 ∧ height s a + 1 ≤ s.mRoot.2 + 1
      rw [hA]
      rcases hR.tall with h0 | ⟨-, h2⟩ <;> omega
  · refine ⟨fun c hc => ⟨by simpa [hne c hc] using hc, rfl⟩, Nat.le_succ _, fun i q hi hd => ?_⟩
    have hchild : child s a 0 = some s.mRoot.1 := by simp [child, ha]
    have htop : top { s with mRoot := (a, s.mRoot.2 + 1) } i = ⟨height s s.mRoot.1 + 1, a, i⟩ :=
      congrArg (fun h => (⟨h, a, i⟩ : At A)) hA
    rw [htop]
    exact Down.newRoot hd hchild (hR.lt_capacity hi)
  · have : c ≠ a := fun e => hu (Option.some.inj (hc.symm.trans (e ▸ ho)))
    exact ⟨by simpa [this] using hc, rfl⟩

omit [DecidableEq A] in
/-- For an index in size, `getImpl` computes the right digit and stays inside the array. -/
theorem Within.digit {call : Call} {i : ℕ} (hR : Rooted b g s) (hb : b ≤ 10)
    (h : Within g s call i node) (hc : InSize call) :
    pow sBucketSize (height s node) = sBucketSize ^ height s node ∧
      i < sBucketSize ^ (height s node + 1) := by
  have hd := h.down hc
  have hh : height s node ≤ 6 := hd.height_le.trans (height_le hb hR.small hR.tall)
  refine ⟨pow_two_pow (by omega) |>.trans (pow_mul 2 10 _), ?_⟩
  exact hd.lt (by decide) (hR.lt_capacity (lt_of_inSize hc h.exp hR.exp_le))

omit [DecidableEq A] in
/-- `getImpl` goes on in the child that holds the index. -/
theorem Within.step {call : Call} {i : ℕ} (hR : Rooted b g s) (hb : b ≤ 10)
    (h : Within g s call i node) {c : A}
    (hk : child s node (i / pow sBucketSize (height s node)) = some c) :
    Within g s call (i % pow sBucketSize (height s node)) c where
  linked := by
    obtain ⟨n, hn⟩ := Option.ne_none_iff_exists'.1 h.linked
    rw [(hR.indexed _ _ _ _ hn hk).1]
    simp
  exp := h.exp
  down hc := by
    obtain ⟨n, hn⟩ := Option.ne_none_iff_exists'.1 h.linked
    have hhc := (hR.indexed _ _ _ _ hn hk).2
    have hpow := (h.digit hR hb hc).1
    rw [hpow, hhc] at hk
    rw [hpow, hhc]
    exact (h.down hc).snoc hhc hk

/-- What the step of a thread may do to the size. -/
def Growable (b : ℕ) (s : Shared A) (p : PC A) : Prop :=
  ∀ root exp, p = .extendCas root exp ∨ (∃ a, p = .treeCas root exp a) → s.mRoot = (root, exp) →
    exp + 1 ≤ limit b

/-- A step of thread `t` keeps the tree and every thread's place in it. -/
theorem grows_step {act : Act A} (hb : b ≤ 10) (hR : Rooted b g s) (ht : Placed b g s t p)
    (hC : Growable b s p) (hn : next (2 ^ b) act s p = some (s', p')) :
    ∃ g', Rooted b g' s' ∧ Keeps g g' s s' ∧ (∀ u, u ≠ t → Owns u g g' s s') ∧
      Placed b g' s' t p' := by
  have stay : ∀ p', Placed b g s t p' → ∃ g', Rooted b g' s ∧ Keeps g g' s s ∧
      (∀ u, u ≠ t → Owns u g g' s s) ∧ Placed b g' s t p' := fun p' h =>
    ⟨g, hR, .refl g s, fun _ _ _ h => ⟨h, rfl⟩, h⟩
  have hroot : g.start s.mRoot.1 ≠ none := by rw [hR.root]; simp
  have hmod : ∀ exp, exp + 1 ≤ limit b → (exp + 1) % 2 ^ 16 = exp + 1 := fun exp h =>
    Nat.mod_eq_of_lt (by have := limit_le b; omega)
  revert hn
  fun_cases next (2 ^ b) act s p <;> intro hn <;> cases hn
  all_goals try exact stay _ trivial
  · exact stay (.extendTest _ _) hroot
  · exact stay (.extendCas _ _) ⟨ht, ‹_›⟩
  · exact stay (.treeNew _ _) ⟨ht, ‹_›⟩
  · -- extend succeeds within the tree
    rename_i root exp hr
    have hL := hC root exp (.inl rfl) hr
    obtain ⟨rfl, rfl⟩ := Prod.mk.inj hr.symm
    rw [hmod _ hL]
    obtain ⟨hR', hK⟩ := extend_spec hR hb hL ht.2
    exact ⟨g, hR', hK, fun _ _ _ h => ⟨h, rfl⟩, trivial⟩
  · obtain ⟨g', hR', hK, hO, ho, ha⟩ := make_spec hR t _ ‹_›
    have hp := ht.keeps hK (hO t) hR.exp_le
    exact ⟨g', hR', hK, fun u _ => hO u, hp, ho, by rw [ha, (hK.linked _ ht.1).2]; rfl⟩
  · rename_i root exp newRoot
    obtain ⟨hp, ho, ha⟩ := ht
    obtain ⟨hR', hK, hO⟩ := store_spec hR ho 0 root
    obtain ⟨h1, h2⟩ := hK.linked _ hp.1
    exact ⟨g, hR', hK, hO, ⟨h1, h2.symm ▸ hp.2⟩, ho, by rw [h2]; simp [Shared.setChild, ha]⟩
  · -- extendTree succeeds
    rename_i root exp newRoot hr
    have hL := hC root exp (.inr ⟨_, rfl⟩) hr
    obtain ⟨rfl, rfl⟩ := Prod.mk.inj hr.symm
    rw [hmod _ hL]
    obtain ⟨hp, ho, ha⟩ := ht
    obtain ⟨g', hR', hK, hO⟩ := tree_spec hR hb hL hp.2 ho ha
    exact ⟨g', hR', hK, hO, trivial⟩
  · exact stay (.treeDelete _) ht.2.1
  · obtain ⟨g', hR', hK, hO⟩ := free_spec hR ht
    exact ⟨g', hR', hK, hO, trivial⟩
  · exact stay (.getImpl _ _ _) ⟨hroot, le_rfl, fun _ => .refl⟩
  · -- a leaf
    rename_i call i node hh
    refine stay (.element _ _ _) ⟨ht.exp, fun hc => ?_⟩
    have hi := (ht.digit hR hb hc).2
    have hd := ht.down hc
    rw [show height s node = 0 from hh] at hi hd
    rwa [Nat.mod_eq_of_lt (by simpa using hi)]
  · -- an index in size is in the range of its node
    rename_i call i node hh hout
    refine stay (.outOfRange _) fun hc => ?_
    obtain ⟨hpow, hi⟩ := ht.digit hR hb hc
    have hlt : i / sBucketSize ^ height s node < sBucketSize := digit_lt hi
    have hpos : 0 < sBucketSize ^ height s node := Nat.pow_pos (by decide)
    rw [show (s.heap node).mHeight = height s node from rfl, hpow] at hout
    omega
  · exact stay (.getImpl _ _ _) (ht.step hR hb ‹_›)
  · exact stay (.childNew _ _ _) ⟨ht, ‹_›⟩
  · obtain ⟨g', hR', hK, hO, ho, ha⟩ := make_spec hR t _ ‹_›
    have hp := ht.keeps hK (hO t) hR.exp_le
    exact ⟨g', hR', hK, fun u _ => hO u, hp, ho, by rw [ha, (hK.linked _ ht.1.linked).2]; rfl⟩
  · exact stay (.childDelete _ _ _ _) ⟨ht.1.1.step hR hb ‹_›, ht.2.1⟩
  · -- the new child becomes part of the tree
    rename_i call i node newChild hk
    obtain ⟨⟨hw, hh⟩, ho, ha⟩ := ht
    obtain ⟨g', hR', hK, hO, -, hk'⟩ := link_spec hR hw.linked hh ho ha hk
    have hw' := (hw.keeps hK hR.exp_le).step hR' hb (c := newChild)
    rw [(hK.linked _ hw.linked).2] at hw'
    exact ⟨g', hR', hK, hO, hw' hk'⟩
  · obtain ⟨hw, ho⟩ := ht
    obtain ⟨g', hR', hK, hO⟩ := free_spec hR ho
    exact ⟨g', hR', hK, hO, hw.keeps hK hR.exp_le⟩

end Steps

section Runs

variable [DecidableEq A] [DecidableEq τ]

theorem isPowersOf2_iff {x : ℕ} (h : isPowersOf2 x = true) : x = 2 ^ exponent x := by
  fun_induction isPowersOf2 x with
  | case1 x hx =>
    obtain rfl : x = 1 := by simpa using h
    simp [exponent]
  | case2 => cases h
  | case3 x hx he ih =>
    rw [exponent, if_neg hx, pow_succ, ← ih h]
    omega

/-- No step takes the size beyond the limit. -/
def GrowsWithin (BaseArraySize : ℕ) (c : Conf τ (Shared A) (PC A)) (l : τ × Act A) : Prop :=
  Growable (exponent BaseArraySize) c.shared (c.pc l.1)

/-- In a run, `operator[]` of an index in size stays inside the arrays, and two such calls, at any
two moments, return the same element exactly when their indices are the same. -/
def ArrayRun {BaseArraySize initialSize n : ℕ} {C : Conf τ (Shared A) (PC A) → τ × Act A → Prop}
    (r : (system BaseArraySize initialSize).Run C n) : Prop :=
  (∀ k ≤ n, ∀ t call, InSize call → (r.state k).pc t ≠ .outOfRange call) ∧
    ∀ k ≤ n, ∀ m ≤ n, ∀ t u call call' a x a' x', InSize call → InSize call' →
      (r.state k).pc t = .element call a x → (r.state m).pc u = .element call' a' x' →
        (call.i = call'.i ↔ a = a' ∧ x = x')

/-- What holds in every state of a run within the limit. -/
def Grown (b : ℕ) (g : Ghost τ A) (c : Conf τ (Shared A) (PC A)) : Prop :=
  Rooted b g c.shared ∧ ∀ t, Placed b g c.shared t (c.pc t)

omit [DecidableEq τ] in
theorem grown_init {b e : ℕ} (hb : b ≤ 10) (he : e ≤ b) {s : Shared A}
    (hs : ∃ a, s = initial (2 ^ e) a) (hx : exponent (2 ^ e) = e) :
    ∃ g : Ghost τ A, Grown b g ⟨s, fun _ => .idle⟩ := by
  obtain ⟨a, rfl⟩ := hs
  refine ⟨⟨fun c => if c = a then some 0 else none, fun _ => none⟩,
    ⟨by simp [initial], fun c n k d hc hd => ?_, fun c hc => ?_, by simp, ?_, ?_, .inl rfl⟩,
    fun _ => trivial⟩
  · simp [child, initial] at hd
  · have : c = a := by
      by_contra h
      simp [h] at hc
    simp [initial, this]
  · show exponent (2 ^ e) ≤ limit b
    unfold limit
    split_ifs <;> omega
  · show exponent (2 ^ e) ≤ 10 * (0 + 1)
    omega

variable {c c' : Conf τ (Shared A) (PC A)} {l : τ × Act A} {init : Shared A → Prop}

theorem grown_step {B : ℕ} (hB : B = 2 ^ b) (hb : b ≤ 10) (hx : exponent B = b)
    {g : Ghost τ A} (hg : Grown b g c) (hC : GrowsWithin B c l)
    (hst : ((program B).system init .idle).step c l = some c') :
    ∃ g', Grown b g' c' ∧ Keeps g g' c.shared c'.shared := by
  obtain ⟨t, act⟩ := l
  obtain ⟨s', p', hn, rfl⟩ := Program.step_eq_some.1 hst
  obtain ⟨hR, hL⟩ := hg
  subst hB
  have hC' : Growable b c.shared (c.pc t) := by
    have := hC
    rwa [GrowsWithin, hx] at this
  obtain ⟨g', hR', hK, hO, hp⟩ := grows_step hb hR (hL t) hC' hn
  exact ⟨g', ⟨hR', Program.forall_update hp fun u hu => (hL u).keeps hK (hO u hu) hR.exp_le⟩, hK⟩

/-- Elements stay where they are. -/
theorem designates_mono {B : ℕ} (hB : B = 2 ^ b) (hb : b ≤ 10) (hx : exponent B = b) {I n : ℕ}
    {r : (system B I).Run (GrowsWithin (τ := τ) (A := A) B) n}
    (hg : ∀ k ≤ n, ∃ g : Ghost τ A, Grown b g (r.state k)) {i x k m : ℕ} (hkm : k ≤ m) (hm : m ≤ n)
    (hi : i < 2 ^ (r.state k).shared.mRoot.2) (hd : Designates (r.state k).shared i a x) :
    i < 2 ^ (r.state m).shared.mRoot.2 ∧ Designates (r.state m).shared i a x := by
  induction m, hkm using Nat.le_induction with
  | base => exact ⟨hi, hd⟩
  | succ m hkm ih =>
    obtain ⟨hi', hd'⟩ := ih (by omega)
    obtain ⟨g, hg⟩ := hg m (by omega)
    obtain ⟨g', -, hK⟩ := grown_step hB hb hx hg (r.meets m (by omega)) (r.step m (by omega))
    exact ⟨hi'.trans_le (Nat.pow_le_pow_right (by omega) hK.exp), hK.down _ _ hi' hd'⟩

omit [DecidableEq A] [DecidableEq τ] in
/-- Two walks to leaves end in one element exactly when they look for one index. -/
theorem designates_iff (hR : Rooted b g s) {i j x x' : ℕ} {a a' : A} (hi : Designates s i a x)
    (hj : Designates s j a' x') : i = j ↔ a = a' ∧ x = x' := by
  constructor
  · rintro rfl
    simpa using hi.unique hj rfl rfl
  · rintro ⟨rfl, rfl⟩
    obtain ⟨-, n, hn, h1⟩ := hi.index hR.indexed rfl hR.root
    obtain ⟨-, m, hm, h2⟩ := hj.index hR.indexed rfl hR.root
    obtain rfl : n = m := Option.some.inj (hn.symm.trans hm)
    simp only [top, Nat.zero_add] at h1 h2
    omega

/-- Within the limit the bucket is an array under growth. -/
theorem array_under_growth {BaseArraySize initialSize n : ℕ}
    (hB : isPowersOf2 BaseArraySize = true) (hB' : BaseArraySize ≤ sBucketSize)
    (hI : isPowersOf2 initialSize = true) (hI' : initialSize ≤ BaseArraySize)
    (r : (system BaseArraySize initialSize).Run (GrowsWithin (τ := τ) (A := A) BaseArraySize) n) :
    ArrayRun r := by
  have hBe := isPowersOf2_iff hB
  have hIe := isPowersOf2_iff hI
  have hb : exponent BaseArraySize ≤ 10 := by
    rw [hBe, sBucketSize] at hB'
    exact (Nat.pow_le_pow_iff_right (by omega)).1 hB'
  have he : exponent initialSize ≤ exponent BaseArraySize := by
    rw [hBe, hIe] at hI'
    exact (Nat.pow_le_pow_iff_right (by omega)).1 hI'
  have hg : ∀ k ≤ n, ∃ g : Ghost τ A, Grown (exponent BaseArraySize) g (r.state k) := by
    intro k hk
    refine (r.reach hk).induct (P := fun c => ∃ g, Grown (exponent BaseArraySize) g c) ?_ ?_
    · rintro ⟨s, f⟩ ⟨hs, rfl⟩
      exact grown_init hb he (hIe ▸ hs) (by rw [← hIe])
    · rintro c l c' - ⟨g, hg⟩ hC hst
      obtain ⟨g', hg', -⟩ := grown_step hBe hb rfl hg hC hst
      exact ⟨g', hg'⟩
  refine ⟨fun k hk t call hc hp => ?_, ?_⟩
  · obtain ⟨g, -, hL⟩ := hg k hk
    have := hL t
    rw [hp] at this
    exact this hc
  · -- the earlier element is still there when the later call returns
    have ordered : ∀ k m, k ≤ m → m ≤ n → ∀ t u call call' a x a' x', InSize call → InSize call' →
        (r.state k).pc t = .element call a x → (r.state m).pc u = .element call' a' x' →
          (call.i = call'.i ↔ a = a' ∧ x = x') := by
      intro k m hkm hm t u call call' a x a' x' hc hc' hp hp'
      obtain ⟨gk, hRk, hLk⟩ := hg k (hkm.trans hm)
      obtain ⟨gm, hRm, hLm⟩ := hg m hm
      have h1 := hLk t
      have h2 := hLm u
      rw [hp] at h1
      rw [hp'] at h2
      have hi := lt_of_inSize hc h1.1 hRk.exp_le
      exact designates_iff hRm (designates_mono hBe hb rfl hg hkm hm hi (h1.2 hc)).2 (h2.2 hc')
    intro k hk m hm t u call call' a x a' x' hc hc' hp hp'
    rcases le_total k m with h | h
    · exact ordered k m h hm t u call call' a x a' x' hc hc' hp hp'
    · have := ordered m k h hk u t call' call a' x' a x hc' hc hp' hp
      rw [eq_comm, this, eq_comm (a := a'), eq_comm (a := x')]

/-- The root and the exponent that `extend` is to replace. -/
def PC.grows : PC A → Option (A × ℕ)
  | .extendCas root exp | .treeCas root exp _ => some (root, exp)
  | _ => none

omit [DecidableEq A] [DecidableEq τ] in
theorem growsWithin_iff {BaseArraySize : ℕ} {c : Conf τ (Shared A) (PC A)} {l : τ × Act A} :
    GrowsWithin BaseArraySize c l ↔ ∀ x ∈ (c.pc l.1).grows, c.shared.mRoot = x →
      x.2 + 1 ≤ limit (exponent BaseArraySize) := by
  constructor
  · intro h x hx
    refine h x.1 x.2 ?_
    unfold PC.grows at hx
    split at hx
    · cases hx
      exact .inl ‹_›
    · cases hx
      exact .inr ⟨_, ‹_›⟩
    · cases hx
  · rintro h root exp (hp | ⟨a, hp⟩) <;> rw [hp] at h <;> exact h _ rfl

instance {BaseArraySize : ℕ} (c : Conf τ (Shared A) (PC A)) (l : τ × Act A) :
    Decidable (GrowsWithin BaseArraySize c l) :=
  decidable_of_iff' _ growsWithin_iff

/-- Index 5 is where it was after the size has doubled twice, the second time with a new root, and
an index behind the first 1024 has an element of its own. One `extend` lost against another
thread's. -/
theorem array_under_growth_twice :
    ∃ (n : ℕ) (r : (system 512 512).Run (GrowsWithin (τ := Fin 2) (A := ℕ) 512) n),
      (r.state 3).pc 1 = .element ⟨5, 9⟩ 0 5 ∧ (r.state 13).pc 1 = .extended false ∧
        (r.state n).shared.mRoot = (1, 11) ∧ (r.state n).pc 1 = .element ⟨5, 11⟩ 0 5 ∧
          (r.state n).pc 0 = .element ⟨1029, 11⟩ 3 5 ∧ ArrayRun r := by
  let run (t : Fin 2) (n : ℕ) : List (Fin 2 × Act ℕ) := List.replicate n (t, .run)
  let as : List (Fin 2 × Act ℕ) := (1, .call (some 5)) :: run 1 3 ++ (1, .call none) :: run 1 2 ++
    (0, .call none) :: run 0 4 ++ run 1 2 ++ (0, .call none) :: run 0 2 ++ (0, .alloc 1) ::
    run 0 3 ++ (1, .call (some 5)) :: run 1 3 ++ (0, .call (some 1029)) :: run 0 2 ++
    (0, .alloc 3) :: run 0 2
  have h512 : exponent 512 = 9 := by simp [exponent]
  obtain ⟨r, hr⟩ := System.exists_run_through (S := system 512 512) (C := GrowsWithin 512) as
    (0, .run) (s := ⟨⟨(0, 9), fun _ => ⟨0, fun _ => none⟩, Function.update (fun _ => false) 0 true⟩,
      fun _ => .idle⟩) ⟨⟨0, by rw [initial, h512]⟩, rfl⟩ (fun _ _ => id) (by decide +kernel)
  have h1 := hr 3 (by decide) (fun c => c.pc 1 = .element ⟨5, 9⟩ 0 5) ⟨_, rfl, rfl⟩
  have h2 := hr 13 (by decide) (fun c => c.pc 1 = .extended false) ⟨_, rfl, rfl⟩
  obtain ⟨h3, h4, h5⟩ := hr as.length le_rfl (fun c => c.shared.mRoot = (1, 11) ∧
    c.pc 1 = .element ⟨5, 11⟩ 0 5 ∧ c.pc 0 = .element ⟨1029, 11⟩ 3 5) ⟨_, rfl, rfl, rfl, rfl⟩
  exact ⟨_, r, h1, h2, h3, h4, h5, array_under_growth (by simp [isPowersOf2]) (by decide)
    (by simp [isPowersOf2]) le_rfl r⟩

/-- With the default base, the first `extend` puts 2048 indices on 1024 elements. -/
theorem shared_element : ¬ ∀ (n : ℕ) (r : (system sBucketSize sBucketSize).Run
    (fun (_ : Conf (Fin 2) (Shared ℕ) (PC ℕ)) _ => True) n), ArrayRun r := by
  have h10 : exponent sBucketSize = 10 := by simp [exponent, sBucketSize]
  have hex : ∃ c, (system (τ := Fin 2) sBucketSize sBucketSize).exec
      ⟨⟨(0, 10), fun _ => ⟨0, fun _ => none⟩, Function.update (fun _ => false) 0 true⟩,
        fun _ => .idle⟩
      [(0, .call none), (0, .run), (0, .run), (0, .run), (0, .run),
        (0, .call (some 0)), (0, .run), (0, .run),
        (1, .call (some 1024)), (1, .run), (1, .run)] = some c ∧
      c.pc 0 = .element ⟨0, 11⟩ 0 0 ∧ c.pc 1 = .element ⟨1024, 11⟩ 0 0 := ⟨_, rfl, rfl, rfl⟩
  obtain ⟨c, hc, h0, h1⟩ := hex
  intro h
  obtain ⟨r, hr, -⟩ := System.exists_run (S := system sBucketSize sBucketSize)
    (C := fun _ _ => True) (0, .run)
    ⟨⟨0, by rw [initial, h10]⟩, rfl⟩ hc fun _ _ _ _ => trivial
  have hs := Option.some.inj (hc.symm.trans (hr 11 le_rfl))
  have := (h _ r).2 11 le_rfl 11 le_rfl 0 1 ⟨0, 11⟩ ⟨1024, 11⟩ 0 0 0 0 ⟨2048, rfl, by decide⟩
    ⟨2048, rfl, by decide⟩ (hs ▸ h0) (hs ▸ h1)
  simp at this

end Runs

end ExtendibleBucket

end ConcurrencySandbox

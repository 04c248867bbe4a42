import Mathlib.Data.List.Nodup
import Mathlib.Logic.Function.Basic
import Mathlib.Order.Nat
import Mathlib.Tactic.Common

/-!
# Hash buckets

Association lists with a key at most once (`Keyed`), and a list of them, each key in the bucket its
hash value picks (`Table`). Such a table is read off from its entries alone (`Table.get_eq_some`),
so two tables with the same entries give the same values (`Table.ext`), whatever their sizes.
-/

namespace Structures

variable {K V : Type*}

/-- No key twice. -/
def Keyed (l : List (K × V)) : Prop := (l.map Prod.fst).Nodup

namespace Keyed

variable {l l₁ l₂ : List (K × V)} {k : K} {v : V} {x y : K × V}

theorem eq (h : Keyed l) (hx : x ∈ l) (hy : y ∈ l) (hk : x.1 = y.1) : x = y :=
  List.inj_on_of_nodup_map h hx hy hk

theorem snoc (h : Keyed l) (hk : ∀ x ∈ l, x.1 ≠ k) : Keyed (l ++ [(k, v)]) := by
  unfold Keyed
  rw [List.map_append, List.map_singleton, List.nodup_append]
  refine ⟨h, by simp, fun a ha b hb => ?_⟩
  obtain ⟨x, hx, rfl⟩ := List.mem_map.1 ha
  obtain rfl := List.mem_singleton.1 hb
  exact hk x hx

theorem middle : Keyed (l₁ ++ (k, v) :: l₂) ↔ (∀ x ∈ l₁ ++ l₂, x.1 ≠ k) ∧ Keyed (l₁ ++ l₂) := by
  unfold Keyed
  rw [List.map_append, List.map_cons, List.perm_middle.nodup_iff, List.nodup_cons,
    ← List.map_append]
  refine and_congr_left fun _ => ?_
  rw [List.mem_map]
  push Not
  exact Iff.rfl

end Keyed

/-- Every key is in the bucket of its hash value, once. -/
structure Table (h : K → ℕ) (bs : List (List (K × V))) : Prop where
  placed : ∀ (i : ℕ) (l : List (K × V)), bs[i]? = some l → ∀ x ∈ l, h x.1 % bs.length = i
  keyed : ∀ (i : ℕ) (l : List (K × V)), bs[i]? = some l → Keyed l

namespace Table

variable {h : K → ℕ} {bs : List (List (K × V))} {l l' : List (K × V)} {k : K} {v : V} {i : ℕ}

theorem replicate (h : K → ℕ) (n : ℕ) : Table h (List.replicate n ([] : List (K × V))) := by
  have hnil : ∀ i l, (List.replicate n ([] : List (K × V)))[i]? = some l → l = [] := fun i l hi =>
    List.eq_of_mem_replicate (List.mem_of_getElem? hi)
  refine ⟨fun i l hi x hx => ?_, fun i l hi => ?_⟩
  · rw [hnil i l hi] at hx
    cases hx
  · rw [hnil i l hi]
    exact List.nodup_nil

theorem flatten_keyed (hT : Table h bs) : Keyed bs.flatten := by
  unfold Keyed
  rw [List.map_flatten, List.nodup_flatten]
  refine ⟨fun l hl => ?_, ?_⟩
  · obtain ⟨l, hl', rfl⟩ := List.mem_map.1 hl
    obtain ⟨i, hi⟩ := List.getElem?_of_mem hl'
    exact hT.keyed i l hi
  · rw [List.pairwise_map, List.pairwise_iff_getElem]
    intro i j hi hj hij k hki hkj
    obtain ⟨x, hx, rfl⟩ := List.mem_map.1 hki
    obtain ⟨y, hy, hxy⟩ := List.mem_map.1 hkj
    have h1 := hT.placed i _ (List.getElem?_eq_getElem hi) x hx
    have h2 := hT.placed j _ (List.getElem?_eq_getElem hj) y hy
    rw [hxy, h1] at h2
    omega

/-- Another list in one bucket. -/
theorem set (hT : Table h bs) (hk : Keyed l') (hp : ∀ x ∈ l', h x.1 % bs.length = i) :
    Table h (bs.set i l') := by
  have hset : ∀ j l, (bs.set i l')[j]? = some l → i = j ∧ l' = l ∨ bs[j]? = some l := by
    intro j l hj
    rw [List.getElem?_set] at hj
    split_ifs at hj with hij
    · exact .inl ⟨hij, Option.some.inj hj⟩
    · exact .inr hj
  refine ⟨fun j l hj => ?_, fun j l hj => ?_⟩
  · rw [List.length_set]
    rcases hset j l hj with ⟨rfl, rfl⟩ | hj
    · exact hp
    · exact hT.placed j l hj
  · rcases hset j l hj with ⟨rfl, rfl⟩ | hj
    · exact hk
    · exact hT.keyed j l hj

/-- An entry with a new key goes to the back of its bucket. -/
theorem append (hT : Table h bs) (hl : bs[h k % bs.length]? = some l)
    (hk : ∀ x ∈ bs.flatten, x.1 ≠ k) :
    Table h (bs.set (h k % bs.length) (l ++ [(k, v)])) ∧
      ∀ x, x ∈ (bs.set (h k % bs.length) (l ++ [(k, v)])).flatten ↔
      x ∈ bs.flatten ∨ x = (k, v) := by
  obtain ⟨hlt, hget⟩ := List.getElem?_eq_some_iff.1 hl
  have hkl : ∀ x ∈ l, x.1 ≠ k :=
    fun x hx => hk x (List.mem_flatten.2 ⟨l, List.mem_of_getElem? hl, hx⟩)
  refine ⟨hT.set ((hT.keyed _ l hl).snoc hkl) fun x hx => ?_, fun x => ?_⟩
  · rcases List.mem_append.1 hx with hx | hx
    · exact hT.placed _ l hl x hx
    · rw [List.mem_singleton.1 hx]
  · rw [List.set_eq_take_append_cons_drop, if_pos hlt]
    conv_rhs => rw [← List.take_append_drop (h k % bs.length) bs,
    List.drop_eq_getElem_cons hlt, hget]
    simp only [List.flatten_append, List.flatten_cons, List.mem_append, List.mem_singleton]
    tauto

end Table

variable [DecidableEq K]

/-- The position of the first entry with the key, the length if there is none. -/
def position (l : List (K × V)) (k : K) : ℕ := l.findIdx fun x => x.1 = k

def assoc (l : List (K × V)) (k : K) : Option V := l[position l k]?.map Prod.snd

section Assoc

variable {l l' : List (K × V)} {k : K} {v : V}

theorem position_split (h : position l k < l.length) :
    ∃ l₁ w l₂, l = l₁ ++ (k, w) :: l₂ ∧ position l k = l₁.length := by
  have hk : l[position l k].1 = k :=
    of_decide_eq_true (List.findIdx_getElem (p := fun x : K × V => decide (x.1 = k)) (w := h))
  refine ⟨l.take (position l k), l[position l k].2, l.drop (position l k + 1), ?_, ?_⟩
  · rw [show (k, l[position l k].2) = l[position l k] from Prod.ext hk.symm rfl,
      ← List.drop_eq_getElem_cons h, List.take_append_drop]
  · rw [List.length_take, Nat.min_eq_left (Nat.le_of_lt h)]

theorem getElem?_position {l₁ l₂ : List (K × V)} (hl : l = l₁ ++ (k, v) :: l₂)
    (hpos : position l k = l₁.length) : l[position l k]? = some (k, v) := by
  rw [hpos, hl]
  simp

theorem position_eq_length (h : position l k = l.length) : ∀ x ∈ l, x.1 ≠ k := by
  simpa using List.findIdx_eq_length.1 h

theorem assoc_eq_some (h : Keyed l) : assoc l k = some v ↔ (k, v) ∈ l := by
  unfold assoc
  constructor
  · intro ha
    obtain ⟨x, hx, rfl⟩ := Option.map_eq_some_iff.1 ha
    obtain ⟨l₁, w, l₂, hl, hpos⟩ := position_split (List.getElem?_eq_some_iff.1 hx).1
    obtain rfl := Option.some.inj (hx.symm.trans (getElem?_position hl hpos))
    simp [hl]
  · intro hm
    have hlt : position l k < l.length := by
      refine lt_of_le_of_ne List.findIdx_le_length fun heq => ?_
      exact position_eq_length heq _ hm rfl
    obtain ⟨l₁, w, l₂, hl, hpos⟩ := position_split hlt
    have hw : (k, w) ∈ l := by simp [hl]
    rw [getElem?_position hl hpos]
    exact congrArg (fun x => some x.2) (h.eq hw hm rfl)

theorem assoc_congr (h : Keyed l) (h' : Keyed l') (hm : ∀ v, (k, v) ∈ l' ↔ (k, v) ∈ l) :
    assoc l' k = assoc l k := by
  ext v
  rw [assoc_eq_some h, assoc_eq_some h', hm]

theorem modify_middle {α : Type*} (l₁ l₂ : List α) (x : α) (f : α → α) :
    (l₁ ++ x :: l₂).modify l₁.length f = l₁ ++ f x :: l₂ := by
  induction l₁ with
  | nil => rfl
  | cons y l₁ ih => simpa using ih

theorem eraseIdx_middle {α : Type*} (l₁ l₂ : List α) (x : α) :
    (l₁ ++ x :: l₂).eraseIdx l₁.length = l₁ ++ l₂ := by
  induction l₁ with
  | nil => rfl
  | cons y l₁ ih => simpa using ih

/-- Another value for the key at its position. -/
theorem Keyed.modify (h : Keyed l) (hp : position l k < l.length) (v : V) :
    Keyed (l.modify (position l k) fun x => (x.1, v)) ∧
      ∀ x, x ∈ l.modify (position l k) (fun x => (x.1, v)) ↔ x ∈ l ∧ x.1 ≠ k ∨ x = (k, v) := by
  obtain ⟨l₁, w, l₂, hl, hpos⟩ := position_split hp
  rw [hpos, hl, modify_middle]
  rw [hl, Keyed.middle] at h
  refine ⟨Keyed.middle.2 h, fun x => ?_⟩
  have hx := h.1 x
  have hw : x = (k, w) → x.1 = k := fun e => congrArg Prod.fst e
  simp only [List.mem_append, List.mem_cons] at hx ⊢
  tauto

/-- The entry at the key's position leaves. -/
theorem Keyed.eraseIdx (h : Keyed l) (hp : position l k < l.length) :
    Keyed (l.eraseIdx (position l k)) ∧
      ∀ x, x ∈ l.eraseIdx (position l k) ↔ x ∈ l ∧ x.1 ≠ k := by
  obtain ⟨l₁, w, l₂, hl, hpos⟩ := position_split hp
  rw [hpos, hl, eraseIdx_middle]
  rw [hl, Keyed.middle] at h
  refine ⟨h.2, fun x => ?_⟩
  have hx := h.1 x
  have hw : x = (k, w) → x.1 = k := fun e => congrArg Prod.fst e
  simp only [List.mem_append, List.mem_cons] at hx ⊢
  tauto

end Assoc

def Table.get (h : K → ℕ) (bs : List (List (K × V))) (k : K) : Option V :=
  assoc (bs.getD (h k % bs.length) []) k

namespace Table

variable {h : K → ℕ} {bs bs' : List (List (K × V))} {l' : List (K × V)} {k : K} {v : V} {i : ℕ}

theorem get_eq_some (hT : Table h bs) : get h bs k = some v ↔ (k, v) ∈ bs.flatten := by
  unfold get
  rw [List.getD_eq_getElem?_getD]
  constructor
  · intro hget
    cases hb : bs[h k % bs.length]? with
    | none =>
      rw [hb] at hget
      simp [assoc] at hget
    | some l =>
      rw [hb, Option.getD_some, assoc_eq_some (hT.keyed _ l hb)] at hget
      exact List.mem_flatten.2 ⟨l, List.mem_of_getElem? hb, hget⟩
  · intro hm
    obtain ⟨l, hl, hkl⟩ := List.mem_flatten.1 hm
    obtain ⟨i, hi⟩ := List.mem_iff_getElem?.1 hl
    rw [hT.placed i l hi _ hkl, hi, Option.getD_some, assoc_eq_some (hT.keyed i l hi)]
    exact hkl

theorem ext (hT : Table h bs) (hT' : Table h bs') (hm : ∀ x, x ∈ bs'.flatten ↔ x ∈ bs.flatten) :
    get h bs' = get h bs := by
  funext k
  ext v
  rw [hT.get_eq_some, hT'.get_eq_some, hm]

theorem get_set (hi : i < bs.length) :
    get h (bs.set i l') k = if h k % bs.length = i then assoc l' k else get h bs k := by
  unfold get
  rw [List.length_set, List.getD_eq_getElem?_getD, List.getElem?_set]
  by_cases hk : h k % bs.length = i
  · rw [if_pos hk.symm, if_pos hi, if_pos hk]
    rfl
  · rw [if_neg (Ne.symm hk), if_neg hk, List.getD_eq_getElem?_getD]

/-- A change of the entries of one key. -/
theorem update {l : List (K × V)} (hT : Table h bs) (hl : bs[h k % bs.length]? = some l)
    (hk : Keyed l') (hm : ∀ x, x.1 ≠ k → (x ∈ l' ↔ x ∈ l)) :
    Table h (bs.set (h k % bs.length) l') ∧
      get h (bs.set (h k % bs.length) l') = Function.update (get h bs) k (assoc l' k) := by
  have hlt := (List.getElem?_eq_some_iff.1 hl).1
  refine ⟨hT.set hk fun x hx => ?_, ?_⟩
  · by_cases hxk : x.1 = k
    · rw [hxk]
    · exact hT.placed _ l hl x ((hm x hxk).1 hx)
  · funext k'
    rw [get_set hlt]
    by_cases hkk : k' = k
    · subst hkk
      rw [if_pos rfl, Function.update_self]
    · rw [Function.update_of_ne hkk]
      split_ifs with hi
      · unfold get
        rw [hi, List.getD_eq_getElem?_getD, hl]
        exact assoc_congr (hT.keyed _ l hl) hk fun v => hm _ hkk
      · rfl

end Table

end Structures

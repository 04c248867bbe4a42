import ConcurrencySandbox.RefinableThreadSafeHashmap.Shape

/-!
# Calls on a bucket

What a call does to the bucket of its key is what it does to the finite map that the buckets stand
for (`Performs`), one lemma for each way a critical section can go. A rehash copies pair by pair.
-/

namespace ConcurrencySandbox

open Structures

namespace RefinableThreadSafeHashmap

variable {K V : Type*} [DecidableEq K] {mHasher : K → ℕ} {op : Op K V} {i : ℕ} {ans : Option V}
  {bs bs' : List (List (K × V))} {l l' : List (K × V)} {key : K} {val : V}

/-- The call leads from one table to another by a change of bucket `i`. -/
structure Performs (mHasher : K → ℕ) (op : Op K V) (i : ℕ) (bs : List (List (K × V)))
    (ans : Option V) (bs' : List (List (K × V))) : Prop where
  table : Table mHasher bs'
  length : bs'.length = bs.length
  other : ∀ j, i ≠ j → bs'[j]? = bs[j]?
  spec : op.spec (Table.get mHasher bs) = (ans, Table.get mHasher bs')

theorem performs_find (hT : Table mHasher bs) (hi : i = mHasher key % bs.length) :
    Performs mHasher (.find key) i bs (assoc (bs.getD i []) key) bs := by
  refine ⟨hT, rfl, fun _ _ => rfl, ?_⟩
  rw [hi]
  rfl

/-- The call has changed the entries of its key in its bucket. -/
theorem performs_update (op : Op K V) (hT : Table mHasher bs) (hl : bs[i]? = some l)
    (hi : i = mHasher op.key % bs.length) (hk : Keyed l')
    (hm : ∀ x, x.1 ≠ op.key → (x ∈ l' ↔ x ∈ l))
    (hs : ∀ m : K → Option V, op.spec m = (none, Function.update m op.key (assoc l' op.key))) :
    Performs mHasher op i bs none (bs.set i l') := by
  subst hi
  obtain ⟨hT', hget⟩ := hT.update hl hk hm
  exact ⟨hT', List.length_set, fun j hj => List.getElem?_set_ne hj, by rw [hs, hget]⟩

theorem performs_append (hT : Table mHasher bs) (hl : bs[i]? = some l)
    (hi : i = mHasher key % bs.length) (hp : position l key = l.length) (val : V) :
    Performs mHasher (.addOrUpdate key val) i bs none (bs.set i (l ++ [(key, val)])) := by
  have hk := (hT.keyed i _ hl).snoc (v := val) (position_eq_length hp)
  refine performs_update (.addOrUpdate key val) hT hl hi hk (fun x hx => ?_) fun m => ?_
  · have hne : x ≠ (key, val) := fun e => hx (congrArg Prod.fst e)
    simp [hne]
  · rw [show assoc _ (Op.key _) = some val from (assoc_eq_some hk).2 (by simp [Op.key])]
    rfl

theorem performs_assign (hT : Table mHasher bs) (hl : bs[i]? = some l)
    (hi : i = mHasher key % bs.length) (hp : position l key ≠ l.length) (val : V) :
    Performs mHasher (.addOrUpdate key val) i bs none
      (bs.set i (l.modify (position l key) fun x => (x.1, val))) := by
  have hlt := lt_of_le_of_ne List.findIdx_le_length hp
  obtain ⟨hk, hm⟩ := (hT.keyed i _ hl).modify hlt val
  refine performs_update (.addOrUpdate key val) hT hl hi hk (fun x hx => ?_) fun m => ?_
  · have hne : x ≠ (key, val) := fun e => hx (congrArg Prod.fst e)
    rw [hm]
    exact ⟨fun h => (h.resolve_right hne).1, fun h => .inl ⟨h, hx⟩⟩
  · rw [show assoc _ (Op.key _) = some val from (assoc_eq_some hk).2 ((hm _).2 (.inr rfl))]
    rfl

theorem performs_remove (hT : Table mHasher bs) (hl : bs[i]? = some l)
    (hi : i = mHasher key % bs.length) (hp : position l key ≠ l.length) :
    Performs mHasher (.remove key) i bs none (bs.set i (l.eraseIdx (position l key))) := by
  have hlt := lt_of_le_of_ne List.findIdx_le_length hp
  obtain ⟨hk, hm⟩ := (hT.keyed i _ hl).eraseIdx hlt
  refine performs_update (.remove key) hT hl hi hk (fun x hx => ?_) fun m => ?_
  · rw [hm]
    exact and_iff_left hx
  · rw [show assoc _ (Op.key _) = none from ?_]
    · rfl
    · rw [Option.eq_none_iff_forall_ne_some]
      exact fun v hv => ((hm _).1 ((assoc_eq_some hk).1 hv)).2 rfl

theorem performs_removeAbsent (hT : Table mHasher bs) (hl : bs[i]? = some l)
    (hi : i = mHasher key % bs.length) (hp : position l key = l.length) :
    Performs mHasher (.remove key) i bs none bs := by
  refine ⟨hT, rfl, fun _ _ => rfl, ?_⟩
  have hget : Table.get mHasher bs key = none := by
    unfold Table.get assoc
    rw [← hi, List.getD_eq_getElem?_getD, hl, Option.getD_some, hp, List.getElem?_length,
      Option.map_none]
  show ((none : Option V), Function.update (Table.get mHasher bs) key none) = _
  rw [← hget, Function.update_eq_self]

omit [DecidableEq K] in
/-- One more pair is copied. -/
theorem copy_spec {bs new : List (List (K × V))} {n m : ℕ} {pair : K × V} (hT : Table mHasher bs)
    (hT' : Table mHasher new) (hlen : new.length = m) (hm : 0 < m)
    (hnew : ∀ x, x ∈ new.flatten ↔ x ∈ bs.flatten.take n) (hpair : bs.flatten[n]? = some pair) :
    Table mHasher (new.set (mHasher pair.1 % m) (new.getD (mHasher pair.1 % m) [] ++ [pair])) ∧
      ∀ x, x ∈ (new.set (mHasher pair.1 % m) (new.getD (mHasher pair.1 % m) [] ++ [pair])).flatten ↔
        x ∈ bs.flatten.take (n + 1) := by
  subst hlen
  obtain ⟨hlt, hget⟩ := List.getElem?_eq_some_iff.1 hpair
  have htake : bs.flatten.take (n + 1) = bs.flatten.take n ++ [pair] := by
    rw [List.take_succ_eq_append_getElem hlt, hget]
  have hkeyed : Keyed (bs.flatten.take (n + 1)) :=
    hT.flatten_keyed.sublist ((List.take_sublist _ _).map _)
  rw [htake, ← Prod.eta pair, Keyed.middle, List.append_nil] at hkeyed
  have hl : new[mHasher pair.1 % new.length]? =
      some (new.getD (mHasher pair.1 % new.length) []) := by
    rw [List.getD_eq_getElem?_getD, List.getElem?_eq_getElem (Nat.mod_lt _ hm), Option.getD_some]
  obtain ⟨h1, h2⟩ := hT'.append (v := pair.2) hl fun x hx => hkeyed.1 x ((hnew x).1 hx)
  refine ⟨h1, fun x => (h2 x).trans ?_⟩
  rw [htake, List.mem_append, List.mem_singleton, hnew]

end RefinableThreadSafeHashmap

end ConcurrencySandbox

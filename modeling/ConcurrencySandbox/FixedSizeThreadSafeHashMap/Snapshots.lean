import ConcurrencySandbox.Interleaving.Calls
import ConcurrencySandbox.FixedSizeThreadSafeHashMap.Locks

/-!
# Snapshots are atomic

A call on a bucket takes effect in its section, a snapshot when it has copied the last bucket: from
then on it holds every lock and its copy is what the buckets hold, so one order of all calls gives
each of them the result of a finite map.
-/

namespace ConcurrencySandbox

open Interleaving Structures

namespace FixedSizeThreadSafeHashMap

open RefinableThreadSafeHashmap (Op Performs performs_find performs_append performs_assign
  performs_remove performs_removeAbsent)

variable {τ K V : Type*}

inductive Call (K V : Type*)
  | op (op : Op K V)
  | getSnapShot

inductive Answer (K V : Type*)
  | value (ans : Option V)
  | map (ans : K → Option V)

section Places

variable [DecidableEq K]

/-- What a call returns on a finite map, and the map after it. -/
def spec : Call K V → (K → Option V) → Answer K V × (K → Option V)
  | .op op, m => (.value (op.spec m).1, (op.spec m).2)
  | .getSnapShot, m => (.map m, m)

/-- The step of a call in which it takes effect. -/
def commit (s : Shared τ K V) (p : PC K V) (act : Act K V) : List (Call K V × Answer K V) :=
  match p, act with
  | .apply (.find key) index it, .run =>
    [(.op (.find key), .value ((s.mBuckets.getD index [])[it]?.map Prod.snd))]
  | .apply op _ _, .run => [(.op op, .value none)]
  | .snapCopy bucket _ ans, .run =>
    if bucket < s.mBuckets.length then [] else [(.getSnapShot, .map (assoc ans))]
  | _, _ => []

/-- The return of a call. -/
def answer (p : PC K V) (act : Act K V) : List (Call K V × Answer K V) :=
  match p, act with
  | .done op ans, .run => [(.op op, .value ans)]
  | .snapDone ans, .run => [(.getSnapShot, .map (assoc ans))]
  | _, _ => []

/-- A call that has taken effect and not returned. -/
def pending : PC K V → List (Call K V × Answer K V)
  | .unlock op _ ans | .done op ans => [(.op op, .value ans)]
  | .snapUnlock _ ans | .snapDone ans => [(.getSnapShot, .map (assoc ans))]
  | _ => []

/-- What a thread knows of the buckets it has locked. -/
def Knows (mHasher : K → ℕ) (bs : List (List (K × V))) : PC K V → Prop
  | .search op index => index = mHasher op.key % bs.length
  | .apply op index it =>
    index = mHasher op.key % bs.length ∧ it = position (bs.getD index []) op.key
  | .snapCopy bucket it ans => bucket ≤ bs.length ∧ it ≤ (bs.getD bucket []).length ∧
    ans = (bs.take bucket).flatten ++ (bs.getD bucket []).take it
  | .snapUnlock _ ans | .snapDone ans => Keyed ans
  | _ => True

variable {mHasher : K → ℕ} {n i : ℕ} {s s' : Shared τ K V} {f : τ → PC K V} {t u : τ}
  {p p' q : PC K V} {bs bs' : List (List (K × V))}

/-- Others' buckets stay. -/
theorem Knows.frame (h : Knows mHasher bs q) (hlen : bs'.length = bs.length)
    (hb : ∀ i, Alone bs.length q i ∨ Sharing q i → bs'[i]? = bs[i]?) : Knows mHasher bs' q := by
  cases q with
  | search op index =>
    unfold Knows
    rwa [hlen]
  | apply op index it =>
    have hi : bs'[index]? = bs[index]? := hb index (by
      by_cases hf : IsFind op
      · exact .inr ⟨hf, rfl⟩
      · exact .inl ⟨hf, rfl⟩)
    refine ⟨hlen ▸ h.1, ?_⟩
    rw [List.getD_eq_getElem?_getD, hi, ← List.getD_eq_getElem?_getD]
    exact h.2
  | snapCopy bucket it ans =>
    have hbs : bs' = bs := List.ext_getElem? fun i => by
      rcases Nat.lt_or_ge i bs.length with hi | hi
      · exact hb i (.inl hi)
      · rw [List.getElem?_eq_none hi, List.getElem?_eq_none (hlen ▸ hi)]
    exact hbs ▸ h
  | _ => exact h

/-- The pairs of a bucket that a snapshot has not copied have new keys. -/
theorem insert_eq {l : List (K × V)} {pair : K × V} (h : Keyed (l ++ [pair])) :
    insert l pair = l ++ [pair] := by
  have hk : ∀ x ∈ l, x.1 ≠ pair.1 := by
    have h' : Keyed (l ++ (pair.1, pair.2) :: []) := h
    rw [Keyed.middle, List.append_nil] at h'
    exact h'.1
  refine if_pos (List.findIdx_eq_length.2 fun x hx => ?_)
  simpa using hk x hx

omit [DecidableEq K] in
theorem copy_keyed (hT : Table mHasher bs) (bucket it : ℕ) :
    Keyed ((bs.take bucket).flatten ++ (bs.getD bucket []).take it) := by
  refine hT.flatten_keyed.sublist (List.Sublist.map _ ?_)
  conv_rhs => rw [← List.take_append_drop bucket bs, List.flatten_append]
  refine List.Sublist.append (List.Sublist.refl _) ?_
  refine (List.take_sublist _ _).trans ?_
  rw [List.getD_eq_getElem?_getD]
  rcases Nat.lt_or_ge bucket bs.length with h | h
  · rw [List.getElem?_eq_getElem h, Option.getD_some, List.drop_eq_getElem_cons h,
      List.flatten_cons]
    exact List.sublist_append_left _ _
  · rw [List.getElem?_eq_none h]
    exact List.nil_sublist _

theorem assoc_flatten (hT : Table mHasher bs) : assoc bs.flatten = Table.get mHasher bs := by
  funext k
  ext v
  rw [assoc_eq_some hT.flatten_keyed, hT.get_eq_some]

variable {act : Act K V} {op : Op K V} {ans : Option V}

/-- What a step of thread `t` does to the map and to its own call. -/
structure Kept (mHasher : K → ℕ) (t : τ) (act : Act K V) (s s' : Shared τ K V) (p p' : PC K V) :
    Prop where
  table : Table mHasher s'.mBuckets
  length : s'.mBuckets.length = s.mBuckets.length
  other : ∀ i, s.writer i ≠ some t → s'.mBuckets[i]? = s.mBuckets[i]?
  own : Knows mHasher s'.mBuckets p'
  replays : ∀ h m, Replays spec m h (Table.get mHasher s.mBuckets) →
    Replays spec m (h ++ commit s p act) (Table.get mHasher s'.mBuckets)
  results : pending p ++ commit s p act = answer p act ++ pending p'

theorem Kept.stay (hT : Table mHasher s.mBuckets) (hb : s'.mBuckets = s.mBuckets)
    (hc : commit s p act = []) (hown : Knows mHasher s.mBuckets p')
    (hr : pending p = answer p act ++ pending p') : Kept mHasher t act s s' p p' where
  table := hb ▸ hT
  length := by rw [hb]
  other _ _ := by rw [hb]
  own := hb ▸ hown
  replays h m hm := by rwa [hc, List.append_nil, hb]
  results := by rwa [hc, List.append_nil]

/-- A call on a bucket takes effect. -/
theorem Kept.performs (h : Performs mHasher op i s.mBuckets ans s'.mBuckets)
    (hw : s'.mBuckets ≠ s.mBuckets → s.writer i = some t) {it : ℕ}
    (hc : commit s (.apply op i it) act = [(.op op, .value ans)])
    (ha : answer (.apply op i it) act = []) :
    Kept mHasher t act s s' (.apply op i it) (.unlock op i ans) where
  table := h.table
  length := h.length
  other j hj := by
    by_cases hb : s'.mBuckets = s.mBuckets
    · rw [hb]
    · exact h.other j fun hij => hj (hij ▸ hw hb)
  own := trivial
  replays l m hm := by
    have hsnoc := hm.snoc (.op op)
    have hs := h.spec
    simp only [spec, hs] at hsnoc
    rwa [hc]
  results := by rw [hc, ha]; rfl

/-- A snapshot takes effect when it has copied all buckets. -/
theorem Kept.snapShot (hT : Table mHasher s.mBuckets) {it : ℕ} {ans : List (K × V)}
    (hans : ans = s.mBuckets.flatten) {bucket : ℕ} (hge : ¬ bucket < s.mBuckets.length) :
    Kept mHasher t .run s s (.snapCopy bucket it ans) (.snapUnlock 0 ans) where
  table := hT
  length := rfl
  other _ _ := rfl
  own := hans ▸ hT.flatten_keyed
  replays l m hm := by
    have hsnoc := hm.snoc .getSnapShot
    have hc : commit s (.snapCopy bucket it ans) .run = [(.getSnapShot, .map (assoc ans))] :=
      if_neg hge
    rw [hc, hans, assoc_flatten hT]
    exact hsnoc
  results := by
    have hc : commit s (.snapCopy bucket it ans) .run = [(.getSnapShot, .map (assoc ans))] :=
      if_neg hge
    rw [hc]
    rfl

variable [DecidableEq τ]

theorem kept_call (hT : Table mHasher s.mBuckets) (hpos : 0 < s.mBuckets.length)
    (hL : Locks s.mBuckets.length s f) (hk : Knows mHasher s.mBuckets p) (hp : f t = p)
    (hn : nextCall mHasher t s p = some (s', p')) : Kept mHasher t .run s s' p p' := by
  have hget : ∀ h, s.mBuckets[h % s.mBuckets.length]? =
      some (s.mBuckets.getD (h % s.mBuckets.length) []) := fun h => by
    rw [List.getD_eq_getElem?_getD, List.getElem?_eq_getElem (Nat.mod_lt _ hpos), Option.getD_some]
  have hw : ∀ {op index it}, ¬ IsFind op → p = .apply op index it → s.writer index = some t :=
    fun hf he => (hL.writer _ t).2 (by rw [hp, he]; exact ⟨hf, rfl⟩)
  revert hn
  fun_cases nextCall mHasher t s p <;> intro hn <;> cases hn
  · exact .stay hT rfl rfl rfl rfl
  · exact .stay hT rfl rfl rfl rfl
  · exact .stay hT rfl rfl ⟨hk, rfl⟩ rfl
  · obtain ⟨rfl, rfl⟩ := hk
    exact .performs (performs_find hT rfl) (absurd rfl) rfl rfl
  · obtain ⟨rfl, h⟩ := hk
    exact .performs (performs_append hT (hget _) rfl h.symm _) (fun _ => hw id rfl) rfl rfl
  · rename_i hit
    obtain ⟨rfl, rfl⟩ := hk
    exact .performs (performs_assign hT (hget _) rfl hit _) (fun _ => hw id rfl) rfl rfl
  · obtain ⟨rfl, h⟩ := hk
    exact .performs (performs_removeAbsent hT (hget _) rfl h.symm) (absurd rfl) rfl rfl
  · rename_i hit
    obtain ⟨rfl, rfl⟩ := hk
    exact .performs (performs_remove hT (hget _) rfl hit) (fun _ => hw id rfl) rfl rfl
  all_goals exact .stay hT rfl rfl trivial rfl

theorem kept_snap (hT : Table mHasher s.mBuckets) (hk : Knows mHasher s.mBuckets p)
    (hn : nextSnap t s p = some (s', p')) : Kept mHasher t .run s s' p p' := by
  revert hn
  fun_cases nextSnap t s p <;> intro hn <;> cases hn
  · exact .stay hT rfl rfl trivial rfl
  · exact .stay hT rfl rfl (by simp [Knows]) rfl
  · rename_i bucket it ans hlt pair hpair
    obtain ⟨h1, h2, rfl⟩ := hk
    obtain ⟨h3, h4⟩ := List.getElem?_eq_some_iff.1 hpair
    have htake : (s.mBuckets.getD bucket []).take (it + 1) =
        (s.mBuckets.getD bucket []).take it ++ [pair] := by
      rw [List.take_succ_eq_append_getElem h3, h4]
    have hkeyed := copy_keyed hT bucket (it + 1)
    rw [htake, ← List.append_assoc] at hkeyed
    refine .stay hT rfl (if_pos hlt) ⟨h1, h3, ?_⟩ rfl
    rw [insert_eq hkeyed, htake, List.append_assoc]
  · rename_i bucket it ans hlt hnone
    obtain ⟨h1, h2, rfl⟩ := hk
    refine .stay hT rfl (if_pos hlt) ⟨hlt, Nat.zero_le _, ?_⟩ rfl
    rw [List.take_of_length_le (List.getElem?_eq_none_iff.1 hnone), List.take_zero, List.append_nil,
      List.take_succ_eq_append_getElem hlt, List.flatten_append, List.flatten_singleton,
      List.getD_eq_getElem?_getD, List.getElem?_eq_getElem hlt, Option.getD_some]
  · rename_i bucket it ans hge
    obtain ⟨h1, h2, rfl⟩ := hk
    have hnil : s.mBuckets.getD bucket [] = [] := by
      rw [List.getD_eq_getElem?_getD, List.getElem?_eq_none (Nat.not_lt.1 hge), Option.getD_none]
    refine .snapShot hT ?_ hge
    rw [hnil, List.take_nil, List.append_nil, List.take_of_length_le (Nat.not_lt.1 hge)]
  · exact .stay hT rfl rfl hk rfl
  · exact .stay hT rfl rfl hk rfl
  · exact .stay hT rfl rfl trivial rfl

theorem kept_step (hT : Table mHasher s.mBuckets) (hpos : 0 < s.mBuckets.length)
    (hL : Locks s.mBuckets.length s f) (hk : Knows mHasher s.mBuckets p) (hp : f t = p)
    (hn : next mHasher t act s p = some (s', p')) : Kept mHasher t act s s' p p' := by
  revert hn
  fun_cases next mHasher t act s p <;> intro hn
  · cases hn
    exact .stay hT rfl rfl trivial rfl
  · cases hn
    exact .stay hT rfl rfl trivial rfl
  · rcases Option.or_eq_some_iff.1 hn with hn | ⟨-, hn⟩
    · exact kept_call hT hpos hL hk hp hn
    · exact kept_snap hT hk hn
  · cases hn

omit [DecidableEq τ] in
/-- What another thread has locked is not what a step of `t` changes. -/
theorem Locks.kept (hL : Locks s.mBuckets.length s f) (h : Kept mHasher t act s s' p p')
    (hu : u ≠ t) (hk : Knows mHasher s.mBuckets (f u)) : Knows mHasher s'.mBuckets (f u) := by
  refine hk.frame h.length fun i hi => h.other i fun hw => ?_
  rcases hi with hi | hi
  · rw [(hL.writer i u).2 hi, Option.some.injEq] at hw
    exact hu hw
  · have hr := (hL.readers i u).2 hi
    rw [hL.apart i (by rw [hw]; exact Option.some_ne_none t)] at hr
    simp at hr

end Places

section Runs

variable [DecidableEq τ] [DecidableEq K] {mHasher : K → ℕ} {bucketSize k i : ℕ}
  (r : (system (τ := τ) (V := V) mHasher bucketSize).Run (fun _ _ => True) k)

/-- The calls in the order in which they take effect. -/
def history (i : ℕ) : List (τ × Call K V × Answer K V) :=
  r.log (fun c l => (commit c.shared (c.pc l.1) l.2).map (l.1, ·)) i

def returned (i : ℕ) : List (τ × Call K V × Answer K V) :=
  r.log (fun c l => (answer (c.pc l.1) l.2).map (l.1, ·)) i

/-- The calls have, in the order of `history`, the results of a finite map, those that have returned
have returned what `history` says, and no threads wait for each other. -/
structure Atomic (i : ℕ) : Prop where
  replays : Replays spec (fun _ => none) ((history r i).map Prod.snd)
    (Table.get mHasher (r.state i).shared.mBuckets)
  results : ∀ t, eventsOf t (history r i) = eventsOf t (returned r i) ++ pending ((r.state i).pc t)
  keyed : ∀ t ans, (r.state i).pc t = .snapDone ans → Keyed ans
  progress : ∀ S : Set τ, S.Nonempty →
    ¬ Deadlocked (fun t => wants mHasher bucketSize ((r.state i).pc t)) (holds (r.state i).shared) S

/-- It lasts for the whole run. -/
def Correct : Prop := ∀ i ≤ k, Atomic r i

variable {r}

theorem history_succ : history r (i + 1) = history r i ++
    (commit (r.state i).shared ((r.state i).pc (r.label i).1) (r.label i).2).map
      ((r.label i).1, ·) :=
  r.log_succ _ i

/-- What holds of the buckets and the locks all along a run. -/
structure Sound (mHasher : K → ℕ) (bucketSize : ℕ) (c : Conf τ (Shared τ K V) (PC K V)) : Prop where
  table : Table mHasher c.shared.mBuckets
  length : c.shared.mBuckets.length = bucketSize
  locks : Locks bucketSize c.shared c.pc
  knows : ∀ t, Knows mHasher c.shared.mBuckets (c.pc t)

omit [DecidableEq τ] in
theorem sound_init {c : Conf τ (Shared τ K V) (PC K V)} (hs : c.shared = initial bucketSize)
    (hp : c.pc = fun _ => .idle) : Sound mHasher bucketSize c := by
  obtain ⟨s, f⟩ := c
  subst hs hp
  refine ⟨Table.replicate mHasher bucketSize, List.length_replicate, ⟨?_, ?_, ?_⟩, fun _ => trivial⟩
  · simp [initial, Alone]
  · simp [initial, Sharing]
  · simp [initial]

theorem sound_step {c c' : Conf τ (Shared τ K V) (PC K V)} {t : τ} {act : Act K V}
    (hpos : 1 ≤ bucketSize) (h : Sound mHasher bucketSize c)
    (hs : (system mHasher bucketSize).step c (t, act) = some c') :
    Sound mHasher bucketSize c' ∧
      Kept mHasher t act c.shared c'.shared (c.pc t) (c'.pc t) := by
  obtain ⟨hT, rfl, hL, hk⟩ := h
  obtain ⟨s', p', hn, rfl⟩ := Program.step_eq_some.1 hs
  have hkept := kept_step hT hpos hL (hk t) rfl hn
  refine ⟨⟨hkept.table, hkept.length, locks_step hL rfl rfl hn,
    Program.forall_update (L := fun _ => Knows mHasher s'.mBuckets) hkept.own fun u hu =>
      hL.kept hkept hu (hk u)⟩, ?_⟩
  simpa using hkept

theorem sound_run (hpos : 1 ≤ bucketSize) (hi : i ≤ k) : Sound mHasher bucketSize (r.state i) ∧
    Replays spec (fun _ => none) ((history r i).map Prod.snd)
      (Table.get mHasher (r.state i).shared.mBuckets) := by
  induction i with
  | zero =>
    have h0 : Sound mHasher bucketSize (r.state 0) := sound_init r.init.1 r.init.2
    have hget : Table.get mHasher (r.state 0).shared.mBuckets = fun _ => none := by
      funext key
      rw [Option.eq_none_iff_forall_ne_some]
      intro v hv
      have hm := h0.table.get_eq_some.1 hv
      rw [r.init.1] at hm
      simp [initial] at hm
    rw [hget]
    exact ⟨h0, .nil⟩
  | succ i ih =>
    obtain ⟨hS, hh⟩ := ih (by omega)
    obtain ⟨hS', hk⟩ := sound_step hpos hS (r.step i hi)
    have hm := hk.replays _ _ hh
    refine ⟨hS', ?_⟩
    rw [history_succ, List.map_append, List.map_map]
    simpa [Function.comp_def] using hm

theorem results_run (hpos : 1 ≤ bucketSize) (hi : i ≤ k) (t : τ) :
    eventsOf t (history r i) = eventsOf t (returned r i) ++ pending ((r.state i).pc t) :=
  Program.eventsOf_log r rfl
    (fun i hi => (sound_step hpos (sound_run hpos hi.le).1 (r.step i hi)).2.results) hi t

end Runs

end FixedSizeThreadSafeHashMap

end ConcurrencySandbox

import ConcurrencySandbox.DeleteLists.Custody

/-!
# Garbage is bounded

A slot is counted before it is put to the list of slots, so a scan reads no more values than
`size()` says then or later. What a scan keeps in the local list has its address among these values,
and no two unreclaimed objects have the same address: so the scan leaves no more objects than it
read values, and `retire` returns either so or without a scan, with the local list below its
threshold.
-/

namespace ConcurrencySandbox

open Interleaving Structures

namespace DeleteLists

variable {τ N A P : Type*}

/-- What the callers promise: a retired object has an address of its own among the unreclaimed. -/
def FreshAddress (address : A → P) (c : Conf τ (Shared τ N A P) (PC τ N P)) (l : τ × Act N A P) :
    Prop :=
  ∀ data node, l.2 = .retire data node → ∀ n, c.shared.allocated n = true →
    address (c.shared.mData n) ≠ address data

/-- Inside `tryDeallocateLocalList`. -/
def Scanning : PC τ N P → Prop
  | .loadGlobal | .resetGlobal | .gather _ | .loadHead | .getPointers .. | .filter .. | .delete ..
  | .appendNext _ (.gather _) | .appendHead _ (.gather _)
  | .appendNext _ (.filter ..) | .appendHead _ (.filter ..) => True
  | _ => False

/-- The values the slots were read to have. -/
def pointers : PC τ N P → List (Option P)
  | .getPointers _ arr | .filter _ arr | .delete _ _ arr
  | .appendNext _ (.filter _ arr) | .appendHead _ (.filter _ arr) => arr
  | _ => []

/-- The thread has counted a slot that is not in the list of slots yet. -/
def Counts : PC τ N P → Prop
  | .appendOwner _ => True
  | _ => False

/-- What `mSize` counts besides the local list. -/
def pending : PC τ N P → ℕ
  | .appendHead .. => 1
  | _ => 0

/-- What a step makes of the local list of its thread. -/
def localAfter (l : List N) : PC τ N P → List N
  | .appendHead node _ => node :: l
  | .getPointers [] _ => []
  | _ => l

/-- What is known of the local list `l` of a thread. -/
def Bound (address : A → P) (l : List N) (s : Shared τ N A P) : PC τ N P → Prop
  | .ready | .owner _ | .appendOwner _ => l.length ≤ 2 * s.hazardPointerSize
  | .getPointers rest arr => arr.length + rest.length ≤ s.hazardPointerSize
  | .filter _ arr | .delete _ _ arr =>
    arr.length ≤ s.hazardPointerSize ∧ ∀ n ∈ l, some (address (s.mData n)) ∈ arr
  | .appendNext node (.filter _ arr) | .appendHead node (.filter _ arr) =>
    arr.length ≤ s.hazardPointerSize ∧ ∀ n ∈ node :: l, some (address (s.mData n)) ∈ arr
  | _ => True

/-- The threads in `w` are those that have counted a slot and not appended it. -/
structure Garbage (address : A → P) (c : Place τ → List N) (w : List τ) (s : Shared τ N A P)
    (f : τ → PC τ N P) : Prop where
  inj : ∀ p q, ∀ n ∈ c p, ∀ m ∈ c q, address (s.mData n) = address (s.mData m) → n = m
  nodup : w.Nodup
  counts : ∀ t, t ∈ w ↔ Counts (f t)
  slots : s.hazardPointerList.length + w.length = s.hazardPointerSize
  size : ∀ t, left (f t) = false → s.mSize t = (c (.localList t)).length + pending (f t)
  bound : ∀ t, Bound address (c (.localList t)) s (f t)

variable {address : A → P} {s s' : Shared τ N A P} {f : τ → PC τ N P} {t u : τ} {p p' : PC τ N P}
  {c c' : Place τ → List N} {l : List N} {w : List τ} {slotNum : ℕ} {ok : Bool} {act : Act N A P}

theorem Bound.mono (h : Bound address l s p) (hs : s.hazardPointerSize ≤ s'.hazardPointerSize)
    (hd : ∀ n ∈ l, s'.mData n = s.mData n)
    (hn : ∀ n after, p = .appendNext n after ∨ p = .appendHead n after → s'.mData n = s.mData n) :
    Bound address l s' p := by
  have hall : ∀ {arr : List (Option P)} {m : List N}, (∀ n ∈ m, s'.mData n = s.mData n) →
      (arr.length ≤ s.hazardPointerSize ∧ ∀ n ∈ m, some (address (s.mData n)) ∈ arr) →
      arr.length ≤ s'.hazardPointerSize ∧ ∀ n ∈ m, some (address (s'.mData n)) ∈ arr := by
    intro arr m hm ⟨h1, h2⟩
    exact ⟨h1.trans hs, fun n hn => hm n hn ▸ h2 n hn⟩
  unfold Bound at h ⊢
  split at h
  · exact h.trans (Nat.mul_le_mul_left 2 hs)
  · exact h.trans (Nat.mul_le_mul_left 2 hs)
  · exact h.trans (Nat.mul_le_mul_left 2 hs)
  · exact h.trans hs
  · exact hall hd h
  · exact hall hd h
  · refine hall (fun n hm => ?_) h
    rcases List.mem_cons.1 hm with rfl | hm
    · exact hn _ _ (.inl rfl)
    · exact hd n hm
  · refine hall (fun n hm => ?_) h
    rcases List.mem_cons.1 hm with rfl | hm
    · exact hn _ _ (.inr rfl)
    · exact hd n hm
  · trivial

section Steps

variable [DecidableEq τ] [DecidableEq N] [DecidableEq P]

/-- What a step of `t` leaves of the links of the local lists and of the other threads' lists. -/
def Frames (c : Place τ → List N) (t : τ) (s s' : Shared τ N A P) : Prop :=
  (∀ u, ∀ n ∈ c (.localList u), s'.mNext n = s.mNext n) ∧
    ∀ u, u ≠ t → s'.localHead u = s.localHead u ∧ s'.mSize u = s.mSize u

omit [DecidableEq τ] [DecidableEq N] [DecidableEq P] in
theorem Frames.of_same (hnext : s'.mNext = s.mNext)
    (hother : ∀ u, u ≠ t → s'.localHead u = s.localHead u ∧ s'.mSize u = s.mSize u) :
    Frames c t s s' := ⟨fun _ _ _ => by rw [hnext], hother⟩

omit [DecidableEq τ] [DecidableEq P] in
theorem Frames.of_link {n : N} {v : Option N} (h : Custody c)
    (hn : n ∈ c (.chain t) ∨ n ∈ c (.fresh t)) (hnext : s'.mNext = Function.update s.mNext n v)
    (hother : ∀ u, u ≠ t → s'.localHead u = s.localHead u ∧ s'.mSize u = s.mSize u) :
    Frames c t s s' := by
  refine ⟨fun u m hm => ?_, hother⟩
  rw [hnext]
  refine Function.update_of_ne ?_ _ _
  rintro rfl
  rcases hn with hn | hn
  · exact absurd (h.eq hm hn) nofun
  · exact absurd (h.eq hm hn) nofun

omit [DecidableEq τ] [DecidableEq N] [DecidableEq P] in
theorem Works.last_mem {last : N} {o : Bool} (hw : Works s t l p)
    (hp : p = .exitLoad last o ∨ p = .exitCas last o) : last ∈ l := by
  rcases hp with rfl | rfl
  · obtain ⟨rest, rfl, -⟩ := hw
    simp
  · obtain ⟨rest, rfl, -⟩ := hw
    simp

/-- A step writes the links of its own nodes only, and the head and the size of its own list. -/
theorem nextRun_frames (h : Inv c s f) (hp : f t = p)
    (hn : nextRun slotNum address t ok s p = some (s', p')) : Frames c t s s' := by
  have hworks : Works s t (c (.chain t)) (f t) := h.chain (.chain t)
  rw [hp] at hworks
  revert hn
  fun_cases nextRun slotNum address t ok s p <;> intro hn <;> cases hn
  all_goals try exact .of_same rfl fun u hu => ⟨rfl, rfl⟩
  · exact .of_link h.custody (h.node_mem (.inl hp)) rfl fun u hu =>
      ⟨rfl, Function.update_of_ne hu _ _⟩
  · exact .of_same rfl fun u hu => ⟨Function.update_of_ne hu _ _, rfl⟩
  · exact .of_same rfl fun u hu => ⟨Function.update_of_ne hu _ _, Function.update_of_ne hu _ _⟩
  · exact .of_link h.custody (.inl (hworks.last_mem (.inl rfl))) rfl fun u hu => ⟨rfl, rfl⟩
  · exact .of_link h.custody (.inl (hworks.last_mem (.inr rfl))) rfl fun u hu => ⟨rfl, rfl⟩

theorem next_frames (h : Inv c s f) (hp : f t = p)
    (hn : next slotNum address t act s p = some (s', p')) : Frames c t s s' := by
  revert hn
  fun_cases next slotNum address t act s p <;> intro hn
  case case9 => exact nextRun_frames h hp hn
  all_goals cases hn
  case case6 data node hfree =>
    refine ⟨fun u n hm => Function.update_of_ne ?_ _ _, fun u hu => ⟨rfl, rfl⟩⟩
    rintro rfl
    exact hfree (h.live _ _ hm)
  all_goals exact .of_same rfl fun u hu => ⟨rfl, rfl⟩

/-- The local list of the thread that moves, and `mSize`. -/
theorem nextRun_local (h : Inv c s f) (hI : Inv c' s' (Function.update f t p')) (hp : f t = p)
    (hfr : Frames c t s s') (hn : nextRun slotNum address t ok s p = some (s', p'))
    (hl : left p' = false)
    (hs : left p = false → s.mSize t = (c (.localList t)).length + pending p) :
    left p = false ∧ c' (.localList t) = localAfter (c (.localList t)) p ∧
      s'.mSize t = (c' (.localList t)).length + pending p' := by
  have hafter : Seg s'.mNext (s'.localHead t) (c' (.localList t)) none :=
    hI.localList (Function.update_self ..) hl
  have hsame : ∀ (hleft : left p = false), s'.localHead t = s.localHead t →
      c' (.localList t) = c (.localList t) := fun hleft hhead => by
    rw [hhead] at hafter
    exact hafter.unique ((h.localList hp hleft).congr (hfr.1 t))
  have hlinked := h.linked t
  rw [hp] at hlinked
  revert hn
  fun_cases nextRun slotNum address t ok s p <;> intro hn <;> cases hn
  all_goals try cases hl
  -- steps that leave the list and its size
  all_goals try
    have he := hsame rfl rfl
    refine ⟨rfl, he, ?_⟩
    rw [he]
    exact hs rfl
  · have he := hsame rfl rfl
    refine ⟨rfl, he, ?_⟩
    rw [he]
    exact (Function.update_self ..).trans (congrArg (· + 1) (hs rfl))
  · rename_i node after
    have he : c' (.localList t) = node :: c (.localList t) := by
      simp only [Shared.setHead, Function.update_self] at hafter
      obtain ⟨rest, hrest, hseg⟩ := hafter.eq_cons
      rw [show s.mNext node = s.localHead t from hlinked] at hseg
      rw [hrest, hseg.unique ((h.localList hp rfl).congr (hfr.1 t))]
    refine ⟨rfl, he, ?_⟩
    rw [he, show pending after.pc = 0 by cases after <;> rfl]
    exact hs rfl
  · have he : c' (.localList t) = [] := by
      simp only [Shared.setHead, Shared.setSize, Function.update_self] at hafter
      exact hafter.eq_nil
    refine ⟨rfl, he, ?_⟩
    rw [he]
    exact Function.update_self ..
  · rename_i listLeft
    cases listLeft
    · cases hl
    · have he := hsame rfl rfl
      refine ⟨rfl, he, ?_⟩
      rw [he]
      exact hs rfl
  · rename_i listLeft
    cases listLeft
    · cases hl
    · have he := hsame rfl rfl
      refine ⟨rfl, he, ?_⟩
      rw [he]
      exact hs rfl
  · rename_i o hnone
    cases o <;> cases hl
  · rename_i o hcas
    cases o <;> cases hl

theorem next_local (h : Inv c s f) (hI : Inv c' s' (Function.update f t p')) (hp : f t = p)
    (hn : next slotNum address t act s p = some (s', p')) (hl : left p' = false)
    (hs : left p = false → s.mSize t = (c (.localList t)).length + pending p) :
    left p = false ∧ c' (.localList t) = localAfter (c (.localList t)) p ∧
      s'.mSize t = (c' (.localList t)).length + pending p' := by
  have hfr := next_frames h hp hn
  have hafter : Seg s'.mNext (s'.localHead t) (c' (.localList t)) none :=
    hI.localList (Function.update_self ..) hl
  revert hn
  fun_cases next slotNum address t act s p <;> intro hn
  case case9 => exact nextRun_local h hI hp hfr hn hl hs
  all_goals cases hn
  all_goals
    have he : c' (.localList t) = c (.localList t) :=
      hafter.unique ((h.localList hp rfl).congr (hfr.1 t))
    refine ⟨rfl, he, ?_⟩
    rw [he]
  case case8 listFirst => cases listFirst <;> exact hs rfl
  all_goals exact hs rfl

omit [DecidableEq N] [DecidableEq P] in
/-- Another thread's local list, when `t` moves. -/
theorem local_other (h : Inv c s f) (hI : Inv c' s' (Function.update f t p'))
    (hfr : Frames c t s s')
    (hu : u ≠ t) (hl : left (f u) = false) : c' (.localList u) = c (.localList u) := by
  have hafter : Seg s'.mNext (s'.localHead u) (c' (.localList u)) none :=
    hI.localList (Function.update_of_ne hu _ _) hl
  rw [(hfr.2 u hu).1] at hafter
  exact hafter.unique ((h.localList rfl hl).congr (hfr.1 u))

/-- The slots that are counted, appended or both. -/
theorem next_slots (hnd : w.Nodup) (hw : ∀ u, u ∈ w ↔ Counts (f u)) (hp : f t = p)
    (hs : s.hazardPointerList.length + w.length = s.hazardPointerSize)
    (hn : next slotNum address t act s p = some (s', p')) :
    s.hazardPointerSize ≤ s'.hazardPointerSize ∧ ∃ w' : List τ, w'.Nodup ∧
      (∀ u, u ∈ w' ↔ Counts (Function.update f t p' u)) ∧
      s'.hazardPointerList.length + w'.length = s'.hazardPointerSize := by
  have ht : t ∈ w ↔ Counts p := hp ▸ hw t
  -- the thread goes on counting as it did
  have hstay : s'.hazardPointerList = s.hazardPointerList →
    s'.hazardPointerSize = s.hazardPointerSize →
      (Counts p' ↔ Counts p) → s.hazardPointerSize ≤ s'.hazardPointerSize ∧
      ∃ w' : List τ, w'.Nodup ∧
      (∀ u, u ∈ w' ↔ Counts (Function.update f t p' u)) ∧
      s'.hazardPointerList.length + w'.length = s'.hazardPointerSize := by
    intro h1 h2 h3
    refine ⟨h2.ge, w, hnd, Program.forall_update (L := fun u p => u ∈ w ↔ Counts p)
      (ht.trans h3.symm)
      fun u _ => hw u, ?_⟩
    rw [h1, h2]
    exact hs
  revert hn
  fun_cases next slotNum address t act s p <;> intro hn
  case case9 =>
    revert hn
    fun_cases nextRun slotNum address t _ s p <;> intro hn <;> cases hn
    all_goals try exact hstay rfl rfl Iff.rfl
    · refine ⟨Nat.le_succ _, t :: w, List.nodup_cons.2 ⟨fun h => ht.1 h, hnd⟩, ?_, ?_⟩
      · refine Program.forall_update (L := fun u p => u ∈ t :: w ↔ Counts p) ?_ fun u hu => ?_
        · exact ⟨fun _ => trivial, fun _ => List.mem_cons_self⟩
        · rw [List.mem_cons, or_iff_right hu]
          exact hw u
      · show s.hazardPointerList.length + (w.length + 1) = s.hazardPointerSize + 1
        omega
    · have hmem : t ∈ w := ht.2 trivial
      refine ⟨le_rfl, w.erase t, hnd.erase t, ?_, ?_⟩
      · refine Program.forall_update (L := fun u p => u ∈ w.erase t ↔ Counts p) ?_ fun u hu => ?_
        · exact ⟨fun h => absurd h hnd.not_mem_erase, False.elim⟩
        · rw [List.mem_erase_of_ne hu]
          exact hw u
      · have hpos := List.length_pos_of_mem hmem
        show s.hazardPointerList.length + 1 + (w.erase t).length = s.hazardPointerSize
        rw [List.length_erase_of_mem hmem]
        omega
    · rename_i node after
      exact hstay rfl rfl (by cases after <;> exact Iff.rfl)
    · rename_i listLeft
      exact hstay rfl rfl (by cases listLeft <;> exact Iff.rfl)
    · rename_i o hnone
      exact hstay rfl rfl (by cases o <;> exact Iff.rfl)
    · rename_i last o hcas
      exact hstay rfl rfl (by cases o <;> exact Iff.rfl)
  all_goals cases hn
  case case8 listFirst => exact hstay rfl rfl (by cases listFirst <;> exact Iff.rfl)
  all_goals exact hstay rfl rfl Iff.rfl

omit [DecidableEq τ] [DecidableEq N] [DecidableEq P] in
/-- No more objects than values, if their addresses are among the values. -/
theorem Garbage.length_le (hG : Garbage address c w s f) (hc : Custody c) {arr : List (Option P)}
    {q : Place τ} (hall : ∀ n ∈ c q, some (address (s.mData n)) ∈ arr) :
    (c q).length ≤ arr.length := by
  have hnd : ((c q).map fun n => some (address (s.mData n))).Nodup := by
    refine (hc.nodup q).map_on fun n hn m hm he => ?_
    exact hG.inj q q n hn m hm (Option.some.inj he)
  have hsub : ((c q).map fun n => some (address (s.mData n))) ⊆ arr := fun v hv => by
    obtain ⟨n, hn, rfl⟩ := List.mem_map.1 hv
    exact hall n hn
  simpa using (List.subperm_of_subset hnd hsub).length_le

theorem nextRun_bound (hG : Garbage address c w s f) (hc : Custody c) (hp : f t = p)
    (hl : left p' = false → left p = false ∧ c' (.localList t) = localAfter (c (.localList t)) p)
    (hn : nextRun slotNum address t ok s p = some (s', p')) :
    Bound address (c' (.localList t)) s' p' := by
  have hb := hG.bound t
  have hsize := hG.size t
  rw [hp] at hb hsize
  revert hn
  fun_cases nextRun slotNum address t ok s p <;> intro hn <;> cases hn
  all_goals try exact trivial
  · rw [(hl rfl).2]
    exact Nat.le_trans hb (Nat.mul_le_mul_left 2 (Nat.le_succ _))
  · rw [(hl rfl).2]
    exact hb
  · rw [(hl rfl).2]
    exact hb
  · rw [(hl rfl).2]
    exact hb
  · rename_i node after
    rw [(hl rfl).2]
    cases after with
    | retire => trivial
    | gather next => trivial
    | filter next arr => exact hb
  · rename_i node after
    cases after with
    | retire => trivial
    | gather next => trivial
    | filter next arr =>
      rw [(hl rfl).2]
      exact hb
  · rename_i hle
    obtain ⟨h0, he⟩ := hl rfl
    rw [he]
    exact (hsize h0).symm.trans_le (Nat.le_of_not_lt hle)
  · exact (Nat.zero_add _).trans_le ((Nat.le_add_right _ _).trans hG.slots.le)
  · have hb' : _ + (_ + 1) ≤ _ := hb
    show (_ ++ [_]).length + _ ≤ _
    rw [List.length_append, List.length_singleton]
    omega
  · rw [(hl rfl).2]
    exact ⟨hb, fun n hn => absurd hn List.not_mem_nil⟩
  · rename_i hmem
    rw [(hl rfl).2]
    exact ⟨hb.1, List.forall_mem_cons.2 ⟨hmem, hb.2⟩⟩
  · rw [(hl rfl).2]
    exact hb
  · rw [(hl rfl).2]
    have hlen := hG.length_le hc hb.2
    have hsz := hb.1
    show _ ≤ 2 * s.hazardPointerSize
    simp only [localAfter]
    omega
  · rw [(hl rfl).2]
    exact hb
  · rename_i listLeft
    cases listLeft <;> trivial
  · rename_i o hnone
    cases o <;> trivial
  · rename_i last o hcas
    cases o <;> trivial

theorem next_bound (hG : Garbage address c w s f) (hc : Custody c) (hp : f t = p)
    (hl : left p' = false → left p = false ∧ c' (.localList t) = localAfter (c (.localList t)) p)
    (hn : next slotNum address t act s p = some (s', p')) :
    Bound address (c' (.localList t)) s' p' := by
  have hb := hG.bound t
  rw [hp] at hb
  revert hn
  fun_cases next slotNum address t act s p <;> intro hn
  case case9 => exact nextRun_bound hG hc hp hl hn
  all_goals cases hn
  case case8 listFirst => cases listFirst <;> trivial
  all_goals try exact trivial
  all_goals
    rw [(hl rfl).2]
    exact hb

omit [DecidableEq τ] [DecidableEq N] [DecidableEq P] in
/-- A kept node holds its object for good. -/
theorem Event.Effect.same {kept settled kept' settled' : N → Prop} {mData mData' : N → A}
    {e : Event N A} (he : e.Effect kept settled kept' settled' mData mData') {n : N} (hn : kept n) :
    mData' n = mData n := by
  cases e with
  | skip => rw [he.2.2]
  | make node data => exact he.2.2.2.2 n fun h => he.1 (h ▸ hn)
  | link node => rw [he.2.2.2]
  | delete node => rw [he.2.2.2]

omit [DecidableEq τ] [DecidableEq N] [DecidableEq P] in
/-- Addresses stay different when only objects with new ones come in. -/
theorem Event.Effect.inj {kept settled kept' settled' : N → Prop} {mData mData' : N → A}
    {e : Event N A} (he : e.Effect kept settled kept' settled' mData mData')
    (hinj : ∀ n m, kept n → kept m → address (mData n) = address (mData m) → n = m)
    (hnew : ∀ node data, e = .make node data → ∀ n, kept n → address (mData n) ≠ address data)
    {n m : N} (hn : kept' n) (hm : kept' m) (heq : address (mData' n) = address (mData' m)) :
    n = m := by
  have hsame := fun {n} (hn : kept n) => he.same hn
  cases e with
  | skip =>
    rw [he.1] at hn hm
    rw [hsame hn, hsame hm] at heq
    exact hinj n m hn hm heq
  | make node data =>
    obtain ⟨-, h2, -, h4, -⟩ := he
    have hdata := hnew node data rfl
    rcases (h2 n).1 hn with rfl | hn <;> rcases (h2 m).1 hm with rfl | hm
    · rfl
    · rw [h4, hsame hm] at heq
      exact absurd heq.symm (hdata m hm)
    · rw [h4, hsame hn] at heq
      exact absurd heq (hdata n hn)
    · rw [hsame hn, hsame hm] at heq
      exact hinj n m hn hm heq
  | link node =>
    rw [he.2.1] at hn hm
    rw [hsame hn, hsame hm] at heq
    exact hinj n m hn hm heq
  | delete node =>
    rw [he.2.1] at hn hm
    rw [hsame hn.1, hsame hm.1] at heq
    exact hinj n m hn.1 hm.1 heq

omit [DecidableEq τ] [DecidableEq N] [DecidableEq P] in
theorem event_make {node : N} {data : A} (h : event p act = .make node data) :
    act = .retire data node := by
  unfold event at h
  split at h <;> cases h
  rfl

theorem garbage_step (h : Inv c s f) (hG : Garbage address c w s f) (hp : f t = p)
    (hC : FreshAddress address ⟨s, f⟩ (t, act))
    (hn : next slotNum address t act s p = some (s', p')) :
    ∃ c' w', Inv c' s' (Function.update f t p') ∧
      Garbage address c' w' s' (Function.update f t p') := by
  obtain ⟨c', hI, he⟩ := inv_step h hp hn
  have hfr := next_frames h hp hn
  obtain ⟨hmono, w', hnd, hcounts, hslots⟩ := next_slots hG.nodup hG.counts hp hG.slots hn
  have hlocal := fun hl => next_local h hI hp hn hl fun hl' => hp ▸ hG.size t (hp ▸ hl')
  refine ⟨c', w', hI, fun q r n hq m hr => ?_, hnd, hcounts, hslots, ?_, ?_⟩
  · refine he.inj ?_ (fun node data hmake n hk => ?_) ⟨q, trivial, hq⟩ ⟨r, trivial, hr⟩
    · rintro n m ⟨q, -, hq⟩ ⟨r, -, hr⟩
      exact hG.inj q r n hq m hr
    · obtain ⟨q, -, hq⟩ := hk
      exact hC data node (event_make hmake) n (h.live q n hq)
  · refine Program.forall_update (L := fun u p => left p = false →
      s'.mSize u = (c' (.localList u)).length + pending p) (fun hl => (hlocal hl).2.2)
      fun u hu hl => ?_
    rw [local_other h hI hfr hu hl, (hfr.2 u hu).2]
    exact hG.size u hl
  · refine Program.forall_update (L := fun u p => Bound address (c' (.localList u)) s' p)
      (next_bound hG h.custody hp (fun hl => ⟨(hlocal hl).1, (hlocal hl).2.1⟩) hn) fun u hu => ?_
    cases hl : left (f u) with
    | true =>
      revert hl
      cases f u <;> intro hl <;> trivial
    | false =>
      rw [local_other h hI hfr hu hl]
      refine (hG.bound u).mono hmono (fun n hm => he.same ⟨_, trivial, hm⟩) fun n after ha => ?_
      rcases h.node_mem ha with hm | hm
      · exact he.same ⟨_, trivial, hm⟩
      · exact he.same ⟨_, trivial, hm⟩

theorem garbage_reach {cf : Conf τ (Shared τ N A P) (PC τ N P)}
    (h : (system slotNum address).Reach (FreshAddress address) cf) :
    ∃ c w, Inv c cf.shared cf.pc ∧ Garbage address c w cf.shared cf.pc := by
  refine System.Reach.induct (P := fun cf => ∃ c w, Inv c cf.shared cf.pc ∧
    Garbage address c w cf.shared cf.pc) ?_ ?_ h
  · rintro ⟨s, f⟩ ⟨hs, hf⟩
    subst hf
    refine ⟨_, [], inv_initial hs rfl, nofun, List.nodup_nil, fun t => ?_, ?_,
      fun t _ => ?_, fun t => ?_⟩
    · exact ⟨nofun, nofun⟩
    · rw [hs.hazardPointerList, hs.hazardPointerSize]
      rfl
    · rw [hs.mSize]
      rfl
    · exact Nat.zero_le _
  · rintro ⟨s, f⟩ ⟨t, act⟩ cf' - ⟨c, w, hI, hG⟩ hC hst
    obtain ⟨s', p', hn, rfl⟩ := Program.step_eq_some.1 hst
    exact garbage_step hI hG rfl hC hn

end Steps

section Runs

variable [DecidableEq τ] [DecidableEq N] [DecidableEq P] {k i : ℕ}
  (r : (system (τ := τ) (N := N) slotNum address).Run (FreshAddress address) k)

/-- In a scan of `t` that lasts until state `i`, a slot was read to hold `v`. -/
def ReadInScan (t : τ) (i : ℕ) (v : Option P) : Prop :=
  ∃ j < i, (r.label j).1 = t ∧ (∀ m, j ≤ m → m ≤ i → Scanning ((r.state m).pc t)) ∧
    ∃ slot rest arr, (r.state j).pc t = .getPointers (slot :: rest) arr ∧
      (r.state j).shared.mPointer slot = v

variable {r}

omit r in
/-- A value comes to the others when its slot is read. -/
theorem next_pointers (hn : next slotNum address t act s p = some (s', p')) {v : Option P}
    (hv : v ∈ pointers p') : Scanning p' ∧ (v ∈ pointers p ∨
      ∃ slot rest arr, p = .getPointers (slot :: rest) arr ∧ s.mPointer slot = v) := by
  revert hn
  fun_cases next slotNum address t act s p <;> intro hn
  case case9 =>
    revert hn
    fun_cases nextRun slotNum address t _ s p <;> intro hn <;> cases hn
    all_goals try exact absurd hv List.not_mem_nil
    all_goals try exact ⟨trivial, .inl hv⟩
    · rename_i node after
      cases after <;> first | exact absurd hv List.not_mem_nil | exact ⟨trivial, .inl hv⟩
    · rename_i node after
      cases after <;> first | exact absurd hv List.not_mem_nil | exact ⟨trivial, .inl hv⟩
    · rename_i slot rest arr
      refine ⟨trivial, ?_⟩
      rcases List.mem_append.1 hv with hv | hv
      · exact .inl hv
      · exact .inr ⟨slot, rest, arr, rfl, (List.mem_singleton.1 hv).symm⟩
    · rename_i listLeft
      cases listLeft <;> exact absurd hv List.not_mem_nil
    · rename_i o hnone
      cases o <;> exact absurd hv List.not_mem_nil
    · rename_i last o hcas
      cases o <;> exact absurd hv List.not_mem_nil
  all_goals cases hn
  case case8 listFirst => cases listFirst <;> exact absurd hv List.not_mem_nil
  all_goals exact absurd hv List.not_mem_nil

omit r in
/-- A scan returns when it is through with the list. -/
theorem scan_return (hn : next slotNum address t act s p = some (s', .ready)) (hp : Scanning p) :
    s' = s ∧ ∃ arr, p = .filter none arr := by
  generalize hq : (PC.ready : PC τ N P) = q at hn
  revert hn hq hp
  fun_cases next slotNum address t act s p <;> intro hp hq hn
  case case9 =>
    revert hn hp
    fun_cases nextRun slotNum address t _ s p <;> intro hp hn <;> cases hn
    all_goals try cases hp
    all_goals try cases hq
    · rename_i node after
      cases after <;> cases hq
    · exact ⟨rfl, _, rfl⟩
  all_goals cases hn
  all_goals cases hp

theorem read_in_scan (t : τ) : ∀ i ≤ k, ∀ v ∈ pointers ((r.state i).pc t), ReadInScan r t i v := by
  intro i
  induction i with
  | zero =>
    intro _ v hv
    rw [r.init.2] at hv
    cases hv
  | succ i ih =>
    intro hi v hv
    obtain ⟨hnext, hother⟩ := Program.run_step r hi
    have hextend : v ∈ pointers ((r.state i).pc t) → Scanning ((r.state (i + 1)).pc t) →
        ReadInScan r t (i + 1) v := by
      intro hv' hscan
      obtain ⟨j, hj, h1, h2, h3⟩ := ih (by omega) v hv'
      refine ⟨j, by omega, h1, fun m hm hmi => ?_, h3⟩
      rcases Nat.lt_or_ge i m with h | h
      · exact (show m = i + 1 by omega) ▸ hscan
      · exact h2 m hm h
    by_cases ht : t = (r.label i).1
    · subst ht
      obtain ⟨hscan, hv' | ⟨slot, rest, arr, hp, hread⟩⟩ := next_pointers hnext hv
      · exact hextend hv' hscan
      · refine ⟨i, by omega, rfl, fun m hm hmi => ?_, slot, rest, arr, hp, hread⟩
        rcases Nat.lt_or_ge i m with h | h
        · exact (show m = i + 1 by omega) ▸ hscan
        · obtain rfl : m = i := by omega
          rw [hp]
          trivial
    · rw [hother t ht] at hv
      refine hextend hv ?_
      rw [hother t ht]
      obtain ⟨j, hj, h1, h2, h3⟩ := ih (by omega) v hv
      exact h2 i (by omega) le_rfl

/-- Whenever a call in the domain returns, the local list has at most `2 * size()` objects; and if
it was `tryDeallocateLocalList`, each of them has an address that the call read from a slot. -/
theorem garbage_bounded (t : τ) : ∀ i < k, (r.label i).1 = t → (r.state (i + 1)).pc t = .ready →
    ∃ l : List N,
      Seg (r.state (i + 1)).shared.mNext ((r.state (i + 1)).shared.localHead t) l none ∧
      l.length = (r.state (i + 1)).shared.mSize t ∧
      l.length ≤ 2 * (r.state (i + 1)).shared.hazardPointerSize ∧
      (Scanning ((r.state i).pc t) → ∀ n ∈ l,
        ReadInScan r t i (some (address ((r.state (i + 1)).shared.mData n)))) := by
  intro i hi ht hready
  subst ht
  obtain ⟨hn, -⟩ := Program.run_step r hi
  obtain ⟨c, w, hI, hG⟩ := garbage_reach (r.reach hi.le)
  obtain ⟨s', p', hnext, hstate⟩ := Program.step_eq_some.1 (r.step i hi)
  obtain ⟨c', w', hI', hG'⟩ := garbage_step hI hG rfl (r.meets i hi) hnext
  rw [hstate] at hready ⊢
  simp only [Function.update_self] at hready
  subst hready
  refine ⟨c' (.localList _), hI'.localList (Function.update_self ..) rfl, ?_, ?_,
    fun hscan n hm => ?_⟩
  · have hsize := hG'.size (r.label i).1
    rw [Function.update_self] at hsize
    exact (hsize rfl).symm
  · have hbound := hG'.bound (r.label i).1
    rw [Function.update_self] at hbound
    exact hbound
  · obtain ⟨rfl, arr, hp⟩ := scan_return hnext hscan
    have hbound := hG.bound (r.label i).1
    have hl := next_local hI hI' hp (hp ▸ hnext) rfl fun hl => hp ▸ hG.size _ (hp ▸ hl)
    rw [hl.2.1] at hm
    rw [hp] at hbound
    exact read_in_scan _ i hi.le _ (by rw [hp]; exact hbound.2 n hm)

end Runs

/-- Nothing is retired while the only object is not reclaimed. -/
def retiresNew (c : Conf Unit (Shared Unit Unit ℕ ℕ) (PC Unit Unit ℕ)) (l : Unit × Act Unit ℕ ℕ) :
    Bool :=
  match l.2 with
  | .retire _ _ => !c.shared.allocated ()
  | _ => true

/-- A thread that claims an object and retires it keeps it, with the next scan as well. -/
theorem garbage_bounded_claimed : ∃ (k : ℕ) (r : (system (τ := Unit) (N := Unit) 1 (id : ℕ → ℕ)).Run
    (FreshAddress id) (k + 1)), (r.state (k + 1)).shared.localHead () = some () ∧
      (r.state (k + 1)).shared.mSize () ≤ 2 * (r.state (k + 1)).shared.hazardPointerSize ∧
      ReadInScan r () k (some ((r.state (k + 1)).shared.mData ())) := by
  let run (n : ℕ) : List (Unit × Act Unit ℕ ℕ) := List.replicate n ((), .run true)
  let as := ((), .useHazardPointer) :: run 3 ++ ((), .store 0 (some 5)) :: ((), .retire 5 ()) ::
    run 3 ++ ((), .tryDeallocateLocalList) :: run 8
  let s₀ : Shared Unit Unit ℕ ℕ := ⟨fun _ => 0, fun _ => none, fun _ => false, none, fun _ => none,
    fun _ => 0, fun _ => none, [], 0, fun _ => false⟩
  have hex : ∃ c : Conf Unit (Shared Unit Unit ℕ ℕ) (PC Unit Unit ℕ),
      (system 1 id).execIf (fun c l => retiresNew c l = true) ⟨s₀, fun _ => .ready⟩ as = some c ∧
        c.shared.localHead () = some () ∧ c.pc () = .ready := ⟨_, rfl, rfl, rfl⟩
  obtain ⟨c, hc, h1, h2⟩ := hex
  obtain ⟨hexec, hD⟩ := System.execIf_eq_some hc
  obtain ⟨r, hr, hl⟩ := System.exists_run (S := system 1 id) (C := FreshAddress id) ((), .run true)
    ⟨⟨rfl, rfl, rfl, rfl, rfl, rfl, rfl, rfl⟩, rfl⟩ hexec fun i hi s h data node hact n hn => by
      have hnot := hD i hi s h
      rw [retiresNew, hact] at hnot
      change (!s.shared.allocated n) = true at hnot
      rw [hn] at hnot
      exact absurd hnot (by simp)
  have hlast := hr as.length le_rfl
  rw [List.take_length, hexec, Option.some.injEq] at hlast
  obtain ⟨l, hseg, hsize, hbound, hread⟩ := garbage_bounded (r := r)
    () 17 (by decide) rfl (hlast ▸ h2)
  have hscan : ∃ c : Conf Unit (Shared Unit Unit ℕ ℕ) (PC Unit Unit ℕ),
      (system 1 id).exec ⟨s₀, fun _ => .ready⟩ (as.take 17) = some c ∧ Scanning (c.pc ()) :=
    ⟨_, rfl, trivial⟩
  obtain ⟨c₁, hc₁, hscan⟩ := hscan
  rw [hr 17 (by decide), Option.some.injEq] at hc₁
  subst hlast hc₁
  refine ⟨17, r, h1, hsize ▸ hbound, hread hscan () ?_⟩
  rw [show (r.state (17 + 1)).shared.localHead () = some () from h1] at hseg
  exact hseg.head_mem

end DeleteLists

end ConcurrencySandbox

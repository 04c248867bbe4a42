import ConcurrencySandbox.PetersonLock.Basic

/-!
# Mutual exclusion of PetersonLock

However many instances the threads lock and nest, every instance follows Peterson's algorithm: one
holder at a time, no two threads that wait for each other, and nobody passes a waiting thread twice.
A `char` has 256 values, so this is for as many threads.
-/

namespace ConcurrencySandbox

open Interleaving

namespace PetersonLock

variable {τ I : Type*}

/-! ### The numbers of the threads -/

/-- The threads got their numbers in the order of `q`. -/
structure Numbers (q : List τ) (s : Shared τ I) : Prop where
  nodup : q.Nodup
  count : s.sIDCount = BitVec.ofNat 32 q.length
  none_iff : ∀ t, s.id t = none ↔ t ∉ q
  id : ∀ (k : ℕ) t, q[k]? = some t → s.id t = some (BitVec.ofNat 8 k)

section Numbers

variable {q : List τ} {s : Shared τ I} {t u : τ} {i : Fin 2} {b : BitVec 8}

theorem index_eq_some (h : index b = some i) : b.toNat = i := by
  unfold index at h
  split_ifs at h with h0 h1 <;> cases h
  · simp [h0]
  · simp [h1]

variable [Fintype τ]

/-- The `char` does not wrap for 256 threads. -/
theorem Numbers.get (hcard : Fintype.card τ ≤ 256) (h : Numbers q s) (ht : s.slot t = some i) :
    q[i.val]? = some t := by
  obtain ⟨b, hb, hi⟩ := Option.bind_eq_some_iff.1 ht
  have hmem : t ∈ q := by
    by_contra hn
    rw [(h.none_iff t).2 hn] at hb
    cases hb
  obtain ⟨k, hk⟩ := List.mem_iff_getElem?.1 hmem
  have hlt := (List.getElem?_eq_some_iff.1 hk).1
  have hlen := h.nodup.length_le_card
  have hb' := Option.some.inj ((h.id k t hk).symm.trans hb)
  have hki : k = i := by
    rw [← index_eq_some hi, ← hb', BitVec.toNat_ofNat, Nat.mod_eq_of_lt (by omega)]
  rwa [← hki]

theorem Numbers.slot_inj (hcard : Fintype.card τ ≤ 256) (h : Numbers q s)
    (ht : s.slot t = some i) (hu : s.slot u = some i) : t = u :=
  Option.some.inj ((h.get hcard ht).symm.trans (h.get hcard hu))

end Numbers

section GetID

variable [DecidableEq τ] {q : List τ} {s : Shared τ I} {t u : τ}

theorem getID_of_some {b : BitVec 8} (h : s.id t = some b) : getID t s = (s, b) := by
  simp only [getID, h]

theorem id_getID : (getID t s).1.id = Function.update s.id t (some (getID t s).2) := by
  unfold getID
  split
  · rename_i i h
    rw [← h, Function.update_eq_self]
  · rfl

theorem slot_getID : (getID t s).1.slot = Function.update s.slot t (index (getID t s).2) := by
  funext u
  rw [Shared.slot, id_getID]
  rcases eq_or_ne u t with rfl | hut
  · rw [Function.update_self, Function.update_self, Option.bind_some]
  · rw [Function.update_of_ne hut, Function.update_of_ne hut, Shared.slot]

theorem getID_rest : (getID t s).1.mFlags = s.mFlags ∧ (getID t s).1.mVictim = s.mVictim ∧
    (getID t s).1.aborted = s.aborted := by
  unfold getID
  split <;> exact ⟨rfl, rfl, rfl⟩

theorem Numbers.getID (h : Numbers q s) (t : τ) : ∃ q', Numbers q' (getID t s).1 := by
  cases hid : s.id t with
  | some b => exact ⟨q, by rwa [getID_of_some hid]⟩
  | none =>
    have ht := (h.none_iff t).1 hid
    refine ⟨q ++ [t], ?_, ?_, fun u => ?_, fun k u hk => ?_⟩
    · exact List.nodup_append.2 ⟨h.nodup, List.nodup_singleton t, fun u hu v hv he =>
        ht (List.mem_singleton.1 hv ▸ he ▸ hu)⟩
    · simp only [PetersonLock.getID, hid]
      rw [h.count, List.length_append, List.length_singleton]
      exact (BitVec.ofNat_add q.length 1).symm
    · simp only [PetersonLock.getID, hid]
      rcases eq_or_ne u t with rfl | hut
      · simp
      · simpa [hut] using h.none_iff u
    · simp only [PetersonLock.getID, hid]
      rcases Nat.lt_or_ge k q.length with hlt | hge
      · rw [List.getElem?_append_left hlt] at hk
        have hut : u ≠ t := fun he => ht (he ▸ List.mem_of_getElem? hk)
        rw [Function.update_of_ne hut]
        exact h.id k u hk
      · rw [List.getElem?_append_right hge] at hk
        obtain ⟨hk0, hu⟩ := List.getElem?_eq_some_iff.1 hk
        obtain rfl : k = q.length := by simp at hk0; omega
        obtain rfl : u = t := by simpa using hu.symm
        rw [Function.update_self, h.count]
        congr 1
        refine BitVec.eq_of_toNat_eq ?_
        simp

end GetID

/-! ### The invariant -/

/-- The instances that the thread holds or comes to. -/
def instances : Place I PC → List I
  | .out held => held
  | .busy l _ held => l :: held

/-- What a call has found out about its thread. -/
def PC.Own (s : Shared τ I) (t : τ) : PC → Prop
  | .getID | .getIDAgain => True
  | .setFlag b | .clearFlag b => s.id t = some b
  | .setVictim i | .readFlag i | .readVictim i => s.slot t = some i

/-- The thread's number fails the assertion. -/
def Refused (s : Shared τ I) (t : τ) : Prop := ∃ b, s.id t = some b ∧ index b = none

def PlaceOwn (s : Shared τ I) (t : τ) : Place I PC → Prop
  | .out _ => True
  | .busy _ p _ => p.Own s t

def Outcome.stage : Outcome PC → Stage
  | .next p => p.stage
  | .locked => .inside
  | .unlocked => .away

section Inv

variable [DecidableEq I]

structure Inv (s : Shared τ I) (f : τ → Place I PC) : Prop where
  numbers : ∃ q, Numbers q s
  nodup : ∀ t, (instances (f t)).Nodup
  own : ∀ t, PlaceOwn s t (f t)
  fair : ∀ l, Fair s.slot (s.mFlags l) (s.mVictim l) fun t => stage l (f t)

variable {s s' : Shared τ I} {f : τ → Place I PC} {t u : τ} {l m : I} {p : PC} {held : List I}
  {x : Place I PC} {o : Outcome PC}

theorem stage_busy (hl : l ∉ held) : stage l (.busy l p held) = p.stage := by
  rw [stage, if_neg hl, if_pos rfl]

theorem stage_after (hl : l ∉ held) : stage l (o.after l held) = Outcome.stage o := by
  cases o with
  | next p => exact stage_busy hl
  | locked => exact if_pos List.mem_cons_self
  | unlocked => exact if_neg hl

theorem stage_after_of_ne (hm : m ≠ l) :
    stage m (o.after l held) = stage m (.busy l p held) := by
  cases o <;> simp [Outcome.after, stage, hm, hm.symm]

omit [DecidableEq I] in
theorem nodup_after (h : (l :: held).Nodup) : (instances (o.after l held)).Nodup := by
  cases o with
  | next | locked => exact h
  | unlocked => exact (List.nodup_cons.1 h).2

omit [DecidableEq I] in
theorem PlaceOwn.congr (h : PlaceOwn s t x) (hid : s'.id t = s.id t) : PlaceOwn s' t x := by
  cases x with
  | out => trivial
  | busy l p held => cases p <;> simp_all [PlaceOwn, PC.Own, Shared.slot]

variable [DecidableEq τ]

theorem stage_update : (fun u => stage l (Function.update f t x u)) =
    Function.update (fun u => stage l (f u)) t (stage l x) := by
  funext u
  rcases eq_or_ne u t with rfl | hut
  · rw [Function.update_self, Function.update_self]
  · rw [Function.update_of_ne hut, Function.update_of_ne hut]

theorem stage_update_eq (hx : stage l x = stage l (f t)) :
    (fun u => stage l (Function.update f t x u)) = fun u => stage l (f u) := by
  rw [stage_update, hx, Function.update_eq_self]

/-- The thread moves on, all its stages the same. -/
theorem Inv.stay (h : Inv s f) (hd : (instances x).Nodup)
    (ho : PlaceOwn s t x) (hx : ∀ l, stage l x = stage l (f t)) :
    Inv s (Function.update f t x) where
  numbers := h.numbers
  nodup := Program.forall_update (L := fun _ y => (instances y).Nodup) hd fun u _ => h.nodup u
  own := Program.forall_update (L := PlaceOwn s) ho fun u _ => h.own u
  fair l := by
    rw [stage_update_eq (hx l)]
    exact h.fair l

/-- The thread asks for its number, all its stages the same. -/
theorem Inv.number (h : Inv s f) (hd : (instances x).Nodup)
    (ho : PlaceOwn (getID t s).1 t x) (hx : ∀ l, stage l x = stage l (f t)) :
    Inv (getID t s).1 (Function.update f t x) where
  numbers := by
    obtain ⟨q, hq⟩ := h.numbers
    exact hq.getID t
  nodup := Program.forall_update (L := fun _ y => (instances y).Nodup) hd fun u _ => h.nodup u
  own := by
    refine Program.forall_update (L := PlaceOwn (getID t s).1) ho fun u hu => ?_
    refine (h.own u).congr ?_
    rw [id_getID, Function.update_of_ne hu]
  fair l := by
    rw [stage_update_eq (hx l), getID_rest.1, getID_rest.2.1]
    cases hid : s.id t with
    | some b =>
      rw [getID_of_some hid]
      exact h.fair l
    | none =>
      rw [slot_getID]
      refine (h.fair l).number ?_ _
      by_contra hs
      obtain ⟨i, hi⟩ := (h.fair l).slotted t hs
      rw [Shared.slot, hid] at hi
      cases hi

/-- The thread makes a move at the instance where it is. -/
theorem Inv.move [Fintype τ] (hcard : Fintype.card τ ≤ 256) (h : Inv s f) {i : Fin 2}
    (hf : f t = .busy l p held) (hslot : s.slot t = some i) (hid : s'.id = s.id)
    (hcount : s'.sIDCount = s.sIDCount)
    (hm : Move i (s.mFlags l) (s.mVictim l) p.stage (s'.mFlags l) (s'.mVictim l)
      (Outcome.stage o))
    (hrest : ∀ m, m ≠ l → s'.mFlags m = s.mFlags m ∧ s'.mVictim m = s.mVictim m)
    (ho : PlaceOwn s' t (o.after l held)) :
    Inv s' (Function.update f t (o.after l held)) := by
  obtain ⟨q, hq⟩ := h.numbers
  have hd := h.nodup t
  rw [hf] at hd
  have hl := (List.nodup_cons.1 hd).1
  have hslots : s'.slot = s.slot := by
    funext u
    rw [Shared.slot, hid, Shared.slot]
  refine ⟨⟨q, hq.nodup, hcount ▸ hq.count, hid ▸ hq.none_iff, hid ▸ hq.id⟩, ?_, ?_, fun m => ?_⟩
  · exact Program.forall_update (L := fun _ y => (instances y).Nodup) (nodup_after hd)
      fun u _ => h.nodup u
  · exact Program.forall_update (L := PlaceOwn s') ho fun u _ => (h.own u).congr (by rw [hid])
  · rw [hslots]
    rcases eq_or_ne m l with rfl | hml
    · rw [stage_update, stage_after hl]
      refine (h.fair m).step (fun t u i => hq.slot_inj hcard) hslot ?_
      rwa [hf, stage_busy hl]
    · obtain ⟨h1, h2⟩ := hrest m hml
      rw [h1, h2, stage_update_eq (by rw [hf, stage_after_of_ne hml])]
      exact h.fair m

omit [DecidableEq τ] in
theorem Inv.abort (h : Inv s f) : Inv { s with aborted := true } f where
  numbers := by
    obtain ⟨q, hq⟩ := h.numbers
    exact ⟨q, hq.nodup, hq.count, hq.none_iff, hq.id⟩
  nodup := h.nodup
  own t := (h.own t).congr rfl
  fair := h.fair

theorem stage_next {p' : PC} (hl : l ∉ held) (hp : p'.stage = p.stage) (m : I) :
    stage m (.busy l p' held) = stage m (.busy l p held) := by
  rcases eq_or_ne m l with rfl | hml
  · rw [stage_busy hl, stage_busy hl, hp]
  · exact stage_after_of_ne (o := .next p') hml

omit [DecidableEq τ] in
theorem setFlag_self {i : Fin 2} {b : Bool} :
    (setFlag s l i b).mFlags l = Function.update (s.mFlags l) i b :=
  Function.update_self ..

omit [DecidableEq τ] in
theorem setFlag_of_ne {i : Fin 2} {b : Bool} (hm : m ≠ l) :
    (setFlag s l i b).mFlags m = s.mFlags m :=
  Function.update_of_ne hm _ _

theorem stage_lock (hl : l ∉ held) (m : I) :
    stage m (.busy l .getID held) = stage m (.out held) := by
  rcases eq_or_ne m l with rfl | hml
  · rw [stage_busy hl, stage, if_neg hl]
    rfl
  · simp [stage, hml.symm]

theorem stage_unlock (m : I) :
    stage m (.busy l .getIDAgain held) = stage m (.out (l :: held)) := by
  rcases eq_or_ne m l with rfl | hml
  · simp [stage, PC.stage]
  · simp [stage, hml, hml.symm]

/-- A step gives the thread its number, fails an assertion, or is a move at its instance. -/
theorem step_cases (hown : p.Own s t) (hs : step t l s p = some (s', o)) :
    (∃ p', o = .next p' ∧ p'.stage = p.stage ∧ s' = (getID t s).1 ∧ p'.Own s' t) ∨
      (o = .next p ∧ s' = { s with aborted := true } ∧ Refused s t) ∨
      ∃ i, s.slot t = some i ∧ s'.id = s.id ∧ s'.sIDCount = s.sIDCount ∧ s'.aborted = s.aborted ∧
        Move i (s.mFlags l) (s.mVictim l) p.stage (s'.mFlags l) (s'.mVictim l) (Outcome.stage o) ∧
        (∀ m, m ≠ l → s'.mFlags m = s.mFlags m ∧ s'.mVictim m = s.mVictim m) ∧
        ∀ p', o = .next p' → p'.Own s' t := by
  have hgot : (getID t s).1.id t = some (getID t s).2 := by rw [id_getID, Function.update_self]
  have hslot : ∀ b, s.id t = some b → s.slot t = index b := fun b hb => by
    rw [Shared.slot, hb, Option.bind_some]
  unfold PetersonLock.step at hs
  split_ifs at hs
  cases p with
  | getID | getIDAgain =>
    obtain ⟨rfl, rfl⟩ := Prod.mk.inj (Option.some.inj hs)
    exact .inl ⟨_, rfl, rfl, rfl, hgot⟩
  | setFlag b =>
    cases hi : index b with
    | some i =>
      simp only [hi] at hs
      obtain ⟨rfl, rfl⟩ := Prod.mk.inj (Option.some.inj hs)
      refine .inr (.inr ⟨i, (hslot b hown).trans hi, rfl, rfl, rfl, ?_, fun m hm => ⟨?_, rfl⟩, ?_⟩)
      · rw [setFlag_self]
        exact .announce _ _
      · exact setFlag_of_ne hm
      · rintro p' ⟨⟩
        exact (hslot b hown).trans hi
    | none =>
      simp only [hi] at hs
      obtain ⟨rfl, rfl⟩ := Prod.mk.inj (Option.some.inj hs)
      exact .inr (.inl ⟨rfl, rfl, b, hown, hi⟩)
  | setVictim i =>
    obtain ⟨rfl, rfl⟩ := Prod.mk.inj (Option.some.inj hs)
    refine .inr (.inr ⟨i, hown, rfl, rfl, rfl, ?_, fun m hm => ⟨rfl, ?_⟩, ?_⟩)
    · change Move i _ _ _ (s.mFlags l) (Function.update s.mVictim l i l) _
      rw [Function.update_self]
      exact .yield _ _
    · exact Function.update_of_ne hm _ _
    · rintro p' ⟨⟩
      exact hown
  | readFlag i =>
    obtain ⟨rfl, rfl⟩ := Prod.mk.inj (Option.some.inj hs)
    refine .inr (.inr ⟨i, hown, rfl, rfl, rfl, ?_, fun _ _ => ⟨rfl, rfl⟩, ?_⟩)
    · split_ifs with hflag
      · exact .keep _ _ _
      · exact .enter _ _ (.inl (by simpa using hflag))
    · split_ifs
      · rintro p' ⟨⟩
        exact hown
      · rintro p' ⟨⟩
  | readVictim i =>
    obtain ⟨rfl, rfl⟩ := Prod.mk.inj (Option.some.inj hs)
    refine .inr (.inr ⟨i, hown, rfl, rfl, rfl, ?_, fun _ _ => ⟨rfl, rfl⟩, ?_⟩)
    · split_ifs with hv
      · exact .keep _ _ _
      · exact .enter _ _ (.inr hv)
    · split_ifs
      · rintro p' ⟨⟩
        exact hown
      · rintro p' ⟨⟩
  | clearFlag b =>
    cases hi : index b with
    | some i =>
      simp only [hi] at hs
      obtain ⟨rfl, rfl⟩ := Prod.mk.inj (Option.some.inj hs)
      refine .inr (.inr ⟨i, (hslot b hown).trans hi, rfl, rfl, rfl, ?_, fun m hm => ⟨?_, rfl⟩, ?_⟩)
      · rw [setFlag_self]
        exact .leave _ _
      · exact setFlag_of_ne hm
      · rintro p' ⟨⟩
    | none =>
      simp only [hi] at hs
      obtain ⟨rfl, rfl⟩ := Prod.mk.inj (Option.some.inj hs)
      exact .inr (.inl ⟨rfl, rfl, b, hown, hi⟩)

theorem Inv.step [Fintype τ] (hcard : Fintype.card τ ≤ 256) (h : Inv s f)
    (hf : f t = .busy l p held) (hs : step t l s p = some (s', o)) :
    Inv s' (Function.update f t (o.after l held)) := by
  have hd := h.nodup t
  have hown := h.own t
  rw [hf] at hd hown
  have hl := (List.nodup_cons.1 hd).1
  rcases step_cases hown hs with ⟨p', rfl, hp, rfl, hown'⟩ | ⟨rfl, rfl, -⟩ |
    ⟨i, hslot, hid, hcount, -, hm, hrest, hown'⟩
  · refine h.number hd hown' fun m => ?_
    rw [hf]
    exact stage_next hl hp m
  · rw [Outcome.after, ← hf, Function.update_eq_self]
    exact h.abort
  · refine h.move hcard hf hslot hid hcount hm hrest ?_
    cases o with
    | next p' => exact hown' p' rfl
    | locked | unlocked => trivial

omit [DecidableEq τ] in
theorem Inv.initial : Inv (initial τ I) fun _ => .out [] where
  numbers := ⟨[], List.nodup_nil, rfl, fun _ => by simp [PetersonLock.initial], fun _ _ => nofun⟩
  nodup _ := List.nodup_nil
  own _ := trivial
  fair _ := Fair.init

theorem inv_reach [Fintype τ] (hcard : Fintype.card τ ≤ 256)
    {c : Conf τ (Shared τ I) (Place I PC)} (h : (system τ I).Reach Unheld c) :
    Inv c.shared c.pc := by
  refine h.induct (P := fun c => Inv c.shared c.pc) ?_ ?_
  · rintro ⟨s, f⟩ ⟨hs, hf⟩
    obtain rfl : s = PetersonLock.initial τ I := hs
    obtain rfl : f = fun _ => .out [] := hf
    exact .initial
  · rintro c ⟨t, a⟩ c' - hinv hC hs
    obtain ⟨s', x, hn, rfl⟩ := Program.step_eq_some.1 hs
    rcases LockClass.next_cases hn with ⟨l, held, hf, rfl, rfl, rfl⟩ |
      ⟨l, held, hf, rfl, rfl, rfl⟩ |
      ⟨l, p, held, o, hf, rfl, hstep, rfl⟩
    · have hl : l ∉ held := by simpa [Unheld, unheld, hf] using hC
      have hd : held.Nodup := by simpa [hf, instances] using hinv.nodup t
      refine hinv.stay (List.nodup_cons.2 ⟨hl, hd⟩) trivial fun m => ?_
      rw [hf]
      exact stage_lock hl m
    · have hd : (l :: held).Nodup := by simpa [hf, instances] using hinv.nodup t
      refine hinv.stay hd trivial fun m => ?_
      rw [hf]
      exact stage_unlock m
    · exact hinv.step hcard hf hstep

end Inv

/-! ### Runs -/

section Run

variable [DecidableEq τ] [DecidableEq I] [Fintype τ] {c c' : Conf τ (Shared τ I) (Place I PC)}
  {t u w : τ} {l : I} {a : Call I}

omit [DecidableEq τ] in
theorem Inv.inj (hcard : Fintype.card τ ≤ 256) (h : Inv c.shared c.pc) :
    ∀ t u i, c.shared.slot t = some i → c.shared.slot u = some i → t = u := by
  obtain ⟨q, hq⟩ := h.numbers
  exact fun t u i => hq.slot_inj hcard

omit [Fintype τ] in
/-- A step is nothing to an instance, or a move of its thread there. -/
theorem step_moves (h : Inv c.shared c.pc) (hC : Unheld c (t, a))
    (hs : (system τ I).step c (t, a) = some c') (l : I) :
    (∀ u, stage l (c.pc u) ≠ .away → c'.shared.slot u = c.shared.slot u) ∧
      (c'.shared.mFlags l = c.shared.mFlags l ∧ c'.shared.mVictim l = c.shared.mVictim l ∧
          stage l (c'.pc t) = stage l (c.pc t) ∨
        ∃ i, c.shared.slot t = some i ∧ Move i (c.shared.mFlags l) (c.shared.mVictim l)
          (stage l (c.pc t)) (c'.shared.mFlags l) (c'.shared.mVictim l) (stage l (c'.pc t))) := by
  obtain ⟨s', x, hn, rfl⟩ := Program.step_eq_some.1 hs
  have hd := h.nodup t
  have hown := h.own t
  simp only [Function.update_self]
  rcases LockClass.next_cases hn with ⟨m, held, hf, rfl, rfl, rfl⟩ |
    ⟨m, held, hf, rfl, rfl, rfl⟩ | ⟨m, p, held, o, hf, rfl, hstep, rfl⟩
  · refine ⟨fun _ _ => rfl, .inl ⟨rfl, rfl, ?_⟩⟩
    rw [hf]
    exact stage_lock (by simpa [Unheld, unheld, hf] using hC) l
  · refine ⟨fun _ _ => rfl, .inl ⟨rfl, rfl, ?_⟩⟩
    rw [hf]
    exact stage_unlock l
  · rw [hf] at hd hown ⊢
    have hm := (List.nodup_cons.1 hd).1
    rcases step_cases hown hstep with ⟨p', rfl, hp, rfl, -⟩ | ⟨rfl, rfl, -⟩ |
      ⟨i, hslot, hid, -, -, hmove, hrest, -⟩
    · refine ⟨fun u hu => ?_, .inl ⟨by rw [getID_rest.1], by rw [getID_rest.2.1],
        stage_next hm hp l⟩⟩
      obtain ⟨i, hi⟩ := (h.fair l).slotted u hu
      obtain ⟨b, hb, -⟩ := Option.bind_eq_some_iff.1 hi
      rcases eq_or_ne u t with rfl | hut
      · rw [getID_of_some hb]
      · rw [slot_getID, Function.update_of_ne hut]
    · exact ⟨fun _ _ => rfl, .inl ⟨rfl, rfl, rfl⟩⟩
    · refine ⟨fun u _ => by rw [Shared.slot, hid, Shared.slot], ?_⟩
      rcases eq_or_ne l m with rfl | hlm
      · refine .inr ⟨i, hslot, ?_⟩
        rwa [stage_busy hm, stage_after hm]
      · exact .inl ⟨(hrest l hlm).1, (hrest l hlm).2, stage_after_of_ne hlm⟩

attribute [local instance] neZeroTwo in
/-- The check of the loop, both reads together, keeps the thread in. -/
def Blocked (c : Conf τ (Shared τ I) (Place I PC)) (l : I) (t : τ) : Prop :=
  stage l (c.pc t) = .waiting ∧ ∃ i, c.shared.slot t = some i ∧
    c.shared.mFlags l (1 - i) = true ∧ c.shared.mVictim l = i

/-- Whoever else waits is the victim. -/
def Passed (c : Conf τ (Shared τ I) (Place I PC)) (l : I) (t : τ) : Prop :=
  ∀ w, w ≠ t → stage l (c.pc w) = .waiting → c.shared.slot w = some (c.shared.mVictim l)

omit [DecidableEq τ] in
/-- With another thread inside nobody else waits. -/
theorem Passed.of_inside (hcard : Fintype.card τ ≤ 256) (h : Inv c.shared c.pc) (hut : u ≠ t)
    (ht : stage l (c.pc t) = .waiting) (hu : stage l (c.pc u) = .inside) : Passed c l t := by
  intro w hwt hw
  have hwu : w ≠ u := by
    rintro rfl
    cases hw.symm.trans hu
  have haway := (h.fair l).third (h.inj hcard) hut (by simp [hu]) (by simp [ht]) hwu hwt
  cases hw.symm.trans haway

theorem Passed.step (hcard : Fintype.card τ ≤ 256) (h : Inv c.shared c.pc) (hp : Passed c l t)
    (hC : Unheld c (u, a)) (hs : (system τ I).step c (u, a) = some c')
    (ht : stage l (c.pc t) = .waiting) (ht' : stage l (c'.pc t) = .waiting) : Passed c' l t := by
  intro w hwt hw
  obtain ⟨hslots, hmoves⟩ := step_moves h hC hs l
  have hother := (Program.step_next hs).2
  rcases eq_or_ne w u with rfl | hwu
  · rcases hmoves with ⟨-, hv, hstage⟩ | ⟨i, hi, hm⟩
    · rw [hstage] at hw
      rw [hv, hslots w (by simp [hw])]
      exact hp w hwt hw
    · have hold := hp w hwt
      have hsame := hslots w
      rw [hw] at hm
      generalize stage l (c.pc w) = b at hm hold hsame
      generalize c'.shared.mFlags l = flags at hm
      generalize c'.shared.mVictim l = v at hm ⊢
      cases hm with
      | keep => exact (hsame nofun).trans (hold rfl)
      | yield => exact (hsame nofun).trans hi
  · rw [hother w hwu] at hw
    rw [hslots w (by simp [hw]), hp w hwt hw]
    rcases hmoves with ⟨-, hv, -⟩ | ⟨i, hi, hm⟩
    · rw [hv]
    · congr 1
      rcases eq_or_ne u t with rfl | hut
      · rw [ht, ht'] at hm
        generalize c'.shared.mFlags l = flags at hm
        generalize c'.shared.mVictim l = v at hm ⊢
        cases hm
        rfl
      · have haway := (h.fair l).third (h.inj hcard) hwt (by simp [hw]) (by simp [ht]) hwu.symm hut
        rw [haway] at hm
        generalize c'.shared.mFlags l = flags at hm
        generalize c'.shared.mVictim l = v at hm ⊢
        generalize stage l (c'.pc u) = b at hm
        cases hm with
        | keep | announce => rfl

/-- No other thread that has come later gets in. -/
theorem Passed.not_enters (hcard : Fintype.card τ ≤ 256) (h : Inv c.shared c.pc)
    (hp : Passed c l t) (hC : Unheld c (u, a)) (hs : (system τ I).step c (u, a) = some c')
    (ht : stage l (c.pc t) = .waiting) (hwt : w ≠ t) (hout : stage l (c.pc w) ≠ .inside) :
    stage l (c'.pc w) ≠ .inside := by
  intro hin
  rcases eq_or_ne w u with rfl | hwu
  · rcases (step_moves h hC hs l).2 with ⟨-, -, hstage⟩ | ⟨i, hi, hm⟩
    · exact hout (hstage ▸ hin)
    · have hold := hp w hwt
      have hflag := ((h.fair l).other (h.inj hcard) hi hwt.symm (by simp [ht])).2
      rw [hin] at hm
      generalize stage l (c.pc w) = b at hm hold hout
      generalize c'.shared.mVictim l = v at hm
      generalize c'.shared.mFlags l = flags at hm
      cases hm with
      | keep => exact hout rfl
      | enter hgo =>
        rcases hgo with hgo | hgo
        · rw [hflag] at hgo
          cases hgo
        · exact hgo (Option.some.inj ((hold rfl).symm.trans hi))
  · rw [(Program.step_next hs).2 w hwu] at hin
    exact hout hin

omit [DecidableEq τ] [Fintype τ] in
/-- Of two threads that wait for each other one can go. -/
theorem Inv.not_blocked (h : Inv c.shared c.pc) (ht : Blocked c l t) :
    ∃ u, u ≠ t ∧ stage l (c.pc u) ≠ .away ∧ ¬ Blocked c l u := by
  obtain ⟨-, i, hi, hflag, hv⟩ := ht
  obtain ⟨u, hu, hs⟩ := ((h.fair l).flag _).1 hflag
  refine ⟨u, ?_, hs, ?_⟩
  · rintro rfl
    exact one_sub_ne i (Option.some.inj (hu.symm.trans hi))
  · rintro ⟨-, j, hj, -, hvj⟩
    obtain rfl := Option.some.inj (hu.symm.trans hj)
    exact one_sub_ne i (hvj.symm.trans hv)

/-! ### The assertion -/

omit [DecidableEq τ] [DecidableEq I] in
/-- Two threads have the numbers 0 and 1. -/
theorem Numbers.refused {q : List τ} {s : Shared τ I} (h : Numbers q s) (ht : Refused s t) :
    2 < Fintype.card τ := by
  obtain ⟨b, hb, hi⟩ := ht
  have hmem : t ∈ q := by
    by_contra hn
    rw [(h.none_iff t).2 hn] at hb
    cases hb
  obtain ⟨k, hk⟩ := List.mem_iff_getElem?.1 hmem
  have hlt := (List.getElem?_eq_some_iff.1 hk).1
  have hlen := h.nodup.length_le_card
  obtain rfl := Option.some.inj ((h.id k t hk).symm.trans hb)
  match k, hi with
  | k + 2, _ => omega

omit [Fintype τ] in
/-- The program is aborted by a thread whose number is not 0 or 1. -/
theorem abort_step (h : Inv c.shared c.pc) (hc : c.shared.aborted = true → ∃ t, Refused c.shared t)
    (hs : (system τ I).step c (t, a) = some c') :
    c'.shared.aborted = true → ∃ t, Refused c'.shared t := by
  obtain ⟨s', x, hn, rfl⟩ := Program.step_eq_some.1 hs
  intro hab
  have hown := h.own t
  rcases LockClass.next_cases hn with ⟨m, held, hf, rfl, rfl, rfl⟩ |
    ⟨m, held, hf, rfl, rfl, rfl⟩ | ⟨m, p, held, o, hf, rfl, hstep, rfl⟩
  · exact hc hab
  · exact hc hab
  · rw [hf] at hown
    have hnot : c.shared.aborted = false := by
      by_contra hne
      simp [lockClass, PetersonLock.step, hne] at hstep
    rcases step_cases hown hstep with ⟨-, -, -, rfl, -⟩ | ⟨-, rfl, hr⟩ | ⟨-, -, -, -, he, -⟩
    · rw [getID_rest.2.2, hnot] at hab
      cases hab
    · exact ⟨t, hr⟩
    · rw [he, hnot] at hab
      cases hab

theorem not_aborted (hcard : Fintype.card τ ≤ 2) (h : (system τ I).Reach Unheld c) :
    c.shared.aborted = false := by
  have hP : c.shared.aborted = true → ∃ t, Refused c.shared t := by
    refine h.induct (P := fun c => c.shared.aborted = true → ∃ t, Refused c.shared t) ?_ ?_
    · rintro ⟨s, f⟩ ⟨hs, -⟩ hab
      obtain rfl : s = initial τ I := hs
      cases hab
    · rintro c ⟨t, a⟩ c' hr hc - hs
      exact abort_step (inv_reach (by omega) hr) hc hs
  by_contra hne
  obtain ⟨t, ht⟩ := hP (by simpa using hne)
  obtain ⟨q, hq⟩ := (inv_reach (by omega) h).numbers
  have := hq.refused ht
  omega

/-! ### A waiting thread that may go -/

omit [Fintype τ] in
theorem run_once {s' : Shared τ I} {p : PC} {held : List I} {o : Outcome PC}
    (hf : c.pc t = .busy l p held) (hs : step t l c.shared p = some (s', o)) :
    (system τ I).step c (t, .run) = some ⟨s', Function.update c.pc t (o.after l held)⟩ := by
  refine Program.step_eq_some.2 ⟨s', o.after l held, ?_, rfl⟩
  change LockClass.next (lockClass τ I) t .run c.shared (c.pc t) = _
  rw [hf]
  change (step t l c.shared p).map _ = _
  rw [hs]
  rfl

omit [Fintype τ] in
theorem enters_once {p : PC} {held : List I} (hf : c.pc t = .busy l p held)
    (hs : step t l c.shared p = some (c.shared, .locked)) : ∃ n ≤ 2, ∃ c',
      (system τ I).exec c (List.replicate n (t, .run)) = some c' ∧ c'.pc t = .out (l :: held) := by
  refine ⟨1, by omega, ⟨c.shared, Function.update c.pc t (.out (l :: held))⟩, ?_, ?_⟩
  · rw [List.replicate_one, System.exec, run_once hf hs, Option.bind_some, System.exec]
    rfl
  · exact Function.update_self ..

omit [Fintype τ] in
theorem enters_twice {p q : PC} {held : List I} (hf : c.pc t = .busy l p held)
    (hs : step t l c.shared p = some (c.shared, .next q))
    (hs' : step t l c.shared q = some (c.shared, .locked)) : ∃ n ≤ 2, ∃ c',
      (system τ I).exec c (List.replicate n (t, .run)) = some c' ∧ c'.pc t = .out (l :: held) := by
  let c₁ : Conf τ (Shared τ I) (Place I PC) :=
    ⟨c.shared, Function.update c.pc t (.busy l q held)⟩
  have hf₁ : c₁.pc t = .busy l q held := Function.update_self ..
  refine ⟨2, le_rfl, ⟨c.shared, Function.update c₁.pc t (.out (l :: held))⟩, ?_, ?_⟩
  · have h1 := run_once hf hs
    have h2 := run_once hf₁ hs'
    rw [List.replicate_succ, System.exec, h1, Option.bind_some, List.replicate_one, System.exec,
      Outcome.after, h2, Option.bind_some, System.exec]
    rfl
  · exact Function.update_self ..

omit [Fintype τ] in
/-- A thread that the check does not keep in the loop goes in with its next two steps. -/
theorem Inv.enters (h : Inv c.shared c.pc) (hab : c.shared.aborted = false) {p : PC}
    {held : List I} (hf : c.pc t = .busy l p held) (hp : p.stage = .waiting)
    (hb : ¬ Blocked c l t) : ∃ n ≤ 2, ∃ c', (system τ I).exec c (List.replicate n (t, .run)) =
      some c' ∧ c'.pc t = .out (l :: held) := by
  have hown := h.own t
  have hd := h.nodup t
  rw [hf] at hd hown
  have hl := (List.nodup_cons.1 hd).1
  have hgo : ∀ i, c.shared.slot t = some i → c.shared.mFlags l (1 - i) = true →
      c.shared.mVictim l ≠ i := fun i hi hflag hv =>
    hb ⟨by rw [hf, stage_busy hl, hp], i, hi, hflag, hv⟩
  cases p with
  | readFlag i =>
    by_cases hflag : c.shared.mFlags l (1 - i) = true
    · exact enters_twice hf (q := .readVictim i) (by simp [PetersonLock.step, hab, hflag])
        (by simp [PetersonLock.step, hab, hgo i hown hflag])
    · exact enters_once hf (by simp [PetersonLock.step, hab, hflag])
  | readVictim i =>
    by_cases hv : c.shared.mVictim l = i
    · have hflag : ¬ c.shared.mFlags l (1 - i) = true := fun hflag => hgo i hown hflag hv
      exact enters_twice hf (q := .readFlag i) (by simp [PetersonLock.step, hab, hv])
        (by simp [PetersonLock.step, hab, hflag])
    · exact enters_once hf (by simp [PetersonLock.step, hab, hv])
  | getID | setFlag | setVictim | getIDAgain | clearFlag => cases hp

/-! ### Every run -/

/-- The thread has got into the instance with this step. -/
def Enters {n : ℕ} (r : (system τ I).Run Unheld n) (l : I) (t : τ) (k : ℕ) : Prop :=
  stage l ((r.state k).pc t) ≠ .inside ∧ stage l ((r.state (k + 1)).pc t) = .inside

/-- An instance has one holder at a time; a thread that the check keeps in the loop is kept by one
at the same instance that it does not keep there; and while a thread waits, it sees one other thread
go in at most. -/
structure Correct {n : ℕ} (r : (system τ I).Run Unheld n) : Prop where
  exclusive : ∀ k ≤ n, ∀ l t u, stage l ((r.state k).pc t) = .inside →
    stage l ((r.state k).pc u) = .inside → t = u
  progress : ∀ k ≤ n, ∀ l t, Blocked (r.state k) l t →
    ∃ u, u ≠ t ∧ stage l ((r.state k).pc u) ≠ .away ∧ ¬ Blocked (r.state k) l u
  enters : ∀ k ≤ n, (r.state k).shared.aborted = false → ∀ l t p held,
    (r.state k).pc t = .busy l p held → p.stage = .waiting → ¬ Blocked (r.state k) l t →
      ∃ m ≤ 2, ∃ c', (system τ I).exec (r.state k) (List.replicate m (t, .run)) = some c' ∧
        c'.pc t = .out (l :: held)
  bypass : ∀ l t a b, b ≤ n → (∀ m, a ≤ m → m ≤ b → stage l ((r.state m).pc t) = .waiting) →
    ∀ j k u w, a ≤ j → j < k → k < b → Enters r l u j → ¬ Enters r l w k
  assertion : Fintype.card τ ≤ 2 → ∀ k ≤ n, (r.state k).shared.aborted = false

/-- Peterson's algorithm, at each of any instances nested in any way, for as many threads as a
`char` can number. -/
theorem peterson (hcard : Fintype.card τ ≤ 256) {n : ℕ} (r : (system τ I).Run Unheld n) :
    Correct r where
  exclusive k hk l t u ht hu := by
    by_contra htu
    exact (((inv_reach hcard (r.reach hk)).fair l).exclusive t u htu ht).1 hu
  progress k hk l t hb := (inv_reach hcard (r.reach hk)).not_blocked hb
  enters k hk hab l t p held := (inv_reach hcard (r.reach hk)).enters hab
  bypass l t a b hb hwait j k u w haj hjk hkb hj hk := by
    have hne : ∀ m v, a ≤ m → m ≤ b → stage l ((r.state m).pc v) = .inside → v ≠ t := by
      rintro m v h1 h2 h3 rfl
      cases (hwait m h1 h2).symm.trans h3
    -- from the first entry on, who comes is the victim
    have hpassed : ∀ m, j + 1 ≤ m → m ≤ k → Passed (r.state m) l t := by
      intro m hm
      induction m, hm using Nat.le_induction with
      | base =>
        intro hjk
        exact Passed.of_inside hcard (inv_reach hcard (r.reach (by omega)))
          (hne _ u (by omega) (by omega) hj.2) (hwait _ (by omega) (by omega)) hj.2
      | succ m hm ih =>
        intro hmk
        exact (ih (by omega)).step hcard (inv_reach hcard (r.reach (by omega)))
          (r.meets m (by omega)) (r.step m (by omega)) (hwait _ (by omega) (by omega))
          (hwait _ (by omega) (by omega))
    exact (hpassed k hjk le_rfl).not_enters hcard (inv_reach hcard (r.reach (by omega)))
      (r.meets k (by omega)) (r.step k (by omega)) (hwait k (by omega) (by omega))
      (hne _ w (by omega) (by omega) hk.2) hk.1 hk.2
  assertion h2 k hk := not_aborted h2 (r.reach hk)

end Run

/-- A thread waits while the other goes in. -/
theorem peterson_two : ∃ r : (system (Fin 2) Unit).Run Unheld 10, Correct r ∧
    stage () ((r.state 10).pc 0) = .waiting ∧ stage () ((r.state 10).pc 1) = .inside := by
  let come (t : Fin 2) : List (Fin 2 × Call Unit) :=
    [(t, .lock ()), (t, .run), (t, .run), (t, .run)]
  let c₀ : Conf (Fin 2) (Shared (Fin 2) Unit) (Place Unit PC) := ⟨initial _ _, fun _ => .out []⟩
  have hex : ((system (Fin 2) Unit).execIf Unheld c₀ (come 1 ++ come 0 ++
    [(1, .run), (1, .run)])).any
      (fun c => stage () (c.pc 0) = .waiting ∧ stage () (c.pc 1) = .inside) = true := by
    decide +kernel
  have hinit : (system (Fin 2) Unit).init c₀ := ⟨rfl, rfl⟩
  obtain ⟨r, hheld⟩ := System.exists_run_any (0, .run) hinit hex
  exact ⟨r, peterson (by decide) r, of_decide_eq_true hheld⟩

end PetersonLock

end ConcurrencySandbox

import ConcurrencySandbox.LockFreeHashMap.Calls

/-!
# The life of a node

A step changes the links of the list where it links a new node or unlinks a marked one, and nowhere
else (`next_splice`). So the list keeps its order and its last node, and a node that leaves it is
unlinked by one compare-and-swap, whose thread alone retires it, once (`lifecycle`).
-/

namespace ConcurrencySandbox

open Interleaving Structures HazardPointer

namespace LockFreeHashMap

variable {τ A K V : Type*}

/-- The node that the next step unlinks, when its compare-and-swap succeeds. -/
def unlinks [DecidableEq A] (s : Shared τ A K V) : PC τ A K V → Option A
  | .findUnlink _ _ pred cur _ | .removeUnlink _ _ pred cur _ =>
    if (s.heap pred).mNext = (some cur, false) then some cur else none
  | _ => none

/-- The node that the next step gives to `HPDomain::retire`. -/
def PC.retires : PC τ A K V → Option A
  | .findRetire _ _ _ cur _ | .removeRetire _ _ _ cur => some cur
  | _ => none

/-- The node that the thread has unlinked and not yet retired. -/
def PC.dropping : PC τ A K V → Option A
  | .findDrop _ _ _ cur _ | .removeDrop _ _ _ cur => some cur
  | p => p.retires

/-- The node is in the list. -/
def Shared.Linked (s : Shared τ A K V) (a : A) : Prop := Reaches s.links s.mHead a

variable {mHash : K → HashValueType} {g g' : Ghost τ A} {s s' : Shared τ A K V} {t u : τ}
  {act : Act A K V} {a b : A} {p p' : PC τ A K V}

theorem Shape.linked_iff (hG : Shape mHash g s) : s.Linked a ↔ a ∈ g.list := hG.seg.reaches_iff

variable [DecidableEq τ] [DecidableEq A]

/-- What a step does to the links of the list. -/
inductive Splice (g : Ghost τ A) (s s' : Shared τ A K V) (p : PC τ A K V) : Prop
  | same (h : ∀ b ∈ g.list, s'.links b = s.links b) (hu : unlinks s p = none)
  | link (c : Caller A K V) (h : Holders) (pred cur a : A) (hp : p = .insertCas c h pred cur)
      (ha : c.newNode = some a) (hn : (s.heap pred).mNext = (some cur, false))
      (hs : s' = s.setNext pred (some a, false))
  | unlink (pred cur : A) (hu : unlinks s p = some cur) (hpub : pred ∈ g.published)
      (hn : (s.heap pred).mNext = (some cur, false)) (hm : s.marked cur = true)
      (hs : s' = s.setNext pred (s.links cur, false))

omit [DecidableEq τ] in
theorem Splice.of_heap (hh : s'.heap = s.heap) (hu : unlinks s p = none) : Splice g s s' p :=
  .same (fun b _ => congrArg (fun h => (h b).mNext.1) hh) hu

theorem domainStep_mHead {ok : Bool} {f f' : Frame τ A} (h : s.domainStep t ok f = some (s', f')) :
    s'.mHead = s.mHead := by
  revert h
  unfold Shared.domainStep
  split <;> rintro ⟨⟩ <;> rfl

variable [DecidableEq K]

theorem next_splice (hG : Shape mHash g s) (hp : Placed mHash g s t p)
    (hn : next mHash t act s p = some (s', p')) : s'.mHead = s.mHead ∧ Splice g s s' p := by
  obtain ⟨hcall, hat⟩ := hp
  cases hc : p.call with
  | none =>
    obtain ⟨f, rfl⟩ := PC.idle hc
    rcases next_idle hc hn with rfl | ⟨ok, f, f', hs⟩
    · exact ⟨rfl, .of_heap rfl rfl⟩
    · exact ⟨domainStep_mHead hs, .of_heap (domainStep_heap hs) rfl⟩
  | some call =>
    rcases next_cases hc hn with ⟨a, rfl, rfl, ha, rfl, -⟩ | hn | hn | hn | hn | hn | hn
    · refine ⟨rfl, .same (fun b hb => ?_) rfl⟩
      have hba : b ≠ a := fun e => ha (e ▸ hG.allocated b (.inl hb))
      exact congrArg (fun n : Node A K V => n.mNext.1) (Function.update_of_ne hba _ _)
    · revert hn
      fun_cases nextClaim t act s p <;> intro hn
      · cases hn
        exact ⟨rfl, .of_heap rfl rfl⟩
      · cases hn
        exact ⟨rfl, .of_heap rfl rfl⟩
      · obtain ⟨pc, -, he⟩ := Option.map_eq_some_iff.1 hn
        cases he
        exact ⟨rfl, .of_heap rfl rfl⟩
      · cases hn
        exact ⟨rfl, .of_heap rfl rfl⟩
      · cases hn
    · revert hn
      fun_cases nextFind mHash t act s p <;> intro hn <;> cases hn
      · rename_i c h pred cur succ ok hcas
        obtain ⟨⟨hpass, -, hm, rfl⟩, -⟩ := hat
        exact ⟨rfl, .unlink pred cur (if_pos hcas) hpass.1.1.1 hcas hm rfl⟩
      · rename_i hcas
        exact ⟨rfl, .of_heap rfl (if_neg hcas)⟩
      · exact ⟨rfl, .of_heap rfl rfl⟩
      · exact ⟨rfl, .of_heap rfl rfl⟩
      · exact ⟨rfl, .of_heap rfl rfl⟩
      · rename_i hs
        exact ⟨domainStep_mHead hs, .of_heap (domainStep_heap hs) rfl⟩
      · exact ⟨rfl, .of_heap rfl rfl⟩
      · exact ⟨rfl, .of_heap rfl rfl⟩
      · exact ⟨rfl, .of_heap rfl rfl⟩
    · revert hn
      fun_cases nextGet mHash act s p <;> intro hn <;> cases hn <;> exact ⟨rfl, .of_heap rfl rfl⟩
    · revert hn
      fun_cases nextInsert act s p <;> intro hn <;> cases hn
      · rename_i c h pred cur ok a hnew
        have hpriv := (hcall c rfl).2 a hnew
        refine ⟨rfl, .same (fun b hb => ?_) rfl⟩
        have hba : b ≠ a := fun e => hpriv.2.1 (e ▸ (hG.listed b hb).1)
        rw [setNext_links, Function.update_of_ne hba]
      · rename_i c h pred cur ok a hnew hcas
        exact ⟨rfl, .link c h pred cur a rfl hnew hcas rfl⟩
      · exact ⟨rfl, .of_heap rfl rfl⟩
    · revert hn
      fun_cases nextRemove t act s p <;> intro hn <;> cases hn
      · exact ⟨rfl, .of_heap rfl rfl⟩
      · rename_i c h pred cur succ ok hcas
        refine ⟨rfl, .same (fun b hb => ?_) rfl⟩
        have hl : succ = s.links cur := (congrArg Prod.fst hcas).symm
        rw [setNext_links, hl, Function.update_eq_self]
      · exact ⟨rfl, .of_heap rfl rfl⟩
      · rename_i c h pred cur succ ok hcas
        obtain ⟨hpass, -, hm, rfl⟩ := hat
        exact ⟨rfl, .unlink pred cur (if_pos hcas) hpass.1.1.1 hcas hm rfl⟩
      · rename_i hcas
        exact ⟨rfl, .of_heap rfl (if_neg hcas)⟩
      · exact ⟨rfl, .of_heap rfl rfl⟩
      · exact ⟨rfl, .of_heap rfl rfl⟩
      · exact ⟨rfl, .of_heap rfl rfl⟩
      · rename_i hs
        exact ⟨domainStep_mHead hs, .of_heap (domainStep_heap hs) rfl⟩
    · revert hn
      fun_cases nextReturn mHash t act s p <;> intro hn <;> cases hn <;>
        exact ⟨rfl, .of_heap rfl rfl⟩

/-- What a step does to the nodes of the list. -/
theorem next_list (hG : Shape mHash g s) (hp : Placed mHash g s t p)
    (hn : next mHash t act s p = some (s', p')) (hG' : Shape mHash g' s') :
    unlinks s p = none ∧ g'.list = g.list ∨
    unlinks s p = none ∧ (∃ c h pred cur a, p = .insertCas c h pred cur ∧ c.newNode = some a ∧
      (s.heap pred).mNext = (some cur, false) ∧ s' = s.setNext pred (some a, false) ∧
        ∀ b, b ∈ g'.list ↔ b = a ∨ b ∈ g.list) ∨
    ∃ a, unlinks s p = some a ∧ a ∈ g.list ∧ s.marked a = true ∧
      ∀ b, b ∈ g'.list ↔ b ∈ g.list ∧ b ≠ a := by
  obtain ⟨hh, hsp⟩ := next_splice hG hp hn
  have hseg := hG'.seg
  rw [hh] at hseg
  cases hsp with
  | same h hu => exact .inl ⟨hu, Seg.unique hseg (hG.seg.congr h)⟩
  | link c h pred cur a hpc ha hcas hs =>
    subst hpc hs
    obtain ⟨hcall, hat⟩ := hp
    obtain ⟨-, hpub, -⟩ := (hcall c rfl).2 a ha
    have hpred := hG.mem_of_unmarked hat.1.1.1.1.1 (congrArg Prod.snd hcas)
    obtain ⟨q, hq, hmem, -⟩ := hG.seg.insert hpred (fun hm => hpub (hG.listed a hm).1)
      ((hat.2 a ha).trans (congrArg Prod.fst hcas).symm)
    rw [setNext_links] at hseg
    obtain rfl := Seg.unique hseg hq
    exact .inr (.inl ⟨rfl, c, h, pred, cur, a, rfl, ha, hcas, rfl, hmem⟩)
  | unlink pred cur hu hpub hcas hm hs =>
    subst hs
    have hpred := hG.mem_of_unmarked hpub (congrArg Prod.snd hcas)
    have hl : s.links pred = some cur := congrArg Prod.fst hcas
    obtain ⟨q, hq, hmem, -⟩ := hG.seg.unlink hpred hl
    rw [setNext_links] at hseg
    obtain rfl := Seg.unique hseg hq
    exact .inr (.inr ⟨cur, hu, hG.seg.next_mem hpred hl, hm, hmem⟩)

omit [DecidableEq τ] [DecidableEq A] [DecidableEq K] in
theorem claimed_dropping {c : Caller A K V} {h : Holders} {mark : Bool} {site : Site A}
    {q : Option A} (hn : claimed c h mark site q = some p') : p'.dropping = none := by
  revert hn
  fun_cases claimed (τ := τ) c h mark site q <;> intro hn
  case case4 =>
    obtain ⟨a, -, rfl⟩ := Option.map_eq_some_iff.1 hn
    rfl
  all_goals
    cases hn
    try rfl

omit [DecidableEq τ] [DecidableEq A] [DecidableEq K] in
theorem PC.dropping_of_retires (h : p.retires = some a) : p.dropping = some a := by
  cases p <;> first | exact h | cases h

omit [DecidableEq τ] [DecidableEq A] [DecidableEq K] in
theorem Sound.unlinked {c : Conf τ (Shared τ A K V) (PC τ A K V)}
    (hS : Sound mHash g c) (hd : (c.pc t).dropping = some a) : Unlinked g t a := by
  have hat := (hS.2.2 t).2
  cases hp : c.pc t <;> rw [hp] at hd hat <;> cases hd
  · exact hat.2.1
  · exact hat.2.1
  · exact hat
  · exact hat

theorem next_retires (hr : p.retires = some a) (hn : next mHash t act s p = some (s', p')) :
    s'.domain = s.domain.retire t a := by
  cases p <;> cases hr <;> cases act <;>
    simp only [next, nextClaim, nextFind, nextGet, nextInsert, nextRemove, nextReturn, reduceCtorEq,
      Option.some.injEq, Prod.mk.injEq] at hn
  · obtain ⟨rfl, -⟩ := hn
    rfl
  · obtain ⟨rfl, -⟩ := hn
    rfl

/-- A thread drops the node it has unlinked until it retires it. -/
theorem next_dropping (hn : next mHash t act s p = some (s', p')) : p'.dropping = some a ↔
    unlinks s p = some a ∨ p.dropping = some a ∧ p.retires = none := by
  cases hc : p.call with
  | none =>
    have hd : p'.dropping = none := by
      rcases next_begins hc hn with h | ⟨call, -, rfl | rfl⟩
      · obtain ⟨f, rfl⟩ := PC.idle h
        rfl
      · rfl
      · rfl
    obtain ⟨f, rfl⟩ := PC.idle hc
    rw [hd]
    simp [unlinks, PC.dropping, PC.retires]
  | some call =>
    rcases next_cases hc hn with ⟨a, rfl, rfl, ha, rfl, rfl⟩ | hn | hn | hn | hn | hn | hn
    · simp [unlinks, PC.dropping, PC.retires]
    · revert hn
      fun_cases nextClaim t act s p <;> intro hn
      · cases hn
        simp [unlinks, PC.dropping, PC.retires]
      · cases hn
        simp [unlinks, PC.dropping, PC.retires]
      · obtain ⟨pc, hpc, he⟩ := Option.map_eq_some_iff.1 hn
        cases he
        rw [claimed_dropping hpc]
        simp [unlinks, PC.dropping, PC.retires]
      · cases hn
        simp [unlinks, PC.dropping, PC.retires]
      · cases hn
    · revert hn
      fun_cases nextFind mHash t act s p <;> intro hn <;> cases hn <;>
        simp_all [unlinks, PC.dropping, PC.retires]
    · revert hn
      fun_cases nextGet mHash act s p <;> intro hn <;> cases hn <;>
        simp [unlinks, PC.dropping, PC.retires]
    · revert hn
      fun_cases nextInsert act s p <;> intro hn <;> cases hn <;>
        simp [unlinks, PC.dropping, PC.retires]
    · revert hn
      fun_cases nextRemove t act s p <;> intro hn <;> cases hn <;>
        simp_all [unlinks, PC.dropping, PC.retires]
    · revert hn
      fun_cases nextReturn mHash t act s p <;> intro hn <;> cases hn <;>
        simp [unlinks, PC.dropping, PC.retires]

/-- A sentinel is inserted from the bucket that `getParentIndex` gives. -/
def SentinelCalls (_ : Conf τ (Shared τ A K V) (PC τ A K V)) (l : τ × Act A K V) : Prop :=
  ∀ parent index, l.2 = .call (.insertSentinel parent index) → ∃ bucketSize e, e ≤ 62 ∧
    bucketSize.toNat = 2 ^ e ∧ index ≠ 0 ∧ index < bucketSize ∧
    parent = getParentIndex index bucketSize

/-- The list is in order, has every sentinel once, and ends at the node `last`. -/
structure Ordered (s : Shared τ A K V) (last : A) : Prop where
  chain : ∃ q, Seg s.links (some s.mHead) q none ∧ q.getLast? = some last ∧
    (q.Pairwise fun a b => (s.heap a).mHashValue ≤ (s.heap b).mHashValue) ∧
    (q.Pairwise fun a b => (s.heap a).key = none → (s.heap b).key = none →
      (s.heap a).mHashValue ≠ (s.heap b).mHashValue) ∧
    ∀ a ∈ q, (s.heap a).key = none → s.marked a = false
  hash : (s.heap last).mHashValue = maxHashValue
  key : (s.heap last).key = none

/-- What keeps the list in order beside its shape. -/
structure Tidy (mHash : K → HashValueType) (g : Ghost τ A)
    (c : Conf τ (Shared τ A K V) (PC τ A K V)) (last : A) : Prop where
  mem : last ∈ g.list
  links : c.shared.links last = none
  key : (c.shared.heap last).key = none
  hash : (c.shared.heap last).mHashValue = maxHashValue
  unique : ∀ a ∈ g.list, ∀ b ∈ g.list, (c.shared.heap a).key = none → (c.shared.heap b).key = none →
    (c.shared.heap a).mHashValue = (c.shared.heap b).mHashValue → a = b
  strict : ∀ t call, (c.pc t).call = some call → call.Strict mHash

variable {c c' : Conf τ (Shared τ A K V) (PC τ A K V)} {last : A}

omit [DecidableEq τ] [DecidableEq A] [DecidableEq K] in
theorem Tidy.ordered (hS : Sound mHash g c) (h : Tidy mHash g c last) : Ordered c.shared last := by
  obtain ⟨hG, -⟩ := hS
  refine ⟨⟨g.list, hG.seg, hG.seg.getLast?_eq h.mem h.links, ?_, ?_, fun a ha hk => ?_⟩,
    h.hash, h.key⟩
  · exact pairwise_iff_precedes.2 hG.sorted
  · refine pairwise_iff_precedes.2 fun a b hab ha hb he => ?_
    obtain rfl := h.unique a hab.mem.1 b hab.mem.2 ha hb he
    obtain ⟨q₁, q₂, hq, -, -⟩ := hG.seg.split hab.mem.1
    have hnd := hG.seg.nodup
    rw [hq] at hab hnd
    exact (List.nodup_cons.1 (List.nodup_append.1 hnd).2.1).1 ((precedes_left_iff hnd).1 hab)
  · exact (hG.sentinel a (hG.listed a ha).1 hk).1

omit [DecidableEq τ] [DecidableEq A] [DecidableEq K] in
/-- The compare-and-swap that links a node finds none with its name in the list. -/
theorem insert_fresh (hG : Shape mHash g s) {d : Caller A K V} {h : Holders} {pred cur : A}
    (hp : Placed mHash g s t (.insertCas d h pred cur)) (hs : d.call.Strict mHash)
    (hn : (s.heap pred).mNext = (some cur, false)) (hb : b ∈ g.list) :
    (s.heap b).name ≠ d.call.name mHash := by
  obtain ⟨⟨⟨⟨hpub, -⟩, hclear⟩, hle, hne⟩, -, hlt⟩ := hp.2.1
  have hpred := hG.mem_of_unmarked hpub (congrArg Prod.snd hn)
  exact hG.fresh hpred (congrArg Prod.fst hn) (hne hs) hle hlt (hclear hs) hb

omit [DecidableEq τ] [DecidableEq K] in
theorem tidy_initial {head : A} (hne : head ≠ last) (hs : c.shared = initial head last)
    (hpc : c.pc = fun _ => .domain .unstarted) (hS : Sound mHash g c) : Tidy mHash g c last := by
  have hhead : c.shared.heap head = ⟨0, none, some last, false⟩ := by
    rw [hs]
    exact if_pos rfl
  have hlast : c.shared.heap last = ⟨maxHashValue, none, none, false⟩ := by
    rw [hs]
    exact if_neg hne.symm
  have hseg : Seg c.shared.links (some c.shared.mHead) [head, last] none := by
    refine ⟨by rw [hs]; rfl, ?_, ?_⟩
    · exact congrArg (fun n : Node A K V => n.mNext.1) hhead
    · exact congrArg (fun n : Node A K V => n.mNext.1) hlast
  have hlist : g.list = [head, last] := Seg.unique hS.1.seg hseg
  have h0 : (c.shared.heap head).mHashValue ≠ (c.shared.heap last).mHashValue := by
    rw [hhead, hlast]
    show (0 : HashValueType) ≠ maxHashValue
    decide
  refine ⟨by simp [hlist], ?_, ?_, ?_, fun a ha b hb _ _ he => ?_, fun t call hc => ?_⟩
  · exact congrArg (fun n : Node A K V => n.mNext.1) hlast
  · rw [hlast]
    rfl
  · rw [hlast]
  · simp only [hlist, List.mem_cons, List.not_mem_nil, or_false] at ha hb
    rcases ha with rfl | rfl <;> rcases hb with rfl | rfl
    · rfl
    · exact absurd he h0
    · exact absurd he.symm h0
    · rfl
  · rw [hpc] at hc
    cases hc

theorem Tidy.step (hS : Sound mHash g c) (h : Tidy mHash g c last)
    (hs : (system mHash).step c (t, act) = some c') (hC : SentinelCalls c (t, act)) :
    ∃ g', Sound mHash g' c' ∧ Tidy mHash g' c' last := by
  obtain ⟨g', x, e, hE, hS'⟩ := sound_step hS hs
  obtain ⟨hn, hothers⟩ := Program.step_next hs
  have hG := hS.1
  have hlast := hE.rooted last h.mem h.key
  have hpub := (hG.listed last h.mem).1
  have hpub' := (hS'.1.listed last hlast).1
  refine ⟨g', hS', hlast, ?_, (hE.key hpub hpub').trans h.key,
    (hE.content last hpub hpub').1.trans h.hash, ?_, fun u call hc => ?_⟩
  · rcases hE.relink last hpub hpub' with h' | ⟨b, hl, -⟩ | ⟨b, d, hl, -⟩
    · exact h'.trans h.links
    · cases h.links.symm.trans hl
    · cases h.links.symm.trans hl
  · have hname : ∀ b ∈ g.list, b ∈ g'.list → (c'.shared.heap b).name = (c.shared.heap b).name :=
      fun b hb hb' => hE.name (hG.listed b hb).1 (hS'.1.listed b hb').1
    have old : ∀ a ∈ g'.list, a ∈ g.list → ∀ b ∈ g'.list, b ∈ g.list →
      (c'.shared.heap a).key = none →
        (c'.shared.heap a).name = (c'.shared.heap b).name → a = b :=
        fun a ha ha1 b hb hb1 hak he => by
      rw [hname a ha1 ha, hname b hb1 hb] at he
      have hka : (c'.shared.heap a).key = (c.shared.heap a).key :=
        congrArg Prod.snd (hname a ha1 ha)
      have hak1 := hka.symm.trans hak
      exact h.unique a ha1 b hb1 hak1 ((congrArg Prod.snd he).symm.trans hak1)
        (congrArg Prod.fst he)
    intro a ha b hb hak hbk he
    have heq : (c'.shared.heap a).name = (c'.shared.heap b).name := Prod.ext he (hak.trans hbk.symm)
    rcases next_list hG (hS.2.2 t) hn hS'.1 with
      ⟨-, hl⟩ | ⟨-, d, h', pred, cur, f, hpc, hf, hcas, hset, hl⟩ | ⟨f, -, -, -, hl⟩
    · exact old a ha (hl ▸ ha) b hb (hl ▸ hb) hak heq
    · -- no node of the list has the name of the new one
      have hplaced := hS.2.2 t
      have hstrict := h.strict t d.call
      rw [hpc] at hplaced hstrict
      obtain ⟨-, -, hfn, -⟩ := (hplaced.1 d rfl).2 f hf
      have hfresh : ∀ b ∈ g.list, (c.shared.heap b).name ≠ (c.shared.heap f).name := fun b hb => by
        rw [hfn]
        exact insert_fresh hG hplaced (hstrict rfl) hcas hb
      rw [hset, setNext_name, setNext_name] at heq
      rcases (hl a).1 ha with rfl | ha1 <;> rcases (hl b).1 hb with rfl | hb1
      · rfl
      · exact absurd heq.symm (hfresh b hb1)
      · exact absurd heq (hfresh a ha1)
      · exact old a ha ha1 b hb hb1 hak (by simpa [hset] using heq)
    · exact old a ha ((hl a).1 ha).1 b hb ((hl b).1 hb).1 hak heq
  · by_cases hu : u = t
    · subst hu
      cases hc' : (c.pc u).call with
      | none =>
        rcases next_begins hc' hn with h1 | ⟨call', rfl, h1⟩
        · cases h1.symm.trans hc
        · obtain ⟨hcall, -⟩ := hS'.2.2 u
          have hleg : call.Legal mHash ∧ call' = call := by
            rcases h1 with h1 | h1 <;> rw [h1] at hc hcall <;> cases hc <;>
              exact ⟨(hcall _ rfl).1, rfl⟩
          obtain ⟨hleg, rfl⟩ := hleg
          cases call' with
          | insertSentinel parent index =>
            obtain ⟨bucketSize, k, hk, hb, h0, hlt, rfl⟩ := hC parent index rfl
            exact makeSentinelKey_parent hk hb h0 hlt
          | _ => exact hleg.strict nofun
      | some call' =>
        rcases next_call hc' hn with h1 | ⟨h1, -⟩
        · cases h1.symm.trans hc
        · cases h1.symm.trans hc
          exact h.strict u call hc'
    · rw [hothers u hu] at hc
      exact h.strict u call hc

section Run

variable {C : Conf τ (Shared τ A K V) (PC τ A K V) → τ × Act A K V → Prop} {n i j : ℕ}
  (r : (system mHash).Run C n)

/-- The node leaves the list in the step at `i`. -/
def Leaves (a : A) (i : ℕ) : Prop :=
  (r.state i).shared.Linked a ∧ ¬ (r.state (i + 1)).shared.Linked a

/-- The step at `i` gives the node to `HPDomain::retire`. -/
def Retires (a : A) (i : ℕ) : Prop := ((r.state i).pc (r.label i).1).retires = some a

/-- Between the steps at `i` and `j` the address is not handed out again. -/
def Kept (a : A) (i j : ℕ) : Prop := ∀ m, i < m → m < j → (r.label m).2 ≠ .alloc a

/-- The list in every state of a run, and what becomes of the nodes that leave it. -/
structure Lifecycle : Prop where
  ordered : ∃ last, ∀ i ≤ n, Ordered (r.state i).shared last
  unlinked : ∀ i < n, ∀ a, Leaves r a i ↔
    unlinks (r.state i).shared ((r.state i).pc (r.label i).1) = some a
  marked : ∀ i < n, ∀ a, Leaves r a i → (r.state i).shared.marked a = true
  gone : ∀ i j a, i < j → j ≤ n → Leaves r a i → Kept r a i j → ¬ (r.state j).shared.Linked a
  unlinked_before : ∀ j < n, ∀ a, Retires r a j → ∃ i < j, Leaves r a i ∧ Kept r a i j
  retired_once : ∀ i j a, i < j → j < n → Leaves r a i → Kept r a i j → Retires r a j →
    (r.label j).1 = (r.label i).1 ∧ ∀ m, i < m → m < j → ¬ Retires r a m
  retired : ∀ i j a, i < j → j ≤ n → Leaves r a i →
    (∃ call res, (r.state j).pc (r.label i).1 = .returned call res) →
      ∃ m, i < m ∧ m < j ∧ (r.label m).1 = (r.label i).1 ∧ Retires r a m ∧ Kept r a i m

theorem leaves_iff (hi : i < n) : Leaves r a i ↔
    unlinks (r.state i).shared ((r.state i).pc (r.label i).1) = some a := by
  obtain ⟨g, hS⟩ := sound_reach (r.reach hi.le)
  obtain ⟨g', x, e, -, hS'⟩ := sound_step hS (r.step i hi)
  obtain ⟨hn, -⟩ := Program.run_step r hi
  rw [Leaves, hS.1.linked_iff, hS'.1.linked_iff]
  rcases next_list hS.1 (hS.2.2 _) hn hS'.1 with ⟨hu, hl⟩ |
    ⟨hu, d, h, pred, cur, f, -, -, -, -, hl⟩ |
    ⟨f, hu, hf, -, hl⟩
  · rw [hu, hl]
    simp
  · rw [hu, hl]
    simp +contextual
  · rw [hu, hl]
    constructor
    · rintro ⟨h1, h2⟩
      have : ¬ a ≠ f := fun hne => h2 ⟨h1, hne⟩
      rw [not_not.1 this]
    · intro he
      obtain rfl := Option.some.inj he
      exact ⟨hf, fun h => h.2 rfl⟩

/-- A thread that drops a node has unlinked it. -/
theorem dropping_since (hj : j ≤ n) (hd : ((r.state j).pc t).dropping = some a) :
    ∃ i < j, (r.label i).1 = t ∧ Leaves r a i ∧
      ∀ m, i < m → m ≤ j → ((r.state m).pc t).dropping = some a := by
  induction j with
  | zero =>
    rw [r.init.2] at hd
    cases hd
  | succ j ih =>
    obtain ⟨hn, hothers⟩ := Program.run_step r hj
    have later : ((r.state j).pc t).dropping = some a → ∃ i < j + 1, (r.label i).1 = t ∧
        Leaves r a i ∧ ∀ m, i < m → m ≤ j + 1 → ((r.state m).pc t).dropping = some a := fun h => by
      obtain ⟨i, hi, ht, hl, hall⟩ := ih (by omega) h
      refine ⟨i, by omega, ht, hl, fun m h1 h2 => ?_⟩
      rcases Nat.le_succ_iff.1 h2 with h2 | rfl
      · exact hall m h1 h2
      · exact hd
    by_cases ht : t = (r.label j).1
    · subst ht
      rcases (next_dropping hn).1 hd with hu | ⟨hd', -⟩
      · refine ⟨j, by omega, rfl, (leaves_iff r hj).2 hu, fun m h1 h2 => ?_⟩
        rwa [show m = j + 1 by omega]
      · exact later hd'
    · exact later (hothers t ht ▸ hd)

theorem alloc_free (hn : next mHash t (.alloc a) s p = some (s', p')) : ¬ s.allocated a = true := by
  cases hc : p.call with
  | none =>
    obtain ⟨f, rfl⟩ := PC.idle hc
    simp [next] at hn
  | some call => exact (next_alloc hc hn).1

/-- A node that has left the list stays out of it. -/
theorem left_since (hij : i < j) (hj : j ≤ n) (hl : Leaves r a i) (hk : Kept r a i j) :
    ∃ g, Sound mHash g (r.state j) ∧ a ∈ g.published ∧ a ∉ g.list := by
  induction j, hij using Nat.le_induction with
  | base =>
    obtain ⟨g, hS⟩ := sound_reach (r.reach (show i ≤ n by omega))
    obtain ⟨g', x, e, hE, hS'⟩ := sound_step hS (r.step i hj)
    obtain ⟨hn, -⟩ := Program.run_step r hj
    obtain ⟨h1, h2⟩ := hl
    rw [hS.1.linked_iff] at h1
    rw [hS'.1.linked_iff] at h2
    refine ⟨g', hS', (hE.published a (hS.1.listed a h1).1).resolve_right fun hact => ?_, h2⟩
    rw [hact] at hn
    exact alloc_free hn (hS.1.allocated a (.inl h1))
  | succ j hij ih =>
    obtain ⟨g, hS, h1, h2⟩ := ih (by omega) fun m h3 h4 => hk m h3 (by omega)
    obtain ⟨g', x, e, hE, hS'⟩ := sound_step hS (r.step j hj)
    exact ⟨g', hS', (hE.published a h1).resolve_right (hk j hij (by omega)),
      fun h => h2 (hE.listed a h1 h)⟩

/-- Once it is retired nobody has it. -/
theorem retired_since (hij : i < j) (hj : j ≤ n) (hr : Retires r a i) (hk : Kept r a i j) :
    ∃ g, Sound mHash g (r.state j) ∧ a ∈ g.published ∧ a ∉ g.list ∧ g.owner a = none := by
  induction j, hij using Nat.le_induction with
  | base =>
    obtain ⟨g', hS'⟩ := sound_reach (r.reach hj)
    obtain ⟨hn, -⟩ := Program.run_step r hj
    have hdom := next_retires hr hn
    have hret : a ∈ g'.hazards.retired := by
      refine (hS'.2.1.lists.mem a).2 (.inr ⟨(r.label i).1, ?_⟩)
      rw [hdom]
      simp [Domain.retire, Domain.setLocal]
    refine ⟨g', hS', (hS'.1.retired a hret).1, fun hl => (hS'.1.listed a hl).2.1 hret, ?_⟩
    exact (hS'.1.retired a hret).2
  | succ j hij ih =>
    obtain ⟨g, hS, h1, h2, h3⟩ := ih (by omega) fun m h3 h4 => hk m h3 (by omega)
    obtain ⟨g', x, e, hE, hS'⟩ := sound_step hS (r.step j hj)
    have hact := hk j hij (by omega)
    refine ⟨g', hS', (hE.published a h1).resolve_right hact, fun h => h2 (hE.listed a h1 h), ?_⟩
    by_contra ho
    rcases hE.gained a ho with h | h | h
    · exact h h3
    · exact h2 h
    · exact hact h

/-- Nobody is handed a node that is to be retired. -/
theorem dropping_kept (hj : j ≤ n)
    (hd : ∀ m, i < m → m < j → ((r.state m).pc t).dropping = some a) : Kept r a i j := by
  intro m h1 h2 hact
  obtain ⟨g, hS⟩ := sound_reach (r.reach (show m ≤ n by omega))
  obtain ⟨hn, -⟩ := Program.run_step r (show m < n by omega)
  rw [hact] at hn
  have ho := hS.unlinked (hd m h1 h2)
  exact alloc_free hn (hS.1.allocated a (.inr (.inr (by simp [ho.1]))))

/-- A node leaves the list once. -/
theorem leaves_unique {i' : ℕ} (hi : i < j) (hi' : i' < j) (hj : j ≤ n) (hl : Leaves r a i)
    (hl' : Leaves r a i') (hk : Kept r a i j) (hk' : Kept r a i' j) : i = i' := by
  have before : ∀ i i', i < i' → i' < j → Leaves r a i → Leaves r a i' → Kept r a i j → False :=
    fun i i' h1 h2 h3 h4 h5 => by
      obtain ⟨g, hS, -, h6⟩ := left_since r h1 (by omega) h3 fun m h7 h8 => h5 m h7 (by omega)
      exact h6 (hS.1.linked_iff.1 h4.1)
  rcases Nat.lt_trichotomy i i' with h | h | h
  · exact (before i i' h hi' hl hl' hk).elim
  · exact h
  · exact (before i' i h hi hl' hl hk').elim

/-- A thread that drops a node goes on until it retires it. -/
theorem dropping_until (hij : i ≤ j) (hj : j ≤ n) (hd : ((r.state i).pc t).dropping = some a) :
    ((r.state j).pc t).dropping = some a ∧
    (∀ m, i ≤ m → m ≤ j → ((r.state m).pc t).dropping = some a) ∨
      ∃ m, i ≤ m ∧ m < j ∧ (r.label m).1 = t ∧ Retires r a m ∧
        ∀ k, i ≤ k → k ≤ m → ((r.state k).pc t).dropping = some a := by
  induction j, hij using Nat.le_induction with
  | base => exact .inl ⟨hd, fun m h1 h2 => le_antisymm h2 h1 ▸ hd⟩
  | succ j hij ih =>
    obtain ⟨hn, hothers⟩ := Program.run_step r hj
    rcases ih (by omega) with ⟨hlast, hall⟩ | ⟨m, h1, h2, h3⟩
    · have keep : ((r.state (j + 1)).pc t).dropping = some a → ∀ m, i ≤ m → m ≤ j + 1 →
          ((r.state m).pc t).dropping = some a := fun h m h1 h2 => by
        rcases Nat.le_succ_iff.1 h2 with h2 | rfl
        · exact hall m h1 h2
        · exact h
      by_cases ht : t = (r.label j).1
      · cases hret : ((r.state j).pc t).retires with
        | none =>
          have hnext : ((r.state (j + 1)).pc t).dropping = some a := by
            subst ht
            exact (next_dropping hn).2 (.inr ⟨hlast, hret⟩)
          exact .inl ⟨hnext, keep hnext⟩
        | some b =>
          obtain rfl : b = a := Option.some.inj ((PC.dropping_of_retires hret).symm.trans hlast)
          refine .inr ⟨j, hij, by omega, ht.symm, ?_, hall⟩
          rw [Retires, ← ht]
          exact hret
      · have hnext := hlast
        rw [← hothers t ht] at hnext
        exact .inl ⟨hnext, keep hnext⟩
    · exact .inr ⟨m, h1, by omega, h3⟩

/-- The list stays in order, and a node that leaves it is retired once, by the thread that has
unlinked it. -/
theorem lifecycle (r : (system mHash).Run (SentinelCalls (τ := τ) (A := A) (V := V)) n) :
    Lifecycle r := by
  refine ⟨?_, fun i hi a => leaves_iff r hi, fun i hi a hl => ?_, fun i j a hij hj hl hk => ?_,
    fun j hj a hr => ?_, fun i j a hij hj hl hk hr => ?_, fun i j a hij hj hl hret => ?_⟩
  · obtain ⟨⟨head, last, hne, hs⟩, hpc⟩ := r.init
    have tidy : ∀ i ≤ n, ∃ g, Sound mHash g (r.state i) ∧
        Tidy mHash g (r.state i) last := fun i => by
      induction i with
      | zero =>
        intro _
        obtain ⟨g, hS⟩ := sound_reach (r.reach (Nat.zero_le n))
        exact ⟨g, hS, tidy_initial hne hs hpc hS⟩
      | succ i ih =>
        intro hi
        obtain ⟨g, hS, hT⟩ := ih (by omega)
        exact hT.step hS (r.step i hi) (r.meets i hi)
    refine ⟨last, fun i hi => ?_⟩
    obtain ⟨g, hS, hT⟩ := tidy i hi
    exact hT.ordered hS
  · obtain ⟨g, hS⟩ := sound_reach (r.reach hi.le)
    obtain ⟨g', x, e, -, hS'⟩ := sound_step hS (r.step i hi)
    obtain ⟨hn, -⟩ := Program.run_step r hi
    have hu := (leaves_iff r hi).1 hl
    rcases next_list hS.1 (hS.2.2 _) hn hS'.1 with ⟨hno, -⟩ | ⟨hno, -⟩ | ⟨b, hb, -, hm, -⟩
    · cases hno.symm.trans hu
    · cases hno.symm.trans hu
    · cases hb.symm.trans hu
      exact hm
  · obtain ⟨g, hS, -, h⟩ := left_since r hij hj hl hk
    exact fun hlink => h (hS.1.linked_iff.1 hlink)
  · obtain ⟨i, hi, ht, hl, hall⟩ := dropping_since r hj.le (PC.dropping_of_retires hr)
    exact ⟨i, hi, hl, dropping_kept r hj.le fun m h1 h2 => hall m h1 h2.le⟩
  · obtain ⟨i', hi', ht, hl', hall⟩ := dropping_since r hj.le (PC.dropping_of_retires hr)
    have hk' := dropping_kept r hj.le fun m h1 h2 => hall m h1 h2.le
    obtain rfl := leaves_unique r hij hi' hj.le hl hl' hk hk'
    refine ⟨ht.symm, fun m h1 h2 hrm => ?_⟩
    obtain ⟨g, hS, -, -, h3⟩ := retired_since r h2 hj.le hrm fun k h4 h5 => hk k (by omega) h5
    have ho := hS.unlinked (hall j hi' le_rfl)
    cases h3.symm.trans ho.1
  · obtain ⟨hn, -⟩ := Program.run_step r (show i < n by omega)
    have hd : ((r.state (i + 1)).pc (r.label i).1).dropping = some a :=
      (next_dropping hn).2 (.inl ((leaves_iff r (by omega)).1 hl))
    rcases dropping_until r (show i + 1 ≤ j by omega) hj hd with ⟨h1, -⟩ | ⟨m, h1, h2, h3, h4, h5⟩
    · obtain ⟨call, res, hpc⟩ := hret
      rw [hpc] at h1
      cases h1
    · exact ⟨m, by omega, h2, h3, h4, dropping_kept r (by omega) fun k h6 h7 => h5 k h6 h7.le⟩

end Run

/-- Two threads insert the sentinel of bucket 1, and the node of the second one goes. At its address
a node is added behind the sentinel; a `remove` of the other thread unlinks it and retires it. -/
theorem lifecycle_sentinel : ∃ r : (system fun _ => 1).Run
    (SentinelCalls (τ := Fin 2) (A := ℕ) (K := ℕ) (V := ℕ)) 98,
    (∀ i ∈ [16, 18], (r.label i).2 = .call (.insertSentinel 0 1)) ∧
      (r.state 59).shared.mBuckets 1 = some 2 ∧ (r.state 59).shared.allocated 3 = false ∧
        Leaves r 3 95 ∧ Retires r 3 97 ∧ Lifecycle r := by
  let run (t : Fin 2) (n : ℕ) : List (Fin 2 × Act ℕ ℕ ℕ) := List.replicate n (t, .run true)
  let as : List (Fin 2 × Act ℕ ℕ ℕ) := run 0 8 ++ run 1 8 ++ (0, .call (.insertSentinel 0 1)) ::
    (0, .alloc 2) :: (1, .call (.insertSentinel 0 1)) :: (1, .alloc 3) :: run 0 21 ++ run 1 18 ++
    (0, .call (.add 1 5 7)) :: (0, .alloc 3) :: run 0 19 ++ (1, .call (.remove 1 5)) :: run 1 17
  let c₀ : Conf (Fin 2) (Shared (Fin 2) ℕ ℕ ℕ) (PC (Fin 2) ℕ ℕ ℕ) :=
    ⟨initial 0 1, fun _ => .domain .unstarted⟩
  have hend : ((system fun _ => 1).exec c₀ as).isSome = true := by decide +kernel
  have h59 : ((system fun _ => 1).exec c₀ (as.take 59)).any (fun c =>
      c.shared.mBuckets 1 = some 2 ∧ c.shared.allocated 3 = false) = true := by decide +kernel
  have h95 : ((system fun _ => 1).exec c₀ (as.take 95)).any (fun c =>
      unlinks c.shared (c.pc 1) = some 3) = true := by decide +kernel
  have h97 : ((system fun _ => 1).exec c₀ (as.take 97)).any (fun c =>
      (c.pc 1).retires = some 3) = true := by decide +kernel
  obtain ⟨c, hc⟩ := Option.isSome_iff_exists.1 hend
  have hinit : (system fun _ => 1).init c₀ := ⟨⟨0, 1, by decide, rfl⟩, rfl⟩
  have hall : ∀ l ∈ as, ∀ parent index, l.2 = .call (.insertSentinel parent index) →
      parent = 0 ∧ index = 1 := by
    simp +contextual [as, run]
  obtain ⟨r, hr, hl⟩ := System.exists_run (0, .run true) hinit hc (C := SentinelCalls)
    fun i hi s _ parent index h => by
      obtain ⟨rfl, rfl⟩ := hall _ (List.getElem_mem hi) parent index h
      exact ⟨2, 1, by decide, by decide, by decide, by decide, by decide⟩
  rw [hr 59 (by decide), Option.any_some, decide_eq_true_eq] at h59
  rw [hr 95 (by decide), Option.any_some, decide_eq_true_eq] at h95
  rw [hr 97 (by decide), Option.any_some, decide_eq_true_eq] at h97
  refine ⟨r, fun i hi => ?_, h59.1, h59.2, (leaves_iff r (by decide)).2 ?_, ?_, lifecycle r⟩
  · rcases List.mem_pair.1 hi with rfl | rfl
    · exact congrArg Prod.snd (hl 16 (by decide))
    · exact congrArg Prod.snd (hl 18 (by decide))
  · rw [hl 95 (by decide)]
    exact h95
  · rw [Retires, hl 97 (by decide)]
    exact h97

end LockFreeHashMap

end ConcurrencySandbox

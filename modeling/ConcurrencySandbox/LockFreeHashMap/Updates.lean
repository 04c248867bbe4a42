import ConcurrencySandbox.LockFreeHashMap.Calls

/-!
# Updates are linearizable

A call that returns true has made its own change (`decided`). One that returns false has seen the
key there, or not there: the node `find` stops at was unmarked when its link was validated, so `add`
found its key in the list (`Missed`); and `remove` did not find its key where the list, at the last
node that `find` has passed, went on behind it (`Skipped`). No update reads or writes a node that
was deleted (`updates_live`).
-/

namespace ConcurrencySandbox

open Interleaving Structures HazardPointer

namespace LockFreeHashMap

variable {τ A K V : Type*}

/-- What the successful compare-and-swap of an update does to what the list holds. -/
def Call.change : Call K V → Change K V
  | .add _ key value => .add key value
  | .remove _ key => .remove key
  | _ => .none

/-- The node whose link is claimed. -/
def Site.node : Site A → Option A
  | .head => none
  | .cur a | .succ _ a => some a

/-- The node whose fields the next step reads or writes. -/
def PC.visits : PC τ A K V → Option A
  | .claimLoad _ _ site | .claimCheck _ _ site _ => site.node
  | .findUnlink _ _ pred _ _ | .insertCas _ _ pred _ | .removeUnlink _ _ pred _ _ => some pred
  | .findTest _ _ _ cur _ | .getTest _ _ _ cur _ | .found _ _ _ cur | .removeLoad _ _ _ cur
  | .removeMark _ _ _ cur _ => some cur
  | .insertStore c _ _ _ | .delete c _ => c.newNode
  | _ => none

def Shared.Present (s : Shared τ A K V) (key : K) : Prop := ∃ value, s.Holds key value

/-- As long as an `add` has not seen its key: `find` does not stand at a node with it. -/
def Missed (x : HashValueType × Option K) (s : Shared τ A K V) : PC τ A K V → Prop
  | .findTest _ _ _ cur _ | .findReturn _ _ _ cur | .found _ _ _ cur => (s.heap cur).name ≠ x
  | p => p.result ≠ some (.bool false)

def Site.Ahead (x : HashValueType × Option K) (s : Shared τ A K V) : Site A → Prop
  | .succ _ a => ¬ x.1 < (s.heap a).mHashValue
  | _ => True

/-- As long as a `remove` has not seen its key missing: `find` is not behind it. -/
def Skipped (x : HashValueType × Option K) (s : Shared τ A K V) : PC τ A K V → Prop
  | .claimLoad _ _ site | .claimStore _ _ site _ | .claimCheck _ _ site _ => site.Ahead x s
  | .findDrop _ _ _ _ succ | .findRetire _ _ _ _ succ | .findRetiring _ _ _ _ succ =>
    ∀ q, succ = some q → ¬ x.1 < (s.heap q).mHashValue
  | .findTest _ _ _ cur succ => ¬ x.1 < (s.heap cur).mHashValue ∧
      ∀ q, succ = some q → (s.heap cur).name ≠ x → ¬ x.1 < (s.heap q).mHashValue
  | .findReturn _ _ _ cur | .found _ _ _ cur => ¬ x.1 < (s.heap cur).mHashValue
  | p => p.result ≠ some (.bool false)

variable {mHash : K → HashValueType}
  {g g' : Ghost τ A} {s s' : Shared τ A K V} {t u : τ} {act : Act A K V} {p p' : PC τ A K V}
  {call : Call K V} {c : Caller A K V} {h : Holders} {site : Site A} {k : K}

theorem Placed.live (hG : Shape mHash g s) (hp : Placed mHash g s t p) (hc : p.call = some call)
    (hget : call.isGet = false) {a : A} (ha : p.visits = some a) : s.allocated a = true := by
  obtain ⟨hcall, hat⟩ := hp
  have hnew : ∀ c, p.caller = some c → c.newNode = some a → s.allocated a = true :=
      fun c hc ha => by
    have howner := ((hcall c hc).2 a ha).1
    exact hG.allocated a (.inr (.inr (by simp [howner])))
  have standing : ∀ {c : Caller A K V} {h : Holders} {site : Site A},
      Standing mHash g s t c h site → site.node = some a → s.allocated a = true :=
    fun {c h site} hst ha => by
      cases site with
      | head => cases ha
      | cur pred =>
        cases ha
        exact hst.1.1.1.2.1
      | succ pred cur =>
        cases ha
        exact hst.2.1.2.1
  cases p <;> cases hc <;> try cases ha
  case claimLoad.refl => exact standing (hat hget) ha
  case claimCheck.refl => exact standing (hat.1 hget) ha
  case insertStore.refl => exact hnew _ rfl ha
  case delete.refl => exact hnew _ rfl ha
  case findUnlink.refl.refl => exact hat.1.1.1.1.2.1
  case findTest.refl.refl => exact hat.2.1.1.2.1
  case getTest.refl.refl => exact absurd (hat.symm.trans hget) (by decide)
  case found.refl.refl => exact hat.2.1.2.1
  case insertCas.refl.refl => exact hat.1.1.1.1.2.1
  case removeLoad.refl.refl => exact hat.2.1.2.1
  case removeMark.refl.refl => exact hat.2.1.2.1
  case removeUnlink.refl.refl => exact hat.1.1.1.2.1

/-- The list holds the key of a node that is not marked. -/
theorem Shape.present (hG : Shape mHash g s) {a : A} (ha : a ∈ g.list) (hm : s.marked a = false)
    (hk : (s.heap a).key = some k) : s.Present k := by
  obtain ⟨⟨k', v⟩, hv, rfl⟩ := Option.map_eq_some_iff.1 hk
  exact ⟨v, hG.holds_iff.2 ⟨a, ha, hm, hv⟩⟩

/-- A key is absent when the list goes on behind it after a node that `find` has passed. -/
theorem Shape.absent (hG : Shape mHash g s) {a b : A} (ha : a ∈ g.list) (hl : s.links a = some b)
    (hk : call.key = some k) (hx : (s.heap a).name ≠ call.name mHash)
    (hle : (s.heap a).mHashValue ≤ call.hashValue mHash)
    (hlt : call.hashValue mHash < (s.heap b).mHashValue) (hc : Clear g s (call.name mHash) a) :
    ¬ s.Present k := by
  rintro ⟨v, hv⟩
  obtain ⟨m, hm, -, hmv⟩ := hG.holds_iff.1 hv
  have hmk : (s.heap m).key = some k := by
    rw [Node.key, hmv]
    rfl
  refine hG.fresh ha hl hx hle hlt hc hm (Prod.ext ?_ (hmk.trans hk.symm))
  exact (hG.ordinary m (hG.listed m hm).1 k hmk).trans (Call.hashValue_of_key hk).symm

/-- `find` has claimed the node behind an unmarked one. -/
theorem missed_claimed (hG : Shape mHash g s)
    (hst : c.call.isGet = false → Standing mHash g s t c h site) (hget : c.call.isGet = false)
    (hk : c.call.key = some k) {q : Option A}
    (hn : claimed c h (s.read c.call.slot site).2 site q = some p') :
    s.Present k ∨ Missed (c.call.name mHash) s p' := by
  revert hn
  fun_cases claimed (τ := τ) c h (s.read c.call.slot site).2 site q <;> intro hn
  · cases hn
    exact .inr (by rintro ⟨⟩)
  · cases hn
    exact .inr (by rintro ⟨⟩)
  · cases hn
    exact .inr (by rintro ⟨⟩)
  · rename_i hget'
    rw [hget] at hget'
    cases hget'
  · cases hn
    exact .inr (by rintro ⟨⟩)
  · rename_i pred cur _ hm
    cases hn
    obtain ⟨-, hmet⟩ := hst hget
    have hm' : s.marked cur = false := Bool.eq_false_of_not_eq_true hm
    by_cases hname : (s.heap cur).name = c.call.name mHash
    · refine .inl (hG.present (hG.mem_of_unmarked hmet.1.1 hm') hm' ?_)
      exact (congrArg Prod.snd hname).trans hk
    · exact .inr hname
  · cases hn

theorem skipped_claimed (hG : Shape mHash g s) (hleg : c.call.Legal mHash)
    (hst : c.call.isGet = false → Standing mHash g s t c h site) (hget : c.call.isGet = false)
    (hk : c.call.key = some k) {q : Option A} (hq : q = (s.read c.call.slot site).1)
    (hn : claimed c h (s.read c.call.slot site).2 site q = some p')
    (hp : site.Ahead (c.call.name mHash) s) :
    ¬ s.Present k ∨ Skipped (c.call.name mHash) s p' := by
  have hs : c.call.Strict mHash := hleg.strict (by simp [hk])
  revert hn
  fun_cases claimed (τ := τ) c h (s.read c.call.slot site).2 site q <;> intro hn
  · cases hn
    exact .inr trivial
  · cases hn
    exact .inr (by rintro ⟨⟩)
  · -- behind the sentinel
    rename_i pred q _
    cases hn
    obtain ⟨hpass, hsent⟩ := hst hget
    have hpred := hG.mem_of_unmarked hpass.1.1.1 (hG.sentinel pred hpass.1.1.1 hsent).1
    by_cases hlt : c.call.hashValue mHash < (s.heap q).mHashValue
    · exact .inl (hG.absent hpred hq.symm hk (hpass.2.2 hs) hpass.2.1 hlt (hpass.1.2 hs))
    · exact .inr hlt
  · rename_i hget'
    rw [hget] at hget'
    cases hget'
  · cases hn
    exact .inr (by rintro ⟨⟩)
  · -- behind a node that is not marked
    rename_i pred cur _ hm
    cases hn
    obtain ⟨-, hmet⟩ := hst hget
    have hcur := hG.mem_of_unmarked hmet.1.1 (Bool.eq_false_of_not_eq_true hm)
    by_cases hseen : ∃ q, s.links cur = some q ∧ (s.heap cur).name ≠ c.call.name mHash ∧
        c.call.hashValue mHash < (s.heap q).mHashValue
    · obtain ⟨q, hl, hname, hlt⟩ := hseen
      exact .inl (hG.absent hcur hl hk hname (Std.not_lt.1 hp) hlt (hmet.2 hs))
    · exact .inr ⟨hp, fun q hl hname hlt => hseen ⟨q, hq.symm.trans hl, hname, hlt⟩⟩
  · cases hn

section Steps

variable [DecidableEq τ] [DecidableEq A]

section Seen

variable {x : Option A} {δ : Change K V} {e : Hazards.Event (τ × ℕ) A}
  (hE : Effect mHash u act x δ g g' s s' e)
include hE

/-- What a thread has seen of the nodes it stands at stays. -/
theorem Missed.effect {y : HashValueType × Option K} (hp : Placed mHash g s t p)
    (hp' : Placed mHash g' s' t p) (h : Missed y s p) : Missed y s' p := by
  obtain ⟨-, hp⟩ := hp
  obtain ⟨-, hp'⟩ := hp'
  cases p with
  | findTest _ _ _ cur _ =>
    show (s'.heap cur).name ≠ y
    rw [hE.name hp.2.1.1.1 hp'.2.1.1.1]
    exact h
  | findReturn _ _ _ cur | found _ _ _ cur =>
    show (s'.heap cur).name ≠ y
    rw [hE.name hp.2.1.1 hp'.2.1.1]
    exact h
  | _ => exact h

theorem Skipped.effect {y : HashValueType × Option K} (hget : call.isGet = false)
    (hc : p.call = some call) (hp : Placed mHash g s t p) (hp' : Placed mHash g' s' t p)
    (h : Skipped y s p) : Skipped y s' p := by
  obtain ⟨-, hp⟩ := hp
  obtain ⟨-, hp'⟩ := hp'
  cases p with
  | claimLoad c _ site | claimStore c _ site _ =>
    cases hc
    cases site with
    | succ pred cur =>
      show ¬ y.1 < (s'.heap cur).mHashValue
      rw [(hE.content cur (hp hget).2.1.1 (hp' hget).2.1.1).1]
      exact h
    | _ => exact h
  | claimCheck c _ site _ =>
    cases hc
    cases site with
    | succ pred cur =>
      show ¬ y.1 < (s'.heap cur).mHashValue
      rw [(hE.content cur (hp.1 hget).2.1.1 (hp'.1 hget).2.1.1).1]
      exact h
    | _ => exact h
  | findDrop _ _ _ _ succ | findRetire _ _ _ _ succ | findRetiring _ _ _ _ succ =>
    intro q hq
    rw [(hE.content q (hp.2.2 q hq).1.1 (hp'.2.2 q hq).1.1).1]
    exact h q hq
  | findTest _ _ _ cur succ =>
    have hcur := hE.content cur hp.2.1.1.1 hp'.2.1.1.1
    refine ⟨?_, fun q hq => ?_⟩
    · rw [hcur.1]
      exact h.1
    · rw [hE.name hp.2.1.1.1 hp'.2.1.1.1, (hE.content q (hp.2.2 q hq).1.1 (hp'.2.2 q hq).1.1).1]
      exact h.2 q hq
  | findReturn _ _ _ cur | found _ _ _ cur =>
    show ¬ y.1 < (s'.heap cur).mHashValue
    rw [(hE.content cur hp.2.1.1 hp'.2.1.1).1]
    exact h
  | _ => exact h

end Seen

omit [DecidableEq τ] in
/-- At the node that it has found an update answers `true`, if it answers. -/
theorem insert_undecided {x : HashValueType × Option K} (hn : nextInsert act s p = some (s', p')) :
    Missed x s' p' ∧ Skipped x s' p' := by
  revert hn
  fun_cases nextInsert act s p <;> intro hn <;> cases hn
  · exact ⟨by rintro ⟨⟩, by rintro ⟨⟩⟩
  · rename_i c h pred cur ok newNode hnew hcas
    cases hcc : c.call <;> exact ⟨by rintro ⟨⟩, by rintro ⟨⟩⟩
  · exact ⟨by rintro ⟨⟩, by rintro ⟨⟩⟩

theorem remove_undecided {x : HashValueType × Option K}
    (hn : nextRemove t act s p = some (s', p')) :
    Missed x s' p' ∧ Skipped x s' p' := by
  revert hn
  fun_cases nextRemove t act s p <;> intro hn <;> cases hn <;>
    exact ⟨by rintro ⟨⟩, by rintro ⟨⟩⟩

variable [DecidableEq K]

/-- The step that decides an update to be done is its change. -/
theorem next_decided (hcall : call.change ≠ .none) (hp : p.Suits) (hc : p.call = some call)
    (hn : next mHash t act s p = some (s', p')) (hc' : p'.call = some call) :
    p'.result = some (.bool true) ↔ p.result = some (.bool true) ∨ change s p = call.change := by
  rcases next_cases hc hn with ⟨a, rfl, -, -, -, rfl⟩ | hn | hn | hn | hn | hn | hn
  · simp [PC.result, change, hcall.symm]
  · obtain ⟨-, h1, h2⟩ := nextClaim_call hn
    have h3 : change s p = .none := by
      revert hn
      fun_cases nextClaim t act s p <;> intro hn <;> first | rfl | cases hn
    simp [h1, h2, h3, hcall.symm]
  · obtain ⟨-, h1, h2⟩ := nextFind_call hn
    have h3 : change s p = .none := by
      revert hn
      fun_cases nextFind mHash t act s p <;> intro hn <;> first | rfl | cases hn
    simp [h1, h2, h3, hcall.symm]
  · revert hn
    fun_cases nextGet mHash act s p <;> intro hn <;> cases hn <;>
      simp [PC.result, After.result, change, hcall.symm]
  · revert hn
    fun_cases nextInsert act s p <;> intro hn <;> cases hn
    · simp [PC.result, change, hcall.symm]
    · rename_i c h pred cur ok newNode hnew hcas
      cases hc
      rcases hp with ⟨slot, key, value, hcc⟩ | ⟨parent, index, hcc⟩
      · simp [PC.result, After.result, change, hcas, hcc, Call.adds, Call.change]
      · simp [hcc, Call.change] at hcall
    · rename_i hcas
      simp [PC.result, After.result, change, hcas, hcall.symm]
  · revert hn
    fun_cases nextRemove t act s p <;> intro hn <;> cases hn <;>
      simp [PC.result, After.result, change]
    · simpa using hcall.symm
    · rename_i c h pred cur succ ok hcas
      obtain ⟨slot, key, hcc⟩ := hp
      cases hc
      simp [hcas, hcc, Call.removes, Call.key, Call.change]
    · rename_i hcas
      simp [hcas, hcall.symm]
  · revert hn
    fun_cases nextReturn mHash t act s p <;> intro hn <;> cases hn <;>
      simp [PC.result, After.result, change, hcall.symm]
    cases hc'

theorem missed_next {cf : Conf τ (Shared τ A K V) (PC τ A K V)} (hS : Sound mHash g cf)
    (hget : call.isGet = false) (hk : call.key = some k) (hadd : call.change ≠ .remove k)
    (hp : (cf.pc t).Suits) (hc : (cf.pc t).call = some call)
    (hn : next mHash t act cf.shared (cf.pc t) = some (s', p'))
    (h : Missed (call.name mHash) cf.shared (cf.pc t)) :
    s'.Present k ∨ Missed (call.name mHash) s' p' := by
  obtain ⟨hG, -, hpl⟩ := hS
  have hat := (hpl t).2
  generalize cf.pc t = p at *
  generalize cf.shared = s at *
  rcases next_cases hc hn with ⟨a, rfl, -, -, -, rfl⟩ | hn | hn | hn | hn | hn | hn
  · exact .inr (by rintro ⟨⟩)
  · revert hn
    fun_cases nextClaim t act s p <;> intro hn
    · cases hn
      exact .inr (by rintro ⟨⟩)
    · cases hn
      exact .inr (by rintro ⟨⟩)
    · cases hc
      obtain ⟨pc, hpc, he⟩ := Option.map_eq_some_iff.1 hn
      cases he
      exact missed_claimed hG hat.1 hget hk hpc
    · cases hn
      exact .inr (by rintro ⟨⟩)
    · cases hn
  · refine .inr ?_
    revert hn
    fun_cases nextFind mHash t act s p <;> intro hn <;> cases hn <;> first | exact h | rintro ⟨⟩
  · refine .inr ?_
    revert hn
    fun_cases nextGet mHash act s p <;> intro hn <;> cases hn <;> rintro ⟨⟩
  · exact .inr (insert_undecided hn).1
  · exact .inr (remove_undecided hn).1
  · refine .inr ?_
    revert hn
    fun_cases nextReturn mHash t act s p <;> intro hn <;> cases hn
    · -- the key is there
      rename_i c h' pred cur ok slot key value hcc node hname
      cases hc
      rw [hcc] at hk
      obtain rfl := Option.some.inj hk
      refine absurd (Prod.ext hname.1 ?_) h
      rw [Call.name, hcc]
      exact hname.2
    · rintro ⟨⟩
    · rename_i c h' pred cur ok slot key hcc node hname
      cases hc
      rw [hcc] at hk
      obtain rfl := Option.some.inj hk
      exact absurd (congrArg Call.change hcc) hadd
    · rintro ⟨⟩
    · rintro ⟨⟩
    · rintro ⟨⟩
    · exact h
    · rintro ⟨⟩
    · rintro ⟨⟩
    · exact h
    · rintro ⟨⟩
    · rintro ⟨⟩
    · rintro ⟨⟩
    · exact h
    · exact h
    · rintro ⟨⟩

theorem skipped_next {cf : Conf τ (Shared τ A K V) (PC τ A K V)} (hS : Sound mHash g cf)
    (hget : call.isGet = false) (hk : call.key = some k) (hrem : call.change = .remove k)
    (hp : (cf.pc t).Suits) (hc : (cf.pc t).call = some call)
    (hn : next mHash t act cf.shared (cf.pc t) = some (s', p')) (hG' : Shape mHash g' s')
    (hp' : Placed mHash g' s' t p') (h : Skipped (call.name mHash) cf.shared (cf.pc t)) :
    ¬ s'.Present k ∨ Skipped (call.name mHash) s' p' := by
  obtain ⟨hG, -, hpl⟩ := hS
  obtain ⟨hcall, hat⟩ := hpl t
  generalize cf.pc t = p at *
  generalize cf.shared = s at *
  rcases next_cases hc hn with ⟨a, rfl, -, -, -, rfl⟩ | hn | hn | hn | hn | hn | hn
  · exact .inr trivial
  · revert hn
    fun_cases nextClaim t act s p <;> intro hn
    · cases hn
      exact .inr h
    · cases hn
      exact .inr h
    · cases hc
      obtain ⟨pc, hpc, he⟩ := Option.map_eq_some_iff.1 hn
      cases he
      exact skipped_claimed hG (hcall _ rfl).1 hat.1 hget hk rfl hpc h
    · cases hn
      exact .inr h
    · cases hn
  · revert hn
    fun_cases nextFind mHash t act s p <;> intro hn <;> cases hn
    · -- the link goes on behind the node that is unlinked
      rename_i c h' pred cur succ ok hcas
      cases hc
      obtain ⟨hleg, -⟩ := hcall _ rfl
      have hs : c.call.Strict mHash := hleg.strict (by simp [hk])
      obtain ⟨-, hpass, -⟩ := hp'
      have hnext : ((s.setNext pred (succ, false)).heap pred).mNext = (succ, false) :=
        setNext_mNext s _
      have hpred := hG'.mem_of_unmarked hpass.1.1.1 (congrArg Prod.snd hnext)
      by_cases hseen : ∃ q, succ = some q ∧
          c.call.hashValue mHash < ((s.setNext pred (succ, false)).heap q).mHashValue
      · obtain ⟨q, hq, hlt⟩ := hseen
        exact .inl (hG'.absent hpred ((congrArg Prod.fst hnext).trans hq) hk (hpass.2.2 hs)
          hpass.2.1 hlt (hpass.1.2 hs))
      · exact .inr fun q hq hlt => hseen ⟨q, hq, hlt⟩
    · exact .inr trivial
    · exact .inr h
    · exact .inr h
    · exact .inr (h _ rfl)
    · rename_i hs
      rw [Skipped, domainStep_heap hs]
      exact .inr h
    · exact .inr h.1
    · rename_i c h' pred cur ok succ hstop
      cases hc
      rw [hG.stops_iff hat.2.1.1.1, not_or] at hstop
      exact .inr (h.2 succ rfl hstop.2)
    · exact .inr h
  · refine .inr ?_
    revert hn
    fun_cases nextGet mHash act s p <;> intro hn <;> cases hn
    · cases hc
      exact absurd (hget.symm.trans hp) (by simp)
    · rintro ⟨⟩
  · exact .inr (insert_undecided hn).2
  · exact .inr (remove_undecided hn).2
  · refine .inr ?_
    revert hn
    fun_cases nextReturn mHash t act s p <;> intro hn <;> cases hn
    · rename_i c h' pred cur ok slot key value hcc node hname
      cases hc
      rw [hcc] at hrem
      cases hrem
    · rintro ⟨⟩
    · -- the key is not there
      rename_i c h' pred cur ok slot key hcc node hname
      cases hc
      rw [hcc] at hk
      obtain rfl := Option.some.inj hk
      rcases hat.2.2 with hlt | heq
      · exact absurd hlt h
      · refine absurd hname (not_or.2 ⟨not_not.2 (congrArg Prod.fst heq), not_not.2 ?_⟩)
        exact (congrArg Prod.snd heq).trans (by rw [hcc]; rfl)
    · rintro ⟨⟩
    · rintro ⟨⟩
    · rintro ⟨⟩
    · exact h
    · exact trivial
    · rintro ⟨⟩
    · exact h
    · rintro ⟨⟩
    · rintro ⟨⟩
    · rintro ⟨⟩
    · exact h
    · exact h
    · rintro ⟨⟩

end Steps

section Run

variable [DecidableEq τ] [DecidableEq A] [DecidableEq K] {n : ℕ}
  {C : Conf τ (Shared τ A K V) (PC τ A K V) → τ × Act A K V → Prop} (r : (system mHash).Run C n)

/-- The step at `j` is a successful compare-and-swap of thread `t` that makes the change. -/
def Changes (t : τ) (δ : Change K V) (j : ℕ) : Prop :=
  (r.label j).1 = t ∧ change (r.state j).shared ((r.state j).pc t) = δ

/-- An update is done when its thread has made its change in the call. -/
theorem decided (hcall : call.change ≠ .none) {i : ℕ} (hi : i ≤ n)
    (hc : ((r.state i).pc t).call = some call) :
    ((r.state i).pc t).result = some (.bool true) ↔
      ∃ j < i, During r t call j i ∧ Changes r t call.change j := by
  induction i with
  | zero =>
    rw [r.init.2] at hc
    cases hc
  | succ i ih =>
    obtain ⟨hn, hothers⟩ := Program.run_step r hi
    have during : ∀ j ≤ i, During r t call j i → During r t call j (i + 1) := fun j hj hd =>
      ⟨by omega, fun m h1 h2 => (Nat.le_succ_iff.1 h2).elim (hd.2 m h1) fun h => h ▸ hc⟩
    by_cases hold : ((r.state i).pc t).call = some call
    · have hlast : (∃ j < i + 1, During r t call j (i + 1) ∧ Changes r t call.change j) ↔
          (∃ j < i, During r t call j i ∧ Changes r t call.change j) ∨
          Changes r t call.change i := by
        constructor
        · rintro ⟨j, hj, hd, hch⟩
          rcases Nat.lt_succ_iff_lt_or_eq.1 hj with hj | rfl
          · exact .inl ⟨j, hj, ⟨by omega, fun m h1 h2 => hd.2 m h1 (by omega)⟩, hch⟩
          · exact .inr hch
        · rintro (⟨j, hj, hd, hch⟩ | hch)
          · exact ⟨j, by omega, during j (by omega) hd, hch⟩
          · refine ⟨i, by omega, during i le_rfl ⟨le_rfl, fun m h1 h2 => ?_⟩, hch⟩
            exact le_antisymm h2 h1 ▸ hold
      rw [hlast, ← ih (by omega) hold]
      by_cases ht : t = (r.label i).1
      · rw [Changes, ← ht]
        subst ht
        rw [next_decided hcall (suits_reach (r.reach (by omega)) _) hold hn hc]
        simp
      · rw [hothers t ht]
        simp [Changes, Ne.symm ht]
    · -- the call begins here
      have hnone : ((r.state (i + 1)).pc t).result = none := by
        rcases run_begins r hi hold hc with h | h <;> rw [h] <;> rfl
      rw [hnone]
      refine iff_of_false (by rintro ⟨⟩) ?_
      rintro ⟨j, hj, hd, -⟩
      exact hold (hd.2 i (by omega) (by omega))

/-- The answer is `true` when the thread has made its change in the call. -/
theorem decided_returned (hcall : call.change ≠ .none) {i : ℕ} (hi : i ≤ n) {b : Bool}
    (hpc : (r.state i).pc t = .returned call (.bool b)) {P : ℕ → Prop}
    (hP : ∀ j < i, Changes r t call.change j → P j) :
    b = true ↔ ∃ j < i, During r t call j i ∧ Changes r t call.change j ∧ P j := by
  have hb : ((r.state i).pc t).result = some (.bool true) ↔ b = true := by simp [hpc, PC.result]
  rw [← hb, decided r hcall hi (congrArg PC.call hpc)]
  refine exists_congr fun j => and_congr_right fun hj => and_congr_right fun _ => ?_
  exact ⟨fun hch => ⟨hch, hP j hj hch⟩, And.left⟩

/-- An update visits no node that was deleted. -/
theorem updates_live {cf : Conf τ (Shared τ A K V) (PC τ A K V)} (h : (system mHash).Reachable cf)
    {t : τ} (hc : (cf.pc t).call = some call) (hget : call.isGet = false) {a : A}
    (ha : (cf.pc t).visits = some a) : cf.shared.allocated a = true := by
  obtain ⟨g, hG, -, hp⟩ := sound_reach h
  exact (hp t).live hG hc hget ha

/-- Updates have the results and the effects of a finite map. -/
structure Linearizable : Prop where
  others : ∀ j < n, ∀ k, (∀ v, ¬ Changes r (r.label j).1 (.add k v) j) →
    ¬ Changes r (r.label j).1 (.remove k) j →
      ((r.state (j + 1)).shared.Present k ↔ (r.state j).shared.Present k)
  add : ∀ i ≤ n, ∀ t slot k v b, (r.state i).pc t = .returned (.add slot k v) (.bool b) →
    (b = true ↔ ∃ j < i, During r t (.add slot k v) j i ∧ Changes r t (.add k v) j ∧
      ¬ (r.state j).shared.Present k ∧ (r.state (j + 1)).shared.Present k)
  add_false : ∀ i ≤ n, ∀ t slot k v, (r.state i).pc t = .returned (.add slot k v) (.bool false) →
    ∃ l, During r t (.add slot k v) l i ∧ (r.state l).shared.Present k
  remove : ∀ i ≤ n, ∀ t slot k b, (r.state i).pc t = .returned (.remove slot k) (.bool b) →
    (b = true ↔ ∃ j < i, During r t (.remove slot k) j i ∧ Changes r t (.remove k) j ∧
      (r.state j).shared.Present k ∧ ¬ (r.state (j + 1)).shared.Present k)
  remove_false : ∀ i ≤ n, ∀ t slot k, (r.state i).pc t = .returned (.remove slot k) (.bool false) →
    ∃ l, During r t (.remove slot k) l i ∧ ¬ (r.state l).shared.Present k

/-- `add` and `remove` are linearizable. -/
theorem updates_linearizable : Linearizable r := by
  have effect : ∀ j < n, (change (r.state j).shared ((r.state j).pc (r.label j).1)).Fits
      (r.state j).shared.Holds ∧ ∀ k v, (r.state (j + 1)).shared.Holds k v ↔
        (change (r.state j).shared ((r.state j).pc (r.label j).1)).apply
        (r.state j).shared.Holds k v :=
    fun j hj => by
      obtain ⟨g, hS⟩ := sound_reach (r.reach hj.le)
      obtain ⟨g', x, e, hE, -⟩ := sound_step hS (r.step j hj)
      exact ⟨hE.fits, hE.holds⟩
  refine ⟨fun j hj k ha hr => ?_, fun i hi t slot k v b hpc => ?_, fun i hi t slot k v hpc => ?_,
    fun i hi t slot k b hpc => ?_, fun i hi t slot k hpc => ?_⟩
  · obtain ⟨-, hh⟩ := effect j hj
    unfold Changes at ha hr
    refine exists_congr fun v => (hh k v).trans ?_
    cases hch : change (r.state j).shared ((r.state j).pc (r.label j).1) with
    | none => rfl
    | add key value =>
      have hne : k ≠ key := fun h => ha value ⟨rfl, h ▸ hch⟩
      simp [Change.apply, hne]
    | remove key =>
      have hne : k ≠ key := fun h => hr ⟨rfl, h ▸ hch⟩
      simp [Change.apply, hne]
  · refine decided_returned r (by rintro ⟨⟩) hi hpc fun j hj hch => ?_
    obtain ⟨ht, hch⟩ := hch
    obtain ⟨hf, hh⟩ := effect j (by omega)
    rw [ht, hch] at hf hh
    exact ⟨fun hex => hex.elim hf, v, (hh k v).2 (.inr ⟨rfl, rfl⟩)⟩
  · have hc : ((r.state i).pc t).call = some (.add slot k v) := congrArg PC.call hpc
    refine (call_since r (Q := fun s => s.Present k)
      (J := fun _ => Missed (Call.name mHash (.add slot k v))) ?_ ?_ ?_ hi hc).resolve_right ?_
    · rintro g s p (rfl | rfl) <;> rintro ⟨⟩
    · intro g c act g' x e s' p' hS hp _ hE hp' hn hc _ hJ
      exact missed_next hS rfl rfl (by rintro ⟨⟩) hp hc hn hJ
    · intro g c u act g' x e s' hu hS hp _ hE hp' hc hJ
      exact .inr (hJ.effect hE (hS.2.2 t) hp')
    · rintro ⟨g, -, hJ⟩
      rw [hpc] at hJ
      exact hJ rfl
  · refine decided_returned r (by rintro ⟨⟩) hi hpc fun j hj hch => ?_
    obtain ⟨ht, hch⟩ := hch
    obtain ⟨hf, hh⟩ := effect j (by omega)
    rw [ht, hch] at hf hh
    exact ⟨hf, fun hex => hex.elim fun w hw => ((hh k w).1 hw).2 rfl⟩
  · have hc : ((r.state i).pc t).call = some (.remove slot k) := congrArg PC.call hpc
    refine (call_since r (Q := fun s => ¬ s.Present k)
      (J := fun _ => Skipped (Call.name mHash (.remove slot k : Call K V)))
      ?_ ?_ ?_ hi hc).resolve_right ?_
    · rintro g s p (rfl | rfl)
      · rintro ⟨⟩
      · exact trivial
    · intro g c act g' x e s' p' hS hp _ hE hp' hn hc _ hJ
      exact skipped_next hS rfl rfl rfl hp hc hn hE.shape hp' hJ
    · intro g c u act g' x e s' hu hS hp _ hE hp' hc hJ
      exact .inr (hJ.effect hE rfl hc (hS.2.2 t) hp')
    · rintro ⟨g, -, hJ⟩
      rw [hpc] at hJ
      exact hJ rfl

end Run

end LockFreeHashMap

end ConcurrencySandbox

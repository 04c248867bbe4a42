import ConcurrencySandbox.LockFreeHashMap.Updates

/-!
# Lookups

`get` takes the mark of the node before for the mark of the node it has come to, so it can return a
value that was removed, or miss a key that is there (`lookup_stale`). When the mark it reads at a
node with its key is that node's own, no node in front of it is handed out again and it visits no
node that was deleted, it is linearizable (`lookup_linearizable`): what it can still come to has
been in the list (`Clean`), and the node with its key is ahead of it (`Ahead`) until it is removed.
-/

namespace ConcurrencySandbox

open Interleaving Structures HazardPointer

namespace LockFreeHashMap

variable {τ A K V : Type*}

/-- The node whose link a `get` goes on from. -/
def PC.stands : PC τ A K V → Option A
  | .claimLoad _ _ site | .claimStore _ _ site _ | .claimCheck _ _ site _ => site.node
  | .getTest _ _ _ cur _ => some cur
  | _ => none

/-- The mark that `get` reads with the pointer to a node with its key is that node's own. -/
def OwnMark [DecidableEq A] (mHash : K → HashValueType) (s : Shared τ A K V) : PC τ A K V → Prop
  | .claimCheck c _ site (some p) => c.call.isGet = true → (s.read c.call.slot site).1 = some p →
      (s.heap p).name = c.call.name mHash → (s.read c.call.slot site).2 = s.marked p
  | _ => True

/-- No node that a `get` may still come to is handed out again. -/
def Undisturbed (c : Conf τ (Shared τ A K V) (PC τ A K V)) : Act A K V → Prop
  | .alloc a => ∀ t call, (c.pc t).call = some call → call.isGet = true →
      ∀ b ∈ (c.pc t).stands, ¬ Reaches c.shared.links b a
  | _ => True

/-- A `get` visits no node that was deleted. -/
def VisitsLive (s : Shared τ A K V) (p : PC τ A K V) : Prop :=
  ∀ call, p.call = some call → call.isGet = true → ∀ a ∈ p.visits, s.allocated a = true

/-- The steps of runs in which `get` is linearizable. -/
structure Sighted [DecidableEq A] (mHash : K → HashValueType)
    (c : Conf τ (Shared τ A K V) (PC τ A K V)) (l : τ × Act A K V) : Prop where
  own : OwnMark mHash c.shared (c.pc l.1)
  undisturbed : Undisturbed c l.2
  live : VisitsLive c.shared (c.pc l.1)

/-- What can be come to from the node has been in the list. -/
def Clean (g : Ghost τ A) (s : Shared τ A K V) (a : A) : Prop :=
  ∀ b, Reaches s.links a b → b ∈ g.published

/-- The nodes from `a` up to `b` do not have the name, and are not behind it. -/
inductive Ahead (g : Ghost τ A) (s : Shared τ A K V) (x : HashValueType × Option K)
    (b : A) : A → Prop
  | here {a : A} (ha : a ∈ g.published) (hl : s.links a = some b) : Ahead g s x b a
  | next {a c : A} (ha : a ∈ g.published) (hl : s.links a = some c)
      (hle : (s.heap c).mHashValue ≤ x.1) (hne : (s.heap c).name ≠ x) (h : Ahead g s x b c) :
      Ahead g s x b a

/-- The node of the list that has the name. -/
structure Target (g : Ghost τ A) (s : Shared τ A K V) (x : HashValueType × Option K)
    (b : A) : Prop where
  mem : b ∈ g.list
  unmarked : s.marked b = false
  name : (s.heap b).name = x

/-- As long as a `get` has not seen its key missing: the node with the key is ahead of it, or it has
come to it and will find it unmarked. -/
def Seeking (g : Ghost τ A) (s : Shared τ A K V) (x : HashValueType × Option K) : PC τ A K V → Prop
  | .claimLoad _ _ site | .claimStore _ _ site _ | .claimCheck _ _ site _ =>
    ∀ a, site.node = some a → ∃ b, Target g s x b ∧ Ahead g s x b a
  | .getTest _ _ _ cur mark => ∃ b, Target g s x b ∧ (b = cur ∧ mark = false ∨
      (s.heap cur).mHashValue ≤ x.1 ∧ (s.heap cur).name ≠ x ∧ Ahead g s x b cur)
  | p => p.result ≠ some (.value none)

/-- As long as a `get` has not seen its key with the value. -/
def Lacking (g : Ghost τ A) (s : Shared τ A K V) (x : HashValueType × Option K) (v : V) :
    PC τ A K V → Prop
  | .claimLoad _ _ site | .claimStore _ _ site _ | .claimCheck _ _ site _ =>
    ∀ a, site.node = some a → Clean g s a
  | .getTest _ _ _ cur mark => Clean g s cur ∧
      ((s.heap cur).name = x → mark = false → (s.heap cur).mValue.map Prod.snd ≠ some v)
  | p => p.result ≠ some (.value (some v))

variable {mHash : K → HashValueType} {g g' : Ghost τ A} {s s' : Shared τ A K V} {t u : τ}
  {act : Act A K V} {a b : A} {x : HashValueType × Option K} {k : K} {v : V} {p p' : PC τ A K V}

theorem Ahead.published (h : Ahead g s x b a) : a ∈ g.published := by
  cases h <;> assumption

/-- In the list the node with the name is ahead of every node before it. -/
theorem Shape.ahead (hG : Shape mHash g s) (hT : Target g s x b) (hx : x.2 ≠ none)
    (hp : Precedes g.list a b) : Ahead g s x b a := by
  obtain ⟨q₁, q₂, hq, -, hseg⟩ := hG.seg.split hp.mem.1
  have hb : b ∈ q₂ := (precedes_left_iff (hq ▸ hG.seg.nodup)).1 (hq ▸ hp)
  clear hp
  induction q₂ generalizing a q₁ with
  | nil => cases hb
  | cons y q ih =>
    have hlist : ∀ c, c = a ∨ c = y ∨ c ∈ q → c ∈ g.list := fun c hc => by
      rw [hq]
      simp only [List.mem_append, List.mem_cons]
      exact .inr hc
    have ha := (hG.listed a (hlist a (.inl rfl))).1
    obtain ⟨hl, hseg⟩ := hseg
    by_cases hby : b = y
    · exact .here ha (hby ▸ hl)
    · have hbq : b ∈ q := (List.mem_cons.1 hb).resolve_left hby
      have hyb : Precedes g.list y b := by
        rw [hq, List.append_cons]
        exact (precedes_left_iff (by simpa [← hq] using hG.seg.nodup)).2 hbq
      refine .next ha hl ?_ (fun hn => hby ?_) (ih (q₁ ++ [a]) (by simpa using hq) hseg hbq)
      · exact hT.name ▸ hG.sorted y b hyb
      · have hk : (s.heap b).key = (s.heap y).key := congrArg Prod.snd (hT.name.trans hn.symm)
        refine hG.unique b hT.mem y (hlist y (.inr (.inl rfl))) hk ?_
        rw [show (s.heap b).key = x.2 from congrArg Prod.snd hT.name]
        exact hx

variable [DecidableEq τ] [DecidableEq A] {o : Option A} {δ : Change K V}
  {e : Hazards.Event (τ × ℕ) A}

section Step

variable (hE : Effect mHash u act o δ g g' s s' e)
include hE

theorem Clean.effect (hc : Clean g s a) (hact : ∀ d, act = .alloc d → ¬ Reaches s.links a d) :
    Clean g' s' a := by
  have keep : ∀ d, Reaches s.links a d → d ∈ g'.published := fun d hd =>
    (hE.published d (hc d hd)).resolve_right fun h => hact d h hd
  -- what is new on the way was linked in front of a node of the list
  have main : ∀ d, Reaches s'.links a d → d ∈ g'.published ∧
      (Reaches s.links a d ∨ ∃ c, s'.links d = some c ∧ Reaches s.links a c) := by
    intro d hd
    induction hd with
    | refl => exact ⟨keep a .refl, .inl .refl⟩
    | @tail d f _ hn ih =>
      obtain ⟨hd, hr | ⟨c, hc', hr⟩⟩ := ih
      · rcases hE.relink d (hc d hr) hd with h | ⟨y, hl, -, -, h'⟩ | ⟨y, z, hl, h', hb, hlist, -⟩
        · exact ⟨keep f (hr.tail (h ▸ hn)), .inl (hr.tail (h ▸ hn))⟩
        · have hf := (hr.tail hl).tail (h'.symm.trans hn)
          exact ⟨keep f hf, .inl hf⟩
        · obtain rfl := Option.some.inj (h'.symm.trans hn)
          exact ⟨(hE.shape.listed _ hlist).1, .inr ⟨z, hb, hr.tail hl⟩⟩
      · obtain rfl := Option.some.inj (hc'.symm.trans hn)
        exact ⟨keep _ hr, .inl hr⟩
  exact fun d hd => (main d hd).1

theorem Target.effect (hG : Shape mHash g s) (hx : x.2 = some k) (hT : Target g s x b) :
    ¬ s'.Present k ∨ Target g' s' x b := by
  have hb := (hG.listed b hT.mem).1
  rcases hE.keep b hT.mem hT.unmarked with ⟨h1, h2⟩ | ⟨k', rfl, hk'⟩
  · exact .inr ⟨h1, h2, (hE.name hb (hE.shape.listed b h1).1).trans hT.name⟩
  · have hkk : k' = k := by
      have h1 : (s.heap b).key = x.2 := congrArg Prod.snd hT.name
      exact Option.some.inj (hk'.symm.trans (h1.trans hx))
    exact .inl fun ⟨w, hw⟩ => ((hE.holds k w).1 hw).2 hkk.symm

theorem Ahead.effect (hT : Target g s x b) (h : Ahead g s x b a)
    (hact : ∀ d, act = .alloc d → ¬ Reaches s.links a d) : Ahead g' s' x b a := by
  have hxb : (s.heap b).mHashValue = x.1 := congrArg Prod.fst hT.name
  induction h with
  | @here a ha hl =>
    have ha' := (hE.published a ha).resolve_right fun h => hact a h .refl
    rcases hE.relink a ha ha' with h | ⟨y, hl', -, hm, -⟩ | ⟨y, z, hl', h', hy, hlist, hlt⟩
    · exact .here ha' (h.trans hl)
    · obtain rfl := Option.some.inj (hl.symm.trans hl')
      rw [hT.unmarked] at hm
      cases hm
    · obtain rfl := Option.some.inj (hl.symm.trans hl')
      rw [hxb] at hlt
      have hy' := (hE.shape.listed y hlist).1
      refine .next ha' h' (Std.le_of_lt hlt) (fun hn => ?_) (.here hy' hy)
      exact Std.lt_irrefl (congrArg Prod.fst hn ▸ hlt)
  | @next a c ha hl hle hne h ih =>
    have ha' := (hE.published a ha).resolve_right fun h => hact a h .refl
    have hc := ih fun d hd hr => hact d hd (.head hl hr)
    have hcc := hE.content c h.published hc.published
    have hle' : (s'.heap c).mHashValue ≤ x.1 := hcc.1 ▸ hle
    have hne' : (s'.heap c).name ≠ x := by
      rw [hE.name h.published hc.published]
      exact hne
    rcases hE.relink a ha ha' with h1 | ⟨y, hl', -, hm, h1⟩ | ⟨y, z, hl', h1, hy, hlist, hlt⟩
    · exact .next ha' (h1.trans hl) hle' hne' hc
    · -- its link stays what it is
      obtain rfl := Option.some.inj (hl.symm.trans hl')
      have hsame : s'.links c = s.links c :=
        congrArg Prod.fst (hE.frozen c h.published hc.published hm)
      cases hc with
      | here _ hl2 => exact .here ha' (h1.trans (hsame.symm.trans hl2))
      | next _ hl2 hle2 hne2 h2 => exact .next ha' (h1.trans (hsame.symm.trans hl2)) hle2 hne2 h2
    · obtain rfl := Option.some.inj (hl.symm.trans hl')
      have hlt' : (s'.heap y).mHashValue < x.1 := Std.lt_of_lt_of_le hlt hle
      have hy' := (hE.shape.listed y hlist).1
      refine .next ha' h1 (Std.le_of_lt hlt') (fun hn => ?_) (.next hy' hy hle' hne' hc)
      exact Std.lt_irrefl (congrArg Prod.fst hn ▸ hlt')

theorem Seeking.effect (hG : Shape mHash g s) (hx : x.2 = some k)
    (hact : ∀ d, act = .alloc d → ∀ a, p.stands = some a → ¬ Reaches s.links a d)
    (h : Seeking g s x p) : ¬ s'.Present k ∨ Seeking g' s' x p := by
  have ahead : ∀ a, p.stands = some a → (∃ b, Target g s x b ∧ Ahead g s x b a) →
      ¬ s'.Present k ∨ ∃ b, Target g' s' x b ∧ Ahead g' s' x b a := by
    rintro a ha ⟨b, hT, hA⟩
    refine (hT.effect hE hG hx).imp id fun hT' => ⟨b, hT', ?_⟩
    exact hA.effect hE hT fun d hd => hact d hd a ha
  cases p with
  | claimLoad _ _ site | claimStore _ _ site _ | claimCheck _ _ site _ =>
    cases hs : site.node with
    | none => exact .inr fun a ha => by cases hs.symm.trans ha
    | some a =>
      refine (ahead a hs (h a hs)).imp id fun h' b hb => ?_
      obtain rfl := Option.some.inj (hs.symm.trans hb)
      exact h'
  | getTest _ _ _ cur _ =>
    obtain ⟨b, hT, ⟨rfl, hm⟩ | ⟨hle, hne, hA⟩⟩ := h
    · exact (hT.effect hE hG hx).imp id fun hT' => ⟨b, hT', .inl ⟨rfl, hm⟩⟩
    · refine (hT.effect hE hG hx).imp id fun hT' => ⟨b, hT', .inr ?_⟩
      have hA' := hA.effect hE hT fun d hd => hact d hd cur rfl
      rw [(hE.content cur hA.published hA'.published).1, hE.name hA.published hA'.published]
      exact ⟨hle, hne, hA'⟩
  | _ => exact .inr h

theorem Lacking.effect
    (hact : ∀ d, act = .alloc d → ∀ a, p.stands = some a → ¬ Reaches s.links a d)
    (h : Lacking g s x v p) : Lacking g' s' x v p := by
  cases p with
  | claimLoad _ _ site | claimStore _ _ site _ | claimCheck _ _ site _ =>
    exact fun a ha => (h a ha).effect hE fun d hd => hact d hd a ha
  | getTest _ _ _ cur _ =>
    have hc := h.1.effect hE fun d hd => hact d hd cur rfl
    refine ⟨hc, ?_⟩
    rw [hE.name (h.1 cur .refl) (hc cur .refl), (hE.content cur (h.1 cur .refl) (hc cur .refl)).2]
    exact h.2
  | _ => exact h

end Step

variable [DecidableEq K] {cf : Conf τ (Shared τ A K V) (PC τ A K V)} {slot : HashValueType}

theorem next_stands {call : Call K V} {d : A} (hc : p.call = some call)
    (hn : next mHash t (.alloc d) s p = some (s', p')) : p'.stands = none := by
  rw [(next_alloc hc hn).2]
  rfl

omit [DecidableEq τ] [DecidableEq A] [DecidableEq K] in
/-- From the sentinel of the bucket the node with the key is ahead. -/
theorem Shape.sentinel_ahead (hG : Shape mHash g s) {call : Call K V} (hleg : call.Legal mHash)
    (hk : call.key = some k) (ha : s.mBuckets call.slot = some a) (hp : s.Present k) :
    ∃ b, Target g s (call.name mHash) b ∧ Ahead g s (call.name mHash) b a := by
  obtain ⟨v, hv⟩ := hp
  obtain ⟨b, hb, hm, hbv⟩ := hG.holds_iff.1 hv
  obtain ⟨hal, hak, hah⟩ := hG.buckets _ a ha
  have hbk : (s.heap b).key = some k := by
    rw [Node.key, hbv]
    rfl
  have hbh : (s.heap b).mHashValue = call.hashValue mHash :=
    (hG.ordinary b (hG.listed b hb).1 k hbk).trans (Call.hashValue_of_key hk).symm
  have hT : Target g s (call.name mHash) b := ⟨hb, hm, Prod.ext hbh (hbk.trans hk.symm)⟩
  have hlt : (s.heap a).mHashValue < (s.heap b).mHashValue := by
    rw [hah, hbh]
    exact hleg.strict (by simp [hk])
  refine ⟨b, hT, hG.ahead hT (by simp [Call.name, hk]) ?_⟩
  rcases precedes_total hal hb with rfl | h | h
  · exact absurd hlt Std.lt_irrefl
  · exact h
  · have := hG.sorted b a h
    bv_omega

omit [DecidableEq τ] [DecidableEq A] [DecidableEq K] in
/-- What `get` finds where it has claimed a node. -/
theorem getting_claimed {c : Caller A K V} {h : Holders} {site : Site A} {q : Option A}
    (hget : c.call.isGet = true) (hq : q = (s.read c.call.slot site).1)
    (hn : claimed c h (s.read c.call.slot site).2 site q = some p') :
    (∃ a h', site.node = none ∧ s.mBuckets c.call.slot = some a ∧ p' = .claimLoad c h' (.cur a)) ∨
      ∃ a b h' pred, site.node = some a ∧ q = some b ∧ s.links a = some b ∧
        p' = .getTest c h' pred b (s.read c.call.slot site).2 := by
  revert hn
  fun_cases claimed (τ := τ) c h (s.read c.call.slot site).2 site q <;> intro hn
  · cases hn
    exact .inl ⟨_, _, rfl, hq.symm, rfl⟩
  · cases hn
    exact .inr ⟨_, _, _, _, rfl, rfl, hq.symm, rfl⟩
  · exact absurd hget ‹_›
  · obtain ⟨b, rfl, rfl⟩ := Option.map_eq_some_iff.1 hn
    exact .inr ⟨_, b, _, _, rfl, rfl, hq.symm, rfl⟩
  · exact absurd hget ‹_›
  · exact absurd hget ‹_›
  · cases hn

omit [DecidableEq τ] [DecidableEq A] [DecidableEq K] in
/-- When `get` goes on to the next node. -/
theorem goes_iff (n : Node A K V) (call : Call K V) : (n.mHashValue < call.hashValue mHash ∨
    n.mHashValue = call.hashValue mHash ∧ n.key ≠ call.key) ↔
      n.mHashValue ≤ call.hashValue mHash ∧ n.name ≠ call.name mHash := by
  constructor
  · rintro (h | ⟨h1, h2⟩)
    · exact ⟨Std.le_of_lt h, fun hn => BitVec.ne_of_lt h (congrArg Prod.fst hn)⟩
    · exact ⟨Std.le_of_eq h1, fun hn => h2 (congrArg Prod.snd hn)⟩
  · rintro ⟨h1, h2⟩
    by_cases h : n.mHashValue = call.hashValue mHash
    · exact .inr ⟨h, fun hk => h2 (Prod.ext h hk)⟩
    · exact .inl (Std.lt_of_le_of_ne h1 h)

theorem nextFind_get (hp : p.Suits) (hc : p.call = some (.get slot k)) :
    nextFind mHash t act s p ≠ some (s', p') := by
  fun_cases nextFind mHash t act s p <;> intro hn <;> cases hn <;>
    rw [PC.Suits, Option.some.inj hc] at hp <;> cases hp

omit [DecidableEq τ] [DecidableEq K] in
theorem nextInsert_get (hp : p.Suits) (hc : p.call = some (.get slot k)) :
    nextInsert act s p ≠ some (s', p') := by
  fun_cases nextInsert act s p <;> intro hn <;> cases hn <;>
    rw [PC.Suits, Option.some.inj hc] at hp <;> rcases hp with ⟨_, _, _, ⟨⟩⟩ | ⟨_, _, ⟨⟩⟩

omit [DecidableEq K] in
theorem nextRemove_get (hp : p.Suits) (hc : p.call = some (.get slot k)) :
    nextRemove t act s p ≠ some (s', p') := by
  fun_cases nextRemove t act s p <;> intro hn <;> cases hn <;>
    rw [PC.Suits, Option.some.inj hc] at hp <;> obtain ⟨_, _, ⟨⟩⟩ := hp

theorem seeking_next (hS : Sound mHash g cf) (hp : (cf.pc t).Suits)
    (ho : OwnMark mHash cf.shared (cf.pc t)) (hc : (cf.pc t).call = some (.get slot k))
    (hn : next mHash t act cf.shared (cf.pc t) = some (s', p'))
    (h : Seeking g cf.shared ((Call.get slot k : Call K V).name mHash) (cf.pc t)) :
    ¬ s'.Present k ∨ Seeking g cf.shared ((Call.get slot k : Call K V).name mHash) p' := by
  obtain ⟨hG, -, hpl⟩ := hS
  obtain ⟨hcall, hat⟩ := hpl t
  generalize cf.pc t = p at *
  generalize cf.shared = s at *
  rcases next_cases hc hn with ⟨a, rfl, -, -, -, rfl⟩ | hn | hn | hn | hn | hn | hn
  · exact .inr (by rintro _ ⟨⟩)
  · revert hn
    fun_cases nextClaim t act s p <;> intro hn
    · cases hn
      exact .inr h
    · cases hn
      exact .inr h
    · rename_i c h' site ok _
      have hcc : c.call = .get slot k := Option.some.inj hc
      obtain ⟨pc, hpc, he⟩ := Option.map_eq_some_iff.1 hn
      cases he
      have hget : c.call.isGet = true := by rw [hcc]; rfl
      rcases getting_claimed hget rfl hpc with ⟨a, h'', hsite, hb, rfl⟩ |
        ⟨a, b, h'', pred, hsite, hq, hl, rfl⟩
      · -- the sentinel is in front of the node with the key
        by_cases hk : s'.Present k
        · refine .inr fun b hb' => ?_
          obtain rfl := Option.some.inj hb'
          rw [← hcc]
          exact hG.sentinel_ahead (hcall c rfl).1 (by rw [hcc]; rfl) hb hk
        · exact .inl hk
      · obtain ⟨b', hT, hA⟩ := h a hsite
        refine .inr ⟨b', hT, ?_⟩
        cases hA with
        | here _ hl' =>
          obtain rfl := Option.some.inj (hl.symm.trans hl')
          refine .inl ⟨rfl, ?_⟩
          rw [hq] at ho
          rw [ho hget hq (hT.name.trans (congrArg (Call.name mHash) hcc.symm))]
          exact hT.unmarked
        | next _ hl' hle hne hA =>
          obtain rfl := Option.some.inj (hl.symm.trans hl')
          exact .inr ⟨hle, hne, hA⟩
    · cases hn
      exact .inr h
    · cases hn
  · exact absurd hn (nextFind_get hp hc)
  · refine .inr ?_
    revert hn
    fun_cases nextGet mHash act s p <;> intro hn <;> cases hn
    · rename_i c h' pred cur mark ok hashValue node hgo
      have hcc : c.call = .get slot k := Option.some.inj hc
      rw [goes_iff, hcc] at hgo
      obtain ⟨b, hT, ⟨rfl, -⟩ | ⟨-, -, hA⟩⟩ := h
      · exact absurd hT.name hgo.2
      · intro a ha
        obtain rfl := Option.some.inj ha
        exact ⟨b, hT, hA⟩
    · rename_i c h' pred cur mark ok hashValue node hstop ans
      have hcc : c.call = .get slot k := Option.some.inj hc
      rw [goes_iff, hcc] at hstop
      obtain ⟨b, hT, ⟨rfl, rfl⟩ | ⟨h1, h2, -⟩⟩ := h
      · -- the value is there
        have hh : node.mHashValue = hashValue :=
          (congrArg Prod.fst hT.name).trans (congrArg (Call.hashValue mHash) hcc.symm)
        have hk : node.key = c.call.key :=
          (congrArg Prod.snd hT.name).trans (congrArg Call.key hcc.symm)
        have hans : ans = node.mValue.map Prod.snd := if_neg (by simp [hh, hk])
        have hsome : node.mValue ≠ none := fun hn => by
          rw [hcc, Node.key, hn] at hk
          cases hk
        obtain ⟨kv, hkv⟩ := Option.ne_none_iff_exists'.1 hsome
        intro hr
        rw [hans, hkv] at hr
        cases hr
      · exact absurd ⟨h1, h2⟩ hstop
  · exact absurd hn (nextInsert_get hp hc)
  · exact absurd hn (nextRemove_get hp hc)
  · refine .inr ?_
    revert hn
    fun_cases nextReturn mHash t act s p <;> intro hn <;> cases hn <;>
      first | exact h | rintro ⟨⟩ | rintro _ ⟨⟩

theorem lacking_next (hS : Sound mHash g cf) (hp : (cf.pc t).Suits)
    (ho : OwnMark mHash cf.shared (cf.pc t)) (hc : (cf.pc t).call = some (.get slot k))
    (hn : next mHash t act cf.shared (cf.pc t) = some (s', p'))
    (h : Lacking g cf.shared ((Call.get slot k : Call K V).name mHash) v (cf.pc t)) :
    s'.Holds k v ∨ Lacking g cf.shared ((Call.get slot k : Call K V).name mHash) v p' := by
  obtain ⟨hG, -, -⟩ := hS
  generalize cf.pc t = p at *
  generalize cf.shared = s at *
  rcases next_cases hc hn with ⟨a, rfl, -, -, -, rfl⟩ | hn | hn | hn | hn | hn | hn
  · exact .inr (by rintro _ ⟨⟩)
  · revert hn
    fun_cases nextClaim t act s p <;> intro hn
    · cases hn
      exact .inr h
    · cases hn
      exact .inr h
    · rename_i c h' site ok _
      have hcc : c.call = .get slot k := Option.some.inj hc
      obtain ⟨pc, hpc, he⟩ := Option.map_eq_some_iff.1 hn
      cases he
      have hget : c.call.isGet = true := by rw [hcc]; rfl
      rcases getting_claimed hget rfl hpc with ⟨a, h'', hsite, hb, rfl⟩ |
        ⟨a, b, h'', pred, hsite, hq, hl, rfl⟩
      · -- what comes after the sentinel is in the list
        refine .inr fun b hb' d hd => ?_
        obtain rfl := Option.some.inj hb'
        have hd' := (hG.seg.reaches_iff.2 (hG.buckets _ a hb).1).trans hd
        exact (hG.listed d (hG.seg.reaches_iff.1 hd')).1
      · have hclean : Clean g s' b := fun d hd => h a hsite d (.head hl hd)
        by_cases hseen : (s'.heap b).name = (Call.get slot k : Call K V).name mHash ∧
            (s'.read c.call.slot site).2 = false ∧ (s'.heap b).mValue.map Prod.snd = some v
        · obtain ⟨hname, hm, hv⟩ := hseen
          rw [hq] at ho
          rw [ho hget hq (hname.trans (congrArg (Call.name mHash) hcc.symm))] at hm
          obtain ⟨⟨k', v'⟩, hkv, rfl⟩ := Option.map_eq_some_iff.1 hv
          have hk' : k' = k := by
            have h1 : (s'.heap b).key = some k := congrArg Prod.snd hname
            rw [Node.key, hkv] at h1
            exact Option.some.inj h1
          exact .inl (hG.holds_iff.2 ⟨b, hG.mem_of_unmarked (hclean b .refl) hm, hm, hk' ▸ hkv⟩)
        · exact .inr ⟨hclean, fun h1 h2 h3 => hseen ⟨h1, h2, h3⟩⟩
    · cases hn
      exact .inr h
    · cases hn
  · exact absurd hn (nextFind_get hp hc)
  · refine .inr ?_
    revert hn
    fun_cases nextGet mHash act s p <;> intro hn <;> cases hn
    · intro a ha
      obtain rfl := Option.some.inj ha
      exact h.1
    · rename_i c h' pred cur mark ok hashValue node hstop ans
      have hcc : c.call = .get slot k := Option.some.inj hc
      intro hr
      have hans : ans = some v := Result.value.inj (Option.some.inj hr)
      by_cases hnone : node.mHashValue ≠ hashValue ∨ node.key ≠ c.call.key ∨ mark = true
      · rw [show ans = none from if_pos hnone] at hans
        cases hans
      · rw [show ans = node.mValue.map Prod.snd from if_neg hnone] at hans
        simp only [not_or, not_not, Bool.not_eq_true] at hnone
        refine h.2 (Prod.ext ?_ ?_) hnone.2.2 hans
        · exact hnone.1.trans (congrArg (Call.hashValue mHash) hcc)
        · exact hnone.2.1.trans (congrArg Call.key hcc)
  · exact absurd hn (nextInsert_get hp hc)
  · exact absurd hn (nextRemove_get hp hc)
  · refine .inr ?_
    revert hn
    fun_cases nextReturn mHash t act s p <;> intro hn <;> cases hn <;>
      first | exact h | rintro ⟨⟩ | rintro _ ⟨⟩

section Run

variable {n : ℕ} {C : Conf τ (Shared τ A K V) (PC τ A K V) → τ × Act A K V → Prop}
  (r : (system mHash).Run C n)

/-- Lookups have the results of a finite map. -/
structure LookupLinearizable : Prop where
  none : ∀ i ≤ n, ∀ t slot k, (r.state i).pc t = .returned (.get slot k) (.value none) →
    ∃ l, During r t (.get slot k) l i ∧ ¬ (r.state l).shared.Present k
  some : ∀ i ≤ n, ∀ t slot k v, (r.state i).pc t = .returned (.get slot k) (.value (some v)) →
    ∃ l, During r t (.get slot k) l i ∧ (r.state l).shared.Holds k v

end Run

/-- `get` is linearizable in every run in which it reads the marks of the nodes it finds. -/
theorem lookup_linearizable {n : ℕ}
    (r : (system mHash).Run (Sighted (τ := τ) (A := A) (V := V) mHash) n) :
    LookupLinearizable r := by
  have disturbed : ∀ {c : Conf τ (Shared τ A K V) (PC τ A K V)} {t act slot k},
      Undisturbed c act → (c.pc t).call = some (.get slot k) →
        ∀ d, act = .alloc d → ∀ a, (c.pc t).stands = some a → ¬ Reaches c.shared.links a d :=
    fun hu hc d hd a ha => by
      subst hd
      exact hu _ _ hc rfl a ha
  have own : ∀ {c : Conf τ (Shared τ A K V) (PC τ A K V)} {t act s' p' slot k},
      (c.pc t).call = some (.get slot k) → next mHash t act c.shared (c.pc t) = some (s', p') →
        ∀ d, act = .alloc d → ∀ a, p'.stands = some a → ¬ Reaches c.shared.links a d :=
    fun hc hn d hd a ha => by
      subst hd
      cases (next_stands hc hn).symm.trans ha
  refine ⟨fun i hi t slot k hpc => ?_, fun i hi t slot k v hpc => ?_⟩
  · have hc : ((r.state i).pc t).call = some (.get slot k) := congrArg PC.call hpc
    refine (call_since r (Q := fun s => ¬ s.Present k)
      (J := fun g s => Seeking g s (Call.name mHash (.get slot k : Call K V)))
      ?_ ?_ ?_ hi hc).resolve_right ?_
    · rintro g s p (rfl | rfl) <;> exact nofun
    · intro g c act g' x e s' p' hS hp hC hE hp' hn hc _ hJ
      rcases seeking_next hS hp hC.own hc hn hJ with h | h
      · exact .inl h
      · exact h.effect hE hS.1 rfl (own hc hn)
    · intro g c u act g' x e s' hu hS hp hC hE hp' hc hJ
      exact hJ.effect hE hS.1 rfl (disturbed hC.undisturbed hc)
    · rintro ⟨g, -, hJ⟩
      rw [hpc] at hJ
      exact hJ rfl
  · have hc : ((r.state i).pc t).call = some (.get slot k) := congrArg PC.call hpc
    refine (call_since r (Q := fun s => s.Holds k v)
      (J := fun g s => Lacking g s (Call.name mHash (.get slot k : Call K V)) v)
      ?_ ?_ ?_ hi hc).resolve_right ?_
    · rintro g s p (rfl | rfl) <;> exact nofun
    · intro g c act g' x e s' p' hS hp hC hE hp' hn hc _ hJ
      exact (lacking_next hS hp hC.own hc hn hJ).imp id fun h => h.effect hE (own hc hn)
    · intro g c u act g' x e s' hu hS hp hC hE hp' hc hJ
      exact .inr (hJ.effect hE (disturbed hC.undisturbed hc))
    · rintro ⟨g, -, hJ⟩
      rw [hpc] at hJ
      exact hJ rfl

section Example

/-- A `get` of key 5 that returns 7. -/
def gotSeven {τ A : Type*} : PC τ A ℕ ℕ → Bool
  | .returned (.get slot k) (.value (some v)) => slot == 0 && k == 5 && v == 7
  | _ => false

theorem eq_of_gotSeven {τ A : Type*} {p : PC τ A ℕ ℕ} (h : gotSeven p = true) :
    p = .returned (.get 0 5) (.value (some 7)) := by
  unfold gotSeven at h
  split at h
  · simp only [Bool.and_eq_true, beq_iff_eq] at h
    obtain ⟨⟨rfl, rfl⟩, rfl⟩ := h
    rfl
  · cases h

/-- `Sighted`, on lists of a few nodes. -/
def sighted (c : Conf (Fin 2) (Shared (Fin 2) ℕ ℕ ℕ) (PC (Fin 2) ℕ ℕ ℕ))
    (l : Fin 2 × Act ℕ ℕ ℕ) : Bool :=
  (match c.pc l.1 with
    | .claimCheck d _ site (some p) => (c.shared.read d.call.slot site).2 == c.shared.marked p
    | _ => true) &&
  (match l.2 with
    | .alloc a => decide (∀ t, ∀ b ∈ (c.pc t).stands, ends c.shared.links 4 b = true ∧
        a ∉ walk c.shared.links 4 b)
    | _ => true) &&
  (c.pc l.1).visits.all c.shared.allocated

theorem sighted_of_sighted {c : Conf (Fin 2) (Shared (Fin 2) ℕ ℕ ℕ) (PC (Fin 2) ℕ ℕ ℕ)}
    {l : Fin 2 × Act ℕ ℕ ℕ} (hs : sighted c l = true) : Sighted (fun _ => 0) c l := by
  simp only [sighted, Bool.and_eq_true] at hs
  obtain ⟨⟨h1, h2⟩, h3⟩ := hs
  refine ⟨?_, ?_, fun _ _ _ => (Option.all_eq_true _ _).1 h3⟩
  · unfold OwnMark
    split at h1
    · rename_i heq
      rw [heq]
      exact fun _ _ _ => beq_iff_eq.1 h1
    · rename_i hne
      split
      · rename_i heq
        exact absurd heq (hne _ _ _ _)
      · trivial
  · unfold Undisturbed
    split
    · rename_i heq
      rw [heq] at h2
      intro t call _ _ b hb hr
      obtain ⟨hend, hmem⟩ := of_decide_eq_true h2 t b hb
      exact hmem (mem_walk_of_reaches hend hr)
    · trivial

/-- A `get` stands at the first node while another thread makes one, and has claimed the node with
its key when that thread removes it. -/
theorem lookup_linearizable_get : ∃ r : (system fun _ => 0).Run
    (Sighted (τ := Fin 2) (A := ℕ) (K := ℕ) (V := ℕ) fun _ => 0) 94,
    ((r.label 42).2 = .alloc 3 ∧ ((r.state 42).pc 1).stands = some 0) ∧
      ((r.state 94).pc 1 = .returned (.get 0 5) (.value (some 7)) ∧
        (r.state 94).shared.marked 2 = true) ∧ LookupLinearizable r := by
  let run (t : Fin 2) (n : ℕ) : List (Fin 2 × Act ℕ ℕ ℕ) := List.replicate n (t, .run true)
  let as : List (Fin 2 × Act ℕ ℕ ℕ) := run 0 8 ++ run 1 8 ++ (0, .call (.add 0 5 7)) ::
    (0, .alloc 2) :: run 0 19 ++ (1, .call (.get 0 5)) :: run 1 3 ++ (0, .call (.add 0 9 1)) ::
    (0, .alloc 3) :: run 0 23 ++ run 1 3 ++ (0, .call (.remove 0 5)) :: run 0 18 ++ run 1 6
  let c₀ : Conf (Fin 2) (Shared (Fin 2) ℕ ℕ ℕ) (PC (Fin 2) ℕ ℕ ℕ) :=
    ⟨initial 0 1, fun _ => .domain .unstarted⟩
  have hex : ((system fun _ => 0).execIf (fun c l => sighted c l = true) c₀ as).isSome = true := by
    decide +kernel
  have hlast : ((system fun _ => 0).exec c₀ as).any (fun c =>
      gotSeven (c.pc 1) && c.shared.marked 2) = true := by
    decide +kernel
  have hstands : ((system fun _ => 0).exec c₀ (as.take 42)).any (fun c =>
      (c.pc 1).stands == some 0) = true := by
    decide +kernel
  obtain ⟨c, hc⟩ := Option.isSome_iff_exists.1 hex
  obtain ⟨hc, hC⟩ := System.execIf_eq_some hc
  have hinit : (system fun _ => 0).init c₀ := ⟨⟨0, 1, by decide, rfl⟩, rfl⟩
  obtain ⟨r, hr, hl⟩ := System.exists_run (0, .run true) hinit hc (C := Sighted fun _ => 0)
    fun i hi s hs => sighted_of_sighted (hC i hi s hs)
  rw [← List.take_length (l := as), hr as.length le_rfl, Option.any_some,
    Bool.and_eq_true] at hlast
  rw [hr 42 (by decide), Option.any_some, beq_iff_eq] at hstands
  exact ⟨r, ⟨congrArg Prod.snd (hl 42 (by decide)), hstands⟩, ⟨eq_of_gotSeven hlast.1, hlast.2⟩,
    lookup_linearizable r⟩

/-- Thread 0 has marked the node of key 5 and not unlinked it when thread 1 looks for it, and the
mark of the node before it is what thread 1 reads. -/
theorem lookup_stale : ∃ n, ∃ r : (system fun _ => 0).Run
    (fun (_ : Conf (Fin 2) (Shared (Fin 2) ℕ ℕ ℕ) (PC (Fin 2) ℕ ℕ ℕ)) _ => True) n,
    ¬ LookupLinearizable r := by
  let run (t : Fin 2) (n : ℕ) : List (Fin 2 × Act ℕ ℕ ℕ) := List.replicate n (t, .run true)
  let as : List (Fin 2 × Act ℕ ℕ ℕ) := run 0 8 ++ run 1 8 ++ (0, .call (.add 0 5 7)) ::
    (0, .alloc 2) :: run 0 19 ++ (0, .call (.remove 0 5)) :: run 0 14 ++
    (1, .call (.get 0 5)) :: run 1 12
  let c₀ : Conf (Fin 2) (Shared (Fin 2) ℕ ℕ ℕ) (PC (Fin 2) ℕ ℕ ℕ) :=
    ⟨initial 0 1, fun _ => .domain .unstarted⟩
  let gone (c : Conf (Fin 2) (Shared (Fin 2) ℕ ℕ ℕ) (PC (Fin 2) ℕ ℕ ℕ)) : Bool :=
    ends c.shared.links 3 c.shared.mHead && (walk c.shared.links 3 c.shared.mHead).all fun a =>
      c.shared.marked a || (c.shared.heap a).mValue != some (5, 7)
  have hlast : ((system fun _ => 0).exec c₀ as).any (fun c => gotSeven (c.pc 1)) = true := by
    decide +kernel
  have hbefore : ((system fun _ => 0).exec c₀ (as.take 52)).any (fun c => (c.pc 1).call.isNone) =
      true := by decide +kernel
  have hgone : ((List.range 13).all fun j =>
      ((system fun _ => 0).exec c₀ (as.take (53 + j))).any gone) = true := by decide +kernel
  obtain ⟨c, hc⟩ : ∃ c, (system fun _ => 0).exec c₀ as = some c := by
    cases h : (system fun _ => 0).exec c₀ as with
    | none => rw [h] at hlast; cases hlast
    | some c => exact ⟨c, rfl⟩
  have hinit : (system fun _ => 0).init c₀ := ⟨⟨0, 1, by decide, rfl⟩, rfl⟩
  obtain ⟨r, hr, -⟩ :=
    System.exists_run (0, .run true) hinit hc (C := fun _ _ => True) fun _ _ _ _ => trivial
  rw [← List.take_length (l := as), hr as.length le_rfl, Option.any_some] at hlast
  rw [hr 52 (by decide), Option.any_some, Option.isNone_iff_eq_none] at hbefore
  have hpc := eq_of_gotSeven hlast
  refine ⟨_, r, fun h => ?_⟩
  obtain ⟨l, ⟨hl, hd⟩, a, ha, hm, hv⟩ := h.some as.length le_rfl 1 0 5 7 hpc
  have hlen : as.length = 65 := by decide
  -- the call has begun after the key was removed
  have h53 : 53 ≤ l := by
    by_contra hlt
    cases hbefore.symm.trans (hd 52 (by omega) (by omega))
  rw [List.all_eq_true] at hgone
  have hg := hgone (l - 53) (List.mem_range.2 (by omega))
  rw [show 53 + (l - 53) = l by omega, hr l hl, Option.any_some] at hg
  simp only [gone, Bool.and_eq_true, List.all_eq_true, Bool.or_eq_true, bne_iff_ne] at hg
  rcases hg.2 a (mem_walk_of_reaches hg.1 ha) with h1 | h1
  · exact absurd (h1.symm.trans hm) (by simp)
  · exact h1 hv

end Example

end LockFreeHashMap

end ConcurrencySandbox

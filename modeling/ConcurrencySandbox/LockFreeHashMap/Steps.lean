import ConcurrencySandbox.LockFreeHashMap.Shape

/-!
# What the steps of the list do

One lemma for each change of the shared state. A compare-and-swap on the link of an unmarked node
that was claimed finds that node in the list: linking a new node there adds its key, marking it
removes its key, and no other change is seen in what the list holds.
-/

namespace ConcurrencySandbox

open Interleaving Structures HazardPointer

namespace LockFreeHashMap

variable {τ A K V : Type*} {mHash : K → HashValueType} {g g' : Ghost τ A} {s s' : Shared τ A K V}
  {t : τ} {act : Act A K V} {a b : A} {k : K} {v : V}

namespace Shape

theorem holds_iff (hG : Shape mHash g s) : s.Holds k v ↔
    ∃ a ∈ g.list, s.marked a = false ∧ (s.heap a).mValue = some (k, v) :=
  exists_congr fun _ => and_congr_left' hG.seg.reaches_iff

/-- The list holds what it held when its nodes are the same. -/
theorem holds_congr (hG : Shape mHash g s) (hG' : Shape mHash g' s') (hl : g'.list = g.list)
    (hh : ∀ a ∈ g.list, s'.heap a = s.heap a) (k : K) (v : V) : s'.Holds k v ↔ s.Holds k v := by
  rw [hG.holds_iff, hG'.holds_iff, hl]
  refine exists_congr fun a => and_congr_right fun ha => ?_
  rw [Shared.marked, Shared.marked, hh a ha]

theorem mem_of_unmarked (hG : Shape mHash g s) (ha : a ∈ g.published) (hm : s.marked a = false) :
    a ∈ g.list := by
  by_contra hl
  rw [hG.unlinked a ha hl] at hm
  cases hm

theorem sorted_next (hG : Shape mHash g s) (ha : a ∈ g.list) (hl : s.links a = some b) {c : A}
    (hc : Precedes g.list a c) : (s.heap b).mHashValue ≤ (s.heap c).mHashValue := by
  rcases (hG.seg.next_precedes ha hl).1 hc with rfl | hc
  · exact BitVec.le_refl _
  · exact hG.sorted b c hc

/-- What is not in front of a node is not in front of the next one either. -/
theorem clear_next (hG : Shape mHash g s) (ha : a ∈ g.list) (hl : s.links a = some b)
    {x : HashValueType × Option K} (hx : (s.heap a).name ≠ x) (hle : (s.heap a).mHashValue ≤ x.1)
    (hc : Clear g s x a) : Clear g s x b := by
  intro _ m hm
  rcases (hG.seg.precedes_next ha hl).1 hm with rfl | hm
  · exact hx
  · exact hc hle m hm

/-- A node of the list that the thread's slot holds is claimed. -/
theorem claimed (hG : Shape mHash g s) {i : Fin 3} (hp : g.hazards.pointer (t, i) = some a)
    (ha : a ∈ g.list) : Claimed g s t i a :=
  ⟨(hG.listed a ha).1, hG.allocated a (.inl ha), hp, fun h => absurd h (hG.listed a ha).2.1⟩

end Shape

section SetNext

variable [DecidableEq A] (s) (n : Option A × Bool)

@[simp] theorem setNext_mHashValue :
    ((s.setNext a n).heap b).mHashValue = (s.heap b).mHashValue := by
  by_cases hb : b = a <;> simp [Shared.setNext, hb]

@[simp] theorem setNext_mValue : ((s.setNext a n).heap b).mValue = (s.heap b).mValue := by
  by_cases hb : b = a <;> simp [Shared.setNext, hb]

@[simp] theorem setNext_key : ((s.setNext a n).heap b).key = (s.heap b).key :=
  congrArg (Option.map Prod.fst) (setNext_mValue s n)

@[simp] theorem setNext_name : ((s.setNext a n).heap b).name = (s.heap b).name :=
  Prod.ext (setNext_mHashValue s n) (setNext_key s n)

theorem setNext_heap (hb : b ≠ a) : (s.setNext a n).heap b = s.heap b :=
  Function.update_of_ne hb _ _

@[simp] theorem setNext_mNext : ((s.setNext a n).heap a).mNext = n := by
  simp [Shared.setNext]

theorem setNext_links : (s.setNext a n).links = Function.update s.links a n.1 := by
  funext b
  by_cases hb : b = a
  · subst hb
    simp [Shared.links]
  · simp [Shared.links, setNext_heap s n hb, hb]

theorem setNext_marked : (s.setNext a n).marked = Function.update s.marked a n.2 := by
  funext b
  by_cases hb : b = a
  · subst hb
    simp [Shared.marked]
  · simp [Shared.marked, setNext_heap s n hb, hb]

/-- A link written with the mark it had. -/
theorem setNext_marked_same (x : Option A) {m : Bool} (hm : s.marked a = m) :
    (s.setNext a (x, m)).marked = s.marked := by
  rw [setNext_marked, ← hm, Function.update_eq_self]

end SetNext

variable [DecidableEq τ] [DecidableEq A]

/-- A step that changes neither the nodes nor the list. -/
theorem Effect.of_heap {x : Option A} {e : Hazards.Event (τ × ℕ) A} (hG : Shape mHash g s)
    (hG' : Shape mHash g' s') (hh : s'.heap = s.heap) (hl : g'.list = g.list)
    (hp : g'.published = g.published) (hazards : g'.hazards = g.hazards.apply e)
    (enabled : g.hazards.Enabled e) (store : ∀ y v, e = .store y v → y.1 = t)
    (given : ∀ a, x = some a → g.owner a = some t)
    (own : ∀ a, g.owner a ≠ none → x ≠ some a → g'.owner a = g.owner a)
    (gained : ∀ a, g'.owner a ≠ none → g.owner a ≠ none)
    (alive : ∀ a ∈ g.published, s.allocated a = true → e ≠ .free a → s'.allocated a = true) :
    Effect mHash t act x .none g g' s s' e where
  shape := hG'
  hazards := hazards
  enabled := enabled
  store := store
  given := given
  own b hb hx := ⟨own b hb hx, congrFun hh b, by rw [hp]⟩
  gained b hb := .inl (gained b hb)
  published b hb := .inl (hp ▸ hb)
  alive b hb hal hne := ⟨hp ▸ hb, alive b hb hal hne⟩
  content b _ _ := by rw [hh]; exact ⟨rfl, rfl⟩
  frozen b _ _ _ := by rw [hh]
  listed b _ hb := hl ▸ hb
  clear n b _ _ hcl := by
    unfold Clear
    rw [hh, hl]
    exact hcl
  rooted b hb _ := hl ▸ hb
  relink b _ _ := .same (congrArg (·.mNext.1) (congrFun hh b))
  keep b hb hm := by
    rw [hl, Shared.marked, hh]
    exact .inl ⟨hb, hm⟩
  fits := trivial
  holds := hG.holds_congr hG' hl fun b _ => congrFun hh b

theorem quiet_spec (hG : Shape mHash g s) (t : τ) (act : Act A K V) (d : Domain τ A) :
    Effect mHash t act none .none g g s { s with domain := d } .skip := by
  have hG' : Shape mHash g { s with domain := d } := { hG with }
  exact .of_heap hG hG' rfl rfl rfl rfl trivial nofun nofun (fun _ _ _ => rfl) (fun _ h => h)
    fun _ _ h _ => h

/-- A step that changes the slots of thread `t` only. -/
theorem store_spec (hG : Shape mHash g s) (t : τ) (act : Act A K V) (i : ℕ) (v : Option A)
    {d : Domain τ A} :
    Effect mHash t act none .none g { g with hazards := g.hazards.apply (.store (t, i) v) } s
      { s with domain := d } (.store (t, i) v) := by
  have hG' : Shape mHash { g with hazards := g.hazards.apply (.store (t, i) v) }
      { s with domain := d } := { hG with }
  refine .of_heap hG hG' rfl rfl rfl rfl trivial (fun y w h => ?_) nofun (fun _ _ _ => rfl)
    (fun _ h => h) fun _ _ h _ => h
  cases h
  rfl

omit [DecidableEq τ] in
theorem make_heap (s : Shared τ A K V) (x : HashValueType) (value : Option (K × V)) (hb : b ≠ a) :
    (s.make a x value).heap b = s.heap b := Function.update_of_ne hb _ _

omit [DecidableEq τ] [DecidableEq A] in
/-- An address that is handed out is not in use. -/
theorem Shape.ne_of_free (hG : Shape mHash g s) (ha : ¬ s.allocated a = true)
    (hb : b ∈ g.list ∨ b ∈ g.hazards.retired ∨ g.owner b ≠ none) : b ≠ a :=
  fun e => ha (e ▸ hG.allocated b hb)

omit [DecidableEq τ] in
theorem Shape.make (hG : Shape mHash g s) (t : τ) (ha : ¬ s.allocated a = true) (x : HashValueType)
    (value : Option (K × V)) :
    Shape mHash ⟨g.hazards, g.list, g.published \ {a}, Function.update g.owner a (some t)⟩
      (s.make a x value) := by
  have hlist : ∀ b ∈ g.list, b ≠ a := fun b hb => hG.ne_of_free ha (.inl hb)
  have hret : ∀ b ∈ g.hazards.retired, b ≠ a := fun b hb => hG.ne_of_free ha (.inr (.inl hb))
  have hheap : ∀ b, b ≠ a → (s.make a x value).heap b = s.heap b := fun b hb => make_heap s _ _ hb
  have howner : ∀ b, b ≠ a → Function.update g.owner a (some t) b = g.owner b := fun b hb =>
    Function.update_of_ne hb _ _
  exact
    { seg := hG.seg.congr fun b hb => congrArg (·.mNext.1) (hheap b (hlist b hb))
      sorted := fun b d hp => by
        rw [hheap b (hlist b hp.mem.1), hheap d (hlist d hp.mem.2)]
        exact hG.sorted b d hp
      unique := fun b hb d hd => by
        rw [hheap b (hlist b hb), hheap d (hlist d hd)]
        exact hG.unique b hb d hd
      listed := fun b hb => by
        obtain ⟨h1, h2, h3⟩ := hG.listed b hb
        exact ⟨⟨h1, hlist b hb⟩, h2, (howner b (hlist b hb)).trans h3⟩
      unlinked := fun b hb => by
        rw [Shared.marked, hheap b hb.2]
        exact hG.unlinked b hb.1
      ordinary := fun b hb => by
        rw [hheap b hb.2]
        exact hG.ordinary b hb.1
      sentinel := fun b hb => by
        rw [Shared.marked, hheap b hb.2]
        exact hG.sentinel b hb.1
      retired := fun b hb => by
        obtain ⟨h1, h2⟩ := hG.retired b hb
        exact ⟨⟨h1, hret b hb⟩, (howner b (hret b hb)).trans h2⟩
      allocated := fun b hb => by
        by_cases hba : b = a
        · simp [Shared.make, hba]
        · have hb' : b ∈ g.list ∨ b ∈ g.hazards.retired ∨ g.owner b ≠ none := by
            simpa [hba] using hb
          simpa [Shared.make, hba] using hG.allocated b hb'
      buckets := fun i b hb => by
        obtain ⟨h1, h2, h3⟩ := hG.buckets i b hb
        rw [hheap b (hlist b h1)]
        exact ⟨h1, h2, h3⟩ }

/-- A new node. -/
theorem make_spec (hG : Shape mHash g s) (t : τ) (ha : ¬ s.allocated a = true) {c : Call K V}
    (hc : c.value.map Prod.fst = c.key) :
    ∃ g', Effect mHash t (.alloc a) none .none g g' s (s.make a (c.hashValue mHash) c.value) .skip ∧
      Private mHash g' (s.make a (c.hashValue mHash) c.value) t c a := by
  have hlist : ∀ b ∈ g.list, b ≠ a := fun b hb => hG.ne_of_free ha (.inl hb)
  have hown : ∀ b, g.owner b ≠ none → b ≠ a := fun b hb => hG.ne_of_free ha (.inr (.inr hb))
  have hheap : ∀ b, b ≠ a → (s.make a (c.hashValue mHash) c.value).heap b = s.heap b := fun b hb =>
    make_heap s _ _ hb
  have howner : ∀ b, b ≠ a → Function.update g.owner a (some t) b = g.owner b := fun b hb =>
    Function.update_of_ne hb _ _
  have hG' := hG.make t ha (c.hashValue mHash) c.value
  refine ⟨_,
    { shape := hG'
      hazards := rfl
      enabled := trivial
      store := nofun
      given := nofun
      own := fun b hb _ => ⟨howner b (hown b hb), hheap b (hown b hb), by simp [hown b hb]⟩
      gained := fun b hb => ?_
      published := fun b hb => ?_
      alive := fun b hb hal _ => ?_
      content := fun b _ hb => by rw [hheap b hb.2]; exact ⟨rfl, rfl⟩
      frozen := fun b _ hb _ => by rw [hheap b hb.2]
      listed := fun _ _ h => h
      clear := fun n b _ hb hcl => ?_
      rooted := fun _ h _ => h
      relink := fun b _ hb => .same (congrArg (·.mNext.1) (hheap b hb.2))
      keep := fun b hb hm => ?_
      fits := trivial
      holds := hG.holds_congr hG' rfl fun b hb => hheap b (hlist b hb) }, ?_⟩
  · by_cases hba : b = a
    · exact .inr (.inr (hba ▸ rfl))
    · exact .inl (howner b hba ▸ hb)
  · by_cases hba : b = a
    · exact .inr (hba ▸ rfl)
    · exact .inl ⟨hb, hba⟩
  · have hba : b ≠ a := fun e => ha (e ▸ hal)
    exact ⟨⟨hb, hba⟩, by simpa [Shared.make, hba] using hal⟩
  · intro hle m hm
    rw [hheap b hb.2] at hle
    rw [hheap m (hlist m hm.mem.1)]
    exact hcl hle m hm
  · refine .inl ⟨hb, ?_⟩
    rw [Shared.marked, hheap b (hlist b hb)]
    exact hm
  · refine ⟨Function.update_self .., fun h => h.2 rfl, ?_, ?_, ?_⟩
    · simp [Shared.make, Node.name, Node.key, Call.name, hc]
    · simp [Shared.make]
    · simp [Shared.make, Shared.marked]

/-- The new node's link is set before it is linked. -/
theorem setNew_spec (hG : Shape mHash g s) (act : Act A K V) {c : Call K V}
    (ha : Private mHash g s t c a) (n : Option A) :
    Effect mHash t act (some a) .none g g s (s.setNext a (n, false)) .skip ∧
      Private mHash g (s.setNext a (n, false)) t c a ∧ (s.setNext a (n, false)).links a = n := by
  obtain ⟨ho, hpub, hname, hval, hmark⟩ := ha
  have hne : ∀ b ∈ g.published, b ≠ a := fun b hb e => hpub (e ▸ hb)
  have hheap : ∀ b ∈ g.published, (s.setNext a (n, false)).heap b = s.heap b := fun b hb =>
    setNext_heap s _ (hne b hb)
  have hmarked := congrFun (setNext_marked_same s n hmark)
  have hG' : Shape mHash g (s.setNext a (n, false)) :=
    { hG with
      seg := hG.seg.congr fun b hb => congrArg (·.mNext.1) (hheap b (hG.listed b hb).1)
      sorted := fun b d hp => by simpa using hG.sorted b d hp
      unique := fun b hb d hd => by simpa using hG.unique b hb d hd
      unlinked := fun b hb => by simpa [hmarked] using hG.unlinked b hb
      ordinary := fun b hb => by simpa using hG.ordinary b hb
      sentinel := fun b hb => by simpa [hmarked] using hG.sentinel b hb
      buckets := fun i b hb => by simpa using hG.buckets i b hb }
  refine ⟨
    { shape := hG'
      hazards := rfl
      enabled := trivial
      store := nofun
      given := fun b hb => Option.some.inj hb ▸ ho
      own := fun b _ hb => ⟨rfl, setNext_heap s _ fun e => hb (e ▸ rfl), Iff.rfl⟩
      gained := fun _ h => .inl h
      published := fun _ h => .inl h
      alive := fun _ hb hal _ => ⟨hb, hal⟩
      content := fun b _ _ => by simp
      frozen := fun b hb _ _ => by rw [hheap b hb]
      listed := fun _ _ h => h
      clear := fun n b _ _ hcl => by simpa [Clear] using hcl
      rooted := fun _ h _ => h
      relink := fun b hb _ => .same (congrArg (·.mNext.1) (hheap b hb))
      keep := fun b hb hm => .inl ⟨hb, (hmarked b).trans hm⟩
      fits := trivial
      holds := hG.holds_congr hG' rfl fun b hb => hheap b (hG.listed b hb).1 },
    ⟨ho, hpub, ?_, ?_, ?_⟩, ?_⟩
  · simpa using hname
  · simpa using hval
  · exact (hmarked a).trans hmark
  · simp [setNext_links]

/-- What linking the call's node adds. -/
def Call.adds : Call K V → Change K V
  | .add _ key value => .add key value
  | _ => .none

theorem Call.adds_eq (c : Call K V) : c.adds = match c.value with
    | some (k, v) => .add k v
    | none => .none := by
  cases c <;> rfl

omit [DecidableEq τ] [DecidableEq A] in
/-- No node of the list has the name that goes behind `a`. -/
theorem Shape.fresh (hG : Shape mHash g s) (ha : a ∈ g.list) (hl : s.links a = some b)
    {x : HashValueType × Option K} (hx : (s.heap a).name ≠ x) (hle : (s.heap a).mHashValue ≤ x.1)
    (hlt : x.1 < (s.heap b).mHashValue) (hc : Clear g s x a) {m : A} (hm : m ∈ g.list) :
    (s.heap m).name ≠ x := by
  rcases precedes_total ha hm with rfl | h | h
  · exact hx
  · intro he
    have h1 := hG.sorted_next ha hl h
    have h2 : (s.heap m).mHashValue = x.1 := congrArg Prod.fst he
    bv_omega
  · exact hc hle m h

omit [DecidableEq τ] in
theorem ne_none_of_update {f : A → Option τ} (h : Function.update f a none b ≠ none) :
    f b ≠ none := by
  by_cases hb : b = a
  · simp [hb] at h
  · rwa [Function.update_of_ne hb] at h

/-- The new node `a` can be linked behind `pred`, which makes the list `q`. -/
structure Linking (mHash : K → HashValueType) (g : Ghost τ A) (s : Shared τ A K V) (t : τ)
    (c : Call K V) (a pred cur : A) (q : List A) : Prop where
  new : Private mHash g s t c a
  listed : pred ∈ g.list
  next : (s.heap pred).mNext = (some cur, false)
  links : s.links a = some cur
  seg : Seg (Function.update s.links pred (some a)) (some s.mHead) q none
  mem : ∀ b, b ∈ q ↔ b = a ∨ b ∈ g.list
  precedes : ∀ b d, Precedes q b d → Precedes g.list b d ∨
    d = a ∧ (b = pred ∨ Precedes g.list b pred) ∨ b = a ∧ Precedes g.list pred d
  le : (s.heap pred).mHashValue ≤ c.hashValue mHash
  lt : c.hashValue mHash < (s.heap cur).mHashValue
  fresh : c.key ≠ none → ∀ b ∈ g.list, (s.heap b).key ≠ c.key

omit [DecidableEq τ] in
theorem Shape.linking (hG : Shape mHash g s) {c : Caller A K V} {h : Holders} {pred cur : A}
    (hleg : c.call.Legal mHash) (hp : Inserting mHash g s t c h pred cur)
    (hn : (s.heap pred).mNext = (some cur, false)) (ha : Private mHash g s t c.call a)
    (hl : s.links a = some cur) : ∃ q, Linking mHash g s t c.call a pred cur q := by
  obtain ⟨⟨⟨⟨hpub, -⟩, hclear⟩, hle, hne⟩, -, hlt⟩ := hp
  have hpl : s.links pred = some cur := congrArg Prod.fst hn
  have hpred : pred ∈ g.list := hG.mem_of_unmarked hpub (congrArg Prod.snd hn)
  have hlist : a ∉ g.list := fun h => ha.2.1 (hG.listed a h).1
  obtain ⟨q, hseg, hmem, hprec⟩ := hG.seg.insert hpred hlist (hl.trans hpl.symm)
  refine ⟨q, ha, hpred, hn, hl, hseg, hmem, hprec, hle, hlt, fun hk b hb he => ?_⟩
  -- an ordinary key is in the list once only
  have hs := hleg.strict hk
  refine hG.fresh hpred hpl (hne hs) hle hlt (hclear hs) hb (Prod.ext ?_ he)
  obtain ⟨k, hk⟩ := Option.ne_none_iff_exists'.1 hk
  exact (hG.ordinary b (hG.listed b hb).1 k (he.trans hk)).trans (Call.hashValue_of_key hk).symm

namespace Linking

variable {c : Call K V} {pred cur : A} {q : List A} (hL : Linking mHash g s t c a pred cur q)
include hL
omit [DecidableEq τ]

theorem ne_new (hb : b ∈ g.published) : b ≠ a := fun e => hL.new.2.1 (e ▸ hb)

theorem hashValue : (s.heap a).mHashValue = c.hashValue mHash := congrArg Prod.fst hL.new.2.2.1

theorem key : (s.heap a).key = c.key := congrArg Prod.snd hL.new.2.2.1

theorem marked : (s.setNext pred (some a, false)).marked = s.marked :=
  setNext_marked_same s _ (congrArg Prod.snd hL.next)

/-- The new node is in front of greater ones only. -/
theorem lt_of_precedes (hG : Shape mHash g s) (hb : Precedes g.list pred b) :
    c.hashValue mHash < (s.heap b).mHashValue :=
  Std.lt_of_lt_of_le hL.lt (hG.sorted_next hL.listed (congrArg Prod.fst hL.next) hb)

theorem shape (hG : Shape mHash g s) :
    Shape mHash ⟨g.hazards, q, insert a g.published, Function.update g.owner a none⟩
      (s.setNext pred (some a, false)) where
  seg := (setNext_links s (a := pred) (some a, false)) ▸ hL.seg
  sorted b d hbd := by
    rw [setNext_mHashValue, setNext_mHashValue]
    rcases hL.precedes b d hbd with h1 | ⟨rfl, rfl | h1⟩ | ⟨rfl, h1⟩
    · exact hG.sorted b d h1
    · exact hL.hashValue ▸ hL.le
    · exact Std.le_trans (hG.sorted b pred h1) (hL.hashValue ▸ hL.le)
    · exact hL.hashValue ▸ Std.le_of_lt (hL.lt_of_precedes hG h1)
  unique b hb d hd he hk := by
    rw [setNext_key] at he hk
    rw [setNext_key] at he
    rcases (hL.mem b).1 hb with rfl | hb1 <;> rcases (hL.mem d).1 hd with rfl | hd1
    · rfl
    · exact absurd (he.symm.trans hL.key) (hL.fresh (hL.key ▸ hk) d hd1)
    · exact absurd (he.trans hL.key) (hL.fresh (hL.key ▸ he ▸ hk) b hb1)
    · exact hG.unique b hb1 d hd1 he hk
  listed b hb := by
    rcases (hL.mem b).1 hb with rfl | hb
    · refine ⟨Set.mem_insert .., fun hr => ?_, Function.update_self ..⟩
      exact hL.new.2.1 (hG.retired _ hr).1
    · obtain ⟨h1, h2, h3⟩ := hG.listed b hb
      exact ⟨.inr h1, h2, (Function.update_of_ne (hL.ne_new h1) _ _).trans h3⟩
  unlinked b hb hbq := by
    rw [hL.marked]
    rcases hb with rfl | hb
    · exact absurd ((hL.mem _).2 (.inl rfl)) hbq
    · exact hG.unlinked b hb fun hm => hbq ((hL.mem b).2 (.inr hm))
  ordinary b hb k hk := by
    rw [setNext_key] at hk
    rw [setNext_mHashValue]
    rcases hb with rfl | hb
    · exact hL.hashValue.trans (Call.hashValue_of_key (hL.key.symm.trans hk))
    · exact hG.ordinary b hb k hk
  sentinel b hb hk := by
    rw [setNext_key] at hk
    rw [hL.marked, setNext_mHashValue]
    rcases hb with rfl | hb
    · refine ⟨hL.new.2.2.2.2, fun i => ?_⟩
      have hins := hL.key.symm.trans hk
      rw [hL.hashValue]
      cases c <;> cases hins
      exact makeSentinelKey_ne _ i
    · exact hG.sentinel b hb hk
  retired b hb := by
    obtain ⟨h1, h2⟩ := hG.retired b hb
    exact ⟨.inr h1, (Function.update_of_ne (hL.ne_new h1) _ _).trans h2⟩
  allocated b hb := by
    by_cases hba : b = a
    · exact hba ▸ hG.allocated a (.inr (.inr (by simp [hL.new.1])))
    · exact hG.allocated b (by simpa [hL.mem, hba] using hb)
  buckets i b hb := by
    obtain ⟨h1, h2⟩ := hG.buckets i b hb
    exact ⟨(hL.mem b).2 (.inr h1), by simpa using h2⟩

theorem clear (hG : Shape mHash g s) (hg' : g'.list = q) {x : HashValueType × Option K}
    (hb : b ∈ g.published) (hc : Clear g s x b) :
    Clear g' (s.setNext pred (some a, false)) x b := by
  intro hle m hm
  rw [setNext_mHashValue] at hle
  rw [setNext_name]
  rw [hg'] at hm
  rcases hL.precedes m b hm with h1 | ⟨rfl, -⟩ | ⟨rfl, h1⟩
  · exact hc hle m h1
  · exact absurd rfl (hL.ne_new hb)
  · intro he
    have h2 := hL.lt_of_precedes hG h1
    have h3 : (s.heap m).mHashValue = x.1 := congrArg Prod.fst he
    rw [hL.hashValue] at h3
    bv_omega

theorem relink (hG : Shape mHash g s) (hg' : g'.list = q) (b : A) :
    Relink g g' s (s.setNext pred (some a, false)) b := by
  have hlinks := setNext_links s (a := pred) (some a, false)
  by_cases hbp : b = pred
  · subst hbp
    have hab := (hL.ne_new (hG.listed b hL.listed).1).symm
    have ha : a ∈ g'.list := hg' ▸ (hL.mem a).2 (.inl rfl)
    refine .insert a cur (congrArg Prod.fst hL.next) (by simp [hlinks]) ?_ ha ?_
    · rw [hlinks, Function.update_of_ne hab]
      exact hL.links
    · rw [setNext_mHashValue, hL.hashValue]
      exact hL.lt
  · exact .same (by rw [hlinks, Function.update_of_ne hbp])

theorem fits (hG : Shape mHash g s) : c.adds.Fits s.Holds := by
  rw [Call.adds_eq]
  cases hc : c.value with
  | none => trivial
  | some kv =>
    intro v hv
    obtain ⟨b, hb, -, hbv⟩ := hG.holds_iff.1 hv
    have hk : c.key = some kv.1 := by
      rw [← hL.key, Node.key, hL.new.2.2.2.1, hc]
      rfl
    refine hL.fresh (by simp [hk]) b hb ?_
    rw [hk, Node.key, hbv]
    rfl

theorem holds (hG : Shape mHash g s) (k : K) (v : V) :
    (s.setNext pred (some a, false)).Holds k v ↔ c.adds.apply s.Holds k v := by
  have hold : (s.setNext pred (some a, false)).Holds k v ↔
      s.Holds k v ∨ c.value = some (k, v) := by
    rw [(hL.shape hG).holds_iff, hG.holds_iff, ← hL.new.2.2.2.1]
    simp only [hL.mem, hL.marked, setNext_mValue]
    constructor
    · rintro ⟨b, rfl | hb, h1, h2⟩
      · exact .inr h2
      · exact .inl ⟨b, hb, h1, h2⟩
    · rintro (⟨b, hb, h1, h2⟩ | h2)
      · exact ⟨b, .inr hb, h1, h2⟩
      · exact ⟨a, .inl rfl, hL.new.2.2.2.2, h2⟩
  rw [Call.adds_eq, hold]
  cases c.value with
  | none => simp [Change.apply]
  | some kv =>
    obtain ⟨k', v'⟩ := kv
    simp [Change.apply, eq_comm]

end Linking

/-- The compare-and-swap that links the new node. -/
theorem link_spec (hG : Shape mHash g s) (act : Act A K V) {c : Caller A K V} {h : Holders}
    {pred cur : A} (hleg : c.call.Legal mHash) (hp : Inserting mHash g s t c h pred cur)
    (hn : (s.heap pred).mNext = (some cur, false)) (ha : Private mHash g s t c.call a)
    (hl : s.links a = some cur) :
    ∃ g', Effect mHash t act (some a) c.call.adds g g' s (s.setNext pred (some a, false)) .skip ∧
      a ∈ g'.list := by
  obtain ⟨q, hL⟩ := hG.linking hleg hp hn ha hl
  refine ⟨_,
    { shape := hL.shape hG
      hazards := rfl
      enabled := trivial
      store := nofun
      given := fun b hb => Option.some.inj hb ▸ ha.1
      own := fun b hb hx => ?_
      gained := fun b hb => .inl (ne_none_of_update hb)
      published := fun b hb => .inl (.inr hb)
      alive := fun b hb hal _ => ⟨.inr hb, hal⟩
      content := fun b _ _ => by simp
      frozen := fun b _ _ hb => ?_
      listed := fun b hb hbq => ((hL.mem b).1 hbq).resolve_left (hL.ne_new hb)
      clear := fun _ b hb _ hcl => hL.clear hG rfl hb hcl
      rooted := fun b hb _ => (hL.mem b).2 (.inr hb)
      relink := fun b _ _ => hL.relink hG rfl b
      keep := fun b hb hm => .inl ⟨(hL.mem b).2 (.inr hb), (congrFun hL.marked b).trans hm⟩
      fits := hL.fits hG
      holds := hL.holds hG }, (hL.mem a).2 (.inl rfl)⟩
  · have hba : b ≠ a := fun e => hx (e ▸ rfl)
    have hbp : b ≠ pred := fun e => hb (e ▸ (hG.listed pred hL.listed).2.2)
    exact ⟨Function.update_of_ne hba _ _, setNext_heap s _ hbp, by simp [hba]⟩
  · have hbp : b ≠ pred := by
      rintro rfl
      cases hb.symm.trans (congrArg Prod.snd hn)
    rw [setNext_heap s _ hbp]

/-- The marked node `cur` can be unlinked from `pred`, which leaves the list `q`. -/
structure Cutting (g : Ghost τ A) (s : Shared τ A K V) (pred cur : A) (q : List A) : Prop where
  listed : pred ∈ g.list
  next : (s.heap pred).mNext = (some cur, false)
  marked : s.marked cur = true
  seg : Seg (Function.update s.links pred (s.links cur)) (some s.mHead) q none
  mem : ∀ b, b ∈ q ↔ b ∈ g.list ∧ b ≠ cur
  sub : q.Sublist g.list

omit [DecidableEq τ] in
theorem Shape.cutting (hG : Shape mHash g s) {pred cur : A} (hpub : pred ∈ g.published)
    (hn : (s.heap pred).mNext = (some cur, false)) (hm : s.marked cur = true) :
    ∃ q, Cutting g s pred cur q := by
  have hpred : pred ∈ g.list := hG.mem_of_unmarked hpub (congrArg Prod.snd hn)
  obtain ⟨q, hseg, hmem, hsub⟩ := hG.seg.unlink hpred (congrArg Prod.fst hn)
  exact ⟨q, hpred, hn, hm, hseg, hmem, hsub⟩

namespace Cutting

variable {pred cur : A} {q : List A} (hC : Cutting g s pred cur q)
include hC
omit [DecidableEq τ]

theorem cur_mem (hG : Shape mHash g s) : cur ∈ g.list :=
  hG.seg.next_mem hC.listed (congrArg Prod.fst hC.next)

theorem marked_eq : (s.setNext pred (s.links cur, false)).marked = s.marked :=
  setNext_marked_same s _ (congrArg Prod.snd hC.next)

theorem ne_pred (hb : s.marked b = true) : b ≠ pred := by
  rintro rfl
  cases hb.symm.trans (congrArg Prod.snd hC.next)

/-- A node that is not marked stays in the list. -/
theorem keep (hb : b ∈ g.list) (hm : s.marked b = false) : b ∈ q := by
  refine (hC.mem b).2 ⟨hb, ?_⟩
  rintro rfl
  cases hm.symm.trans hC.marked

/-- So does the one behind the node that is unlinked. -/
theorem succ_mem (hG : Shape mHash g s) {p : A} (hp : s.links cur = some p) : p ∈ q := by
  have hcur := hC.cur_mem hG
  refine (hC.mem p).2 ⟨hG.seg.next_mem hcur hp, ?_⟩
  rintro rfl
  have h1 := (hG.seg.next_precedes hcur hp).2 (.inl rfl)
  obtain ⟨q₁, q₂, hq, -, -⟩ := hG.seg.split hcur
  have hnd := hG.seg.nodup
  rw [hq] at h1 hnd
  exact (List.nodup_cons.1 (List.nodup_append.1 hnd).2.1).1 ((precedes_left_iff hnd).1 h1)

theorem shape (hG : Shape mHash g s) (t : τ) :
    Shape mHash ⟨g.hazards, q, g.published, Function.update g.owner cur (some t)⟩
      (s.setNext pred (s.links cur, false)) where
  seg := (setNext_links s (a := pred) (s.links cur, false)) ▸ hC.seg
  sorted b d hbd := by simpa using hG.sorted b d (hbd.mono hC.sub)
  unique b hb d hd := by simpa using hG.unique b ((hC.mem b).1 hb).1 d ((hC.mem d).1 hd).1
  listed b hb := by
    obtain ⟨h1, h2⟩ := (hC.mem b).1 hb
    obtain ⟨h3, h4, h5⟩ := hG.listed b h1
    exact ⟨h3, h4, (Function.update_of_ne h2 _ _).trans h5⟩
  unlinked b hb hbq := by
    rw [hC.marked_eq]
    by_cases hbc : b = cur
    · exact hbc ▸ hC.marked
    · exact hG.unlinked b hb fun h => hbq ((hC.mem b).2 ⟨h, hbc⟩)
  ordinary b hb := by simpa using hG.ordinary b hb
  sentinel b hb := by simpa [hC.marked_eq] using hG.sentinel b hb
  retired b hb := by
    have hbc : b ≠ cur := fun e => (hG.listed cur (hC.cur_mem hG)).2.1 (e ▸ hb)
    obtain ⟨h1, h2⟩ := hG.retired b hb
    exact ⟨h1, (Function.update_of_ne hbc _ _).trans h2⟩
  allocated b hb := by
    by_cases hbc : b = cur
    · exact hbc ▸ hG.allocated cur (.inl (hC.cur_mem hG))
    · exact hG.allocated b (by simpa [hC.mem, hbc] using hb)
  buckets i b hb := by
    obtain ⟨h1, h2, h3⟩ := hG.buckets i b hb
    refine ⟨hC.keep h1 ?_, by simpa using h2, by simpa using h3⟩
    exact (hG.sentinel b (hG.listed b h1).1 h2).1

/-- What is unlinked was not there any more. -/
theorem holds (hG : Shape mHash g s) (t : τ) (k : K) (v : V) :
    (s.setNext pred (s.links cur, false)).Holds k v ↔ s.Holds k v := by
  rw [(hC.shape hG t).holds_iff, hG.holds_iff]
  simp only [hC.marked_eq, setNext_mValue]
  refine exists_congr fun b => ⟨fun h => ⟨((hC.mem b).1 h.1).1, h.2⟩, fun h => ?_⟩
  exact ⟨hC.keep h.1 h.2.1, h.2⟩

end Cutting

/-- The compare-and-swap that unlinks a marked node. -/
theorem unlink_spec (hG : Shape mHash g s) (t : τ) (act : Act A K V) {pred cur : A}
    (hpub : pred ∈ g.published) (hn : (s.heap pred).mNext = (some cur, false))
    (hm : s.marked cur = true) :
    ∃ g', Effect mHash t act none .none g g' s (s.setNext pred (s.links cur, false)) .skip ∧
      cur ∈ g.list ∧ Unlinked g' t cur ∧ pred ∈ g'.list ∧
        ∀ p, s.links cur = some p → p ∈ g.list ∧ p ∈ g'.list := by
  obtain ⟨q, hC⟩ := hG.cutting hpub hn hm
  have hcur := hC.cur_mem hG
  have howner : ∀ b, b ≠ cur → Function.update g.owner cur (some t) b = g.owner b := fun b hb =>
    Function.update_of_ne hb _ _
  refine ⟨_,
    { shape := hC.shape hG t
      hazards := rfl
      enabled := trivial
      store := nofun
      given := nofun
      own := fun b hb _ => ?_
      gained := fun b hb => ?_
      published := fun _ h => .inl h
      alive := fun _ hb hal _ => ⟨hb, hal⟩
      content := fun b _ _ => by simp
      frozen := fun b _ _ hb => by rw [setNext_heap s _ (hC.ne_pred hb)]
      listed := fun b _ hb => ((hC.mem b).1 hb).1
      clear := fun n b _ _ hcl hle d hd => by
        rw [setNext_name]
        exact hcl (by simpa using hle) d (hd.mono hC.sub)
      rooted := fun b hb hk => hC.keep hb (hG.sentinel b (hG.listed b hb).1 hk).1
      relink := fun b _ _ => ?_
      keep := fun b hb hbm => .inl ⟨hC.keep hb hbm, (congrFun hC.marked_eq b).trans hbm⟩
      fits := trivial
      holds := hC.holds hG t }, hcur, ⟨Function.update_self .., (hG.listed cur hcur).1⟩,
    hC.keep hC.listed (congrArg Prod.snd hn),
    fun p hp => ⟨hG.seg.next_mem hcur hp, hC.succ_mem hG hp⟩⟩
  · have hbc : b ≠ cur := fun e => hb (e ▸ (hG.listed cur hcur).2.2)
    have hbp : b ≠ pred := fun e => hb (e ▸ (hG.listed pred hC.listed).2.2)
    exact ⟨howner b hbc, setNext_heap s _ hbp, Iff.rfl⟩
  · by_cases hbc : b = cur
    · exact .inr (.inl (hbc ▸ hcur))
    · exact .inl (howner b hbc ▸ hb)
  · have hlinks := setNext_links s (a := pred) (s.links cur, false)
    by_cases hbp : b = pred
    · subst hbp
      exact .unlink cur (congrArg Prod.fst hn) hcur hm (by rw [hlinks, Function.update_self])
    · exact .same (by rw [hlinks, Function.update_of_ne hbp])

/-- What marking the node a call has found removes. -/
def Call.removes (c : Call K V) : Change K V :=
  match c.key with
  | some key => .remove key
  | none => .none

omit [DecidableEq τ] in
theorem Shape.mark (hG : Shape mHash g s) {cur : A} {succ : Option A} (hl : s.links cur = succ)
    (hcur : cur ∈ g.list) (hk : (s.heap cur).key ≠ none) :
    Shape mHash g (s.setNext cur (succ, true)) := by
  have hlinks : (s.setNext cur (succ, true)).links = s.links := by
    rw [setNext_links, ← hl, Function.update_eq_self]
  have hmarked : ∀ b, b ≠ cur → (s.setNext cur (succ, true)).marked b = s.marked b := fun b hb => by
    simp [setNext_marked, hb]
  exact
    { hG with
      seg := hlinks ▸ hG.seg
      sorted := fun b d hbd => by simpa using hG.sorted b d hbd
      unique := fun b hb d hd => by simpa using hG.unique b hb d hd
      unlinked := fun b hb hbl => by
        rw [hmarked b fun e => hbl (e ▸ hcur)]
        exact hG.unlinked b hb hbl
      ordinary := fun b hb => by simpa using hG.ordinary b hb
      sentinel := fun b hb hbk => by
        rw [setNext_key] at hbk
        have hbc : b ≠ cur := fun e => hk (e ▸ hbk)
        rw [hmarked b hbc, setNext_mHashValue]
        exact hG.sentinel b hb hbk
      buckets := fun i b hb => by simpa using hG.buckets i b hb }

/-- The compare-and-swap that marks a node. -/
theorem mark_spec (hG : Shape mHash g s) (t : τ) (act : Act A K V) {c : Call K V} {cur : A}
    {succ : Option A} (hpub : cur ∈ g.published) (hn : (s.heap cur).mNext = (succ, false))
    (hk : (s.heap cur).key = c.key) (hk' : c.key ≠ none) :
    Effect mHash t act none c.removes g g s (s.setNext cur (succ, true)) .skip ∧
      (s.setNext cur (succ, true)).marked cur = true ∧
        (s.setNext cur (succ, true)).links cur = succ := by
  obtain ⟨key, hkey⟩ := Option.ne_none_iff_exists'.1 hk'
  have hm : s.marked cur = false := congrArg Prod.snd hn
  have hcur : cur ∈ g.list := hG.mem_of_unmarked hpub hm
  have hlinks : (s.setNext cur (succ, true)).links = s.links := by
    have hl : succ = s.links cur := (congrArg Prod.fst hn).symm
    rw [setNext_links, hl, Function.update_eq_self]
  have hmarked : ∀ b, b ≠ cur → (s.setNext cur (succ, true)).marked b = s.marked b := fun b hb => by
    simp [setNext_marked, hb]
  have hself : (s.setNext cur (succ, true)).marked cur = true := by simp [setNext_marked]
  have hδ : c.removes = .remove key := by rw [Call.removes, hkey]
  obtain ⟨v, hv⟩ : ∃ v, (s.heap cur).mValue = some (key, v) := by
    obtain ⟨⟨k, v⟩, h1, h2⟩ := Option.map_eq_some_iff.1 (hk.trans hkey)
    exact ⟨v, h1.trans (by rw [← h2])⟩
  have hne : ∀ b ∈ g.list, b ≠ cur ↔ (s.heap b).key ≠ some key := fun b hb => by
    refine ⟨fun h he => h ?_, fun h he => h (he ▸ hk.trans hkey)⟩
    exact hG.unique b hb cur hcur (he.trans (hk.trans hkey).symm) (by simp [he])
  have hG' := hG.mark (congrArg Prod.fst hn) hcur (hk ▸ hk')
  refine ⟨
    { shape := hG'
      hazards := rfl
      enabled := trivial
      store := nofun
      given := nofun
      own := fun b hb _ => ⟨rfl, setNext_heap s _
        fun e => hb (e ▸ (hG.listed cur hcur).2.2), Iff.rfl⟩
      gained := fun _ h => .inl h
      published := fun _ h => .inl h
      alive := fun _ hb hal _ => ⟨hb, hal⟩
      content := fun b _ _ => by simp
      frozen := fun b _ _ hb => ?_
      listed := fun _ _ h => h
      clear := fun n b _ _ hcl => by simpa [Clear] using hcl
      rooted := fun _ h _ => h
      relink := fun b _ _ => .same (congrFun hlinks b)
      keep := fun b hb hbm => ?_
      fits := ?_
      holds := fun k v => ?_ }, hself, ?_⟩
  · have hbc : b ≠ cur := fun e => by
      rw [e, hm] at hb
      cases hb
    rw [setNext_heap s _ hbc]
  · by_cases hbc : b = cur
    · exact .inr ⟨key, hδ, hbc ▸ hk.trans hkey⟩
    · exact .inl ⟨hb, (hmarked b hbc).trans hbm⟩
  · rw [hδ]
    exact ⟨v, hG.holds_iff.2 ⟨cur, hcur, hm, hv⟩⟩
  · rw [hδ, hG'.holds_iff, Change.apply, hG.holds_iff]
    simp only [setNext_mValue]
    constructor
    · rintro ⟨b, hb, hbm, hbv⟩
      have hbc : b ≠ cur := fun e => by
        rw [e, hself] at hbm
        cases hbm
      refine ⟨⟨b, hb, (hmarked b hbc) ▸ hbm, hbv⟩, ?_⟩
      rintro rfl
      exact (hne b hb).1 hbc (congrArg (Option.map Prod.fst) hbv)
    · rintro ⟨⟨b, hb, hbm, hbv⟩, hkk⟩
      have hbc : b ≠ cur := (hne b hb).2 fun he =>
        hkk (Option.some.inj ((congrArg (Option.map Prod.fst) hbv).symm.trans he))
      exact ⟨b, hb, (hmarked b hbc).trans hbm, hbv⟩
  · exact (congrFun hlinks cur).trans (congrArg Prod.fst hn)

theorem retire_spec (hG : Shape mHash g s) (act : Act A K V) (ha : Unlinked g t a) :
    ∃ g', Effect mHash t act (some a) .none g g' s { s with domain := s.domain.retire t a }
      (.retire a) := by
  have hret : a ∉ g.hazards.retired := fun h => by simpa [ha.1] using (hG.retired a h).2
  have hlist : ∀ b ∈ g.list, b ≠ a := fun b hb e => by
    simpa [ha.1] using (hG.listed a (e ▸ hb)).2.2
  have howner : ∀ b, b ≠ a → Function.update g.owner a none b = g.owner b := fun b hb =>
    Function.update_of_ne hb _ _
  have hG' : Shape mHash
      { g with hazards := g.hazards.apply (.retire a), owner := Function.update g.owner a none }
      { s with domain := s.domain.retire t a } :=
    { hG with
      listed := fun b hb => by
        obtain ⟨h1, h2, h3⟩ := hG.listed b hb
        refine ⟨h1, fun h => ?_, (howner b (hlist b hb)).trans h3⟩
        exact h.elim (hlist b hb) h2
      retired := fun b hb => by
        rcases hb with rfl | hb
        · exact ⟨ha.2, Function.update_self ..⟩
        · have hba : b ≠ a := fun e => hret (e ▸ hb)
          exact ⟨(hG.retired b hb).1, (howner b hba).trans (hG.retired b hb).2⟩
      allocated := fun b hb => by
        by_cases hba : b = a
        · exact hba ▸ hG.allocated a (.inr (.inr (by simp [ha.1])))
        · exact hG.allocated b (by simpa [hba, Hazards.apply] using hb) }
  exact ⟨_, .of_heap hG hG' rfl rfl rfl rfl hret (by simp) (fun b hb => Option.some.inj hb ▸ ha.1)
    (fun b _ hx => howner b fun e => hx (e ▸ rfl)) (fun b hb => ne_none_of_update hb)
    fun _ _ h _ => h⟩

/-- A deleter runs. -/
theorem free_spec (hG : Shape mHash g s) (t : τ) (act : Act A K V) {d : Domain τ A}
    (he : g.hazards.Enabled (.free a)) :
    ∃ g', Effect mHash t act none .none g g' s ({ s with domain := d }.free a) (.free a) := by
  obtain ⟨-, ho⟩ := hG.retired a he.1
  have hlist : ∀ b ∈ g.list, b ≠ a := fun b hb e => (hG.listed a (e ▸ hb)).2.1 he.1
  have hG' : Shape mHash { g with hazards := g.hazards.apply (.free a) }
      ({ s with domain := d }.free a) :=
    { hG with
      listed := fun b hb => ⟨(hG.listed b hb).1, fun h => (hG.listed b hb).2.1 h.1,
        (hG.listed b hb).2.2⟩
      retired := fun b hb => hG.retired b hb.1
      allocated := fun b hb => by
        have hba : b ≠ a := fun e => by
          subst e
          rcases hb with hb | hb | hb
          · exact hlist b hb rfl
          · exact hb.2 rfl
          · exact hb ho
        exact (Function.update_of_ne hba _ _).trans
          (hG.allocated b (hb.imp id fun h => h.imp (·.1) id)) }
  refine ⟨_, .of_heap hG hG' rfl rfl rfl rfl he nofun nofun (fun _ _ _ => rfl) (fun _ h => h)
    fun b hb hal hne => ?_⟩
  have hba : b ≠ a := fun e => hne (congrArg _ e.symm)
  exact (Function.update_of_ne hba _ _).trans hal

/-- The node a call has not linked is deleted. -/
theorem delete_spec (hG : Shape mHash g s) (act : Act A K V) {c : Call K V}
    (ha : Private mHash g s t c a) :
    ∃ g', Effect mHash t act (some a) .none g g' s (s.free a) .skip := by
  obtain ⟨ho, hpub, -⟩ := ha
  have hnew : ∀ b ∈ g.published, b ≠ a := fun b hb e => hpub (e ▸ hb)
  have howner : ∀ b, b ≠ a → Function.update g.owner a none b = g.owner b := fun b hb =>
    Function.update_of_ne hb _ _
  have hG' : Shape mHash { g with owner := Function.update g.owner a none } (s.free a) :=
    { hG with
      listed := fun b hb => by
        obtain ⟨h1, h2, h3⟩ := hG.listed b hb
        exact ⟨h1, h2, (howner b (hnew b h1)).trans h3⟩
      retired := fun b hb => by
        obtain ⟨h1, h2⟩ := hG.retired b hb
        exact ⟨h1, (howner b (hnew b h1)).trans h2⟩
      allocated := fun b hb => by
        have hba : b ≠ a := fun e => by
          subst e
          rcases hb with hb | hb | hb
          · exact hpub (hG.listed b hb).1
          · exact hpub (hG.retired b hb).1
          · simp at hb
        exact (Function.update_of_ne hba _ _).trans (hG.allocated b (by simpa [hba] using hb)) }
  exact ⟨_, .of_heap hG hG' rfl rfl rfl rfl trivial nofun (fun b hb => Option.some.inj hb ▸ ho)
    (fun b _ hx => howner b fun e => hx (e ▸ rfl)) (fun b hb => ne_none_of_update hb)
    fun b hb hal _ => (Function.update_of_ne (hnew b hb) _ _).trans hal⟩

/-- A bucket gets its sentinel. -/
theorem publish_spec (hG : Shape mHash g s) (t : τ) (act : Act A K V) {parent index : HashValueType}
    (ha : Rooted mHash g s (.insertSentinel parent index : Call K V) a) :
    Effect mHash t act none .none g g s (s.setBucket index a) .skip := by
  have hG' : Shape mHash g (s.setBucket index a) :=
    { hG with
      buckets := fun i b hb => by
        by_cases hi : i = index
        · subst hi
          obtain rfl : a = b := by simpa [Shared.setBucket] using hb
          exact ha
        · exact hG.buckets i b (by simpa [Shared.setBucket, hi] using hb) }
  exact .of_heap hG hG' rfl rfl rfl rfl trivial nofun nofun (fun _ _ _ => rfl) (fun _ h => h)
    fun _ _ h _ => h

end LockFreeHashMap

end ConcurrencySandbox

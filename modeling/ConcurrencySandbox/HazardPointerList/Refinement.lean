import ConcurrencySandbox.HazardPointerList.Basic
import ConcurrencySandbox.Interleaving.Simulation
import ConcurrencySandbox.Structures.Chain

/-!
# The list of nodes refines the list of slots

The nodes from `mHead` on are those of the slots that `HazardPointer.Domain` has in its list, in the
same order (`Matches`). A node that is being appended is its thread's own until the
compare-and-swap, and the chain behind a node in the list never changes: so what a scan has still to
pass is what the slots of `getPointers` still to be read are.
-/

namespace ConcurrencySandbox

open Interleaving Structures HazardPointer

namespace HazardPointerList

variable {τ L B A : Type*}

/-- The nodes `q` of the list are those of the slots; the rest is the same. -/
structure Matches (q : List B) (s : Shared τ L B A) (S : HazardPointer.Shared τ L A) : Prop where
  location : S.location = s.location
  life : S.life = s.life
  mSize : S.domain.mSize = s.mSize
  globalDeleteList : S.domain.globalDeleteList = s.globalDeleteList
  localDeleteList : S.domain.localDeleteList = s.localDeleteList
  chain : Seg s.mNext s.mHead q none
  slots : S.domain.hazardPointerList.map s.owner = q.map some
  pointer : ∀ x b, s.owner x = some b → S.domain.mPointer x = s.mPointer b
  unmade : ∀ x, s.owner x = none → S.domain.mPointer x = none
  inj : ∀ x y b, s.owner x = some b → s.owner y = some b → x = y
  allocated : ∀ x b, s.owner x = some b → s.allocated b = true

/-- The node of slot `i` is not in the list yet. -/
def Private (q : List B) (s : Shared τ L B A) (t : τ) (i : ℕ) (b : B) : Prop :=
  s.owner (t, i) = some b ∧ b ∉ q ∧ ∀ k, i < k → s.owner (t, k) = none

/-- The nodes from `cur` on are in the list, and are those of the slots `rest`. -/
def Ahead (q : List B) (s : Shared τ L B A) (cur : Option B) (rest : List (τ × ℕ)) : Prop :=
  ∃ r, Seg s.mNext cur r none ∧ rest.map s.owner = r.map some ∧ ∀ b ∈ r, b ∈ q

/-- A thread inside the domain, and where it is there in `HazardPointer.Domain`. -/
def FrameAt (N : ℕ) (q : List B) (s : Shared τ L B A) (t : τ) :
    Frame B A → HazardPointer.Frame τ A → Prop
  | .unstarted, F => F = .unstarted ∧ ∀ k, s.owner (t, k) = none
  | .owner i, F => F = .owner i ∧ ∀ k, i ≤ k → s.owner (t, k) = none
  | .appendNext i b, F | .appendSize i b, F => F = .owner i ∧ i < N ∧ Private q s t i b
  | .appendCas i b, F => F = .append i ∧ Private q s t i b
  | .ready, F => F = .ready
  | .retireTest, F => F = .retireTest
  | .loadGlobal, F => F = .loadGlobal
  | .resetGlobal, F => F = .resetGlobal
  | .reserve, F | .loadHead, F => F = .loadHead
  | .getPointers cur arr, F => ∃ rest, F = .getPointers rest arr ∧ Ahead q s cur rest
  | .getNext cur arr, F => ∃ rest, F = .getPointers rest arr ∧ cur ∈ q ∧
      Ahead q s (s.mNext cur) rest
  | .filter cur arr, F => F = .filter cur arr
  | .exitOwner i listLeft, F => F = .exitOwner i listLeft
  | .exitList ownersLeft, F => F = .exitList ownersLeft
  | .exited, F => F = .exited

def PlacedAt (N : ℕ) (q : List B) (s : Shared τ L B A) (t : τ) :
    PC L B A → HazardPointer.PC τ L A → Prop
  | .domain f, P => ∃ F, P = .domain F ∧ FrameAt N q s t f F
  | .claimLoad l i, P => P = .claimLoad l i
  | .claimStore l i p, P => P = .claimStore l i p
  | .claimCheck l i p, P => P = .claimCheck l i p
  | .claimed i p, P => P = .claimed i p

/-- The two systems side by side. -/
structure RefinedAt (N : ℕ) (q : List B) (c : Conf τ (Shared τ L B A) (PC L B A))
    (c' : Conf τ (HazardPointer.Shared τ L A) (HazardPointer.PC τ L A)) : Prop where
  shared : Matches q c.shared c'.shared
  pc : ∀ t, PlacedAt N q c.shared t (c.pc t) (c'.pc t)

variable {N : ℕ} {q q' : List B} {s s' : Shared τ L B A}
    {S S' : HazardPointer.Shared τ L A} {t u : τ}
  {f : Frame B A} {F : HazardPointer.Frame τ A} {p p' : PC L B A} {P P' : HazardPointer.PC τ L A}
  {i : ℕ} {b : B} {rest : List (τ × ℕ)} {cur : Option B}

/-! ### What a step leaves alone -/

/-- The list grows, and its nodes stay as they are. -/
structure Grows (q : List B) (s : Shared τ L B A) (q' : List B) (s' : Shared τ L B A) (t : τ) :
    Prop where
  suffix : q <:+ q'
  next : ∀ b ∈ q, s'.mNext b = s.mNext b
  owner : ∀ x b, s.owner x = some b → s'.owner x = some b
  unmade : ∀ x, x.1 ≠ t → s.owner x = none → s'.owner x = none
  own : ∀ x b, x.1 ≠ t → s.owner x = some b → b ∉ q → b ∉ q'

theorem Grows.refl (q : List B) (s : Shared τ L B A) (t : τ) : Grows q s q s t :=
  ⟨List.suffix_rfl, fun _ _ => rfl, fun _ _ h => h, fun _ _ h => h, fun _ _ _ _ h => h⟩

theorem Grows.mem (hg : Grows q s q' s' t) (hb : b ∈ q) : b ∈ q' := hg.suffix.subset hb

theorem Ahead.grows (hA : Ahead q s cur rest) (hg : Grows q s q' s' t) : Ahead q' s' cur rest := by
  obtain ⟨r, h1, h2, h3⟩ := hA
  refine ⟨r, h1.congr fun b hb => hg.next b (h3 b hb), ?_, fun b hb => hg.mem (h3 b hb)⟩
  rw [← h2]
  refine List.map_congr_left fun x hx => ?_
  have hx' : s.owner x ∈ r.map some := h2 ▸ List.mem_map_of_mem hx
  obtain ⟨b, -, hb⟩ := List.mem_map.1 hx'
  rw [← hb, hg.owner x b hb.symm]

theorem Private.grows (hp : Private q s u i b) (hg : Grows q s q' s' t) (hu : u ≠ t) :
    Private q' s' u i b :=
  ⟨hg.owner _ _ hp.1, hg.own _ _ hu hp.1 hp.2.1, fun k hk => hg.unmade _ hu (hp.2.2 k hk)⟩

theorem FrameAt.grows (h : FrameAt N q s u f F) (hg : Grows q s q' s' t) (hu : u ≠ t) :
    FrameAt N q' s' u f F := by
  cases f with
  | unstarted => exact ⟨h.1, fun k => hg.unmade _ hu (h.2 k)⟩
  | owner i => exact ⟨h.1, fun k hk => hg.unmade _ hu (h.2 k hk)⟩
  | appendNext i b | appendSize i b => exact ⟨h.1, h.2.1, h.2.2.grows hg hu⟩
  | appendCas i b => exact ⟨h.1, h.2.grows hg hu⟩
  | getPointers cur arr =>
    obtain ⟨rest, h1, h2⟩ := h
    exact ⟨rest, h1, h2.grows hg⟩
  | getNext cur arr =>
    obtain ⟨rest, h1, h2, h3⟩ := h
    exact ⟨rest, h1, hg.mem h2, hg.next _ h2 ▸ h3.grows hg⟩
  | _ => exact h

theorem PlacedAt.grows (h : PlacedAt N q s u p P) (hg : Grows q s q' s' t) (hu : u ≠ t) :
    PlacedAt N q' s' u p P := by
  cases p with
  | domain f =>
    obtain ⟨F, h1, h2⟩ := h
    exact ⟨F, h1, h2.grows hg hu⟩
  | _ => exact h

/-! ### Steps -/

section Steps

/-- The scan reads the pointer of the next node. -/
theorem Ahead.next (hA : Ahead q s (some b) rest) (hm : Matches q s S) :
    ∃ x rest', rest = x :: rest' ∧ S.domain.mPointer x = s.mPointer b ∧ b ∈ q ∧
      Ahead q s (s.mNext b) rest' := by
  obtain ⟨r, h1, h2, h3⟩ := hA
  obtain ⟨r', rfl, h4⟩ := h1.eq_cons
  cases rest with
  | nil => cases h2
  | cons x rest =>
    obtain ⟨h5, h6⟩ := List.cons.inj h2
    exact ⟨x, rest, rfl, hm.pointer x b h5, h3 b List.mem_cons_self, r', h4, h6,
      fun c hc => h3 c (List.mem_cons_of_mem _ hc)⟩

theorem Ahead.nil (hA : Ahead q s none rest) : rest = [] := by
  obtain ⟨r, h1, h2, -⟩ := hA
  obtain rfl := h1.eq_nil
  exact List.map_eq_nil_iff.1 h2

theorem Matches.owner_of_mem (hm : Matches q s S) {x : τ × ℕ}
    (hx : x ∈ S.domain.hazardPointerList) : ∃ b ∈ q, s.owner x = some b := by
  have hx' : s.owner x ∈ q.map some := hm.slots ▸ List.mem_map_of_mem hx
  obtain ⟨b, hb, h⟩ := List.mem_map.1 hx'
  exact ⟨b, hb, h.symm⟩

theorem Matches.mem_of_owner (hm : Matches q s S) (hb : b ∈ q) :
    ∃ x ∈ S.domain.hazardPointerList, s.owner x = some b := by
  have hb' : some b ∈ S.domain.hazardPointerList.map s.owner := hm.slots ▸ List.mem_map_of_mem hb
  exact List.mem_map.1 hb'

theorem Private.ne (hp : Private q s t i b) (hm : Matches q s S) {x : τ × ℕ} {c : B}
    (hx : x.1 ≠ t) (hc : s.owner x = some c) : c ≠ b := fun h => by
  subst h
  rw [hm.inj x (t, i) c hc hp.1] at hx
  exact hx rfl

section Changes

variable [DecidableEq B]

/-- The link of a node that is not in the list is set. -/
theorem setNext_spec (hm : Matches q s S) (hb : b ∉ q) (t : τ) (x : Option B) :
    Matches q (s.setNext b x) S ∧ Grows q s q (s.setNext b x) t := by
  have hnext : ∀ c ∈ q, (s.setNext b x).mNext c = s.mNext c := fun c hc => by
    have hcb : c ≠ b := fun h => hb (h ▸ hc)
    exact Function.update_of_ne hcb _ _
  exact ⟨{ hm with chain := hm.chain.congr hnext },
    { Grows.refl q s t with next := hnext }⟩

omit [DecidableEq B] in
/-- The compare-and-swap of `append`. -/
theorem cas_spec (hm : Matches q s S) (hp : Private q s t i b) (hh : s.mHead = s.mNext b) :
    Matches (b :: q) { s with mHead := some b } { S with domain :=
      { S.domain with hazardPointerList := (t, i) :: S.domain.hazardPointerList } } ∧
      Grows q s (b :: q) { s with mHead := some b } t := by
  refine ⟨{ hm with chain := ⟨rfl, hh ▸ hm.chain⟩, slots := ?_ },
    { Grows.refl q s t with
      suffix := List.suffix_cons b q
      own := fun x c hx hc hq hcq => ?_ }⟩
  · exact congrArg₂ List.cons hp.1 hm.slots
  · rcases List.mem_cons.1 hcq with h | h
    · exact hp.ne hm hx hc h
    · exact hq h

omit [DecidableEq B] in
theorem owner_ne {x y : τ × ℕ} {c : B} (hx : s.owner x = none)
    (hy : s.owner y = some c) : y ≠ x := by
  rintro rfl
  rw [hx] at hy
  cases hy

variable [DecidableEq τ]

/-- A slot that has a node keeps it when another one is made. -/
theorem make_owner (ht : s.owner (t, i) = none) {x : τ × ℕ} {c : B} (hx : s.owner x = some c) :
    (s.make t i b).owner x = some c :=
  (Function.update_of_ne (owner_ne ht hx) _ _).trans hx

/-- A slot with a node is the new one, or one that had it. -/
theorem make_owner_cases {x : τ × ℕ} {c : B} (hx : (s.make t i b).owner x = some c) :
    x = (t, i) ∧ c = b ∨ x ≠ (t, i) ∧ s.owner x = some c := by
  have hself : (s.make t i b).owner (t, i) = some b := Function.update_self ..
  by_cases h : x = (t, i)
  · subst h
    exact .inl ⟨rfl, (Option.some.inj (hself.symm.trans hx)).symm⟩
  · exact .inr ⟨h, (Function.update_of_ne h _ _).symm.trans hx⟩

/-- The constructor of a `HazardPointerListNode`. -/
theorem make_spec (hm : Matches q s S) (hi : ∀ k, i ≤ k → s.owner (t, k) = none)
    (hb : s.allocated b = false) :
    Matches q (s.make t i b) S ∧ Grows q s q (s.make t i b) t ∧
      Private q (s.make t i b) t i b := by
  have hfree : ∀ x, s.owner x ≠ some b := fun x hx => by
    have := hm.allocated x b hx
    rw [hb] at this
    cases this
  have hbq : b ∉ q := fun hq => by
    obtain ⟨x, -, hx⟩ := hm.mem_of_owner hq
    exact hfree x hx
  have hnone := hi i le_rfl
  have hself : (s.make t i b).owner (t, i) = some b := Function.update_self ..
  have hpointer : (s.make t i b).mPointer b = none := Function.update_self ..
  have hold : ∀ x c, s.owner x = some c → c ≠ b := fun x c hx h => hfree x (h ▸ hx)
  have hnext : ∀ c ∈ q, (s.make t i b).mNext c = s.mNext c := fun c hc => by
    have hcb : c ≠ b := fun h => hbq (h ▸ hc)
    exact Function.update_of_ne hcb _ _
  refine ⟨{ hm with
      chain := hm.chain.congr hnext
      slots := ?_
      pointer := fun x c hx => ?_
      unmade := fun x hx => ?_
      inj := fun x y c hx hy => ?_
      allocated := fun x c hx => ?_ },
    { suffix := List.suffix_rfl
      next := hnext
      owner := fun _ _ => make_owner hnone
      unmade := fun x hx h => ?_
      own := fun _ _ _ _ h => h }, ?_, hbq, fun k hk => ?_⟩
  · rw [← hm.slots]
    refine List.map_congr_left fun x hx => ?_
    obtain ⟨c, -, hc⟩ := hm.owner_of_mem hx
    exact (make_owner hnone hc).trans hc.symm
  · rcases make_owner_cases hx with ⟨rfl, rfl⟩ | ⟨-, hc⟩
    · exact (hm.unmade _ hnone).trans hpointer.symm
    · exact (hm.pointer x c hc).trans (Function.update_of_ne (hold x c hc) _ _).symm
  · by_cases h : x = (t, i)
    · subst h
      exact absurd rfl (owner_ne hx hself)
    · exact hm.unmade x ((Function.update_of_ne h _ _).symm.trans hx)
  · rcases make_owner_cases hx with ⟨rfl, rfl⟩ | ⟨-, hx⟩ <;>
      rcases make_owner_cases hy with ⟨rfl, h⟩ | ⟨-, hy⟩
    · rfl
    · exact absurd hy (hfree y)
    · exact absurd (h ▸ hx) (hfree x)
    · exact hm.inj x y c hx hy
  · rcases make_owner_cases hx with ⟨-, rfl⟩ | ⟨-, hc⟩
    · exact Function.update_self ..
    · exact (Function.update_of_ne (hold x c hc) _ _).trans (hm.allocated x c hc)
  · have hne : x ≠ (t, i) := fun e => hx (e ▸ rfl)
    exact (Function.update_of_ne hne _ _).trans h
  · exact Function.update_self ..
  · have hne : (t, k) ≠ (t, i) := fun h => by
      have := congrArg Prod.snd h
      exact absurd this hk.ne'
    exact (Function.update_of_ne hne _ _).trans (hi k hk.le)

/-- A thread's store to a slot of its own. -/
theorem store_spec [DecidableEq A] (hm : Matches q s S) (hs : s.owner (t, i) = some b)
    (v : Option A) : s.store t i v = some { s with mPointer := Function.update s.mPointer b v } ∧
      Matches q { s with mPointer := Function.update s.mPointer b v }
        { S with domain := S.domain.store t i v } := by
  refine ⟨congrArg (Option.map _) hs,
    { hm with pointer := fun x c hx => ?_, unmade := fun x hx => ?_ }⟩
  · by_cases h : x = (t, i)
    · subst h
      obtain rfl : b = c := Option.some.inj (hs.symm.trans hx)
      have hself : Function.update s.mPointer b v b = v := Function.update_self ..
      exact (Function.update_self ..).trans hself.symm
    · have hcb : c ≠ b := fun e => h (hm.inj x (t, i) b (e ▸ hx) hs)
      exact (Function.update_of_ne h _ _).trans ((hm.pointer x c hx).trans
        (Function.update_of_ne hcb _ _).symm)
  · have h : x ≠ (t, i) := (owner_ne hx hs).symm
    exact (Function.update_of_ne h _ _).trans (hm.unmade x hx)

end Changes

variable [DecidableEq τ] [DecidableEq L] [DecidableEq B] [DecidableEq A]
    {ok : Bool} {act : Act L B A}
  {D' : HazardPointer.Domain τ A} {F' : HazardPointer.Frame τ A} {e : Hazards.Event (τ × ℕ) A}

/-- A step follows the other system, in which the thread stands still or takes a step too. -/
def Follows (N : ℕ) (q : List B) (s : Shared τ L B A) (S : HazardPointer.Shared τ L A) (t : τ)
    (P : HazardPointer.PC τ L A) (s' : Shared τ L B A) (p' : PC L B A) : Prop :=
  ∃ q', Grows q s q' s' t ∧
    (Matches q' s' S ∧ PlacedAt N q' s' t p' P ∨
      ∃ act S' P', (∀ F, HazardPointer.Disciplined ⟨S, F⟩ (t, act)) ∧
        HazardPointer.next N t act S P = some (S', P') ∧ Matches q' s' S' ∧
        PlacedAt N q' s' t p' P')

theorem next_run (h : S.domain.step N t ok F = some (D', F', e)) (he : ∀ a, e ≠ .free a) :
    HazardPointer.next N t (.run ok) S (.domain F) =
      some ({ S with domain := D' }, .domain F') := by
  cases F with
  | ready => cases h
  | _ => simp only [HazardPointer.next, h]

theorem next_free {a : A} (h : S.domain.step N t ok F = some (D', F', .free a)) :
    HazardPointer.next N t (.run ok) S (.domain F) =
      some ({ S.setLife a .free with domain := D' }, .domain F') := by
  cases F with
  | ready => cases h
  | _ => simp only [HazardPointer.next, h]

omit [DecidableEq B] in
/-- A step inside the domain. -/
theorem Follows.run (ok : Bool) {f' : Frame B A} (hg : Grows q s q' s' t)
    (h : S.domain.step N t ok F = some (D', F', e)) (he : ∀ a, e ≠ .free a)
    (hm : Matches q' s' { S with domain := D' }) (hf : FrameAt N q' s' t f' F') :
    Follows N q s S t (.domain F) s' (.domain f') :=
  ⟨q', hg, .inr ⟨.run ok, _, _, fun _ => trivial, next_run h he, hm, F', rfl, hf⟩⟩

omit [DecidableEq B] in
/-- A step that the slots do not see. -/
theorem Follows.stutter {f' : Frame B A} (hg : Grows q s q' s' t) (hm : Matches q' s' S)
    (hf : FrameAt N q' s' t f' F) : Follows N q s S t (.domain F) s' (.domain f') :=
  ⟨q', hg, .inl ⟨hm, F, rfl, hf⟩⟩

omit [DecidableEq τ] [DecidableEq L] [DecidableEq B] in
theorem setLife_spec (hm : Matches q s S) (a : A) (x : Life) :
    Matches q (s.setLife a x) (S.setLife a x) := by
  refine { hm with life := ?_ }
  change Function.update S.life a x = Function.update s.life a x
  rw [hm.life]

omit [DecidableEq L] [DecidableEq B] [DecidableEq A] in
/-- A thread's delete list is replaced. -/
theorem setLocal_spec (hm : Matches q s S) (t : τ) (l : List A) :
    Matches q (s.setLocal t l) { S with domain := S.domain.setLocal t l } := by
  refine { hm with localDeleteList := ?_ }
  change Function.update S.domain.localDeleteList t l = Function.update s.localDeleteList t l
  rw [hm.localDeleteList]

theorem nextRun_follows (hm : Matches q s S) (hf : FrameAt N q s t f F)
    (hreg : ∀ i < registered N F, (t, i) ∈ S.domain.hazardPointerList)
    {f' : Frame B A} (hn : nextRun N t ok s f = some (s', f')) :
    Follows N q s S t (.domain F) s' (.domain f') := by
  have hg := Grows.refl q s t
  revert hn
  fun_cases nextRun N t ok s f <;> intro hn
  case case21 i listLeft =>
    obtain rfl : F = _ := hf
    obtain ⟨b, -, hb⟩ := hm.owner_of_mem (hreg i (Nat.lt_succ_self i))
    obtain ⟨hstore, hm'⟩ := store_spec hm hb none
    rw [hstore] at hn
    cases hn
    exact .run ok { hg with } rfl nofun hm' rfl
  all_goals cases hn
  case case1 =>
    obtain ⟨rfl, hnone⟩ := hf
    exact .run ok hg rfl nofun hm ⟨rfl, fun k _ => hnone k⟩
  case case3 i hi =>
    obtain ⟨rfl, -⟩ := hf
    exact .run ok hg (if_neg hi) nofun hm rfl
  case case4 i b =>
    obtain ⟨rfl, hi, hp⟩ := hf
    obtain ⟨hm', hg'⟩ := setNext_spec hm hp.2.1 t s.mHead
    exact .stutter hg' hm' ⟨rfl, hi, hp⟩
  case case5 i b =>
    obtain ⟨rfl, hi, hp⟩ := hf
    refine .run ok { hg with } (if_pos hi) nofun { hm with mSize := ?_ } ⟨rfl, hp⟩
    exact congrArg (· + 1) hm.mSize
  case case6 i b hok =>
    obtain ⟨rfl, hp⟩ := hf
    obtain ⟨hm', hg'⟩ := cas_spec hm hp hok.1
    exact .run ok hg' (if_pos hok.2) nofun hm' ⟨rfl, fun k hk => hp.2.2 k hk⟩
  case case7 i b hok =>
    obtain ⟨rfl, hp⟩ := hf
    obtain ⟨hm', hg'⟩ := setNext_spec hm hp.2.1 t s.mHead
    exact .stutter hg' hm' ⟨rfl, hp⟩
  case case8 hlt =>
    obtain rfl : F = _ := hf
    rw [← hm.mSize, ← hm.localDeleteList] at hlt
    exact .run ok hg (if_pos hlt) nofun hm rfl
  case case9 hlt =>
    obtain rfl : F = _ := hf
    rw [← hm.mSize, ← hm.localDeleteList] at hlt
    exact .run ok hg (if_neg hlt) nofun hm rfl
  case case10 hnil =>
    obtain rfl : F = _ := hf
    rw [← hm.globalDeleteList] at hnil
    exact .run ok hg (if_pos hnil) nofun hm rfl
  case case11 hnil =>
    obtain rfl : F = _ := hf
    rw [← hm.globalDeleteList] at hnil
    exact .run ok hg (if_neg hnil) nofun hm rfl
  case case12 =>
    obtain rfl : F = _ := hf
    refine .run ok { hg with } rfl nofun
      { hm with globalDeleteList := rfl, localDeleteList := ?_ } rfl
    change Function.update _ _ (_ ++ _) = Function.update _ _ (_ ++ _)
    rw [hm.globalDeleteList, hm.localDeleteList]
  case case13 =>
    obtain rfl : F = _ := hf
    exact .stutter hg hm rfl
  case case14 =>
    obtain rfl : F = _ := hf
    exact .run ok hg rfl nofun hm ⟨_, rfl, q, hm.chain, hm.slots, fun _ h => h⟩
  case case15 b arr =>
    obtain ⟨rest, rfl, hA⟩ := hf
    obtain ⟨x, rest', rfl, hx, hb, hA'⟩ := hA.next hm
    refine .run ok hg rfl nofun hm ⟨rest', ?_, hb, hA'⟩
    rw [hx]
  case case16 b arr =>
    obtain ⟨rest, rfl, -, hA⟩ := hf
    exact .stutter hg hm ⟨rest, rfl, hA⟩
  case case17 arr =>
    obtain ⟨rest, rfl, hA⟩ := hf
    obtain rfl := hA.nil
    refine .run ok { hg with } rfl nofun (setLocal_spec hm t []) ?_
    exact congrArg (fun l => HazardPointer.Frame.filter (l t) arr) hm.localDeleteList
  case case18 =>
    obtain rfl : F = _ := hf
    exact .run ok hg rfl nofun hm rfl
  case case19 a cur arr hmem =>
    obtain rfl : F = _ := hf
    refine .run ok { hg with } (if_pos (List.contains_iff_mem.1 hmem)) nofun
      { hm with localDeleteList := ?_ } rfl
    exact congrArg (fun l => Function.update l t (a :: l t)) hm.localDeleteList
  case case20 a cur arr hmem =>
    obtain rfl : F = _ := hf
    exact ⟨q, { hg with }, .inr ⟨.run ok, _, _, fun _ => trivial,
      next_free (if_neg (mt List.contains_iff_mem.2 hmem)),
      setLife_spec hm a .free, _, rfl, rfl⟩⟩
  case case22 listLeft =>
    obtain rfl : F = _ := hf
    cases listLeft <;> exact .run ok hg rfl nofun hm rfl
  case case23 ownersLeft hok =>
    obtain rfl : F = _ := hf
    refine .run ok { hg with } (if_pos hok) nofun
      { hm with globalDeleteList := ?_, localDeleteList := ?_ } ?_
    · exact congrArg₂ (fun l g => l t ++ g) hm.localDeleteList hm.globalDeleteList
    · exact congrArg (Function.update · t []) hm.localDeleteList
    · cases ownersLeft <;> rfl
  case case24 ownersLeft hok =>
    obtain rfl : F = _ := hf
    exact .run ok hg (if_neg hok) nofun hm rfl

omit [DecidableEq B] in
/-- A step outside the domain. -/
theorem Follows.call (act : HazardPointer.Act L A) (hg : Grows q s q' s' t)
    (hC : ∀ F, HazardPointer.Disciplined ⟨S, F⟩ (t, act))
    (hn : HazardPointer.next N t act S P = some (S', P')) (hm : Matches q' s' S')
    (hp : PlacedAt N q' s' t p' P') : Follows N q s S t P s' p' :=
  ⟨q', hg, .inr ⟨act, S', P', hC, hn, hm, hp⟩⟩

/-- What the callers do, and the steps of `claimPointer`. -/
theorem next_follows (hm : Matches q s S) (hp : PlacedAt N q s t p P)
    (hreg : ∀ i < registered N (HazardPointer.frameOf P), (t, i) ∈ S.domain.hazardPointerList)
    (hi : ∀ l i p', p = .claimStore l i p' → i < N)
    (hC : Disciplined ⟨s, fun _ => p⟩ (t, act)) (hn : next N t act s p = some (s', p')) :
    Follows N q s S t P s' p' := by
  have hg := Grows.refl q s t
  revert hn
  fun_cases next N t act s p <;> intro hn
  case case3 i v hlt =>
    obtain ⟨F, rfl, rfl⟩ := hp
    obtain ⟨b, -, hb⟩ := hm.owner_of_mem (hreg i hlt)
    obtain ⟨hstore, hm'⟩ := store_spec hm hb v
    rw [hstore] at hn
    cases hn
    exact .call (.store i v) { hg with } (fun _ => trivial) (if_pos hlt) hm' ⟨_, rfl, rfl⟩
  case case12 f ok =>
    obtain ⟨F, rfl, hf⟩ := hp
    obtain ⟨⟨s', f'⟩, hr, he⟩ := Option.map_eq_some_iff.1 hn
    cases he
    exact nextRun_follows hm hf hreg hr
  case case14 l i v ok =>
    obtain rfl : P = _ := hp
    obtain ⟨b, -, hb⟩ := hm.owner_of_mem (hreg i (hi l i v rfl))
    obtain ⟨hstore, hm'⟩ := store_spec hm hb v
    rw [hstore] at hn
    cases hn
    exact .call (.run ok) { hg with } (fun _ => trivial) rfl hm' rfl
  all_goals cases hn
  case case1 l i hlt =>
    obtain ⟨F, rfl, rfl⟩ := hp
    exact .call (.claim l i) hg (fun _ => trivial) (if_pos hlt) hm rfl
  case case5 a =>
    obtain ⟨F, rfl, rfl⟩ := hp
    have hC' : S.life a = .free := hm.life ▸ hC
    exact .call (.alloc a) { hg with } (fun _ => hC') rfl (setLife_spec hm a .live) ⟨_, rfl, rfl⟩
  case case6 l v =>
    obtain ⟨F, rfl, rfl⟩ := hp
    have hm' : Matches q { s with location := Function.update s.location l v }
        { S with location := Function.update S.location l v } :=
      { hm with location := congrArg (Function.update · l v) hm.location }
    refine .call (.write l v) { hg with } (fun _ => ?_) rfl hm' ⟨_, rfl, rfl⟩
    cases v with
    | none => trivial
    | some a =>
      change S.life a = .live
      rw [hm.life]
      exact hC
  case case7 a =>
    obtain ⟨F, rfl, rfl⟩ := hp
    have hm' := setLocal_spec (setLife_spec hm a .retired) t (a :: s.localDeleteList t)
    have hret : S.domain.retire t a = S.domain.setLocal t (a :: s.localDeleteList t) := by
      rw [← hm.localDeleteList]
      rfl
    refine .call (.retire a) { hg with } (fun _ => ?_) rfl (hret ▸ hm') ⟨_, rfl, rfl⟩
    change S.life a = .live ∧ ∀ l, S.location l ≠ some a
    rw [hm.life, hm.location]
    exact hC
  case case8 =>
    obtain ⟨F, rfl, rfl⟩ := hp
    exact .call .tryDeallocate hg (fun _ => trivial) rfl hm ⟨_, rfl, rfl⟩
  case case9 listFirst =>
    obtain ⟨F, rfl, rfl⟩ := hp
    refine .call (.exit listFirst) hg (fun _ => trivial) rfl hm ⟨_, rfl, ?_⟩
    cases listFirst <;> rfl
  case case10 i b hb =>
    obtain ⟨F, rfl, rfl, hnone⟩ := hp
    obtain ⟨hm', hg', hp'⟩ := make_spec hm hnone hb.2
    exact ⟨q, hg', .inl ⟨hm', _, rfl, rfl, hb.1, hp'⟩⟩
  case case13 l i ok =>
    obtain rfl : P = _ := hp
    refine .call (.run ok) hg (fun _ => trivial) rfl hm ?_
    exact congrArg (fun loc => HazardPointer.PC.claimStore l i (loc l)) hm.location
  case case15 l i ok =>
    obtain rfl : P = _ := hp
    have hl : S.location l = s.location l := congrFun hm.location l
    exact .call (.run ok) hg (fun _ => trivial) (if_pos hl) hm rfl
  case case16 l i v ok hl =>
    obtain rfl : P = _ := hp
    rw [← hm.location] at hl
    exact .call (.run ok) hg (fun _ => trivial) (if_neg hl) hm rfl
  case case17 i v ok =>
    obtain rfl : P = _ := hp
    exact .call (.run ok) hg (fun _ => trivial) rfl hm ⟨_, rfl, rfl⟩

end Steps

end HazardPointerList

end ConcurrencySandbox

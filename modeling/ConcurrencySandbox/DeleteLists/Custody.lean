import ConcurrencySandbox.Structures.Chain
import ConcurrencySandbox.Structures.Custody
import ConcurrencySandbox.DeleteLists.Basic

/-!
# Where the nodes are

A node is in a local list, in the global one, in the chain of a running `tryDeallocateLocalList` or
of a thread that exits, or `retire` has made it and not linked it yet. Each of these is read off
from the links (`Chain`), no two share a node, and a thread writes only the links of its own nodes:
so the chains stay apart, and each step moves one node or one chain from one place to another.
-/

namespace ConcurrencySandbox

open Interleaving Structures

namespace DeleteLists

inductive Place (τ : Type*)
  | global
  | localList (t : τ)
  | chain (t : τ)
  | fresh (t : τ)
  deriving DecidableEq

variable {τ N A P : Type*}

def Place.thread : Place τ → Option τ
  | .global => none
  | .localList t | .chain t | .fresh t => some t

/-- Its nodes are retired. -/
def Place.Settled : Place τ → Prop
  | .fresh _ => False
  | _ => True

/-- The node that `retire` has made. -/
def freshOf : PC τ N P → List N
  | .appendNext node .retire | .appendHead node .retire => [node]
  | _ => []

/-- The thread has left its local list. -/
def left : PC τ N P → Bool
  | .exitWalk .. | .exitLoad .. | .exitCas .. | .exitOwner _ false | .exited => true
  | _ => false

/-- The chain that a thread works on, a node out of it first. -/
def Works (s : Shared τ N A P) (t : τ) (l : List N) : PC τ N P → Prop
  | .gather cur | .filter cur _ => Seg s.mNext cur l none
  | .appendNext cur (.gather next) | .appendHead cur (.gather next)
  | .appendNext cur (.filter next _) | .appendHead cur (.filter next _) | .delete cur next _ =>
    ∃ rest, l = cur :: rest ∧ Seg s.mNext next rest none
  | .exitWalk last _ => Seg s.mNext (s.localHead t) l none ∧ last ∈ l
  | .exitLoad last _ | .exitCas last _ =>
    ∃ rest, l = rest ++ [last] ∧ Seg s.mNext (s.localHead t) rest (some last)
  | _ => l = []

/-- The node to be linked next has its link. -/
def Linked (s : Shared τ N A P) (t : τ) : PC τ N P → Prop
  | .appendHead node _ => s.mNext node = s.localHead t
  | _ => True

/-- The nodes of a place. -/
def Chain (s : Shared τ N A P) (f : τ → PC τ N P) (l : List N) : Place τ → Prop
  | .global => Seg s.mNext s.globalHead l none
  | .localList t => Seg s.mNext (if left (f t) then none else s.localHead t) l none
  | .chain t => Works s t l (f t)
  | .fresh t => l = freshOf (f t)

structure Inv (c : Place τ → List N) (s : Shared τ N A P) (f : τ → PC τ N P) : Prop where
  custody : Custody c
  chain : ∀ p, Chain s f (c p) p
  linked : ∀ t, Linked s t (f t)
  live : ∀ p, ∀ n ∈ c p, s.allocated n = true

/-- What a step does to a node. -/
inductive Event (N A : Type*)
  | skip
  | make (node : N) (data : A)
  | link (node : N)
  | delete (node : N)

def event (p : PC τ N P) (act : Act N A P) : Event N A :=
  match p, act with
  | .ready, .retire data node => .make node data
  | .appendHead node .retire, .run _ => .link node
  | .delete cur _ _, .run _ => .delete cur
  | _, _ => .skip

/-- The nodes and the retired nodes, and what they hold, after an event. -/
def Event.Effect (kept settled kept' settled' : N → Prop) (mData mData' : N → A) :
    Event N A → Prop
  | .skip => (∀ n, kept' n ↔ kept n) ∧ (∀ n, settled' n ↔ settled n) ∧ mData' = mData
  | .make node data => ¬ kept node ∧ (∀ n, kept' n ↔ n = node ∨ kept n) ∧
    (∀ n, settled' n ↔ settled n) ∧ mData' node = data ∧ ∀ n, n ≠ node → mData' n = mData n
  | .link node => kept node ∧ (∀ n, kept' n ↔ kept n) ∧
    (∀ n, settled' n ↔ n = node ∨ settled n) ∧ mData' = mData
  | .delete node => settled node ∧ (∀ n, kept' n ↔ kept n ∧ n ≠ node) ∧
    (∀ n, settled' n ↔ settled n ∧ n ≠ node) ∧ mData' = mData

variable {s s' : Shared τ N A P} {f : τ → PC τ N P} {t u : τ} {p p' : PC τ N P}
  {c c' : Place τ → List N} {l : List N} {r : Place τ} {n : N}

theorem Works.mem {after : After τ N P} (hw : Works s t l p)
    (hp : p = .appendNext n after ∨ p = .appendHead n after) : n ∈ l ∨ freshOf p = [n] := by
  rcases hp with rfl | rfl <;> cases after with
  | retire => exact .inr rfl
  | gather next =>
    obtain ⟨rest, rfl, -⟩ := hw
    exact .inl List.mem_cons_self
  | filter next arr =>
    obtain ⟨rest, rfl, -⟩ := hw
    exact .inl List.mem_cons_self

theorem Works.frame (hw : Works s t l p) (hn : ∀ n ∈ l, s'.mNext n = s.mNext n)
    (hh : s'.localHead t = s.localHead t) : Works s' t l p := by
  unfold Works at hw ⊢
  split at hw
  · exact hw.congr hn
  · exact hw.congr hn
  all_goals try
    obtain ⟨rest, rfl, hw⟩ := hw
    exact ⟨rest, rfl, hw.congr fun n hm => hn n (List.mem_cons_of_mem _ hm)⟩
  · rw [hh]
    exact ⟨hw.1.congr hn, hw.2⟩
  · obtain ⟨rest, rfl, hw⟩ := hw
    rw [hh]
    exact ⟨rest, rfl, hw.congr fun n hm => hn n (List.mem_append_left _ hm)⟩
  · obtain ⟨rest, rfl, hw⟩ := hw
    rw [hh]
    exact ⟨rest, rfl, hw.congr fun n hm => hn n (List.mem_append_left _ hm)⟩
  · exact hw

section Steps

variable [DecidableEq τ]

/-- A step of `t` that leaves the other threads' nodes alone. -/
theorem Inv.step (h : Inv c s f) (hc : Custody c')
    (hout : ∀ r u, r.thread = some u → u ≠ t → c' r = c r ∧ ∀ n ∈ c r, s'.mNext n = s.mNext n)
    (hhead : ∀ u, u ≠ t → s'.localHead u = s.localHead u)
    (hglobal : Seg s'.mNext s'.globalHead (c' .global) none)
    (hlocal : Seg s'.mNext (if left p' then none else s'.localHead t) (c' (.localList t)) none)
    (hworks : Works s' t (c' (.chain t)) p') (hfresh : c' (.fresh t) = freshOf p')
    (hlinked : Linked s' t p') (hlive : ∀ r, ∀ n ∈ c' r, s'.allocated n = true) :
    Inv c' s' (Function.update f t p') := by
  refine ⟨hc, fun r => ?_, ?_, hlive⟩
  · cases r with
    | global => exact hglobal
    | localList u =>
      refine Program.forall_update (L := fun u p => Seg s'.mNext (if left p then none else
        s'.localHead u) (c' (.localList u)) none) hlocal (fun u hu => ?_) u
      obtain ⟨h1, h2⟩ := hout (.localList u) u rfl hu
      rw [h1, hhead u hu]
      exact (h.chain (.localList u)).congr h2
    | chain u =>
      refine Program.forall_update (L := fun u p => Works s' u (c' (.chain u)) p) hworks
        (fun u hu => ?_) u
      obtain ⟨h1, h2⟩ := hout (.chain u) u rfl hu
      rw [h1]
      exact (show Works s u (c (.chain u)) (f u) from h.chain (.chain u)).frame h2 (hhead u hu)
    | fresh u =>
      refine Program.forall_update (L := fun u p => c' (.fresh u) = freshOf p) hfresh
        (fun u hu => ?_) u
      rw [(hout (.fresh u) u rfl hu).1]
      exact h.chain (.fresh u)
  · refine Program.forall_update (L := fun u p => Linked s' u p) hlinked fun u hu => ?_
    have hl := h.linked u
    unfold Linked at hl ⊢
    split at hl
    · rename_i node after hp
      have hw : Works s u (c (.chain u)) (f u) := h.chain (.chain u)
      have hfr : c (.fresh u) = freshOf (f u) := h.chain (.fresh u)
      have hnode : s'.mNext node = s.mNext node := by
        rcases hw.mem (.inr hp) with hm | hm
        · exact (hout (.chain u) u rfl hu).2 node hm
        · exact (hout (.fresh u) u rfl hu).2 node (by rw [hfr, hm]; exact List.mem_singleton_self _)
      rw [hnode, hl, hhead u hu]
    · trivial

/-- A step of `t` that moves no node and writes no link. -/
theorem Inv.stay (h : Inv c s f) (hp : f t = p) (hnext : s'.mNext = s.mNext)
    (hglobal : s'.globalHead = s.globalHead) (hhead : s'.localHead = s.localHead)
    (halloc : s'.allocated = s.allocated) (hleft : left p' = left p)
    (hworks : Works s t (c (.chain t)) p → Works s t (c (.chain t)) p')
    (hfresh : freshOf p' = freshOf p) (hlinked : Linked s' t p') :
    Inv c s' (Function.update f t p') := by
  refine h.step h.custody (fun r u _ _ => ⟨rfl, fun n _ => by rw [hnext]⟩)
    (fun u _ => by rw [hhead]) ?_ ?_ ?_ ?_ hlinked fun r n hm => ?_
  · rw [hnext, hglobal]
    exact h.chain .global
  · rw [hnext, hhead, hleft, ← hp]
    exact h.chain (.localList t)
  · refine (hworks ?_).frame (fun n _ => by rw [hnext]) (by rw [hhead])
    exact hp ▸ h.chain (.chain t)
  · rw [hfresh, ← hp]
    exact h.chain (.fresh t)
  · rw [halloc]
    exact h.live r n hm

/-- The link of a node that `t` has in its hands is written. -/
theorem Inv.relink [DecidableEq N] {v : Option N} (h : Inv c s f) (hp : f t = p)
    (hnode : n ∈ c (.chain t) ∨ n ∈ c (.fresh t))
    (hnext : s'.mNext = Function.update s.mNext n v) (hglobal : s'.globalHead = s.globalHead)
    (hhead : s'.localHead = s.localHead) (halloc : s'.allocated = s.allocated)
    (hleft : left p' = left p) (hworks : Works s' t (c (.chain t)) p')
    (hfresh : freshOf p' = freshOf p) (hlinked : Linked s' t p') :
    Inv c s' (Function.update f t p') := by
  have hne : ∀ r, r ≠ .chain t → r ≠ .fresh t → n ∉ c r := fun r h1 h2 hm =>
    hnode.elim (fun h' => h1 (h.custody.eq hm h')) fun h' => h2 (h.custody.eq hm h')
  refine h.step h.custody (fun r u hr hu => ⟨rfl, fun m hm => ?_⟩) (fun u _ => by rw [hhead])
    ?_ ?_ hworks ?_ hlinked fun r m hm => ?_
  · rw [hnext]
    refine Function.update_of_ne ?_ _ _
    rintro rfl
    refine hne r ?_ ?_ hm <;> rintro rfl <;> exact hu (Option.some.inj hr).symm
  · rw [hnext, hglobal]
    exact (h.chain .global).update (hne _ nofun nofun)
  · rw [hnext, hhead, hleft, ← hp]
    exact (h.chain (.localList t)).update (hne _ nofun nofun)
  · rw [hfresh, ← hp]
    exact h.chain (.fresh t)
  · rw [halloc]
    exact h.live r m hm

/-- What two places have is shared out anew between them, by `t`, to which they belong. -/
theorem Inv.transfer {q : Place τ} {l' : List N} (h : Inv c s f) (hqr : q ≠ r)
    (hq : q.thread = none ∨ q.thread = some t) (hr : r.thread = none ∨ r.thread = some t)
    (hl : (l ++ l').Perm (c q ++ c r)) (hc : c' = put c q r l l') (hnext : s'.mNext = s.mNext)
    (hhead : ∀ u, u ≠ t → s'.localHead u = s.localHead u) (halloc : s'.allocated = s.allocated)
    (hglobal : Seg s.mNext s'.globalHead (c' .global) none)
    (hlocal : Seg s.mNext (if left p' then none else s'.localHead t) (c' (.localList t)) none)
    (hworks : Works s' t (c' (.chain t)) p') (hfresh : c' (.fresh t) = freshOf p')
    (hlinked : Linked s' t p') : Inv c' s' (Function.update f t p') := by
  subst hc
  have hout : ∀ x, x ≠ q → x ≠ r → put c q r l l' x = c x := fun x => put_other
  have hperm : (put c q r l l' q ++ put c q r l l' r).Perm (c q ++ c r) := by
    rwa [put_left hqr, put_right]
  have hne : ∀ {x u}, x.thread = some u → u ≠ t → ∀ y : Place τ,
      y.thread = none ∨ y.thread = some t → x ≠ y := by
    rintro x u hx hu y hy rfl
    rw [hx, Option.some.injEq] at hy
    exact hy.elim nofun hu
  refine h.step (h.custody.transfer hqr hperm hout)
    (fun x u hx hu => ⟨?_, fun n _ => by rw [hnext]⟩)
    hhead (by rwa [hnext]) (by rwa [hnext]) hworks hfresh hlinked fun x n hm => ?_
  · exact hout x (hne hx hu q hq) (hne hx hu r hr)
  · obtain ⟨y, -, hy⟩ := (Custody.kept_transfer (D := fun _ => True) Iff.rfl hperm hout).1
      ⟨x, trivial, hm⟩
    rw [halloc]
    exact h.live y n hy

omit [DecidableEq τ] in
theorem Inv.node_mem (h : Inv c s f) {after : After τ N P}
    (hp : f t = .appendNext n after ∨ f t = .appendHead n after) :
    n ∈ c (.chain t) ∨ n ∈ c (.fresh t) := by
  have hw : Works s t (c (.chain t)) (f t) := h.chain (.chain t)
  have hfr : c (.fresh t) = freshOf (f t) := h.chain (.fresh t)
  refine (hw.mem hp).imp id fun hm => ?_
  rw [hfr, hm]
  exact List.mem_singleton_self _

/-- Between settled places nodes move without being made, retired or deleted. -/
theorem skip_of_transfer {q : Place τ} {l' : List N} {mData : N → A} (hqr : q ≠ r)
    (hl : (l ++ l').Perm (c q ++ c r)) (hset : q.Settled ↔ r.Settled) :
    Event.skip.Effect (Kept (fun _ => True) c) (Kept Place.Settled c)
      (Kept (fun _ => True) (put c q r l l'))
      (Kept Place.Settled (put c q r l l')) mData mData := by
  have hperm : (put c q r l l' q ++ put c q r l l' r).Perm (c q ++ c r) := by
    rwa [put_left hqr, put_right]
  exact ⟨fun n => Custody.kept_transfer Iff.rfl hperm fun x => put_other,
    fun n => Custody.kept_transfer hset hperm fun x => put_other, rfl⟩

/-- What a thread's step leads to. -/
def Leads (c : Place τ → List N) (s : Shared τ N A P) (f : τ → PC τ N P) (t : τ) (e : Event N A)
    (s' : Shared τ N A P) (p' : PC τ N P) : Prop :=
  ∃ c', Inv c' s' (Function.update f t p') ∧
    e.Effect (Kept (fun _ => True) c) (Kept Place.Settled c) (Kept (fun _ => True) c')
      (Kept Place.Settled c') s.mData s'.mData

theorem Inv.skips (h : Inv c s' (Function.update f t p')) (hd : s'.mData = s.mData) :
    Leads c s f t .skip s' p' := ⟨c, h, fun _ => Iff.rfl, fun _ => Iff.rfl, hd⟩

omit [DecidableEq τ] in
theorem Inv.localList (h : Inv c s f) (hp : f t = p) (hl : left p = false) :
    Seg s.mNext (s.localHead t) (c (.localList t)) none := by
  have hc := h.chain (.localList t)
  simp only [Chain, hp, hl] at hc
  exact hc

/-- `retire` puts its node to the front of the local list. -/
theorem Inv.link (h : Inv c s f) (hp : f t = .appendHead n .retire) :
    Leads c s f t (.link n) (s.setHead t (some n)) .retireTest := by
  have hlocal := h.localList hp rfl
  have hw : Works s t (c (.chain t)) (f t) := h.chain (.chain t)
  have hfr : c (.fresh t) = freshOf (f t) := h.chain (.fresh t)
  have hlink := h.linked t
  rw [hp] at hw hfr hlink
  have hqr : Place.fresh t ≠ .localList t := nofun
  have hperm : ([] ++ n :: c (.localList t)).Perm (c (.fresh t) ++ c (.localList t)) := by
    rw [hfr]
    rfl
  refine ⟨_, h.transfer hqr (.inr rfl) (.inr rfl) hperm rfl rfl
    (fun u hu => Function.update_of_ne hu _ _) rfl ?_ ?_ ?_ ?_ trivial, ?_⟩
  · simpa [put, Chain, Shared.setHead] using h.chain .global
  · rw [put_right]
    simp only [Shared.setHead, Function.update_self, left]
    exact ⟨rfl, hlink ▸ hlocal⟩
  · have hnil : c (.chain t) = [] := hw
    simp [put, Works, hnil]
  · rw [put_left hqr]
    rfl
  · refine ⟨⟨.fresh t, trivial, hfr ▸ List.mem_singleton_self n⟩, fun m => ?_, fun m => ?_, rfl⟩
    · refine Custody.kept_transfer Iff.rfl ?_ fun x => put_other
      rwa [put_left hqr, put_right]
    · exact Custody.kept_enter (p := Place.fresh t) (q := Place.localList t) id trivial put_right
        (fun x => put_other) m

/-- A node out of a chain goes to the front of the local list. -/
theorem Inv.relocate (h : Inv c s f) {after : After τ N P} (hp : f t = .appendHead n after)
    {rest : List N} (hc : c (.chain t) = n :: rest) (hfr : freshOf (f t) = [])
    (hafter : freshOf after.pc = [] ∧ left after.pc = false ∧
      Works (s.setHead t (some n)) t rest after.pc ∧ Linked (s.setHead t (some n)) t after.pc) :
    Leads c s f t .skip (s.setHead t (some n)) after.pc := by
  have hlocal := h.localList hp rfl
  have hlink := h.linked t
  rw [hp] at hlink
  have hfresh : c (.fresh t) = freshOf (f t) := h.chain (.fresh t)
  obtain ⟨h1, h2, h3, h4⟩ := hafter
  have hqr : Place.chain t ≠ .localList t := nofun
  have hperm : (rest ++ n :: c (.localList t)).Perm (c (.chain t) ++ c (.localList t)) := by
    rw [hc]
    exact List.perm_middle
  refine ⟨_, h.transfer hqr (.inr rfl) (.inr rfl) hperm rfl rfl
    (fun u hu => Function.update_of_ne hu _ _) rfl ?_ ?_ ?_ ?_ h4,
    skip_of_transfer hqr hperm Iff.rfl⟩
  · simpa [put, Chain, Shared.setHead] using h.chain .global
  · rw [put_right, h2]
    simp only [Shared.setHead, Function.update_self]
    exact ⟨rfl, hlink ▸ hlocal⟩
  · rwa [put_left hqr]
  · simp [put, hfresh, hfr, h1]

/-- A whole list becomes the chain of `t`. -/
theorem Inv.detach {q : Place τ} (h : Inv c s f) (hp : f t = p) (hw : c (.chain t) = [])
    (hq : q = .global ∨ q = .localList t) (hnext : s'.mNext = s.mNext) (hd : s'.mData = s.mData)
    (hhead : ∀ u, u ≠ t → s'.localHead u = s.localHead u) (halloc : s'.allocated = s.allocated)
    (hglobal : Seg s.mNext s'.globalHead (if q = .global then [] else c .global) none)
    (hlocal : Seg s.mNext (if left p' then none else s'.localHead t)
      (if q = .global then c (.localList t) else []) none)
    (hworks : Works s' t (c q) p') (hfresh : freshOf p' = freshOf p) (hlinked : Linked s' t p') :
    Leads c s f t .skip s' p' := by
  have hfr : c (.fresh t) = freshOf (f t) := h.chain (.fresh t)
  have hqr : q ≠ .chain t := by rcases hq with rfl | rfl <;> exact nofun
  have hperm : ([] ++ c q).Perm (c q ++ c (.chain t)) := by rw [hw, List.append_nil]; rfl
  refine ⟨put c q (.chain t) [] (c q), h.transfer hqr ?_ (.inr rfl) hperm rfl hnext hhead halloc
    ?_ ?_ ?_ ?_ hlinked, ?_⟩
  · rcases hq with rfl | rfl
    · exact .inl rfl
    · exact .inr rfl
  · rcases hq with rfl | rfl <;> simpa [put] using hglobal
  · rcases hq with rfl | rfl <;> simpa [put] using hlocal
  · rwa [put_right]
  · rw [hfresh, ← hp, ← hfr]
    rcases hq with rfl | rfl <;> simp [put]
  · rw [hd]
    refine skip_of_transfer hqr hperm ?_
    rcases hq with rfl | rfl <;> exact Iff.rfl

/-- The chain of an exiting thread becomes the front of the global list. -/
theorem Inv.release (h : Inv c s f) {last : N} {o : Bool} (hp : f t = .exitCas last o)
    (hg : s.globalHead = s.mNext last) (hl : left p' = true) (hw : Works s t [] p')
    (hfresh : freshOf p' = []) (hlinked : Linked s t p') :
    Leads c s f t .skip { s with globalHead := s.localHead t } p' := by
  have hfr : c (.fresh t) = freshOf (f t) := h.chain (.fresh t)
  have hglobal : Seg s.mNext s.globalHead (c .global) none := h.chain .global
  have hlocal := h.chain (.localList t)
  have hworks : Works s t (c (.chain t)) (f t) := h.chain (.chain t)
  rw [hp] at hfr hworks
  simp only [Chain, hp, left] at hlocal
  obtain ⟨rest, hrest, hseg⟩ := hworks
  have hqr : Place.chain t ≠ .global := (by simp)
  have hperm : ([] ++ (c (.chain t) ++ c .global)).Perm (c (.chain t) ++ c .global) := .refl _
  refine ⟨_, h.transfer hqr (.inr rfl) (.inl rfl) hperm rfl rfl (fun _ _ => rfl) rfl ?_ ?_ ?_ ?_ ?_,
    skip_of_transfer hqr hperm Iff.rfl⟩
  · rw [put_right, hrest]
    exact Seg.append_iff.2 ⟨_, hseg.snoc, hg ▸ hglobal⟩
  · simpa [put, hl] using hlocal
  · rw [put_left hqr]
    exact hw.frame (by simp) rfl
  · rw [hfresh]
    simpa [put, freshOf] using hfr
  · unfold Linked at hlinked ⊢
    exact hlinked

variable [DecidableEq N]

theorem Inv.delete (h : Inv c s f) {next : Option N} {arr : List (Option P)}
    (hp : f t = .delete n next arr) :
    Leads c s f t (.delete n) (s.free n) (.filter next arr) := by
  have hfr : c (.fresh t) = freshOf (f t) := h.chain (.fresh t)
  have hlocal := h.localList hp rfl
  have hworks : Works s t (c (.chain t)) (f t) := h.chain (.chain t)
  rw [hp] at hfr hworks
  obtain ⟨rest, hrest, hseg⟩ := hworks
  obtain ⟨hc, hkept⟩ := h.custody.drop hrest
  have hmem : n ∈ c (.chain t) := hrest ▸ List.mem_cons_self
  refine ⟨_, h.step hc (fun r u hr hu => ⟨Function.update_of_ne ?_ _ _, fun _ _ => rfl⟩)
    (fun _ _ => rfl) ?_ ?_ ?_ ?_ trivial fun r m hm => ?_, ?_⟩
  · rintro rfl
    exact hu (Option.some.inj hr).symm
  · simpa [Chain, Shared.free] using h.chain .global
  · simpa [left, Shared.free] using hlocal
  · rw [Function.update_self]
    exact hseg
  · simpa [freshOf] using hfr
  · obtain ⟨⟨q, -, hq⟩, hne⟩ := (hkept (fun _ => True) m).1 ⟨r, trivial, hm⟩
    exact (Function.update_of_ne hne _ _).trans (h.live q m hq)
  · exact ⟨⟨.chain t, trivial, hmem⟩, hkept _, hkept _, rfl⟩

theorem Inv.make (h : Inv c s f) {data : A} (hp : f t = .ready) (hn : ¬ s.allocated n = true) :
    Leads c s f t (.make n data) (s.make n data) (.appendNext n .retire) := by
  have hfr : c (.fresh t) = freshOf (f t) := h.chain (.fresh t)
  have hworks : Works s t (c (.chain t)) (f t) := h.chain (.chain t)
  rw [hp] at hfr hworks
  have hnone : ∀ q, n ∉ c q := fun q hq => hn (h.live q n hq)
  have hnext : ∀ r, ∀ m ∈ c r, (s.make n data).mNext m = s.mNext m := fun r m hm =>
    Function.update_of_ne (by rintro rfl; exact hnone r hm) _ _
  obtain ⟨hc, hkept⟩ := h.custody.add (p := Place.fresh t) hnone
  refine ⟨_, h.step hc (fun r u hr hu => ⟨Function.update_of_ne ?_ _ _, hnext r⟩)
    (fun _ _ => rfl) ?_ ?_ ?_ ?_ trivial fun r m hm => ?_, ?_⟩
  · rintro rfl
    exact hu (Option.some.inj hr).symm
  · have hg : Seg s.mNext s.globalHead (c .global) none := h.chain .global
    simpa [Shared.make] using hg.congr (hnext _)
  · simpa [Shared.make, left] using (h.localList hp rfl).congr (hnext _)
  · simpa [Works] using hworks
  · rw [Function.update_self, hfr]
    rfl
  · rcases (hkept (fun _ => True) m).1 ⟨r, trivial, hm⟩ with ⟨rfl, -⟩ | ⟨q, -, hq⟩
    · exact Function.update_self ..
    · refine (Function.update_of_ne ?_ _ _).trans (h.live q m hq)
      rintro rfl
      exact hnone q hq
  · refine ⟨fun hk => ?_, fun m => ?_, fun m => ?_, Function.update_self .., fun m hm =>
      Function.update_of_ne hm _ _⟩
    · obtain ⟨q, -, hq⟩ := hk
      exact hnone q hq
    · rw [hkept]
      simp
    · rw [hkept]
      simp [Place.Settled]

/-- An exiting thread links its last node to the head of the global list. -/
theorem Inv.relinkLast (h : Inv c s f) {last : N} {o : Bool} (hp : f t = p)
    (hl : p = .exitLoad last o ∨ p = .exitCas last o) :
    Leads c s f t .skip (s.setNext last s.globalHead) (.exitCas last o) := by
  have hw : Works s t (c (.chain t)) (f t) := h.chain (.chain t)
  have hnd := h.custody.nodup (.chain t)
  rw [hp] at hw
  have hrest : ∃ rest, c (.chain t) = rest ++ [last] ∧
      Seg s.mNext (s.localHead t) rest (some last) := by
    rcases hl with rfl | rfl <;> exact hw
  obtain ⟨rest, hc, hseg⟩ := hrest
  have hmem : last ∈ c (.chain t) := by simp [hc]
  have hnot : last ∉ rest := fun hm => by
    rw [hc, List.nodup_append] at hnd
    exact hnd.2.2 last hm last (List.mem_singleton_self _) rfl
  refine Inv.skips (h.relink hp (.inl hmem) rfl rfl rfl rfl ?_
    ⟨rest, hc, hseg.update hnot⟩ ?_ trivial) rfl
  · rcases hl with rfl | rfl <;> rfl
  · rcases hl with rfl | rfl <;> rfl

variable [DecidableEq P] {slotNum : ℕ} {address : A → P} {ok : Bool} {act : Act N A P}

omit [DecidableEq τ] [DecidableEq N] [DecidableEq P] in
theorem afterList_spec (slotNum : ℕ) (s : Shared τ N A P) (t u : τ) (o : Bool) (q : PC τ N P)
    (hq : q = afterList slotNum s t o) :
    left q = true ∧ freshOf q = [] ∧ Works s u [] q ∧ Linked s u q := by
  subst hq
  cases o <;> exact ⟨rfl, rfl, rfl, trivial⟩

theorem inv_run (h : Inv c s f) (hp : f t = p)
    (hn : nextRun slotNum address t ok s p = some (s', p')) :
    Leads c s f t (event p (.run ok : Act N A P)) s' p' := by
  have hworks : Works s t (c (.chain t)) (f t) := h.chain (.chain t)
  have hlinked := h.linked t
  have hnd := h.custody.nodup (.chain t)
  rw [hp] at hworks hlinked
  revert hn
  fun_cases nextRun slotNum address t ok s p <;> intro hn <;> cases hn
  -- steps that move no node and write no link
  all_goals try exact Inv.skips (h.stay hp rfl rfl rfl rfl rfl id rfl trivial) rfl
  · rename_i node after
    refine Inv.skips (h.relink hp (h.node_mem (.inl hp)) rfl rfl rfl rfl rfl ?_ ?_ ?_) rfl
    · cases after with
      | retire => exact hworks
      | gather next =>
        obtain ⟨rest, hrest, hseg⟩ := hworks
        exact ⟨rest, hrest, hseg.update (List.nodup_cons.1 (hrest ▸ hnd)).1⟩
      | filter next arr =>
        obtain ⟨rest, hrest, hseg⟩ := hworks
        exact ⟨rest, hrest, hseg.update (List.nodup_cons.1 (hrest ▸ hnd)).1⟩
    · cases after <;> rfl
    · exact Function.update_self ..
  · rename_i node after
    cases after with
    | retire => exact h.link hp
    | gather next =>
      obtain ⟨rest, hrest, hseg⟩ := hworks
      exact h.relocate hp hrest (by rw [hp]; rfl) ⟨rfl, rfl, hseg, trivial⟩
    | filter next arr =>
      obtain ⟨rest, hrest, hseg⟩ := hworks
      exact h.relocate hp hrest (by rw [hp]; rfl) ⟨rfl, rfl, hseg, trivial⟩
  · refine h.detach (q := .global) hp hworks (.inl rfl) rfl rfl (fun _ _ => rfl) rfl rfl
      (h.localList hp rfl) (h.chain .global) rfl trivial
  · exact Inv.skips (h.stay hp rfl rfl rfl rfl rfl Seg.eq_cons rfl trivial) rfl
  · exact Inv.skips (h.stay hp rfl rfl rfl rfl rfl Seg.eq_nil rfl trivial) rfl
  · exact h.detach (q := .localList t) hp hworks (.inr rfl) rfl rfl
      (fun u hu => Function.update_of_ne hu _ _) rfl (h.chain .global)
      (by simp [Shared.setHead, Shared.setSize, left]) (h.localList hp rfl) rfl trivial
  · exact Inv.skips (h.stay hp rfl rfl rfl rfl rfl Seg.eq_cons rfl trivial) rfl
  · exact Inv.skips (h.stay hp rfl rfl rfl rfl rfl Seg.eq_cons rfl trivial) rfl
  · exact Inv.skips (h.stay hp rfl rfl rfl rfl rfl Seg.eq_nil rfl trivial) rfl
  · exact h.delete hp
  · rename_i i listLeft
    refine Inv.skips (h.stay hp rfl rfl rfl rfl ?_ id rfl trivial) rfl
    cases listLeft <;> rfl
  · rename_i listLeft
    cases listLeft
    · exact Inv.skips (h.stay hp rfl rfl rfl rfl rfl id rfl trivial) rfl
    · exact Inv.skips (h.stay hp rfl rfl rfl rfl rfl id rfl trivial) rfl
  · rename_i o head hhead
    have hlocal := h.localList hp rfl
    refine h.detach (q := .localList t) hp hworks (.inr rfl) rfl rfl (fun _ _ => rfl) rfl
      (h.chain .global) rfl ⟨hlocal, ?_⟩ rfl trivial
    exact (hhead ▸ hlocal).head_mem
  · rename_i o hnone
    obtain ⟨h1, h2, h3, h4⟩ := afterList_spec slotNum s t t o _ rfl
    have hlocal := h.localList hp rfl
    rw [hnone] at hlocal
    refine Inv.skips (h.step h.custody (fun _ _ _ _ => ⟨rfl, fun _ _ => rfl⟩) (fun _ _ => rfl)
      (h.chain .global) ?_ ?_ ?_ h4 h.live) rfl
    · rw [h1]
      exact hlocal
    · rw [show c (.chain t) = [] from hworks]
      exact h3
    · rw [h2]
      exact (h.chain (.fresh t)).trans (by rw [hp]; rfl)
  · rename_i last o next hnext
    refine Inv.skips (h.stay hp rfl rfl rfl rfl rfl (fun hw => ⟨hw.1, ?_⟩) rfl trivial) rfl
    exact hw.1.next_mem hw.2 hnext
  · rename_i last o hnext
    exact Inv.skips
      (h.stay hp rfl rfl rfl rfl rfl (fun hw => hw.1.split_last hw.2 hnext) rfl trivial) rfl
  · exact h.relinkLast hp (.inl rfl)
  · rename_i last o hcas
    obtain ⟨h1, h2, h3, h4⟩ := afterList_spec slotNum s t t o _ rfl
    exact h.release hp hcas.1 h1 h3 h2 h4
  · exact h.relinkLast hp (.inr rfl)

theorem inv_step (h : Inv c s f) (hp : f t = p)
    (hn : next slotNum address t act s p = some (s', p')) :
    Leads c s f t (event p act) s' p' := by
  revert hn
  fun_cases next slotNum address t act s p <;> intro hn
  case case9 => exact inv_run h hp hn
  all_goals cases hn
  case case6 => exact h.make hp ‹_›
  case case8 listFirst =>
    cases listFirst <;> exact Inv.skips (h.stay hp rfl rfl rfl rfl rfl id rfl trivial) rfl
  all_goals exact Inv.skips (h.stay hp rfl rfl rfl rfl rfl id rfl trivial) rfl

omit [DecidableEq τ] [DecidableEq N] [DecidableEq P] in
theorem inv_initial (hs : Initial s) (hf : f = fun _ => .ready) :
    Inv (fun _ => []) s f := by
  subst hf
  refine ⟨⟨fun _ => List.nodup_nil, nofun⟩, fun r => ?_, fun _ => trivial, nofun⟩
  cases r with
  | global => exact hs.globalHead
  | localList t =>
    simp only [Chain, left, hs.localHead]
    rfl
  | chain t => rfl
  | fresh t => rfl

end Steps

end DeleteLists

end ConcurrencySandbox

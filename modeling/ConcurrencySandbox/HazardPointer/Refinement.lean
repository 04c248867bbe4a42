import Mathlib.Data.List.Perm.Basic
import ConcurrencySandbox.HazardPointer.Domain
import ConcurrencySandbox.Interleaving.System

/-!
# The domain refines hazard slots

`Refines` relates the domain, with its threads somewhere inside it, to the abstract slots: every
retired address is in exactly one delete list, and a thread that has read some of the slots has
found, or still has before it, every slot that guards an address of its list. The slot list is
loaded after the addresses were retired, and slots are only ever added to it, so it holds every
slot that may guard one of them.
-/

namespace ConcurrencySandbox

open Interleaving

namespace HazardPointer

variable {τ A : Type*}

/-- Every retired address is in one delete list, once. -/
structure Lists (owned : τ → List A) (global : List A) (retired : Set A) : Prop where
  nodup : ∀ t, (owned t ++ global).Nodup
  disjoint : ∀ t u, t ≠ u → ∀ a ∈ owned t, a ∉ owned u
  mem : ∀ a, a ∈ retired ↔ a ∈ global ∨ ∃ t, a ∈ owned t

/-- The addresses of a scan that are still to be looked at. -/
def pending : Frame τ A → List A
  | .filter cur _ => cur
  | _ => []

/-- How many of its slots a thread has put into the list and may store to. -/
def registered (N : ℕ) : Frame τ A → ℕ
  | .unstarted | .exitList false | .exited => 0
  | .owner i | .append i | .exitOwner i _ => i
  | _ => N

/-- The slots that guard an address of the scan are read, or still to be read. -/
def Scanned (h : Hazards (τ × ℕ) A) (l : List A) : Frame τ A → Prop
  | .getPointers rest arr => ∀ a ∈ l, ∀ s ∈ h.guards a, s ∈ rest ∨ some a ∈ arr
  | .filter cur arr => ∀ a ∈ cur, ∀ s ∈ h.guards a, some a ∈ arr
  | _ => True

structure Refines (N : ℕ) (d : Domain τ A) (f : τ → Frame τ A) (h : Hazards (τ × ℕ) A) :
    Prop where
  pointer : h.pointer = d.mPointer
  slots : ∀ s, d.mPointer s ≠ none → s ∈ d.hazardPointerList
  started : ∀ t i, i < registered N (f t) → (t, i) ∈ d.hazardPointerList
  guards : ∀ a s, s ∈ h.guards a → d.mPointer s = some a
  lists : Lists (fun t => pending (f t) ++ d.localDeleteList t) d.globalDeleteList h.retired
  scanned : ∀ t, Scanned h (d.localDeleteList t) (f t)

section Lists

variable {owned : τ → List A} {global global' l : List A} {retired retired' : Set A} {t : τ} {a : A}

theorem Lists.retired_of_mem (h : Lists owned global retired) (ha : a ∈ owned t) : a ∈ retired :=
  (h.mem a).2 (.inr ⟨t, ha⟩)

variable [DecidableEq τ]

/-- Thread `t` changes its list and the global one. What is new in them was not retired. -/
theorem Lists.update (h : Lists owned global retired) (hnd : (l ++ global').Nodup)
    (hnew : ∀ a ∈ l ++ global', a ∈ owned t ++ global ∨ a ∉ retired)
    (hr : ∀ a, a ∈ retired' ↔ a ∈ l ++ global' ∨ a ∈ retired ∧ a ∉ owned t ++ global) :
    Lists (Function.update owned t l) global' retired' := by
  -- what another thread has is retired and not in the lists of `t`
  have hother : ∀ u, u ≠ t → ∀ a ∈ owned u, a ∈ retired ∧ a ∉ owned t ++ global :=
      fun u hu a ha => by
    refine ⟨h.retired_of_mem ha, fun hm => ?_⟩
    rcases List.mem_append.1 hm with hm | hm
    · exact h.disjoint u t hu a ha hm
    · exact (List.nodup_append.1 (h.nodup u)).2.2 a ha a hm rfl
  have hnot : ∀ u, u ≠ t → ∀ a ∈ owned u, a ∉ l ++ global' := fun u hu a ha hm =>
    (hnew a hm).elim (hother u hu a ha).2 fun hn => hn (hother u hu a ha).1
  refine ⟨fun u => ?_, fun u v huv a ha => ?_, fun a => ?_⟩
  · by_cases hu : u = t
    · subst hu
      simpa using hnd
    · simp only [Function.update_of_ne hu]
      refine List.nodup_append.2 ⟨(List.nodup_append.1 (h.nodup u)).1,
        (List.nodup_append.1 hnd).2.1,
        fun a ha b hb hab => hnot u hu a ha (List.mem_append_right _ (hab ▸ hb))⟩
  · by_cases hu : u = t
    · subst hu
      rw [Function.update_self] at ha
      rw [Function.update_of_ne huv.symm]
      exact fun hv => hnot v huv.symm a hv (List.mem_append_left _ ha)
    · rw [Function.update_of_ne hu] at ha
      by_cases hv : v = t
      · subst hv
        rw [Function.update_self]
        exact fun hm => hnot u hu a ha (List.mem_append_left _ hm)
      · rw [Function.update_of_ne hv]
        exact h.disjoint u v huv a ha
  · rw [hr]
    constructor
    · rintro (ha | ⟨ha, hn⟩)
      · rcases List.mem_append.1 ha with ha | ha
        · exact .inr ⟨t, by simpa using ha⟩
        · exact .inl ha
      · rcases (h.mem a).1 ha with hg | ⟨u, hu⟩
        · exact absurd (List.mem_append_right _ hg) hn
        · have hut : u ≠ t := fun e => hn (List.mem_append_left _ (e ▸ hu))
          exact .inr ⟨u, by simpa [hut] using hu⟩
    · rintro (ha | ⟨u, hu⟩)
      · exact .inl (List.mem_append_right _ ha)
      · by_cases hut : u = t
        · subst hut
          exact .inl (List.mem_append_left _ (by simpa using hu))
        · rw [Function.update_of_ne hut] at hu
          exact .inr (hother u hut a hu)

/-- Moving addresses between the lists of thread `t` and the global one. -/
theorem Lists.perm (h : Lists owned global retired) (hp : (l ++ global').Perm (owned t ++ global)) :
    Lists (Function.update owned t l) global' retired := by
  refine h.update (hp.nodup_iff.2 (h.nodup t)) (fun a ha => .inl (hp.mem_iff.1 ha)) fun a => ?_
  rw [hp.mem_iff]
  have : a ∈ owned t ++ global → a ∈ retired := fun hm => (h.mem a).2
    ((List.mem_append.1 hm).symm.imp id fun hm => ⟨t, hm⟩)
  tauto

theorem Lists.retire (h : Lists owned global retired) (ha : a ∉ retired) :
    Lists (Function.update owned t (a :: owned t)) global (insert a retired) := by
  have hn : a ∉ owned t ++ global := fun hm => ha ((h.mem a).2
    ((List.mem_append.1 hm).symm.imp id fun hm => ⟨t, hm⟩))
  refine h.update (List.nodup_cons.2 ⟨hn, h.nodup t⟩) (fun b hb => ?_) fun b => ?_
  · rcases List.mem_cons.1 hb with rfl | hb
    · exact .inr ha
    · exact .inl hb
  · have : b ∈ owned t ++ global → b ∈ retired := fun hm => (h.mem b).2
      ((List.mem_append.1 hm).symm.imp id fun hm => ⟨t, hm⟩)
    rw [List.cons_append, List.mem_cons, Set.mem_insert_iff]
    tauto

theorem Lists.free (h : Lists owned global retired) (hl : owned t = a :: l) :
    Lists (Function.update owned t l) global (retired \ {a}) := by
  have hnd := h.nodup t
  rw [hl, List.cons_append, List.nodup_cons] at hnd
  refine h.update hnd.2 (fun b hb => .inl ?_) fun b => ?_
  · rw [hl]
    exact List.mem_cons_of_mem _ hb
  · have hb : b ∈ l ++ global → b ∈ retired := fun hm => (h.mem b).2
      ((List.mem_append.1 hm).symm.imp id fun hm => ⟨t, by simp [hl, hm]⟩)
    rw [hl, List.cons_append, List.mem_cons, Set.mem_sdiff, Set.mem_singleton_iff]
    have : b ∈ l ++ global → b ≠ a := fun hm e => hnd.1 (e ▸ hm)
    tauto

end Lists

/-- Inside the domain a thread stores null to its own slots, and frees addresses. -/
theorem step_event [DecidableEq τ] [DecidableEq A] {N : ℕ} {d d' : Domain τ A} {t : τ} {ok : Bool}
    {p p' : Frame τ A} {e : Hazards.Event (τ × ℕ) A} (hs : d.step N t ok p = some (d', p', e)) :
    e = .skip ∨ (∃ i, e = .store (t, i) none) ∨ ∃ a, e = .free a := by
  revert hs
  fun_cases Domain.step d N t ok p <;> intro hs <;> cases hs
  case case17 => exact .inr (.inl ⟨_, rfl⟩)
  case case16 => exact .inr (.inr ⟨_, rfl⟩)
  all_goals exact .inl rfl

/-- The frames of `retire`. -/
def InRetire : Frame τ A → Prop
  | .ready | .retireTest | .loadGlobal | .resetGlobal | .loadHead | .getPointers ..
      | .filter .. => True
  | _ => False

/-- `retire` stores to no slot. -/
theorem step_inRetire [DecidableEq τ] [DecidableEq A] {N : ℕ}
    {d d' : Domain τ A} {t : τ} {ok : Bool}
    {p p' : Frame τ A} {e : Hazards.Event (τ × ℕ) A} (hs : d.step N t ok p = some (d', p', e))
    (hp : InRetire p) : InRetire p' ∧ ∀ x v, e ≠ .store x v := by
  revert hs hp
  fun_cases Domain.step d N t ok p <;> intro hs hp <;> cases hs <;>
    first | exact ⟨trivial, nofun⟩ | cases hp

namespace Refines

variable {N : ℕ} {d d' : Domain τ A} {f : τ → Frame τ A} {h h' : Hazards (τ × ℕ) A} {t : τ} {a : A}
  {p' : Frame τ A}

theorem init (N : ℕ) :
    Refines N (Domain.initial : Domain τ A)
      (fun _ => .unstarted) ⟨fun _ => none, ∅, fun _ => ∅⟩ where
  pointer := rfl
  slots := by simp [Domain.initial]
  started := by simp [registered]
  guards := by simp
  lists := ⟨by simp [pending, Domain.initial], by simp [pending, Domain.initial],
    by simp [pending, Domain.initial]⟩
  scanned _ := trivial

theorem mem_retired (hR : Refines N d f h) (ha : a ∈ pending (f t) ++ d.localDeleteList t) :
    a ∈ h.retired := hR.lists.retired_of_mem (t := t) ha

variable [DecidableEq τ]

/-- A step of thread `t` that leaves the other threads' lists, and gives no retired address a new
guard. -/
theorem update (hR : Refines N d f h) (hptr : h'.pointer = d'.mPointer)
    (hslots : ∀ s, d'.mPointer s ≠ none → s ∈ d'.hazardPointerList)
    (hlist : ∀ s ∈ d.hazardPointerList, s ∈ d'.hazardPointerList)
    (hreg : ∀ i < registered N p', (t, i) ∈ d'.hazardPointerList)
    (hguards : ∀ a s, s ∈ h'.guards a → d'.mPointer s = some a)
    (hloc : ∀ u, u ≠ t → d'.localDeleteList u = d.localDeleteList u)
    (hlists : Lists (Function.update (fun u => pending (f u) ++ d.localDeleteList u) t
      (pending p' ++ d'.localDeleteList t)) d'.globalDeleteList h'.retired)
    (hscan : Scanned h' (d'.localDeleteList t) p')
    (hold : ∀ a ∈ h.retired, h'.guards a ⊆ h.guards a) :
    Refines N d' (Function.update f t p') h' where
  pointer := hptr
  slots := hslots
  started := Program.forall_update
    (L := fun u q => ∀ i, i < registered N q → (u, i) ∈ d'.hazardPointerList) hreg
    fun u _ i hi => hlist _ (hR.started u i hi)
  guards := hguards
  lists := by
    refine (congrArg (Lists · d'.globalDeleteList h'.retired) ?_).mp hlists
    funext u
    by_cases hu : u = t
    · subst hu
      simp
    · simp [hu, hloc u hu]
  scanned := by
    refine Program.forall_update (L := fun u q => Scanned h' (d'.localDeleteList u) q) hscan
      fun u hu => ?_
    have hl := hloc u hu
    have hu' := hR.scanned u
    have hret : ∀ a ∈ pending (f u) ++ d.localDeleteList u, h'.guards a ⊆ h.guards a :=
      fun a ha => hold a (hR.mem_retired ha)
    cases hf : f u with
    | getPointers rest arr =>
      rw [hf] at hu' hret
      intro a ha s hs
      rw [hl] at ha
      exact hu' a ha s (hret a ha hs)
    | filter cur arr =>
      rw [hf] at hu' hret
      exact fun a ha s hs => hu' a ha s (hret a (by simp [pending, ha]) hs)
    | _ => trivial

/-- A step that touches no slot. -/
theorem quiet (hR : Refines N d f h) (hptr : d'.mPointer = d.mPointer)
    (hlist : ∀ s ∈ d.hazardPointerList, s ∈ d'.hazardPointerList)
    (hreg : ∀ i < registered N p', (t, i) ∈ d'.hazardPointerList)
    (hloc : ∀ u, u ≠ t → d'.localDeleteList u = d.localDeleteList u)
    (hlists : (pending p' ++ d'.localDeleteList t ++ d'.globalDeleteList).Perm
      (pending (f t) ++ d.localDeleteList t ++ d.globalDeleteList))
    (hscan : Scanned h (d'.localDeleteList t) p') : Refines N d' (Function.update f t p') h :=
  hR.update (hR.pointer.trans hptr.symm) (fun s hs => hlist s (hR.slots s (hptr ▸ hs))) hlist hreg
    (hptr ▸ hR.guards) hloc (hR.lists.perm hlists) hscan fun _ _ => subset_rfl

/-- The thread goes elsewhere, with no scan begun. -/
theorem move (hR : Refines N d f h) (hp : pending p' = pending (f t))
    (hreg : registered N p' ≤ registered N (f t)) (hscan : Scanned h (d.localDeleteList t) p') :
    Refines N d (Function.update f t p') h :=
  hR.quiet rfl (fun _ => id) (fun i hi => hR.started t i (hi.trans_le hreg)) (fun _ _ => rfl)
    (by rw [hp]) hscan

/-- A thread's store to a slot of its own. -/
theorem store (hR : Refines N d f h) [DecidableEq A] {i : ℕ} (v : Option A)
    (hi : i < registered N (f t)) (hp : pending p' = pending (f t))
    (hreg : registered N p' ≤ registered N (f t)) (hscan : Scanned h (d.localDeleteList t) p') :
    Refines N (d.store t i v) (Function.update f t p') (h.apply (.store (t, i) v)) := by
  have hmem := hR.started t i hi
  have hptr : ∀ s, s ≠ (t, i) → (d.store t i v).mPointer s = d.mPointer s := fun s hs =>
    Function.update_of_ne hs _ _
  have hself : (h.apply (.store (t, i) v)).pointer = (d.store t i v).mPointer := by
    show Function.update h.pointer (t, i) v = _
    rw [hR.pointer]
    rfl
  refine hR.update hself (fun s hs => ?_) (fun _ => id)
    (fun j hj => hR.started t j (hj.trans_le hreg)) (fun a s hs => ?_) (fun _ _ => rfl)
    (hR.lists.perm (by rw [hp]; rfl)) ?_ fun a _ _ hs => hs.1
  · by_cases e : s = (t, i)
    · exact e ▸ hmem
    · exact hR.slots s (by rwa [hptr s e] at hs)
  · by_cases e : s = (t, i)
    · rw [← hs.2 e, e]
      exact Function.update_self ..
    · rw [hptr s e]
      exact hR.guards a s hs.1
  · cases p' with
    | getPointers rest arr => exact fun a ha s hs => hscan a ha s hs.1
    | filter cur arr => exact fun a ha s hs => hscan a ha s hs.1
    | _ => trivial

/-- `retire` begins. -/
theorem retire (hR : Refines N d f h) [DecidableEq A] (hf : f t = .ready) (ha : a ∉ h.retired) :
    Refines N (d.retire t a) (Function.update f t .retireTest) (h.apply (.retire a)) := by
  have hself : (d.retire t a).localDeleteList t = a :: d.localDeleteList t :=
    Function.update_self ..
  have hst := hR.started t
  rw [hf] at hst
  refine hR.update hR.pointer hR.slots (fun _ => id) hst (fun b s hs => ?_)
    (fun u hu => Function.update_of_ne hu _ _) ?_ trivial fun b hb' => ?_
  · by_cases e : b = a
    · subst e
      simpa [Hazards.apply, hR.pointer, Domain.retire, Domain.setLocal] using hs
    · exact hR.guards b s (by simpa [Hazards.apply, e] using hs)
  · rw [hself]
    have := hR.lists.retire (t := t) ha
    rwa [hf] at this
  · have : b ≠ a := fun e => ha (e ▸ hb')
    simp [Hazards.apply, this]

/-- A scan that has not found an address frees it: no slot guards it. -/
theorem free (hR : Refines N d f h) [DecidableEq A] {cur : List A} {arr : List (Option A)}
    (hf : f t = .filter (a :: cur) arr) (ha : some a ∉ arr) :
    h.Enabled (.free a) ∧
      Refines N d (Function.update f t (.filter cur arr)) (h.apply (.free a)) := by
  have hsc := hR.scanned t
  have hst := hR.started t
  have hret := hR.mem_retired (t := t) (a := a)
  rw [hf] at hsc hst hret
  have hl := hR.lists.free (t := t) (a := a) (l := cur ++ d.localDeleteList t) (by rw [hf]; rfl)
  refine ⟨⟨hret (by simp [pending]), Set.eq_empty_of_forall_notMem fun s hs => ?_⟩, ?_⟩
  · exact ha (hsc a List.mem_cons_self s hs)
  · exact hR.update hR.pointer hR.slots (fun _ => id) hst hR.guards (fun _ _ => rfl) hl
      (fun b hb => hsc b (List.mem_cons_of_mem _ hb)) fun _ _ => subset_rfl

/-- Every step inside the domain is an enabled step of the abstract slots. -/
theorem step (hR : Refines N d f h) [DecidableEq A] {ok : Bool}
    {e : Hazards.Event (τ × ℕ) A} (hs : d.step N t ok (f t) = some (d', p', e)) :
    h.Enabled e ∧ Refines N d' (Function.update f t p') (h.apply e) := by
  have hst := hR.started t
  have hsc := hR.scanned t
  have hne : ∀ l, ∀ u, u ≠ t → (d.setLocal t l).localDeleteList u = d.localDeleteList u :=
    fun l u hu => Function.update_of_ne hu _ _
  have hself : ∀ l, (d.setLocal t l).localDeleteList t = l := fun l => Function.update_self ..
  have same : ∀ p', (∀ i < registered N p', (t, i) ∈ d.hazardPointerList) →
      pending p' = pending (f t) → Scanned h (d.localDeleteList t) p' →
        h.Enabled .skip ∧ Refines N d (Function.update f t p') h := fun p' hreg hp hsc =>
    ⟨trivial, hR.quiet rfl (fun _ => id) hreg (fun _ _ => rfl) (by rw [hp]) hsc⟩
  revert hs
  generalize hf : f t = p at hst hsc same
  fun_cases Domain.step d N t ok p <;> intro hs <;> cases hs
  all_goals try exact same _ hst rfl trivial
  · exact ⟨trivial, hR.quiet rfl (fun _ => id) hst (fun _ _ => rfl) (by rw [hf]; rfl) trivial⟩
  · exact same _ (fun i hi => hst i (hi.trans_le (by simp_all [registered]))) rfl trivial
  · rename_i i _
    refine ⟨trivial, hR.quiet rfl (fun _ => List.mem_cons_of_mem _)
      (fun j hj => ?_) (fun _ _ => rfl)
      (by rw [hf]; rfl) trivial⟩
    rcases Nat.lt_succ_iff_lt_or_eq.1 hj with hj | rfl
    · exact List.mem_cons_of_mem _ (hst j hj)
    · exact List.mem_cons_self
  · refine ⟨trivial, hR.quiet rfl (fun _ => id) hst (hne _) ?_ trivial⟩
    rw [hself, hf]
    simp only [pending, List.nil_append, List.append_nil]
    exact ((List.reverse_perm _).append_right _).trans List.perm_append_comm
  · -- every guard is in the list
    refine same _ hst rfl fun a _ s hs => .inl (hR.slots s ?_)
    rw [hR.guards a s hs]
    simp
  · refine same _ hst rfl fun a ha s hs => ?_
    rcases hsc a ha s hs with h1 | h1
    · rcases List.mem_cons.1 h1 with rfl | h1
      · exact .inr (by simp [hR.guards a _ hs])
      · exact .inl h1
    · exact .inr (by simp [h1])
  · refine ⟨trivial, hR.quiet rfl (fun _ => id) hst (hne _) ?_ fun a ha s hs => ?_⟩
    · rw [hself, hf]
      simp [pending]
      rfl
    · exact (hsc a ha s hs).resolve_left (by simp)
  · refine ⟨trivial, hR.quiet rfl (fun _ => id) hst (hne _) ?_ fun a ha => hsc a (by simp [ha])⟩
    rw [Domain.retire, hself, hf]
    simp only [pending, List.cons_append, List.append_assoc]
    exact List.perm_middle
  · exact hR.free hf ‹_›
  · rename_i i b
    exact ⟨trivial, hR.store none (by rw [hf]; exact Nat.lt_succ_self i) (by rw [hf]; rfl)
      (by rw [hf]; exact Nat.le_succ i) trivial⟩
  · rename_i ownersLeft _
    refine ⟨trivial, ?_⟩
    cases ownersLeft
    all_goals
      refine hR.quiet rfl (fun _ => id) hst (hne _) ?_ trivial
      show (_ ++ (d.setLocal t []).localDeleteList t ++ _).Perm _
      rw [hself, hf]
      exact List.Perm.refl _

end Refines

end HazardPointer

end ConcurrencySandbox

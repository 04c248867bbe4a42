import ConcurrencySandbox.LockFreeHashMap.Invariant

/-!
# Claimed nodes and their deleters

A node that is in the list when the second load of its pointer validates a claim is not retired yet,
so its deleter does not run while the slot has it (`claimed_alive`). `get` walks on from nodes that
have been unlinked, and `find` claims what a marked node has for its link: then the second load
finds the old pointer again although the node may long be deleted (`claimed_deleted`).
-/

namespace ConcurrencySandbox

open Interleaving Structures HazardPointer

namespace LockFreeHashMap

variable {τ A K V : Type*} [DecidableEq A]

/-- The slot and the node, when the next step of a thread at `p` returns the node from
`claimPointer` or `claimMarkablePointer`. -/
def claiming (s : Shared τ A K V) : PC τ A K V → Option (Fin 3 × A)
  | .claimCheck c h site (some p) =>
    if (s.read c.call.slot site).1 = some p then some (site.holder h, p) else none
  | _ => none

/-- What is claimed is in the list. -/
def ClaimsLinked (c : Conf τ (Shared τ A K V) (PC τ A K V)) (l : τ × Act A K V) : Prop :=
  ∀ x ∈ claiming c.shared (c.pc l.1), Reaches c.shared.links c.shared.mHead x.2

variable [DecidableEq τ] [DecidableEq K] {mHash : K → HashValueType}
  {C : Conf τ (Shared τ A K V) (PC τ A K V) → τ × Act A K V → Prop} {n : ℕ}

/-- A node that was claimed exists as long as the slot holds it. -/
def NeverReclaimed (r : (system mHash).Run C n) : Prop :=
  ∀ k < n, ∀ x ∈ claiming (r.state k).shared ((r.state k).pc (r.label k).1),
    ∀ m, k ≤ m → m ≤ n →
      (∀ j, k ≤ j → j ≤ m → (r.state j).shared.domain.mPointer ((r.label k).1, x.1) = some x.2) →
        (r.state m).shared.allocated x.2 = true

omit [DecidableEq τ] [DecidableEq K] in
/-- A node of the list is claimed when its slot has it. -/
theorem Sound.claimed {g : Ghost τ A} {c : Conf τ (Shared τ A K V) (PC τ A K V)} {t : τ}
    (h : Sound mHash g c) {x : Fin 3 × A} (hx : x ∈ claiming c.shared (c.pc t))
    (hl : Reaches c.shared.links c.shared.mHead x.2) : Claimed g c.shared t x.1 x.2 := by
  obtain ⟨hG, -, hp⟩ := h
  have hat := (hp t).2
  unfold claiming at hx
  split at hx
  · rename_i hpc
    rw [hpc] at hat
    split_ifs at hx with hr
    · cases hx
      exact hG.claimed hat.2 (hG.seg.reaches_iff.1 hl)
    · cases hx
  · cases hx

/-- Claimed list nodes are not reclaimed under the claimer. -/
theorem claimed_alive (r : (system mHash).Run (ClaimsLinked (τ := τ) (A := A) (V := V)) n) :
    NeverReclaimed r := by
  intro k hk x hx m hkm hmn
  suffices hc : (∀ j, k ≤ j → j ≤ m →
      (r.state j).shared.domain.mPointer ((r.label k).1, x.1) = some x.2) →
        ∃ g, Sound mHash g (r.state m) ∧ Claimed g (r.state m).shared (r.label k).1 x.1 x.2 from
    fun hs => (hc hs).elim fun _ h => h.2.2.1
  induction m, hkm using Nat.le_induction with
  | base =>
    intro _
    obtain ⟨g, hS⟩ := sound_reach (r.reach hk.le)
    exact ⟨g, hS, hS.claimed hx (r.meets k hk x hx)⟩
  | succ m hkm ih =>
    intro hs
    obtain ⟨g, hS, hc⟩ := ih (by omega) fun j h1 h2 => hs j h1 (by omega)
    obtain ⟨g', y, e, hE, hS'⟩ := sound_step hS (r.step m (by omega))
    refine ⟨g', hS', hE.claimed (fun v he => ?_) hc⟩
    -- what the slot is given is what it holds afterwards
    have hp := hS'.2.1.pointer
    rw [hE.hazards, he] at hp
    have hv := congrFun hp ((r.label k).1, (x.1 : ℕ))
    rw [hs (m + 1) (by omega) le_rfl] at hv
    simpa [Hazards.apply] using hv

/-- A `get` claims the first node of the list, which exists. -/
theorem claimed_alive_get : ∃ r : (system fun _ => 0).Run
    (ClaimsLinked (τ := Fin 1) (A := ℕ) (K := ℕ) (V := ℕ)) 36,
    claiming (r.state 35).shared ((r.state 35).pc 0) = some (1, 2) ∧
      (r.state 36).shared.allocated 2 = true := by
  let run (n : ℕ) : List (Fin 1 × Act ℕ ℕ ℕ) := List.replicate n (0, .run true)
  let as : List (Fin 1 × Act ℕ ℕ ℕ) :=
    run 8 ++ [(0, .call (.add 0 5 7)), (0, .alloc 2)] ++ run 19 ++ (0, .call (.get 0 5)) :: run 6
  let c₀ : Conf (Fin 1) (Shared (Fin 1) ℕ ℕ ℕ) (PC (Fin 1) ℕ ℕ ℕ) :=
    ⟨initial 0 1, fun _ => .domain .unstarted⟩
  -- the nodes from `mHead`, as far as they are looked at
  let near (c : Conf (Fin 1) (Shared (Fin 1) ℕ ℕ ℕ) (PC (Fin 1) ℕ ℕ ℕ)) (l : Fin 1 × Act ℕ ℕ ℕ) :
      Prop := ∀ x ∈ claiming c.shared (c.pc l.1), x.2 ∈ walk c.shared.links 3 c.shared.mHead
  have hex : ((system fun _ => 0).execIf near c₀ as).isSome = true := by decide +kernel
  have h35 : ((system fun _ => 0).exec c₀ (as.take 35)).any (fun c =>
      claiming c.shared (c.pc 0) = some (1, 2) &&
      c.shared.domain.mPointer (0, 1) = some 2) = true := by
    decide +kernel
  have h36 : ((system fun _ => 0).exec c₀ (as.take 36)).any (fun c =>
      c.shared.domain.mPointer (0, 1) = some 2) = true := by
    decide +kernel
  obtain ⟨c, hc⟩ := Option.isSome_iff_exists.1 hex
  obtain ⟨hc, hC⟩ := System.execIf_eq_some hc
  have hinit : (system fun _ => 0).init c₀ := ⟨⟨0, 1, by decide, rfl⟩, rfl⟩
  obtain ⟨r, hr, -⟩ := System.exists_run (0, .run true) hinit hc (C := ClaimsLinked)
    fun i hi s hs x hx => reaches_of_mem_walk (hC i hi s hs x hx)
  rw [hr 35 (by decide)] at h35
  rw [hr 36 (by decide)] at h36
  simp only [Option.any_some, Bool.and_eq_true, decide_eq_true_eq] at h35 h36
  have hthread : (r.label 35).1 = 0 := Subsingleton.elim _ _
  refine ⟨r, h35.1, claimed_alive r 35 (by decide) (1, 2) ?_ 36 (by decide) le_rfl
    fun j h1 h2 => ?_⟩
  · rw [hthread]
    exact h35.1
  · rw [hthread]
    obtain rfl | rfl : j = 35 ∨ j = 36 := by omega
    · exact h35.2
    · exact h36

set_option maxRecDepth 100000 in
/-- Thread 1 looks for key 2 and stands at node 2, with key 1. Thread 0 removes both keys, and
others until its list of nodes to delete is scanned: node 2 is in a slot, node 3 is not and is
deleted. Node 2 still has it for its link, and thread 1 claims it. -/
theorem claimed_deleted : ∃ n, ∃ r : (system fun _ => 0).Run
    (fun (_ : Conf (Fin 2) (Shared (Fin 2) ℕ ℕ ℕ) (PC (Fin 2) ℕ ℕ ℕ)) _ => True) n,
    ¬ NeverReclaimed r := by
  let run (t : Fin 2) (n : ℕ) : List (Fin 2 × Act ℕ ℕ ℕ) := List.replicate n (t, .run true)
  let add (k a n : ℕ) : List (Fin 2 × Act ℕ ℕ ℕ) :=
    (0, .call (.add 0 k 7)) :: (0, .alloc a) :: run 0 n
  let remove (k n : ℕ) : List (Fin 2 × Act ℕ ℕ ℕ) := (0, .call (.remove 0 k)) :: run 0 n
  let others := (List.range 10).flatMap fun i => add 1 (i + 4) 19 ++ remove 1 24
  let as : List (Fin 2 × Act ℕ ℕ ℕ) := run 0 8 ++ run 1 8 ++ add 1 2 19 ++ add 2 3 23 ++
    (1, .call (.get 0 2)) :: run 1 7 ++ remove 1 24 ++ remove 2 24 ++ others ++ add 1 14 19 ++
    remove 1 47 ++ run 1 2
  let all := as ++ [(1, .run true)]
  let c₀ : Conf (Fin 2) (Shared (Fin 2) ℕ ℕ ℕ) (PC (Fin 2) ℕ ℕ ℕ) :=
    ⟨initial 0 1, fun _ => .domain .unstarted⟩
  have hend : ((system fun _ => 0).exec c₀ all).isSome = true := by decide +kernel
  have hlast : ((system fun _ => 0).exec c₀ as).any (fun c =>
      claiming c.shared (c.pc 1) = some (2, 3) && c.shared.domain.mPointer (1, 2) = some 3 &&
        !c.shared.allocated 3) = true := by decide +kernel
  obtain ⟨c, hc⟩ := Option.isSome_iff_exists.1 hend
  have hinit : (system fun _ => 0).init c₀ := ⟨⟨0, 1, by decide, rfl⟩, rfl⟩
  obtain ⟨r, hr, hl⟩ :=
    System.exists_run (0, .run true) hinit hc (C := fun _ _ => True) fun _ _ _ _ => trivial
  have hlt : as.length < all.length := by simp [all]
  have hthread : (r.label as.length).1 = 1 := by rw [hl _ hlt, List.getElem_concat_length rfl]
  have hstate := hr as.length hlt.le
  rw [List.take_left] at hstate
  rw [hstate] at hlast
  simp only [Option.any_some, Bool.and_eq_true, decide_eq_true_eq, Bool.not_eq_true'] at hlast
  refine ⟨_, r, fun h => ?_⟩
  have halive := h as.length hlt (2, 3) (hthread ▸ hlast.1.1) as.length le_rfl hlt.le
      fun j h1 h2 => by
    rw [hthread, le_antisymm h2 h1]
    exact hlast.1.2
  exact absurd (halive.symm.trans hlast.2) (by decide)

end LockFreeHashMap

end ConcurrencySandbox

import ConcurrencySandbox.ArrayQueueLock.Basic
import ConcurrencySandbox.CLHQueueLock.Basic
import ConcurrencySandbox.CLHTimeOutQueueLock.Safety
import ConcurrencySandbox.CompositeQueueLock.Exclusion
import ConcurrencySandbox.HierarchicalCLHQueueLock.Exclusion
import ConcurrencySandbox.Interleaving.Sections
import ConcurrencySandbox.MCSQueueLock.Fifo
import ConcurrencySandbox.PetersonLock.Exclusion
import ConcurrencySandbox.TicketLock.Tickets

/-!
# Counting under the locks

The threads of `Lock/QueueLock/TestQueueLock.cpp` and `Lock/PetersonLock/TestPetersonLock.cpp` take
a lock, increment a plain counter and give the lock up, again and again. An increment is a load and
a store, so it is lost if another thread comes in between. Under each of the locks none is.
-/

namespace ConcurrencySandbox

open Interleaving

namespace LockedCounter

/-- Where `count++` is, `v` the value it has loaded. -/
inductive Increment (w : ℕ)
  | load
  | store (v : BitVec w)
  | finished

/-- `count++` on a word of `w` bits. -/
def increment (w : ℕ) : Body (BitVec w) (Increment w) where
  start := .load
  move count := fun
    | .load => some (count, .store count)
    | .store v => some (v + 1, .finished)
    | .finished => none

variable {w : ℕ}

/-- What is in the counter while one thread increments it. -/
def Increment.Value (d : BitVec w) : Increment w → BitVec w → Prop
  | .load, e => e = d
  | .store v, e => e = d ∧ v = d
  | .finished, e => e = d + 1

theorem increment_along {d e : BitVec w} {r : Increment w} (h : (increment w).Along d r e) :
    r.Value d e := by
  induction h with
  | start => rfl
  | @move r r' e e' _ hm ih =>
    cases r with
    | load =>
      cases hm
      exact ⟨ih, ih⟩
    | store v =>
      cases hm
      rw [ih.2]
      rfl
    | finished => cases hm

theorem increment_computes : (increment w).Computes (· + 1) := by
  intro d r e h hm
  cases r with
  | finished => exact increment_along h
  | load | store => cases hm

theorem iterate_add_one (n : ℕ) : (· + 1)^[n] (0 : BitVec w) = BitVec.ofNat w n := by
  induction n with
  | zero => rfl
  | succ n ih =>
    rw [Function.iterate_succ_apply', ih]
    exact (BitVec.ofNat_add n 1).symm

section Counts

variable {τ sh pc act : Type*} [DecidableEq τ] [Fintype τ]

/-- Whenever no thread is in its section the counter has counted the sections, up to its width. -/
def Counts (w : ℕ) (P : Program τ sh pc act) (init : sh → Prop) (start : pc)
    (C : Conf τ sh pc → τ × act → Prop) (inside : pc → Bool) : Prop :=
  ∀ c, ((P.underLock inside (increment w)).system (fun s => init s.1 ∧ s.2 = 0)
      ⟨start, .finished, 0⟩).Reach (Locking C) c →
    (∀ t, inside (c.pc t).place = false) → c.shared.2 = BitVec.ofNat w (count Worker.done c.pc)

theorem Counts.of_exclusive {P : Program τ sh pc act} {init : sh → Prop} {start : pc}
    {C : Conf τ sh pc → τ × act → Prop} {inside : pc → Bool} (hstart : inside start = false)
    (hone : ∀ c, (P.system init start).Reach C c → ∀ t u, inside (c.pc t) = true →
      inside (c.pc u) = true → t = u) : Counts w P init start C inside := by
  intro c h hout
  rw [Worker.atomic increment_computes hstart hone h hout, iterate_add_one]

variable {I P : Type*} [DecidableEq I]

/-- The thread holds the instance and has not begun to unlock it. -/
def holding (l : I) : Place I P → Bool
  | .out held => l ∈ held
  | .busy _ _ held => l ∈ held

omit [DecidableEq τ] [Fintype τ] in
theorem phase_of_holding {phase : P → Phase} {l : I} {x : Place I P} (h : holding l x = true) :
    x.phase phase l = .held := by
  cases x <;> simp_all [holding, Place.phase]

/-- A lock with a queue for every instance. -/
theorem Counts.of_queues {L : LockClass τ I sh P} {init : sh → Prop} {phase : P → Phase}
    {Inv : (I → List τ) → sh → (τ → Place I P) → Prop} (hQ : Queues L init phase Inv) (l : I) :
    Counts w L.program init (.out []) Unnested (holding l) := by
  refine .of_exclusive rfl fun c hc t u ht hu => ?_
  obtain ⟨queue, hstands, -⟩ := hQ.reach hc
  obtain ⟨q, hq⟩ := (hstands.standing l).head t (phase_of_holding ht)
  obtain ⟨q', hq'⟩ := (hstands.standing l).head u (phase_of_holding hu)
  exact (List.cons.inj (hq.symm.trans hq')).1

end Counts

section Locks

/-! The places between `tryLock` or `lock` and `unlock`. -/

def inTimeOut {A : Type*} : CLHTimeOutQueueLock.PC A → Bool
  | .held _ => true
  | _ => false

def inComposite : CompositeQueueLock.PC → Bool
  | .locked _ => true
  | _ => false

def inHierarchical {N : Type*} : HierarchicalCLHQueueLock.PC N → Bool
  | .held => true
  | _ => false

def inTicket : TicketLock.PC → Bool
  | .held => true
  | _ => false

variable (w : ℕ) (τ I N : Type*) [DecidableEq τ] [Fintype τ] [DecidableEq I] [DecidableEq N]
  (C : HierarchicalCLHQueueLock.ClusterTraits τ)

/-- No lock loses an increment, under the conditions under which it lets in one thread at a time. -/
structure NoneLost : Prop where
  array : Fintype.card τ ≤ 64 → ∀ l, Counts w (ArrayQueueLock.lockClass τ I).program
    (fun s => s = ArrayQueueLock.initial τ I) (.out []) Unnested (holding l)
  clh : ∀ l, Counts w (CLHQueueLock.lockClass τ I N).program (CLHQueueLock.Initial τ I N) (.out [])
    Unnested (holding l)
  mcs : ∀ l, Counts w (MCSQueueLock.lockClass τ I).program (fun s => s = MCSQueueLock.initial τ I)
    (.out []) Unnested (holding l)
  timeOut : Counts w (CLHTimeOutQueueLock.program (τ := τ) (A := N))
    (fun s => s = CLHTimeOutQueueLock.initial) .idle (fun _ _ => True)
    inTimeOut
  composite : Counts w (CompositeQueueLock.program (τ := τ))
    (fun s => s = CompositeQueueLock.initial) .idle CompositeQueueLock.ReclaimsCurrent
    inComposite
  hierarchical : Counts w (HierarchicalCLHQueueLock.program C N)
    (fun s => ∃ node tail, HierarchicalCLHQueueLock.Initial node tail s) .idle (fun _ _ => True)
    inHierarchical
  ticket : Fintype.card τ < 2 ^ 32 → Counts w (TicketLock.program τ) (fun mData => mData = 0) .idle
    TicketLock.NoCarry inTicket
  peterson : Fintype.card τ ≤ 256 → ∀ l, Counts w (PetersonLock.lockClass τ I).program
    (fun s => s = PetersonLock.initial τ I) (.out []) PetersonLock.Unheld (holding l)

variable {w τ I N C}

omit [Fintype τ] in
theorem timeOut_exclusive (c : Conf τ (CLHTimeOutQueueLock.Shared N) (CLHTimeOutQueueLock.PC N))
    (hc : CLHTimeOutQueueLock.system.Reachable c) (t u : τ) (ht : inTimeOut (c.pc t) = true)
    (hu : inTimeOut (c.pc u) = true) : t = u := by
  obtain ⟨⟨q, h⟩, -⟩ := CLHTimeOutQueueLock.inv_reach hc
  have hpt := h.placed t
  have hpu := h.placed u
  have happ := h.apart t u
  unfold inTimeOut at ht hu
  split at ht <;> cases ht
  split at hu <;> cases hu
  rename_i a hft _ b hfu
  rw [hft] at hpt happ
  rw [hfu] at hpu happ
  obtain rfl := Option.some.inj (hpt.symm.trans hpu)
  exact happ a rfl rfl

omit [Fintype τ] in
theorem composite_exclusive (c : Conf τ CompositeQueueLock.Shared CompositeQueueLock.PC)
    (hc : CompositeQueueLock.system.Reach CompositeQueueLock.ReclaimsCurrent c) (t u : τ)
    (ht : inComposite (c.pc t) = true) (hu : inComposite (c.pc u) = true) : t = u := by
  obtain ⟨g, hG, hL⟩ := CompositeQueueLock.lined_reach hc
  have hcrit : ∀ v, inComposite (c.pc v) = true → CompositeQueueLock.critical (c.pc v) := by
    intro v hv
    unfold inComposite at hv
    split at hv <;> cases hv
    rename_i hf
    rw [hf]
    trivial
  obtain ⟨a, hoa, haq, hva⟩ := CompositeQueueLock.queued_of_critical (hL t) (hcrit t ht)
  obtain ⟨b, hob, hbq, hvb⟩ := CompositeQueueLock.queued_of_critical (hL u) (hcrit u hu)
  obtain rfl : a = b := hG.seg.next_inj haq hbq (hva.trans hvb.symm)
  exact Option.some.inj (hoa.symm.trans hob)

omit [Fintype τ] in
theorem hierarchical_exclusive
    (c : Conf τ (HierarchicalCLHQueueLock.Shared C N) (HierarchicalCLHQueueLock.PC N))
    (hc : (HierarchicalCLHQueueLock.system C N).Reachable c) (t u : τ)
    (ht : inHierarchical (c.pc t) = true) (hu : inHierarchical (c.pc u) = true) : t = u := by
  obtain ⟨g, -, hL⟩ := Program.invariant (P := HierarchicalCLHQueueLock.program C N)
    HierarchicalCLHQueueLock.Inv HierarchicalCLHQueueLock.Local
    (fun s ⟨node, tail, hs⟩ => HierarchicalCLHQueueLock.inv_initial hs)
    (fun g c t a s' p' _ _ hI hL hn => HierarchicalCLHQueueLock.step hI hL hn) hc
  have hholds : ∀ v, inHierarchical (c.pc v) = true → (c.pc v).holds = true := by
    intro v hv
    unfold inHierarchical at hv
    split at hv <;> cases hv
    rename_i hf
    rw [hf]
    rfl
  exact ((hL t).heads (hholds t ht)).eq ((hL u).heads (hholds u hu))

theorem ticket_exclusive (hcard : Fintype.card τ < 2 ^ 32) (c : Conf τ (BitVec 64) TicketLock.PC)
    (hc : (TicketLock.system τ).Reach TicketLock.NoCarry c) (t u : τ)
    (ht : inTicket (c.pc t) = true) (hu : inTicket (c.pc u) = true) : t = u := by
  obtain ⟨q, hq⟩ := TicketLock.tickets_reach hcard hc
  have hfirst : ∀ v, inTicket (c.pc v) = true → q[0]? = some v := by
    intro v hv
    unfold inTicket at hv
    split at hv <;> cases hv
    rename_i hf
    obtain ⟨n, hn⟩ := List.mem_iff_getElem?.1 ((hq.mem_iff v).2 (by simp [hf]))
    rcases hq.queued n v hn with h | ⟨rfl, -⟩
    · cases hf.symm.trans h
    · exact hn
  exact Option.some.inj ((hfirst t ht).symm.trans (hfirst u hu))

theorem peterson_exclusive (hcard : Fintype.card τ ≤ 256) (l : I)
    (c : Conf τ (PetersonLock.Shared τ I) (Place I PetersonLock.PC))
    (hc : (PetersonLock.system τ I).Reach PetersonLock.Unheld c) (t u : τ)
    (ht : holding l (c.pc t) = true) (hu : holding l (c.pc u) = true) : t = u := by
  have hin : ∀ v, holding l (c.pc v) = true → PetersonLock.stage l (c.pc v) = .inside := by
    intro v hv
    cases hf : c.pc v <;> simp_all [holding, PetersonLock.stage]
  by_contra htu
  exact (((PetersonLock.inv_reach hcard hc).fair l).exclusive t u htu (hin t ht)).1 (hin u hu)

theorem none_lost : NoneLost w τ I N C where
  array hcard := .of_queues (ArrayQueueLock.queues hcard)
  clh := .of_queues CLHQueueLock.queues
  mcs := .of_queues MCSQueueLock.queues
  timeOut := .of_exclusive rfl timeOut_exclusive
  composite := .of_exclusive rfl composite_exclusive
  hierarchical := .of_exclusive rfl hierarchical_exclusive
  ticket hcard := .of_exclusive rfl (ticket_exclusive hcard)
  peterson hcard l := .of_exclusive rfl (peterson_exclusive hcard l)

end Locks

end LockedCounter

end ConcurrencySandbox

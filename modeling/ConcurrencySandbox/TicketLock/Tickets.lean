import Mathlib.Data.Fintype.EquivFin
import ConcurrencySandbox.Interleaving.Turns
import ConcurrencySandbox.TicketLock.Basic

/-!
# Tickets are served in order

The threads that have a ticket are a queue: the one at place `n` waits for the ticket that is served
plus `n`, and only the first can have the lock (`Tickets`). With fewer than `2 ^ 32` threads no two
of them have the same ticket. This holds until `unlock` carries from the low half of `mData` into
the high one, which the `2 ^ 32`nd call does (`counters_carry`).
-/

namespace ConcurrencySandbox

open Interleaving

namespace TicketLock

variable {τ : Type*}

/-- `unlock` does not find the low half at its last value. -/
def NoCarry (c : Conf τ (BitVec 64) PC) (l : τ × Unit) : Prop :=
  c.pc l.1 = .held → (unzip c.shared).1 ≠ 0xFFFFFFFF

instance (c : Conf τ (BitVec 64) PC) (l : τ × Unit) : Decidable (NoCarry c l) :=
  inferInstanceAs (Decidable (_ → _))

/-- Where the thread at place `n` of the queue may be. -/
def Queued (owner : BitVec 32) (n : ℕ) (p : PC) : Prop :=
  p = .spin (owner + BitVec.ofNat 32 n) ∨ n = 0 ∧ p = .held

structure Tickets (q : List τ) (c : Conf τ (BitVec 64) PC) : Prop where
  nodup : q.Nodup
  next : (unzip c.shared).2 = (unzip c.shared).1 + BitVec.ofNat 32 q.length
  idle : ∀ t, t ∉ q → c.pc t = .idle
  queued : ∀ n t, q[n]? = some t → Queued (unzip c.shared).1 n (c.pc t)

def PC.phase : PC → Phase
  | .idle => .idle
  | .spin _ => .waiting
  | .held => .held

theorem add_ofNat_eq {x : BitVec 32} {n : ℕ} (hn : n < 2 ^ 32) (h : x = x + BitVec.ofNat 32 n) :
    n = 0 := by
  have h1 := congrArg BitVec.toNat h
  have := x.isLt
  rw [BitVec.toNat_add, BitVec.toNat_ofNat] at h1
  omega

theorem add_ofNat_succ (x : BitVec 32) (n : ℕ) :
    x + BitVec.ofNat 32 (n + 1) = x + 1 + BitVec.ofNat 32 n := by
  rw [BitVec.ofNat_add, BitVec.add_comm (BitVec.ofNat 32 n), ← BitVec.add_assoc]
  rfl

variable [DecidableEq τ]

theorem tickets_step {q : List τ} {c c' : Conf τ (BitVec 64) PC} {t : τ} (h : Tickets q c)
    (hq : q.length < 2 ^ 32) (hC : NoCarry c (t, ())) (hs : (system τ).step c (t, ()) = some c') :
    ∃ q', Tickets q' c' ∧ Turn t q (c.pc t).phase q' (c'.pc t).phase := by
  obtain ⟨hn, hothers⟩ := Program.step_next hs
  have hnext : TicketLock.next c.shared (c.pc t) = (c'.shared, c'.pc t) := Option.some.inj hn
  have hplace : c.pc t ≠ .idle → ∃ n, q[n]? = some t := fun hp =>
    List.mem_iff_getElem?.1 (by_contra fun hm => hp (h.idle t hm))
  -- the other threads stay where they are
  have hother : ∀ n u, q[n]? = some u → u ≠ t → Queued (unzip c.shared).1 n (c'.pc u) :=
    fun n u hu hut => hothers u hut ▸ h.queued n u hu
  cases hp : c.pc t with
  | idle =>
    rw [hp, TicketLock.next] at hnext
    obtain ⟨hd, hp'⟩ := Prod.mk.inj hnext
    have ht : t ∉ q := fun hm => by
      obtain ⟨n, hn⟩ := List.mem_iff_getElem?.1 hm
      rcases h.queued n t hn with h1 | ⟨-, h1⟩ <;> cases hp.symm.trans h1
    refine ⟨q ++ [t], ⟨?_, ?_, fun u hu => ?_, fun n u hu => ?_⟩, .take _ ?_ ?_⟩
    · exact List.nodup_append.2 ⟨h.nodup, List.nodup_singleton t, fun u hu v hv he =>
        ht ((List.mem_singleton.1 hv) ▸ he ▸ hu)⟩
    · rw [← hd, unzip_lock, h.next, List.length_append, List.length_singleton, add_ofNat_succ,
        BitVec.add_assoc, BitVec.add_assoc, BitVec.add_comm 1]
    · simp only [List.mem_append, List.mem_singleton, not_or] at hu
      rw [hothers u hu.2]
      exact h.idle u hu.1
    · rw [← hd, unzip_lock]
      rcases Nat.lt_or_ge n q.length with hlt | hge
      · rw [List.getElem?_append_left hlt] at hu
        exact hother n u hu fun he => ht (he ▸ List.mem_of_getElem? hu)
      · rw [List.getElem?_append_right hge, List.getElem?_singleton] at hu
        split_ifs at hu with h0
        obtain rfl := Option.some.inj hu
        obtain rfl : n = q.length := by omega
        rw [← hp']
        split_ifs with heq
        · exact .inr ⟨add_ofNat_eq hq (heq.trans h.next), rfl⟩
        · exact .inl (congrArg PC.spin h.next)
    · rw [← hp']
      split_ifs <;> simp [PC.phase]
    · rw [← hp']
      split_ifs with heq
      · exact fun _ => List.eq_nil_of_length_eq_zero (add_ofNat_eq hq (heq.trans h.next))
      · simp [PC.phase]
  | spin next =>
    rw [hp, TicketLock.next] at hnext
    obtain ⟨hd, hp'⟩ := Prod.mk.inj hnext
    obtain ⟨n, hn⟩ := hplace (by simp [hp])
    have hspin : next = (unzip c.shared).1 + BitVec.ofNat 32 n := by
      rcases h.queued n t hn with h1 | ⟨-, h1⟩ <;> cases hp.symm.trans h1
      rfl
    have hlt := (List.getElem?_eq_some_iff.1 hn).1
    have hhead : (unzip c.shared).1 = next → ∃ q', q = t :: q' := fun heq => by
      obtain rfl : n = 0 := add_ofNat_eq (by omega) (heq.trans hspin)
      exact List.head?_eq_some_iff.1 (List.head?_eq_getElem? ▸ hn)
    refine ⟨q, ⟨h.nodup, hd ▸ h.next, fun u hu => ?_, fun m u hu => ?_⟩,
      .wait _ _ (by rintro ⟨⟩) ?_ ?_⟩
    · have hut : u ≠ t := fun he => hu (he ▸ List.mem_of_getElem? hn)
      rw [hothers u hut]
      exact h.idle u hu
    · rw [← hd]
      by_cases hut : u = t
      · subst hut
        obtain rfl : n = m := (List.getElem?_inj hlt h.nodup).1 (hn.trans hu.symm)
        rw [← hp']
        split_ifs with hne
        · exact .inl (congrArg PC.spin hspin)
        · refine .inr ⟨add_ofNat_eq (by omega) ((not_not.1 hne).trans hspin), rfl⟩
      · exact hother m u hu hut
    · rw [← hp']
      split_ifs <;> simp [PC.phase]
    · rw [← hp']
      split_ifs with hne
      · simp [PC.phase]
      · exact fun _ => hhead (not_not.1 hne)
  | held =>
    rw [hp, TicketLock.next] at hnext
    obtain ⟨hd, hp'⟩ := Prod.mk.inj hnext
    obtain ⟨n, hn⟩ := hplace (by simp [hp])
    obtain rfl : n = 0 := by
      rcases h.queued n t hn with h1 | ⟨h1, -⟩
      · cases hp.symm.trans h1
      · exact h1
    obtain ⟨q', rfl⟩ := List.head?_eq_some_iff.1 (List.head?_eq_getElem? ▸ hn)
    have hu : unzip c'.shared = ((unzip c.shared).1 + 1, (unzip c.shared).2) := by
      rw [← hd, unzip_unlock, if_neg (hC hp)]
    obtain ⟨ht, hnd⟩ := List.nodup_cons.1 h.nodup
    rw [← hp']
    refine ⟨q', ⟨hnd, ?_, fun u hm => ?_, fun n u hm => ?_⟩, .leave q' rfl⟩
    · rw [hu, h.next, List.length_cons, add_ofNat_succ]
    · by_cases hut : u = t
      · rw [hut, ← hp']
      · rw [hothers u hut]
        exact h.idle u (by simp [hut, hm])
    · have hut : u ≠ t := fun he => ht (he ▸ List.mem_of_getElem? hm)
      rcases hother (n + 1) u hm hut with h1 | ⟨h1, -⟩
      · rw [hu]
        exact .inl (h1.trans (congrArg PC.spin (add_ofNat_succ _ n)))
      · cases h1

omit [DecidableEq τ] in
theorem Tickets.mem_iff {q : List τ} {c : Conf τ (BitVec 64) PC} (h : Tickets q c) (t : τ) :
    t ∈ q ↔ c.pc t ≠ .idle := by
  refine ⟨fun hm hp => ?_, fun hp => by_contra fun hm => hp (h.idle t hm)⟩
  obtain ⟨n, hn⟩ := List.mem_iff_getElem?.1 hm
  rcases h.queued n t hn with h1 | ⟨-, h1⟩ <;> cases hp.symm.trans h1

theorem tickets_init {c : Conf τ (BitVec 64) PC} (h : (system τ).init c) : Tickets [] c := by
  obtain ⟨s, f⟩ := c
  obtain ⟨hs, hf⟩ := h
  obtain rfl : s = 0 := hs
  obtain rfl : f = fun _ => .idle := hf
  refine ⟨List.nodup_nil, ?_, fun _ _ => rfl, nofun⟩
  change (unzip 0).2 = (unzip 0).1 + BitVec.ofNat 32 0
  decide

variable [Fintype τ]

omit [DecidableEq τ] in
theorem Tickets.length_lt {q : List τ} {c : Conf τ (BitVec 64) PC} (h : Tickets q c)
    (hcard : Fintype.card τ < 2 ^ 32) : q.length < 2 ^ 32 :=
  h.nodup.length_le_card.trans_lt hcard

theorem tickets_reach (hcard : Fintype.card τ < 2 ^ 32) {c : Conf τ (BitVec 64) PC}
    (h : (system τ).Reach NoCarry c) : ∃ q, Tickets q c := by
  refine h.induct (P := fun c => ∃ q, Tickets q c) (fun c hc => ⟨[], tickets_init hc⟩) ?_
  rintro c ⟨t, u⟩ c' hr ⟨q, hq⟩ hC hs
  obtain ⟨q', hq', -⟩ := tickets_step hq (hq.length_lt hcard) hC hs
  exact ⟨q', hq'⟩

/-- The threads that have taken a ticket and not given the lock back. -/
def ticketed (c : Conf τ (BitVec 64) PC) : Finset τ := {t | c.pc t ≠ .idle}

/-- The two counters are as far apart as threads have tickets, the lock is taken in the order of the
tickets, and at once when no thread has one. -/
structure Correct {C : Conf τ (BitVec 64) PC → τ × Unit → Prop} {n : ℕ}
    (r : (system τ).Run C n) : Prop where
  apart : ∀ i ≤ n, ((unzip (r.state i).shared).2 - (unzip (r.state i).shared).1).toNat =
    (ticketed (r.state i)).card
  fifo : Fifo r PC.phase
  uncontended : ∀ i ≤ n, (∀ t, (r.state i).pc t = .idle) → (next (r.state i).shared .idle).2 = .held

theorem tickets_apart (hcard : Fintype.card τ < 2 ^ 32) {n : ℕ} (r : (system τ).Run NoCarry n) :
    Correct r := by
  refine ⟨fun i hi => ?_, ?_, fun i hi hidle => ?_⟩
  · obtain ⟨q, hq⟩ := tickets_reach hcard (r.reach hi)
    have hticketed : ticketed (r.state i) = q.toFinset := by
      ext t
      simp [ticketed, hq.mem_iff]
    have hlt := hq.length_lt hcard
    rw [hticketed, List.toFinset_card_of_nodup hq.nodup, hq.next, BitVec.add_comm,
      BitVec.add_sub_cancel, BitVec.toNat_ofNat, Nat.mod_eq_of_lt hlt]
  · exact Fifo.of_turns (Q := Tickets) rfl (fun c hc => tickets_init hc)
      (fun q c t a c' hr hq hC hs => tickets_step hq (hq.length_lt hcard) hC hs) r
  · obtain ⟨q, hq⟩ := tickets_reach hcard (r.reach hi)
    obtain rfl : q = [] := List.eq_nil_iff_forall_not_mem.2
      fun t ht => (hq.mem_iff t).1 ht (hidle t)
    have hnext := hq.next
    rw [List.length_nil, show BitVec.ofNat 32 0 = 0#32 from rfl, BitVec.add_zero] at hnext
    rw [next, if_pos hnext.symm]

/-- Two threads, of which the second has to wait. -/
theorem tickets_apart_two : ∃ r : (system (Fin 2)).Run NoCarry 4,
    Correct r ∧ r.phases PC.phase 2 1 = .waiting ∧ r.phases PC.phase 4 1 = .held := by
  let as : List (Fin 2 × Unit) := [(0, ()), (1, ()), (0, ()), (1, ())]
  have hex : ((system (Fin 2)).execIf NoCarry ⟨0, fun _ => .idle⟩ as).isSome = true := by
    decide +kernel
  have h2 : ((system (Fin 2)).exec ⟨0, fun _ => .idle⟩ (as.take 2)).any
      (fun c => (c.pc 1).phase = .waiting) = true := by decide +kernel
  have h4 : ((system (Fin 2)).exec ⟨0, fun _ => .idle⟩ (as.take 4)).any
      (fun c => (c.pc 1).phase = .held) = true := by decide +kernel
  obtain ⟨c, hc⟩ := Option.isSome_iff_exists.1 hex
  obtain ⟨hc, hC⟩ := System.execIf_eq_some hc
  have hinit : (system (Fin 2)).init ⟨0, fun _ => .idle⟩ := ⟨rfl, rfl⟩
  obtain ⟨r, hr, -⟩ := System.exists_run (0, ()) hinit hc hC
  rw [hr 2 (by decide), Option.any_some, decide_eq_true_eq] at h2
  rw [hr 4 (by decide), Option.any_some, decide_eq_true_eq] at h4
  exact ⟨r, tickets_apart (by decide) r, h2, h4⟩

/-- Where one thread is that takes and releases the lock again and again, after `k` steps. -/
def alone (k : ℕ) : Conf (Fin 1) (BitVec 64) PC :=
  ⟨BitVec.ofNat 64 (k / 2 * (2 ^ 32 + 1) + k % 2 * 2 ^ 32),
    fun _ => if k % 2 = 0 then .idle else .held⟩

theorem unzip_alone {j : ℕ} (hj : j < 2 ^ 32) :
    (unzip (BitVec.ofNat 64 (j * (2 ^ 32 + 1)))).1 =
      (unzip (BitVec.ofNat 64 (j * (2 ^ 32 + 1)))).2 := by
  have hlt : j * (2 ^ 32 + 1) < 2 ^ 64 := by omega
  refine BitVec.eq_of_toNat_eq ?_
  rw [unzip_fst, unzip_snd, BitVec.toNat_ofNat, Nat.mod_eq_of_lt hlt]
  omega

theorem alone_next {k : ℕ} (hk : k < 2 ^ 33) :
    next (alone k).shared ((alone k).pc 0) = ((alone (k + 1)).shared, (alone (k + 1)).pc 0) := by
  rcases Nat.mod_two_eq_zero_or_one k with h | h
  · have h1 : (k + 1) / 2 = k / 2 := by omega
    have h2 : (k + 1) % 2 = 1 := by omega
    have heq := unzip_alone (show k / 2 < 2 ^ 32 by omega)
    simp only [alone, h, h1, h2, if_true, if_neg Nat.one_ne_zero, next, Nat.zero_mul, Nat.add_zero,
      Nat.one_mul, heq, BitVec.ofNat_add]
    rfl
  · have h1 : (k + 1) / 2 = k / 2 + 1 := by omega
    have h2 : (k + 1) % 2 = 0 := by omega
    simp only [alone, h, h1, h2, if_true, if_neg Nat.one_ne_zero, next, Nat.zero_mul, Nat.add_zero,
      Nat.one_mul, Nat.add_mul, BitVec.ofNat_add]
    rw [BitVec.add_assoc]
    rfl

theorem alone_step {k : ℕ} (hk : k < 2 ^ 33) :
    (system (Fin 1)).step (alone k) (0, ()) = some (alone (k + 1)) := by
  refine Program.step_eq_some.2 ⟨_, _, congrArg some (alone_next hk), ?_⟩
  have hpc : (alone (k + 1)).pc = Function.update (alone k).pc 0 ((alone (k + 1)).pc 0) :=
    funext fun t => by rw [Subsingleton.elim t 0, Function.update_self]
  rw [← hpc]

/-- The `2 ^ 32`nd `unlock` carries: the lock is free, and the counters are one apart. -/
theorem counters_carry :
    ∃ n, ∃ r : (system (Fin 1)).Run (fun _ _ => True) n, ¬ Correct r := by
  refine ⟨2 ^ 33, ⟨alone, fun _ => (0, ()), ⟨by simp [alone], by simp [alone]⟩,
    fun _ _ => trivial, fun i hi => alone_step hi⟩, fun h => ?_⟩
  have hapart := h.apart (2 ^ 33) le_rfl
  have hnone : ticketed (alone (2 ^ 33)) = ∅ := by
    ext t
    simp [ticketed, alone]
  have hshared : (alone (2 ^ 33)).shared = 1 <<< 32 := by decide
  rw [show Finset.card (ticketed (alone (2 ^ 33))) = 0 by rw [hnone, Finset.card_empty]] at hapart
  change ((unzip (alone (2 ^ 33)).shared).2 - (unzip (alone (2 ^ 33)).shared).1).toNat = 0 at hapart
  rw [hshared] at hapart
  revert hapart
  decide

end TicketLock

end ConcurrencySandbox

import ConcurrencySandbox.TicketLock.Tickets

/-!
# TicketLock past its carry

When the served ticket wraps around, the carry of the addition skips a ticket that nobody has. Those
who have a ticket by then are served as before. Nobody who comes later ever is: the lock waits for
the ticket that was skipped, and with fewer than `2 ^ 32` threads nobody will draw it.
-/

namespace ConcurrencySandbox

open Interleaving

namespace TicketLock

variable {τ : Type*}

/-- The carry has skipped the ticket behind the first `k` of the queue. -/
structure Skipped (k : ℕ) (q : List τ) (c : Conf τ (BitVec 64) PC) : Prop where
  nodup : q.Nodup
  gap : k ≤ q.length
  owner : (unzip c.shared).1.toNat + k < 2 ^ 32 - 1
  next : (unzip c.shared).2 = (unzip c.shared).1 + BitVec.ofNat 32 (q.length + 1)
  idle : ∀ t, t ∉ q → c.pc t = .idle
  served : ∀ n t, n < k → q[n]? = some t → Queued (unzip c.shared).1 n (c.pc t)
  late : ∀ n t, k ≤ n → q[n]? = some t →
    c.pc t = .spin ((unzip c.shared).1 + BitVec.ofNat 32 (n + 1))

namespace Skipped

variable {k : ℕ} {q : List τ} {c c' : Conf τ (BitVec 64) PC} {t u : τ}

theorem not_max (h : Skipped k q c) : (unzip c.shared).1 ≠ 0xFFFFFFFF := by
  intro he
  have howner := h.owner
  rw [he] at howner
  have : (0xFFFFFFFF : BitVec 32).toNat = 2 ^ 32 - 1 := rfl
  omega

theorem noCarry (h : Skipped k q c) (l : τ × Unit) : NoCarry c l := fun _ => h.not_max

theorem late_spins (h : Skipped k q c) (hu : u ∈ q.drop k) : (c.pc u).phase = .waiting := by
  obtain ⟨n, hn⟩ := List.mem_iff_getElem?.1 hu
  rw [List.getElem?_drop] at hn
  rw [h.late (k + n) u (by omega) hn]
  rfl

theorem not_mem (h : Skipped k q c) (ht : c.pc t = .idle) : t ∉ q := by
  intro hm
  obtain ⟨n, hn⟩ := List.mem_iff_getElem?.1 hm
  rcases Nat.lt_or_ge n k with hlt | hge
  · rcases h.served n t hlt hn with h1 | ⟨-, h1⟩ <;> cases ht.symm.trans h1
  · cases ht.symm.trans (h.late n t hge hn)

variable [DecidableEq τ]

/-- Those behind the skipped ticket stay there, and who comes now joins them. -/
def Kept (t : τ) (p : PC) (k : ℕ) (q : List τ) (k' : ℕ) (q' : List τ) : Prop :=
  (∀ u ∈ q.drop k, u ∈ q'.drop k') ∧ (p = .idle → t ∈ q'.drop k')

theorem take (h : Skipped k q c) (hq : q.length + 1 < 2 ^ 32)
    (hs : (system τ).step c (t, ()) = some c') (hp : c.pc t = .idle) :
    ∃ k' q', Skipped k' q' c' ∧ Turn t q (c.pc t).phase q' (c'.pc t).phase ∧
      Kept t (c.pc t) k q k' q' := by
  obtain ⟨hn, hothers⟩ := Program.step_next hs
  have hnext : TicketLock.next c.shared (c.pc t) = (c'.shared, c'.pc t) := Option.some.inj hn
  have ht := h.not_mem hp
  have hgap := h.gap
  rw [hp, TicketLock.next] at hnext
  obtain ⟨hd, hp'⟩ := Prod.mk.inj hnext
  have hne : (unzip c.shared).1 ≠ (unzip c.shared).2 := fun he => by
    have := add_ofNat_eq hq (he.trans h.next)
    omega
  rw [if_neg hne, h.next] at hp'
  have hold : ∀ n u, n < q.length → (q ++ [t])[n]? = some u → q[n]? = some u ∧ u ≠ t := by
    intro n u hlt hu
    rw [List.getElem?_append_left hlt] at hu
    exact ⟨hu, fun he => ht (he ▸ List.mem_of_getElem? hu)⟩
  have hdrop : (q ++ [t]).drop k = q.drop k ++ [t] := List.drop_append_of_le_length hgap
  refine ⟨k, q ++ [t], ⟨?_, ?_, ?_, ?_, fun u hu => ?_, fun n u hnk hu => ?_, fun n u hnk hu => ?_⟩,
    ?_, fun u hu => ?_, fun _ => ?_⟩
  · exact List.nodup_append.2 ⟨h.nodup, List.nodup_singleton t, fun u hu v hv he =>
      ht ((List.mem_singleton.1 hv) ▸ he ▸ hu)⟩
  · rw [List.length_append]
    omega
  · rw [← hd, unzip_lock]
    exact h.owner
  · rw [← hd, unzip_lock, h.next, List.length_append, List.length_singleton,
      add_ofNat_succ _ (q.length + 1), BitVec.add_assoc, BitVec.add_assoc, BitVec.add_comm 1]
  · simp only [List.mem_append, List.mem_singleton, not_or] at hu
    rw [hothers u hu.2]
    exact h.idle u hu.1
  · obtain ⟨hu, hut⟩ := hold n u (by omega) hu
    rw [← hd, unzip_lock, hothers u hut]
    exact h.served n u hnk hu
  · rw [← hd, unzip_lock]
    rcases Nat.lt_or_ge n q.length with hlt | hge
    · obtain ⟨hu, hut⟩ := hold n u hlt hu
      rw [hothers u hut]
      exact h.late n u hnk hu
    · rw [List.getElem?_append_right hge, List.getElem?_singleton] at hu
      split_ifs at hu with h0
      obtain rfl := Option.some.inj hu
      obtain rfl : n = q.length := by omega
      exact hp'.symm
  · rw [hp, ← hp']
    refine .take _ ?_ ?_ <;> rintro ⟨⟩
  · rw [hdrop]
    exact List.mem_append_left _ hu
  · rw [hdrop]
    exact List.mem_append_right _ (List.mem_singleton_self t)

/-- Waiters keep their places; the first takes the lock when it is served. -/
theorem spin (h : Skipped k q c) (hq : q.length < 2 ^ 32)
    (hs : (system τ).step c (t, ()) = some c') {next : BitVec 32} (hp : c.pc t = .spin next) :
    ∃ k' q', Skipped k' q' c' ∧ Turn t q (c.pc t).phase q' (c'.pc t).phase ∧
      Kept t (c.pc t) k q k' q' := by
  obtain ⟨hn, hothers⟩ := Program.step_next hs
  have hnext : TicketLock.next c.shared (c.pc t) = (c'.shared, c'.pc t) := Option.some.inj hn
  rw [hp, TicketLock.next] at hnext
  obtain ⟨hd, hp'⟩ := Prod.mk.inj hnext
  obtain ⟨n, hn⟩ := List.mem_iff_getElem?.1
    (show t ∈ q from by_contra fun hm => by cases hp.symm.trans (h.idle t hm))
  have hlt := (List.getElem?_eq_some_iff.1 hn).1
  -- the thread is served only at the front
  have hmine : (n < k → Queued (unzip c.shared).1 n (c'.pc t)) ∧
      (k ≤ n → c'.pc t = .spin ((unzip c.shared).1 + BitVec.ofNat 32 (n + 1))) ∧
      (c'.pc t = .held → n = 0) := by
    rcases Nat.lt_or_ge n k with hnk | hnk
    · have hspin : next = (unzip c.shared).1 + BitVec.ofNat 32 n := by
        rcases h.served n t hnk hn with h1 | ⟨-, h1⟩ <;> cases hp.symm.trans h1
        rfl
      have hzero : ¬ (unzip c.shared).1 ≠ next → n = 0 := fun hne =>
        add_ofNat_eq (by omega) ((not_not.1 hne).trans hspin)
      rw [← hp']
      split_ifs with hne
      · exact ⟨fun _ => .inl (congrArg PC.spin hspin), fun hkn => by omega,
          fun hheld => by cases hheld⟩
      · exact ⟨fun _ => .inr ⟨hzero hne, rfl⟩, fun hkn => by omega, fun _ => hzero hne⟩
    · have hspin : next = (unzip c.shared).1 + BitVec.ofNat 32 (n + 1) :=
        PC.spin.inj (hp.symm.trans (h.late n t hnk hn))
      have hne : (unzip c.shared).1 ≠ next := fun he => by
        have := add_ofNat_eq (by omega) (he.trans hspin)
        omega
      rw [← hp', if_pos hne]
      exact ⟨fun hkn => by omega, fun _ => congrArg PC.spin hspin,
        fun hheld => by cases hheld⟩
  have hother : ∀ m u, q[m]? = some u → u = t ∧ m = n ∨ c'.pc u = c.pc u := by
    intro m u hu
    rcases eq_or_ne u t with rfl | hut
    · exact .inl ⟨rfl, ((List.getElem?_inj hlt h.nodup).1 (hn.trans hu.symm)).symm⟩
    · exact .inr (hothers u hut)
  refine ⟨k, q, ⟨h.nodup, h.gap, hd ▸ h.owner, hd ▸ h.next, fun u hu => ?_, fun m u hmk hu => ?_,
    fun m u hmk hu => ?_⟩, ?_, fun _ => id, fun hidle => by cases hp.symm.trans hidle⟩
  · have hut : u ≠ t := fun he => hu (he ▸ List.mem_of_getElem? hn)
    rw [hothers u hut]
    exact h.idle u hu
  · rw [← hd]
    rcases hother m u hu with ⟨rfl, rfl⟩ | he
    · exact hmine.1 hmk
    · rw [he]
      exact h.served m u hmk hu
  · rw [← hd]
    rcases hother m u hu with ⟨rfl, rfl⟩ | he
    · exact hmine.2.1 hmk
    · rw [he]
      exact h.late m u hmk hu
  · refine .wait _ _ (by rw [hp]; rintro ⟨⟩) ?_ fun hheld => ?_
    · rw [← hp']
      split_ifs <;> rintro ⟨⟩
    · have hz := hmine.2.2 (by
        cases hc : c'.pc t with
        | held => rfl
        | idle | spin => rw [hc] at hheld; cases hheld)
      rw [hz, ← List.head?_eq_getElem?] at hn
      exact List.head?_eq_some_iff.1 hn

/-- The holder is before the skipped ticket, and does not carry again. -/
theorem leave (h : Skipped k q c) (hs : (system τ).step c (t, ()) = some c')
    (hp : c.pc t = .held) :
    ∃ k' q', Skipped k' q' c' ∧ Turn t q (c.pc t).phase q' (c'.pc t).phase ∧
      Kept t (c.pc t) k q k' q' := by
  obtain ⟨hn, hothers⟩ := Program.step_next hs
  have hnext : TicketLock.next c.shared (c.pc t) = (c'.shared, c'.pc t) := Option.some.inj hn
  have howner := h.owner
  have hgap := h.gap
  rw [hp, TicketLock.next] at hnext
  obtain ⟨hd, hp'⟩ := Prod.mk.inj hnext
  obtain ⟨n, hn⟩ := List.mem_iff_getElem?.1
    (show t ∈ q from by_contra fun hm => by cases hp.symm.trans (h.idle t hm))
  obtain ⟨hk, rfl⟩ : 0 < k ∧ n = 0 := by
    rcases Nat.lt_or_ge n k with hnk | hnk
    · rcases h.served n t hnk hn with h1 | ⟨h1, -⟩
      · cases hp.symm.trans h1
      · exact ⟨by omega, h1⟩
    · cases hp.symm.trans (h.late n t hnk hn)
  obtain ⟨k, rfl⟩ := Nat.exists_eq_add_one_of_ne_zero hk.ne'
  obtain ⟨q', rfl⟩ := List.head?_eq_some_iff.1 (List.head?_eq_getElem? ▸ hn)
  have hu : unzip c'.shared = ((unzip c.shared).1 + 1, (unzip c.shared).2) := by
    rw [← hd, unzip_unlock, if_neg h.not_max]
  obtain ⟨ht, hnd⟩ := List.nodup_cons.1 h.nodup
  have hother : ∀ m u, q'[m]? = some u → c'.pc u = c.pc u := fun m u hm =>
    hothers u fun he => ht (he ▸ List.mem_of_getElem? hm)
  rw [List.length_cons] at hgap
  refine ⟨k, q', ⟨hnd, by omega, ?_, ?_, fun u hm => ?_, fun m u hmk hm => ?_,
    fun m u hmk hm => ?_⟩, ?_, fun _ => id, fun hidle => by cases hp.symm.trans hidle⟩
  · rw [hu, BitVec.toNat_add, show (1 : BitVec 32).toNat = 1 from rfl,
      Nat.mod_eq_of_lt (by omega)]
    omega
  · rw [hu, h.next, List.length_cons, add_ofNat_succ]
  · rcases eq_or_ne u t with rfl | hut
    · exact hp'.symm
    · rw [hothers u hut]
      exact h.idle u (by simp [hut, hm])
  · rw [hu, hother m u hm]
    rcases h.served (m + 1) u (by omega) hm with h1 | ⟨h1, -⟩
    · exact .inl (h1.trans (congrArg PC.spin (add_ofNat_succ _ m)))
    · cases h1
  · rw [hu, hother m u hm, h.late (m + 1) u (by omega) hm, add_ofNat_succ]
  · rw [hp, ← hp']
    exact .leave q' rfl

theorem step (h : Skipped k q c) (hq : q.length < 2 ^ 32)
    (hroom : c.pc t = .idle → q.length + 1 < 2 ^ 32) (hs : (system τ).step c (t, ()) = some c') :
    ∃ k' q', Skipped k' q' c' ∧ Turn t q (c.pc t).phase q' (c'.pc t).phase ∧
      Kept t (c.pc t) k q k' q' := by
  cases hp : c.pc t with
  | idle => exact hp ▸ h.take (hroom hp) hs hp
  | spin next => exact hp ▸ h.spin hq hs hp
  | held => exact hp ▸ h.leave hs hp

end Skipped

variable [DecidableEq τ] {q : List τ} {c c' : Conf τ (BitVec 64) PC} {t : τ}

/-- The `unlock` that carries. -/
theorem tickets_carry (h : Tickets q c) (hq : q.length < 2 ^ 32) (hp : c.pc t = .held)
    (hmax : (unzip c.shared).1 = 0xFFFFFFFF) (hs : (system τ).step c (t, ()) = some c') :
    ∃ q', Skipped q'.length q' c' ∧ Turn t q (c.pc t).phase q' (c'.pc t).phase := by
  obtain ⟨hn, hothers⟩ := Program.step_next hs
  have hnext : TicketLock.next c.shared (c.pc t) = (c'.shared, c'.pc t) := Option.some.inj hn
  rw [hp, TicketLock.next] at hnext
  obtain ⟨hd, hp'⟩ := Prod.mk.inj hnext
  obtain ⟨n, hn⟩ := List.mem_iff_getElem?.1
    (show t ∈ q from by_contra fun hm => by cases hp.symm.trans (h.idle t hm))
  obtain rfl : n = 0 := by
    rcases h.queued n t hn with h1 | ⟨h1, -⟩
    · cases hp.symm.trans h1
    · exact h1
  obtain ⟨q', rfl⟩ := List.head?_eq_some_iff.1 (List.head?_eq_getElem? ▸ hn)
  obtain ⟨ht, hnd⟩ := List.nodup_cons.1 h.nodup
  have hu : unzip c'.shared = (0, BitVec.ofNat 32 (q'.length + 1)) := by
    rw [← hd, unzip_unlock, if_pos hmax, h.next, hmax, List.length_cons, BitVec.add_assoc,
      BitVec.add_comm (BitVec.ofNat 32 _), ← BitVec.add_assoc,
      show (0xFFFFFFFF : BitVec 32) + 1 = 0#32 from rfl, BitVec.zero_add]
    rfl
  have hother : ∀ m u, q'[m]? = some u → c'.pc u = c.pc u := fun m u hm =>
    hothers u fun he => ht (he ▸ List.mem_of_getElem? hm)
  rw [List.length_cons] at hq
  refine ⟨q', ⟨hnd, le_rfl, ?_, ?_, fun u hm => ?_, fun m u hmk hm => ?_, fun m u hmk hm => ?_⟩, ?_⟩
  · rw [hu, show (0 : BitVec 32).toNat = 0 from rfl]
    omega
  · rw [hu]
    exact (BitVec.zero_add _).symm
  · rcases eq_or_ne u t with rfl | hut
    · exact hp'.symm
    · rw [hothers u hut]
      exact h.idle u (by simp [hut, hm])
  · rw [hu, hother m u hm]
    rcases h.queued (m + 1) u hm with h1 | ⟨h1, -⟩
    · refine .inl (h1.trans (congrArg PC.spin ?_))
      rw [hmax, add_ofNat_succ]
      rfl
    · cases h1
  · have := (List.getElem?_eq_some_iff.1 hm).1
    omega
  · rw [hp, ← hp']
    exact .leave q' rfl

/-! ### Every run -/

/-- The queue of the lock, before and after the carry. -/
def Ordered (q : List τ) (c : Conf τ (BitVec 64) PC) : Prop := Tickets q c ∨ ∃ k, Skipped k q c

variable [Fintype τ]

omit [DecidableEq τ] in
theorem Skipped.lengths {k : ℕ} (h : Skipped k q c) (hcard : Fintype.card τ < 2 ^ 32) :
    q.length < 2 ^ 32 ∧ ∀ t, c.pc t = .idle → q.length + 1 < 2 ^ 32 := by
  refine ⟨h.nodup.length_le_card.trans_lt hcard, fun t ht => ?_⟩
  have := (List.nodup_cons.2 ⟨h.not_mem ht, h.nodup⟩).length_le_card
  rw [List.length_cons] at this
  omega

theorem Skipped.step_card {k : ℕ} (h : Skipped k q c) (hcard : Fintype.card τ < 2 ^ 32)
    (hs : (system τ).step c (t, ()) = some c') :
    ∃ k' q', Skipped k' q' c' ∧ Turn t q (c.pc t).phase q' (c'.pc t).phase ∧
      Skipped.Kept t (c.pc t) k q k' q' :=
  h.step (h.lengths hcard).1 ((h.lengths hcard).2 t) hs

theorem ordered_step (hcard : Fintype.card τ < 2 ^ 32) (h : Ordered q c)
    (hs : (system τ).step c (t, ()) = some c') :
    ∃ q', Ordered q' c' ∧ Turn t q (c.pc t).phase q' (c'.pc t).phase := by
  rcases h with h | ⟨k, h⟩
  · by_cases hC : NoCarry c (t, ())
    · obtain ⟨q', hq', hturn⟩ := tickets_step h (h.length_lt hcard) hC hs
      exact ⟨q', .inl hq', hturn⟩
    · simp only [NoCarry, Classical.not_imp, ne_eq, not_not] at hC
      obtain ⟨q', hq', hturn⟩ := tickets_carry h (h.length_lt hcard) hC.1 hC.2 hs
      exact ⟨q', .inr ⟨_, hq'⟩, hturn⟩
  · obtain ⟨k', q', hq', hturn, -⟩ := h.step_card hcard hs
    exact ⟨q', .inr ⟨k', hq'⟩, hturn⟩

theorem ordered_reach (hcard : Fintype.card τ < 2 ^ 32) (h : (system τ).Reachable c) :
    ∃ q, Ordered q c := by
  refine h.induct (P := fun c => ∃ q, Ordered q c) (fun c hc => ⟨[], .inl (tickets_init hc)⟩) ?_
  rintro c ⟨t, u⟩ c' - ⟨q, hq⟩ - hs
  obtain ⟨q', hq', -⟩ := ordered_step hcard hq hs
  exact ⟨q', hq'⟩

variable {n : ℕ} {r : (system τ).Run (fun _ _ => True) n}

/-- The step is an `unlock` that carries. -/
def Carries (r : (system τ).Run (fun _ _ => True) n) (j : ℕ) : Prop :=
  ¬ NoCarry (r.state j) (r.label j)

/-- The ticket stays skipped. -/
theorem skipped_after (hcard : Fintype.card τ < 2 ^ 32) {j : ℕ} (hj : j < n) (hc : Carries r j) :
    ∀ m, j + 1 ≤ m → m ≤ n → ∃ k q, Skipped k q (r.state m) := by
  intro m hm
  induction m, hm using Nat.le_induction with
  | base =>
    intro _
    obtain ⟨q, h | ⟨k, h⟩⟩ := ordered_reach hcard (r.reach hj.le)
    · obtain ⟨hp, hmax⟩ := Classical.not_imp.1 hc
      obtain ⟨q', hq', -⟩ :=
        tickets_carry h (h.length_lt hcard) hp (not_not.1 hmax) (r.step j hj)
      exact ⟨_, q', hq'⟩
    · exact absurd (h.noCarry _) hc
  | succ m hm ih =>
    intro hmn
    obtain ⟨k, q, h⟩ := ih (by omega)
    obtain ⟨k', q', hq', -⟩ := h.step_card hcard (r.step m (by omega))
    exact ⟨k', q', hq'⟩

/-- Who takes a ticket after the carry waits for ever. -/
theorem late_after (hcard : Fintype.card τ < 2 ^ 32) {j i : ℕ} (hji : j < i) (hc : Carries r j)
    {u : τ} (hu : Takes r.who (r.phases PC.phase) u i) :
    ∀ m, i + 1 ≤ m → m ≤ n → ∃ k q, Skipped k q (r.state m) ∧ u ∈ q.drop k := by
  intro m hm
  induction m, hm using Nat.le_induction with
  | base =>
    intro hin
    obtain ⟨k, q, h⟩ := skipped_after hcard (by omega) hc i hji (by omega)
    obtain ⟨k', q', hq', -, -, hlate⟩ := h.step_card hcard (r.step i (by omega))
    obtain ⟨rfl, hidle, -⟩ := hu
    refine ⟨k', q', hq', hlate ?_⟩
    change ((r.state i).pc (r.label i).1).phase = .idle at hidle
    cases hp : (r.state i).pc (r.label i).1 with
    | idle => rfl
    | spin | held => rw [hp] at hidle; cases hidle
  | succ m hm ih =>
    intro hmn
    obtain ⟨k, q, h, hmem⟩ := ih (by omega)
    obtain ⟨k', q', hq', -, hkept, -⟩ := h.step_card hcard (r.step m (by omega))
    exact ⟨k', q', hq', hkept u hmem⟩

/-- The lock stays exclusive and fair for ever; but it carries once at most, and a thread that takes
its ticket after that never gets the lock. -/
structure Lasting (r : (system τ).Run (fun _ _ => True) n) : Prop where
  fifo : Fifo r PC.phase
  once : ∀ i j, i < n → j < n → Carries r i → Carries r j → i = j
  late : ∀ j i m u, j < i → i < m → m ≤ n → Carries r j → Takes r.who (r.phases PC.phase) u i →
    r.phases PC.phase m u = .waiting

theorem lasting (hcard : Fintype.card τ < 2 ^ 32) (r : (system τ).Run (fun _ _ => True) n) :
    Lasting r where
  fifo := Fifo.of_turns (Q := Ordered) rfl (fun c hc => .inl (tickets_init hc))
    (fun q c t a c' _ hq _ hs => ordered_step hcard hq hs) r
  once i j hi hj hci hcj := by
    by_contra hne
    rcases Nat.lt_or_gt_of_ne hne with hlt | hlt
    · obtain ⟨k, q, h⟩ := skipped_after hcard hi hci j hlt hj.le
      exact hcj (h.noCarry _)
    · obtain ⟨k, q, h⟩ := skipped_after hcard hj hcj i hlt hi.le
      exact hci (h.noCarry _)
  late j i m u hji him hmn hc hu := by
    obtain ⟨k, q, h, hmem⟩ := late_after hcard hji hc hu m him hmn
    exact h.late_spins hmem

/-- One thread alone comes to the carry with its `2 ^ 32`nd `unlock`. -/
theorem lasting_alone : ∃ r : (system (Fin 1)).Run (fun _ _ => True) (2 ^ 33),
    Lasting r ∧ Carries r (2 ^ 33 - 1) := by
  refine ⟨⟨alone, fun _ => (0, ()), ⟨by simp [alone], by simp [alone]⟩, fun _ _ => trivial,
    fun i hi => alone_step hi⟩, lasting (by decide) _, fun hC => hC ?_ ?_⟩
  · simp [alone]
  · decide

end TicketLock

end ConcurrencySandbox

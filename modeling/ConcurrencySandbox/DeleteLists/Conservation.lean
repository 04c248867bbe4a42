import ConcurrencySandbox.DeleteLists.Custody
import ConcurrencySandbox.Interleaving.Calls

/-!
# Retired objects are conserved

What has been passed to `retire` is what the nodes hold and what has been deleted, each object once:
so a retired object is in one place, or its deleter has run, once. Every call of `retire` has linked
its node when it returns, so what it was called with is a retired object.
-/

namespace ConcurrencySandbox

open Interleaving Structures

namespace DeleteLists

variable {τ N A P : Type*}

/-- The object of a call of `retire`. -/
def Act.passed : Act N A P → List A
  | .retire data _ => [data]
  | _ => []

namespace Event

def passed : Event N A → List A
  | .make _ data => [data]
  | _ => []

def retired (mData : N → A) : Event N A → List A
  | .link node => [mData node]
  | _ => []

/-- The object whose deleter runs. -/
def deleted (mData : N → A) : Event N A → List A
  | .delete node => [mData node]
  | _ => []

end Event

/-- What there is of objects, with the nodes there are and the retired ones. -/
structure Ledger (kept settled : N → Prop) (mData : N → A) (passed retired deleted : List A) :
    Prop where
  sub : ∀ n, settled n → kept n
  inj : ∀ n m, kept n → kept m → mData n = mData m → n = m
  nodup : deleted.Nodup
  gone : ∀ n, kept n → mData n ∉ deleted
  passed : ∀ a, a ∈ passed ↔ a ∈ deleted ∨ ∃ n, kept n ∧ mData n = a
  retired : ∀ a, a ∈ retired ↔ a ∈ deleted ∨ ∃ n, settled n ∧ mData n = a

section Ledger

variable {kept settled kept' settled' : N → Prop} {mData mData' : N → A}
  {passed retired deleted : List A}

theorem Ledger.step (h : Ledger kept settled mData passed retired deleted) {e : Event N A}
    (he : e.Effect kept settled kept' settled' mData mData') (hnd : (passed ++ e.passed).Nodup) :
    Ledger kept' settled' mData' (passed ++ e.passed) (retired ++ e.retired mData)
      (deleted ++ e.deleted mData) := by
  cases e with
  | skip =>
    obtain ⟨h1, h2, rfl⟩ := he
    obtain rfl : kept' = kept := funext fun n => propext (h1 n)
    obtain rfl : settled' = settled := funext fun n => propext (h2 n)
    simpa [Event.passed, Event.retired, Event.deleted] using h
  | make node data =>
    obtain ⟨h1, h2, h3, h4, h5⟩ := he
    have hnew : data ∉ passed := fun hm =>
      (List.nodup_append.1 hnd).2.2 data hm data (List.mem_singleton_self _) rfl
    have hold : ∀ n, kept n → mData' n = mData n := fun n hn => h5 n fun he => h1 (he ▸ hn)
    have hdata : ∀ n, kept n → mData n ≠ data := fun n hn he =>
      hnew ((h.passed data).2 (.inr ⟨n, hn, he⟩))
    refine ⟨fun n hn => (h2 n).2 (.inr (h.sub n ((h3 n).1 hn))), fun n m hn hm he => ?_,
      by simpa [Event.deleted] using h.nodup, fun n hn => ?_, fun a => ?_, fun a => ?_⟩
    · rcases (h2 n).1 hn with rfl | hn <;> rcases (h2 m).1 hm with rfl | hm
      · rfl
      · rw [h4, hold m hm] at he
        exact absurd he.symm (hdata m hm)
      · rw [h4, hold n hn] at he
        exact absurd he (hdata n hn)
      · rw [hold n hn, hold m hm] at he
        exact h.inj n m hn hm he
    · simp only [Event.deleted, List.append_nil]
      rcases (h2 n).1 hn with rfl | hn
      · rw [h4]
        exact fun hm => hnew ((h.passed data).2 (.inl hm))
      · rw [hold n hn]
        exact h.gone n hn
    · simp only [Event.passed, Event.deleted, List.append_nil, List.mem_append, List.mem_singleton,
        h.passed]
      constructor
      · rintro ((ha | ⟨n, hn, rfl⟩) | rfl)
        · exact .inl ha
        · exact .inr ⟨n, (h2 n).2 (.inr hn), hold n hn⟩
        · exact .inr ⟨node, (h2 node).2 (.inl rfl), h4⟩
      · rintro (ha | ⟨n, hn, rfl⟩)
        · exact .inl (.inl ha)
        · rcases (h2 n).1 hn with rfl | hn
          · exact .inr h4
          · exact .inl (.inr ⟨n, hn, (hold n hn).symm⟩)
    · simp only [Event.retired, Event.deleted, List.append_nil, h.retired]
      refine or_congr_right (exists_congr fun n => ?_)
      rw [h3]
      exact and_congr_right fun hn => by rw [hold n (h.sub n hn)]
  | link node =>
    obtain ⟨h1, h2, h3, rfl⟩ := he
    obtain rfl : kept' = kept := funext fun n => propext (h2 n)
    simp only [Event.passed, Event.retired, Event.deleted, List.append_nil]
    refine ⟨fun n hn => ?_, h.inj, h.nodup, h.gone, h.passed, fun a => ?_⟩
    · rcases (h3 n).1 hn with rfl | hn
      · exact h1
      · exact h.sub n hn
    · rw [List.mem_append, h.retired, List.mem_singleton]
      constructor
      · rintro ((ha | ⟨n, hn, rfl⟩) | rfl)
        · exact .inl ha
        · exact .inr ⟨n, (h3 n).2 (.inr hn), rfl⟩
        · exact .inr ⟨node, (h3 node).2 (.inl rfl), rfl⟩
      · rintro (ha | ⟨n, hn, rfl⟩)
        · exact .inl (.inl ha)
        · rcases (h3 n).1 hn with rfl | hn
          · exact .inr rfl
          · exact .inl (.inr ⟨n, hn, rfl⟩)
  | delete node =>
    obtain ⟨h1, h2, h3, rfl⟩ := he
    have hk := h.sub node h1
    -- the same for the nodes and for the retired nodes
    have hsplit : ∀ {D D' : N → Prop}, D node → (∀ n, D' n ↔ D n ∧ n ≠ node) → ∀ a,
        (∃ n, D n ∧ mData' n = a) ↔ a = mData' node ∨ ∃ n, D' n ∧ mData' n = a := by
      intro D D' hD hD' a
      constructor
      · rintro ⟨n, hn, rfl⟩
        by_cases hne : n = node
        · exact .inl (congrArg mData' hne)
        · exact .inr ⟨n, (hD' n).2 ⟨hn, hne⟩, rfl⟩
      · rintro (rfl | ⟨n, hn, rfl⟩)
        · exact ⟨node, hD, rfl⟩
        · exact ⟨n, ((hD' n).1 hn).1, rfl⟩
    simp only [Event.passed, Event.retired, Event.deleted, List.append_nil]
    refine ⟨fun n hn => (h2 n).2 (((h3 n).1 hn).imp_left (h.sub n)),
      fun n m hn hm => h.inj n m ((h2 n).1 hn).1 ((h2 m).1 hm).1, ?_, fun n hn => ?_, fun a => ?_,
      fun a => ?_⟩
    · rw [List.nodup_append]
      refine ⟨h.nodup, List.nodup_singleton _, fun a ha b hb hab => ?_⟩
      rw [List.mem_singleton] at hb
      exact h.gone node hk (hb ▸ hab ▸ ha)
    · obtain ⟨hn, hne⟩ := (h2 n).1 hn
      rw [List.mem_append, List.mem_singleton, not_or]
      exact ⟨h.gone n hn, fun he => hne (h.inj n node hn hk he)⟩
    · rw [h.passed, hsplit hk h2, List.mem_append, List.mem_singleton, or_assoc]
    · rw [h.retired, hsplit h1 h3, List.mem_append, List.mem_singleton, or_assoc]

end Ledger

section Runs

variable [DecidableEq τ] [DecidableEq N] [DecidableEq P] {slotNum k i : ℕ} {address : A → P}
  (r : (system (τ := τ) (N := N) slotNum address).Run (fun _ _ => True) k)

/-- The objects that `retire` has been called with. -/
def passed (i : ℕ) : List (τ × A) := r.log (fun _ l => l.2.passed.map (l.1, ·)) i

/-- The objects that are in a delete list, or were. -/
def retired (i : ℕ) : List (τ × A) :=
  r.log (fun c l => ((event (c.pc l.1) l.2).retired c.shared.mData).map (l.1, ·)) i

/-- The objects whose deleters have run. -/
def deleted (i : ℕ) : List A :=
  r.log (fun c l => (event (c.pc l.1) l.2).deleted c.shared.mData) i

/-- Of the places with these nodes, one holds the object, once. -/
def InOnePlace [DecidableEq A] (mData : N → A) (c : Place τ → List N) (a : A) : Prop :=
  ∃ p : Place τ, p.Settled ∧ ((c p).map mData).count a = 1 ∧ ∀ q, q ≠ p → a ∉ (c q).map mData

/-- A call of `retire` has retired its object, or its node is still to be linked. The nodes are
those the links lead to, and none of them is freed. A retired object is in one place or its deleter
has run once; an object that is not retired is in none of the lists. -/
structure Conserved [DecidableEq A] (i : ℕ) : Prop where
  calls : ∀ t, eventsOf t (passed r i) = eventsOf t (retired r i) ++
    (freshOf ((r.state i).pc t)).map (r.state i).shared.mData
  places : ∃ c : Place τ → List N,
    (∀ p, Chain (r.state i).shared (r.state i).pc (c p) p) ∧
    (∀ p, ∀ n ∈ c p, (r.state i).shared.allocated n = true) ∧
    (∀ a ∈ (retired r i).map Prod.snd,
      InOnePlace (r.state i).shared.mData c a ∧ a ∉ deleted r i ∨
        (∀ p, a ∉ (c p).map (r.state i).shared.mData) ∧ (deleted r i).count a = 1) ∧
    ∀ a, a ∉ (retired r i).map Prod.snd →
      a ∉ deleted r i ∧ ∀ p : Place τ, p.Settled → a ∉ (c p).map (r.state i).shared.mData

variable {r}

omit [DecidableEq N] [DecidableEq P] [DecidableEq τ] in
theorem event_passed (p : PC τ N P) (ok : Bool) :
    (event p (.run ok : Act N A P)).passed = [] := by
  unfold event
  split <;> simp_all [Event.passed]

/-- A call of `retire` makes a node. -/
theorem next_passed {s s' : Shared τ N A P} {t : τ} {act : Act N A P} {p p' : PC τ N P}
    (hn : next slotNum address t act s p = some (s', p')) : (event p act).passed = act.passed := by
  revert hn
  fun_cases next slotNum address t act s p <;> intro hn
  case case9 => exact event_passed p _
  case case10 => cases hn
  all_goals rfl

theorem passed_mono {j : ℕ} (hij : i ≤ j) : passed r i <+: passed r j := by
  induction hij with
  | refl => exact List.prefix_rfl
  | step _ ih =>
    unfold passed at ih ⊢
    rw [System.Run.log_succ]
    exact ih.trans (List.prefix_append _ _)

theorem nodup_mono {j : ℕ} (hij : i ≤ j) (h : ((passed r j).map Prod.snd).Nodup) :
    ((passed r i).map Prod.snd).Nodup :=
  h.sublist ((passed_mono hij).sublist.map _)

theorem conserved_run (hi : i ≤ k) (hnd : ((passed r i).map Prod.snd).Nodup) :
    ∃ c : Place τ → List N, Inv c (r.state i).shared (r.state i).pc ∧
      Ledger (Kept (fun _ => True) c) (Kept Place.Settled c) (r.state i).shared.mData
        ((passed r i).map Prod.snd) ((retired r i).map Prod.snd) (deleted r i) := by
  unfold passed at hnd
  unfold passed retired deleted
  rw [System.Run.map_snd_log] at hnd
  rw [System.Run.map_snd_log, System.Run.map_snd_log]
  induction i with
  | zero =>
    refine ⟨_, inv_initial r.init.1 r.init.2, ?_⟩
    refine ⟨fun n => ?_, fun n m hn => ?_, List.nodup_nil, fun n hn => ?_, fun a => ?_, fun a => ?_⟩
    all_goals simp_all [Kept, System.Run.log]
  | succ i ih =>
    rw [System.Run.log_succ] at hnd
    obtain ⟨c, hI, hL⟩ := ih (by omega) (List.nodup_append.1 hnd).1
    obtain ⟨s', p', hnext, hstate⟩ := Program.step_eq_some.1 (r.step i hi)
    obtain ⟨c', hI', he⟩ := inv_step hI rfl hnext
    refine ⟨c', hstate ▸ hI', ?_⟩
    rw [System.Run.log_succ, System.Run.log_succ, System.Run.log_succ, hstate]
    rw [← next_passed hnext] at hnd ⊢
    exact hL.step he hnd

omit [DecidableEq τ] [DecidableEq N] in
/-- A retired object is in one place, or in none and deleted. -/
theorem Ledger.place [DecidableEq A] {c : Place τ → List N} {mData : N → A} {ps rs ds : List A}
    (h : Ledger (Kept (fun _ => True) c) (Kept Place.Settled c) mData ps rs ds) (hc : Custody c)
    {a : A} (ha : a ∈ rs) :
    InOnePlace mData c a ∧ a ∉ ds ∨ (∀ p, a ∉ (c p).map mData) ∧ ds.count a = 1 := by
  have hinj : ∀ {p q n m}, n ∈ c p → m ∈ c q → mData n = mData m → n = m := fun hn hm =>
    h.inj _ _ ⟨_, trivial, hn⟩ ⟨_, trivial, hm⟩
  rcases (h.retired a).1 ha with hd | ⟨n, ⟨p, hp, hn⟩, rfl⟩
  · refine .inr ⟨fun p hm => ?_, List.count_eq_one_of_mem h.nodup hd⟩
    obtain ⟨n, hn, rfl⟩ := List.mem_map.1 hm
    exact h.gone n ⟨p, trivial, hn⟩ hd
  · refine .inl ⟨⟨p, hp, ?_, fun q hq hm => ?_⟩, h.gone n ⟨p, trivial, hn⟩⟩
    · refine List.count_eq_one_of_mem ((hc.nodup p).map_on fun x hx y hy => hinj hx hy) ?_
      exact List.mem_map_of_mem hn
    · obtain ⟨m, hm, he⟩ := List.mem_map.1 hm
      exact hq (hc.eq hm (hinj hm hn he ▸ hn))

omit [DecidableEq N] in
theorem Event.Effect.mData_eq {kept settled kept' settled' : N → Prop} {mData mData' : N → A}
    {e : Event N A} (he : e.Effect kept settled kept' settled' mData mData') {n : N} (hn : kept n) :
    mData' n = mData n := by
  cases e with
  | skip => exact congrFun he.2.2 n
  | make node data => exact he.2.2.2.2 n fun h => he.1 (h ▸ hn)
  | link node => exact congrFun he.2.2.2 n
  | delete node => exact congrFun he.2.2.2 n

theorem nextRun_fresh {s s' : Shared τ N A P} {t : τ} {ok : Bool} {p p' : PC τ N P}
    (hn : nextRun slotNum address t ok s p = some (s', p')) : (freshOf p).map s.mData =
      (event p (.run ok : Act N A P)).retired s.mData ++ (freshOf p').map s'.mData := by
  revert hn
  fun_cases nextRun slotNum address t ok s p <;> intro hn <;> cases hn
  case case5 node after => cases after <;> rfl
  case case6 node after => cases after <;> rfl
  all_goals first | rfl | (split <;> rfl) | (unfold afterList; split <;> rfl)

/-- A call of `retire` links a node with its object before it returns. -/
theorem next_fresh {s s' : Shared τ N A P} {t : τ} {act : Act N A P} {p p' : PC τ N P}
    (hn : next slotNum address t act s p = some (s', p')) : (freshOf p).map s.mData ++ act.passed =
      (event p act).retired s.mData ++ (freshOf p').map s'.mData := by
  revert hn
  fun_cases next slotNum address t act s p <;> intro hn
  case case9 => exact (List.append_nil _).trans (nextRun_fresh hn)
  all_goals cases hn
  case case6 data node _ =>
    exact congrArg (fun a => [a]) (Function.update_self node data s.mData).symm
  all_goals first | rfl | (split <;> rfl)

theorem inv_run_state (hi : i ≤ k) :
    ∃ c : Place τ → List N, Inv c (r.state i).shared (r.state i).pc := by
  refine System.Reach.induct (P := fun cf => ∃ c : Place τ → List N, Inv c cf.shared cf.pc) ?_ ?_
    (r.reach hi)
  · rintro ⟨s, f⟩ ⟨hs, hf⟩
    exact ⟨_, inv_initial hs hf⟩
  · rintro ⟨s, f⟩ ⟨t, act⟩ cf' - ⟨c, hI⟩ - hst
    obtain ⟨s', p', hn, rfl⟩ := Program.step_eq_some.1 hst
    obtain ⟨c', hI', -⟩ := inv_step hI rfl hn
    exact ⟨c', hI'⟩

theorem calls_run (hi : i ≤ k) (t : τ) : eventsOf t (passed r i) = eventsOf t (retired r i) ++
    (freshOf ((r.state i).pc t)).map (r.state i).shared.mData := by
  refine r.eventsOf_log (fun c t => (freshOf (c.pc t)).map c.shared.mData)
    (fun t => ?_) (fun i hi => next_fresh (Program.run_step r hi).1) (fun i hi u hu => ?_) hi t
  · rw [r.init.2]
    rfl
  · obtain ⟨c, hI⟩ := inv_run_state (r := r) hi.le
    obtain ⟨s', p', hnext, hstate⟩ := Program.step_eq_some.1 (r.step i hi)
    obtain ⟨c', -, he⟩ := inv_step hI rfl hnext
    rw [(Program.run_step r hi).2 u hu, hstate]
    refine List.map_congr_left fun n hn => he.mData_eq ⟨.fresh u, trivial, ?_⟩
    rwa [show c (.fresh u) = _ from hI.chain (.fresh u)]

theorem conservation [DecidableEq A] (hnd : ((passed r k).map Prod.snd).Nodup) :
    ∀ i ≤ k, Conserved r i := by
  intro i hi
  obtain ⟨c, hI, hL⟩ := conserved_run hi (nodup_mono hi hnd)
  refine ⟨calls_run hi, c, hI.chain, hI.live, fun a ha => hL.place hI.custody ha, fun a ha => ?_⟩
  rw [hL.retired, not_or] at ha
  refine ⟨ha.1, fun p hp hm => ha.2 ?_⟩
  obtain ⟨n, hn, rfl⟩ := List.mem_map.1 hm
  exact ⟨n, ⟨p, hp, hn⟩, rfl⟩

end Runs

/-- A thread leaves its node behind, and another one takes it over while it deletes its own. -/
theorem conservation_exit : ∃ (k : ℕ)
    (r : (system (τ := Fin 2) (N := ℕ) 1 (id : ℕ → ℕ)).Run (fun _ _ => True) k),
    (r.state k).shared.localHead 1 = some 0 ∧ (r.state k).shared.allocated 1 = false ∧
      ∀ i ≤ k, Conserved r i := by
  let run (t : Fin 2) (n : ℕ) : List (Fin 2 × Act ℕ ℕ ℕ) := List.replicate n (t, .run true)
  let as := (1, .useHazardPointer) :: run 1 3 ++ (0, .retire 5 0) :: run 0 3 ++ (0, .exit true) ::
    run 0 4 ++ (1, .store 0 (some 5)) :: (1, .retire 6 1) :: run 1 3 ++
      (1, .tryDeallocateLocalList) :: run 1 15
  let s₀ : Shared (Fin 2) ℕ ℕ ℕ := ⟨fun _ => 0, fun _ => none, fun _ => false, none, fun _ => none,
    fun _ => 0, fun _ => none, [], 0, fun _ => false⟩
  have hex : ∃ c : Conf (Fin 2) (Shared (Fin 2) ℕ ℕ ℕ) (PC (Fin 2) ℕ ℕ),
      (system 1 id).exec ⟨s₀, fun _ => .ready⟩ as = some c ∧
        c.shared.localHead 1 = some 0 ∧ c.shared.allocated 1 = false := ⟨_, rfl, rfl, rfl⟩
  obtain ⟨c, hc, h1, h2⟩ := hex
  obtain ⟨r, hr, hl⟩ := System.exists_run (S := system 1 id) (C := fun _ _ => True) (0, .run true)
    ⟨⟨rfl, rfl, rfl, rfl, rfl, rfl, rfl, rfl⟩, rfl⟩ hc fun _ _ _ _ => trivial
  have hlast := hr as.length le_rfl
  rw [List.take_length, hc, Option.some.injEq] at hlast
  subst hlast
  have hpassed : passed r as.length = [(0, 5), (1, 6)] := by
    have hlog : passed r as.length = (List.range as.length).flatMap fun j =>
        (as.getD j (0, .run true)).2.passed.map ((as.getD j (0, .run true)).1, ·) := by
      refine List.flatMap_congr fun j hj => ?_
      rw [List.mem_range] at hj
      simp only [hl j hj, List.getD_eq_getElem?_getD, List.getElem?_eq_getElem hj, Option.getD_some]
    exact hlog.trans rfl
  exact ⟨as.length, r, h1, h2, conservation (by rw [hpassed]; decide)⟩

end DeleteLists

end ConcurrencySandbox

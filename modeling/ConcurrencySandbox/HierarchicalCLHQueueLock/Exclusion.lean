import ConcurrencySandbox.HierarchicalCLHQueueLock.Queues

/-!
# Mutual exclusion of HierarchicalCLHQueueLock

What each write does to the queues: a thread arrives at the local tail, a cluster master splices
what is before the tail it has read, marks that tail, and a holder takes its predecessor's node over
and leaves. Whoever holds the lock is the head of the global queue.
-/

namespace ConcurrencySandbox

open Interleaving Structures

namespace HierarchicalCLHQueueLock

variable {τ N : Type*} {C : ClusterTraits τ} {g : Ghost C N} {s s' : Shared C N}
    {t u v w : τ} {p : N}
  {c d : Fin C.ClusterSize} {k : PC N}
  {a b q : List τ}

section Arrive

def Ghost.arrive (g : Ghost C N) (t : τ) : Ghost C N :=
  { g with
    locals := Function.update g.locals (C.getClusterID t) (g.locals (C.getClusterID t) ++ [t]) }

def Shared.arrive (s : Shared C N) (t : τ) : Shared C N :=
  { s with mLocalTails := Function.update s.mLocalTails (C.getClusterID t) (s.sMyNode t) }

theorem mem_arrive (hu : u ∈ (g.arrive t).locals c) :
    u ∈ g.locals c ∨ u = t ∧ C.getClusterID t = c := by
  unfold Ghost.arrive at hu
  by_cases hc : c = C.getClusterID t
  · subst hc
    simpa using hu
  · simp only [Function.update_of_ne hc] at hu
    exact .inl hu

theorem locals_arrive (c : Fin C.ClusterSize) :
    (g.arrive t).locals c = g.locals c ∨ (g.arrive t).locals c = g.locals c ++ [t] := by
  unfold Ghost.arrive
  by_cases hc : c = C.getClusterID t
  · subst hc
    simp
  · simp [Function.update_of_ne hc]

theorem Leads.arrive (h : Leads g u) : Leads (g.arrive t) u := by
  unfold Leads at h ⊢
  rcases locals_arrive (g := g) (t := t) (C.getClusterID u) with hl | hl
  · rwa [hl]
  · rw [hl, List.head?_append, h]
    rfl

theorem Local.arrive (h : Local g s u k) (hut : u ≠ t) : Local (g.arrive t) (s.arrive t) u k where
  placed := by
    have hk := h.placed
    cases k with
    | idle | exchange => exact ⟨hk.1, fun hm => (mem_arrive hm).elim hk.2 fun he => hut he.1⟩
    | waitForGrant p =>
      rcases hk with hk | ⟨w, hw, hp⟩ | ⟨h1, h2⟩
      · exact .inl ⟨hk.behind, hk.cluster, hk.plain, hk.middle⟩
      · refine .inr (.inl ⟨w, ?_, hp⟩)
        rcases locals_arrive (g := g) (t := t) (C.getClusterID u) with hl | hl
        · rwa [hl]
        · rw [hl]
          exact adjacent_concat.2 (.inl hw)
      · exact .inr (.inr ⟨h1.arrive, h2⟩)
    | loadGlobal | loadLocal => exact Leads.arrive hk
    | casGlobal =>
      obtain ⟨h1, w, hw, htail⟩ := hk
      refine ⟨h1.arrive, w, ?_, htail⟩
      rcases locals_arrive (g := g) (t := t) (C.getClusterID u) with hl | hl <;> rw [hl]
      · exact hw
      · exact List.mem_append_left _ hw
    | _ => exact hk
  node := h.node
  marks := h.marks

theorem Inv.arrive (h : Inv g s) (hq : t ∉ g.queue) (hl : t ∉ g.locals (C.getClusterID t))
    (hn : s.sMyNode t = some (g.node t)) : Inv (g.arrive t) (s.arrive t) where
  injective := h.injective
  spare := h.spare
  nodup := h.nodup
  localNodup c := by
    by_cases hc : c = C.getClusterID t
    · subst hc
      simp only [Ghost.arrive, Function.update_self, ← List.concat_eq_append]
      exact (h.localNodup _).concat hl
    · simp only [Ghost.arrive, Function.update_of_ne hc]
      exact h.localNodup c
  apart c u hu := by
    rcases mem_arrive hu with hu | ⟨rfl, rfl⟩
    · exact h.apart c u hu
    · exact ⟨hq, rfl⟩
  own := h.own
  plain := h.plain
  tails := h.tails
  marker := h.marker
  globalTail := h.globalTail
  localTail c u hu := by
    by_cases hc : c = C.getClusterID t
    · subst hc
      simp only [Ghost.arrive, Function.update_self, List.getLast?_concat, Option.some.injEq] at hu
      subst hu
      exact (Function.update_self ..).trans hn
    · simp only [Ghost.arrive, Function.update_of_ne hc] at hu
      exact (Function.update_of_ne hc _ _).trans (h.localTail c u hu)
  stale c p hc hp := by
    by_cases hct : c = C.getClusterID t
    · subst hct
      simp [Ghost.arrive] at hc
    · simp only [Ghost.arrive, Function.update_of_ne hct] at hc
      simp only [Shared.arrive, Function.update_of_ne hct] at hp
      exact h.stale c p hc hp

/-- Where a thread goes that has arrived. -/
theorem Inv.arrived (h : Inv g s) :
    Placed (g.arrive t) s t (match s.mLocalTails (C.getClusterID t) with
      | some pred1 => .waitForGrant pred1
      | none => .loadGlobal) := by
  have hself : (g.arrive t).locals (C.getClusterID t) = g.locals (C.getClusterID t) ++ [t] :=
    Function.update_self ..
  cases hlast : (g.locals (C.getClusterID t)).getLast? with
  | none =>
    have hnil := List.getLast?_eq_none_iff.1 hlast
    have hleads : Leads (g.arrive t) t := by
      unfold Leads
      rw [hself, hnil]
      rfl
    cases htail : s.mLocalTails (C.getClusterID t) with
    | none => exact hleads
    | some p => exact .inr (.inr ⟨hleads, h.stale _ p hnil htail⟩)
  | some u =>
    rw [h.localTail _ u hlast]
    exact .inr (.inl ⟨u, hself ▸ adjacent_concat.2 (.inr ⟨hlast, rfl⟩), rfl⟩)

end Arrive

section Splice

/-- What a splice takes, from a local queue whose first thread is `t`. -/
structure Splices (g : Ghost C N) (c : Fin C.ClusterSize) (a b : List τ) (u t : τ) : Prop where
  locals : g.locals c = a ++ b
  first : a.head? = some t
  last : a.getLast? = some u

theorem Splices.leads (hS : Splices g c a b u t) (hv : Leads g v) (hc : C.getClusterID v = c) :
    v = t := by
  unfold Leads at hv
  rw [hc, hS.locals, List.head?_append, hS.first] at hv
  exact (Option.some.inj hv).symm

theorem Splices.last_mem (hS : Splices g c a b u t) : u ∈ a := List.mem_of_getLast? hS.last

theorem Splices.mem (hI : Inv g s) (hS : Splices g c a b u t) (hv : v ∈ a) :
    v ∉ g.queue ∧ C.getClusterID v = c ∧ v ∉ b := by
  have hm : v ∈ g.locals c := hS.locals ▸ List.mem_append_left _ hv
  obtain ⟨h1, h2⟩ := hI.apart c v hm
  have hnd := hI.localNodup c
  rw [hS.locals] at hnd
  exact ⟨h1, h2, fun hb => (List.nodup_append.1 hnd).2.2 v hv v hb rfl⟩

theorem Splices.not_tails (hI : Inv g s) (hS : Splices g c a b u t) (hv : v ∈ a) : ¬ g.tails v :=
  fun ht => (hS.mem hI hv).1 (hI.tails v ht).1

variable [DecidableEq τ]

/-- The threads `a` of a local queue, up to `u`, go to the global queue. -/
def Ghost.splice (g : Ghost C N) (c : Fin C.ClusterSize) (a b : List τ) (u t : τ) : Ghost C N :=
  { g with
    queue := g.queue ++ a
    locals := Function.update g.locals c b
    tails := fun v => g.tails v ∨ v = u
    marker := Function.update g.marker u (some t) }

theorem marker_splice : (g.splice c a b u t).marker u = some t := Function.update_self ..

theorem marker_splice_of_ne (h : v ≠ u) : (g.splice c a b u t).marker v = g.marker v :=
  Function.update_of_ne h _ _

theorem Heads.splice (h : Heads g v) : Heads (g.splice c a b u t) v := by
  unfold Heads at h ⊢
  simp only [Ghost.splice, List.head?_append, h]
  rfl

theorem Behind.splice (h : Behind g v p) : Behind (g.splice c a b u t) v p := by
  rcases h with ⟨h, hp⟩ | ⟨w, hw, hp⟩
  · exact .inl ⟨h.splice, hp⟩
  · exact .inr ⟨w, adjacent_append.2 (.inl hw), hp⟩

/-- The last one it takes is stale for those that are left. -/
theorem Splices.stale (hS : Splices g c a b u t) : Stale (g.splice c a b u t) s c (g.node u) := by
  obtain ⟨a', rfl⟩ := List.getLast?_eq_some_iff.1 hS.last
  exact .inl ⟨u, g.queue ++ a', [], .inr rfl, rfl, by simp [Ghost.splice], nofun⟩

variable (hI : Inv g s) (hS : Splices g c a b u t)
include hI hS

theorem Follows.splice (h : Follows g s v p) : Follows (g.splice c a b u t) s v p := by
  refine ⟨h.behind.splice, h.cluster, h.plain, fun w hw => ?_⟩
  rintro (ht | rfl)
  · exact h.middle w hw ht
  · have hwq := (hS.mem hI (hS.last_mem)).1
    rcases h.behind with ⟨-, hp⟩ | ⟨x, hx, hp⟩
    · exact hI.spare w (hw.symm.trans hp)
    · exact hwq (hI.injective (hw.symm.trans hp) ▸ hx.mem.1)

theorem Stale.splice (h : Stale g s d p) (hd : d ≠ c) : Stale (g.splice c a b u t) s d p := by
  have ha : ∀ v ∈ a, C.getClusterID v ≠ d := fun v hv he => hd (he.symm.trans (hS.mem hI hv).2.1)
  rcases h with ⟨w, l, r, h1, h2, h3, h4⟩ | ⟨h1, h2⟩
  · refine .inl ⟨w, l, r ++ a, .inl h1, h2, ?_, fun v hv => ?_⟩
    · simp [Ghost.splice, h3]
    · exact (List.mem_append.1 hv).elim (h4 v) (ha v)
  · exact .inr ⟨fun v hv => (List.mem_append.1 hv).elim (h1 v) (ha v), h2⟩

theorem Local.splice (h : Local g s v k) (hvt : v ≠ t) : Local (g.splice c a b u t) s v k where
  placed := by
    have hlocals : ∀ {d}, d ≠ c → (g.splice c a b u t).locals d = g.locals d := fun hd =>
      Function.update_of_ne hd _ _
    have hself : (g.splice c a b u t).locals c = b := Function.update_self ..
    -- who leads a local queue leads another one
    have hleads : Leads g v → Leads (g.splice c a b u t) v ∧ C.getClusterID v ≠ c := fun hv => by
      have hc : C.getClusterID v ≠ c := fun hc => hvt (hS.leads hv hc)
      unfold Leads
      rw [hlocals hc]
      exact ⟨hv, hc⟩
    have hk := h.placed
    cases k with
    | idle | exchange =>
      refine ⟨fun hm => ?_, fun hm => ?_⟩
      · rcases List.mem_append.1 hm with hm | hm
        · exact hk.1 hm
        · refine hk.2 ?_
          rw [(hS.mem hI hm).2.1, hS.locals]
          exact List.mem_append_left _ hm
      · by_cases hc : C.getClusterID v = c
        · rw [hc, hself] at hm
          exact hk.2 (by rw [hc, hS.locals]; exact List.mem_append_right _ hm)
        · rw [hlocals hc] at hm
          exact hk.2 hm
    | waitForGrant p =>
      rcases hk with hk | ⟨w, hw, rfl⟩ | ⟨h1, h2⟩
      · exact .inl (hk.splice hI hS)
      · by_cases hc : C.getClusterID v = c
        · rw [hc, hS.locals] at hw
          have hnd := hI.localNodup c
          rw [hS.locals] at hnd
          rcases adjacent_append.1 hw with hw | hw | ⟨h1, h2⟩
          · -- it has been spliced, and not right behind the last
            have hwa := hw.mem.1
            have hwt := hS.not_tails hI hwa
            refine .inl ⟨.inr ⟨w, adjacent_append.2 (.inr (.inl hw)), rfl⟩, ?_, hI.plain w hwt,
              fun x hx => ?_⟩
            · rw [(hI.own w).1, (hS.mem hI hwa).2.1, hc]
            · obtain rfl := hI.injective hx
              rintro (hx | rfl)
              · exact hwt hx
              · exact hw.ne_last (List.nodup_append.1 hnd).1 hS.last
          · refine .inr (.inl ⟨w, ?_, rfl⟩)
            rwa [hc, hself]
          · obtain rfl := Option.some.inj (h1.symm.trans hS.last)
            refine .inr (.inr ⟨?_, ?_⟩)
            · unfold Leads
              rwa [hc, hself]
            · rw [hc]
              exact hS.stale
        · refine .inr (.inl ⟨w, ?_, rfl⟩)
          rwa [hlocals hc]
      · obtain ⟨h3, h4⟩ := hleads h1
        exact .inr (.inr ⟨h3, h2.splice hI hS h4⟩)
    | loadGlobal | loadLocal => exact (hleads hk).1
    | casGlobal =>
      obtain ⟨h1, w, hw, htail⟩ := hk
      obtain ⟨h3, h4⟩ := hleads h1
      exact ⟨h3, w, by rwa [hlocals h4], htail⟩
    | loadTail | casTail =>
      obtain ⟨⟨p, hp, hb⟩, w, htail, hm⟩ := hk
      refine ⟨⟨p, hp, hb.splice⟩, w, htail, ?_⟩
      have hwu : w ≠ u := by
        rintro rfl
        exact hS.not_tails hI (hS.last_mem) (hI.marker w v hm).1
      exact (marker_splice_of_ne hwu).trans hm
    | spin =>
      obtain ⟨p, hp, hb⟩ := hk
      exact ⟨p, hp, hb.splice⟩
    | _ => exact ⟨hk.1.splice, hk.2⟩
  node := h.node
  marks w hw := by
    by_cases hwu : w = u
    · subst hwu
      have ht : t = v := Option.some.inj (marker_splice.symm.trans hw)
      exact absurd ht.symm hvt
    · exact h.marks w ((marker_splice_of_ne hwu).symm.trans hw)

theorem Inv.splice : Inv (g.splice c a b u t) { s with mGlobalTail := some (g.node u) } where
  injective := hI.injective
  spare := hI.spare
  nodup := by
    have hnd := hI.localNodup c
    rw [hS.locals] at hnd
    refine List.nodup_append.2 ⟨hI.nodup, (List.nodup_append.1 hnd).1, fun x hx y hy he => ?_⟩
    exact (hS.mem hI hy).1 (he ▸ hx)
  localNodup d := by
    by_cases hd : d = c
    · subst hd
      have hnd := hI.localNodup d
      rw [hS.locals] at hnd
      simpa [Ghost.splice] using (List.nodup_append.1 hnd).2.1
    · simpa [Ghost.splice, hd] using hI.localNodup d
  apart d v hv := by
    have hold : v ∈ g.locals d ∧ v ∉ a := by
      by_cases hd : d = c
      · subst hd
        have hb : v ∈ b := by simpa [Ghost.splice] using hv
        refine ⟨hS.locals ▸ List.mem_append_right _ hb, fun ha => (hS.mem hI ha).2.2 hb⟩
      · have hm : v ∈ g.locals d := by simpa [Ghost.splice, hd] using hv
        refine ⟨hm, fun ha => hd ?_⟩
        exact (hI.apart d v hm).2.symm.trans (hS.mem hI ha).2.1
    obtain ⟨h1, h2⟩ := hI.apart d v hold.1
    exact ⟨fun hm => (List.mem_append.1 hm).elim h1 hold.2, h2⟩
  own := hI.own
  plain v hv := hI.plain v fun ht => hv (.inl ht)
  tails v hv := by
    by_cases hvu : v = u
    · subst hvu
      refine ⟨List.mem_append_right _ (hS.last_mem), fun hm => ?_⟩
      exact nomatch marker_splice.symm.trans hm
    · obtain ⟨h1, h2⟩ := hI.tails v (hv.resolve_right hvu)
      exact ⟨List.mem_append_left _ h1, fun hm => h2 ((marker_splice_of_ne hvu).symm.trans hm)⟩
  marker v m hm := by
    by_cases hvu : v = u
    · subst hvu
      obtain rfl : t = m := Option.some.inj (marker_splice.symm.trans hm)
      refine ⟨.inr rfl, ?_⟩
      obtain ⟨a', rfl⟩ := List.head?_eq_some_iff.1 hS.first
      rcases List.mem_cons.1 (hS.last_mem) with he | he
      · exact .inl he.symm
      · exact .inr (precedes_append.2 (.inr (.inl (precedes_cons.2 (.inr ⟨rfl, he⟩)))))
    · obtain ⟨h1, h2⟩ := hI.marker v m ((marker_splice_of_ne hvu).symm.trans hm)
      exact ⟨.inl h1, h2.imp id fun h => precedes_append.2 (.inl h)⟩
  globalTail := by
    simp [Ghost.splice, List.getLast?_append, hS.last]
  localTail d v hv := by
    by_cases hd : d = c
    · subst hd
      refine hI.localTail d v ?_
      have hb : b.getLast? = some v := by simpa [Ghost.splice] using hv
      rw [hS.locals, List.getLast?_append, hb]
      rfl
    · exact hI.localTail d v (by simpa [Ghost.splice, hd] using hv)
  stale d p hd hp := by
    by_cases hdc : d = c
    · subst hdc
      have hb : b = [] := by simpa [Ghost.splice] using hd
      have htail := hI.localTail d u (by rw [hS.locals, hb, List.append_nil]; exact hS.last)
      obtain rfl := Option.some.inj (htail.symm.trans hp)
      exact hS.stale
    · have hst := hI.stale d p (by simpa [Ghost.splice, hdc] using hd) hp
      exact (hst.splice hI hS hdc).same rfl

/-- The cluster master comes behind what was the last of the global queue. -/
theorem Splices.behind : ∃ p, s.mGlobalTail = some p ∧ Behind (g.splice c a b u t) t p := by
  refine ⟨_, hI.globalTail, ?_⟩
  cases hl : g.queue.getLast? with
  | none =>
    have hnil := List.getLast?_eq_none_iff.1 hl
    refine .inl ⟨?_, rfl⟩
    unfold Heads Ghost.splice
    rw [hnil]
    exact hS.first
  | some w => exact .inr ⟨w, adjacent_append.2 (.inr (.inr ⟨hl, hS.first⟩)), rfl⟩

end Splice

section Mark

variable [DecidableEq τ] [DecidableEq N]

def Ghost.mark (g : Ghost C N) (u : τ) : Ghost C N :=
  { g with marker := Function.update g.marker u none }

def Shared.mark (s : Shared C N) (n : N) : Shared C N :=
  s.setState n (s.mState n ||| sTailWhenSplicedMask)

omit [DecidableEq τ]

theorem mState_mark : (s.mark p).mState p = s.mState p ||| sTailWhenSplicedMask :=
  Function.update_self ..

theorem mState_mark_of_ne {n : N} (hp : p ≠ n) : (s.mark n).mState p = s.mState p :=
  Function.update_of_ne hp _ _

theorem clusterID_mark {n : N} : clusterID ((s.mark n).mState p) = clusterID (s.mState p) := by
  by_cases hp : p = n
  · rw [hp, mState_mark, clusterID_splice]
  · rw [mState_mark_of_ne hp]

theorem successorMustWait_mark {n : N} :
    successorMustWait ((s.mark n).mState p) = successorMustWait (s.mState p) := by
  by_cases hp : p = n
  · rw [hp, mState_mark, successorMustWait_splice]
  · rw [mState_mark_of_ne hp]

theorem tailWhenSpliced_mark : tailWhenSpliced ((s.mark p).mState p) = true := by
  rw [mState_mark, tailWhenSpliced_splice]

theorem tailWhenSpliced_mark_of {n : N} (h : tailWhenSpliced (s.mState p) = true) :
    tailWhenSpliced ((s.mark n).mState p) = true := by
  by_cases hp : p = n
  · rw [hp, tailWhenSpliced_mark]
  · rwa [mState_mark_of_ne hp]

theorem Stale.mark {n : N} (h : Stale g s c p) : Stale g (s.mark n) c p := by
  refine h.imp id fun ⟨h1, h2⟩ => ⟨h1, h2.imp ?_ tailWhenSpliced_mark_of⟩
  rw [clusterID_mark]
  exact id

theorem Follows.mark (h : Follows g s v p) (hu : g.tails u) :
    Follows g (s.mark (g.node u)) v p where
  behind := h.behind
  cluster := clusterID_mark.trans h.cluster
  plain := by
    rw [mState_mark_of_ne fun he => h.middle u he hu]
    exact h.plain
  middle := h.middle

variable [DecidableEq τ]

omit [DecidableEq N] in
theorem marker_mark (h : (g.mark u).marker v = some w) : v ≠ u ∧ g.marker v = some w := by
  have hvu : v ≠ u := by
    rintro rfl
    exact nomatch (Function.update_self ..).symm.trans h
  exact ⟨hvu, (Function.update_of_ne hvu _ _).symm.trans h⟩

theorem Local.mark (h : Local g s v k) (hI : Inv g s) (hu : g.marker u = some t) (hvt : v ≠ t) :
    Local (g.mark u) (s.mark (g.node u)) v k where
  placed := by
    have hk := h.placed
    cases k with
    | waitForGrant p =>
      rcases hk with hk | hk | ⟨h1, h2⟩
      · have hk' := hk.mark (hI.marker u t hu).1
        exact .inl ⟨hk'.behind, hk'.cluster, hk'.plain, hk'.middle⟩
      · exact .inr (.inl hk)
      · exact .inr (.inr ⟨h1, h2.mark⟩)
    | loadTail | casTail =>
      obtain ⟨hb, w, htail, hw⟩ := hk
      refine ⟨hb, w, htail, ?_⟩
      have hwu : w ≠ u := by
        rintro rfl
        exact hvt (Option.some.inj (hw.symm.trans hu))
      exact (Function.update_of_ne hwu _ _).trans hw
    | loadMine | casMine =>
      exact ⟨hk.1, hk.2.1, (mState_mark_of_ne (hI.spare u).symm).trans hk.2.2.1, hk.2.2.2⟩
    | _ => exact hk
  node := h.node
  marks w hw := h.marks w (marker_mark hw).2

theorem Inv.mark (hI : Inv g s) (hu : g.tails u) : Inv (g.mark u) (s.mark (g.node u)) where
  injective := hI.injective
  spare := hI.spare
  nodup := hI.nodup
  localNodup := hI.localNodup
  apart := hI.apart
  own v := ⟨clusterID_mark.trans (hI.own v).1, successorMustWait_mark.trans (hI.own v).2⟩
  plain v hv := by
    have hne : g.node v ≠ g.node u := fun he => hv (hI.injective he ▸ hu)
    exact (congrArg tailWhenSpliced (mState_mark_of_ne hne)).trans (hI.plain v hv)
  tails v hv := by
    refine ⟨(hI.tails v hv).1, fun hm => ?_⟩
    by_cases hvu : v = u
    · rw [hvu]
      exact tailWhenSpliced_mark
    · exact tailWhenSpliced_mark_of
        ((hI.tails v hv).2 ((Function.update_of_ne hvu _ _).symm.trans hm))
  marker v m hm := hI.marker v m (marker_mark hm).2
  globalTail := hI.globalTail
  localTail := hI.localTail
  stale c p hc hp := (hI.stale c p hc hp).mark

end Mark

section Clear

variable [DecidableEq τ] [DecidableEq N]

/-- The head of the queue takes the node over that it has waited on. -/
def Shared.clear (s : Shared C N) (t : τ) (n : N) : Shared C N :=
  { s.setState n (C.cleared t) with
    sMyNode := Function.update s.sMyNode t (some n)
    sMyPred := Function.update s.sMyPred t none }

theorem mState_clear_of_ne {n : N} (hp : p ≠ n) : (s.clear t n).mState p = s.mState p :=
  Function.update_of_ne hp _ _

theorem mState_clear : (s.clear t p).mState p = C.cleared t := Function.update_self ..

theorem Stale.clear (h : Stale g s c p) (ht : Heads g t) :
    Stale g (s.clear t g.spare) c p := by
  rcases h with h | ⟨h1, h2⟩
  · exact .inl h
  · refine .inr ⟨h1, ?_⟩
    by_cases hp : p = g.spare
    · subst hp
      rw [mState_clear, C.clusterID_cleared]
      exact .inl fun he => h1 t ht.mem (C.word_injective he)
    · rwa [mState_clear_of_ne hp]

theorem Local.clear (h : Local g s v k) (hI : Inv g s) (ht : Heads g t) (hvt : v ≠ t) :
    Local g (s.clear t g.spare) v k where
  placed := by
    have hnot : ¬ Heads g v := fun hv => hvt (hv.eq ht)
    have hk := h.placed
    cases k with
    | waitForGrant p =>
      rcases hk with hk | hk | ⟨h1, h2⟩
      · have hp : p ≠ g.spare := by
          rcases hk.behind with ⟨hv, -⟩ | ⟨w, -, rfl⟩
          · exact absurd hv hnot
          · exact hI.spare w
        refine .inl ⟨hk.behind, ?_, ?_, hk.middle⟩ <;> rw [mState_clear_of_ne hp]
        · exact hk.cluster
        · exact hk.plain
      · exact .inr (.inl hk)
      · exact .inr (.inr ⟨h1, h2.clear ht⟩)
    | held | loadPred | casPred | loadMine | casMine => exact absurd hk.1 hnot
    | _ => exact hk
  node hr := (Function.update_of_ne hvt _ _).trans (h.node hr)
  marks := h.marks

theorem Inv.clear (hI : Inv g s) (ht : Heads g t) : Inv g (s.clear t g.spare) where
  injective := hI.injective
  spare := hI.spare
  nodup := hI.nodup
  localNodup := hI.localNodup
  apart := hI.apart
  own v := by
    rw [mState_clear_of_ne (hI.spare v)]
    exact hI.own v
  plain v hv := by
    rw [mState_clear_of_ne (hI.spare v)]
    exact hI.plain v hv
  tails v hv := by
    rw [mState_clear_of_ne (hI.spare v)]
    exact hI.tails v hv
  marker := hI.marker
  globalTail := hI.globalTail
  localTail := hI.localTail
  stale c p hc hp := (hI.stale c p hc hp).clear ht

end Clear

section Leave

variable [DecidableEq τ] [DecidableEq N]

/-- The node of the head becomes the one that the next head has found. -/
def Ghost.leave (g : Ghost C N) (t : τ) (q : List τ) : Ghost C N :=
  { g with
    queue := q
    tails := fun u => g.tails u ∧ u ≠ t
    node := Function.update g.node t g.spare
    spare := g.node t }

def Shared.leave (s : Shared C N) (n : N) : Shared C N :=
  s.setState n (s.mState n &&& ~~~sSuccessorMustWaitMask)

omit [DecidableEq τ]

theorem mState_leave_of_ne {n : N} (hp : p ≠ n) : (s.leave n).mState p = s.mState p :=
  Function.update_of_ne hp _ _

theorem mState_leave : (s.leave p).mState p = s.mState p &&& ~~~sSuccessorMustWaitMask :=
  Function.update_self ..

theorem clusterID_leave {n : N} : clusterID ((s.leave n).mState p) = clusterID (s.mState p) := by
  by_cases hp : p = n
  · rw [hp, mState_leave, clusterID_release]
  · rw [mState_leave_of_ne hp]

theorem tailWhenSpliced_leave {n : N} :
    tailWhenSpliced ((s.leave n).mState p) = tailWhenSpliced (s.mState p) := by
  by_cases hp : p = n
  · rw [hp, mState_leave, tailWhenSpliced_release]
  · rw [mState_leave_of_ne hp]

variable [DecidableEq τ] {n : N}

omit [DecidableEq N] in
theorem node_leave : (g.leave t q).node t = g.spare := Function.update_self ..

omit [DecidableEq N] in
theorem node_leave_of_ne (h : v ≠ t) : (g.leave t q).node v = g.node v :=
  Function.update_of_ne h _ _

omit [DecidableEq N] in
theorem Behind.leave (h : Behind g v p) (hI : Inv g s) (hq : g.queue = t :: q) (hvt : v ≠ t) :
    Behind (g.leave t q) v p := by
  rcases h with ⟨h, -⟩ | ⟨w, hw, rfl⟩
  · unfold Heads at h
    rw [hq] at h
    exact absurd (Option.some.inj h).symm hvt
  · rw [hq, adjacent_cons] at hw
    rcases hw with ⟨rfl, hw⟩ | hw
    · exact .inl ⟨hw, rfl⟩
    · have hwt : w ≠ t := by
        rintro rfl
        have hnd := hI.nodup
        rw [hq] at hnd
        exact (List.nodup_cons.1 hnd).1 hw.mem.1
      exact .inr ⟨w, hw, (node_leave_of_ne hwt).symm⟩

theorem Follows.leave (h : Follows g s v p) (hI : Inv g s) (hq : g.queue = t :: q) (hvt : v ≠ t) :
    Follows (g.leave t q) (s.leave n) v p where
  behind := h.behind.leave hI hq hvt
  cluster := clusterID_leave.trans h.cluster
  plain := tailWhenSpliced_leave.trans h.plain
  middle w hw := by
    rintro ⟨h1, h2⟩
    rw [node_leave_of_ne h2] at hw
    exact h.middle w hw h1

theorem Stale.leave (h : Stale g s c p) (hI : Inv g s) (hq : g.queue = t :: q)
    (hm : g.marker t = none) : Stale (g.leave t q) (s.leave n) c p := by
  rcases h with ⟨w, l, r, h1, rfl, h3, h4⟩ | ⟨h1, h2⟩
  · rw [hq] at h3
    cases l with
    | nil =>
      -- the last of the splice leaves, and has been marked
      obtain ⟨rfl, rfl⟩ := List.cons.inj h3
      refine .inr ⟨h4, .inr ?_⟩
      rw [tailWhenSpliced_leave]
      exact (hI.tails t h1).2 hm
    | cons x l =>
      obtain ⟨rfl, rfl⟩ := List.cons.inj h3
      have hwt : w ≠ t := by
        rintro rfl
        have hnd := hI.nodup
        rw [hq] at hnd
        exact (List.nodup_cons.1 hnd).1 (by simp)
      exact .inl ⟨w, l, r, ⟨h1, hwt⟩, (node_leave_of_ne hwt).symm, rfl, h4⟩
  · refine .inr ⟨fun v hv => h1 v (hq ▸ List.mem_cons_of_mem _ hv), ?_⟩
    rwa [clusterID_leave, tailWhenSpliced_leave]

theorem Local.leave (h : Local g s v k) (hI : Inv g s) (hq : g.queue = t :: q)
    (hm : g.marker t = none) (hvt : v ≠ t) : Local (g.leave t q) (s.leave n) v k where
  placed := by
    have hht : Heads g t := by
      unfold Heads
      rw [hq]
      rfl
    have hnot : ¬ Heads g v := fun hv => hvt (hv.eq hht)
    have hne : ∀ {w c}, w ∈ g.locals c → w ≠ t := fun hw he => (hI.apart _ _ hw).1 (he ▸ hht.mem)
    have hk := h.placed
    cases k with
    | idle | exchange =>
      exact ⟨fun hm => hk.1 (hq ▸ List.mem_cons_of_mem _ hm), hk.2⟩
    | waitForGrant p =>
      rcases hk with hk | ⟨w, hw, rfl⟩ | ⟨h1, h2⟩
      · exact .inl (hk.leave hI hq hvt)
      · exact .inr (.inl ⟨w, hw, (node_leave_of_ne (hne hw.mem.1)).symm⟩)
      · exact .inr (.inr ⟨h1, h2.leave hI hq hm⟩)
    | casGlobal =>
      obtain ⟨h1, w, hw, rfl⟩ := hk
      exact ⟨h1, w, hw, congrArg some (node_leave_of_ne (hne hw)).symm⟩
    | loadTail | casTail =>
      obtain ⟨⟨p, hp, hb⟩, w, rfl, hw⟩ := hk
      refine ⟨⟨p, hp, hb.leave hI hq hvt⟩, w, congrArg some (node_leave_of_ne ?_).symm, hw⟩
      rintro rfl
      exact nomatch hw.symm.trans hm
    | spin =>
      obtain ⟨p, hp, hb⟩ := hk
      exact ⟨p, hp, hb.leave hI hq hvt⟩
    | held | loadPred | casPred | loadMine | casMine => exact absurd hk.1 hnot
    | _ => exact hk
  node hr := (h.node hr).trans (congrArg some (node_leave_of_ne hvt).symm)
  marks w hw := by
    have hwt : w ≠ t := by
      rintro rfl
      exact nomatch hw.symm.trans hm
    rw [node_leave_of_ne hwt]
    exact h.marks w hw

omit [DecidableEq τ] [DecidableEq N] in
/-- Who could yet mark the node of the head is the head itself. -/
theorem Inv.unmarked (hI : Inv g s) (hq : g.queue = t :: q) (hm : ∀ u, g.marker u ≠ some t) :
    g.marker t = none := by
  have hnd := hI.nodup
  rw [hq] at hnd
  have htq := (List.nodup_cons.1 hnd).1
  by_contra hne
  obtain ⟨m, hmt⟩ := Option.ne_none_iff_exists'.1 hne
  rcases (hI.marker t m hmt).2 with rfl | hp
  · exact hm _ hmt
  · rw [hq, precedes_cons] at hp
    rcases hp with hp | ⟨-, hp⟩
    · exact htq hp.mem.2
    · exact htq hp

theorem Inv.leave (hI : Inv g s) (hq : g.queue = t :: q) (hm : ∀ u, g.marker u ≠ some t)
    (hstate : s.mState g.spare = C.cleared t) : Inv (g.leave t q) (s.leave (g.node t)) := by
  have hht : Heads g t := by
    unfold Heads
    rw [hq]
    rfl
  have hnd := hI.nodup
  rw [hq] at hnd
  obtain ⟨htq, hndq⟩ := List.nodup_cons.1 hnd
  have hmark := hI.unmarked hq hm
  have hstay : ∀ v, v ≠ t → (s.leave (g.node t)).mState ((g.leave t q).node v) =
      s.mState (g.node v) :=
    fun v hvt => by
      rw [node_leave_of_ne hvt]
      exact mState_leave_of_ne fun he => hvt (hI.injective he)
  have hself : (s.leave (g.node t)).mState ((g.leave t q).node t) = C.cleared t := by
    rw [node_leave, mState_leave_of_ne (hI.spare t).symm, hstate]
  refine ⟨fun v w hvw => ?_, fun v => ?_, hndq, hI.localNodup, fun c v hv => ?_, fun v => ?_,
    fun v hv => ?_, fun v hv => ?_, fun v m hv => ?_, ?_, fun c v hv => ?_, fun c p hc hp => ?_⟩
  · by_cases hv : v = t <;> by_cases hw : w = t
    · rw [hv, hw]
    · rw [hv, node_leave, node_leave_of_ne hw] at hvw
      exact absurd hvw.symm (hI.spare w)
    · rw [hw, node_leave, node_leave_of_ne hv] at hvw
      exact absurd hvw (hI.spare v)
    · rw [node_leave_of_ne hv, node_leave_of_ne hw] at hvw
      exact hI.injective hvw
  · by_cases hv : v = t
    · rw [hv, node_leave]
      exact (hI.spare t).symm
    · rw [node_leave_of_ne hv]
      exact fun he => hv (hI.injective he)
  · obtain ⟨h1, h2⟩ := hI.apart c v hv
    exact ⟨fun hm => h1 (hq ▸ List.mem_cons_of_mem _ hm), h2⟩
  · by_cases hv : v = t
    · rw [hv, hself]
      exact ⟨C.clusterID_cleared t, C.successorMustWait_cleared t⟩
    · rw [hstay v hv]
      exact hI.own v
  · by_cases hvt : v = t
    · rw [hvt, hself]
      exact C.tailWhenSpliced_cleared t
    · rw [hstay v hvt]
      exact hI.plain v fun h => hv ⟨h, hvt⟩
  · obtain ⟨h1, h2⟩ := hI.tails v hv.1
    rw [hq] at h1
    refine ⟨(List.mem_cons.1 h1).resolve_left hv.2, ?_⟩
    rw [hstay v hv.2]
    exact h2
  · obtain ⟨h1, h2⟩ := hI.marker v m hv
    have hvt : v ≠ t := by
      rintro rfl
      exact nomatch hmark.symm.trans hv
    have hmt : m ≠ t := by
      rintro rfl
      exact hm v hv
    refine ⟨⟨h1, hvt⟩, h2.imp id fun hp => ?_⟩
    rw [hq, precedes_cons] at hp
    exact hp.resolve_right fun he => hmt he.1
  · have htail := hI.globalTail
    rw [hq, List.getLast?_cons] at htail
    refine htail.trans (congrArg some ?_)
    change _ = (q.getLast?.map _).getD _
    cases hl : q.getLast? with
    | none => rfl
    | some w =>
      have hwt : w ≠ t := fun he => htq (he ▸ List.mem_of_getLast? hl)
      exact (node_leave_of_ne hwt).symm
  · have hvt : v ≠ t := fun he =>
      (hI.apart c v (List.mem_of_getLast? hv)).1 (he ▸ hht.mem)
    rw [node_leave_of_ne hvt]
    exact hI.localTail c v hv
  · exact (hI.stale c p hc hp).leave hI hq hmark

end Leave

section Steps

variable [DecidableEq τ] [DecidableEq N] {f : τ → PC N} {act : Act} {k' : PC N}

/-- What a step leaves. -/
def Kept (s : Shared C N) (t : τ) (k : PC N) (f : τ → PC N) : Prop :=
  ∃ g, Inv g s ∧ Local g s t k ∧ ∀ u, u ≠ t → Local g s u (f u)

omit [DecidableEq τ] [DecidableEq N] in
theorem Local.to (h : Local g s t k) (hp : Placed g s t k')
    (hr : k'.releasing = false → k.releasing = false)
    (hm : k.marking = none ∨ k'.marking = k.marking) :
    Local g s t k' where
  placed := hp
  node hk := h.node (hr hk)
  marks u hu := by
    have hmu := h.marks u hu
    rcases hm with hm | hm
    · exact nomatch hm.symm.trans hmu
    · exact hm.trans hmu

omit [DecidableEq τ] [DecidableEq N] in
theorem Kept.stay (hI : Inv g s) (hL : ∀ u, Local g s u (f u)) (hk : Local g s t k) :
    Kept s t k f :=
  ⟨g, hI, hk, fun u _ => hL u⟩

omit [DecidableEq N] in
/-- A cluster master splices. -/
theorem Kept.splice (hI : Inv g s) (hL : ∀ u, Local g s u (f u)) {pred tail : Option N}
    (hf : f t = .casGlobal pred tail) (hpred : s.mGlobalTail = pred) :
    Kept { s with mGlobalTail := tail } t (.loadTail pred tail) f := by
  have ht := hL t
  rw [hf] at ht
  obtain ⟨hleads, u, hu, rfl⟩ := ht.placed
  obtain ⟨a, b, hab⟩ := List.append_of_mem hu
  have hS : Splices g (C.getClusterID t) (a ++ [u]) b u t := by
    refine ⟨by simp [hab], ?_, by simp⟩
    unfold Leads at hleads
    rw [hab] at hleads
    cases a with
    | nil => exact hleads
    | cons x a => exact hleads
  refine ⟨_, hI.splice hS, ⟨?_, ht.node, fun w hw => ?_⟩, fun v hv =>
    Local.same (s := s) rfl ((hL v).splice hI hS hv) rfl rfl⟩
  · obtain ⟨p, hp, hb⟩ := hS.behind hI
    exact ⟨⟨p, hpred.symm.trans hp, hb⟩, u, rfl, marker_splice⟩
  · by_cases hwu : w = u
    · rw [hwu]
      rfl
    · exact nomatch ht.marks w ((marker_splice_of_ne hwu).symm.trans hw)

theorem Kept.mark (hI : Inv g s) (hL : ∀ u, Local g s u (f u)) {pred : Option N} {n : N}
    {oldState : BitVec 32} (hf : f t = .casTail pred (some n) oldState) :
    Kept (s.mark n) t (.spin pred) f := by
  have ht := hL t
  rw [hf] at ht
  obtain ⟨hb, u, hn, hu⟩ := ht.placed
  obtain rfl := Option.some.inj hn
  refine ⟨_, hI.mark (hI.marker u t hu).1, ⟨hb, ht.node, fun w hw => ?_⟩, fun v hv =>
    (hL v).mark hI hu hv⟩
  obtain ⟨hwu, hw⟩ := marker_mark hw
  have hwn := Option.some.inj (ht.marks w hw)
  exact absurd (hI.injective hwn).symm hwu

theorem Kept.clear (hI : Inv g s) (hL : ∀ u, Local g s u (f u)) {oldMyNode : Option N} {n : N}
    {oldState : BitVec 32} (hf : f t = .casPred oldMyNode oldState) (hn : s.sMyPred t = some n) :
    Kept (s.clear t n) t (.loadMine oldMyNode) f := by
  have ht := hL t
  rw [hf] at ht
  obtain ⟨hheads, hpred, hold⟩ := ht.placed
  obtain rfl := Option.some.inj (hn.symm.trans hpred)
  exact ⟨g, hI.clear hheads,
    ⟨⟨hheads, hold, mState_clear, Function.update_self ..⟩, nofun, ht.marks⟩,
    fun v hv => (hL v).clear hI hheads hv⟩

theorem Kept.leave (hI : Inv g s) (hL : ∀ u, Local g s u (f u)) {n : N} {oldState : BitVec 32}
    (hf : f t = .casMine (some n) oldState) : Kept (s.leave n) t .idle f := by
  have ht := hL t
  rw [hf] at ht
  obtain ⟨hheads, hold, hstate, hmine⟩ := ht.placed
  obtain rfl := Option.some.inj hold
  obtain ⟨q, hq⟩ := List.head?_eq_some_iff.1 hheads
  have hm : ∀ u, g.marker u ≠ some t := fun u hu => nomatch ht.marks u hu
  have hnd := hI.nodup
  rw [hq] at hnd
  refine ⟨_, hI.leave hq hm hstate, ⟨⟨(List.nodup_cons.1 hnd).1, fun hl => ?_⟩, fun _ => ?_,
    fun u hu => absurd hu (hm u)⟩, fun v hv => (hL v).leave hI hq (hI.unmarked hq hm) hv⟩
  · exact (hI.apart _ t hl).1 hheads.mem
  · exact hmine.trans (congrArg some node_leave.symm)

omit [DecidableEq τ] [DecidableEq N] in
/-- A thread that finds its predecessor's node free is the head of the queue. -/
theorem Inv.granted (hI : Inv g s) (h : Placed g s t (.waitForGrant p))
    (hc : clusterID (s.mState p) = C.word (C.getClusterID t))
    (hw : successorMustWait (s.mState p) = false) (hs : tailWhenSpliced (s.mState p) = false) :
    Heads g t ∧ p = g.spare := by
  rcases h with h | ⟨u, -, rfl⟩ | ⟨-, h⟩
  · exact hI.heads h.behind hw
  · rw [(hI.own u).2] at hw
    cases hw
  · rcases hI.not_granted h with h | h | h
    · exact absurd hc h
    · exact nomatch hs.symm.trans h
    · exact nomatch hw.symm.trans h

omit [DecidableEq τ] [DecidableEq N] in
/-- A thread that finds it marked, or of another cluster, is the first of its local queue. -/
theorem Inv.master (hI : Inv g s) (h : Placed g s t (.waitForGrant p))
    (hp : clusterID (s.mState p) ≠ C.word (C.getClusterID t) ∨
      tailWhenSpliced (s.mState p) = true) :
    Leads g t := by
  rcases h with h | ⟨u, hu, rfl⟩ | ⟨h, -⟩
  · rcases hp with hp | hp
    · exact absurd h.cluster hp
    · exact nomatch h.plain.symm.trans hp
  · obtain ⟨h1, h2⟩ := hI.apart _ u hu.mem.1
    rcases hp with hp | hp
    · exact absurd ((hI.own u).1.trans (congrArg C.word h2)) hp
    · exact nomatch (hI.plain u fun ht => h1 (hI.tails u ht).1).symm.trans hp
  · exact h

theorem step (hI : Inv g s) (hL : ∀ u, Local g s u (f u))
    (hn : next t act s (f t) = some (s', k)) : Kept s' t k f := by
  have ht := hL t
  have hk := ht.placed
  generalize hf : f t = p at hn ht hk
  -- steps that write nothing that others read
  have hstay : ∀ {k : PC N}, Placed g s t k → (k.releasing = false → p.releasing = false) →
      (p.marking = none ∨ k.marking = p.marking) → Kept s t k f := fun h1 h2 h3 =>
    .stay hI hL (ht.to h1 h2 h3)
  have hpred : ∀ {k : PC N} {pred : Option N}, Local g (s.setPred t pred) t k →
      Kept (s.setPred t pred) t k f := fun h => by
    refine ⟨g, Inv.same (s := s) rfl hI rfl rfl, h, fun u hu =>
      Local.same (s := s) rfl (hL u) rfl ?_⟩
    exact Function.update_of_ne hu _ _
  have hhead : ∀ {p' : N} {pred : Option N}, pred = some p' → Heads g t ∧ p' = g.spare →
      p.releasing = false → p.marking = none → Kept (s.setPred t pred) t .held f := by
    rintro p' pred rfl ⟨h1, rfl⟩ h2 h3
    exact hpred ⟨⟨h1, Function.update_self ..⟩, fun _ => ht.node h2,
      fun u hu => nomatch h3.symm.trans (ht.marks u hu)⟩
  revert hn
  fun_cases next t act s p <;> intro hn
  case case1 =>
    cases hn
    exact hstay hk (fun _ => rfl) (.inl rfl)
  case case3 =>
    cases hn
    refine ⟨g.arrive t, hI.arrive hk.1 hk.2 (ht.node rfl), ?_, fun u hu => (hL u).arrive hu⟩
    have harr := hI.arrived (t := t)
    refine Local.same (s := s) rfl ⟨harr, fun _ => ht.node rfl, fun u hu => ?_⟩ rfl rfl
    exact nomatch ht.marks u hu
  case case5 hgrant =>
    cases hn
    exact hhead rfl (hI.granted hk hgrant.1 hgrant.2.1 hgrant.2.2) rfl rfl
  case case6 hmaster =>
    cases hn
    exact hstay (hI.master hk hmaster) (fun _ => rfl) (.inl rfl)
  case case7 =>
    cases hn
    exact hstay hk (fun _ => rfl) (.inl rfl)
  case case9 =>
    cases hn
    exact hstay hk (fun _ => rfl) (.inl rfl)
  case case11 =>
    cases hn
    refine hstay ⟨hk, ?_⟩ (fun _ => rfl) (.inl rfl)
    cases hl : (g.locals (C.getClusterID t)).getLast? with
    | none =>
      have hm := Leads.mem hk
      rw [List.getLast?_eq_none_iff.1 hl] at hm
      cases hm
    | some u => exact ⟨u, List.mem_of_getLast? hl, hI.localTail _ u hl⟩
  case case13 =>
    cases hn
    exact .splice hI hL hf rfl
  case case14 =>
    cases hn
    exact hstay hk.1 (fun _ => rfl) (.inl rfl)
  case case16 =>
    obtain ⟨n, -, hq⟩ := Option.map_eq_some_iff.1 hn
    cases hq
    exact hstay hk (fun _ => rfl) (.inr rfl)
  case case18 =>
    obtain ⟨n, rfl, hq⟩ := Option.map_eq_some_iff.1 hn
    split_ifs at hq with hcas <;> cases hq
    · rw [← hcas.1]
      exact .mark hI hL hf
    · exact hstay hk (fun _ => rfl) (.inr rfl)
  case case20 =>
    obtain ⟨n, rfl, hq⟩ := Option.map_eq_some_iff.1 hn
    split_ifs at hq with hwait <;> cases hq
    · exact hstay hk (fun _ => rfl) (.inr rfl)
    · obtain ⟨p, hp, hb⟩ := hk
      obtain rfl := Option.some.inj hp
      exact hhead rfl (hI.heads hb (by simpa using hwait)) rfl rfl
  case case22 =>
    cases hn
    exact hstay hk (fun _ => rfl) (.inl rfl)
  case case24 =>
    obtain ⟨n, hp, hq⟩ := Option.map_eq_some_iff.1 hn
    cases hq
    refine ⟨g, Inv.same (s := s) rfl hI rfl rfl, ⟨⟨hk.1, hk.2, ht.node rfl⟩, nofun,
      fun u hu => nomatch ht.marks u hu⟩, fun u hu => Local.same (s := s) rfl (hL u) ?_ rfl⟩
    exact Function.update_of_ne hu _ _
  case case26 =>
    obtain ⟨n, hp, hq⟩ := Option.map_eq_some_iff.1 hn
    split_ifs at hq with hcas <;> cases hq
    · have hc := Kept.clear hI hL hf hp
      unfold Shared.clear at hc
      rwa [← hp] at hc
    · exact hstay hk nofun (.inl rfl)
  case case28 =>
    obtain ⟨n, -, hq⟩ := Option.map_eq_some_iff.1 hn
    cases hq
    exact hstay hk nofun (.inl rfl)
  case case30 =>
    obtain ⟨n, rfl, hq⟩ := Option.map_eq_some_iff.1 hn
    split_ifs at hq with hcas <;> cases hq
    · rw [← hcas]
      exact .leave hI hL hf
    · exact hstay hk nofun (.inl rfl)
  all_goals cases hn

omit [DecidableEq τ] [DecidableEq N] in
/-- At first the instance has a node to spare and every thread its own. -/
theorem inv_initial {node : τ → N} {tail : N} (h : Initial node tail s) :
    ∃ g, Inv g s ∧ ∀ t, Local g s t .idle := by
  refine ⟨⟨[], fun _ => [], fun _ => False, fun _ => none, node, tail⟩, ⟨h.nodes, h.ne_tail,
    List.nodup_nil, fun _ => List.nodup_nil, nofun, fun t => ?_, fun t _ => ?_, nofun, nofun,
    h.globalTail, nofun, fun c p _ hp => ?_⟩, fun t => ⟨⟨nofun, nofun⟩, fun _ => h.myNode t, nofun⟩⟩
  · rw [h.state]
    exact ⟨C.clusterID_cleared t, C.successorMustWait_cleared t⟩
  · rw [h.state]
    exact C.tailWhenSpliced_cleared t
  · exact nomatch (h.localTails c).symm.trans hp

omit [DecidableEq τ] [DecidableEq N] in
/-- Whoever holds the lock is the head of the queue. -/
theorem Local.heads (h : Local g s t k) (hk : k.holds = true) : Heads g t := by
  have hp := h.placed
  cases k with
  | held | loadPred | casPred | loadMine | casMine => exact hp.1
  | _ => cases hk

theorem one_holder {c : Conf τ (Shared C N) (PC N)} (h : (system C N).Reachable c) (t u : τ)
    (ht : (c.pc t).holds = true) (hu : (c.pc u).holds = true) : t = u := by
  obtain ⟨g, -, hL⟩ := Program.invariant (P := program C N) Inv Local
    (fun s ⟨node, tail, hs⟩ => inv_initial hs)
    (fun g c t a s' p' _ _ hI hL hn => step hI hL hn) h
  exact ((hL t).heads ht).eq ((hL u).heads hu)

/-- Two threads of one cluster: the first splices both, and grants the lock to the second. -/
theorem one_holder_two : ∃ (C : ClusterTraits (Fin 2))
    (c : Conf (Fin 2) (Shared C (Fin 3)) (PC (Fin 3))), (c.pc 1).holds = true ∧
      ∀ t u, (c.pc t).holds = true → (c.pc u).holds = true → t = u := by
  let C : ClusterTraits (Fin 2) := ⟨1, by decide, fun _ => 0⟩
  let node : Fin 2 → Fin 3 := Fin.castSucc
  let s : Shared C (Fin 3) := ⟨fun n => if n = 2 then 0 else C.cleared 0, fun _ => none, some 2,
    fun t => some (node t), fun _ => none⟩
  let c₀ : Conf (Fin 2) (Shared C (Fin 3)) (PC (Fin 3)) := ⟨s, fun _ => .idle⟩
  let as : List (Fin 2 × Act) := [(0, .lock), (0, .run false), (1, .lock), (1, .run false),
    (0, .run false), (0, .run false), (0, .run false), (0, .run false), (0, .run false),
    (0, .run false), (0, .unlock), (0, .run false), (0, .run false), (0, .run false),
    (0, .run false), (1, .run false)]
  have hex : ((system C (Fin 3)).exec c₀ as).any (fun c => (c.pc 1).holds) = true := by
    decide +kernel
  have hinit : (system C (Fin 3)).init c₀ := by
    refine ⟨⟨node, 2, fun _ _ => Fin.castSucc_inj.1, ?_, ?_, rfl, fun _ => rfl, rfl, fun _ => rfl,
      fun _ => rfl⟩, rfl⟩
    · decide
    · decide
  obtain ⟨c, hc, hheld⟩ := System.exists_reachable hinit hex
  exact ⟨C, c, hheld, one_holder hc⟩

end Steps

end HierarchicalCLHQueueLock

end ConcurrencySandbox

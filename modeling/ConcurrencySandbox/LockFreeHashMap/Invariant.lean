import ConcurrencySandbox.LockFreeHashMap.Steps

/-!
# What holds in every state of the list

Every step of a thread has an `Effect`, with the change of what the list holds that its program
counter tells (`change`), and keeps the thread's place and its side of the hazard pointer domain
(`sound_step`).
-/

namespace ConcurrencySandbox

open Interleaving Structures HazardPointer

namespace LockFreeHashMap

variable {τ A K V : Type*}

def frameOf : PC τ A K V → Frame τ A
  | .domain f | .findRetiring f .. | .removeRetiring f .. => f
  | _ => .ready

/-- What the next step at a program counter does to what the list holds: the successful
compare-and-swap of `add` and the marking one of `remove`. -/
def change [DecidableEq A] (s : Shared τ A K V) : PC τ A K V → Change K V
  | .insertCas c _ pred cur =>
    if (s.heap pred).mNext = (some cur, false) then c.call.adds else .none
  | .removeMark c _ _ cur succ =>
    if (s.heap cur).mNext = (succ, false) then c.call.removes else .none
  | _ => .none

variable {mHash : K → HashValueType} {g g' : Ghost τ A} {s s' : Shared τ A K V} {t u : τ}
  {act : Act A K V} {a b : A} {c : Caller A K V} {h : Holders} {p p' : PC τ A K V}
  {f : τ → PC τ A K V} {ok : Bool} {fr fr' : Frame τ A}

/-- `find` returns at a node that has the name or is behind it. -/
theorem Shape.stops_iff [DecidableEq K] (hG : Shape mHash g s) (ha : a ∈ g.published)
    (c : Call K V) : (s.heap a).Stops (c.hashValue mHash) c.key ↔
      c.hashValue mHash < (s.heap a).mHashValue ∨ (s.heap a).name = c.name mHash := by
  have hnone : (s.heap a).mValue.isNone = true ↔ (s.heap a).key = none := by simp [Node.key]
  unfold Node.Stops
  rw [hnone]
  refine or_congr_right ⟨?_, fun hn => ?_⟩
  · rintro (⟨h1, h2⟩ | ⟨-, h1, h2⟩)
    · cases hk : c.key with
      | none => exact Prod.ext h1.symm (h2.trans hk.symm)
      | some k =>
        rw [Call.hashValue_of_key hk] at h1
        exact absurd h1.symm ((hG.sentinel a ha h2).2 _)
    · exact Prod.ext h1.symm h2
  · have h1 : (s.heap a).mHashValue = c.hashValue mHash := congrArg Prod.fst hn
    have h2 : (s.heap a).key = c.key := congrArg Prod.snd hn
    cases hk : c.key with
    | none => exact .inl ⟨h1.symm, h2.trans hk⟩
    | some k => exact .inr ⟨rfl, h1.symm, h2.trans hk⟩

variable [DecidableEq τ] [DecidableEq A] {δ : Change K V} {e : Hazards.Event (τ × ℕ) A}
    {x : Option A}

/-- What the step theorem says of the thread that moved. -/
def Moves (mHash : K → HashValueType) (g : Ghost τ A) (s : Shared τ A K V) (t : τ)
    (f : τ → PC τ A K V) (act : Act A K V) (δ : Change K V) (s' : Shared τ A K V)
    (p' : PC τ A K V) : Prop :=
  ∃ g' x e, Effect mHash t act x δ g g' s s' e ∧
    Refines 3 s'.domain (Function.update (frameOf ∘ f) t (frameOf p')) g'.hazards ∧
    Placed mHash g' s' t p'

theorem domainStep_spec (hG : Shape mHash g s) (hR : Refines 3 s.domain (frameOf ∘ f) g.hazards)
    (hf : frameOf (f t) = fr) (act : Act A K V) (hs : s.domainStep t ok fr = some (s', fr')) :
    ∃ g' e, Effect mHash t act none .none g g' s s' e ∧
      Refines 3 s'.domain (Function.update (frameOf ∘ f) t fr') g'.hazards ∧
        (InRetire fr → InRetire fr' ∧ ∀ y v, e ≠ .store y v) := by
  revert hs
  unfold Shared.domainStep
  split
  · rename_i d f' b hd
    rintro ⟨⟩
    obtain ⟨he, hR'⟩ := hR.step (hf ▸ hd)
    obtain ⟨g', hE⟩ := free_spec hG t act (d := d) he
    exact ⟨g', _, hE, hE.hazards ▸ hR', step_inRetire hd⟩
  · rename_i d f' e hne hd
    rintro ⟨⟩
    obtain ⟨he, hR'⟩ := hR.step (hf ▸ hd)
    rcases step_event hd with rfl | ⟨i, rfl⟩ | ⟨b, rfl⟩
    · exact ⟨_, _, quiet_spec hG t act d, hR', step_inRetire hd⟩
    · exact ⟨_, _, store_spec hG t act i none, hR', step_inRetire hd⟩
    · exact absurd rfl (hne b)
  · simp

/-- A step outside the domain. -/
theorem Moves.call (hR : Refines 3 s.domain (frameOf ∘ f) g.hazards) (hf : frameOf (f t) = .ready)
    (hE : Effect mHash t act x δ g g' s s' .skip) (hd : s'.domain = s.domain)
    (hf' : frameOf p' = .ready) (hp : Placed mHash g' s' t p') :
    Moves mHash g s t f act δ s' p' := by
  refine ⟨g', x, _, hE, ?_, hp⟩
  rw [hd, hf', hE.hazards]
  exact hR.move (congrArg pending hf.symm) (congrArg (registered 3) hf.symm).le trivial

/-- A step that neither reads nor changes the nodes. -/
theorem Moves.stay (hG : Shape mHash g s) (hR : Refines 3 s.domain (frameOf ∘ f) g.hazards)
    (hf : frameOf (f t) = .ready) (hf' : frameOf p' = .ready) (hp : Placed mHash g s t p') :
    Moves mHash g s t f act .none s p' :=
  .call hR hf (quiet_spec hG t act s.domain) rfl hf' hp

/-- A store to slot `i` leaves the others alone. -/
theorem storeHp_spec (hG : Shape mHash g s) (t : τ) (act : Act A K V) (i : Fin 3) (v : Option A) :
    Effect mHash t act none .none g { g with hazards := g.hazards.apply (.store (t, i) v) } s
      (s.storeHp t i v) (.store (t, i) v) ∧
        ∀ j, j ≠ i → ∀ w a, (.store (t, (i : ℕ)) v : Hazards.Event (τ × ℕ) A) =
        .store (t, (j : Fin 3)) w →
          w = some a := by
  refine ⟨store_spec hG t act i v, fun j hj w a he => absurd (Fin.ext ?_) hj⟩
  exact (Prod.mk.inj (Hazards.Event.store.inj he).1).2.symm

theorem Moves.storeHp (hG : Shape mHash g s) (hR : Refines 3 s.domain (frameOf ∘ f) g.hazards)
    (hf : frameOf (f t) = .ready) {i : Fin 3} {v : Option A} (hf' : frameOf p' = .ready)
    (hp : Placed mHash { g with hazards := g.hazards.apply (.store (t, i) v) }
      (s.storeHp t i v) t p') : Moves mHash g s t f act .none (s.storeHp t i v) p' := by
  have hreg : registered 3 (frameOf (f t)) = 3 := by rw [hf]; rfl
  refine ⟨_, none, _, store_spec hG t act i v, ?_, hp⟩
  rw [hf']
  exact hR.store v (hreg.symm ▸ i.isLt) (congrArg pending hf.symm)
    (congrArg (registered 3) hf.symm).le trivial

omit [DecidableEq τ] [DecidableEq A] in
/-- The sentinel a call starts from. -/
theorem Shape.passed_sentinel (hG : Shape mHash g s) (hleg : c.call.Legal mHash)
    (hb : s.mBuckets c.call.slot = some a) (hp : g.hazards.pointer (t, h.pred) = some a) :
    Passed mHash g s t c h a ∧ (s.heap a).key = none := by
  obtain ⟨h1, h2, h3⟩ := hG.buckets _ a hb
  have hlt : c.call.Strict mHash → (s.heap a).mHashValue < c.call.hashValue mHash := fun hs =>
    h3 ▸ hs
  refine ⟨⟨⟨hG.claimed hp h1, fun hs _ m hm he => ?_⟩, h3 ▸ hleg, fun hs he => ?_⟩, h2⟩
  · have h4 := hG.sorted m a hm
    have h5 : (s.heap m).mHashValue = c.call.hashValue mHash := congrArg Prod.fst he
    have h6 := hlt hs
    bv_omega
  · have h5 : (s.heap a).mHashValue = c.call.hashValue mHash := congrArg Prod.fst he
    have h6 := hlt hs
    bv_omega

omit [DecidableEq τ] [DecidableEq A] in
theorem claimed_spec (hG : Shape mHash g s) {site : Site A} {q : Option A}
    (hleg : c.call.Legal mHash)
    (hst : c.call.isGet = false → Standing mHash g s t c h site)
    (hptr : g.hazards.pointer (t, site.holder h) = q) (hq : q = (s.read c.call.slot site).1)
    (hn : claimed c h (s.read c.call.slot site).2 site q = some p') :
    p'.caller = some c ∧ frameOf p' = .ready ∧ At mHash g s t p' := by
  revert hn
  fun_cases claimed (τ := τ) c h (s.read c.call.slot site).2 site q <;> intro hn
  · cases hn
    exact ⟨rfl, rfl, fun _ => hG.passed_sentinel hleg hq.symm hptr⟩
  · rename_i hget
    cases hn
    exact ⟨rfl, rfl, hget⟩
  · -- the sentinel is not marked
    rename_i pred p hget
    cases hn
    obtain ⟨hpass, hk⟩ := hst (by simpa using hget)
    have hpred := hG.mem_of_unmarked hpass.1.1.1 (hG.sentinel pred hpass.1.1.1 hk).1
    have hl : s.links pred = some p := hq.symm
    refine ⟨rfl, rfl, fun _ => ⟨hpass, hG.claimed hptr (hG.seg.next_mem hpred hl), fun hs => ?_⟩⟩
    exact hG.clear_next hpred hl (hpass.2.2 hs) hpass.2.1 (hpass.1.2 hs)
  · rename_i hget
    obtain ⟨p, -, rfl⟩ := Option.map_eq_some_iff.1 hn
    exact ⟨rfl, rfl, hget⟩
  · rename_i pred cur hget hm
    cases hn
    obtain ⟨hpass, hmet⟩ := hst (by simpa using hget)
    refine ⟨rfl, rfl, ⟨hpass, hmet.1, hm, hq.symm⟩, fun hcur p hp => ?_⟩
    exact hG.claimed (hptr.trans hp) (hG.seg.next_mem hcur (hq.symm.trans hp))
  · rename_i pred cur hget hm
    cases hn
    obtain ⟨hpass, hmet⟩ := hst (by simpa using hget)
    have hcur := hG.mem_of_unmarked hmet.1.1 (Bool.eq_false_of_not_eq_true hm)
    refine ⟨rfl, rfl, hpass, hmet, fun p hp => ?_⟩
    have hl : s.links cur = some p := hq.symm.trans hp
    refine ⟨hG.claimed (hptr.trans hp) (hG.seg.next_mem hcur hl), fun h1 h2 hs => ?_⟩
    exact hG.clear_next hcur hl h2 h1 (hmet.2 hs)
  · cases hn

theorem moves_claim (hG : Shape mHash g s) (hR : Refines 3 s.domain (frameOf ∘ f) g.hazards)
    (hf : frameOf (f t) = frameOf p) (hp : Placed mHash g s t p)
    (hn : nextClaim t act s p = some (s', p')) : Moves mHash g s t f act (change s p) s' p' := by
  obtain ⟨hcall, hp⟩ := hp
  revert hn
  fun_cases nextClaim t act s p <;> intro hn
  · cases hn
    exact .stay hG hR hf rfl ⟨hcall, hp⟩
  · rename_i c h site q ok
    cases hn
    obtain ⟨hE, hs⟩ := storeHp_spec hG t (.run ok) (site.holder h) q
    refine .storeHp hG hR hf rfl ⟨fun d hd => hE.calling nofun (hcall d hd), ?_, ?_⟩
    · exact fun hget => hE.standing hs (hp hget)
    · simp [Hazards.apply]
  · rename_i c h site ok
    obtain ⟨pc, hpc, he⟩ := Option.map_eq_some_iff.1 hn
    cases he
    obtain ⟨h1, h2, h3⟩ := claimed_spec hG (hcall c rfl).1 hp.1 hp.2 rfl hpc
    refine .stay hG hR hf h2 ⟨fun d hd => hcall d (h1.symm.trans hd ▸ rfl), h3⟩
  · cases hn
    exact .stay hG hR hf rfl ⟨hcall, hp.1⟩
  · cases hn

theorem moves_find [DecidableEq K] (hG : Shape mHash g s)
    (hR : Refines 3 s.domain (frameOf ∘ f) g.hazards) (hf : frameOf (f t) = frameOf p)
    (hp : Placed mHash g s t p) (hn : nextFind mHash t act s p = some (s', p')) :
    Moves mHash g s t f act (change s p) s' p' := by
  obtain ⟨hcall, hp⟩ := hp
  revert hn
  fun_cases nextFind mHash t act s p <;> intro hn <;> cases hn
  · -- unlink
    rename_i c h pred cur succ ok hcas
    obtain ⟨⟨hpass, hclaim, hm, rfl⟩, hsucc⟩ := hp
    obtain ⟨g', hE, hcur, hun, hpred, hnext⟩ := unlink_spec hG t (.run ok) hpass.1.1.1 hcas hm
    have hpass' := hE.passed nofun hpass
    refine .call hR hf hE rfl rfl ⟨fun d hd => hE.calling nofun (hcall d hd), hpass',
      hun, fun q hq => ?_⟩
    refine ⟨hE.claimed nofun (hsucc hcur q hq), fun hs => ?_⟩
    refine hE.shape.clear_next hpred ?_ (hpass'.2.2 hs) hpass'.2.1 (hpass'.1.2 hs)
    rw [setNext_links, Function.update_self]
    exact hq
  · exact .stay hG hR hf rfl ⟨hcall, fun _ => trivial⟩
  · rename_i c h pred cur succ ok
    obtain ⟨hE, hs⟩ := storeHp_spec hG t (.run ok) h.cur none
    refine .storeHp hG hR hf rfl ⟨fun d hd => hE.calling nofun (hcall d hd), ?_, ?_, fun q hq => ?_⟩
    · exact hE.passed (fun v => hs h.pred h.apart.1 v _) hp.1
    · exact hE.unlinked nofun hp.2.1
    · exact hE.met (fun v => hs h.succ h.apart.2.2.symm v _) (hp.2.2 q hq)
  · -- retire
    rename_i c h pred cur succ ok
    obtain ⟨hpass, hun, hmet⟩ := hp
    obtain ⟨g', hE⟩ := retire_spec hG (.run ok) hun
    refine ⟨g', _, _, hE, ?_, fun d hd => hE.calling (fun a ha hac => ?_) (hcall d hd), trivial,
      hE.passed nofun hpass, fun q hq => hE.met nofun (hmet q hq)⟩
    · rw [hE.hazards]
      exact hR.retire hf hE.enabled
    · obtain rfl := Option.some.inj hac
      exact ((hcall d hd).2 _ ha).2.1 hun.2
  · rename_i c h pred ok cur
    exact .stay hG hR hf rfl ⟨hcall, fun _ => ⟨hp.2.1, hp.2.2 cur rfl⟩⟩
  · rename_i hs
    obtain ⟨g', e, hE, hR', hret⟩ := domainStep_spec hG hR hf _ hs
    obtain ⟨h1, h2⟩ := hret hp.1
    refine ⟨g', _, e, hE, hR', fun d hd => hE.calling nofun (hcall d hd), h1, ?_, fun q hq => ?_⟩
    · exact hE.passed (fun v hv => absurd hv (h2 _ v)) hp.2.1
    · exact hE.met (fun v hv => absurd hv (h2 _ v)) (hp.2.2 q hq)
  · rename_i c h pred cur succ ok hstop
    obtain ⟨hpass, hmet, -⟩ := hp
    exact .stay hG hR hf rfl ⟨hcall, hpass, hmet.1, (hG.stops_iff hmet.1.1 c.call).1 hstop⟩
  · -- the next node
    rename_i c h pred cur ok hstop succ
    obtain ⟨hpass, hmet, hsucc⟩ := hp
    rw [hG.stops_iff hmet.1.1, not_or, Std.not_lt] at hstop
    obtain ⟨h1, h2⟩ := hsucc succ rfl
    exact .stay hG hR hf rfl ⟨hcall,
      fun _ => ⟨⟨hmet, hstop.1, fun _ => hstop.2⟩, h1, h2 hstop.1 hstop.2⟩⟩
  · rename_i c h pred cur ok
    obtain ⟨hE, hs⟩ := storeHp_spec hG t (.run ok) h.succ none
    exact .storeHp hG hR hf rfl ⟨fun d hd => hE.calling nofun (hcall d hd), hE.returned hs hp⟩

theorem moves_get [DecidableEq K] (hG : Shape mHash g s)
    (hR : Refines 3 s.domain (frameOf ∘ f) g.hazards) (hf : frameOf (f t) = frameOf p)
    (hp : Placed mHash g s t p) (hn : nextGet mHash act s p = some (s', p')) :
    Moves mHash g s t f act (change s p) s' p' := by
  obtain ⟨hcall, hp⟩ := hp
  revert hn
  fun_cases nextGet mHash act s p <;> intro hn <;> cases hn
  · exact .stay hG hR hf rfl ⟨hcall, fun hget => absurd (hp.symm.trans hget) (by simp)⟩
  · exact .stay hG hR hf rfl ⟨hcall, trivial⟩

theorem moves_insert (hG : Shape mHash g s) (hR : Refines 3 s.domain (frameOf ∘ f) g.hazards)
    (hf : frameOf (f t) = frameOf p) (hp : Placed mHash g s t p)
    (hn : nextInsert act s p = some (s', p')) : Moves mHash g s t f act (change s p) s' p' := by
  obtain ⟨hcall, hp⟩ := hp
  revert hn
  fun_cases nextInsert act s p <;> intro hn <;> cases hn
  · rename_i c h pred cur ok newNode hnew
    obtain ⟨hE, hpriv, hl⟩ := setNew_spec hG (.run ok) ((hcall c rfl).2 newNode hnew) (some cur)
    refine .call hR hf hE rfl rfl ⟨fun d hd => ?_, hE.inserting nofun hp, fun a ha => ?_⟩
    · cases hd
      refine ⟨(hcall c rfl).1, fun a ha => ?_⟩
      obtain rfl := Option.some.inj (hnew.symm.trans ha)
      exact hpriv
    · obtain rfl := Option.some.inj (hnew.symm.trans ha)
      exact hl
  · -- link
    rename_i c h pred cur ok newNode hnew hcas
    obtain ⟨hleg, hpriv⟩ := hcall c rfl
    obtain ⟨g', hE, hmem⟩ :=
      link_spec hG (.run ok) hleg hp.1 hcas (hpriv newNode hnew) (hp.2 newNode hnew)
    rw [change, if_pos hcas]
    refine .call hR hf hE rfl rfl ⟨fun d hd => ?_, ?_⟩
    · cases hd
      exact ⟨hleg, nofun⟩
    · obtain ⟨-, -, hname, -⟩ := hpriv newNode hnew
      cases hcc : c.call with
      | insertSentinel parent index =>
        rw [hcc] at hname
        refine ⟨hmem, ?_, ?_⟩
        · rw [setNext_key]
          exact congrArg Prod.snd hname
        · rw [setNext_mHashValue]
          exact congrArg Prod.fst hname
      | _ => trivial
  · rename_i hcas
    rw [change, if_neg hcas]
    exact .stay hG hR hf rfl ⟨hcall, trivial⟩

theorem moves_remove (hG : Shape mHash g s) (hR : Refines 3 s.domain (frameOf ∘ f) g.hazards)
    (hf : frameOf (f t) = frameOf p) (hp : Placed mHash g s t p)
    (hn : nextRemove t act s p = some (s', p')) : Moves mHash g s t f act (change s p) s' p' := by
  obtain ⟨hcall, hp⟩ := hp
  revert hn
  fun_cases nextRemove t act s p <;> intro hn <;> cases hn
  · exact .stay hG hR hf rfl ⟨hcall, hp⟩
  · -- mark
    rename_i c h pred cur succ ok hcas
    obtain ⟨hpass, hclaim, hk, hk'⟩ := hp
    obtain ⟨hE, hm, hl⟩ := mark_spec hG t (.run ok) hclaim.1 hcas hk hk'
    rw [change, if_pos hcas]
    exact .call hR hf hE rfl rfl ⟨fun d hd => hE.calling nofun (hcall d hd), hE.passed nofun hpass,
      hE.claimed nofun hclaim, hm, hl⟩
  · rename_i hcas
    rw [change, if_neg hcas]
    exact .stay hG hR hf rfl ⟨hcall, trivial⟩
  · -- unlink
    rename_i c h pred cur succ ok hcas
    obtain ⟨hpass, hclaim, hm, rfl⟩ := hp
    obtain ⟨g', hE, -, hun, -⟩ := unlink_spec hG t (.run ok) hpass.1.1.1 hcas hm
    exact .call hR hf hE rfl rfl ⟨fun d hd => hE.calling nofun (hcall d hd), hun⟩
  · exact .stay hG hR hf rfl ⟨hcall, trivial⟩
  · rename_i c h pred cur ok
    obtain ⟨hE, -⟩ := storeHp_spec hG t (.run ok) h.cur none
    exact .storeHp hG hR hf rfl ⟨fun d hd => hE.calling nofun (hcall d hd), hp⟩
  · -- retire
    rename_i c h pred cur ok
    obtain ⟨g', hE⟩ := retire_spec hG (.run ok) hp
    refine ⟨g', _, _, hE, ?_, fun d hd => hE.calling (fun a ha hac => ?_) (hcall d hd), trivial⟩
    · rw [hE.hazards]
      exact hR.retire hf hE.enabled
    · obtain rfl := Option.some.inj hac
      exact ((hcall d hd).2 _ ha).2.1 hp.2
  · exact .stay hG hR hf rfl ⟨hcall, trivial⟩
  · rename_i hs
    obtain ⟨g', e, hE, hR', -⟩ := domainStep_spec hG hR hf _ hs
    exact ⟨g', _, e, hE, hR', fun d hd => hE.calling nofun (hcall d hd), trivial⟩

theorem moves_return [DecidableEq K] (hG : Shape mHash g s)
    (hR : Refines 3 s.domain (frameOf ∘ f) g.hazards) (hf : frameOf (f t) = frameOf p)
    (hp : Placed mHash g s t p) (hn : nextReturn mHash t act s p = some (s', p')) :
    Moves mHash g s t f act (change s p) s' p' := by
  obtain ⟨hcall, hp⟩ := hp
  revert hn
  fun_cases nextReturn mHash t act s p <;> intro hn <;> cases hn
  · exact .stay hG hR hf rfl ⟨hcall, trivial⟩
  · rename_i c h pred cur ok node slot key value hcc hne
    refine .stay hG hR hf rfl ⟨hcall, hp.1, hp.2.1, hp.2.2.resolve_right fun hname => hne ?_⟩
    exact ⟨congrArg Prod.fst hname, (congrArg Prod.snd hname).trans (by rw [hcc]; rfl)⟩
  · exact .stay hG hR hf rfl ⟨hcall, trivial⟩
  · rename_i c h pred cur ok node slot key hcc hne
    have hk : c.call.key = some key := by rw [hcc]; rfl
    rw [not_or, not_not, not_not] at hne
    exact .stay hG hR hf rfl ⟨hcall, hp.1, hp.2.1, hne.2.trans hk.symm, by simp [hk]⟩
  · -- the sentinel is there
    rename_i c h pred cur ok node parent index hcc hhash
    have hname : (s.heap cur).name = c.call.name mHash := hp.2.2.resolve_left fun hlt =>
      Std.lt_irrefl (hhash ▸ hlt)
    have hk : (s.heap cur).key = none := (congrArg Prod.snd hname).trans (by rw [hcc]; rfl)
    refine .stay hG hR hf rfl ⟨hcall, ?_, hk, hhash⟩
    exact hG.mem_of_unmarked hp.2.1.1 (hG.sentinel cur hp.2.1.1 hk).1
  · rename_i c h pred cur ok node parent index hcc hne
    refine .stay hG hR hf rfl ⟨hcall, hp.1, hp.2.1, hp.2.2.resolve_right fun hname => hne ?_⟩
    exact congrArg Prod.fst hname
  · rename_i c i slots k ok
    obtain ⟨hE, -⟩ := storeHp_spec hG t (.run ok) i none
    refine .storeHp hG hR hf rfl ⟨fun d hd => hE.calling nofun (hcall d hd), ?_⟩
    cases k with
    | publish a => exact hE.rooting hG hp
    | _ => trivial
  · exact .stay hG hR hf rfl ⟨hcall, fun _ => trivial⟩
  · exact .stay hG hR hf rfl ⟨hcall, hp⟩
  · exact .stay hG hR hf rfl ⟨hcall, trivial⟩
  · exact .stay hG hR hf rfl ⟨hcall, hp⟩
  · exact .stay hG hR hf rfl ⟨hcall, trivial⟩
  · rename_i c a ok parent index hcc
    have hroot : Rooted mHash g s c.call a := hp
    rw [hcc] at hroot
    have hE := publish_spec hG t (.run ok) hroot
    exact .call hR hf hE rfl rfl ⟨fun d hd => hE.calling nofun (hcall d hd), trivial⟩
  · rename_i c r ok newNode hnew
    obtain ⟨g', hE⟩ := delete_spec hG (.run ok) ((hcall c rfl).2 newNode hnew)
    exact .call hR hf hE rfl rfl ⟨nofun, trivial⟩
  · exact .stay hG hR hf rfl ⟨nofun, trivial⟩
  · exact .stay hG hR hf rfl ⟨nofun, trivial⟩

theorem moves_step [DecidableEq K] (hG : Shape mHash g s)
    (hR : Refines 3 s.domain (frameOf ∘ f) g.hazards) (hf : frameOf (f t) = frameOf p)
    (hp : Placed mHash g s t p) (hn : next mHash t act s p = some (s', p')) :
    Moves mHash g s t f act (change s p) s' p' := by
  have exit : ∀ {q : Frame τ A}, pending q = pending (frameOf p) →
      registered 3 q ≤ registered 3 (frameOf p) →
        Scanned g.hazards (s.domain.localDeleteList t) q →
          Moves mHash g s t f act .none s (.domain q) :=
    fun h1 h2 h3 => ⟨g, _, _, quiet_spec hG t act s.domain,
      hR.move (h1.trans (congrArg pending hf.symm))
      (h2.trans (congrArg (registered 3) hf.symm).le) h3,
      nofun, trivial⟩
  have call : ∀ {c : Call K V} {a : A}, s.mBuckets c.slot = some a →
      (s.heap a).mHashValue ≤ c.hashValue mHash → Calling mHash g s t ⟨c, none⟩ :=
    fun hb hle => by
      refine ⟨?_, nofun⟩
      rw [Call.Legal, ← (hG.buckets _ _ hb).2.2]
      exact hle
  revert hn
  fun_cases next mHash t act s p <;> intro hn
  · cases hn
    exact .stay hG hR hf rfl ⟨fun d hd => Option.some.inj hd ▸ call ‹_› ‹_›, rfl⟩
  · cases hn
    exact .stay hG hR hf rfl ⟨fun d hd => Option.some.inj hd ▸ call ‹_› ‹_›, rfl⟩
  · cases hn
    exact .stay hG hR hf rfl ⟨fun d hd => Option.some.inj hd ▸ call ‹_› ‹_›, fun _ => trivial⟩
  · cases hn
    exact .stay hG hR hf rfl ⟨fun d hd => Option.some.inj hd ▸ call ‹_› ‹_›, fun _ => trivial⟩
  · cases hn
  · cases hn
  · rename_i listFirst
    cases hn
    cases listFirst <;> exact exit rfl le_rfl trivial
  · rename_i hs
    cases hn
    obtain ⟨g', e, hE, hR', -⟩ := domainStep_spec hG hR hf _ hs
    exact ⟨g', _, e, hE, hR', nofun, trivial⟩
  · cases hn
  · cases hn
  · cases hn
  · -- make
    rename_i c a ha
    cases hn
    obtain ⟨g', hE, hpriv⟩ := make_spec hG t ha hp.2
    refine .call hR hf hE rfl rfl ⟨fun d hd => ?_, fun _ => trivial⟩
    cases hd
    refine ⟨(hp.1 _ rfl).1, fun b hb => ?_⟩
    exact Option.some.inj hb ▸ hpriv
  · rename_i hs
    cases hn
    exact moves_claim hG hR hf hp hs
  · rename_i hs
    cases hn
    exact moves_find hG hR hf hp hs
  · rename_i hs
    cases hn
    exact moves_get hG hR hf hp hs
  · rename_i hs
    cases hn
    exact moves_insert hG hR hf hp hs
  · rename_i hs
    cases hn
    exact moves_remove hG hR hf hp hs
  · exact moves_return hG hR hf hp hn

/-- In every state: the hazard slots, the list, and what every thread relies on. -/
def Sound (mHash : K → HashValueType) (g : Ghost τ A) (c : Conf τ (Shared τ A K V) (PC τ A K V)) :
    Prop :=
  Shape mHash g c.shared ∧ Refines 3 c.shared.domain (frameOf ∘ c.pc) g.hazards ∧
    ∀ t, Placed mHash g c.shared t (c.pc t)

omit [DecidableEq τ] in
theorem sound_initial (mHash : K → HashValueType) {head last : A} (hne : head ≠ last) :
    ∃ g : Ghost τ A, Sound mHash g
      ⟨(initial head last : Shared τ A K V), fun _ => .domain .unstarted⟩ := by
  have hhead : (initial head last : Shared τ A K V).heap head = ⟨0, none, some last, false⟩ :=
    if_pos rfl
  have hlast : (initial head last : Shared τ A K V).heap last = ⟨maxHashValue, none, none, false⟩ :=
    if_neg hne.symm
  have hkey : ∀ a, ((initial head last : Shared τ A K V).heap a).key = none ∧
      (initial head last : Shared τ A K V).marked a = false ∧
        ∀ i, ((initial head last : Shared τ A K V).heap a).mHashValue ≠
        makeOrdinaryKey i := fun a => by
    by_cases ha : a = head
    · rw [Shared.marked, ha, hhead]
      exact ⟨rfl, rfl, fun i => makeSentinelKey_zero ▸ makeSentinelKey_ne 0 i⟩
    · rw [Shared.marked, show (initial head last : Shared τ A K V).heap a = _ from if_neg ha]
      exact ⟨rfl, rfl, maxHashValue_ne⟩
  refine ⟨⟨⟨fun _ => none, ∅, fun _ => ∅⟩, [head, last], {head, last}, fun _ => none⟩,
    { seg := ⟨rfl, ?_, ?_⟩
      sorted := fun a b hab => ?_
      unique := fun a _ b _ _ hk => absurd (hkey a).1 hk
      listed := fun a ha => ⟨by simpa using ha, id, rfl⟩
      unlinked := fun a ha hl => absurd (by simpa using ha) hl
      ordinary := fun a _ k hk => by cases (hkey a).1.symm.trans hk
      sentinel := fun a _ _ => (hkey a).2
      retired := (by simp)
      allocated := fun a ha => by simpa [initial] using ha
      buckets := fun i a hi => ?_ }, Refines.init 3, fun _ => ⟨by rintro _ ⟨⟩, trivial⟩⟩
  · exact congrArg (·.mNext.1) hhead
  · exact congrArg (·.mNext.1) hlast
  · obtain ⟨rfl, rfl⟩ : a = head ∧ b = last := by simpa [precedes_cons] using hab
    rw [hhead]
    exact Nat.zero_le _
  · obtain ⟨rfl, rfl⟩ : i = 0 ∧ head = a := by simpa [initial] using hi
    exact ⟨List.mem_cons_self, (hkey head).1, by rw [hhead, makeSentinelKey_zero]⟩

variable [DecidableEq K] {C : Conf τ (Shared τ A K V) (PC τ A K V) → τ × Act A K V → Prop}
  {c c' : Conf τ (Shared τ A K V) (PC τ A K V)}

theorem sound_step (h : Sound mHash g c) (hs : (system mHash).step c (t, act) = some c') :
    ∃ g' x e, Effect mHash t act x (change c.shared (c.pc t)) g g' c.shared c'.shared e ∧
      Sound mHash g' c' := by
  obtain ⟨hG, hR, hp⟩ := h
  obtain ⟨s', p', hn, rfl⟩ := Program.step_eq_some.1 hs
  obtain ⟨g', x, e, hE, hR', hp'⟩ := moves_step hG hR rfl (hp t) hn
  refine ⟨g', x, e, hE, hE.shape, by rwa [Function.comp_update], ?_⟩
  exact Program.forall_update hp' fun u hu => hE.placed hG hu (hp u)

theorem sound_reach (h : (system mHash).Reach C c) : ∃ g, Sound mHash g c := by
  refine h.induct (P := fun c => ∃ g, Sound mHash g c) ?_ ?_
  · rintro ⟨s, f⟩ ⟨⟨head, last, hne, rfl⟩, rfl⟩
    exact sound_initial mHash hne
  · rintro c ⟨t, act⟩ c' - ⟨g, hS⟩ - hs
    obtain ⟨g', x, e, -, hS'⟩ := sound_step hS hs
    exact ⟨g', hS'⟩

end LockFreeHashMap

end ConcurrencySandbox

import Babble.Run
import Babble.Listing

/-!
# What a call consists of

A call of `InsertEventAndRunConsensus` on a well-formed session is rejected at the
insertion and leaves everything as it was, or is described by a `Call` : the insertion,
the three passes, and the rounds that were processed one after the other (`Processed`).
What holds in every run is derived from this description.

The host acts between the rounds, on the commit of a block. `Hosted` says what it may
change without disturbing the consensus : blocks, participants that have no events yet,
and the peer-sets of later rounds.
-/

set_option linter.unusedSectionVars false

namespace Babble

variable {C H K : Type} [DecidableEq H] [DecidableEq K] [Hex H] [Hex K]

/-! ## Peer-sets of earlier rounds -/

namespace PeerSetCache

/-- The rounds are in order, and the first peer-set is for all rounds from 0 on. -/
structure Founded (c : PeerSetCache K) : Prop where
  sorted : c.rounds.Pairwise (· < ·)
  mem_rounds : ∀ r, r ∈ c.rounds ↔ r ∈ c.peerSets
  first : ∃ r ∈ c.rounds, r ≤ 0

variable {c c' : PeerSetCache K} {j r : ℤ} {P : PeerSet K}

/-- The recorded round that governs `j` is the last one not above it. -/
theorem situate_spec {rs : List ℤ} (hs : (r :: rs).Pairwise (· < ·)) (hr : r ≤ j) :
    situate j r rs ∈ r :: rs ∧ situate j r rs ≤ j ∧
      ∀ i ∈ r :: rs, i ≤ j → i ≤ situate j r rs := by
  induction rs generalizing r with
  | nil =>
    refine ⟨List.mem_cons_self, hr, fun i hi _ => ?_⟩
    exact (List.mem_singleton.1 hi).le
  | cons r' rs ih =>
    obtain ⟨hlt, hs'⟩ := List.pairwise_cons.1 hs
    rw [situate]
    split_ifs with hj
    · refine ⟨List.mem_cons_self, hr, fun i hi hij => ?_⟩
      rcases List.mem_cons.1 hi with rfl | hi
      · exact le_rfl
      · rcases List.mem_cons.1 hi with rfl | hi
        · omega
        · have := (List.pairwise_cons.1 hs').1 i hi
          omega
    · obtain ⟨h1, h2, h3⟩ := ih hs' (by omega)
      refine ⟨List.mem_cons_of_mem _ h1, h2, fun i hi hij => ?_⟩
      rcases List.mem_cons.1 hi with rfl | hi
      · exact (hlt _ h1).le
      · exact h3 i hi hij

/-- The peer-set for `j` is the one recorded last before or at `j`. -/
theorem Founded.get_eq (hc : c.Founded) (h0 : 0 ≤ j) : ∃ i ∈ c.rounds, i ≤ j ∧
    (∀ k ∈ c.rounds, k ≤ j → k ≤ i) ∧ ∃ Q, c.peerSets.lookup i = some Q ∧ c.get j = .ok Q := by
  have hlook : ∀ i ∈ c.rounds, ∃ Q, c.peerSets.lookup i = some Q := fun i hi =>
    Map.mem_iff_lookup.1 ((hc.mem_rounds i).1 hi)
  unfold get
  cases hl : c.peerSets.lookup j with
  | some Q =>
    refine ⟨j, (hc.mem_rounds j).2 (Map.mem_iff_lookup.2 ⟨Q, hl⟩), le_rfl, fun k _ hk => hk,
      Q, hl, rfl⟩
  | none =>
    obtain ⟨i₀, hi₀, hle⟩ := hc.first
    cases hr : c.rounds with
    | nil => rw [hr] at hi₀; cases hi₀
    | cons r₀ rs =>
      have hs := hc.sorted
      rw [hr] at hs hi₀
      have hr₀ : r₀ ≤ j := by
        rcases List.mem_cons.1 hi₀ with rfl | hi₀
        · omega
        · have := (List.pairwise_cons.1 hs).1 i₀ hi₀
          omega
      obtain ⟨h1, h2, h3⟩ := situate_spec hs hr₀
      obtain ⟨Q, hQ⟩ := hlook _ (hr ▸ h1)
      have hQ' : c.peerSets.lookup (if j < r₀ then r₀ else situate j r₀ rs) = some Q := by
        rw [if_neg (not_lt.2 hr₀), hQ]
      refine ⟨_, h1, h2, h3, Q, hQ, ?_⟩
      simp only [hQ']

/-- A peer-set recorded at `r` is not effective before `r`. -/
theorem Founded.set (hc : c.Founded) (hset : c.set r P = .ok c') :
    c'.Founded ∧ ∀ j, 0 ≤ j → j < r → c'.get j = c.get j := by
  obtain ⟨hnot, hps, hrounds⟩ := set_eq hset
  have hperm := List.perm_insertionSort (· ≤ ·) (c.rounds ++ [r])
  have hmem : ∀ i, i ∈ c'.rounds ↔ i ∈ c.rounds ∨ i = r := fun i => by
    rw [hrounds, hperm.mem_iff, List.mem_append, List.mem_singleton]
  have hc' : c'.Founded := by
    refine ⟨?_, fun i => ?_, ?_⟩
    · have hnd : (c.rounds ++ [r]).Nodup := by
        rw [List.nodup_append]
        refine ⟨hc.sorted.imp ne_of_lt, by simp, fun a ha b hb hab => ?_⟩
        rw [List.mem_singleton] at hb
        exact hnot ((hc.mem_rounds r).1 (hb ▸ hab ▸ ha))
      rw [hrounds]
      exact (List.pairwise_insertionSort (· ≤ ·) _).imp₂
        (fun a b hle hne => lt_of_le_of_ne hle hne) (hperm.nodup_iff.2 hnd)
    · rw [hmem, hc.mem_rounds, hps, AList.mem_insert, or_comm]
    · obtain ⟨i, hi, h0⟩ := hc.first
      exact ⟨i, (hmem i).2 (Or.inl hi), h0⟩
  refine ⟨hc', fun j h0 hj => ?_⟩
  obtain ⟨i, hi, hij, hmax, Q, hQ, hget⟩ := hc.get_eq h0
  obtain ⟨i', hi', hij', hmax', Q', hQ', hget'⟩ := hc'.get_eq h0
  have hii' : i' = i := by
    have h1 := hmax' i ((hmem i).2 (Or.inl hi)) hij
    rcases (hmem i').1 hi' with h2 | rfl
    · exact le_antisymm (hmax i' h2 hij') h1
    · omega
  subst hii'
  rw [hps, AList.lookup_insert_ne (by omega), hQ] at hQ'
  rw [hget', hget, Option.some.inj hQ']

end PeerSetCache

namespace Hashgraph

variable {S : Scheme H K} {A : Assignment H} {D : H → Prop} {q f : ℤ} {h h' h'' : Hashgraph H K}

/-- The same events, rounds and queues, and the same caches but for the numbering of map
visits. -/
structure SameGraph (h h' : Hashgraph H K) : Prop where
  eventCache : h'.store.eventCache = h.store.eventCache
  roundCache : h'.store.roundCache = h.store.roundCache
  lastRound : h'.store.lastRound = h.store.lastRound
  memo : ∃ n, h'.memo = { h.memo with tick := n }
  undeterminedEvents : h'.undeterminedEvents = h.undeterminedEvents
  pendingRounds : h'.pendingRounds = h.pendingRounds
  roundLowerBound : h'.roundLowerBound = h.roundLowerBound

theorem SameGraph.refl (h : Hashgraph H K) : SameGraph h h :=
  ⟨rfl, rfl, rfl, ⟨h.memo.tick, rfl⟩, rfl, rfl, rfl⟩

theorem SameGraph.trans (h1 : SameGraph h h') (h2 : SameGraph h' h'') : SameGraph h h'' where
  eventCache := h2.eventCache.trans h1.eventCache
  roundCache := h2.roundCache.trans h1.roundCache
  lastRound := h2.lastRound.trans h1.lastRound
  memo := by
    obtain ⟨n, hn⟩ := h1.memo
    obtain ⟨m, hm⟩ := h2.memo
    exact ⟨m, by rw [hm, hn]⟩
  undeterminedEvents := h2.undeterminedEvents.trans h1.undeterminedEvents
  pendingRounds := h2.pendingRounds.trans h1.pendingRounds
  roundLowerBound := h2.roundLowerBound.trans h1.roundLowerBound

theorem SameQueues.sameGraph (hu : SameQueues h h') : SameGraph h h' :=
  ⟨hu.eventCache, hu.roundCache, hu.lastRound, ⟨h.memo.tick, hu.memo⟩, hu.undeterminedEvents,
    hu.pendingRounds, hu.roundLowerBound⟩

theorem Opened.sameGraph {fr : Frame H K} (ho : Opened S fr h h') : SameGraph h h' := by
  obtain ⟨n, cc, tot, rfl⟩ := ho
  exact ⟨rfl, rfl, rfl, ⟨n, rfl⟩, rfl, rfl, rfl⟩

/-- What a host may change in its hashgraph on the commit of a block, which is stored by
then. -/
structure Hosted (b : Block K) (h h' : Hashgraph H K) : Prop extends Undisturbed h h' where
  listed : ∀ {B f size n}, Listed B f size n h.store.participantEventsCache →
    Listed B f size n h'.store.participantEventsCache
  founded : 0 ≤ b.body.roundReceived → h.store.peerSetCache.Founded → h'.store.peerSetCache.Founded
  getPeerSet : h.store.peerSetCache.Founded → ∀ j, 0 ≤ j → j ≤ b.body.roundReceived →
    h'.store.getPeerSet j = h.store.getPeerSet j
  frameCache : h.store.sharedRoots = none → h'.store.frameCache = h.store.frameCache
  sharedRoots : h'.store.sharedRoots = h.store.sharedRoots
  lastBlock : b.body.index ≤ h.store.lastBlock → h'.store.lastBlock = h.store.lastBlock
  pendingLoadedEvents : h'.pendingLoadedEvents = h.pendingLoadedEvents

theorem Hosted.refl (b : Block K) (h : Hashgraph H K) : Hosted b h h :=
  ⟨Undisturbed.refl h, id, fun _ => id, fun _ _ _ _ => rfl, fun _ => rfl, rfl, fun _ => rfl, rfl⟩

theorem Hosted.trans {b : Block K} (h1 : Hosted b h h') (h2 : Hosted b h' h'') : Hosted b h h'' where
  toUndisturbed := h1.toUndisturbed.trans h2.toUndisturbed
  listed hl := h2.listed (h1.listed hl)
  founded hr hf := h2.founded hr (h1.founded hr hf)
  getPeerSet hf j h0 hj :=
    (h2.getPeerSet (h1.founded (h0.trans hj) hf) j h0 hj).trans (h1.getPeerSet hf j h0 hj)
  frameCache hs := (h2.frameCache (h1.sharedRoots.trans hs)).trans (h1.frameCache hs)
  sharedRoots := h2.sharedRoots.trans h1.sharedRoots
  lastBlock hb := (h2.lastBlock (hb.trans (h1.lastBlock hb).ge)).trans (h1.lastBlock hb)
  pendingLoadedEvents := h2.pendingLoadedEvents.trans h1.pendingLoadedEvents

/-- Storing a block again. -/
theorem hosted_setBlock {b b' : Block K} (hb : b'.body.index = b.body.index)
    (h : Hashgraph H K) : Hosted b h { h with store := h.store.setBlock b' } := by
  refine ⟨undisturbed_setBlock h b', id, fun _ => id, fun _ _ _ _ => rfl, fun _ => rfl, rfl,
    fun hle => ?_, rfl⟩
  rw [← hb] at hle
  exact if_neg (not_lt.2 hle)

/-- Recording a peer-set for a later round. -/
theorem hosted_setPeerSet {b : Block K} {r : ℤ} {P : PeerSet K} {st : InmemStore H K}
    (hs : h.store.setPeerSet r P = .ok st) (hr : b.body.roundReceived < r) :
    Hosted b h { h with store := st } := by
  have hset : h.store.peerSetCache.set r P = .ok st.peerSetCache ∧
      st.sharedRoots = h.store.sharedRoots ∧ st.lastBlock = h.store.lastBlock := by
    obtain ⟨psc, pec, roots, fc, hset, rfl, -, -⟩ := InmemStore.setPeerSet_eq hs
    exact ⟨hset, rfl, rfl⟩
  obtain ⟨hset, hshared, hlast⟩ := hset
  exact ⟨undisturbed_setPeerSet hs, fun hl => hl.setPeerSet hs, fun _ hf => (hf.set hset).1,
    fun hf j h0 hj => (hf.set hset).2 j h0 (by omega), InmemStore.frameCache_setPeerSet hs,
    hshared, fun _ => hlast, rfl⟩

end Hashgraph

namespace Session

variable {S : Scheme H K} {rt : Runtime} {R : Reading H K} {ps : ℤ → PeerSet K}
  {A : Assignment H} {q n : ℤ} {cb : CommitCallback C H K} {s t s' : Session C H K}
  {i : Input H K}

/-- The host keeps to what it may change. -/
def Hosting (cb : CommitCallback C H K) : Prop :=
  ∀ b s, Hashgraph.Hosted b s.hg (cb b s).hg

theorem Hosting.undisturbing (hcb : Hosting cb) : Undisturbing cb :=
  fun b s => (hcb b s).toUndisturbed

theorem hosting_dummyCommitCallback : Hosting (dummyCommitCallback : CommitCallback C H K) :=
  fun b s => Hashgraph.Hosted.refl b s.hg

/-! ## Processed rounds -/

/-- The rounds after `q`, up to the given one, are processed one after the other. -/
inductive Processed (S : Scheme H K) (rt : Runtime) (cb : CommitCallback C H K)
    (A : Assignment H) (q : ℤ) (s : Session C H K) : ℤ → Session C H K → Prop
  | start : Processed S rt cb A q s q s
  | round {n : ℤ} {t : Session C H K} {info : RoundInfo H} {P : PeerSet K} {fr : Frame H K}
      {h₁ : Hashgraph H K} (ht : Processed S rt cb A q s n t)
      (hinfo : t.hg.store.roundCache.lookup (n + 1) = some info) (hdec : info.decided = true)
      (hP : t.hg.store.getPeerSet (n + 1) = .ok P)
      (hfr : FrameOf rt A t.hg.store.core t.hg.store (n + 1) info P fr)
      (ho : Hashgraph.Opened S fr t.hg h₁) :
      Processed S rt cb A q s (n + 1) (close S cb (n + 1) fr { t with hg := h₁ })

theorem sameGraph_close (hcb : Undisturbing cb) {r : ℤ} {fr : Frame H K} {h₁ : Hashgraph H K}
    (ho : Hashgraph.Opened S fr t.hg h₁) :
    Hashgraph.SameGraph t.hg (close S cb r fr { t with hg := h₁ }).hg :=
  ho.sameGraph.trans (sameQueues_close (S := S) hcb r fr { t with hg := h₁ }).sameGraph

theorem Processed.sameGraph (hcb : Undisturbing cb) (hp : Processed S rt cb A q s n t) :
    Hashgraph.SameGraph s.hg t.hg := by
  induction hp with
  | start => exact Hashgraph.SameGraph.refl _
  | round ht hinfo hdec hP hfr ho ih => exact ih.trans (sameGraph_close hcb ho)

theorem Processed.le (hp : Processed S rt cb A q s n t) : q ≤ n := by
  induction hp with
  | start => exact le_rfl
  | round ht hinfo hdec hP hfr ho ih => omega

theorem Processed.wellFormed (hcb : Undisturbing cb) {D : H → Prop}
    (hw : s.hg.WellFormed S A D q q) (hp : Processed S rt cb A q s n t) :
    t.hg.WellFormed S A D q n := by
  induction hp with
  | start => exact hw
  | @round n t info P fr h₁ ht hinfo hdec hP hfr ho ih =>
    exact (ih.of_opened (fun x e he => InmemStore.core_eq he) (by omega) hinfo hfr ho).of_sameQueues
      (sameQueues_close (S := S) hcb (n + 1) fr { t with hg := h₁ })

/-- The rounds that were processed are decided ones up to the last. -/
theorem Processed.decided (hcb : Undisturbing cb) (hp : Processed S rt cb A q s n t) {r : ℤ}
    (hq : q < r) (hr : r ≤ n) :
    ∃ info, s.hg.store.roundCache.lookup r = some info ∧ info.decided = true := by
  induction hp with
  | start => omega
  | @round n t info P fr h₁ ht hinfo hdec hP hfr ho ih =>
    by_cases hrn : r ≤ n
    · exact ih hrn
    · obtain rfl : r = n + 1 := by omega
      rw [(ht.sameGraph hcb).roundCache] at hinfo
      exact ⟨info, hinfo, hdec⟩

theorem Processed.lastConsensusRound (hcb : Undisturbing cb) (hp : Processed S rt cb A q s n t)
    (hq : s.hg.lastConsensusRound.getD (-1) = q) :
    t.hg.lastConsensusRound.getD (-1) = n := by
  induction hp with
  | start => exact hq
  | @round n t info P fr h₁ ht hinfo hdec hP hfr ho ih =>
    have hlcr : h₁.lastConsensusRound = t.hg.lastConsensusRound := by
      obtain ⟨n, cc, tot, rfl⟩ := ho
      rfl
    rw [lastConsensusRound_close hcb]
    · rfl
    · simp only [hlcr, ih]
      omega

theorem returns_processed (rt : Runtime) (hcb : Undisturbing cb)
    (hw : s.hg.WellFormed S A (· ∈ s.hg.store.eventCache) q q) :
    Exec.Returns (processDecidedRounds S rt cb) s fun _ s' => ∃ n t,
      Processed S rt cb A q s n t ∧
      Exec.exec (processRounds S rt cb s.hg.pendingRounds) s = (.ok (roundsFrom q n, .ok ()), t) ∧
      s' = { t with
        hg := { t.hg with pendingRounds := t.hg.pendingRounds.clean (roundsFrom q n) } } ∧
      s'.hg.WellFormed S A (· ∈ s'.hg.store.eventCache) n n ∧
      ∀ p ∈ s.hg.pendingRounds, p.index = n + 1 → p.decided = false := by
  refine (returns_processDecidedRounds hw (Processed S rt cb A q s) .start
    (fun n t ht => ⟨ht.wellFormed hcb hw, (ht.sameGraph hcb).pendingRounds⟩)
    fun p hp hd t ht => ?_).mono ?_
  · have hsame := ht.sameGraph hcb
    have hwt := ht.wellFormed hcb hw
    obtain ⟨hqp, hpl⟩ := (hw.pending p.index).1 (List.mem_map_of_mem hp)
    obtain ⟨info, hinfo, hdec⟩ := hw.flags p hp hd
    rw [← hsame.roundCache] at hinfo
    obtain ⟨P, hP⟩ := hwt.peerSets.exists_get p.index
    refine (returns_processRound hwt (fun x hx => hsame.eventCache ▸ hx)
      (fun x e he => InmemStore.core_eq he) (by omega) hinfo hP).mono ?_
    rintro _ _ ⟨fr, h₁, hfr, ho, rfl⟩
    obtain ⟨r, hr⟩ : ∃ r, p.index = r + 1 := ⟨p.index - 1, by omega⟩
    rw [hr, add_sub_cancel_right] at ht
    rw [hr] at hinfo hP hfr ⊢
    exact .round ht hinfo hdec hP hfr ho
  · rintro _ s' ⟨n, t, -, hp, hexec, rfl, hwn, hwait⟩
    refine ⟨n, t, hp, hexec, rfl, ?_, hwait⟩
    simp only [(hp.sameGraph hcb).eventCache]
    exact hwn

/-! ## Calls -/

/-- A call that was not rejected, from the session `s` to `s'`, with the rounds up to `q`
processed before. -/
structure Call (S : Scheme H K) (rt : Runtime) (cb : CommitCallback C H K) (R : Reading H K)
    (ps : ℤ → PeerSet K) (A : Assignment H) (q : ℤ) (s : Session C H K) (i : Input H K)
    (s' : Session C H K) where
  ins : Hashgraph.Insertion S s.hg i.event
  (h₁ h₂ h₃ h₄ : Hashgraph H K)
  A' : Assignment H
  n : ℤ
  t : Session C H K
  result : ins.Result A.witness h₁
  consensus : Hashgraph.Consensus S R ps (· ∈ s.hg.store.eventCache) A A' (i.event.hex S) i.event
    h₁ h₂ h₃ h₄
  processed : Processed S rt cb A' q { s with hg := h₄ } n t
  processedIn : Session.processedIn S rt cb s i = roundsFrom q n
  eq : s' = { t with
    hg := { t.hg with pendingRounds := t.hg.pendingRounds.clean (roundsFrom q n) } }
  wellFormed : s'.hg.WellFormed S A' (· ∈ s'.hg.store.eventCache) n n
  waiting : ∀ p ∈ h₄.pendingRounds, p.index = n + 1 → p.decided = false

namespace Call

theorem eventCache₁ (c : Call S rt cb R ps A q s i s') :
    Hashgraph.EventsMarked (s.hg.store.eventCache.insert (i.event.hex S) c.ins.ev)
      c.h₁.store.eventCache :=
  c.result.events_marked

theorem mem_iff₁ (c : Call S rt cb R ps A q s i s') {y : H} :
    y ∈ c.h₁.store.eventCache ↔ y = i.event.hex S ∨ y ∈ s.hg.store.eventCache := by
  rw [c.eventCache₁.mem_iff, AList.mem_insert]

theorem sameGraph (hcb : Undisturbing cb) (c : Call S rt cb R ps A q s i s') :
    s'.hg.store.eventCache = c.h₄.store.eventCache ∧
      s'.hg.store.roundCache = c.h₄.store.roundCache ∧
      s'.hg.store.lastRound = c.h₄.store.lastRound ∧
      s'.hg.undeterminedEvents = c.h₄.undeterminedEvents ∧
      ∃ n, s'.hg.memo = { c.h₄.memo with tick := n } := by
  obtain ⟨ins, h₁, h₂, h₃, h₄, A', n, t, hres, hc, hp, -, rfl, hw⟩ := c
  have hs := hp.sameGraph hcb
  exact ⟨hs.eventCache, hs.roundCache, hs.lastRound, hs.undeterminedEvents, hs.memo⟩

theorem mem_iff (hcb : Undisturbing cb) (c : Call S rt cb R ps A q s i s') {y : H} :
    y ∈ s'.hg.store.eventCache ↔ y = i.event.hex S ∨ y ∈ s.hg.store.eventCache := by
  rw [(c.sameGraph hcb).1, c.consensus.events.mem_iff, c.mem_iff₁]

/-- The signed events after the call. -/
theorem signedEvents_eq (hcb : Undisturbing cb) (c : Call S rt cb R ps A q s i s') :
    signedEvents s'.hg.store.eventCache =
      Function.update (signedEvents s.hg.store.eventCache) (i.event.hex S) (some i.event) := by
  rw [(c.sameGraph hcb).1, c.consensus.events.signedEvents_eq, c.eventCache₁.signedEvents_eq,
    signedEvents_insert, c.ins.signed]

/-- The hashgraphs after the passes are well-formed. -/
theorem wellFormed_passes (hw : s.hg.WellFormed S A (· ∈ s.hg.store.eventCache) q q)
    (c : Call S rt cb R ps A q s i s') :
    c.h₁.WellFormed S A (· ∈ s.hg.store.eventCache) q q ∧
      (∀ y, y ∈ c.h₁.store.eventCache ↔ y ∈ s.hg.store.eventCache ∨ y = i.event.hex S) ∧
      c.h₂.WellFormed S c.A' (· ∈ c.h₁.store.eventCache) q q ∧
      c.h₃.WellFormed S c.A' (· ∈ c.h₁.store.eventCache) q q ∧
      c.h₄.WellFormed S c.A' (· ∈ c.h₁.store.eventCache) q q := by
  have hw₁ := hw.of_insertion c.result
  have hmem : ∀ y, y ∈ c.h₁.store.eventCache ↔ y ∈ s.hg.store.eventCache ∨ y = i.event.hex S :=
    fun y => by rw [c.mem_iff₁, or_comm]
  have hD : (· ∈ c.h₁.store.eventCache) =
      fun y => y ∈ s.hg.store.eventCache ∨ y = i.event.hex S :=
    funext fun y => propext (hmem y)
  obtain ⟨hsp, hop⟩ := c.ins.parents_mem hw.items
  rw [hD]
  exact ⟨hw₁, hmem, hw₁.of_consensus ((hmem _).2 (Or.inr rfl)) hsp hop c.consensus⟩

/-- The participants' events after the insertion are those during the passes. -/
theorem participantEvents₄ (c : Call S rt cb R ps A q s i s') :
    c.h₄.store.participantEventsCache = c.ins.store.participantEventsCache := by
  obtain ⟨ti, sigs, he⟩ := c.result
  obtain ⟨ec, rc, m, pr, us, he₄⟩ := c.consensus.eq
  rw [he₄, he]

/-- The lower bound of a reset stays. -/
theorem roundLowerBound (hcb : Undisturbing cb) (c : Call S rt cb R ps A q s i s') :
    c.h₃.roundLowerBound = s.hg.roundLowerBound ∧
      s'.hg.roundLowerBound = s.hg.roundLowerBound := by
  have hp := (c.processed.sameGraph hcb).roundLowerBound
  obtain ⟨ti, sigs, he₁⟩ := c.result
  obtain ⟨ec₂, rc₂, last, m₂, pr, he₂⟩ := c.consensus.divided.eq
  obtain ⟨rc₃, m₃, dl, he₃, -⟩ := c.consensus.judged
  obtain ⟨ec, rc, m, l, rest, he₄, -⟩ := c.consensus.received
  have h₃ : c.h₃.roundLowerBound = s.hg.roundLowerBound := by
    rw [he₃]
    change c.h₂.roundLowerBound = _
    rw [he₂, he₁]
  refine ⟨h₃, (congrArg (fun s => s.hg.roundLowerBound) c.eq).trans (hp.trans ?_)⟩
  change c.h₄.roundLowerBound = _
  rw [he₄]
  exact h₃

/-- The last round grows by one at most. -/
theorem lastRound₃_le (hw : s.hg.WellFormed S A (· ∈ s.hg.store.eventCache) q q)
    (c : Call S rt cb R ps A q s i s') :
    c.h₃.store.lastRound ≤ s.hg.store.lastRound + 1 := by
  obtain ⟨hw₁, -⟩ := c.wellFormed_passes hw
  obtain ⟨hsp, hop⟩ := c.ins.parents_mem hw.items
  have hle := c.consensus.divided.lastRound_le hw₁ hsp hop
  obtain ⟨pec, hst, -⟩ := Hashgraph.setEvent_eq c.ins.setEvent
  obtain ⟨ti, sigs, he₁⟩ := c.result
  obtain ⟨rc, m, dl, he₃, -⟩ := c.consensus.judged
  rw [show c.h₃.store.lastRound = c.h₂.store.lastRound by rw [he₃]; rfl]
  rwa [show c.h₁.store.lastRound = s.hg.store.lastRound by rw [he₁, hst]] at hle

/-- The rounds that are processed have their witnesses decided before the round-received
pass. -/
theorem witnessesDecided₃ (hcb : Undisturbing cb)
    (hw : s.hg.WellFormed S A (· ∈ s.hg.store.eventCache) q q)
    (c : Call S rt cb R ps A q s i s') {k : ℤ} (hk : k ≤ c.n) {info : RoundInfo H}
    (hinfo : c.h₃.store.roundCache.lookup k = some info) (hlb : c.h₃.belowLowerBound k = false) :
    info.witnessesDecided (ps k) = true := by
  obtain ⟨-, -, -, hw₃, -⟩ := c.wellFormed_passes hw
  have hof : info.decided = true → info.witnessesDecided (ps k) = true := fun h => by
    rw [RoundInfo.witnessesDecided, h, Bool.true_or]
  by_cases hkq : k ≤ q
  · exact hof (hw₃.decided k info hinfo hkq hlb)
  · obtain ⟨info', hinfo', hdec⟩ := c.processed.decided hcb (not_le.1 hkq) hk
    obtain ⟨ec, rc, m, l, rest, he, hrec, -⟩ := c.consensus.received
    have hinfo' : c.h₄.store.roundCache.lookup k = some info' := hinfo'
    rw [he] at hinfo'
    obtain ⟨i, hi, hri⟩ := hrec.rounds.lookup_some hinfo'
    obtain rfl := Option.some.inj (hinfo.symm.trans hi)
    rcases hri.decided with h | h
    · exact hof (h.symm.trans hdec)
    · exact h.symm.trans hdec

/-- The last consensus round is the last one processed. -/
theorem lastConsensusRound (hcb : Undisturbing cb) (c : Call S rt cb R ps A q s i s')
    (hq : s.hg.lastConsensusRound.getD (-1) = q) : s'.hg.lastConsensusRound.getD (-1) = c.n := by
  have hp := c.processed.lastConsensusRound hcb
  obtain ⟨ti, sigs, he₁⟩ := c.result
  obtain ⟨ec, rc, m, pr, us, he₄⟩ := c.consensus.eq
  rw [show s'.hg.lastConsensusRound = c.t.hg.lastConsensusRound from
    congrArg (fun s => s.hg.lastConsensusRound) c.eq]
  refine hp ?_
  change c.h₄.lastConsensusRound.getD (-1) = q
  rw [he₄, he₁]
  exact hq

end Call

/-- A call on a well-formed session, if the coordinates answer acceptably after the
insertion. -/
theorem feed_cases (rt : Runtime) (hcb : Undisturbing cb) (i : Input H K)
    (hw : s.hg.WellFormed S A (· ∈ s.hg.store.eventCache) q q) (hm : s.hg.memo.Coherent S R)
    (hpeers : ∀ j, j ≤ s.hg.store.lastRound + 1 → s.hg.store.getPeerSet j = .ok (ps j))
    (hin : ∀ j, R.Peers (ps j))
    (hR : ∀ (ins : Hashgraph.Insertion S s.hg i.event) (h₁ : Hashgraph H K),
      ins.Result A.witness h₁ → R.Holds S h₁.store) :
    (∃ err ti, ¬Hashgraph.Accepts S rt s.hg i ∧ processedIn S rt cb s i = [] ∧
        Exec.exec (insertEventAndRunConsensus S rt cb i.event i.wire i.fill) s =
          (.error err, { s with hg := { s.hg with topologicalIndex := ti } })) ∨
      ∃ s', Exec.exec (insertEventAndRunConsensus S rt cb i.event i.wire i.fill) s = (.ok (), s') ∧
        Nonempty (Call S rt cb R ps A q s i s') := by
  rcases insertEventAndRunConsensus_cases rt cb i.event i.wire i.fill hw hm hpeers hin hR with
    ⟨err, ti, hins, hpass, he⟩ | ⟨ins, h₁, h₂, h₃, h₄, A', hres, hc, hpass, he⟩
  · refine Or.inl ⟨err, ti, ?_, by simp only [processedIn, hpass], he⟩
    rw [Hashgraph.Accepts, hins]
    exact fun h => by cases h
  right
  have hmem₁ : ∀ y, y ∈ h₁.store.eventCache ↔ y ∈ s.hg.store.eventCache ∨ y = i.event.hex S := by
    obtain ⟨ti, sigs, rfl⟩ := hres
    exact fun y => (ins.mem_events A.witness).trans or_comm
  obtain ⟨hsp, hop⟩ := ins.parents_mem hw.items
  obtain ⟨-, -, hw₄⟩ :=
    (hw.of_insertion hres).of_consensus ((hmem₁ _).2 (Or.inr rfl)) hsp hop hc
  have hD : (fun y => y ∈ s.hg.store.eventCache ∨ y = i.event.hex S) =
      (· ∈ h₄.store.eventCache) := by
    funext y
    rw [eq_iff_iff, hc.events.mem_iff, hmem₁]
  rw [hD] at hw₄
  obtain ⟨⟨⟩, s', hexec, n, t, hp, hrounds, heq, hwn, hwait⟩ :=
    returns_processed (s := { s with hg := h₄ }) rt hcb hw₄
  exact ⟨s', he.trans hexec, ⟨ins, h₁, h₂, h₃, h₄, A', n, t, hres, hc, hp,
    by simp only [processedIn, hpass, hrounds], heq, hwn, hwait⟩⟩

end Session

end Babble

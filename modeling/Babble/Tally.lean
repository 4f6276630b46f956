import Babble.Consistency
import Babble.Ledger

/-!
# Every event is committed once

In a run with honest indexes, each event that is inserted waits among the undetermined
events or is received in one round, rounds are processed one after the other, and what a
processed round has not received it never receives (`HonestRun.exactly_once`).

The last part rests on the peer-sets : a round passes an event over if its famous
witnesses do not all see it or are too few, and how many are enough depends on the
peer-set of the round. A run is `Steady` if no call of it changes the peer-set of a round
that it has processed.
-/

set_option linter.unusedSectionVars false

namespace Babble

variable {C H K : Type} [DecidableEq H] [DecidableEq K] [Hex H] [Hex K]

/-! ## Sight -/

/-- Sight is ancestry. Nothing is said on strong sight. -/
def sightAnswer (G : EventGraph H K) : Reading H K where
  Peers _ := True
  Sees x y b := b = true ↔ G.Anc x y
  StronglySees _ _ _ _ := True

theorem Lineage.holds_sightAnswer {G : EventGraph H K} {st : InmemStore H K}
    (hl : Lineage G (fun _ => True) st.eventCache) (S : Scheme H K) :
    (sightAnswer G).Holds S st where
  sees _ _ hx hy := hl.sees_iff hx hy trivial
  stronglySees _ _ _ _ _ _ := trivial
  hash _ _ _ _ _ _ _ _ _ := trivial

theorem sightDefinite_sightAnswer (G : EventGraph H K) (x : H) :
    Hashgraph.SightDefinite (sightAnswer G) x := by
  intro w htrue hfalse
  exact Bool.false_ne_true (hfalse.2 (htrue.1 rfl))

variable {S : Scheme H K} {U : Universe S}

/-- The number of loaded events among the stored ones. -/
def InmemStore.loadedStored (st : InmemStore H K) : ℕ :=
  st.eventCache.keys.countP fun x => (st.core x).isLoaded

/-! ## Processed rounds pass events over -/

/-- The famous witnesses of round `r` do not all descend from `x`, or are not enough. -/
def InmemStore.PassesOver (st : InmemStore H K) (G : EventGraph H K) (r : ℤ) (x : H) : Prop :=
  ∃ info P, st.roundCache.lookup r = some info ∧ st.getPeerSet r = .ok P ∧
    ((∃ w ∈ info.famousWitnesses, ¬G.Anc w x) ∨ info.famousWitnesses.length < P.superMajority)

/-- The hashgraph holds a part of the universe, sight is ancestry, and the events that wait
were passed over by all processed rounds above their own. -/
structure Hashgraph.Tracked (U : Universe S) (A : Assignment H) (size n : ℕ) (q : ℤ)
    (h : Hashgraph H K) : Prop where
  wellFormed : h.WellFormed S A (· ∈ h.store.eventCache) q q
  stocked : h.Stocked S U.bodies SignedEvent.IsFirst size n
  lineage : Lineage U.graph (fun _ => True) h.store.eventCache
  coherent : h.memo.Coherent S (sightAnswer U.graph)
  unbounded : h.roundLowerBound = none
  accounted : h.Accounted fun _ => True
  passed : ∀ x ∈ h.undeterminedEvents, ∀ r, A.round x < r → r ≤ q →
    h.store.PassesOver U.graph r x

theorem Hashgraph.Tracked.belowLowerBound {A : Assignment H} {size n : ℕ} {q : ℤ}
    {h : Hashgraph H K} (ht : h.Tracked U A size n q) (j : ℤ) : h.belowLowerBound j = false := by
  rw [belowLowerBound_eq_false, ht.unbounded]
  exact fun b hb => by cases hb

/-- The processed rounds are there. -/
theorem Hashgraph.Tracked.le_lastRound {A : Assignment H} {size n : ℕ} {q : ℤ}
    {h : Hashgraph H K} (ht : h.Tracked U A size n q) : q ≤ h.store.lastRound := by
  by_contra hlt
  have htop := ht.wellFormed.top q (not_le.1 hlt) le_rfl
  rw [ht.belowLowerBound] at htop
  cases htop

namespace Session

open Hashgraph

variable {rt : Runtime} {cb : CommitCallback C H K} {ps : ℤ → PeerSet K} {A : Assignment H}
  {size n : ℕ} {q r : ℤ} {s s' : Session C H K} {i : Input H K}

/-- The famous witnesses of a processed round stay the same through the passes of a call. -/
theorem Call.famousWitnesses₃ {R : Reading H K} (c : Call S rt cb R ps A q s i s')
    (hw : s.hg.WellFormed S A (· ∈ s.hg.store.eventCache) q q) (hr : r ≤ q) {info : RoundInfo H}
    (hinfo : s.hg.store.roundCache.lookup r = some info) :
    ∃ info₃, c.h₃.store.roundCache.lookup r = some info₃ ∧
      info₃.famousWitnesses = info.famousWitnesses := by
  obtain ⟨-, -, hw₂, -, -⟩ := c.wellFormed_passes hw
  have h₁ : c.h₁.store.roundCache.lookup r = some info := by
    obtain ⟨pec, hst, -⟩ := setEvent_eq c.ins.setEvent
    obtain ⟨ti, sigs, he⟩ := c.result
    rw [he, hst]
    exact hinfo
  obtain ⟨info₂, h₂, hfw⟩ : ∃ info₂, c.h₂.store.roundCache.lookup r = some info₂ ∧
      info₂.famousWitnesses = info.famousWitnesses := by
    rcases c.consensus.divided with ⟨-, -, ec, rc, he, -, -, hrc⟩ | ⟨-, r', w, t, -, hn⟩
    · exact ⟨info, by rw [he]; exact (hrc r).trans h₁, rfl⟩
    · rw [hn.rounds]
      split_ifs with hrr
      · subst hrr
        rw [h₁]
        exact ⟨_, rfl, RoundInfo.famousWitnesses_addCreatedEvent ..⟩
      · exact ⟨info, h₁, rfl⟩
  -- the fame pass is over the pending rounds, which are above `q`
  obtain ⟨rc, m, dl, he, -, hp⟩ := c.consensus.judged
  refine ⟨info₂, ?_, hfw⟩
  rw [he]
  exact (hp.other r fun hmem => absurd ((hw₂.pending r).1 hmem).1 (by omega)).trans h₂

section Call

variable (hcb : Hosting cb) (ht : s.hg.Tracked U A size n q)
  (c : Call S rt cb (sightAnswer U.graph) ps A q s i s') (hb : i.event.body ∈ U.bodies)
  (hn : n < size)

include hcb ht c hb hn

theorem Call.new : i.event.hex S ∉ s.hg.store.eventCache :=
  (c.stocked hcb ht.wellFormed ht.stocked U.indexed hb hn fun _ h1 h2 => ⟨h1, h2⟩).1

theorem Call.lineage₁ : Lineage U.graph (fun _ => True) c.h₁.store.eventCache :=
  ht.stocked.lineage ht.wellFormed.addressed ht.lineage c.ins hb (fun _ _ => trivial)
    (c.new hcb ht hb hn) c.result

omit hb hn in
theorem Call.belowLowerBound₃ (j : ℤ) : c.h₃.belowLowerBound j = false := by
  rw [belowLowerBound_eq_false, (c.roundLowerBound hcb.undisturbing).1, ht.unbounded]
  exact fun b hb => by cases hb

/-- A round that was processed receives nothing more. -/
theorem Call.receivedIn_eq
    (hpeers : ∀ j, j ≤ s.hg.store.lastRound + 1 → s.hg.store.getPeerSet j = .ok (ps j))
    (hr : r ≤ q) : s'.hg.store.receivedIn r = s.hg.store.receivedIn r := by
  obtain ⟨l, hfrom, hrecv⟩ := c.received hcb.undisturbing
  obtain ⟨new, hl, hsub, hfound⟩ := hfrom.found r
  rw [hrecv, hl, List.nil_append, List.append_right_eq_self, List.eq_nil_iff_forall_not_mem]
  intro x hx
  obtain ⟨info, hinfo, -, hsees, hmany⟩ := (hfound x hx).hits
  have hlast := ht.le_lastRound
  rcases List.mem_append.1 (hsub.subset hx) with hxu | hxn
  · -- the round passed an event over that waited before
    have hxm : x ∈ s.hg.store.eventCache := ((ht.accounted.all x).2 (Or.inl hxu)).1
    have hround : c.A'.round x = A.round x := by
      rcases c.consensus.divided with ⟨-, hA, -⟩ | ⟨hnD, r', w, t, hA, -⟩
      · rw [hA]
      · rw [hA]
        have hne : x ≠ i.event.hex S := fun he => hnD (he ▸ hxm)
        exact Function.update_of_ne hne _ _
    have hle := (hfound x hx).le
    obtain ⟨info₀, P, hinfo₀, hP, hover⟩ := ht.passed x hxu r (by omega) hr
    obtain ⟨info₃, hinfo₃, hfw⟩ := c.famousWitnesses₃ ht.wellFormed hr hinfo₀
    obtain rfl := Option.some.inj (hinfo.symm.trans hinfo₃)
    rw [hpeers r (by omega)] at hP
    obtain rfl := Except.ok.inj hP
    rw [← hfw] at hover
    rcases hover with ⟨w, hw, hanc⟩ | hfew
    · exact hanc ((hsees w hw).1 rfl)
    · omega
  · -- no witness of the round can descend from the new event
    obtain rfl := List.mem_singleton.1 hxn
    have hr0 : 0 ≤ r := by
      have hle := (hfound _ hx).le
      obtain ⟨-, -, hw₂, -, -⟩ := c.wellFormed_passes ht.wellFormed
      have := hw₂.round_nonneg _ (c.mem_iff₁.2 (Or.inl rfl))
      omega
    obtain ⟨info₀, hinfo₀⟩ := Map.mem_iff_lookup.1 (ht.wellFormed.rounds r hr0 (by omega)
      (ht.belowLowerBound r))
    obtain ⟨info₃, hinfo₃, hfw⟩ := c.famousWitnesses₃ ht.wellFormed hr hinfo₀
    obtain rfl := Option.some.inj (hinfo.symm.trans hinfo₃)
    obtain ⟨w, hw⟩ : ∃ w, w ∈ info.famousWitnesses := by
      refine List.exists_mem_of_length_pos ?_
      have : 1 ≤ (ps r).superMajority := Nat.le_add_left 1 _
      omega
    have hanc : U.graph.Anc w (i.event.hex S) := (hsees w hw).1 rfl
    rw [hfw] at hw
    obtain ⟨e, he, -⟩ := RoundInfo.mem_famousWitnesses.1 hw
    have hwm : w ∈ s.hg.store.eventCache :=
      (ht.wellFormed.divided.created r info₀ w e hinfo₀ he).1
    exact c.new hcb ht hb hn (ht.lineage.mem_of_anc (fun _ _ => trivial) hwm hanc trivial)

/-- The last round processed is there after the passes. -/
theorem Call.le_lastRound₃ : c.n ≤ c.h₃.store.lastRound := by
  obtain ⟨-, -, hlast, -, -⟩ := c.sameGraph hcb.undisturbing
  have hlast₃ : s'.hg.store.lastRound = c.h₃.store.lastRound := by
    obtain ⟨ec, rc, m, l, rest, he, -⟩ := c.consensus.received
    rw [hlast, he]
    rfl
  by_contra hlt
  have htop := c.wellFormed.top c.n (by omega) le_rfl
  rw [belowLowerBound_eq_false.2 (by
    rw [(c.roundLowerBound hcb.undisturbing).2, ht.unbounded]
    exact fun b hb => by cases hb)] at htop
  cases htop

/-- The events that still wait were passed over by all rounds that are processed now. -/
theorem Call.passed
    (hpeers : ∀ j, j ≤ s.hg.store.lastRound + 1 → s.hg.store.getPeerSet j = .ok (ps j))
    (hsteady : ∀ j, 0 ≤ j → j ≤ c.n → s'.hg.store.getPeerSet j = s.hg.store.getPeerSet j) {x : H}
    (hx : x ∈ s'.hg.undeterminedEvents) (hxr : c.A'.round x < r) (hr : r ≤ c.n) :
    s'.hg.store.PassesOver U.graph r x := by
  obtain ⟨l, hfrom, -⟩ := c.received hcb.undisturbing
  obtain ⟨-, -, hw₂, hw₃, -⟩ := c.wellFormed_passes ht.wellFormed
  obtain ⟨-, hrc, -, -, -⟩ := c.sameGraph hcb.undisturbing
  have hbelow := c.belowLowerBound₃ hcb ht
  have hlast := c.le_lastRound₃ hcb ht hb hn
  have hxm : x ∈ c.h₁.store.eventCache := by
    rcases List.mem_append.1 (hfrom.rest_sub.subset hx) with hxu | hxn
    · exact c.mem_iff₁.2 (Or.inr ((ht.accounted.all x).2 (Or.inl hxu)).1)
    · exact c.mem_iff₁.2 (Or.inl (List.mem_singleton.1 hxn))
  have hr0 : 0 ≤ c.A'.round x := hw₃.round_nonneg x hxm
  obtain ⟨k, hxk, hstop, hmiss⟩ := hfrom.rest_notFound x hx
  -- the search went beyond `r`, since no decided round ends it
  have hrk : r < k := by
    by_contra hkr
    obtain ⟨info, hinfo⟩ :=
      Map.mem_iff_lookup.1 (hw₃.rounds k (by omega) (by omega) (hbelow k))
    rcases hstop with hlt | hstop
    · omega
    · have := (hstop info hinfo).1
      rw [c.witnessesDecided₃ hcb.undisturbing ht.wellFormed (by omega) hinfo (hbelow k)] at this
      cases this
  obtain ⟨info, hinfo, ⟨-, hover⟩ | ⟨-, hlb⟩⟩ := hmiss r (by omega) hrk
  · obtain ⟨info', hinfo', hfw⟩ : ∃ info', s'.hg.store.roundCache.lookup r = some info' ∧
        info'.famousWitnesses = info.famousWitnesses := by
      obtain ⟨ec, rc, m, l', rest, he, hrec, -⟩ := c.consensus.received
      have hrel := hrec.rounds r
      rw [hinfo] at hrel
      rw [hrc, he]
      change ∃ info', rc.lookup r = some info' ∧ _
      generalize rc.lookup r = o at hrel
      cases hrel with
      | some hrr => exact ⟨_, rfl, hrr.famousWitnesses⟩
    refine ⟨info', ps r, hinfo', ?_, ?_⟩
    · rw [hsteady r (by omega) hr]
      have := c.lastRound₃_le ht.wellFormed
      exact hpeers r (by omega)
    · rw [hfw]
      refine hover.imp_left ?_
      rintro ⟨w, hw, hsees⟩
      exact ⟨w, hw, fun hanc => Bool.false_ne_true (hsees.2 hanc)⟩
  · rw [hbelow r] at hlb
    cases hlb

/-- A call that leaves the peer-sets of the processed rounds keeps the track. -/
theorem Call.tracked
    (hpeers : ∀ j, j ≤ s.hg.store.lastRound + 1 → s.hg.store.getPeerSet j = .ok (ps j))
    (hsteady : ∀ j, 0 ≤ j → j ≤ c.n → s'.hg.store.getPeerSet j = s.hg.store.getPeerSet j) :
    s'.hg.Tracked U c.A' size (n + 1) c.n := by
  have hund := hcb.undisturbing
  obtain ⟨hec, -, -, -, tick, hmemo⟩ := c.sameGraph hund
  refine ⟨c.wellFormed, ?_, ?_, ?_, ?_, ?_, ?_⟩
  · exact (c.stocked hcb ht.wellFormed ht.stocked U.indexed hb hn fun _ h1 h2 => ⟨h1, h2⟩).2
  · rw [hec]
    exact (c.lineage₁ hcb ht hb hn).of_like c.consensus.events
  · obtain ⟨ec, rc, m, l, rest, he, hrec, -⟩ := c.consensus.received
    rw [hmemo, he]
    exact ⟨hrec.memo.coherent.ancestor, hrec.memo.coherent.stronglySee⟩
  · rw [(c.roundLowerBound hund).2, ht.unbounded]
  · exact c.accounted hund ht.accounted (c.new hcb ht hb hn) trivial
      fun x _ => sightDefinite_sightAnswer U.graph x
  · intro x hx r hxr hr
    exact c.passed hcb ht hb hn hpeers hsteady hx hxr hr

end Call

/-! ## Frames and counters -/

section Recorded

variable {t : Recorded C H K} {s s' : Recorded C H K} {fs : List (Frame H K)} {m : ℤ}

/-- The frames hold the events received in their rounds, as they are stored. -/
def Filed (S : Scheme H K) (fs : List (Frame H K)) (h : Hashgraph H K) : Prop :=
  ∀ fr ∈ fs, (fr.events.map fun e => e.core.hex S).Perm (h.store.receivedIn fr.round) ∧
    ∀ e ∈ fr.events, signedEvents h.store.eventCache (e.core.hex S) = some e.core

/-- The frame of a round that a call processes holds the events received in the round. -/
theorem FrameFrom.filed (hcb : Hosting cb) {R : Reading H K}
    (c : Call S rt (traced cb) R ps A q s i s') {pre : List (Frame H K)} {fr : Frame H K}
    (f : FrameFrom S rt cb c.A' q { s with hg := c.h₄ } pre fr) : Filed S [fr] s'.hg := by
  obtain ⟨hec, hrc, -⟩ := c.sameGraph hcb.traced.undisturbing
  have hsame := f.processed.sameGraph hcb.traced.undisturbing
  have hec' : f.t.hg.store.eventCache = s'.hg.store.eventCache :=
    hsame.eventCache.trans hec.symm
  have hinfo : s'.hg.store.roundCache.lookup (f.n + 1) = some f.info := by
    rw [hrc, ← f.round, hsame.roundCache]
  -- the received events are stored under their hashes
  have hcore : ∀ x ∈ f.info.receivedEvents, (f.t.hg.store.core x).hex S = x ∧
      signedEvents s'.hg.store.eventCache x = some (f.t.hg.store.core x) := by
    intro x hx
    obtain ⟨e, he, -⟩ := c.wellFormed.received _ _ hinfo x hx
    have hce : f.t.hg.store.core x = e.toSignedEvent := InmemStore.core_eq (hec' ▸ he)
    rw [hce]
    exact ⟨c.wellFormed.keys x e he, signedEvents_eq_some.2 ⟨e, he, rfl⟩⟩
  intro fr' hfr'
  obtain rfl := List.mem_singleton.1 hfr'
  rw [f.frame.round, f.frame.events, InmemStore.receivedIn_eq hinfo]
  constructor
  · refine ((rt.sort_perm _ _).map _).trans (List.Perm.of_eq ?_)
    rw [List.map_map]
    exact (List.map_congr_left fun x hx => (hcore x hx).1).trans (List.map_id _)
  · intro e he
    obtain ⟨x, hx, rfl⟩ := List.mem_map.1 ((rt.sort_perm _ _).mem_iff.1 he)
    obtain ⟨h1, h2⟩ := hcore x hx
    exact (congrArg _ h1).trans h2

/-- A call keeps the frames and adds those of the rounds that it processes. -/
theorem Call.filed (hcb : Hosting cb) (ht : s.hg.Tracked U A size n q)
    (c : Call S rt (traced cb) (sightAnswer U.graph) ps A q s i s') (hb : i.event.body ∈ U.bodies)
    (hn : n < size)
    (hpeers : ∀ j, j ≤ s.hg.store.lastRound + 1 → s.hg.store.getPeerSet j = .ok (ps j))
    (hl : Ledger S q fs s) (hf : Filed S fs s.hg) :
    ∃ fs', Ledger S c.n fs' s' ∧ Filed S fs' s'.hg := by
  obtain ⟨fs', hl', hframes⟩ := c.ledger hcb hl
  refine ⟨fs ++ fs', hl', fun fr hfr => ?_⟩
  rcases List.mem_append.1 hfr with hfr | hfr
  · obtain ⟨hperm, hstored⟩ := hf fr hfr
    refine ⟨?_, fun e he => ?_⟩
    · rwa [c.receivedIn_eq hcb.traced ht hb hn hpeers (hl.round_le hfr)]
    · rw [c.signedEvents_eq hcb.traced.undisturbing, Function.update_of_ne]
      · exact hstored e he
      · intro heq
        exact c.new hcb.traced ht hb hn
          (heq ▸ signedEvents_isSome.1 ⟨_, hstored e he⟩)
  · obtain ⟨pre, ⟨f⟩⟩ := hframes.of_mem hfr
    exact f.filed hcb c fr (List.mem_singleton.2 rfl)

/-- A processed round takes its loaded events from the pending ones. -/
theorem pendingLoadedEvents_close (hcb : Hosting cb) {fr : Frame H K} {h₁ : Hashgraph H K}
    (ho : Hashgraph.Opened S fr t.hg h₁) :
    (close S (traced cb) r fr { t with hg := h₁ }).hg.pendingLoadedEvents =
      t.hg.pendingLoadedEvents - loadedEvents fr.events := by
  obtain ⟨k, first, he⟩ := Hashgraph.closeRound_eq r fr
    (commitFrame S (traced cb) fr { t with hg := h₁ }).hg
  rw [close, he]
  change (commitFrame S (traced cb) fr { t with hg := h₁ }).hg.pendingLoadedEvents = _
  have h₁l : h₁.pendingLoadedEvents = t.hg.pendingLoadedEvents - loadedEvents fr.events := by
    obtain ⟨k, cc, tot, rfl⟩ := ho
    rfl
  rw [commitFrame_eq, ← h₁l]
  split_ifs
  · rfl
  · exact (hcb.traced _ _).pendingLoadedEvents

/-- The loaded events that are pending or in the consensus order stay the same while rounds
are processed. -/
theorem Processed.pendingLoadedEvents (hcb : Hosting cb) (hl : Ledger S q fs s)
    (hq : s.hg.lastConsensusRound.getD (-1) = q) (hp : Processed S rt (traced cb) A q s m t) :
    t.hg.pendingLoadedEvents + loadedEvents t.hg.consensusOrder =
      s.hg.pendingLoadedEvents + loadedEvents s.hg.consensusOrder := by
  induction hp with
  | start => rfl
  | @round m t info P fr h₁ ht hinfo hdec hP hfr ho ih =>
    obtain ⟨fs', hl', -⟩ := ht.ledger hcb hl
    have hund := hcb.traced.undisturbing
    have hm := ht.lastConsensusRound hund hq
    have hm' := (Processed.round ht hinfo hdec hP hfr ho).lastConsensusRound hund hq
    rw [← ih, pendingLoadedEvents_close hcb ho, consensusOrder, consensusOrder,
      hl'.processedFrames_eq hm, (hl'.close hcb hfr.round ho).processedFrames_eq hm',
      List.flatMap_append, List.flatMap_singleton, loadedEvents, loadedEvents, loadedEvents,
      List.countP_append]
    push_cast
    omega

/-- The number of loaded events that are pending or in the consensus order grows by one with
a loaded event. -/
theorem Call.pendingLoadedEvents (hcb : Hosting cb) {R : Reading H K}
    (c : Call S rt (traced cb) R ps A q s i s') (hl : Ledger S q fs s)
    (hq : s.hg.lastConsensusRound.getD (-1) = q) :
    s'.hg.pendingLoadedEvents + loadedEvents s'.hg.consensusOrder =
      s.hg.pendingLoadedEvents + loadedEvents s.hg.consensusOrder +
        if i.event.isLoaded then 1 else 0 := by
  obtain ⟨hfc, hlcr, hpend⟩ : c.h₄.store.frameCache = s.hg.store.frameCache ∧
      c.h₄.lastConsensusRound = s.hg.lastConsensusRound ∧
      c.h₄.pendingLoadedEvents =
        s.hg.pendingLoadedEvents + if i.event.isLoaded then 1 else 0 := by
    obtain ⟨pec, hst, -⟩ := setEvent_eq c.ins.setEvent
    obtain ⟨ti, sigs, he₁⟩ := c.result
    obtain ⟨ec, rc, mm, pr, us, he₄⟩ := c.consensus.eq
    rw [he₄, he₁, hst]
    exact ⟨rfl, rfl, rfl⟩
  have horder : c.h₄.consensusOrder = s.hg.consensusOrder := by
    rw [consensusOrder, consensusOrder, processedFrames, processedFrames, hfc, hlcr]
  have hl₄ : Ledger S q fs { s with hg := c.h₄ } := hl.of_call c
  have hp := c.processed.pendingLoadedEvents hcb hl₄ ((congrArg (Option.getD · (-1)) hlcr).trans hq)
  have heq : s'.hg.pendingLoadedEvents = c.t.hg.pendingLoadedEvents ∧
      s'.hg.consensusOrder = c.t.hg.consensusOrder :=
    ⟨congrArg (fun s => s.hg.pendingLoadedEvents) c.eq, congrArg (fun s => s.hg.consensusOrder) c.eq⟩
  rw [heq.1, heq.2, hp]
  change c.h₄.pendingLoadedEvents + (loadedEvents c.h₄.consensusOrder : ℤ) = _
  rw [hpend, horder]
  ring

/-- A call with a new event adds it to the stored ones. -/
theorem Call.loadedStored (hcb : Undisturbing cb) {R : Reading H K} {s s' : Session C H K}
    (c : Call S rt cb R ps A q s i s') (hnew : i.event.hex S ∉ s.hg.store.eventCache) :
    (s'.hg.store.loadedStored : ℤ) =
      s.hg.store.loadedStored + if i.event.isLoaded then 1 else 0 := by
  have hkeys : s'.hg.store.eventCache.keys.Perm
      (i.event.hex S :: s.hg.store.eventCache.keys) := by
    refine (List.perm_ext_iff_of_nodup (AList.keys_nodup _)
      (List.nodup_cons.2 ⟨hnew, AList.keys_nodup _⟩)).2 fun y => ?_
    rw [List.mem_cons]
    exact c.mem_iff hcb
  have hcore : ∀ {y e}, signedEvents s'.hg.store.eventCache y = some e →
      s'.hg.store.core y = e := by
    intro y e he
    obtain ⟨ev, hev, rfl⟩ := signedEvents_eq_some.1 he
    exact InmemStore.core_eq hev
  have hsig := c.signedEvents_eq hcb
  have hold : ∀ y ∈ s.hg.store.eventCache.keys,
      (s'.hg.store.core y).isLoaded = (s.hg.store.core y).isLoaded := by
    intro y hy
    obtain ⟨ev, hev⟩ := Map.mem_iff_lookup.1 (show y ∈ s.hg.store.eventCache from hy)
    have hne : y ≠ i.event.hex S := fun he => hnew (he ▸ hy)
    rw [InmemStore.core_eq hev, hcore (e := ev.toSignedEvent)]
    rw [hsig, Function.update_of_ne hne]
    exact signedEvents_eq_some.2 ⟨ev, hev, rfl⟩
  rw [InmemStore.loadedStored, InmemStore.loadedStored, hkeys.countP_eq, List.countP_cons,
    List.countP_congr fun y hy => by rw [hold y hy],
    hcore (e := i.event) (by rw [hsig, Function.update_self])]
  push_cast
  rfl

end Recorded

/-! ## The rounds that a run processes -/

/-- The rounds that the calls of a run process, in order. -/
def processedRounds (S : Scheme H K) (rt : Runtime) (cb : CommitCallback C H K) :
    Session C H K → List (Input H K) → List ℤ
  | _, [] => []
  | s, i :: is => processedIn S rt cb s i ++ processedRounds S rt cb (feed S rt cb s i) is

/-- Each round after the last processed one is processed once, and in order. -/
theorem processedRounds_eq (rt : Runtime) (hcb : Undisturbing cb) (is : List (Input H K)) :
    ∀ {q : ℤ} {s : Session C H K}, Sound S q s → ∃ q', q ≤ q' ∧ Sound S q' (run S rt cb s is) ∧
      processedRounds S rt cb s is = roundsFrom q q' := by
  induction is with
  | nil => exact fun {q} _ hs => ⟨q, le_rfl, hs, (roundsFrom_self q).symm⟩
  | cons i is ih =>
    intro q s hs
    obtain ⟨q₁, hle, hs₁, hin⟩ : ∃ q₁, q ≤ q₁ ∧ Sound S q₁ (feed S rt cb s i) ∧
        processedIn S rt cb s i = roundsFrom q q₁ := by
      rcases hs.feed_cases rt hcb i with ⟨err, ti, -, hnone, he⟩ | ⟨s', ps, A, he, hw, ⟨c⟩⟩
      · refine ⟨q, le_rfl, ?_, by rw [hnone, roundsFrom_self]⟩
        rw [feed, he]
        obtain ⟨⟨A, hw⟩, hlcr⟩ := hs
        exact ⟨⟨A, hw.of_sameQueues (hosted_topologicalIndex (blockBefore 0) s.hg ti).toSameQueues⟩,
          hlcr⟩
      · rw [feed, he]
        exact ⟨c.n, c.processed.le, ⟨⟨c.A', c.wellFormed⟩, c.lastConsensusRound hcb
          hs.lastConsensusRound⟩, c.processedIn⟩
    obtain ⟨q₂, hle', hs₂, hrest⟩ := ih hs₁
    refine ⟨q₂, hle.trans hle', hs₂, ?_⟩
    rw [Session.processedRounds, hin, hrest, roundsFrom_append hle hle']

end Session

/-! ## Runs -/

/-- A node that starts with `Init` : the calls that it gets, whose events have honest indexes
and hashes that tell them apart, no more than its caches hold events. The events may fork
and be rejected, and the host may change peer-sets. -/
structure HonestRun (C : Type) (S : Scheme H K) where
  rt : Runtime
  commitCallback : CommitCallback C H K
  hosting : Session.Hosting commitCallback
  cacheSize : ℕ
  genesis : PeerSet K
  host : C
  inputs : List (Session.Input H K)
  indexed : Indexed S (Session.bodiesOf inputs)
  noEviction : inputs.length ≤ cacheSize

namespace HonestRun

variable (d : HonestRun C S)

/-- The node after `Init`. -/
def start : Session C H K :=
  ⟨d.host, Hashgraph.initial d.cacheSize d.genesis⟩

/-- The node after some calls. -/
def after (is : List (Session.Input H K)) : Session C H K :=
  Session.run S d.rt d.commitCallback d.start is

/-- The node after its calls. -/
def session : Session C H K :=
  d.after d.inputs

/-- The node after some calls, with a record of its commits. -/
def recorded (is : List (Session.Input H K)) : Session.Recorded C H K :=
  Session.run S d.rt (Session.traced d.commitCallback) ⟨(d.host, []), d.start.hg⟩ is

theorem recorded_hg (is : List (Session.Input H K)) : (d.recorded is).hg = (d.after is).hg :=
  congrArg Session.hg (Session.untraced_run S d.rt d.commitCallback ⟨(d.host, []), d.start.hg⟩ is)

/-- The blocks that the node commits. -/
def blocks : List (Block K) :=
  (Session.commits S d.rt d.commitCallback d.start d.inputs).map Prod.fst

/-- The rounds that the node processes, in order. -/
def processedRounds : List ℤ :=
  Session.processedRounds S d.rt d.commitCallback d.start d.inputs

/-- No call changes the peer-set of a round that is processed when it returns. -/
def Steady : Prop :=
  ∀ pre i, pre ++ [i] <+: d.inputs → ∀ j, 0 ≤ j →
    j ≤ (d.after (pre ++ [i])).hg.lastConsensusRound.getD (-1) →
    (d.after (pre ++ [i])).hg.store.getPeerSet j = (d.after pre).hg.store.getPeerSet j

/-- The events that the node stores. -/
def events : Universe S :=
  universeOf d.indexed (Session.stocked_run (c := d.host) (Hashgraph.init_initial d.cacheSize d.genesis) d.rt
    d.hosting d.indexed d.noEviction)

/-- The event of a call that is accepted is stored. -/
theorem stored_of_accepts {pre : List (Session.Input H K)} {i : Session.Input H K}
    (hpre : pre ++ [i] <+: d.inputs) (hacc : Hashgraph.Accepts S d.rt (d.after pre).hg i) :
    signedEvents d.session.hg.store.eventCache (i.event.hex S) = some i.event :=
  Session.signedEvents_run (Hashgraph.init_initial d.cacheSize d.genesis) d.rt d.hosting d.indexed
    d.noEviction hpre hacc

/-- What holds after some calls : every event is accounted for, the frames are filed, and
the loaded events are counted. -/
structure Tallied (n : ℕ) (q : ℤ) (s : Session.Recorded C H K) : Prop where
  tracked : ∃ A, s.hg.Tracked d.events A d.cacheSize n q
  lastConsensusRound : s.hg.lastConsensusRound.getD (-1) = q
  filed : ∃ fs, Session.Ledger S q fs s ∧ Session.Filed S fs s.hg
  loaded : s.hg.pendingLoadedEvents + Hashgraph.loadedEvents s.hg.consensusOrder =
    s.hg.store.loadedStored

theorem tallied_start : d.Tallied 0 (-1) ⟨(d.host, []), d.start.hg⟩ := by
  have hi : (Hashgraph.new (InmemStore.new d.cacheSize)).init d.genesis = .ok d.start.hg :=
    Hashgraph.init_initial d.cacheSize d.genesis
  obtain ⟨hec, hrc, hmemo, hlb, hund, hlcr, -⟩ := Session.init_eq hi
  have hw := Session.wellFormed_init (S := S) hi ⟨fun _ => 0, fun _ => false, fun _ => 0⟩
  have hl := Session.ledger_init (S := S) hi d.host
  have hlcr' : d.start.hg.lastConsensusRound.getD (-1) = -1 := by
    rw [hlcr]
    rfl
  refine ⟨⟨_, hw, Session.stocked_init hi _ _, ?_, ?_, hlb, Session.accounted_init hi _, ?_⟩,
    hlcr', ⟨[], hl, fun _ h => (by cases h)⟩, ?_⟩
  · change Lineage d.events.graph _ d.start.hg.store.eventCache
    rw [hec]
    exact ⟨fun he => (by cases he), fun hx => absurd hx (AList.notMem_empty _),
      fun he => (by cases he), fun he => (by cases he)⟩
  · change d.start.hg.memo.Coherent S _
    rw [hmemo]
    exact ⟨fun x y b hb => (by cases hb), fun x y P b _ hb => (by cases hb)⟩
  · intro x hx
    change x ∈ d.start.hg.undeterminedEvents at hx
    rw [hund] at hx
    cases hx
  · change d.start.hg.pendingLoadedEvents + _ = (d.start.hg.store.eventCache.keys.countP _ : ℤ)
    rw [Hashgraph.consensusOrder, hl.processedFrames_eq hlcr', hec]
    rfl

/-- An event that is accepted is among the stored ones at the end. -/
theorem body_mem {pre : List (Session.Input H K)} {i : Session.Input H K}
    (hpre : pre ++ [i] <+: d.inputs) (hacc : Hashgraph.Accepts S d.rt (d.after pre).hg i) :
    i.event.body ∈ d.events.bodies :=
  ⟨_, _, d.stored_of_accepts hpre hacc, rfl⟩

/-- A call that is rejected changes nothing that counts. -/
theorem Tallied.rejected {d : HonestRun C S} {n : ℕ} {q : ℤ} {s : Session.Recorded C H K}
    (h : d.Tallied n q s) (ti : ℤ) :
    d.Tallied (n + 1) q { s with hg := { s.hg with topologicalIndex := ti } } := by
  have hq := (hosted_topologicalIndex (blockBefore 0) s.hg ti).toSameQueues
  obtain ⟨⟨A, ht⟩, hlcr, ⟨fs, hl, hf⟩, hloaded⟩ := h
  refine ⟨⟨A, ht.wellFormed.of_sameQueues hq, ?_, ht.lineage, ht.coherent, ht.unbounded,
    ht.accounted.of_sameQueues hq, ht.passed⟩, hlcr, ⟨fs, hl.topologicalIndex ti, hf⟩, hloaded⟩
  exact ⟨ht.stocked.body, ht.stocked.listed.mono (Nat.le_succ n)⟩

/-- One more call. -/
theorem Tallied.step {d : HonestRun C S} (hsteady : d.Steady) {pre : List (Session.Input H K)}
    {i : Session.Input H K} (hpre : pre ++ [i] <+: d.inputs) {q : ℤ}
    (h : d.Tallied pre.length q (d.recorded pre)) :
    (∃ q', d.Tallied (pre.length + 1) q' (d.recorded (pre ++ [i]))) ∧
      ∀ r ≤ q, (d.recorded (pre ++ [i])).hg.store.receivedIn r =
        (d.recorded pre).hg.store.receivedIn r := by
  have hn := hpre.length_le.trans d.noEviction
  rw [List.length_append, List.length_singleton] at hn
  have hstep : d.recorded (pre ++ [i]) =
      Session.feed S d.rt (Session.traced d.commitCallback) (d.recorded pre) i :=
    Session.run_append_singleton ..
  obtain ⟨⟨A, ht⟩, hlcr, ⟨fs, hl, hf⟩, hloaded⟩ := id h
  choose ps hps using fun j => ht.wellFormed.peerSets.exists_get j
  have hund := d.hosting.traced.undisturbing
  have hmem : Hashgraph.Accepts S d.rt (d.recorded pre).hg i → i.event.body ∈ d.events.bodies :=
    fun hacc => d.body_mem hpre (by rwa [d.recorded_hg] at hacc)
  have hholds : Hashgraph.Accepts S d.rt (d.recorded pre).hg i →
      ∀ (ins : Hashgraph.Insertion S (d.recorded pre).hg i.event) (h₁ : Hashgraph H K),
        ins.Result A.witness h₁ → (sightAnswer d.events.graph).Holds S h₁.store := by
    intro hacc ins h₁ hres
    have hnew := (ht.stocked.insertion ht.wellFormed.addressed ins d.events.indexed (hmem hacc) hn
      fun _ h1 h2 => ⟨h1, h2⟩).1
    exact (ht.stocked.lineage ht.wellFormed.addressed ht.lineage ins (hmem hacc) (fun _ _ => trivial) hnew
      hres).holds_sightAnswer S
  rcases Session.accepts_cases d.rt hund ht.wellFormed ht.coherent (fun j _ => hps j)
    (fun _ => trivial) hholds with ⟨ti, he⟩ | ⟨hacc, ⟨c⟩⟩
  · rw [hstep, he]
    exact ⟨⟨q, h.rejected ti⟩, fun _ _ => rfl⟩
  · have hb := hmem hacc
    rw [← hstep] at c
    have hlcr' := c.lastConsensusRound hund hlcr
    have hkeep : ∀ j, 0 ≤ j → j ≤ c.n →
        (d.recorded (pre ++ [i])).hg.store.getPeerSet j =
          (d.recorded pre).hg.store.getPeerSet j := by
      intro j hj hjn
      have := hsteady pre i hpre j hj
      rw [← d.recorded_hg, ← d.recorded_hg, hlcr'] at this
      exact this hjn
    have hnew := c.new d.hosting.traced ht hb hn
    obtain ⟨fs', hl', hf'⟩ := c.filed d.hosting ht hb hn (fun j _ => hps j) hl hf
    refine ⟨⟨c.n, ⟨c.A', c.tracked d.hosting.traced ht hb hn (fun j _ => hps j) hkeep⟩, hlcr',
      ⟨fs', hl', hf'⟩, ?_⟩, fun r hr =>
        c.receivedIn_eq d.hosting.traced ht hb hn (fun j _ => hps j) hr⟩
    rw [c.pendingLoadedEvents d.hosting hl hlcr, hloaded, c.loadedStored hund hnew]

theorem tallied {d : HonestRun C S} (hsteady : d.Steady) {pre : List (Session.Input H K)}
    (hpre : pre <+: d.inputs) : ∃ q, d.Tallied pre.length q (d.recorded pre) := by
  refine Session.run_induct_along (P := fun pre s => ∃ q, d.Tallied pre.length q s) d.inputs
    ⟨-1, d.tallied_start⟩ (fun pre i hpre h => ?_) pre hpre
  obtain ⟨q, hq⟩ := h
  rw [List.length_append, List.length_singleton]
  obtain ⟨q', hq'⟩ := (Tallied.step hsteady hpre hq).1
  exact ⟨q', by rwa [recorded, Session.run_append_singleton] at hq'⟩

/-- The rounds up to the last consensus round are processed, each once and in order. -/
theorem processedRounds_eq :
    d.processedRounds = Session.roundsFrom (-1) (d.session.hg.lastConsensusRound.getD (-1)) := by
  obtain ⟨q, -, hs, he⟩ := Session.processedRounds_eq d.rt d.hosting.undisturbing d.inputs
    (Session.sound_init (S := S) (Hashgraph.init_initial d.cacheSize d.genesis) d.host)
  rw [session, show (d.after d.inputs).hg.lastConsensusRound.getD (-1) = q from hs.2]
  exact he

/-- A processed round receives nothing more. -/
theorem receivedIn_eq {d : HonestRun C S} (hsteady : d.Steady) {pre : List (Session.Input H K)}
    {i : Session.Input H K} (hpre : pre ++ [i] <+: d.inputs) {r : ℤ}
    (hr : r ≤ (d.after pre).hg.lastConsensusRound.getD (-1)) :
    (d.after (pre ++ [i])).hg.store.receivedIn r = (d.after pre).hg.store.receivedIn r := by
  obtain ⟨q, h⟩ := d.tallied hsteady ((List.prefix_append pre [i]).trans hpre)
  have hq := h.lastConsensusRound
  rw [d.recorded_hg] at hq
  have := (Tallied.step hsteady hpre h).2 r (by omega)
  rwa [d.recorded_hg, d.recorded_hg] at this

/-- The hashes of the consensus events, in order. -/
def order : List H :=
  d.session.hg.consensusOrder.map fun e => e.core.hex S

section Order

variable {d} (hsteady : d.Steady)

include hsteady

/-- The frames of the processed rounds, with what they hold. -/
theorem exists_frames : ∃ fs q, d.session.hg.lastConsensusRound.getD (-1) = q ∧
    d.session.hg.processedFrames = fs ∧ Session.Ledger S q fs (d.recorded d.inputs) ∧
    Session.Filed S fs d.session.hg := by
  obtain ⟨q, -, hq, ⟨fs, hl, hf⟩, -⟩ := d.tallied hsteady (List.prefix_refl d.inputs)
  have hfs := hl.processedFrames_eq hq
  rw [d.recorded_hg] at hq hf hfs
  exact ⟨fs, q, hq, hfs, hl, hf⟩

theorem accounted : d.session.hg.Accounted fun _ => True := by
  obtain ⟨q, ⟨A, ht⟩, -⟩ := d.tallied hsteady (List.prefix_refl d.inputs)
  rw [d.recorded_hg] at ht
  exact ht.accounted

/-- The consensus events are those received in the processed rounds. -/
theorem mem_order {x : H} :
    x ∈ d.order ↔ ∃ r ∈ d.processedRounds, x ∈ d.session.hg.store.receivedIn r := by
  obtain ⟨fs, q, hq, hfs, hl, hf⟩ := d.exists_frames hsteady
  have hrounds : ∀ r, r ∈ fs.map Frame.round ↔ r ∈ d.processedRounds := by
    intro r
    rw [hl.rounds, d.processedRounds_eq, hq, Session.mem_roundsFrom]
    simp only [List.mem_map, List.mem_range]
    constructor
    · rintro ⟨k, hk, hkr⟩
      omega
    · exact fun h => ⟨r.toNat, by omega, by omega⟩
  rw [order, Hashgraph.consensusOrder, hfs, List.map_flatMap, List.mem_flatMap]
  constructor
  · rintro ⟨fr, hfr, hx⟩
    exact ⟨fr.round, (hrounds _).1 (List.mem_map_of_mem hfr), (hf fr hfr).1.mem_iff.1 hx⟩
  · rintro ⟨r, hr, hx⟩
    obtain ⟨fr, hfr, rfl⟩ := List.mem_map.1 ((hrounds r).2 hr)
    exact ⟨fr, hfr, (hf fr hfr).1.mem_iff.2 hx⟩

/-- No event is in the consensus order twice. -/
theorem nodup_order : d.order.Nodup := by
  obtain ⟨fs, q, hq, hfs, hl, hf⟩ := d.exists_frames hsteady
  have hacc := d.accounted hsteady
  rw [order, Hashgraph.consensusOrder, hfs, List.map_flatMap, List.nodup_flatMap]
  refine ⟨fun fr hfr => (hf fr hfr).1.nodup_iff.2 (hacc.received _), ?_⟩
  -- frames of different rounds have no event in common
  have hne : fs.Pairwise fun fr fr' => fr.round ≠ fr'.round := by
    rw [← List.pairwise_map, hl.rounds]
    exact (List.nodup_range.map Nat.cast_injective)
  refine hne.imp_of_mem fun {fr fr'} hfr hfr' hround x hx hx' => hround ?_
  exact hacc.once _ _ x ((hf fr hfr).1.mem_iff.1 hx) ((hf fr' hfr').1.mem_iff.1 hx')

/-- The loaded events that are not in the consensus order are pending. -/
theorem pendingLoadedEvents_eq : d.session.hg.pendingLoadedEvents =
    ((d.session.hg.store.eventCache.keys.filter fun x => x ∉ d.order).countP
      fun x => (d.session.hg.store.core x).isLoaded : ℕ) := by
  obtain ⟨fs, q, hq, hfs, hl, hf⟩ := d.exists_frames hsteady
  obtain ⟨q', -, -, -, hloaded⟩ := d.tallied hsteady (List.prefix_refl d.inputs)
  rw [d.recorded_hg] at hloaded
  change d.session.hg.pendingLoadedEvents + _ = (d.session.hg.store.loadedStored : ℤ) at hloaded
  have hstored : ∀ e ∈ d.session.hg.consensusOrder,
      signedEvents d.session.hg.store.eventCache (e.core.hex S) = some e.core := by
    intro e he
    rw [Hashgraph.consensusOrder, hfs] at he
    obtain ⟨fr, hfr, he⟩ := List.mem_flatMap.1 he
    exact (hf fr hfr).2 e he
  have hperm : (d.session.hg.store.eventCache.keys.filter fun x => x ∈ d.order).Perm d.order := by
    refine (List.perm_ext_iff_of_nodup ((AList.keys_nodup _).filter _)
      (d.nodup_order hsteady)).2 fun x => ?_
    rw [List.mem_filter, decide_eq_true_eq]
    refine ⟨fun h => h.2, fun h => ⟨?_, h⟩⟩
    obtain ⟨e, he, rfl⟩ := List.mem_map.1 h
    exact signedEvents_isSome.1 ⟨_, hstored e he⟩
  have hcount : d.order.countP (fun x => (d.session.hg.store.core x).isLoaded) =
      Hashgraph.loadedEvents d.session.hg.consensusOrder := by
    rw [order, List.countP_map]
    refine List.countP_congr fun e he => ?_
    obtain ⟨ev, hev, hcore⟩ := signedEvents_eq_some.1 (hstored e he)
    rw [Function.comp, InmemStore.core_eq hev, hcore]
  change _ + (Hashgraph.loadedEvents d.session.hg.consensusOrder : ℤ) = _ at hloaded
  rw [InmemStore.loadedStored, List.countP_eq_countP_filter_add _ _ fun x => decide (x ∈ d.order),
    hperm.countP_eq, hcount] at hloaded
  push_cast at hloaded
  simp only [decide_not]
  omega

/-- The blocks are numbered from 0 on, in the order of their rounds. -/
theorem blocks_spec :
    d.blocks.map (fun b => b.body.index) = (List.range d.blocks.length).map (fun k : ℕ => (k : ℤ)) ∧
    (d.blocks.map fun b => b.body.roundReceived).Pairwise (· < ·) ∧
    d.blocks.flatMap (fun b => b.body.transactions) =
      d.session.hg.consensusOrder.flatMap fun e => e.core.body.transactions := by
  obtain ⟨fs, q, -, hfs, hl, -⟩ := d.exists_frames hsteady
  have hblocks : d.blocks = blocksFrom S 0 fs := hl.committed
  rw [hblocks, Hashgraph.consensusOrder, hfs, transactions_blocksFrom, List.flatMap_assoc]
  refine ⟨?_, ?_, rfl⟩
  · rw [map_index_blocksFrom]
    simp only [zero_add]
  · refine List.Pairwise.sublist roundReceived_blocksFrom ?_
    rw [hl.rounds, List.pairwise_map]
    exact List.pairwise_lt_range.imp Int.ofNat_lt.2

end Order

/-- A node with fixed peers. -/
def ofStatic {P : PeerSet K} (d : StaticRun C U P) : HonestRun C S where
  rt := d.rt
  commitCallback := d.commitCallback
  hosting := d.static.hosting
  cacheSize := d.cacheSize
  genesis := P
  host := d.host
  inputs := d.inputs
  indexed := U.indexed.mono fun _ ⟨i, hi, hb⟩ => hb ▸ d.bodies i hi
  noEviction := d.noEviction

theorem steady_ofStatic {P : PeerSet K} (d : StaticRun C U P) : (ofStatic d).Steady := by
  intro pre i _ j _ _
  have hs := Session.sound_init (S := S) (Hashgraph.init_initial d.cacheSize P) d.host
  have hkeep : ∀ is, ((ofStatic d).after is).hg.store.getPeerSet j =
      d.start.hg.store.getPeerSet j := by
    intro is
    rw [InmemStore.getPeerSet, InmemStore.getPeerSet]
    exact congrArg (PeerSetCache.get · j) (d.static.run d.rt hs is)
  rw [hkeep, hkeep]

end HonestRun

namespace Sample

/-- The events of a validator that goes on alone, each with a transaction. -/
def busy (n : ℕ) : List (SignedEvent Bytes Bytes) :=
  (List.range n).map fun k =>
    let e := event k 1 k (if k = 0 then none else some (k - 1)) none []
    { e with body := { e.body with transactions := [[UInt8.ofNat k]] } }

def busyEvents : Universe scheme :=
  .ofList scheme ((busy 5).map SignedEvent.body) (by decide +kernel) (by decide +kernel)
    (by decide +kernel) (by decide +kernel)

/-- A node whose only peer is the validator. -/
def busyNode : StaticRun Unit busyEvents ⟨[peer 1]⟩ :=
  nodeWith ⟨[peer 1]⟩ (busy 5) (fun _ he => List.mem_map_of_mem he) (by decide)

end Sample

end Babble

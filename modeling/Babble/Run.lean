import Babble.Framing

/-!
# One call of `InsertEventAndRunConsensus`

An insertion fails without consequence, or the three passes run through and the decided
rounds are processed. `Consensus` describes the passes, relative to a reading of the
queries; `returns_processRounds` is the loop rule for the processing of rounds.

The commit callback is the host's. What is asked of it here is that it leaves the events,
the rounds and the queues alone (`Undisturbed`).
-/

set_option linter.unusedSectionVars false

namespace Babble

variable {C H K : Type} [DecidableEq H] [DecidableEq K] [Hex H] [Hex K]

namespace Hashgraph

variable {S : Scheme H K} {rt : Runtime} {R : Reading H K} {ps : ℤ → PeerSet K}
  {A A' : Assignment H} {D : H → Prop} {q f : ℤ} {h h' : Hashgraph H K}

/-! ## The passes -/

/-- The division after the insertion of `x`, which was known or gets its values now. -/
def DividedTo (S : Scheme H K) (R : Reading H K) (ps : ℤ → PeerSet K) (D : H → Prop)
    (A A' : Assignment H) (x : H) (e : SignedEvent H K) (h h' : Hashgraph H K) : Prop :=
  (D x ∧ A' = A ∧ Redivided D h h') ∨
    (¬D x ∧ ∃ r w t, A' = A.set x r w t ∧ NewlyDivided S R ps A h x e r w t h')

section Division

variable {x : H} {e : SignedEvent H K}

theorem WellFormed.of_dividedTo (hw : WellFormed S A D q f h) (hxs : x ∈ h.store.eventCache)
    (hsp : ∀ p, e.body.selfParent = some p → D p) (hop : ∀ p, e.body.otherParent = some p → D p)
    (hd : DividedTo S R ps D A A' x e h h') : WellFormed S A' (fun y => D y ∨ y = x) q f h' := by
  rcases hd with ⟨hx, rfl, hr⟩ | ⟨hx, r, w, t, rfl, hn⟩
  · have hD : (fun y => D y ∨ y = x) = D := by
      funext y
      exact propext ⟨fun hy => hy.elim id fun heq => heq ▸ hx, Or.inl⟩
    rw [hD]
    exact hw.of_redivided hr
  · exact hw.of_newlyDivided hxs hx hsp hop hn

/-- The last round grows by one at most. -/
theorem DividedTo.lastRound_le (hd : DividedTo S R ps D A A' x e h h')
    (hw : WellFormed S A D q f h) (hsp : ∀ p, e.body.selfParent = some p → D p)
    (hop : ∀ p, e.body.otherParent = some p → D p) :
    h'.store.lastRound ≤ h.store.lastRound + 1 := by
  rcases hd with ⟨-, -, ec, rc, rfl, -⟩ | ⟨-, r, w, t, -, hn⟩
  · simp
  · have hr := hn.roundOf.le (parentValue_le hw.divided hw.last hsp hop) hw.last
    obtain ⟨ec, rc, m, rfl⟩ := hn.eq
    exact max_le (by omega) hr

theorem DividedTo.events (hd : DividedTo S R ps D A A' x e h h') :
    EventsLike h.store.eventCache h'.store.eventCache := by
  rcases hd with ⟨-, -, ec, rc, rfl, hec, -⟩ | ⟨-, r, w, t, -, hn⟩
  · exact hec
  · exact hn.events

theorem DividedTo.coherent (hd : DividedTo S R ps D A A' x e h h') (hm : h.memo.Coherent S R) :
    h'.memo.Coherent S R := by
  rcases hd with ⟨-, -, ec, rc, rfl, -⟩ | ⟨-, r, w, t, -, hn⟩
  · exact hm
  · exact hn.coherent

/-- The division changes events, rounds, caches and the pending rounds only. -/
theorem DividedTo.eq (hd : DividedTo S R ps D A A' x e h h') : ∃ ec rc last m pr, h' =
    { h with
      store := { h.store with eventCache := ec, roundCache := rc, lastRound := last }
      memo := m
      pendingRounds := pr } := by
  rcases hd with ⟨-, -, ec, rc, rfl, -⟩ | ⟨-, r, w, t, -, hn⟩
  · exact ⟨ec, rc, _, _, _, rfl⟩
  · obtain ⟨ec, rc, m, rfl⟩ := hn.eq
    exact ⟨ec, rc, _, m, _, rfl⟩

end Division

/-- The three passes after the insertion of `x` : the states after the division, the fame
pass and the round-received pass. -/
structure Consensus (S : Scheme H K) (R : Reading H K) (ps : ℤ → PeerSet K) (D : H → Prop)
    (A A' : Assignment H) (x : H) (e : SignedEvent H K) (h₁ h₂ h₃ h₄ : Hashgraph H K) : Prop where
  divided : DividedTo S R ps D A A' x e h₁ h₂
  judged : ∃ rc m dl, h₃ = { h₂.withRounds rc m with pendingRounds := h₂.pendingRounds.update dl } ∧
    h₂.memo.Extends S R m ∧ Passed R ps h₂.store h₂.pendingRounds h₂.store.roundCache rc dl
  received : ∃ ec rc m l rest, h₄ = { h₃.withEvents ec rc m with undeterminedEvents := rest } ∧
    Receiving S R ps h₃ l ec rc m ∧
    ReceivedFrom R ps h₃ A'.round h₃.undeterminedEvents (fun _ => []) l rest

/-- Every pass keeps the hashgraph well-formed. -/
theorem WellFormed.of_consensus {x : H} {e : SignedEvent H K} {h₁ h₂ h₃ h₄ : Hashgraph H K}
    (hw : WellFormed S A D q f h₁) (hxs : x ∈ h₁.store.eventCache)
    (hsp : ∀ p, e.body.selfParent = some p → D p) (hop : ∀ p, e.body.otherParent = some p → D p)
    (hc : Consensus S R ps D A A' x e h₁ h₂ h₃ h₄) :
    WellFormed S A' (fun y => D y ∨ y = x) q f h₂ ∧ WellFormed S A' (fun y => D y ∨ y = x) q f h₃ ∧
      WellFormed S A' (fun y => D y ∨ y = x) q f h₄ := by
  have hw₂ := hw.of_dividedTo hxs hsp hop hc.divided
  obtain ⟨rc, m, dl, rfl, hm, hp⟩ := hc.judged
  have hw₃ := hw₂.of_passed hm.same hp
  obtain ⟨ec, rc', m', l, rest, rfl, hs, hr⟩ := hc.received
  exact ⟨hw₂, hw₃, hw₃.of_received hs hr⟩

/-- The passes change no more than the fields of consensus in events. -/
theorem Consensus.events {x : H} {e : SignedEvent H K} {h₁ h₂ h₃ h₄ : Hashgraph H K}
    (hc : Consensus S R ps D A A' x e h₁ h₂ h₃ h₄) :
    EventsLike h₁.store.eventCache h₄.store.eventCache := by
  obtain ⟨rc, m, dl, rfl, -, -⟩ := hc.judged
  obtain ⟨ec, rc', m', l, rest, rfl, hs, -⟩ := hc.received
  exact hc.divided.events.trans hs.events

/-- The passes change events, rounds, caches and the queues only. -/
theorem Consensus.eq {x : H} {e : SignedEvent H K} {h₁ h₂ h₃ h₄ : Hashgraph H K}
    (hc : Consensus S R ps D A A' x e h₁ h₂ h₃ h₄) : ∃ ec rc m pr us, h₄ =
    { h₁ with
      store := { h₁.store with
        eventCache := ec, roundCache := rc, lastRound := h₂.store.lastRound }
      memo := m
      pendingRounds := pr
      undeterminedEvents := us } := by
  obtain ⟨rc, m, dl, rfl, -, -⟩ := hc.judged
  obtain ⟨ec, rc', m', l, rest, rfl, -, -⟩ := hc.received
  obtain ⟨ec₂, rc₂, last, m₂, pr, rfl⟩ := hc.divided.eq
  exact ⟨_, _, _, _, _, rfl⟩

/-- The passes return, if the coordinates answer acceptably after the insertion. -/
theorem returns_consensus {us : List H} {x : H} {e : Event H K} (hw : WellFormed S A D q f h)
    (hD : ∀ y, y ∈ h.store.eventCache → D y ∨ y = x) (hu : h.undeterminedEvents = us ++ [x])
    (hus : ∀ y ∈ us, D y) (he : h.store.eventCache.lookup x = some e) (hround : e.round = none)
    (hlam : e.lamportTimestamp = none) (hsp : ∀ p, e.body.selfParent = some p → D p)
    (hop : ∀ p, e.body.otherParent = some p → D p) (hR : R.Holds S h.store)
    (hm : h.memo.Coherent S R)
    (hpeers : ∀ j, j ≤ h.store.lastRound + 1 → h.store.getPeerSet j = .ok (ps j))
    (hin : ∀ j, R.Peers (ps j)) :
    Exec.Returns (divideRounds S rt) h fun _ h₂ => Exec.Returns (decideFame S rt) h₂ fun _ h₃ =>
      Exec.Returns (decideRoundReceived S rt) h₃ fun _ h₄ =>
        ∃ A', Consensus S R ps D A A' x e.toSignedEvent h h₂ h₃ h₄ := by
  have hdiv : Exec.Returns (divideRounds S rt) h fun _ h₂ =>
      ∃ A', DividedTo S R ps D A A' x e.toSignedEvent h h₂ := by
    by_cases hx : D x
    · refine (returns_divideRounds_of_divided (fun y hy => ?_) hw.divided hw.undecidedQueued).mono
        fun _ h₂ h2 => ⟨A, Or.inl ⟨hx, rfl, h2⟩⟩
      rw [hu] at hy
      rcases List.mem_append.1 hy with hy | hy
      · exact hus y hy
      · rwa [List.mem_singleton.1 hy]
    · exact (returns_divideRounds_of_new hu hus hw.divided hw.undecidedQueued hR hm he hx hround hlam
        hsp hop hpeers hin hw.last).mono fun _ h₂ ⟨r, w, t, hn⟩ =>
          ⟨_, Or.inr ⟨hx, r, w, t, rfl, hn⟩⟩
  refine hdiv.mono fun _ h₂ ⟨A', hd⟩ => ?_
  have hw₂ := hw.of_dividedTo (Map.mem_iff_lookup.2 ⟨e, he⟩) hsp hop hd
  have hlike := hd.events
  have hpeers₂ : ∀ j, j ≤ h₂.store.lastRound → h₂.store.getPeerSet j = .ok (ps j) := by
    intro j hj
    rw [← hpeers j (hj.trans (hd.lastRound_le hw hsp hop))]
    obtain ⟨ec, rc, last, m, pr, rfl⟩ := hd.eq
    rfl
  refine (hw₂.returns_decideFame (hR.of_like hlike) (hd.coherent hm) hpeers₂ hin).mono ?_
  rintro _ _ ⟨rc, m, dl, rfl, hm₃, hp⟩
  refine ((hw₂.of_passed hm₃.same hp).returns_decideRoundReceived
    (fun y hy => hD y (hlike.mem_iff.1 hy)) (hR.of_like hlike) hm₃.coherent hpeers₂).mono ?_
  rintro _ _ ⟨ec, rc', m', l, rest, rfl, hs, hr⟩
  exact ⟨A', hd, ⟨rc, m, dl, rfl, hm₃, hp⟩, ec, rc', m', l, rest, rfl, hs, hr⟩

/-- The inserted event as it is stored. -/
theorem Insertion.lookup_events {event : SignedEvent H K} (i : Insertion S h event)
    (wit : H → Bool) : ∃ e, (i.events wit).lookup (event.hex S) = some e ∧
      e.toSignedEvent = event ∧ e.round = none ∧ e.lamportTimestamp = none := by
  obtain ⟨e, he, hm⟩ := (i.events_marked wit).lookup (AList.lookup_insert _)
  refine ⟨e, he, ?_, ?_, ?_⟩
  · rw [hm.eq]
    exact i.signed
  · rw [hm.eq]
    exact i.round_eq
  · rw [hm.eq]
    exact i.lamport_eq

end Hashgraph

/-! ## Decided rounds -/

namespace Hashgraph

variable {S : Scheme H K} {rt : Runtime} {A : Assignment H} {D : H → Prop} {q f : ℤ}
  {h h' : Hashgraph H K} {core : H → SignedEvent H K}

/-- The last consensus events after the events of a list. -/
def consensusEvents (S : Scheme H K) (evs : List (FrameEvent H K)) (m : Map K H) : Map K H :=
  evs.foldl (fun m e => m.insert e.core.creator (e.core.hex S)) m

/-- The number of loaded events in a list. -/
def loadedEvents (evs : List (FrameEvent H K)) : ℕ :=
  evs.countP fun e => e.core.isLoaded

/-- The number of transactions in a list of events. -/
def transactionCount (evs : List (FrameEvent H K)) : ℕ :=
  (evs.flatMap fun e => e.core.body.transactions).length

/-- The hashgraph with a frame stored and its events entered as consensus events. -/
def Opened (S : Scheme H K) (fr : Frame H K) (h h' : Hashgraph H K) : Prop :=
  ∃ n cc tot, h' =
    { h with
      store := { h.store with
        frameCache := h.store.frameCache.insert fr.round fr
        consensusCache := cc
        totConsensusEvents := tot
        lastConsensusEvents := consensusEvents S fr.events h.store.lastConsensusEvents }
      memo := { h.memo with tick := n }
      consensusTransactions := h.consensusTransactions + transactionCount fr.events
      pendingLoadedEvents := h.pendingLoadedEvents - loadedEvents fr.events }

theorem foldl_addConsensusEvent (evs : List (FrameEvent H K)) (h : Hashgraph H K) :
    ∃ cc tot, evs.foldl (addConsensusEvent S) h =
      { h with
        store := { h.store with
          consensusCache := cc
          totConsensusEvents := tot
          lastConsensusEvents := consensusEvents S evs h.store.lastConsensusEvents }
        consensusTransactions := h.consensusTransactions + transactionCount evs
        pendingLoadedEvents := h.pendingLoadedEvents - loadedEvents evs } := by
  induction evs generalizing h with
  | nil => exact ⟨h.store.consensusCache, h.store.totConsensusEvents, by
      simp [transactionCount, loadedEvents, consensusEvents]⟩
  | cons e evs ih =>
    obtain ⟨cc, tot, he⟩ := ih (addConsensusEvent S h e)
    refine ⟨cc, tot, ?_⟩
    have htxs : (addConsensusEvent S h e).consensusTransactions + transactionCount evs =
        h.consensusTransactions + transactionCount (e :: evs) := by
      simp [addConsensusEvent, transactionCount, add_assoc]
    have hloaded : (addConsensusEvent S h e).pendingLoadedEvents - loadedEvents evs =
        h.pendingLoadedEvents - loadedEvents (e :: evs) := by
      simp only [addConsensusEvent, loadedEvents, List.countP_cons]
      split_ifs <;> push_cast <;> omega
    rw [List.foldl_cons, he, htxs, hloaded]
    rfl

theorem WellFormed.framable (hw : WellFormed S A D q f h)
    (hD : ∀ x, x ∈ h.store.eventCache → D x)
    (hcore : ∀ x e, h.store.eventCache.lookup x = some e → core x = e.toSignedEvent) :
    Query.Framable A core h.store h.memo where
  core := hcore
  round x hx := hw.divided.round x (hD x hx)
  lamport x hx := hw.divided.lamport x (hD x hx)
  recorded x hx := by
    obtain ⟨info, e, hi, he⟩ := hw.divided.recorded x (hD x hx)
    exact ⟨info, e, hi, he, (hw.divided.created _ info x e hi he).2.2⟩
  items := hw.items

/-- Opening a round that has no frame yet. -/
theorem returns_openRound (hw : WellFormed S A D q f h) (hD : ∀ x, x ∈ h.store.eventCache → D x)
    (hcore : ∀ x e, h.store.eventCache.lookup x = some e → core x = e.toSignedEvent) {r : ℤ}
    (hr : f < r) {info : RoundInfo H} {P : PeerSet K} (hinfo : h.store.roundCache.lookup r = some info)
    (hP : h.store.getPeerSet r = .ok P) :
    Exec.Returns (openRound S rt r) h fun fr h' =>
      FrameOf rt A core h.store r info P fr ∧ Opened S fr h h' := by
  have hfw : ∀ w ∈ info.famousWitnesses, w ∈ h.store.eventCache := by
    intro w hwf
    obtain ⟨e, he, -⟩ := Map.mem_keysWith.1 hwf
    exact hw.divided.stored w (hw.divided.created r info w e hinfo he).1
  have hnone : h.store.getFrame r = .error (.store "FrameCache" .keyNotFound) := by
    have : h.store.frameCache.lookup r = none :=
      AList.lookup_eq_none.2 fun hmem => absurd (hw.frames r hmem) (by omega)
    simp [InmemStore.getFrame, this]
  refine Exec.Returns.bind (returns_read (a := info) (by simp [InmemStore.getRound, hinfo]) ?_)
  refine Exec.Returns.bind (Exec.returns_attempt (Exec.Returns.bind (Exec.returns_get ?_)))
  rw [hnone]
  refine Exec.Returns.bind (returns_query ((Query.returns_computeFrame (hw.framable hD hcore)
    hw.consensus hinfo hP (hw.received r info hinfo) hfw).mono ?_))
  rintro fr _ ⟨hfr, n, rfl⟩
  refine Exec.Returns.bind (returns_modifyStore (Exec.returns_pure ?_))
  refine Exec.Returns.bind (Exec.returns_modify (Exec.returns_pure ⟨hfr, ?_⟩))
  obtain ⟨cc, tot, he⟩ := foldl_addConsensusEvent (S := S) fr.events
    { h with store := h.store.setFrame fr, memo := { h.memo with tick := n } }
  exact ⟨n, cc, tot, he⟩

/-- The last consensus events are old ones or from the list. -/
theorem lookup_consensusEvents {evs : List (FrameEvent H K)} {m : Map K H} {k : K} {x : H}
    (h : (consensusEvents S evs m).lookup k = some x) :
    (∃ e ∈ evs, e.core.hex S = x) ∨ m.lookup k = some x := by
  induction evs generalizing m with
  | nil => exact Or.inr h
  | cons e evs ih =>
    rcases ih h with ⟨e', he', hx⟩ | hx
    · exact Or.inl ⟨e', List.mem_cons_of_mem e he', hx⟩
    · rw [Map.lookup_insert_ite] at hx
      split_ifs at hx with hk
      · exact Or.inl ⟨e, List.mem_cons_self, Option.some.inj hx⟩
      · exact Or.inr hx

/-- The events of a frame are stored under their hashes. -/
theorem WellFormed.mem_of_frame (hw : WellFormed S A D q f h)
    (hcore : ∀ x e, h.store.eventCache.lookup x = some e → core x = e.toSignedEvent) {r : ℤ}
    {info : RoundInfo H} {P : PeerSet K} {fr : Frame H K}
    (hinfo : h.store.roundCache.lookup r = some info) (hfr : FrameOf rt A core h.store r info P fr)
    {e : FrameEvent H K} (he : e ∈ fr.events) :
    ∃ x ∈ info.receivedEvents, e = frameEvent A core x ∧ e.core.hex S = x := by
  rw [hfr.events] at he
  obtain ⟨x, hx, rfl⟩ := List.mem_map.1 (rt.mem_sort.1 he)
  obtain ⟨ev, hev, -⟩ := hw.received r info hinfo x hx
  have hkey : (core x).hex S = x := by
    rw [hcore x ev hev]
    exact hw.keys x ev hev
  exact ⟨x, hx, rfl, hkey⟩

theorem WellFormed.of_opened (hw : WellFormed S A D q f h)
    (hcore : ∀ x e, h.store.eventCache.lookup x = some e → core x = e.toSignedEvent) {r : ℤ}
    (hr : f < r) {info : RoundInfo H} {P : PeerSet K} {fr : Frame H K}
    (hinfo : h.store.roundCache.lookup r = some info) (hfr : FrameOf rt A core h.store r info P fr)
    (ho : Opened S fr h h') : WellFormed S A D q r h' := by
  obtain ⟨n, cc, tot, rfl⟩ := ho
  refine ⟨hw.keys, ⟨hw.divided.stored, hw.divided.round, hw.divided.round_none, hw.divided.witness,
      hw.divided.witness_none, hw.divided.lamport, hw.divided.lamport_cached, hw.divided.created,
      hw.divided.recorded, hw.divided.le_last⟩, hw.round_nonneg, hw.items, fun k x hx => ?_,
    hw.undetermined, hw.received, hw.peerSets, hw.last, hw.le, hw.lowerBound, hw.rounds, hw.top,
    hw.sorted, hw.pending, hw.decided, hw.flags, fun j hj => ?_⟩
  · rcases lookup_consensusEvents hx with ⟨e, he, rfl⟩ | hx
    · obtain ⟨x, hx, -, heq⟩ := hw.mem_of_frame hcore hinfo hfr he
      rw [heq]
      exact (hw.received r info hinfo x hx).mem
    · exact hw.consensus k x hx
  · rcases (AList.mem_insert _).1 hj with rfl | hj
    · exact hfr.round.le
    · exact (hw.frames j hj).trans hr.le

/-- The same events, rounds, caches and queues. -/
structure SameQueues (h h' : Hashgraph H K) : Prop where
  eventCache : h'.store.eventCache = h.store.eventCache
  roundCache : h'.store.roundCache = h.store.roundCache
  lastRound : h'.store.lastRound = h.store.lastRound
  lastConsensusEvents : h'.store.lastConsensusEvents = h.store.lastConsensusEvents
  frames : ∀ j, j ∈ h'.store.frameCache → j ∈ h.store.frameCache
  items : ∀ x, h'.store.participantEventsCache.Holds x → h.store.participantEventsCache.Holds x
  peerSets : h.store.peerSetCache.WellFormed → h'.store.peerSetCache.WellFormed
  memo : h'.memo = h.memo
  undeterminedEvents : h'.undeterminedEvents = h.undeterminedEvents
  pendingRounds : h'.pendingRounds = h.pendingRounds
  roundLowerBound : h'.roundLowerBound = h.roundLowerBound

/-- What a host may change in its hashgraph : blocks, and peer-sets with the participants. -/
structure Undisturbed (h h' : Hashgraph H K) : Prop extends SameQueues h h' where
  lastConsensusRound : h'.lastConsensusRound = h.lastConsensusRound

theorem Undisturbed.refl (h : Hashgraph H K) : Undisturbed h h :=
  ⟨⟨rfl, rfl, rfl, rfl, fun _ => id, fun _ => id, id, rfl, rfl, rfl, rfl⟩, rfl⟩

theorem SameQueues.trans {h'' : Hashgraph H K} (h1 : SameQueues h h') (h2 : SameQueues h' h'') :
    SameQueues h h'' where
  eventCache := h2.eventCache.trans h1.eventCache
  roundCache := h2.roundCache.trans h1.roundCache
  lastRound := h2.lastRound.trans h1.lastRound
  lastConsensusEvents := h2.lastConsensusEvents.trans h1.lastConsensusEvents
  frames j hj := h1.frames j (h2.frames j hj)
  items x hx := h1.items x (h2.items x hx)
  peerSets hp := h2.peerSets (h1.peerSets hp)
  memo := h2.memo.trans h1.memo
  undeterminedEvents := h2.undeterminedEvents.trans h1.undeterminedEvents
  pendingRounds := h2.pendingRounds.trans h1.pendingRounds
  roundLowerBound := h2.roundLowerBound.trans h1.roundLowerBound

theorem Undisturbed.trans {h'' : Hashgraph H K} (h1 : Undisturbed h h') (h2 : Undisturbed h' h'') :
    Undisturbed h h'' :=
  ⟨h1.toSameQueues.trans h2.toSameQueues, h2.lastConsensusRound.trans h1.lastConsensusRound⟩

/-- Storing a block. -/
theorem undisturbed_setBlock (h : Hashgraph H K) (block : Block K) :
    Undisturbed h { h with store := h.store.setBlock block } :=
  ⟨⟨rfl, rfl, rfl, rfl, fun _ => id, fun _ => id, id, rfl, rfl, rfl, rfl⟩, rfl⟩

/-- A rejected event leaves a gap in the topological numbering at most. -/
theorem undisturbed_topologicalIndex (h : Hashgraph H K) (ti : ℤ) :
    Undisturbed h { h with topologicalIndex := ti } :=
  ⟨⟨rfl, rfl, rfl, rfl, fun _ => id, fun _ => id, id, rfl, rfl, rfl, rfl⟩, rfl⟩

/-- Recording a peer-set. -/
theorem undisturbed_setPeerSet {r : ℤ} {P : PeerSet K} {st : InmemStore H K}
    (hs : h.store.setPeerSet r P = .ok st) : Undisturbed h { h with store := st } := by
  obtain ⟨psc, pec, roots, fc, hset, rfl, hpec, hfc⟩ := InmemStore.setPeerSet_eq hs
  exact ⟨⟨rfl, rfl, rfl, rfl, hfc, hpec,
    fun hw => PeerSetCache.wellFormed_of_set hw.recorded hset, rfl, rfl, rfl, rfl⟩, rfl⟩

theorem SameQueues.belowLowerBound (hu : SameQueues h h') :
    h'.belowLowerBound = h.belowLowerBound := by
  funext j
  simp only [Hashgraph.belowLowerBound, hu.roundLowerBound]

theorem WellFormed.of_sameQueues (hw : WellFormed S A D q f h) (hu : SameQueues h h') :
    WellFormed S A D q f h' where
  keys := hu.eventCache ▸ hw.keys
  divided := by
    refine ⟨?_, ?_, ?_, ?_, ?_, ?_, ?_, ?_, ?_, ?_⟩ <;>
      simp only [hu.memo, hu.eventCache, hu.roundCache, hu.lastRound]
    exacts [hw.divided.stored, hw.divided.round, hw.divided.round_none, hw.divided.witness,
      hw.divided.witness_none, hw.divided.lamport, hw.divided.lamport_cached, hw.divided.created,
      hw.divided.recorded, hw.divided.le_last]
  round_nonneg := hw.round_nonneg
  items x hx := by
    rw [hu.eventCache]
    exact hw.items x (hu.items x hx)
  consensus := by
    rw [hu.eventCache, hu.lastConsensusEvents]
    exact hw.consensus
  undetermined := by
    rw [hu.eventCache, hu.undeterminedEvents]
    exact hw.undetermined
  received := by
    rw [hu.eventCache, hu.roundCache]
    exact hw.received
  peerSets := hu.peerSets hw.peerSets
  last := by
    rw [hu.lastRound]
    exact hw.last
  le := hw.le
  lowerBound := by
    rw [hu.roundLowerBound]
    exact hw.lowerBound
  rounds := by
    rw [hu.lastRound, hu.roundCache, hu.belowLowerBound]
    exact hw.rounds
  top := by
    rw [hu.lastRound, hu.belowLowerBound]
    exact hw.top
  sorted := by
    rw [hu.pendingRounds]
    exact hw.sorted
  pending := by
    rw [hu.pendingRounds, hu.lastRound]
    exact hw.pending
  decided := by
    rw [hu.roundCache, hu.belowLowerBound]
    exact hw.decided
  flags := by
    rw [hu.pendingRounds, hu.roundCache]
    exact hw.flags
  frames j hj := hw.frames j (hu.frames j hj)

/-- Closing a round only moves the last consensus round. -/
theorem closeRound_eq (r : ℤ) (fr : Frame H K) (h : Hashgraph H K) :
    ∃ n first, h.closeRound r fr =
      { h with
        lastCommitedRoundEvents := n
        lastConsensusRound := if h.lastConsensusRound.all (· < r) then some r
          else h.lastConsensusRound
        firstConsensusRound := first } := by
  unfold closeRound
  extract_lets h₁
  have hh₁ : ∃ n, h₁ = { h with lastCommitedRoundEvents := n } := by
    simp only [h₁]
    split_ifs
    exacts [⟨_, rfl⟩, ⟨_, rfl⟩]
  obtain ⟨n, hn⟩ := hh₁
  rw [hn]
  cases hl : h.lastConsensusRound with
  | none => exact ⟨n, _, by simp [setLastConsensusRound]; rfl⟩
  | some lcr =>
    simp only [Option.all_some, decide_eq_true_eq]
    split_ifs with hlt
    · exact ⟨n, _, rfl⟩
    · exact ⟨n, _, by rw [← hl]⟩

theorem sameQueues_closeRound (r : ℤ) (fr : Frame H K) (h : Hashgraph H K) :
    SameQueues h (h.closeRound r fr) := by
  obtain ⟨n, first, he⟩ := closeRound_eq r fr h
  rw [he]
  exact ⟨rfl, rfl, rfl, rfl, fun _ => id, fun _ => id, id, rfl, rfl, rfl, rfl⟩

/-- Removing the rounds up to `n` from the queue, all of which were decided. -/
theorem WellFormed.of_cleaned (hw : WellFormed S A D q f h) {n : ℤ} {l : List ℤ} (hqn : q ≤ n)
    (hl : ∀ i, i ∈ l ↔ q < i ∧ i ≤ n)
    (hdec : ∀ i ∈ l, ∃ p ∈ h.pendingRounds, p.index = i ∧ p.decided = true) :
    WellFormed S A D n f { h with pendingRounds := h.pendingRounds.clean l } := by
  have hsub : ((h.pendingRounds.filter fun p => p.index ∉ l).map PendingRound.index).Sublist
      (h.pendingRounds.map PendingRound.index) := List.filter_sublist.map _
  have hclean : h.pendingRounds.clean l = h.pendingRounds.filter fun p => p.index ∉ l :=
    PendingRounds.sorted_eq (hw.sorted.sublist hsub)
  rw [hclean]
  -- the processed rounds are among those that were pending
  have hlast : ∀ i, q < i → i ≤ n → i ≤ h.store.lastRound := by
    intro i hqi hin
    obtain ⟨p, hp, rfl, -⟩ := hdec i ((hl i).2 ⟨hqi, hin⟩)
    exact ((hw.pending p.index).1 (List.mem_map_of_mem hp)).2
  refine ⟨hw.keys, ⟨hw.divided.stored, hw.divided.round, hw.divided.round_none, hw.divided.witness,
      hw.divided.witness_none, hw.divided.lamport, hw.divided.lamport_cached, hw.divided.created,
      hw.divided.recorded, hw.divided.le_last⟩, hw.round_nonneg, hw.items, hw.consensus,
    hw.undetermined, hw.received, hw.peerSets, hw.last, hw.le.trans hqn,
    fun b hb => (hw.lowerBound b hb).trans hqn, hw.rounds, fun j hj hjn => ?_, hw.sorted.sublist hsub,
    fun j => ?_, fun j info hi hjn hb => ?_, fun p hp => hw.flags p (List.mem_of_mem_filter hp),
    hw.frames⟩
  · refine hw.top j hj (not_lt.1 fun hqj => ?_)
    exact absurd (hlast j hqj hjn) (not_le.2 hj)
  · simp only [List.mem_map, List.mem_filter, decide_eq_true_eq, hl]
    constructor
    · rintro ⟨p, ⟨hp, hnot⟩, rfl⟩
      have := (hw.pending p.index).1 (List.mem_map_of_mem hp)
      omega
    · rintro ⟨hnj, hjl⟩
      obtain ⟨p, hp, rfl⟩ := List.mem_map.1 ((hw.pending j).2 ⟨by omega, hjl⟩)
      exact ⟨p, ⟨hp, by omega⟩, rfl⟩
  · rcases le_or_gt j q with hle | hlt
    · exact hw.decided j info hi hle hb
    · obtain ⟨p, hp, rfl, hpd⟩ := hdec j ((hl j).2 ⟨hlt, hjn⟩)
      obtain ⟨info', hi', hd⟩ := hw.flags p hp hpd
      change h.store.roundCache.lookup p.index = some info at hi
      rw [hi] at hi'
      obtain rfl := Option.some.inj hi'
      exact hd

/-- Rounds that follow each other from `j + 1` on. -/
def Consecutive : ℤ → List PendingRound → Prop
  | _, [] => True
  | j, p :: ps => p.index = j + 1 ∧ Consecutive (j + 1) ps

theorem Consecutive.lt {rs : List PendingRound} :
    ∀ {j : ℤ}, Consecutive j rs → ∀ p ∈ rs, j < p.index := by
  induction rs with
  | nil => simp
  | cons p ps ih =>
    intro j hc p' hp'
    rcases List.mem_cons.1 hp' with rfl | hp'
    · have := hc.1
      omega
    · have := ih hc.2 p' hp'
      omega

theorem consecutive_of_sorted {last : ℤ} {rs : List PendingRound}
    (hs : (rs.map PendingRound.index).Pairwise (· < ·)) {j : ℤ}
    (hmem : ∀ i, i ∈ rs.map PendingRound.index ↔ j < i ∧ i ≤ last) : Consecutive j rs := by
  induction rs generalizing j with
  | nil => trivial
  | cons p ps ih =>
    rw [List.map_cons, List.pairwise_cons] at hs
    have hp := (hmem p.index).1 (by simp)
    have hnext : p.index = j + 1 := by
      rcases List.mem_cons.1 ((hmem (j + 1)).2 ⟨by omega, by omega⟩) with h1 | h1
      · exact h1.symm
      · have := hs.1 _ h1
        omega
    refine ⟨hnext, ih hs.2 fun i => ⟨fun hi => ?_, fun hi => ?_⟩⟩
    · have h1 := hs.1 i hi
      have h2 := ((hmem i).1 (List.mem_cons_of_mem _ hi)).2
      omega
    · rcases List.mem_cons.1 ((hmem i).2 ⟨by omega, hi.2⟩) with h1 | h1
      · omega
      · exact h1

end Hashgraph

/-! ## The session -/

namespace Session

variable {S : Scheme H K} {rt : Runtime} {R : Reading H K} {ps : ℤ → PeerSet K}
  {A : Assignment H} {q f : ℤ} {cb : CommitCallback C H K} {s : Session C H K} {α : Type}

theorem exec_onHashgraph (m : Hg H K α) (s : Session C H K) :
    Exec.exec (onHashgraph m) s =
      ((Exec.exec m s.hg).1, { s with hg := (Exec.exec m s.hg).2 }) := by
  simp only [onHashgraph, Exec.exec_bind, Exec.exec_get, Exec.exec_set]
  cases (Exec.exec m s.hg).1 <;> rfl

theorem returns_onHashgraph {m : Hg H K α} {Q : α → Session C H K → Prop}
    (h : Exec.Returns m s.hg fun a hg => Q a { s with hg := hg }) :
    Exec.Returns (onHashgraph m) s Q := by
  obtain ⟨a, hg, he, hQ⟩ := h
  exact ⟨a, { s with hg := hg }, by rw [exec_onHashgraph, he], hQ⟩

/-- The host leaves events, rounds and queues alone. -/
def Undisturbing (cb : CommitCallback C H K) : Prop :=
  ∀ b s, Hashgraph.Undisturbed s.hg (cb b s).hg

theorem undisturbed_commitFrame (hcb : Undisturbing cb) (fr : Frame H K) (s : Session C H K) :
    Hashgraph.Undisturbed s.hg (commitFrame S cb fr s).hg := by
  unfold commitFrame
  extract_lets block
  split_ifs
  · exact .refl _
  · exact .refl _
  · refine .trans ?_ (hcb block _)
    exact Hashgraph.undisturbed_setBlock s.hg block

/-- The session after a frame was committed and its round closed. -/
def close (S : Scheme H K) (cb : CommitCallback C H K) (r : ℤ) (fr : Frame H K)
    (s : Session C H K) : Session C H K :=
  let s := commitFrame S cb fr s
  { s with hg := s.hg.closeRound r fr }

/-- The processing of one round that has no frame yet. -/
theorem returns_processRound {D : H → Prop} (hw : s.hg.WellFormed S A D q f)
    (hD : ∀ x, x ∈ s.hg.store.eventCache → D x) {core : H → SignedEvent H K}
    (hcore : ∀ x e, s.hg.store.eventCache.lookup x = some e → core x = e.toSignedEvent) {r : ℤ}
    (hr : f < r) {info : RoundInfo H} {P : PeerSet K}
    (hinfo : s.hg.store.roundCache.lookup r = some info) (hP : s.hg.store.getPeerSet r = .ok P) :
    Exec.Returns (processRound S rt cb r) s fun _ s' => ∃ fr h₁,
      FrameOf rt A core s.hg.store r info P fr ∧ Hashgraph.Opened S fr s.hg h₁ ∧
      s' = close S cb r fr { s with hg := h₁ } := by
  refine Exec.Returns.bind (returns_onHashgraph
    ((Hashgraph.returns_openRound hw hD hcore hr hinfo hP).mono ?_))
  rintro fr h₁ ⟨hfr, ho⟩
  exact Exec.Returns.bind (Exec.returns_modify (Exec.returns_modify ⟨fr, h₁, hfr, ho, rfl⟩))

/-- The rounds after `j`, up to `n`. -/
def roundsFrom (j n : ℤ) : List ℤ :=
  (List.range (n - j).toNat).map fun k : ℕ => j + 1 + k

theorem mem_roundsFrom {i j n : ℤ} : i ∈ roundsFrom j n ↔ j < i ∧ i ≤ n := by
  simp only [roundsFrom, List.mem_map, List.mem_range]
  exact ⟨fun ⟨k, hk, hki⟩ => by omega, fun h => ⟨(i - j - 1).toNat, by omega, by omega⟩⟩

theorem roundsFrom_self (j : ℤ) : roundsFrom j j = [] := by
  simp [roundsFrom]

theorem roundsFrom_succ {j n : ℤ} (h : j + 1 ≤ n) :
    roundsFrom j n = (j + 1) :: roundsFrom (j + 1) n := by
  rw [roundsFrom, roundsFrom, show (n - j).toNat = (n - (j + 1)).toNat + 1 by omega,
    List.range_succ_eq_map, List.map_cons, List.map_map]
  refine congrArg₂ _ (by simp) (List.map_congr_left fun k _ => ?_)
  simp only [Function.comp]
  push_cast
  omega

theorem roundsFrom_append {j n m : ℤ} (h : j ≤ n) (h' : n ≤ m) :
    roundsFrom j n ++ roundsFrom n m = roundsFrom j m := by
  obtain ⟨k, rfl⟩ := Int.le.dest h
  induction k generalizing j with
  | zero => simp [roundsFrom_self]
  | succ k ih =>
    have hk : j + 1 + (k : ℤ) = j + ((k + 1 : ℕ) : ℤ) := by push_cast; omega
    have h1 : roundsFrom j (j + ((k + 1 : ℕ) : ℤ)) = _ := roundsFrom_succ (by omega)
    have h2 : roundsFrom j m = _ := roundsFrom_succ (by omega)
    rw [h1, h2, List.cons_append, ← hk, ih (by omega) (by omega)]

/-- The loop over the decided rounds at the front of a queue, where `I n` is what holds
after round `n`. -/
theorem returns_processRounds (I : ℤ → Session C H K → Prop) (rs : List PendingRound) :
    ∀ {j : ℤ} {s : Session C H K}, Hashgraph.Consecutive j rs →
      (∀ p ∈ rs, p.decided = true → ∀ s, I (p.index - 1) s →
        Exec.Returns (processRound S rt cb p.index) s fun _ s' => I p.index s') → I j s →
      Exec.Returns (processRounds S rt cb rs) s fun res s' => ∃ n, j ≤ n ∧ I n s' ∧
        res = (roundsFrom j n, .ok ()) ∧
        (∀ i ∈ res.1, ∃ p ∈ rs, p.index = i ∧ p.decided = true) ∧
        ∀ p ∈ rs, p.index = n + 1 → p.decided = false := by
  induction rs with
  | nil =>
    exact fun {j} _ _ _ h0 =>
      Exec.returns_pure ⟨j, le_rfl, h0, by rw [roundsFrom_self], by simp, by simp⟩
  | cons p ps ih =>
    intro j s hc hstep h0
    unfold processRounds
    split_ifs with hd
    · have h0' : I (p.index - 1) s := by
        rw [hc.1, add_sub_cancel_right]
        exact h0
      refine Exec.Returns.bind (Exec.returns_attempt
        ((hstep p List.mem_cons_self hd s h0').mono fun _ s₁ h1 => ?_))
      simp only
      rw [hc.1] at h1
      refine Exec.Returns.bind ((ih hc.2
        (fun p' hp' => hstep p' (List.mem_cons_of_mem p hp')) h1).mono ?_)
      rintro _ s' ⟨n, hn, hI, rfl, hp, hwait⟩
      refine Exec.returns_pure ⟨n, by omega, hI, ?_, fun i hi => ?_, fun p' hp' hpn => ?_⟩
      · rw [hc.1, roundsFrom_succ hn]
      · rcases List.mem_cons.1 hi with rfl | hi
        · exact ⟨p, List.mem_cons_self, rfl, hd⟩
        · obtain ⟨p', hp', hpi⟩ := hp i hi
          exact ⟨p', List.mem_cons_of_mem p hp', hpi⟩
      · rcases List.mem_cons.1 hp' with rfl | hp'
        · have := hc.1
          omega
        · exact hwait p' hp' hpn
    · refine Exec.returns_pure
        ⟨j, le_rfl, h0, by rw [roundsFrom_self], by simp, fun p' hp' hpn => ?_⟩
      rcases List.mem_cons.1 hp' with rfl | hp'
      · simpa using hd
      · have := hc.2.lt p' hp'
        omega

/-- The processing of the decided rounds at the front of the queue. -/
theorem returns_processDecidedRounds {D : H → Prop} (hw : s.hg.WellFormed S A D q q)
    (I : ℤ → Session C H K → Prop) (h0 : I q s)
    (hqueue : ∀ n s', I n s' → s'.hg.WellFormed S A D q n ∧
      s'.hg.pendingRounds = s.hg.pendingRounds)
    (hstep : ∀ p ∈ s.hg.pendingRounds, p.decided = true → ∀ s, I (p.index - 1) s →
      Exec.Returns (processRound S rt cb p.index) s fun _ s' => I p.index s') :
    Exec.Returns (processDecidedRounds S rt cb) s fun _ s' => ∃ n s₁, q ≤ n ∧ I n s₁ ∧
      Exec.exec (processRounds S rt cb s.hg.pendingRounds) s = (.ok (roundsFrom q n, .ok ()), s₁) ∧
      s' = { s₁ with
        hg := { s₁.hg with pendingRounds := s₁.hg.pendingRounds.clean (roundsFrom q n) } } ∧
      s'.hg.WellFormed S A D n n ∧
      ∀ p ∈ s.hg.pendingRounds, p.index = n + 1 → p.decided = false := by
  obtain ⟨_, s₁, hexec, n, hqn, hI, rfl, hp, hwait⟩ := returns_processRounds I s.hg.pendingRounds
    (Hashgraph.consecutive_of_sorted hw.sorted hw.pending) hstep h0
  refine Exec.Returns.bind (Exec.returns_get (Exec.Returns.bind ⟨_, s₁, hexec, ?_⟩))
  refine Exec.Returns.bind (Exec.returns_modify (Exec.returns_ofExcept rfl ?_))
  obtain ⟨hw₁, hpr⟩ := hqueue n s₁ hI
  refine ⟨n, s₁, hqn, hI, hexec, rfl, hw₁.of_cleaned hqn (fun i => mem_roundsFrom) ?_, hwait⟩
  rw [hpr]
  exact hp

/-- The steps of a call before the decided rounds are processed. -/
def insertEventAndPass (S : Scheme H K) (rt : Runtime) (event : SignedEvent H K) (wire : WireInfo)
    (fill : Bool) : Exec Err (Session C H K) Unit := do
  onHashgraph (Hashgraph.insertEvent S rt event wire fill)
  onHashgraph (Hashgraph.divideRounds S rt)
  onHashgraph (Hashgraph.decideFame S rt)
  onHashgraph (Hashgraph.decideRoundReceived S rt)

/-- A call fails at the insertion, or goes on to the processing of rounds after the passes
of consensus. -/
theorem insertEventAndRunConsensus_cases (rt : Runtime) (cb : CommitCallback C H K)
    (event : SignedEvent H K) (wire : WireInfo) (fill : Bool)
    (hw : s.hg.WellFormed S A (· ∈ s.hg.store.eventCache) q f)
    (hm : s.hg.memo.Coherent S R)
    (hpeers : ∀ j, j ≤ s.hg.store.lastRound + 1 → s.hg.store.getPeerSet j = .ok (ps j))
    (hin : ∀ j, R.Peers (ps j))
    (hR : ∀ (i : Hashgraph.Insertion S s.hg event) (h₁ : Hashgraph H K),
      i.Result A.witness h₁ → R.Holds S h₁.store) :
    (∃ err ti, Exec.exec (Hashgraph.insertEvent S rt event wire fill) s.hg =
          (.error err, { s.hg with topologicalIndex := ti }) ∧
        Exec.exec (insertEventAndPass S rt event wire fill) s =
          (.error err, { s with hg := { s.hg with topologicalIndex := ti } }) ∧
        Exec.exec (insertEventAndRunConsensus S rt cb event wire fill) s =
          (.error err, { s with hg := { s.hg with topologicalIndex := ti } })) ∨
      ∃ (i : Hashgraph.Insertion S s.hg event) (h₁ h₂ h₃ h₄ : Hashgraph H K) (A' : Assignment H),
        i.Result A.witness h₁ ∧
        Hashgraph.Consensus S R ps (· ∈ s.hg.store.eventCache) A A' (event.hex S) event h₁ h₂ h₃ h₄ ∧
        Exec.exec (insertEventAndPass S rt event wire fill) s = (.ok (), { s with hg := h₄ }) ∧
        Exec.exec (insertEventAndRunConsensus S rt cb event wire fill) s =
          Exec.exec (processDecidedRounds S rt cb) { s with hg := h₄ } := by
  have hwit : ∀ x, x ∈ s.hg.store.eventCache →
      s.hg.memo.witnessCache.lookup x = some (A.witness x) := fun x hx => hw.divided.witness x hx
  rcases Hashgraph.insertEvent_cases S rt event wire fill hwit with
    ⟨err, ti, he⟩ | ⟨i, h₁, hres, he⟩
  · refine Or.inl ⟨err, ti, he, ?_, ?_⟩
    · simp only [insertEventAndPass, Exec.exec_bind, exec_onHashgraph, he]
    · simp only [insertEventAndRunConsensus, Exec.exec_bind, exec_onHashgraph, he]
  · right
    have hw₁ := hw.of_insertion hres
    have hRh := hR i h₁ hres
    obtain ⟨e, hlook, rfl, hround, hlam⟩ := i.lookup_events A.witness
    obtain ⟨hsp, hop⟩ := i.parents_mem hw.items
    have hret : Exec.Returns (Hashgraph.divideRounds S rt) h₁ fun _ h₂ =>
        Exec.Returns (Hashgraph.decideFame S rt) h₂ fun _ h₃ =>
          Exec.Returns (Hashgraph.decideRoundReceived S rt) h₃ fun _ h₄ => ∃ A',
            Hashgraph.Consensus S R ps (· ∈ s.hg.store.eventCache) A A' (e.hex S) e.toSignedEvent
              h₁ h₂ h₃ h₄ := by
      obtain ⟨pec, hst, -⟩ := Hashgraph.setEvent_eq i.setEvent
      obtain ⟨ti, sigs, rfl⟩ := id hres
      refine Hashgraph.returns_consensus hw₁ (fun y hy => ((i.mem_events A.witness).1 hy).symm) rfl
        (fun y hy => (hw.undetermined y hy).mem) hlook hround hlam hsp hop hRh
        ⟨hm.ancestor, hm.stronglySee⟩ ?_ hin
      rw [hst]
      exact hpeers
    obtain ⟨_, h₂, he₂, _, h₃, he₃, _, h₄, he₄, A', hc⟩ := hret
    refine ⟨i, h₁, h₂, h₃, h₄, A', hres, hc, ?_, ?_⟩
    · simp only [insertEventAndPass, Exec.exec_bind, exec_onHashgraph, he, he₂, he₃, he₄]
    · simp only [insertEventAndRunConsensus, Exec.exec_bind, exec_onHashgraph, he, he₂, he₃, he₄]

/-! ## Runs -/

/-- The arguments of one call. -/
structure Input (H K : Type) where
  event : SignedEvent H K
  wire : WireInfo := {}
  fill : Bool := true

end Session

/-- A call of `InsertEvent` succeeds. -/
def Hashgraph.Accepts (S : Scheme H K) (rt : Runtime) (h : Hashgraph H K) (i : Session.Input H K) : Prop :=
  (Exec.exec (insertEvent S rt i.event i.wire i.fill) h).1 = .ok ()

instance (S : Scheme H K) (rt : Runtime) (h : Hashgraph H K) (i : Session.Input H K) :
    Decidable (Hashgraph.Accepts S rt h i) :=
  inferInstanceAs (Decidable (_ = _))

namespace Session

variable {S : Scheme H K} {rt : Runtime} {R : Reading H K} {ps : ℤ → PeerSet K}
  {A : Assignment H} {q f : ℤ} {cb : CommitCallback C H K} {s : Session C H K} {α : Type}

/-- The session after one call. The caller may ignore an error. -/
def feed (S : Scheme H K) (rt : Runtime) (cb : CommitCallback C H K) (s : Session C H K)
    (i : Input H K) : Session C H K :=
  (Exec.exec (insertEventAndRunConsensus S rt cb i.event i.wire i.fill) s).2

/-- The rounds that one call processes, in order. -/
def processedIn (S : Scheme H K) (rt : Runtime) (cb : CommitCallback C H K) (s : Session C H K)
    (i : Input H K) : List ℤ :=
  match Exec.exec (insertEventAndPass S rt i.event i.wire i.fill) s with
  | (.ok _, s') =>
    match (Exec.exec (processRounds S rt cb s'.hg.pendingRounds) s').1 with
    | .ok res => res.1
    | .error _ => []
  | (.error _, _) => []

/-- The session after a list of calls. -/
def run (S : Scheme H K) (rt : Runtime) (cb : CommitCallback C H K) (s : Session C H K)
    (is : List (Input H K)) : Session C H K :=
  is.foldl (feed S rt cb) s

theorem run_append_singleton (s : Session C H K) (is : List (Input H K)) (i : Input H K) :
    run S rt cb s (is ++ [i]) = feed S rt cb (run S rt cb s is) i := by
  simp only [run, List.foldl_append, List.foldl_cons, List.foldl_nil]

/-- What holds at the start and is kept by every call holds all along a run. -/
theorem run_induct_along {P : List (Input H K) → Session C H K → Prop} (is : List (Input H K))
    (h0 : P [] s) (hstep : ∀ pre i, pre ++ [i] <+: is → P pre (run S rt cb s pre) →
      P (pre ++ [i]) (feed S rt cb (run S rt cb s pre) i)) :
    ∀ pre, pre <+: is → P pre (run S rt cb s pre) := by
  intro pre
  induction pre using List.reverseRecOn with
  | nil => exact fun _ => h0
  | append_singleton pre i ih =>
    intro hpre
    rw [run_append_singleton]
    exact hstep pre i hpre (ih ((List.prefix_append pre [i]).trans hpre))

/-- What holds at the start and is kept by every call holds after a run. -/
theorem run_induct {P : List (Input H K) → Session C H K → Prop} (is : List (Input H K))
    (h0 : P [] s) (hstep : ∀ pre i, pre ++ [i] <+: is → P pre (run S rt cb s pre) →
      P (pre ++ [i]) (feed S rt cb (run S rt cb s pre) i)) : P is (run S rt cb s is) :=
  run_induct_along is h0 hstep is (List.prefix_refl is)

/-- The session with a part of its host. -/
def mapHost {D : Type} (π : C → D) (s : Session C H K) : Session D H K :=
  ⟨π s.host, s.hg⟩

section MapHost

variable {D : Type} {π : C → D} {cb' : CommitCallback D H K}
  (hcb : ∀ b s, (cb b s).mapHost π = cb' b (s.mapHost π))

theorem simulates_onHashgraph (m : Hg H K α) :
    Exec.Simulates (mapHost π) (onHashgraph m) (onHashgraph m) := by
  intro s
  rw [exec_onHashgraph, exec_onHashgraph]
  rfl

include hcb

theorem simulates_processRound (r : ℤ) :
    Exec.Simulates (mapHost π) (processRound S rt cb r) (processRound S rt cb' r) := by
  refine (simulates_onHashgraph _).bind fun fr => ?_
  refine Exec.Simulates.bind (Exec.simulates_modify fun s => ?_) fun _ =>
    Exec.simulates_modify fun s => rfl
  by_cases hev : fr.events = []
  · simp only [commitFrame, hev, if_true]
  · by_cases htx : (Block.fromFrame S (s.hg.store.lastBlock + 1) fr).body.transactions = [] ∧
        (Block.fromFrame S (s.hg.store.lastBlock + 1) fr).body.internalTransactions = []
    · simp only [commitFrame, mapHost, hev, htx, and_self, if_true, if_false]
    · set b := Block.fromFrame S (s.hg.store.lastBlock + 1) fr
      have hc := hcb b { s with hg := { s.hg with store := s.hg.store.setBlock b } }
      simp only [commitFrame, hev, if_false]
      rw [if_neg htx]
      exact (if_neg htx).trans hc.symm

theorem simulates_processRounds (rs : List PendingRound) :
    Exec.Simulates (mapHost π) (processRounds S rt cb rs) (processRounds S rt cb' rs) := by
  induction rs with
  | nil => exact Exec.simulates_pure _
  | cons p ps ih =>
    unfold processRounds
    split_ifs
    · refine (simulates_processRound hcb _).attempt.bind fun res => ?_
      cases res with
      | error err => exact Exec.simulates_pure _
      | ok _ => exact ih.bind fun res => Exec.simulates_pure _
    · exact Exec.simulates_pure _

/-- A callback that acts on a part of the host as another one does leaves that part in a
call as the other one does. -/
theorem simulates_insertEventAndRunConsensus (i : Input H K) :
    Exec.Simulates (mapHost π) (insertEventAndRunConsensus S rt cb i.event i.wire i.fill)
      (insertEventAndRunConsensus S rt cb' i.event i.wire i.fill) := by
  have hprocess : Exec.Simulates (mapHost π) (processDecidedRounds S rt cb)
      (processDecidedRounds S rt cb') := by
    refine Exec.simulates_get_bind fun t => (simulates_processRounds hcb _).bind fun res => ?_
    exact Exec.Simulates.bind (Exec.simulates_modify fun _ => rfl)
      fun _ => Exec.simulates_ofExcept _
  exact (simulates_onHashgraph _).bind fun _ => (simulates_onHashgraph _).bind fun _ =>
    (simulates_onHashgraph _).bind fun _ => (simulates_onHashgraph _).bind fun _ => hprocess

end MapHost

/-- The commit callback with a record of its calls : the block, and the session at that
moment. -/
def traced (cb : CommitCallback C H K) :
    CommitCallback (C × List (Block K × Session C H K)) H K :=
  fun b s =>
    let t := cb b ⟨s.host.1, s.hg⟩
    ⟨(t.host, s.host.2 ++ [(b, ⟨s.host.1, s.hg⟩)]), t.hg⟩

/-- The session without the record. -/
def untraced (s : Session (C × List (Block K × Session C H K)) H K) : Session C H K :=
  ⟨s.host.1, s.hg⟩

/-- The record does not change what a call does. -/
theorem untraced_feed (S : Scheme H K) (rt : Runtime) (cb : CommitCallback C H K)
    (s : Session (C × List (Block K × Session C H K)) H K) (i : Input H K) :
    untraced (feed S rt (traced cb) s i) = feed S rt cb (untraced s) i := by
  have hcb : ∀ b s, (traced cb b s).mapHost Prod.fst = cb b (s.mapHost Prod.fst) :=
    fun _ _ => rfl
  exact (congrArg Prod.snd (simulates_insertEventAndRunConsensus (S := S) hcb i s)).symm

/-- The record does not change a run. -/
theorem untraced_run (S : Scheme H K) (rt : Runtime) (cb : CommitCallback C H K)
    (s : Session (C × List (Block K × Session C H K)) H K) (is : List (Input H K)) :
    untraced (run S rt (traced cb) s is) = run S rt cb (untraced s) is := by
  induction is generalizing s with
  | nil => rfl
  | cons i is ih =>
    rw [run, List.foldl_cons]
    exact (ih _).trans (by rw [untraced_feed]; rfl)

/-- The commits of a run : the blocks with the session at that moment. -/
def commits (S : Scheme H K) (rt : Runtime) (cb : CommitCallback C H K) (s : Session C H K)
    (is : List (Input H K)) : List (Block K × Session C H K) :=
  (run S rt (traced cb) ⟨(s.host, []), s.hg⟩ is).host.2

/-- The answers that are acceptable if nothing is known about the events. -/
def anyAnswer : Reading H K :=
  ⟨fun _ => True, fun _ _ _ => True, fun _ _ _ _ => True⟩

theorem holds_anyAnswer (S : Scheme H K) (st : InmemStore H K) : anyAnswer.Holds S st :=
  ⟨fun _ _ _ _ => trivial, fun _ _ _ _ _ _ => trivial, fun _ _ _ _ _ _ _ _ _ => trivial⟩

theorem coherent_anyAnswer (S : Scheme H K) (m : Memo H) : m.Coherent S (anyAnswer (K := K)) :=
  ⟨fun _ _ _ _ => trivial, fun _ _ _ _ _ _ => trivial⟩

/-- A well-formed session between two calls, with the rounds up to `q` processed. -/
structure Sound (S : Scheme H K) (q : ℤ) (s : Session C H K) : Prop where
  wellFormed : ∃ A, s.hg.WellFormed S A (· ∈ s.hg.store.eventCache) q q
  lastConsensusRound : s.hg.lastConsensusRound.getD (-1) = q

/-- A processed round is the last consensus round. -/
theorem lastConsensusRound_close (hcb : Undisturbing cb) {r : ℤ} {fr : Frame H K}
    (hr : s.hg.lastConsensusRound.getD (-1) < r) :
    (close S cb r fr s).hg.lastConsensusRound = some r := by
  have hu := undisturbed_commitFrame (S := S) hcb fr s
  obtain ⟨n, first, he⟩ := Hashgraph.closeRound_eq r fr (commitFrame S cb fr s).hg
  rw [close, he]
  simp only [hu.lastConsensusRound]
  rw [if_pos]
  cases hl : s.hg.lastConsensusRound with
  | none => rfl
  | some l =>
    rw [hl] at hr
    simpa using hr

theorem sameQueues_close (hcb : Undisturbing cb) (r : ℤ) (fr : Frame H K) (s : Session C H K) :
    Hashgraph.SameQueues s.hg (close S cb r fr s).hg := by
  have h1 := (undisturbed_commitFrame (S := S) hcb fr s).toSameQueues
  have h2 := Hashgraph.sameQueues_closeRound r fr (commitFrame S cb fr s).hg
  exact h1.trans h2

/-- The frame of the block is in the store, with the peer-sets recorded there. -/
def Framed (b : Block K) (st : InmemStore H K) : Prop :=
  ∃ fr P, st.frameCache.lookup b.body.roundReceived = some fr ∧
    st.getPeerSet b.body.roundReceived = .ok P ∧ fr.peers = P.peers ∧
    fr.peerSets = st.peerSetCache.getAll

/-- A property of the host that holds through the commit of the frame's block holds after
the round. -/
theorem host_close {J : C → Prop} {r : ℤ} {fr : Frame H K} (hJ : J s.host)
    (hcommit : ∀ b, b = Block.fromFrame S (s.hg.store.lastBlock + 1) fr →
      J (cb b { s with hg := { s.hg with store := s.hg.store.setBlock b } }).host) :
    J (close S cb r fr s).host := by
  change J (commitFrame S cb fr s).host
  unfold commitFrame
  extract_lets block
  split_ifs
  · exact hJ
  · exact hJ
  · exact hcommit block rfl

theorem returns_processDecidedRounds_sound {J : ℤ → C → Prop} (hcb : Undisturbing cb)
    (hmono : ∀ {n m c}, n ≤ m → J n c → J m c)
    (hw : s.hg.WellFormed S A (· ∈ s.hg.store.eventCache) q q)
    (hlcr : s.hg.lastConsensusRound.getD (-1) = q) (hJ : J q s.host)
    (hcommit : ∀ n b s', J n s'.host → q ≤ n → n < b.body.roundReceived →
      s'.hg.store.lastRound = s.hg.store.lastRound → Framed b s'.hg.store →
      J b.body.roundReceived (cb b s').host) :
    Exec.Returns (processDecidedRounds S rt cb) s fun _ s' => ∃ n, q ≤ n ∧ Sound S n s' ∧
      J n s'.host ∧ s'.hg.store.lastRound = s.hg.store.lastRound := by
  -- what holds after round `n`
  let I : ℤ → Session C H K → Prop := fun n t => q ≤ n ∧
    t.hg.WellFormed S A (· ∈ s.hg.store.eventCache) q n ∧
    t.hg.store.eventCache = s.hg.store.eventCache ∧
    t.hg.store.lastRound = s.hg.store.lastRound ∧ t.hg.pendingRounds = s.hg.pendingRounds ∧
    t.hg.lastConsensusRound.getD (-1) = n ∧ J n t.host
  refine (returns_processDecidedRounds hw I ⟨le_rfl, hw, rfl, rfl, rfl, hlcr, hJ⟩
    (fun n t ht => ⟨ht.2.1, ht.2.2.2.2.1⟩) fun p hp hd t ht => ?_).mono ?_
  · obtain ⟨hqn, hwt, hec, hlast, hpend, hlcrt, hJt⟩ := ht
    obtain ⟨hqp, hpl⟩ := (hw.pending p.index).1 (List.mem_map_of_mem hp)
    obtain ⟨info, hinfo⟩ := Map.mem_iff_lookup.1 (hwt.rounds p.index (by have := hw.le; omega)
      (hlast ▸ hpl) (hwt.belowLowerBound hqp))
    obtain ⟨P, hP⟩ := hwt.peerSets.exists_get p.index
    refine (returns_processRound hwt (fun x hx => hec ▸ hx) (fun x e he => InmemStore.core_eq he)
      (by omega) hinfo hP).mono ?_
    rintro _ _ ⟨fr, h₁, hfr, ho, rfl⟩
    have hw₁ := hwt.of_opened (fun x e he => InmemStore.core_eq he) (by omega) hinfo hfr ho
    have hround : ∀ i, (Block.fromFrame S i fr).body.roundReceived = p.index := fun _ => hfr.round
    have hsame : h₁.store.eventCache = t.hg.store.eventCache ∧
        h₁.store.lastRound = t.hg.store.lastRound ∧ h₁.pendingRounds = t.hg.pendingRounds ∧
        h₁.lastConsensusRound = t.hg.lastConsensusRound ∧
        ∀ i, Framed (Block.fromFrame S i fr) h₁.store := by
      obtain ⟨n, cc, tot, rfl⟩ := ho
      refine ⟨rfl, rfl, rfl, rfl, fun i => ⟨fr, P, ?_, ?_, hfr.peers, hfr.peerSets⟩⟩
      · rw [hround, ← hfr.round]
        exact AList.lookup_insert _
      · rw [hround]
        exact hP
    obtain ⟨hec₁, hlast₁, hpend₁, hlcr₁, hframed⟩ := hsame
    have hq := sameQueues_close (S := S) hcb p.index fr { t with hg := h₁ }
    refine ⟨hqp.le, hw₁.of_sameQueues hq, hq.eventCache.trans (hec₁.trans hec),
      hq.lastRound.trans (hlast₁.trans hlast), hq.pendingRounds.trans (hpend₁.trans hpend), ?_, ?_⟩
    · rw [lastConsensusRound_close hcb]
      · rfl
      · simp only [hlcr₁, hlcrt]
        omega
    · refine host_close (hmono (by omega) hJt) ?_
      intro b hb
      have hrb : b.body.roundReceived = p.index := hb ▸ hround _
      have hJb := hcommit (p.index - 1) b { t with hg := { h₁ with store := h₁.store.setBlock b } }
        hJt hqn (by omega) (hlast₁.trans hlast) (hb ▸ hframed _)
      rwa [hrb] at hJb
  · rintro _ s' ⟨n, t, hqn, ⟨-, -, hec, hlast, -, hlcrt, hJt⟩, -, rfl, hwn, -⟩
    refine ⟨n, hqn, ⟨⟨A, ?_⟩, hlcrt⟩, hJt, hlast⟩
    simp only [hec]
    exact hwn

variable (rt) in
/-- One call keeps a session sound. Its commits are of the next rounds, in order, while the
last round is at most one above what it was before the call; so a property `J` of the
host and the last processed round that holds through such commits holds after the call. -/
theorem Sound.feed {J : ℤ → C → Prop} (hcb : Undisturbing cb) (hs : Sound S q s)
    (hmono : ∀ {n m c}, n ≤ m → J n c → J m c) (hJ : J q s.host)
    (hcommit : ∀ n b s', J n s'.host → q ≤ n → n < b.body.roundReceived →
      s'.hg.store.lastRound ≤ s.hg.store.lastRound + 1 → Framed b s'.hg.store →
      J b.body.roundReceived (cb b s').host) (i : Input H K) :
    ∃ q', q ≤ q' ∧ Sound S q' (feed S rt cb s i) ∧ J q' (feed S rt cb s i).host ∧
      (feed S rt cb s i).hg.store.lastRound ≤ s.hg.store.lastRound + 1 := by
  obtain ⟨A, hw⟩ := hs.wellFormed
  choose ps hps using fun j => hw.peerSets.exists_get j
  rcases insertEventAndRunConsensus_cases rt cb i.event i.wire i.fill hw (coherent_anyAnswer S _)
    (fun j _ => hps j) (fun _ => trivial) (fun _ _ _ => holds_anyAnswer S _) with
    ⟨err, ti, -, -, he⟩ | ⟨ins, h₁, h₂, h₃, h₄, A', hres, hc, -, he⟩
  · have hfeed : Session.feed S rt cb s i =
        { s with hg := { s.hg with topologicalIndex := ti } } := by rw [Session.feed, he]
    rw [hfeed]
    refine ⟨q, le_rfl, ⟨⟨A, ?_⟩, hs.lastConsensusRound⟩, hJ, by simp⟩
    exact hw.of_sameQueues (Hashgraph.undisturbed_topologicalIndex _ ti).toSameQueues
  · have hw₁ := hw.of_insertion hres
    obtain ⟨hsp, hop⟩ := ins.parents_mem hw.items
    have hmem₁ : ∀ y, y ∈ h₁.store.eventCache ↔ y = i.event.hex S ∨ y ∈ s.hg.store.eventCache := by
      obtain ⟨ti, sigs, rfl⟩ := hres
      exact fun y => ins.mem_events A.witness
    have hlast₁ : h₁.store.lastRound = s.hg.store.lastRound ∧
        h₁.lastConsensusRound = s.hg.lastConsensusRound := by
      obtain ⟨pec, hst, -⟩ := Hashgraph.setEvent_eq ins.setEvent
      obtain ⟨ti, sigs, rfl⟩ := hres
      rw [hst]
      exact ⟨rfl, rfl⟩
    obtain ⟨-, -, hw₄⟩ := hw₁.of_consensus ((hmem₁ _).2 (Or.inl rfl)) hsp hop hc
    have hD : (fun y => y ∈ s.hg.store.eventCache ∨ y = i.event.hex S) =
        (· ∈ h₄.store.eventCache) := by
      funext y
      rw [eq_iff_iff, hc.events.mem_iff, hmem₁, or_comm]
    rw [hD] at hw₄
    have hlast₄ : h₄.store.lastRound ≤ s.hg.store.lastRound + 1 ∧
        h₄.lastConsensusRound = s.hg.lastConsensusRound := by
      have hle := hc.divided.lastRound_le hw₁ hsp hop
      obtain ⟨ec, rc, m, pr, us, rfl⟩ := hc.eq
      exact ⟨hlast₁.1 ▸ hle, hlast₁.2⟩
    have hlcr : h₄.lastConsensusRound.getD (-1) = q := by
      rw [hlast₄.2]
      exact hs.lastConsensusRound
    obtain ⟨_, s', hexec, q', hq, hs', hJ', hlast'⟩ :=
      returns_processDecidedRounds_sound (S := S) (s := { s with hg := h₄ }) (J := J) hcb hmono hw₄ hlcr hJ
        fun n b t hJt hn hb hl => hcommit n b t hJt hn hb (hl ▸ hlast₄.1)
    rw [Session.feed, he, hexec]
    exact ⟨q', hq, hs', hJ', hlast' ▸ hlast₄.1⟩

theorem Undisturbing.traced (hcb : Undisturbing cb) : Undisturbing (Session.traced cb) :=
  fun b s => hcb b ⟨s.host.1, s.hg⟩

/-- A hashgraph that was just initialised. -/
theorem wellFormed_init {n : ℕ} {P : PeerSet K} {h : Hashgraph H K}
    (hi : (Hashgraph.new (InmemStore.new n)).init P = .ok h) (A : Assignment H) :
    h.WellFormed S A (· ∈ h.store.eventCache) (-1) (-1) := by
  obtain ⟨st, hs, rfl⟩ := Hashgraph.init_cases hi
  obtain ⟨psc, pec, roots, fc, hset, rfl, hpec, hfc⟩ := InmemStore.setPeerSet_eq hs
  have hitems : ∀ x, ¬pec.Holds x := by
    intro x hx
    obtain ⟨id, ri, hl, -⟩ := hpec x hx
    cases hl
  have hframes : ∀ j, j ∉ fc := fun j hj => List.not_mem_nil (hfc j hj)
  refine ⟨?_, ⟨?_, ?_, ?_, ?_, ?_, ?_, ?_, ?_, ?_, ?_⟩, ?_, fun x hx => (hitems x hx).elim, ?_, ?_,
    ?_, PeerSetCache.wellFormed_of_set (fun _ hj => (List.not_mem_nil hj).elim) hset, le_rfl, le_rfl, ?_, ?_, ?_, ?_,
    ?_, ?_, ?_, fun j hj => (hframes j hj).elim⟩
  all_goals simp [Hashgraph.new, InmemStore.new]
  all_goals omega

end Session

end Babble

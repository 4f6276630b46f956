import Babble.Run

/-!
# Blocks and peer-sets between commits

A `Shelf` is what a hashgraph keeps for others : the blocks, the peer-sets, and the anchor
block. The insertion of events and the passes of consensus read peer-sets and leave all of
it alone; it changes on the commit of a block, and when signatures are collected.
-/

set_option linter.unusedSectionVars false

namespace Babble

variable {C H K : Type} [DecidableEq H] [DecidableEq K] [Hex H] [Hex K]

/-! ## Shelves -/

/-- The blocks of a hashgraph, the peer-sets by which they are judged, and the anchor. -/
structure Shelf (K : Type) where
  blocks : Map ℤ (Block K)
  lastBlock : ℤ
  peerSets : PeerSetCache K
  anchor : Option ℤ

/-- The shelf of a hashgraph. -/
def Hashgraph.shelf (h : Hashgraph H K) : Shelf K :=
  ⟨h.store.blockCache, h.store.lastBlock, h.store.peerSetCache, h.anchorBlock⟩

/-- The part of the shelf that is in the store. -/
def InmemStore.shelved (st : InmemStore H K) : Map ℤ (Block K) × ℤ × PeerSetCache K :=
  (st.blockCache, st.lastBlock, st.peerSetCache)

/-! ## What the passes of consensus leave alone -/

namespace Hashgraph

variable {S : Scheme H K} {rt : Runtime} {α β : Type} {h h' h'' : Hashgraph H K}

/-- What stays the same in the passes of consensus : the events but for the fields of
consensus, the participants' events, the shelf and the counter of events. -/
structure SameRecords (h h' : Hashgraph H K) : Prop where
  events : EventsLike h.store.eventCache h'.store.eventCache
  participantEvents : h'.store.participantEventsCache = h.store.participantEventsCache
  shelf : h'.shelf = h.shelf
  topologicalIndex : h'.topologicalIndex = h.topologicalIndex

theorem SameRecords.refl (h : Hashgraph H K) : SameRecords h h :=
  ⟨.refl _, rfl, rfl, rfl⟩

theorem SameRecords.trans (h1 : SameRecords h h') (h2 : SameRecords h' h'') : SameRecords h h'' where
  events := h1.events.trans h2.events
  participantEvents := h2.participantEvents.trans h1.participantEvents
  shelf := h2.shelf.trans h1.shelf
  topologicalIndex := h2.topologicalIndex.trans h1.topologicalIndex

/-- A computation that keeps to what a pass may change. -/
def KeepsRecords (m : Hg H K α) : Prop :=
  Exec.Relates SameRecords m

theorem KeepsRecords.bind {m : Hg H K α} {f : α → Hg H K β} (hm : KeepsRecords m) (hf : ∀ a, KeepsRecords (f a)) :
    KeepsRecords (m >>= f) :=
  Exec.Relates.bind .trans hm hf

theorem keepsRecords_pure (a : α) : KeepsRecords (pure a : Hg H K α) :=
  SameRecords.refl

theorem keepsRecords_throw (err : Err) : KeepsRecords (throw err : Hg H K α) :=
  SameRecords.refl

theorem keepsRecords_get : KeepsRecords (get : Hg H K (Hashgraph H K)) :=
  SameRecords.refl

theorem keepsRecords_forM {l : List β} {k : β → Hg H K PUnit} (hk : ∀ b, KeepsRecords (k b)) :
    KeepsRecords (l.forM k) :=
  Exec.relates_forM .refl .trans hk

theorem keepsRecords_modify {f : Hashgraph H K → Hashgraph H K} (hf : ∀ h, SameRecords h (f h)) :
    KeepsRecords (modify f : Hg H K Unit) :=
  hf

theorem keepsRecords_query (q : InmemStore H K → Query H α) : KeepsRecords (query q : Hg H K α) := by
  intro h
  obtain ⟨r, m, he⟩ := exec_query q h
  rw [he]
  exact ⟨.refl _, rfl, rfl, rfl⟩

theorem keepsRecords_read (f : InmemStore H K → Except Err α) : KeepsRecords (read f : Hg H K α) := by
  intro h
  rw [exec_read]
  exact .refl h

theorem keepsRecords_modifyEvent {x : H} {f : Event H K → Event H K}
    (hf : ∀ e, Event.SameCoordinates e (f e)) :
    KeepsRecords (modifyStore fun st => st.modifyEvent x f : Hg H K Unit) := by
  refine keepsRecords_modify fun h => ?_
  cases he : h.store.eventCache.lookup x with
  | none =>
    simp only [InmemStore.modifyEvent, he]
    exact .refl h
  | some e =>
    simp only [InmemStore.modifyEvent, he]
    exact ⟨(EventsLike.refl _).insert he (hf e), rfl, rfl, rfl⟩

theorem keepsRecords_modifyRound (r : ℤ) (f : RoundInfo H → RoundInfo H) :
    KeepsRecords (modifyStore fun st => st.modifyRound r f : Hg H K Unit) := by
  refine keepsRecords_modify fun h => ?_
  cases hr : h.store.roundCache.lookup r with
  | none =>
    simp only [InmemStore.modifyRound, hr]
    exact .refl h
  | some info =>
    simp only [InmemStore.modifyRound, hr]
    exact ⟨.refl _, rfl, rfl, rfl⟩

theorem keepsRecords_setRound (r : ℤ) (info : RoundInfo H) :
    KeepsRecords (modifyStore fun st => st.setRound r info : Hg H K Unit) :=
  keepsRecords_modify fun _ => ⟨.refl _, rfl, rfl, rfl⟩

theorem keepsRecords_divideRounds : KeepsRecords (divideRounds S rt : Hg H K Unit) := by
  have hround : ∀ x, KeepsRecords (assignRound S rt x : Hg H K Unit) := fun x =>
    (keepsRecords_query _).bind fun _ =>
      (keepsRecords_modifyEvent (f := fun ev => { ev with round := some _ })
        fun _ => ⟨rfl, rfl, rfl, rfl, rfl⟩).bind fun _ =>
      (keepsRecords_read _).bind fun _ => (keepsRecords_modify fun h => by
        unfold queueRound
        split_ifs <;> exact ⟨.refl _, rfl, rfl, rfl⟩).bind fun _ => (keepsRecords_query _).bind fun _ =>
      keepsRecords_setRound _ _
  have hlamport : ∀ x, KeepsRecords (assignLamportTimestamp x : Hg H K Unit) := fun x =>
    (keepsRecords_query _).bind fun _ => keepsRecords_modifyEvent fun _ => ⟨rfl, rfl, rfl, rfl, rfl⟩
  refine keepsRecords_get.bind fun h => keepsRecords_forM fun x => ?_
  refine (keepsRecords_read _).bind fun ev => ?_
  split_ifs
  · exact (hround x).bind fun _ => hlamport x
  · exact hlamport x
  · exact (hround x).bind fun _ => keepsRecords_pure _
  · exact keepsRecords_pure _

theorem keepsRecords_decideFame : KeepsRecords (decideFame S rt : Hg H K Unit) := by
  have hballot : ∀ votes x r j (P : PeerSet K) y,
      KeepsRecords (ballot S rt votes x r j P y : Hg H K (Bool × Bool)) := by
    intro votes x r j P y
    unfold ballot
    extract_lets diff
    split_ifs
    · exact (keepsRecords_query _).bind fun _ => keepsRecords_pure _
    · exact (keepsRecords_read _).bind fun _ => (keepsRecords_read _).bind fun _ => (keepsRecords_query _).bind fun _ =>
        (keepsRecords_query _).bind fun _ => keepsRecords_pure _
  have hround : ∀ x r j (P : PeerSet K) (ys : List H) votes,
      KeepsRecords (voteRound S rt x r j P votes ys : Hg H K (Votes H × Bool)) := by
    intro x r j P ys
    induction ys with
    | nil => exact fun votes => keepsRecords_pure _
    | cons y ys ih =>
      intro votes
      refine (hballot votes x r j P y).bind fun v => ?_
      obtain ⟨v, d⟩ := v
      cases d with
      | true => exact (keepsRecords_modifyRound _ _).bind fun _ => keepsRecords_pure _
      | false => exact ih _
  have hloop : ∀ x r (n : ℕ) votes j,
      KeepsRecords (voteLoop S rt x r votes j n : Hg H K (Votes H)) := by
    intro x r n
    induction n with
    | zero => exact fun votes j => keepsRecords_pure _
    | succ n ih =>
      refine fun votes j => (keepsRecords_read _).bind fun _ => (keepsRecords_read _).bind fun P =>
        (keepsRecords_query _).bind fun ys => (hround x r j P ys votes).bind fun v => ?_
      obtain ⟨votes', d⟩ := v
      cases d with
      | true => exact keepsRecords_pure _
      | false => exact ih _ _
  have hwit : ∀ r (xs : List H) votes,
      KeepsRecords (decideWitnesses S rt r votes xs : Hg H K (Votes H)) := by
    intro r xs
    induction xs with
    | nil => exact fun votes => keepsRecords_pure _
    | cons x xs ih =>
      refine fun votes => (keepsRecords_read _).bind fun info => ?_
      split_ifs
      · exact ih votes
      · exact keepsRecords_get.bind fun _ => (hloop x r _ votes _).bind fun votes => ih votes
  have hrounds : ∀ (rs : List PendingRound) votes,
      KeepsRecords (decideRounds S rt votes rs : Hg H K (List ℤ)) := by
    intro rs
    induction rs with
    | nil => exact fun votes => keepsRecords_pure _
    | cons r rs ih =>
      exact fun votes => (keepsRecords_read _).bind fun _ => (keepsRecords_read _).bind fun _ =>
        (keepsRecords_query _).bind fun xs => (hwit _ xs votes).bind fun votes => (keepsRecords_read _).bind fun _ =>
        (keepsRecords_setRound _ _).bind fun _ => (ih votes).bind fun _ => keepsRecords_pure _
  exact keepsRecords_get.bind fun _ => (hrounds _ _).bind fun _ =>
    keepsRecords_modify fun _ => ⟨.refl _, rfl, rfl, rfl⟩

theorem keepsRecords_decideRoundReceived :
    KeepsRecords (decideRoundReceived S rt : Hg H K Unit) := by
  have hreceive : ∀ x i, KeepsRecords (receive x i : Hg H K Unit) := fun x i =>
    (keepsRecords_read _).bind fun _ =>
      (keepsRecords_modifyEvent (f := fun ev => { ev with roundReceived := some i })
        fun _ => ⟨rfl, rfl, rfl, rfl, rfl⟩).bind fun _ => keepsRecords_modifyRound _ _
  have hby : ∀ tr (P : PeerSet K) x, KeepsRecords (receivedBy rt tr P x : Hg H K Bool) :=
    fun tr P x => (keepsRecords_query _).bind fun _ => (keepsRecords_query _).bind fun _ => keepsRecords_pure _
  have hloop : ∀ x (n : ℕ) i, KeepsRecords (receiveLoop rt x i n : Hg H K Bool) := by
    intro x n
    induction n with
    | zero => exact fun i => keepsRecords_pure _
    | succ n ih =>
      refine fun i => keepsRecords_get.bind fun h => ?_
      cases h.store.getRound i with
      | error err => exact keepsRecords_pure _
      | ok tr =>
        refine (keepsRecords_read _).bind fun P => (keepsRecords_modifyRound _ _).bind fun _ => ?_
        split_ifs
        · refine (hby tr P x).bind fun b => ?_
          split_ifs
          · exact (hreceive x i).bind fun _ => keepsRecords_pure _
          · exact ih _
        · refine keepsRecords_get.bind fun h => ?_
          split_ifs
          · exact ih _
          · exact keepsRecords_pure _
  have hevents : ∀ xs : List H, KeepsRecords (receiveEvents S rt xs : Hg H K (List H)) := by
    intro xs
    induction xs with
    | nil => exact keepsRecords_pure _
    | cons x xs ih =>
      exact (keepsRecords_query _).bind fun r => keepsRecords_get.bind fun h => (hloop x _ _).bind fun _ =>
        ih.bind fun _ => keepsRecords_pure _
  exact keepsRecords_get.bind fun _ => (hevents _).bind fun _ =>
    keepsRecords_modify fun _ => ⟨.refl _, rfl, rfl, rfl⟩

theorem keepsRecords_openRound (r : ℤ) : KeepsRecords (openRound S rt r : Hg H K (Frame H K)) := by
  have hget : KeepsRecords (getFrame S rt r : Hg H K (Frame H K)) := by
    refine keepsRecords_get.bind fun h => ?_
    cases h.store.getFrame r with
    | ok fr => exact keepsRecords_pure _
    | error err =>
      simp only
      split_ifs
      · have hset : ∀ fr, KeepsRecords (modifyStore fun st => st.setFrame fr : Hg H K Unit) :=
          fun fr => keepsRecords_modify fun _ => ⟨.refl _, rfl, rfl, rfl⟩
        exact (keepsRecords_query _).bind fun fr => (hset fr).bind fun _ => keepsRecords_pure _
      · exact keepsRecords_throw _
  refine (keepsRecords_read _).bind fun _ => KeepsRecords.bind (hget : KeepsRecords (Exec.attempt _)) fun res => ?_
  cases res with
  | error err => exact keepsRecords_throw _
  | ok fr =>
    refine (keepsRecords_modify fun h => ?_).bind fun _ => keepsRecords_pure _
    refine List.foldlRecOn fr.events _ (motive := SameRecords h) (.refl h) fun h' hsame e _ => ?_
    exact hsame.trans ⟨.refl _, rfl, rfl, rfl⟩

theorem sameRecords_closeRound (r : ℤ) (fr : Frame H K) (h : Hashgraph H K) :
    SameRecords h (h.closeRound r fr) := by
  obtain ⟨n, first, he⟩ := Hashgraph.closeRound_eq r fr h
  rw [he]
  exact ⟨.refl _, rfl, rfl, rfl⟩

/-! ## What leaves the shelf alone -/

theorem KeepsRecords.fixes_shelf {m : Hg H K α} (hm : KeepsRecords m) : Exec.Fixes shelf m :=
  fun h => (hm h).shelf

theorem fixes_modifyStore {f : InmemStore H K → InmemStore H K}
    (hf : ∀ st, (f st).shelved = st.shelved) :
    Exec.Fixes shelf (modifyStore f : Hg H K Unit) :=
  Exec.fixes_modify fun h => by
    simp only [InmemStore.shelved, Prod.mk.injEq] at hf
    obtain ⟨h1, h2, h3⟩ := hf h.store
    rw [shelf, shelf, h1, h2, h3]

theorem fixes_setEvent (context : String) (ev : Event H K) :
    Exec.Fixes shelf (tryStore context fun st : InmemStore H K => st.setEvent S ev) := by
  intro h
  cases hs : h.store.setEvent S ev with
  | error err => rw [exec_tryStore_error hs]
  | ok st =>
    obtain ⟨pec, hst, -⟩ := setEvent_eq hs
    simp only [tryStore, Exec.exec_bind, Exec.exec_get, hs, Exec.exec_set]
    rw [hst]
    rfl

theorem fixes_updateAncestorFirstDescendant (ev : Event H K) :
    Exec.Fixes shelf (updateAncestorFirstDescendant S rt ev) := by
  intro h
  obtain ⟨_, h', he, ec, m, -, rfl⟩ :=
    returns_updateAncestorFirstDescendant_any S rt ev h
  rw [he]
  rfl

theorem fixes_insertEvent (event : SignedEvent H K) (wire : WireInfo) (fill : Bool) :
    Exec.Fixes shelf (insertEvent S rt event wire fill) :=
  (keepsRecords_read _).fixes_shelf.bind fun _ => Exec.fixes_get.bind fun _ =>
    (Exec.fixes_modify (by intro h; rfl)).bind fun _ => (keepsRecords_read _).fixes_shelf.bind fun _ =>
    Exec.fixes_get.bind fun _ => (fixes_setEvent _ _).bind fun _ =>
    (fixes_updateAncestorFirstDescendant _).bind fun _ => Exec.fixes_modify (by intro h; rfl)

theorem fixes_insertFrameEvent (e : FrameEvent H K) :
    Exec.Fixes shelf (insertFrameEvent S rt e : Hg H K Unit) :=
  (Exec.fixes_modify (by intro h; rfl)).bind fun _ => (keepsRecords_read _).fixes_shelf.bind fun _ =>
    (fixes_modifyStore (by intro st; rfl)).bind fun _ => Exec.fixes_get.bind fun _ =>
    (fixes_setEvent _ _).bind fun _ => (fixes_updateAncestorFirstDescendant _).bind fun _ =>
    fixes_modifyStore (by intro st; rfl)

end Hashgraph

/-! ## Calls -/

namespace Session

variable {S : Scheme H K} {rt : Runtime} {cb : CommitCallback C H K}
  {r : Session C H K → Session C H K → Prop}

/-- A relation that holds across what a pass may change. -/
def OnRecords (r : Session C H K → Session C H K → Prop) : Prop :=
  ∀ s hg, Hashgraph.SameRecords s.hg hg → r s { s with hg := hg }

/-- A relation that holds as long as the shelf stays the same. -/
def Unshelved (r : Session C H K → Session C H K → Prop) : Prop :=
  ∀ s hg, hg.shelf = s.hg.shelf → r s { s with hg := hg }

theorem Unshelved.onRecords (hr : Unshelved r) : OnRecords r :=
  fun s hg h => hr s hg h.shelf

theorem shelf_closeRound (r : ℤ) (fr : Frame H K) (h : Hashgraph H K) :
    (h.closeRound r fr).shelf = h.shelf :=
  (Hashgraph.sameRecords_closeRound r fr h).shelf

namespace OnRecords

theorem refl (hr : OnRecords r) (s : Session C H K) : r s s :=
  hr s s.hg (.refl _)

theorem onHashgraph (hr : OnRecords r) {α : Type} {m : Hg H K α} (hm : Hashgraph.KeepsRecords m) :
    Exec.Relates r (Session.onHashgraph m : Exec Err (Session C H K) α) := by
  intro s
  rw [exec_onHashgraph]
  exact hr s _ (hm s.hg)

variable (hr : OnRecords r) (htrans : ∀ {s s' s''}, r s s' → r s' s'' → r s s'')
  (hcommit : ∀ fr s, r s (commitFrame S cb fr s))

include hr htrans hcommit in
theorem processRounds (rs : List PendingRound) :
    Exec.Relates r (Session.processRounds S rt cb rs) := by
  have hround : ∀ k, Exec.Relates r (processRound S rt cb k) := fun k =>
    Exec.Relates.bind htrans (hr.onHashgraph (Hashgraph.keepsRecords_openRound k)) fun fr =>
      Exec.Relates.bind htrans (Exec.relates_modify (hcommit fr)) fun _ =>
        Exec.relates_modify fun s => hr s _ (Hashgraph.sameRecords_closeRound k fr s.hg)
  induction rs with
  | nil => exact hr.refl
  | cons p ps ih =>
    unfold Session.processRounds
    split_ifs
    · refine Exec.Relates.bind htrans (hround _).attempt fun res => ?_
      cases res with
      | error err => exact hr.refl
      | ok _ => exact Exec.Relates.bind htrans ih fun _ => hr.refl
    · exact hr.refl

include hr htrans hcommit in
/-- What holds across the passes and each commit holds across the consensus. -/
theorem consensus : Exec.Relates r (do
    Session.onHashgraph (Hashgraph.divideRounds S rt)
    Session.onHashgraph (Hashgraph.decideFame S rt)
    Session.onHashgraph (Hashgraph.decideRoundReceived S rt)
    Session.processDecidedRounds S rt cb) := by
  refine Exec.Relates.bind htrans (hr.onHashgraph Hashgraph.keepsRecords_divideRounds) fun _ => ?_
  refine Exec.Relates.bind htrans (hr.onHashgraph Hashgraph.keepsRecords_decideFame) fun _ => ?_
  refine Exec.Relates.bind htrans (hr.onHashgraph Hashgraph.keepsRecords_decideRoundReceived) fun _ => ?_
  refine Exec.Relates.bind htrans hr.refl fun s₀ => ?_
  refine Exec.Relates.bind htrans (hr.processRounds htrans hcommit _) fun res => ?_
  refine Exec.Relates.bind htrans (Exec.relates_modify fun s => hr s _ ⟨.refl _, rfl, rfl, rfl⟩)
    fun _ s => ?_
  rw [Exec.exec_ofExcept]
  exact hr.refl s

include hr htrans hcommit in
/-- What holds across the passes, the insertion and each commit holds across a call. -/
theorem feed {s : Session C H K} {i : Input H K}
    (hinsert : r s (Exec.exec (Session.onHashgraph
      (Hashgraph.insertEvent S rt i.event i.wire i.fill)) s).2) :
    r s (Session.feed S rt cb s i) :=
  Exec.Relates.bind_at htrans hinsert fun _ => hr.consensus htrans hcommit

end OnRecords

/-- What holds between commits, and across each commit, holds across a call. -/
theorem Unshelved.feed (hr : Unshelved r) (htrans : ∀ {s s' s''}, r s s' → r s' s'' → r s s'')
    (hcommit : ∀ fr s, r s (commitFrame S cb fr s)) (s : Session C H K) (i : Input H K) :
    r s (Session.feed S rt cb s i) := by
  refine hr.onRecords.feed htrans hcommit ?_
  rw [exec_onHashgraph]
  exact hr s _ (Hashgraph.fixes_insertEvent _ _ _ s.hg)

end Session

end Babble

import Babble.NodeState
import Babble.Tracking

/-!
# Catching up

A node that catches up restores its application from the snapshot of a response, and then
resets its core from the block and the frame. The checks of the block come after the
application was restored, and the events of the frame are loaded after the store was cleared.
So a response that is refused, or cannot be loaded, leaves a changed application, and one that
cannot be loaded a changed hashgraph too.

`Core.Installs` describes the responses that go through : the checks pass, the windows of the
frame's peers take its events one after the other, and the node's identifier is listed with its
key only. For these, and for no others, a fast-forward does all or nothing, whatever the
application (`Node.allOrNothing_iff`).
-/

set_option linter.unusedSectionVars false

namespace Babble

variable {H K : Type} [DecidableEq H] [DecidableEq K] [Hex H] [Hex K]

/-! ## The method -/

/-- A block with its frame, and a snapshot of the application after the block. -/
structure FastForwardResponse (H K : Type) where
  block : Block K
  frame : Frame H K
  snapshot : List UInt8

namespace Node

/-- A node with its application. -/
structure Catching (σ H K : Type) where
  state : State
  app : σ
  core : Core H K

/-- `Node.fastForward` with the best response, if there is one. `restore` is the application's
handler, which leaves the application as it is if it fails. An error of the receipts is only
logged. -/
def fastForward {σ : Type} (S : Scheme H K) (rt : Runtime) (v : Validator)
    (restore : List UInt8 → σ → Except Err σ) (resp : Option (FastForwardResponse H K)) :
    Exec Err (Catching σ H K) Unit := do
  match resp with
  | none =>
    modify fun n => { n with state := .babbling }
    throw (.msg "getBestFastForwardResponse returned nil")
  | some resp =>
    let app ← Exec.ofExcept (restore resp.snapshot (← get).app)
    modify fun n => { n with app := app }
    let (res, core) := Exec.exec (nodeFastForward S rt v resp.block resp.frame) (← get).core
    modify fun n => { n with core := core }
    Exec.ofExcept res
    modify fun n => { n with state := .babbling }

/-- After an error, the application and the core are as before. Otherwise the application is
restored from the snapshot, and the core is reset from the block and the frame, which passed
the checks. -/
structure AllOrNothing {σ : Type} (S : Scheme H K) (rt : Runtime) (v : Validator)
    (restore : List UInt8 → σ → Except Err σ) (resp : FastForwardResponse H K)
    (n : Catching σ H K) : Prop where
  nothing : ∀ err n', Exec.exec (fastForward S rt v restore (some resp)) n = (.error err, n') →
    n'.app = n.app ∧ n'.core = n.core
  all : ∀ n', Exec.exec (fastForward S rt v restore (some resp)) n = (.ok (), n') →
    restore resp.snapshot n.app = .ok n'.app ∧ ¬Core.Refuses S resp.block resp.frame ∧
      Exec.exec (nodeFastForward S rt v resp.block resp.frame) n.core = (.ok (), n'.core)

end Node

/-! ## Events that find their place -/

/-- The windows of the participants take the events one after the other. An event that is
stored already takes no place. -/
def ParticipantEventsCache.Takes (S : Scheme H K) :
    ParticipantEventsCache H K → List H → List (FrameEvent H K) → Prop
  | _, _, [] => True
  | pec, stored, a :: l =>
    a.core.hex S ∈ stored ∧ pec.Takes S stored l ∨
      a.core.hex S ∉ stored ∧ ∃ pec',
        pec.set a.core.creator (a.core.hex S) a.core.body.index = .ok pec' ∧
          pec'.Takes S (a.core.hex S :: stored) l

namespace Hashgraph

variable {S : Scheme H K} {rt : Runtime} {h : Hashgraph H K}

/-- What the loading of events keeps : the participants, whose windows hold stored events, and
the peer-sets. -/
structure Loads (h h' : Hashgraph H K) : Prop where
  registered : h.store.participantEventsCache.Registered →
    h'.store.participantEventsCache.Registered
  participants : h'.store.participantEventsCache.participants =
    h.store.participantEventsCache.participants
  items : (∀ x, h.store.participantEventsCache.Holds x → x ∈ h.store.eventCache) →
    ∀ x, h'.store.participantEventsCache.Holds x → x ∈ h'.store.eventCache
  peerSetCache : h'.store.peerSetCache = h.store.peerSetCache

theorem Loads.refl (h : Hashgraph H K) : Loads h h :=
  ⟨id, rfl, id, rfl⟩

theorem Loads.trans {h₁ h₂ h₃ : Hashgraph H K} (h : Loads h₁ h₂) (h' : Loads h₂ h₃) : Loads h₁ h₃ :=
  ⟨fun hr => h'.registered (h.registered hr), h'.participants.trans h.participants,
    fun hi => h'.items (h.items hi), h'.peerSetCache.trans h.peerSetCache⟩

/-- The windows of the participants stay theirs. -/
theorem Loads.window_ne_none {h' : Hashgraph H K} (hl : Loads h h')
    (hreg : h.store.participantEventsCache.Registered) {k : K} :
    h'.store.participantEventsCache.window k ≠ none ↔
      h.store.participantEventsCache.window k ≠ none := by
  rw [Ne, Ne, (hl.registered hreg).window_eq_none, hreg.window_eq_none,
    ParticipantEventsCache.participantID, ParticipantEventsCache.participantID, hl.participants]

/-- An event of a frame is loaded if it is stored or finds its place, and fails otherwise. -/
theorem insertFrameEvent_cases (S : Scheme H K) (rt : Runtime) (a : FrameEvent H K)
    (h : Hashgraph H K) :
    (a.core.hex S ∉ h.store.eventCache ∧
      (∃ err, h.store.participantEventsCache.set a.core.creator (a.core.hex S)
        a.core.body.index = .error err) ∧
      ∃ err h', Exec.exec (insertFrameEvent S rt a) h = (.error err, h')) ∨
    ∃ pec h', (a.core.hex S ∈ h.store.eventCache ∧ pec = h.store.participantEventsCache ∨
        a.core.hex S ∉ h.store.eventCache ∧ h.store.participantEventsCache.set a.core.creator
          (a.core.hex S) a.core.body.index = .ok pec) ∧
      Exec.exec (insertFrameEvent S rt a) h = (.ok (), h') ∧
      h'.store.participantEventsCache = pec ∧ h'.store.peerSetCache = h.store.peerSetCache ∧
      ∃ ev : Event H K, ev.wire = {} ∧
        EventsMarked (h.store.eventCache.insert (a.core.hex S) ev) h'.store.eventCache := by
  simp only [insertFrameEvent, Exec.exec_bind, Exec.exec_modify, exec_read, getOrNewRound_eq,
    modifyStore, Exec.exec_get, InmemStore.setRound]
  set st : InmemStore H K := { h.store with
    roundCache := h.store.roundCache.insert a.round
      (((h.store.roundCache.lookup a.round).getD {}).addCreatedEvent (a.core.hex S) a.witness)
    lastRound := if h.store.lastRound < a.round then a.round else h.store.lastRound } with hst
  set ev := initEventCoordinates S st
    { a.core with round := some a.round, lamportTimestamp := some a.lamportTimestamp } with hev
  cases hset : st.setEvent S ev with
  | error err =>
    have hl : st.eventCache.lookup (ev.hex S) = none := by
      by_contra hne
      obtain ⟨e, he⟩ := Option.ne_none_iff_exists'.1 hne
      rw [InmemStore.setEvent, he] at hset
      cases hset
    refine Or.inl ⟨AList.lookup_eq_none.1 hl, ?_, ?_⟩
    · cases hpec : st.participantEventsCache.set ev.creator (ev.hex S) ev.body.index with
      | error err => exact ⟨err, hpec⟩
      | ok pec =>
        rw [InmemStore.setEvent, hl] at hset
        simp only [hpec] at hset
        cases hset
    · rw [exec_tryStore_error hset]
      exact ⟨_, _, rfl⟩
  | ok st' =>
    obtain ⟨pec, rfl, hpec⟩ := setEvent_eq hset
    rw [exec_tryStore_ok hset]
    obtain ⟨_, h', he, ec, m, hmarked, rfl⟩ := returns_updateAncestorFirstDescendant_any S rt ev
      { h with
        memo := { h.memo with
          roundCache := h.memo.roundCache.insert (a.core.hex S) a.round
          witnessCache := h.memo.witnessCache.insert (a.core.hex S) a.witness
          timestampCache := h.memo.timestampCache.insert (a.core.hex S) a.lamportTimestamp }
        store := { st with
          participantEventsCache := pec
          eventCache := st.eventCache.insert (ev.hex S) ev } }
    simp only [he]
    exact Or.inr ⟨pec, _, hpec, rfl, rfl, rfl, ev, rfl, hmarked⟩

/-- The stored events after an event was loaded. -/
theorem mem_of_marked {a : FrameEvent H K} {ev : Event H K} {h' : Hashgraph H K}
    (hm : EventsMarked (h.store.eventCache.insert (a.core.hex S) ev) h'.store.eventCache) (x : H) :
    x ∈ h'.store.eventCache ↔ x = a.core.hex S ∨ x ∈ h.store.eventCache :=
  hm.mem_iff.trans (AList.mem_insert _)

/-- A window that takes an event stays among the participants', and holds what it held. -/
theorem loads_of_set {h' : Hashgraph H K} {k : K} {x : H} {i : ℤ}
    (hpec : x ∈ h.store.eventCache ∧
        h'.store.participantEventsCache = h.store.participantEventsCache ∨
      x ∉ h.store.eventCache ∧
        h.store.participantEventsCache.set k x i = .ok h'.store.participantEventsCache)
    (hps : h'.store.peerSetCache = h.store.peerSetCache)
    (hmem : ∀ y, y ∈ h'.store.eventCache ↔ y = x ∨ y ∈ h.store.eventCache) : Loads h h' := by
  rcases hpec with ⟨-, hpec⟩ | ⟨-, hset⟩
  · exact ⟨fun hr => hpec ▸ hr, congrArg _ hpec,
      fun hi y hy => (hmem y).2 (Or.inr (hi y (hpec ▸ hy))), hps⟩
  · refine ⟨fun hr => (hr.set hset).1, ParticipantEventsCache.participants_set hset, ?_, hps⟩
    intro hi y hy
    rcases ParticipantEventsCache.holds_of_set hset hy with rfl | hy
    · exact (hmem y).2 (Or.inl rfl)
    · exact (hmem y).2 (Or.inr (hi y hy))

/-- The events of a list are loaded if the windows take them. -/
theorem loads_of_takes (rt : Runtime) {l : List (FrameEvent H K)} {stored : List H}
    (hstored : ∀ x, x ∈ stored ↔ x ∈ h.store.eventCache)
    (ht : h.store.participantEventsCache.Takes S stored l) :
    Exec.Returns (l.forM (insertFrameEvent S rt)) h fun _ h' => Loads h h' := by
  induction l generalizing h stored with
  | nil => exact Exec.returns_pure (.refl h)
  | cons a l ih =>
    rcases insertFrameEvent_cases S rt a h with
      ⟨hnew, ⟨err, herr⟩, -⟩ | ⟨pec, h', hpec, he, rfl, hps, ev, -, hmarked⟩
    · rcases ht with ⟨hin, -⟩ | ⟨-, pec, hset, -⟩
      · exact absurd ((hstored _).1 hin) hnew
      · rw [herr] at hset
        cases hset
    · refine Exec.Returns.bind ⟨(), h', he, ?_⟩
      have hmem := mem_of_marked hmarked
      have hload := loads_of_set hpec hps hmem
      suffices hrest : ∃ stored', (∀ x, x ∈ stored' ↔ x ∈ h'.store.eventCache) ∧
          h'.store.participantEventsCache.Takes S stored' l by
        obtain ⟨stored', hstored', ht'⟩ := hrest
        exact (ih hstored' ht').mono fun _ _ => hload.trans
      rcases ht with ⟨hin, ht⟩ | ⟨hnew, pec, hset, ht⟩
      · obtain ⟨hold, hpec⟩ := hpec.resolve_right fun h => h.1 ((hstored _).1 hin)
        refine ⟨stored, fun x => ?_, hpec ▸ ht⟩
        rw [hmem, hstored]
        exact ⟨Or.inr, fun hx => hx.elim (fun hx => hx ▸ hold) id⟩
      · obtain ⟨-, hset'⟩ := hpec.resolve_left fun h => hnew ((hstored _).2 h.1)
        refine ⟨a.core.hex S :: stored, fun x => ?_, ?_⟩
        · rw [hmem, List.mem_cons, hstored]
        · rw [Except.ok.inj (hset'.symm.trans hset)]
          exact ht

/-- If the events of a list are loaded, the windows take them. -/
theorem takes_of_ok {l : List (FrameEvent H K)} {stored : List H}
    (hstored : ∀ x, x ∈ stored ↔ x ∈ h.store.eventCache)
    (hok : (Exec.exec (l.forM (insertFrameEvent S rt)) h).1 = .ok ()) :
    h.store.participantEventsCache.Takes S stored l := by
  induction l generalizing h stored with
  | nil => trivial
  | cons a l ih =>
    have hcons : (a :: l).forM (insertFrameEvent S rt) =
      insertFrameEvent S rt a >>= fun _ => l.forM (insertFrameEvent S rt) := rfl
    rw [hcons, Exec.exec_bind] at hok
    rcases insertFrameEvent_cases S rt a h with
      ⟨-, -, err, h', he⟩ | ⟨pec, h', hpec, he, rfl, -, ev, -, hmarked⟩
    · rw [he] at hok
      cases hok
    · rw [he] at hok
      have hmem := mem_of_marked hmarked
      rcases hpec with ⟨hold, hpec⟩ | ⟨hnew, hset⟩
      · refine Or.inl ⟨(hstored _).2 hold, hpec ▸ ih (fun x => ?_) hok⟩
        rw [hmem, hstored]
        exact ⟨Or.inr, fun hx => hx.elim (fun hx => hx ▸ hold) id⟩
      · refine Or.inr ⟨fun hin => hnew ((hstored _).1 hin), _, hset, ih (fun x => ?_) hok⟩
        rw [hmem, List.mem_cons, hstored]

end Hashgraph

/-! ## Resets that go through -/

namespace Hashgraph

variable {S : Scheme H K} {rt : Runtime} {h : Hashgraph H K} {block : Block K} {frame : Frame H K}
  {st : InmemStore H K}

/-- A reset whose events find their places goes through, and keeps the participants. -/
theorem returns_reset_of_takes (rt : Runtime) (block : Block K)
    (hst : h.store.reset rt h.memo.tick frame = .ok st) (hcleared : st.Cleared frame)
    (ht : st.participantEventsCache.Takes S []
      (Frame.sortedFrameEvents rt (h.memo.tick + 1) { frame with roots := st.roots })) :
    Exec.Returns (reset S rt block frame) h fun _ h' =>
      Loads { h.cleared with store := st } h' := by
  obtain ⟨_, h₁, he, hload⟩ := loads_of_takes (h := { h.cleared with store := st }) rt
    (fun x => iff_of_false List.not_mem_nil (hcleared.not_mem x)) ht
  refine ⟨(), startFrom block h₁, ?_, hload.trans ⟨id, rfl, id, rfl⟩⟩
  rw [exec_reset, hst]
  simp only [refill]
  rw [Exec.exec_bind, he]
  rfl

theorem takes_of_reset (hst : h.store.reset rt h.memo.tick frame = .ok st)
    (hcleared : st.Cleared frame) (hok : (Exec.exec (reset S rt block frame) h).1 = .ok ()) :
    st.participantEventsCache.Takes S []
      (Frame.sortedFrameEvents rt (h.memo.tick + 1) { frame with roots := st.roots }) := by
  rw [exec_reset, hst] at hok
  obtain ⟨_, h₁, he, -⟩ := Exec.exec_bind_ok hok
  exact takes_of_ok (h := { h.cleared with store := st })
    (fun x => iff_of_false List.not_mem_nil (hcleared.not_mem x)) (congrArg Prod.fst he)

end Hashgraph

namespace Core

variable {S : Scheme H K} {rt : Runtime} {v : Validator}

/-- The head is found if the validator's identifier is listed with its key, or not at all. -/
theorem setHeadAndSeq_ok_iff {s : Core H K} (hreg : s.hg.store.participantEventsCache.Registered)
    (hitems : ∀ x, s.hg.store.participantEventsCache.Holds x → x ∈ s.hg.store.eventCache) :
    (Exec.exec (setHeadAndSeq v) s).1 = .ok () ↔
      (v.id ∈ s.hg.store.peerSetCache.repertoireByID →
        s.hg.store.participantEventsCache.window (v.publicKeyHex : K) ≠ none) := by
  simp only [setHeadAndSeq, Exec.exec_bind, Exec.exec_get]
  cases hid : s.hg.store.peerSetCache.repertoireByID.lookup v.id with
  | none => exact iff_of_true rfl fun hin => absurd hin (AList.lookup_eq_none.1 hid)
  | some p =>
    have hin := Map.mem_iff_lookup.2 ⟨p, hid⟩
    have hlast := hreg.getLast_eq (v.publicKeyHex : K)
    cases hw : s.hg.store.participantEventsCache.window (v.publicKeyHex : K) with
    | none =>
      rw [hw] at hlast
      simp only [InmemStore.lastEventFrom, hlast]
      refine iff_of_false (fun h => ?_) fun h => h hin rfl
      cases h
    | some ri =>
      refine iff_of_true ?_ fun _ => Option.some_ne_none ri
      cases hl : ri.items.getLast? with
      | none =>
        simp only [hw, hl] at hlast
        simp only [InmemStore.lastEventFrom, hlast]
        rfl
      | some x =>
        simp only [hw, hl] at hlast
        obtain ⟨e, he, -⟩ := Query.getEvent_of_mem
          (hitems x (ParticipantEventsCache.holds_of_getLast hlast))
        simp only [InmemStore.lastEventFrom, hlast, Exec.exec_bind, Exec.exec_ofExcept, he,
          Exec.exec_set]

variable (S rt v) in
/-- The store that is cleared for the frame takes the frame's events, and has a window for the
validator if it lists the validator's identifier; and the checks pass. -/
structure Installs (s : Core H K) (block : Block K) (frame : Frame H K) : Prop where
  passes : ¬Refuses S block frame
  takes : ∀ st, s.hg.store.reset rt s.hg.memo.tick frame = .ok st →
    st.participantEventsCache.Takes S []
      (Frame.sortedFrameEvents rt (s.hg.memo.tick + 1) { frame with roots := st.roots })
  window : ∀ st, s.hg.store.reset rt s.hg.memo.tick frame = .ok st →
    v.id ∈ st.peerSetCache.repertoireByID →
      st.participantEventsCache.window (v.publicKeyHex : K) ≠ none

/-- A fast-forward goes through for the responses that can be installed, and for no others. -/
theorem fastForward_ok_iff {s : Core H K} {block : Block K} {frame : Frame H K} :
    (Exec.exec (fastForward S rt v block frame) s).1 = .ok () ↔ Installs S rt v s block frame := by
  by_cases hrefuse : Refuses S block frame
  · obtain ⟨err, he⟩ := fastForward_of_refuses hrefuse s
    rw [he]
    exact iff_of_false (fun h => by cases h) fun h => h.passes hrefuse
  obtain ⟨hblock, hhash⟩ := not_or.1 hrefuse
  obtain ⟨st, hst, hcleared⟩ := InmemStore.exists_reset rt s.hg.memo.tick s.hg.store frame
  have hforward : Exec.exec (fastForward S rt v block frame) s =
      Exec.exec (do
        Session.onHashgraph (Hashgraph.reset S rt block frame)
        setHeadAndSeq v
        modify fun s =>
          { s with host := { s.host with peers := ⟨frame.peers⟩, validators := ⟨frame.peers⟩ } }) s := by
    rw [fastForward, Exec.exec_bind, not_not.1 hblock, Exec.exec_ofExcept]
    simp only [if_neg hhash]
  have hst' : ∀ st', s.hg.store.reset rt s.hg.memo.tick frame = .ok st' → st' = st :=
    fun st' h' => Except.ok.inj (h'.symm.trans hst)
  rw [hforward]
  constructor
  · intro hok
    obtain ⟨_, s₁, hreset, hok⟩ := Exec.exec_bind_ok hok
    rw [Session.exec_onHashgraph] at hreset
    obtain ⟨hres, rfl⟩ := Prod.mk.inj hreset
    have ht := Hashgraph.takes_of_reset hst hcleared hres
    obtain ⟨_, h', he, hload⟩ := Hashgraph.returns_reset_of_takes rt block hst hcleared ht
    obtain ⟨_, s₂, hseq, -⟩ := Exec.exec_bind_ok hok
    have hw := (setHeadAndSeq_ok_iff (hload.registered hcleared.registered)
      (hload.items fun x hx => absurd hx (hcleared.items x))).1 (congrArg Prod.fst (he ▸ hseq))
    refine ⟨hrefuse, fun st' h => ?_, fun st' h hin => ?_⟩
    · obtain rfl := hst' st' h
      exact ht
    · obtain rfl := hst' st' h
      exact (hload.window_ne_none hcleared.registered).1 (hw (hload.peerSetCache ▸ hin))
  · intro hi
    obtain ⟨_, h', he, hload⟩ := Hashgraph.returns_reset_of_takes rt block hst hcleared
      (hi.takes st hst)
    rw [Exec.exec_bind, Session.exec_onHashgraph, he]
    simp only [Exec.exec_bind]
    have hseq := (setHeadAndSeq_ok_iff (v := v) (s := ⟨s.host, h'⟩)
      (hload.registered hcleared.registered) (hload.items fun x hx => absurd hx (hcleared.items x))).2 fun hin =>
        (hload.window_ne_none hcleared.registered).2
          (hi.window st hst (hload.peerSetCache ▸ hin))
    cases hres : Exec.exec (setHeadAndSeq v) (⟨s.host, h'⟩ : Core H K) with
    | mk r t =>
      rw [hres] at hseq
      obtain rfl : r = .ok () := hseq
      rfl

end Core

/-! ## All or nothing -/

/-- An error of the receipts does not matter. -/
theorem exec_nodeFastForward (S : Scheme H K) (rt : Runtime) (v : Validator) (block : Block K)
    (frame : Frame H K) (s : Core H K) :
    ((Exec.exec (nodeFastForward S rt v block frame) s).1 = .ok () ↔
      (Exec.exec (Core.fastForward S rt v block frame) s).1 = .ok ()) := by
  rw [nodeFastForward, Exec.exec_bind]
  cases Exec.exec (Core.fastForward S rt v block frame) s with
  | mk r t =>
    cases r with
    | ok _ => exact Iff.rfl
    | error err => exact iff_of_false (fun h => by cases h) fun h => by cases h

namespace Node

variable {S : Scheme H K} {rt : Runtime} {v : Validator} {resp : FastForwardResponse H K}
  {s : Core H K}

/-- The application fails and nothing happens, or it is restored, whatever happens to the
core. -/
theorem fastForward_cases {σ : Type} (S : Scheme H K) (rt : Runtime) (v : Validator)
    (restore : List UInt8 → σ → Except Err σ) (resp : FastForwardResponse H K)
    (n : Catching σ H K) :
    (∃ err, restore resp.snapshot n.app = .error err ∧
      Exec.exec (fastForward S rt v restore (some resp)) n = (.error err, n)) ∨
    ∃ app, restore resp.snapshot n.app = .ok app ∧
      ∃ state, Exec.exec (fastForward S rt v restore (some resp)) n =
        ((Exec.exec (nodeFastForward S rt v resp.block resp.frame) n.core).1,
          ⟨state, app, (Exec.exec (nodeFastForward S rt v resp.block resp.frame) n.core).2⟩) := by
  simp only [fastForward, Exec.exec_bind, Exec.exec_get, Exec.exec_ofExcept]
  cases hr : restore resp.snapshot n.app with
  | error err => exact Or.inl ⟨err, rfl, rfl⟩
  | ok app =>
    refine Or.inr ⟨app, rfl, ?_⟩
    simp only [Exec.exec_modify]
    cases Exec.exec (nodeFastForward S rt v resp.block resp.frame) n.core with
    | mk r core =>
      cases r with
      | ok _ => exact ⟨.babbling, rfl⟩
      | error err => exact ⟨n.state, rfl⟩

end Node

namespace Sample

/-- An application that takes the snapshot for its state. -/
def takeSnapshot (snapshot : List UInt8) (_ : List UInt8) : Except Err (List UInt8) :=
  .ok snapshot

/-- A node that has committed some events of its own. -/
def behind : Node.Catching (List UInt8) Bytes Bytes :=
  ⟨.catchingUp, [], Session.run scheme .plain (Core.commitCallback scheme (validator 1) acceptAll)
    alone (lone 4)⟩

/-- A response whose block nobody has signed. -/
def unsigned : FastForwardResponse Bytes Bytes :=
  ⟨Block.fromFrame scheme 0 (answerFrame 1), answerFrame 1, [7]⟩

/-- A response with an event of a creator that the frame does not list. -/
def unlisted : FastForwardResponse Bytes Bytes :=
  let frame := { answerFrame 1 with
    events := [⟨event 50 9 0 none none [], 1, 0, false⟩]
    peerSets := (∅ : Map ℤ (List (Peer Bytes))).insert 0 [peer 1] }
  ⟨(Block.fromFrame scheme 0 frame).setSignature
    { validator := [1], index := 0, signature := "1|1" }, frame, [7]⟩

/-- The node after a fast-forward. -/
def caughtUp (resp : FastForwardResponse Bytes Bytes) :
    Except Err Unit × Node.Catching (List UInt8) Bytes Bytes :=
  Exec.exec (Node.fastForward scheme .plain (validator 1) takeSnapshot (some resp)) behind

end Sample

end Babble

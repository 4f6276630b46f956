import Babble.Anchor
import Babble.Wire

/-!
# Insertions that fail

`InsertEvent` counts an event before it knows that it can be stored : after the checks it
takes the next topological index, and only then sets the wire fields and stores the event,
both of which may fail. The first main result says exactly when a failure leaves no trace
(`insertEvent_atomic`) : what passes the checks (`Checked`) has a place in the store
(`Placeable`). If this is so in all of a run, and no stored event is inserted again, the
events are numbered without gaps (`Numbered`).
-/

set_option linter.unusedSectionVars false

namespace Babble

variable {C H K : Type} [DecidableEq H] [DecidableEq K] [Hex H] [Hex K]

/-! ## What is checked, and what is not -/

namespace Hashgraph

variable {S : Scheme H K} {rt : Runtime} {st : InmemStore H K} {event : SignedEvent H K}
  {wire : WireInfo} {fill : Bool}

/-- What `InsertEvent` checks first : the signatures, that the self-parent is the creator's
last event, or that neither exists, and that the other-parent is known. -/
structure Checked (S : Scheme H K) (st : InmemStore H K) (event : SignedEvent H K) : Prop where
  verified : event.verify S = .ok true
  selfParent : (∃ x, st.lastEventFrom event.creator = .ok x ∧ event.body.selfParent = some x) ∨
    ∃ err, st.lastEventFrom event.creator = .error err ∧ err.isStore .empty = true ∧
      event.body.selfParent = none
  otherParent : ∀ x, event.body.otherParent = some x → x ∈ st.eventCache

/-- The wire fields can be set : the creators are in the repertoire, and the self-parent is
stored. -/
structure Wirable (st : InmemStore H K) (event : SignedEvent H K) : Prop where
  creator : event.creator ∈ st.peerSetCache.repertoireByPubKey
  selfParent : ∀ x, event.body.selfParent = some x → x ∈ st.eventCache
  otherParent : ∀ x, event.body.otherParent = some x → ∃ e, st.eventCache.lookup x = some e ∧
    e.creator ∈ st.peerSetCache.repertoireByPubKey

/-- There is a place for the event : its wire fields can be set, if they have to be, and it
is stored already or its creator's window takes its index. -/
structure Placeable (S : Scheme H K) (st : InmemStore H K) (event : SignedEvent H K)
    (fill : Bool) : Prop where
  wirable : fill = true → Wirable st event
  index : event.hex S ∈ st.eventCache ∨
    ∃ ri, st.participantEventsCache.window event.creator = some ri ∧
      (ri.lastIndex < 0 ∨
        ri.oldestCachedIndex ≤ event.body.index ∧ event.body.index ≤ ri.lastIndex + 1)

theorem checkSelfParent_ok_iff : checkSelfParent st event = .ok () ↔
    (∃ x, st.lastEventFrom event.creator = .ok x ∧ event.body.selfParent = some x) ∨
    ∃ err, st.lastEventFrom event.creator = .error err ∧ err.isStore .empty = true ∧
      event.body.selfParent = none := by
  unfold checkSelfParent
  cases st.lastEventFrom event.creator with
  | error err => by_cases h : err.isStore .empty = true ∧ event.body.selfParent = none <;> simp [h]
  | ok x => by_cases h : event.body.selfParent = some x <;> simp [h]

theorem checkOtherParent_ok_iff : checkOtherParent st event = .ok () ↔
    ∀ x, event.body.otherParent = some x → x ∈ st.eventCache := by
  unfold checkOtherParent InmemStore.getEvent
  cases event.body.otherParent with
  | none => simp
  | some op =>
    cases h : st.eventCache.lookup op with
    | none => simp [Map.mem_iff_lookup, h]
    | some e => simp [Map.mem_iff_lookup, h]

theorem checkEvent_ok_iff : checkEvent S st event = .ok () ↔ Checked S st event := by
  have hiff : Checked S st event ↔ event.verify S = .ok true ∧ checkSelfParent st event = .ok () ∧
      checkOtherParent st event = .ok () := by
    rw [checkSelfParent_ok_iff, checkOtherParent_ok_iff]
    exact ⟨fun h => ⟨h.verified, h.selfParent, h.otherParent⟩, fun h => ⟨h.1, h.2.1, h.2.2⟩⟩
  rw [hiff, checkEvent]
  cases event.verify S with
  | error err => simp [bind, Except.bind]
  | ok b =>
    cases b with
    | false => simp [bind, Except.bind]
    | true => cases checkSelfParent st event <;> simp [bind, Except.bind]

theorem repertoireID_isOk {k : K} :
    (∃ id, repertoireID st k = .ok id) ↔ k ∈ st.peerSetCache.repertoireByPubKey := by
  rw [Map.mem_iff_lookup, repertoireID]
  cases st.peerSetCache.repertoireByPubKey.lookup k <;> simp

theorem setWireInfo_isOk : (∃ w, setWireInfo st event = .ok w) ↔ Wirable st event := by
  constructor
  · rintro ⟨w, hw⟩
    obtain ⟨hid, -, hsp, -, hop⟩ := setWireInfo_ok hw
    refine ⟨repertoireID_isOk.1 ⟨_, hid⟩, fun x hx => ?_, fun x hx => ?_⟩
    · obtain ⟨e, he, -⟩ := hsp x hx
      exact Map.mem_iff_lookup.2 ⟨e, InmemStore.getEvent_eq_ok.1 he⟩
    · obtain ⟨e, he, hk, -⟩ := hop x hx
      exact ⟨e, InmemStore.getEvent_eq_ok.1 he, repertoireID_isOk.1 ⟨_, hk⟩⟩
  · rintro ⟨hc, hsp, hop⟩
    obtain ⟨id, hid⟩ := repertoireID_isOk.2 hc
    unfold setWireInfo InmemStore.getEvent
    rw [hid]
    cases hs : event.body.selfParent with
    | none =>
      cases ho : event.body.otherParent with
      | none => exact ⟨_, rfl⟩
      | some op =>
        obtain ⟨e, he, hk⟩ := hop op ho
        obtain ⟨oid, hoid⟩ := repertoireID_isOk.2 hk
        simp only [he, hoid, bind, Except.bind, pure, Except.pure]
        exact ⟨_, rfl⟩
    | some sp =>
      obtain ⟨e', he'⟩ := Map.mem_iff_lookup.1 (hsp sp hs)
      cases ho : event.body.otherParent with
      | none =>
        simp only [he', bind, Except.bind, pure, Except.pure]
        exact ⟨_, rfl⟩
      | some op =>
        obtain ⟨e, he, hk⟩ := hop op ho
        obtain ⟨oid, hoid⟩ := repertoireID_isOk.2 hk
        simp only [he, he', hoid, bind, Except.bind, pure, Except.pure]
        exact ⟨_, rfl⟩

theorem wireInfo_isOk :
    (∃ w, wireInfo st event wire fill = .ok w) ↔ (fill = true → Wirable st event) := by
  unfold wireInfo
  cases fill with
  | false => simp
  | true =>
    rw [← setWireInfo_isOk]
    cases setWireInfo st event <;> simp

/-- The creator of a checked event has a window. -/
theorem Checked.window (hc : Checked S st event) :
    ∃ ri, st.participantEventsCache.window event.creator = some ri := by
  by_contra hno
  -- without a window there is neither a last event nor the error of an empty one
  have hlast : ∃ err, st.lastEventFrom event.creator = .error err ∧ err.isStore .empty = false := by
    unfold InmemStore.lastEventFrom ParticipantEventsCache.getLast
    cases hid : st.participantEventsCache.participantID event.creator with
    | error err =>
      refine ⟨err, rfl, ?_⟩
      unfold ParticipantEventsCache.participantID at hid
      split at hid
      · cases hid
      · obtain rfl := Except.error.inj hid
        rfl
    | ok id =>
      cases hl : st.participantEventsCache.rim.mapping.lookup id with
      | none =>
        refine ⟨.store st.participantEventsCache.rim.name .keyNotFound, ?_, rfl⟩
        simp only [bind, Except.bind, RollingIndexMap.getLast, hl]
      | some ri => exact (hno ⟨ri, ParticipantEventsCache.window_eq_some.2 ⟨id, hid, hl⟩⟩).elim
  obtain ⟨err, herr, hkind⟩ := hlast
  rcases hc.selfParent with ⟨x, hx, -⟩ | ⟨err', herr', hempty, -⟩
  · rw [herr] at hx
    cases hx
  · rw [herr] at herr'
    cases herr'
    rw [hkind] at hempty
    cases hempty

/-- A checked event is stored if it is stored already or its creator's window takes it. -/
theorem setEvent_isOk (hc : Checked S st event) {ev : Event H K} (hev : ev.toSignedEvent = event) :
    (∃ st', st.setEvent S ev = .ok st') ↔ event.hex S ∈ st.eventCache ∨
      ∃ ri, st.participantEventsCache.window event.creator = some ri ∧
        (ri.lastIndex < 0 ∨
          ri.oldestCachedIndex ≤ event.body.index ∧ event.body.index ≤ ri.lastIndex + 1) := by
  subst hev
  obtain ⟨ri, hri⟩ := hc.window
  have hwindow : (∃ pec, st.participantEventsCache.set ev.creator (ev.hex S) ev.body.index =
      .ok pec) ↔ ∃ ri, st.participantEventsCache.window ev.creator = some ri ∧
        (ri.lastIndex < 0 ∨
          ri.oldestCachedIndex ≤ ev.body.index ∧ ev.body.index ≤ ri.lastIndex + 1) := by
    rw [ParticipantEventsCache.exists_set_iff hri, RollingIndex.exists_set_iff]
    exact ⟨fun h => ⟨ri, hri, h⟩, fun ⟨ri', hri', h⟩ => Option.some.inj (hri.symm.trans hri') ▸ h⟩
  rw [← hwindow, Map.mem_iff_lookup, InmemStore.setEvent]
  cases st.eventCache.lookup (ev.hex S) with
  | some e => exact ⟨fun _ => .inl ⟨e, rfl⟩, fun _ => ⟨_, rfl⟩⟩
  | none =>
    cases st.participantEventsCache.set ev.creator (ev.hex S) ev.body.index with
    | error err => exact ⟨nofun, by rintro (⟨_, h⟩ | ⟨_, h⟩) <;> cases h⟩
    | ok pec => exact ⟨fun _ => .inr ⟨pec, rfl⟩, fun _ => ⟨_, rfl⟩⟩

instance (S : Scheme H K) (st : InmemStore H K) (event : SignedEvent H K) :
    Decidable (Checked S st event) :=
  decidable_of_iff _ checkEvent_ok_iff

instance (st : InmemStore H K) (event : SignedEvent H K) : Decidable (Wirable st event) :=
  decidable_of_iff ((setWireInfo st event).isOk = true) <| by
    rw [← setWireInfo_isOk]
    cases setWireInfo st event <;> simp [Except.isOk, Except.toBool]

instance (S : Scheme H K) (st : InmemStore H K) (event : SignedEvent H K) (fill : Bool) :
    Decidable (Placeable S st event fill) :=
  decidable_of_iff ((fill = true → Wirable st event) ∧ (event.hex S ∈ st.eventCache ∨
    ∃ ri ∈ st.participantEventsCache.window event.creator, ri.lastIndex < 0 ∨
      ri.oldestCachedIndex ≤ event.body.index ∧ event.body.index ≤ ri.lastIndex + 1))
    ⟨fun h => ⟨h.1, h.2⟩, fun h => ⟨h.wirable, h.index⟩⟩

/-! ## One insertion -/

variable {h : Hashgraph H K}

theorem exec_insertEvent_of_not_checked (rt : Runtime) (wire : WireInfo) (fill : Bool)
    (hc : ¬Checked S h.store event) :
    ∃ err, Exec.exec (insertEvent S rt event wire fill) h = (.error err, h) := by
  cases hcheck : checkEvent S h.store event with
  | ok _ => exact (hc (checkEvent_ok_iff.1 hcheck)).elim
  | error err =>
    refine ⟨err, ?_⟩
    rw [insertEvent, Exec.exec_bind, exec_read, hcheck]

/-- An event without a place is counted all the same. -/
theorem exec_insertEvent_of_not_placeable (rt : Runtime) (wire : WireInfo)
    (hc : Checked S h.store event) (hp : ¬Placeable S h.store event fill) :
    ∃ err, Exec.exec (insertEvent S rt event wire fill) h =
      (.error err, { h with topologicalIndex := h.topologicalIndex + 1 }) := by
  simp only [insertEvent, Exec.exec_bind, exec_read, Exec.exec_get, Exec.exec_modify,
    checkEvent_ok_iff.2 hc]
  cases hwire : wireInfo h.store event wire fill with
  | error err => exact ⟨err, rfl⟩
  | ok wire' =>
    have hwirable := wireInfo_isOk.1 ⟨wire', hwire⟩
    simp only [storeEvent, Exec.exec_bind, Exec.exec_get]
    set ev := initEventCoordinates S h.store ({ event with
      wire := wire', topologicalIndex := h.topologicalIndex } : Event H K) with hev
    cases hset : h.store.setEvent S ev with
    | ok st => exact (hp ⟨hwirable, (setEvent_isOk hc rfl).1 ⟨st, hset⟩⟩).elim
    | error err =>
      rw [exec_tryStore_error hset]
      exact ⟨_, rfl⟩

/-- An event with a place is stored under the next number. -/
theorem exec_insertEvent_of_placeable (rt : Runtime) (wire : WireInfo)
    (hc : Checked S h.store event) (hp : Placeable S h.store event fill) :
    ∃ (i : Insertion S h event) (ec : Map H (Event H K)) (h' : Hashgraph H K),
      i.Filled wire fill ∧ EventsMarked i.store.eventCache ec ∧
      h'.store = { i.store with eventCache := ec } ∧
      h'.topologicalIndex = h.topologicalIndex + 1 ∧
      Exec.exec (insertEvent S rt event wire fill) h = (.ok (), h') := by
  obtain ⟨wire', hwire⟩ : ∃ w, wireInfo h.store event wire fill = .ok w :=
    wireInfo_isOk.2 hp.wirable
  have hok : ∃ h', Exec.exec (insertEvent S rt event wire fill) h = (.ok (), h') := by
    simp only [insertEvent, Exec.exec_bind, exec_read, Exec.exec_get, Exec.exec_modify,
      checkEvent_ok_iff.2 hc, hwire, storeEvent]
    set ev := initEventCoordinates S h.store ({ event with
      wire := wire', topologicalIndex := h.topologicalIndex } : Event H K) with hev
    obtain ⟨st, hst⟩ : ∃ st, h.store.setEvent S ev = .ok st :=
      (setEvent_isOk hc rfl).2 hp.index
    obtain ⟨_, h₁, he, -⟩ := returns_updateAncestorFirstDescendant_any S rt ev
      { h with topologicalIndex := h.topologicalIndex + 1, store := st }
    simp only [tryStore, Exec.exec_bind, Exec.exec_get, hst, Exec.exec_set, he]
    exact ⟨_, rfl⟩
  obtain ⟨h', hok⟩ := hok
  rcases insertEvent_cases_of S rt event wire fill fun i hi _ =>
    (returns_updateAncestorFirstDescendant_any S rt i.ev _).mono fun _ _ => And.intro hi with
    ⟨err, ti, he⟩ | ⟨i, _, ⟨hi, ec, m, hec, rfl⟩, he⟩
  · rw [hok] at he
    cases he
  · exact ⟨i, ec, _, hi, hec, rfl, rfl, he⟩

end Hashgraph

/-! ## Invariants of the stored events -/

namespace Hashgraph

variable {h h' : Hashgraph H K}

/-- The same events but for the fields of consensus, under the same participants and peers, with
the same counter of events. -/
structure SameListing (h h' : Hashgraph H K) : Prop where
  events : EventsLike h.store.eventCache h'.store.eventCache
  participantEvents : h'.store.participantEventsCache = h.store.participantEventsCache
  peerSets : h'.store.peerSetCache = h.store.peerSetCache
  topologicalIndex : h'.topologicalIndex = h.topologicalIndex

theorem SameRecords.sameListing (hs : SameRecords h h') : SameListing h h' :=
  ⟨hs.events, hs.participantEvents, congrArg Shelf.peerSets hs.shelf, hs.topologicalIndex⟩

/-- A property of the stored events that no one changes but the insertion of events : it holds
whatever else is done, and when participants are added. -/
structure Stable (I : Hashgraph H K → Prop) : Prop where
  same : ∀ {h h'}, SameListing h h' → I h → I h'
  peerSet : ∀ {h r P st}, h.store.setPeerSet r P = .ok st → I h → I { h with store := st }

namespace Stable

variable {S : Scheme H K} {rt : Runtime} {v : Validator} {proxy : ProxyCommitCallback K}
  {I : Hashgraph H K → Prop}

/-- Blocks, anchors and pending signatures are another matter. -/
theorem of_eq (hI : Stable I) (hec : h'.store.eventCache = h.store.eventCache)
    (hpec : h'.store.participantEventsCache = h.store.participantEventsCache)
    (hpsc : h'.store.peerSetCache = h.store.peerSetCache)
    (hti : h'.topologicalIndex = h.topologicalIndex) : I h → I h' :=
  hI.same ⟨hec ▸ EventsLike.refl _, hpec, hpsc, hti⟩

theorem processSigPool (hI : Stable I) :
    Exec.Relates (fun h h' => I h → I h') (processSigPool S rt : Hg H K Unit) := by
  have htrans : ∀ {h h' h'' : Hashgraph H K}, (I h → I h') → (I h' → I h'') → I h → I h'' :=
    fun h1 h2 => h2 ∘ h1
  have hsig : ∀ bs, Exec.Relates (fun h h' => I h → I h') (processSignature S bs : Hg H K Unit) := by
    intro bs h
    rcases processSignature_cases (S := S) bs h with he | ⟨b, P, -, -, -, -, pool, he⟩
    · rw [he]
      exact id
    · rw [he]
      have hset : I h → I { h with store := h.store.setBlock (b.setSignature bs) } :=
        hI.of_eq rfl rfl rfl rfl
      exact htrans (htrans hset (relates_setAnchorBlock (r := fun h h' => I h → I h')
        (fun _ => id) (fun _ _ => hI.of_eq rfl rfl rfl rfl) _ _)) (hI.of_eq rfl rfl rfl rfl)
  exact Exec.Relates.bind htrans (fun _ => id) fun _ =>
    Exec.Relates.bind htrans (fun _ => hI.of_eq rfl rfl rfl rfl) fun _ =>
      Exec.relates_forM (fun _ => id) htrans hsig

theorem across (hI : Stable I) (b : Block K) :
    Core.Across b fun s s' : Core H K => I s.hg → I s'.hg where
  refl _ := id
  trans h1 h2 := h2 ∘ h1
  host _ _ _ _ := id
  block _ _ _ := hI.of_eq rfl rfl rfl rfl
  anchor _ _ := hI.of_eq rfl rfl rfl rfl
  peerSet _ _ _ hst := hI.peerSet hst

/-- A call, if the host and the insertion keep the property. -/
theorem feed (hI : Stable I) {cb : CommitCallback C H K}
    (hcb : ∀ b (s : Session C H K), I s.hg → I (cb b s).hg) {s : Session C H K}
    {i : Session.Input H K}
    (hinsert : I s.hg → I (Exec.exec (insertEvent S rt i.event i.wire i.fill) s.hg).2) :
    I s.hg → I (Session.feed S rt cb s i).hg := by
  have hrec : Session.OnRecords fun s s' : Session C H K => I s.hg → I s'.hg :=
    fun s hg hs => hI.same hs.sameListing
  refine hrec.feed (fun h1 h2 => h2 ∘ h1) (fun fr s => ?_) ?_
  · rw [Session.commitFrame_eq]
    split_ifs
    · exact id
    · have hset (b : Block K) : I s.hg → I (Session.storing b s).hg := hI.of_eq rfl rfl rfl rfl
      exact fun hs => hcb _ _ (hset _ hs)
  · rw [Session.exec_onHashgraph]
    exact hinsert

/-- One action of a core, if the insertion keeps the property. -/
theorem step (hI : Stable I) {s : Core H K} {a : Core.Action H K}
    (hinsert : ∀ i, a = .insert i → I s.hg →
      I (Exec.exec (insertEvent S rt i.event i.wire i.fill) s.hg).2) :
    I s.hg → I (Core.step S rt v proxy s a).hg := by
  cases a with
  | receive bs => exact hI.of_eq rfl rfl rfl rfl
  | processSigPool =>
    rw [Core.step, Session.exec_onHashgraph]
    exact hI.processSigPool s.hg
  | insert i =>
    obtain ⟨head, seq, he⟩ := Core.insertEventAndRunConsensus_eq S rt v proxy s i
    rw [Core.step, he]
    exact hI.feed (fun b s => (hI.across b).commitCallback s) (hinsert i rfl)

/-- A new core. -/
theorem new (hI : Stable I) {n : ℕ} {peers P : PeerSet K} (h₀ : I (Hashgraph.new (InmemStore.new n))) :
    I (Core.new peers P (InmemStore.new n) : Core H K).hg := by
  obtain ⟨h, hi⟩ := Core.exists_init (H := H) n P
  rw [Core.new_hg hi]
  obtain ⟨st, hs, rfl⟩ := Hashgraph.init_cases hi
  exact hI.peerSet hs h₀

end Stable

end Hashgraph

/-! ## Numbered events -/

namespace Hashgraph

variable {S : Scheme H K} {rt : Runtime} {event : SignedEvent H K} {wire : WireInfo} {fill : Bool}
  {h : Hashgraph H K}

/-- The stored events in the order of their insertion : the number of each is its position,
and the next one is free. -/
structure Numbered (xs : List H) (h : Hashgraph H K) : Prop where
  nodup : xs.Nodup
  mem_iff : ∀ x, x ∈ xs ↔ x ∈ h.store.eventCache
  number : ∀ (i : ℕ) x, xs[i]? = some x →
    (h.store.eventCache.lookup x).map Event.topologicalIndex = some (i : ℤ)
  count : h.topologicalIndex = xs.length

namespace Numbered

variable {xs : List H} {h' : Hashgraph H K}

theorem mem_iff_number {ec : Map H (Event H K)} {x : H} :
    x ∈ ec ↔ ((ec.lookup x).map Event.topologicalIndex).isSome = true := by
  rw [Option.isSome_map, AList.lookup_isSome]

theorem of_lookup (hn : Numbered xs h)
    (hnumber : ∀ x, (h'.store.eventCache.lookup x).map Event.topologicalIndex =
      (h.store.eventCache.lookup x).map Event.topologicalIndex)
    (hcount : h'.topologicalIndex = h.topologicalIndex) : Numbered xs h' where
  nodup := hn.nodup
  mem_iff x := by
    rw [hn.mem_iff, mem_iff_number, mem_iff_number, hnumber]
  number i x hx := (hnumber x).trans (hn.number i x hx)
  count := hcount.trans hn.count

theorem stable : Stable fun h : Hashgraph H K => ∃ xs, Numbered xs h where
  same hs := fun ⟨xs, hn⟩ =>
    ⟨xs, hn.of_lookup (hs.events.map_lookup fun _ _ hm => hm.topologicalIndex) hs.topologicalIndex⟩
  peerSet hst := fun ⟨xs, hn⟩ => by
    obtain ⟨psc, pec, roots, fc, -, rfl, -⟩ := InmemStore.setPeerSet_eq hst
    exact ⟨xs, hn.of_lookup (fun _ => rfl) rfl⟩

/-- A new event with a place gets the next number. -/
theorem insertEvent (hn : Numbered xs h)
    (hp : Checked S h.store event →
      Placeable S h.store event fill ∧ event.hex S ∉ h.store.eventCache) :
    ∃ xs, Numbered xs (Exec.exec (insertEvent S rt event wire fill) h).2 := by
  by_cases hc : Checked S h.store event
  · obtain ⟨hplace, hnew⟩ := hp hc
    obtain ⟨i, ec, h', hfilled, hec, hst, hti, he⟩ :=
      exec_insertEvent_of_placeable rt wire hc hplace
    obtain ⟨pec, hstore, -⟩ := setEvent_eq i.setEvent
    have hev : i.ev.hex S = event.hex S := congrArg (SignedEvent.hex S) i.signed
    have hlookup : ∀ x, (h'.store.eventCache.lookup x).map Event.topologicalIndex =
        if x = event.hex S then some h.topologicalIndex
        else (h.store.eventCache.lookup x).map Event.topologicalIndex := by
      intro x
      have hmark : ∀ e e' : Event H K, Marks e e' → e'.topologicalIndex = e.topologicalIndex :=
        fun e e' hm => by rw [hm.eq]
      rw [hst, hec.map_lookup hmark x, hstore, hev, Map.lookup_insert_ite]
      split_ifs
      · rw [Option.map_some, hfilled.2]
      · rfl
    rw [he]
    refine ⟨xs ++ [event.hex S], ?_, fun x => ?_, fun j x hx => ?_, ?_⟩
    · rw [← List.concat_eq_append]
      exact hn.nodup.concat (mt (hn.mem_iff _).1 hnew)
    · rw [List.mem_append, List.mem_singleton, hn.mem_iff, mem_iff_number, mem_iff_number, hlookup]
      split_ifs with hx <;> simp [hx]
    · rw [hlookup]
      rw [List.getElem?_append] at hx
      split_ifs at hx with hj
      · have hne : x ≠ event.hex S := by
          rintro rfl
          exact hnew ((hn.mem_iff _).1 (List.mem_of_getElem? hx))
        rw [if_neg hne]
        exact hn.number j x hx
      · obtain ⟨hj', rfl⟩ := List.getElem?_eq_some_iff.1 hx
        have hlast : j = xs.length := by
          simp only [List.length_singleton] at hj'
          omega
        simp [hn.count, hlast]
    · rw [hti, hn.count]
      simp
  · obtain ⟨err, he⟩ := exec_insertEvent_of_not_checked rt wire fill hc
    rw [he]
    exact ⟨xs, hn⟩

end Numbered

end Hashgraph

/-! ## Runs of a core -/

namespace Core

variable {S : Scheme H K} {rt : Runtime} {v : Validator} {proxy : ProxyCommitCallback K}

/-- An insertion that meets the condition : what passes the checks has a place, and is
new. -/
def Fits (S : Scheme H K) (s : Core H K) : Action H K → Prop
  | .insert i => Hashgraph.Checked S s.hg.store i.event →
      Hashgraph.Placeable S s.hg.store i.event i.fill ∧ i.event.hex S ∉ s.hg.store.eventCache
  | .receive _ => True
  | .processSigPool => True

instance (S : Scheme H K) (s : Core H K) : ∀ a, Decidable (Fits S s a)
  | .insert _ => inferInstanceAs (Decidable (_ → _))
  | .receive _ => isTrue trivial
  | .processSigPool => isTrue trivial

theorem numbered_step {s : Core H K} {a : Action H K} (ha : Fits S s a) :
    (∃ xs, Hashgraph.Numbered xs s.hg) → ∃ xs, Hashgraph.Numbered xs (step S rt v proxy s a).hg := by
  refine Hashgraph.Numbered.stable.step ?_
  rintro i rfl ⟨xs, hn⟩
  exact hn.insertEvent ha

theorem numbered_new (n : ℕ) (peers P : PeerSet K) :
    ∃ xs, Hashgraph.Numbered xs (Core.new peers P (InmemStore.new n) : Core H K).hg :=
  Hashgraph.Numbered.stable.new
    ⟨[], List.nodup_nil, fun x => by simp [InmemStore.new, Hashgraph.new], nofun, rfl⟩

end Core

namespace Sample

/-- The only validator makes an event. -/
def opening : Session.Input Bytes Bytes :=
  ⟨event 0 1 0 none none [], {}, true⟩

/-- The next event of the validator, with the index that follows. -/
def second : Session.Input Bytes Bytes :=
  ⟨event 1 1 1 (some 0) none [], {}, true⟩

/-- A next event that skips an index. -/
def skipping : Session.Input Bytes Bytes :=
  ⟨event 2 1 2 (some 0) none [], {}, true⟩

/-- The hashgraph of the validator after its first event. -/
def opened : Hashgraph Bytes Bytes :=
  Hashgraph.insertInput scheme .plain alone.hg opening

end Sample

end Babble

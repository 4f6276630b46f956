import Babble.Lru
import Babble.Listing
import Babble.Sample

/-!
# The event cache and the windows of participants

The stores keep events in a least-recently-used cache, and the hashes of every
participant's events in a rolling window. Both forget, each in its own way. `SetEvent` takes
an event that is not in the cache for a new one and puts it in its creator's window, at its
index.

Here the cache is the true one, where the rest of the development has a plain map. A store
is used in any way with events whose indexes are consecutive for each creator; then setting
an event again succeeds and changes no answer exactly if the event is still in the cache, or
its index still in the window (`setEvent_again_iff`). `BadgerStore` writes through to a
database, and answers from it what has left the window; but the windows decide.
-/

set_option linter.unusedSectionVars false

namespace Babble

variable {H K : Type} [DecidableEq H] [DecidableEq K] [Hex H] [Hex K]

/-! ## The two stores -/

/-- The events of an `InmemStore`. -/
structure EventStore (H K : Type) where
  eventCache : Lru H (Event H K)
  participantEventsCache : ParticipantEventsCache H K

namespace EventStore

/-- An empty store with participants. -/
def new (cacheSize : ℕ) (participants : List (Peer K)) : EventStore H K where
  eventCache := .new cacheSize
  participantEventsCache :=
    (participants.foldl InmemStore.addParticipant (InmemStore.new cacheSize)).participantEventsCache

/-- An event by hash, from the cache, where it becomes the most recent one. -/
def getEvent (s : EventStore H K) (key : H) : Except Err (Event H K) × EventStore H K :=
  match s.eventCache.get key with
  | (some event, cache) => (.ok event, { s with eventCache := cache })
  | (none, _) => (.error (.store "EventCache" .keyNotFound), s)

/-- Store an event. One that is not in the cache also goes to its creator's window. -/
def setEvent (S : Scheme H K) (s : EventStore H K) (event : Event H K) :
    Except Err (EventStore H K) := do
  let key := event.hex S
  match s.getEvent key with
  | (.ok _, s) => return { s with eventCache := s.eventCache.add key event }
  | (.error _, s) =>
    let pec ← s.participantEventsCache.set event.creator key event.body.index
    return { eventCache := s.eventCache.add key event, participantEventsCache := pec }

/-- A participant's events with index greater than `skip`. -/
def participantEvents (s : EventStore H K) (participant : K) (skip : ℤ) : Except Err (List H) :=
  s.participantEventsCache.get participant skip

/-- A participant's event at `index`. -/
def participantEvent (s : EventStore H K) (participant : K) (index : ℤ) : Except Err H :=
  s.participantEventsCache.getItem participant index

/-- A participant's last event. -/
def lastEventFrom (s : EventStore H K) (participant : K) : Except Err H :=
  s.participantEventsCache.getLast participant

/-- The last known index of every participant. -/
def knownEvents (s : EventStore H K) : List (UInt32 × ℤ) :=
  s.participantEventsCache.rim.known

end EventStore

/-- The events in the database of a `BadgerStore` : by hash, by creator and index, and by
topological index. -/
structure EventDb (H K : Type) where
  events : Map H (Event H K)
  participantEvents : Map (K × ℤ) H
  topologicalEvents : Map ℤ H

namespace EventDb

/-- Write an event, and its keys if it is new. -/
def setEvent (S : Scheme H K) (db : EventDb H K) (event : Event H K) : EventDb H K :=
  let key := event.hex S
  let written := { db with events := db.events.insert key event }
  if key ∈ db.events then written
  else { written with
    topologicalEvents := db.topologicalEvents.insert event.topologicalIndex key
    participantEvents := db.participantEvents.insert (event.creator, event.body.index) key }

/-- A participant's events from index `i` on, up to the first that is missing. -/
def participantEventsFrom (db : EventDb H K) (participant : K) : ℕ → ℤ → List H
  | 0, _ => []
  | fuel + 1, i =>
    match db.participantEvents.lookup (participant, i) with
    | some x => x :: participantEventsFrom db participant fuel (i + 1)
    | none => []

end EventDb

/-- The events of a `BadgerStore`. -/
structure BadgerEventStore (H K : Type) where
  inmemStore : EventStore H K
  maintenanceMode : Bool
  db : EventDb H K

namespace BadgerEventStore

/-- Look for an event in the cache and then in the database. -/
def getEvent (s : BadgerEventStore H K) (key : H) :
    Except Err (Event H K) × BadgerEventStore H K :=
  match s.inmemStore.getEvent key with
  | (.ok event, inmem) => (.ok event, { s with inmemStore := inmem })
  | (.error _, inmem) =>
    match s.db.events.lookup key with
    | some event => (.ok event, { s with inmemStore := inmem })
    | none => (.error (.store "Event" .keyNotFound), { s with inmemStore := inmem })

/-- Store an event in memory, then in the database. -/
def setEvent (S : Scheme H K) (s : BadgerEventStore H K) (event : Event H K) :
    Except Err (BadgerEventStore H K) := do
  let inmem ← s.inmemStore.setEvent S event
  let s := { s with inmemStore := inmem }
  if s.maintenanceMode then return s
  return { s with db := s.db.setEvent S event }

/-- A participant's events with index greater than `skip`, from the database if they have
left the window. -/
def participantEvents (s : BadgerEventStore H K) (participant : K) (skip : ℤ) :
    Except Err (List H) :=
  match s.inmemStore.participantEvents participant skip with
  | .ok xs => .ok xs
  | .error _ => .ok (s.db.participantEventsFrom participant
      (s.db.participantEvents.keys.length + 1) (skip + 1))

/-- A participant's event at `index`, from the database if it has left the window. -/
def participantEvent (s : BadgerEventStore H K) (participant : K) (index : ℤ) : Except Err H :=
  match s.inmemStore.participantEvent participant index with
  | .ok x => .ok x
  | .error _ =>
    match s.db.participantEvents.lookup (participant, index) with
    | some x => .ok x
    | none => .error (.msg "Key not found")

end BadgerEventStore

/-! ## Answers -/

namespace ParticipantEventsCache

variable {pec pec' : ParticipantEventsCache H K} {k : K} {x : H} {i : ℤ}

/-- The same participants, with the same windows. -/
structure SameWindows (pec pec' : ParticipantEventsCache H K) : Prop where
  participants : pec'.participants = pec.participants
  name : pec'.rim.name = pec.rim.name
  mapping : ∀ id, pec'.rim.mapping.lookup id = pec.rim.mapping.lookup id

theorem SameWindows.participantID (h : pec.SameWindows pec') (k : K) :
    pec'.participantID k = pec.participantID k := by
  rw [ParticipantEventsCache.participantID, h.participants]
  rfl

theorem SameWindows.window (h : pec.SameWindows pec') (k : K) : pec'.window k = pec.window k := by
  unfold ParticipantEventsCache.window
  rw [h.participantID]
  cases pec.participantID k with
  | error err => rfl
  | ok id => exact h.mapping id

/-- An item that leaves its window as it is leaves all windows as they are. -/
theorem sameWindows_set {ri : RollingIndex H} (hw : pec.window k = some ri)
    (hri : ri.set x i = .ok ri) : ∃ pec', pec.set k x i = .ok pec' ∧ pec.SameWindows pec' := by
  obtain ⟨id, hid, hl⟩ := window_eq_some.1 hw
  refine ⟨{ pec with rim := { pec.rim with mapping := pec.rim.mapping.insert id ri } }, ?_,
    rfl, rfl, fun id' => ?_⟩
  · simp only [ParticipantEventsCache.set, hid, bind, Except.bind, RollingIndexMap.set, hl,
      Option.getD_some, hri]
    rfl
  · rw [Map.lookup_insert_ite]
    split_ifs with h
    · rw [h, hl]
    · rfl

end ParticipantEventsCache

namespace EventStore

/-- `KnownEvents`, `LastEventFrom`, `ParticipantEvents` and `ParticipantEvent` answer as
before. -/
structure SameAnswers (s s' : EventStore H K) : Prop where
  knownEvents : ∀ e, e ∈ s'.knownEvents ↔ e ∈ s.knownEvents
  lastEventFrom : ∀ k, s'.lastEventFrom k = s.lastEventFrom k
  participantEvents : ∀ k skip, s'.participantEvents k skip = s.participantEvents k skip
  participantEvent : ∀ k i, s'.participantEvent k i = s.participantEvent k i

theorem sameAnswers_of_sameWindows {s s' : EventStore H K}
    (h : s.participantEventsCache.SameWindows s'.participantEventsCache) : s.SameAnswers s' where
  knownEvents e := by
    simp only [EventStore.knownEvents, RollingIndexMap.known, List.mem_map, Prod.exists,
      Map.mem_toPairs, h.mapping]
  lastEventFrom k := by
    unfold EventStore.lastEventFrom ParticipantEventsCache.getLast RollingIndexMap.getLast
    simp only [h.participantID, h.mapping, h.name]
  participantEvents k skip := by
    unfold EventStore.participantEvents ParticipantEventsCache.get RollingIndexMap.get
    simp only [h.participantID, h.mapping, h.name]
  participantEvent k i := by
    unfold EventStore.participantEvent ParticipantEventsCache.getItem RollingIndexMap.getItem
    simp only [h.participantID, h.mapping]

/-- The event is still in the cache, or its index in the window of its creator. -/
def Retains (S : Scheme H K) (s : EventStore H K) (event : Event H K) : Prop :=
  event.hex S ∈ s.eventCache.items ∨
    ∃ ri, s.participantEventsCache.window event.creator = some ri ∧
      ri.oldestCachedIndex ≤ event.body.index

end EventStore

/-! ## Uses -/

/-- A store, and the events that it has taken, which nothing reads. -/
structure EventLog (σ H K : Type) where
  store : σ
  stored : List (Event H K)

/-- An event is set or looked up. -/
inductive Use (H K : Type)
  | set (event : Event H K)
  | get (key : H)

/-- The store after a call. -/
def EventLog.step {σ : Type} (set : σ → Event H K → Except Err σ) (get : σ → H → σ)
    (log : EventLog σ H K) : Use H K → EventLog σ H K
  | .set event =>
    match set log.store event with
    | .ok store => ⟨store, log.stored ++ [event]⟩
    | .error _ => log
  | .get key => { log with store := get log.store key }

/-- An event that follows on the stored ones of its creator. -/
structure Follows (S : Scheme H K) (stored : List (Event H K)) (event : Event H K) : Prop where
  new : ∀ e ∈ stored, e.hex S ≠ event.hex S
  index : ((∀ e ∈ stored, e.creator ≠ event.creator) ∧ 0 ≤ event.body.index) ∨
    (∀ e ∈ stored, e.creator = event.creator → e.body.index < event.body.index) ∧
      ∃ e ∈ stored, e.creator = event.creator ∧ e.body.index + 1 = event.body.index

/-- Every event that is set was stored before, or follows on those of its creator. -/
def Consecutive {σ : Type} (S : Scheme H K) (log : EventLog σ H K) : Use H K → Prop
  | .set event => (∃ e ∈ log.stored, e.body = event.body) ∨ Follows S log.stored event
  | .get _ => True

instance (S : Scheme H K) (stored : List (Event H K)) (event : Event H K) :
    Decidable (Follows S stored event) :=
  decidable_of_iff ((∀ e ∈ stored, e.hex S ≠ event.hex S) ∧
    (((∀ e ∈ stored, e.creator ≠ event.creator) ∧ 0 ≤ event.body.index) ∨
      (∀ e ∈ stored, e.creator = event.creator → e.body.index < event.body.index) ∧
        ∃ e ∈ stored, e.creator = event.creator ∧ e.body.index + 1 = event.body.index))
    ⟨fun h => ⟨h.1, h.2⟩, fun h => ⟨h.new, h.index⟩⟩

instance {σ : Type} (S : Scheme H K) (log : EventLog σ H K) : ∀ use, Decidable (Consecutive S log use)
  | .set _ => inferInstanceAs (Decidable (_ ∨ _))
  | .get _ => isTrue trivial

namespace EventStore

variable {S : Scheme H K} {s s' : EventStore H K} {stored : List (Event H K)} {event : Event H K}

/-- What the windows hold of the events that were stored. -/
structure Holds (S : Scheme H K) (stored : List (Event H K)) (s : EventStore H K) : Prop where
  registered : s.participantEventsCache.Registered
  cached : ∀ x ∈ s.eventCache.items, ∃ e ∈ stored, e.hex S = x
  window : ∀ e ∈ stored, ∃ ri, s.participantEventsCache.window e.creator = some ri ∧
    0 ≤ e.body.index ∧ e.body.index ≤ ri.lastIndex ∧
    (ri.oldestCachedIndex ≤ e.body.index → ri.getItem e.body.index = .ok (e.hex S))
  last : ∀ k ri, s.participantEventsCache.window k = some ri →
    ri.lastIndex = -1 ∨ ∃ e ∈ stored, e.creator = Hex.toUpper k ∧ e.body.index = ri.lastIndex

theorem getEvent_cases (s : EventStore H K) (key : H) :
    (∃ e, s.eventCache.items.lookup key = some e ∧
      s.getEvent key = (.ok e, { s with eventCache := (s.eventCache.get key).2 })) ∨
    key ∉ s.eventCache.items ∧ ∃ err, s.getEvent key = (.error err, s) := by
  unfold getEvent Lru.get
  cases h : s.eventCache.items.lookup key with
  | some e => exact .inl ⟨e, rfl, rfl⟩
  | none => exact .inr ⟨AList.lookup_eq_none.1 h, _, rfl⟩

/-- A cached event is replaced. -/
theorem setEvent_of_mem (S : Scheme H K) (h : event.hex S ∈ s.eventCache.items) :
    s.setEvent S event = .ok { s with
      eventCache := (s.eventCache.get (event.hex S)).2.add (event.hex S) event } := by
  rcases s.getEvent_cases (event.hex S) with ⟨e, -, he⟩ | ⟨hno, -⟩
  · simp only [setEvent, he]
    rfl
  · exact (hno h).elim

/-- An event that is not cached goes to the window. -/
theorem setEvent_of_not_mem (S : Scheme H K) (h : event.hex S ∉ s.eventCache.items) :
    s.setEvent S event =
      match s.participantEventsCache.set event.creator (event.hex S) event.body.index with
      | .ok pec => .ok { eventCache := s.eventCache.add (event.hex S) event, participantEventsCache := pec }
      | .error err => .error err := by
  rcases s.getEvent_cases (event.hex S) with ⟨e, hl, -⟩ | ⟨-, err, he⟩
  · exact (h (Map.mem_iff_lookup.2 ⟨e, hl⟩)).elim
  · simp only [setEvent, he]
    cases s.participantEventsCache.set event.creator (event.hex S) event.body.index <;> rfl

namespace Holds

theorem of_sameWindows (h : Holds S stored s)
    (hw : s.participantEventsCache.SameWindows s'.participantEventsCache)
    (hr : s'.participantEventsCache.Registered)
    (hcached : ∀ x ∈ s'.eventCache.items, ∃ e ∈ stored, e.hex S = x) : Holds S stored s' where
  registered := hr
  cached := hcached
  window e he := by
    rw [hw.window]
    exact h.window e he
  last k ri hri := by
    rw [hw.window] at hri
    exact h.last k ri hri

/-- A version of a stored event is one more stored event. -/
theorem again (h : Holds S stored s) (he : ∃ e ∈ stored, e.body = event.body) :
    Holds S (stored ++ [event]) s where
  registered := h.registered
  cached x hx := by
    obtain ⟨e, he, hex⟩ := h.cached x hx
    exact ⟨e, List.mem_append_left _ he, hex⟩
  window e' he' := by
    rcases List.mem_append.1 he' with he' | he'
    · exact h.window e' he'
    · obtain ⟨e, hmem, hbody⟩ := he
      obtain rfl := List.mem_singleton.1 he'
      have hw := h.window e hmem
      rw [SignedEvent.creator, SignedEvent.hex, SignedEvent.hash, hbody] at hw
      exact hw
  last k ri hri := by
    rcases h.last k ri hri with hlast | ⟨e, he, hlast⟩
    · exact .inl hlast
    · exact .inr ⟨e, List.mem_append_left _ he, hlast⟩

/-- The cache holds stored events after an addition. -/
theorem cached_add (h : Holds S stored s) {x : H}
    (hx : x ∈ ((s.eventCache.get (event.hex S)).2.add (event.hex S) event).items) :
    ∃ e ∈ stored ++ [event], e.hex S = x := by
  obtain ⟨e, he⟩ := Map.mem_iff_lookup.1 hx
  rcases Lru.lookup_add he with ⟨rfl, -⟩ | hold
  · exact ⟨event, by simp, rfl⟩
  · rw [Lru.lookup_get] at hold
    obtain ⟨e', he', hex⟩ := h.cached x (Map.mem_iff_lookup.2 ⟨e, hold⟩)
    exact ⟨e', List.mem_append_left _ he', hex⟩

theorem get_of_not_mem {c : Lru H (Event H K)} {key : H} (h : key ∉ c.items) : (c.get key).2 = c := by
  rw [Lru.get, AList.lookup_eq_none.2 h]

/-- A stored event is set again if it is retained, and refused otherwise. -/
theorem setEvent_again (h : Holds S stored s) (he : ∃ e ∈ stored, e.body = event.body) :
    (s.Retains S event ∧ ∃ s', s.setEvent S event = .ok s' ∧
      s.participantEventsCache.SameWindows s'.participantEventsCache ∧
      Holds S (stored ++ [event]) s') ∨
    ¬s.Retains S event ∧ ∃ err, s.setEvent S event = .error err := by
  have hagain := h.again he
  by_cases hmem : event.hex S ∈ s.eventCache.items
  · refine .inl ⟨.inl hmem, _, setEvent_of_mem S hmem, ⟨rfl, rfl, fun _ => rfl⟩, ?_⟩
    exact hagain.of_sameWindows ⟨rfl, rfl, fun _ => rfl⟩ h.registered fun x hx => h.cached_add hx
  · obtain ⟨ri, hri, h0, hle, hitem⟩ := hagain.window event (by simp)
    rw [setEvent_of_not_mem S hmem]
    by_cases hold : ri.oldestCachedIndex ≤ event.body.index
    · have hset := RollingIndex.set_again (by omega) hle hold (hitem hold)
      obtain ⟨pec, hpec, hsame⟩ := ParticipantEventsCache.sameWindows_set hri hset
      rw [hpec]
      refine .inl ⟨.inr ⟨ri, hri, hold⟩, _, rfl, hsame, ?_⟩
      refine hagain.of_sameWindows hsame (h.registered.set hpec).1 fun x hx => ?_
      refine h.cached_add ?_
      rwa [get_of_not_mem hmem]
    · refine .inr ⟨?_, ?_⟩
      · rintro (hx | ⟨ri', hri', hold'⟩)
        · exact hmem hx
        · obtain rfl := Option.some.inj (hri.symm.trans hri')
          exact hold hold'
      · have hlate := RollingIndex.set_too_late (x := event.hex S) (by omega) (not_le.1 hold)
        rw [← ParticipantEventsCache.exists_set_iff hri] at hlate
        cases hset : s.participantEventsCache.set event.creator (event.hex S) event.body.index with
        | error err => exact ⟨err, rfl⟩
        | ok pec => exact (hlate ⟨pec, hset⟩).elim

/-- The next event of its creator goes to the end of the window. -/
theorem setEvent_next (h : Holds S stored s) (hf : Follows S stored event)
    (hs' : s.setEvent S event = .ok s') : Holds S (stored ++ [event]) s' := by
  have hmem : event.hex S ∉ s.eventCache.items := by
    intro hx
    obtain ⟨e, he, hex⟩ := h.cached _ hx
    exact hf.new e he hex
  rw [setEvent_of_not_mem S hmem] at hs'
  cases hpec : s.participantEventsCache.set event.creator (event.hex S) event.body.index with
  | error err => rw [hpec] at hs'; cases hs'
  | ok pec =>
    rw [hpec] at hs'
    obtain rfl := Except.ok.inj hs'
    obtain ⟨hreg, ⟨ri, ri', hri, hset, hri'⟩, hother⟩ := h.registered.set hpec
    -- the index is the next one of the window
    have hindex : 0 ≤ event.body.index ∧ (ri.lastIndex = -1 ∧
        (∀ e ∈ stored, e.creator ≠ event.creator) ∨ event.body.index = ri.lastIndex + 1) := by
      rcases hf.index with ⟨hnone, h0⟩ | ⟨hlt, e, he, hc, hnext⟩
      · refine ⟨h0, .inl ⟨(h.last _ ri hri).resolve_right ?_, hnone⟩⟩
        rintro ⟨e, he, hc, -⟩
        exact hnone e he (hc.trans event.toUpper_creator)
      · obtain ⟨ri₀, hri₀, h0, hle, -⟩ := h.window e he
        rw [hc] at hri₀
        obtain rfl := Option.some.inj (hri.symm.trans hri₀)
        rcases h.last _ ri hri with hlast | ⟨e', he', hc', hlast⟩
        · omega
        · have := hlt e' he' (hc'.trans event.toUpper_creator)
          exact ⟨by omega, .inr (by omega)⟩
    have happend : ri' = ri.append (event.hex S) event.body.index := by
      rw [RollingIndex.set, if_neg (by omega), if_pos (by omega)] at hset
      exact (Except.ok.inj hset).symm
    obtain ⟨d, -, hd⟩ := ri.append_drop (event.hex S) event.body.index
    have hlast' : ri'.lastIndex = event.body.index := by rw [happend, hd]
    refine ⟨hreg, fun x hx => ?_, fun e he => ?_, fun k rk hrk => ?_⟩
    · refine h.cached_add ?_
      rwa [get_of_not_mem hmem]
    · rcases List.mem_append.1 he with he | he
      · obtain ⟨ri₀, hri₀, h0, hle, hitem⟩ := h.window e he
        by_cases hc : e.creator = event.creator
        · rw [hc] at hri₀ ⊢
          obtain rfl := Option.some.inj (hri.symm.trans hri₀)
          have hnext := hindex.2.resolve_left fun hno => hno.2 e he hc
          refine ⟨ri', hri', h0, by omega, fun hold => ?_⟩
          rw [happend] at hold ⊢
          obtain ⟨hold', hget⟩ := RollingIndex.getItem_append hnext hle hold
          rw [hget]
          exact hitem hold'
        · refine ⟨ri₀, ?_, h0, hle, hitem⟩
          rw [hother]
          · exact hri₀
          · rwa [e.toUpper_creator, event.toUpper_creator]
      · obtain rfl := List.mem_singleton.1 he
        refine ⟨ri', hri', hindex.1, by omega, fun _ => ?_⟩
        rw [happend]
        exact RollingIndex.getItem_append_self
    · by_cases hk : Hex.toUpper k = Hex.toUpper event.creator
      · rw [ParticipantEventsCache.window_congr hk, hri'] at hrk
        obtain rfl := Option.some.inj hrk
        refine .inr ⟨event, by simp, ?_, hlast'.symm⟩
        rw [hk, event.toUpper_creator]
      · rw [hother k hk] at hrk
        rcases h.last k rk hrk with hneg | ⟨e, he, hlast⟩
        · exact .inl hneg
        · exact .inr ⟨e, List.mem_append_left _ he, hlast⟩

end Holds

/-- The same events and the same windows as a store whose cache is a map. -/
structure Agrees (s : EventStore H K) (st : InmemStore H K) : Prop where
  events : ∀ x, s.eventCache.items.lookup x = st.eventCache.lookup x
  windows : s.participantEventsCache = st.participantEventsCache

/-- As long as the cache has room, the store does what a store with a map does. -/
theorem Agrees.setEvent {st : InmemStore H K} (h : s.Agrees st)
    (hroom : s.eventCache.items.keys.length < s.eventCache.size) :
    (∃ s' st', s.setEvent S event = .ok s' ∧ st.setEvent S event = .ok st' ∧ s'.Agrees st') ∨
      ∃ err, s.setEvent S event = .error err ∧ st.setEvent S event = .error err := by
  by_cases hmem : event.hex S ∈ s.eventCache.items
  · have hmem' : event.hex S ∈ (s.eventCache.get (event.hex S)).2.items := by
      obtain ⟨e, he⟩ := Map.mem_iff_lookup.1 hmem
      exact Map.mem_iff_lookup.2 ⟨e, by rw [Lru.lookup_get, he]⟩
    obtain ⟨e, he⟩ := Map.mem_iff_lookup.1 hmem
    refine .inl ⟨_, { st with eventCache := st.eventCache.insert (event.hex S) event },
      setEvent_of_mem S hmem, ?_, fun x => ?_, h.windows⟩
    · rw [h.events] at he
      simp only [InmemStore.setEvent, he]
      rfl
    · simp only [Lru.lookup_add_of_mem hmem', Lru.lookup_get, h.events, Map.lookup_insert_ite]
  · have hnone : st.eventCache.lookup (event.hex S) = none := by
      rw [← h.events]
      exact AList.lookup_eq_none.2 hmem
    rw [setEvent_of_not_mem S hmem, InmemStore.setEvent, hnone, h.windows]
    cases st.participantEventsCache.set event.creator (event.hex S) event.body.index with
    | error err => exact .inr ⟨err, rfl, rfl⟩
    | ok pec =>
      refine .inl ⟨_, _, rfl, rfl, fun x => ?_, rfl⟩
      simp only [Lru.lookup_add_of_room hroom, h.events, Map.lookup_insert_ite]

/-- A call on the store. -/
def step (S : Scheme H K) : EventLog (EventStore H K) H K → Use H K → EventLog (EventStore H K) H K :=
  EventLog.step (setEvent S) fun s key => (s.getEvent key).2

theorem holds_new (S : Scheme H K) (cacheSize : ℕ) (participants : List (Peer K)) :
    Holds S [] (new cacheSize participants) := by
  have hnew := Listed.new (fun _ => True : SignedEvent H K → Prop) cacheSize
  have hempty : ∀ k, (ParticipantEventsCache.new cacheSize : ParticipantEventsCache H K).window k =
      none := by
    intro k
    rw [hnew.toRegistered.window_eq_none]
    rfl
  obtain ⟨hreg, -, hwindow⟩ := ParticipantEventsCache.enrolls_foldl participants
    (InmemStore.new cacheSize : InmemStore H K) hnew.toRegistered
  refine ⟨hreg, fun x hx => (AList.notMem_empty x hx).elim,
    fun e he => (List.not_mem_nil he).elim, fun k ri hri => .inl ?_⟩
  rcases hwindow k with hk | ⟨-, name, hk⟩
  · exact absurd (hri.symm.trans (hk.trans (hempty k))) (by simp)
  · obtain rfl := Option.some.inj (hri.symm.trans hk)
    rfl

theorem holds_step {log : EventLog (EventStore H K) H K} (h : Holds S log.stored log.store)
    {use : Use H K} (hu : Consecutive S log use) :
    Holds S (step S log use).stored (step S log use).store := by
  cases use with
  | get key =>
    have hget : (log.store.getEvent key).2 = log.store ∨ (log.store.getEvent key).2 =
        { log.store with eventCache := (log.store.eventCache.get key).2 } := by
      rcases log.store.getEvent_cases key with ⟨e, -, he⟩ | ⟨-, err, he⟩
      · exact .inr (by rw [he])
      · exact .inl (by rw [he])
    change Holds S log.stored (log.store.getEvent key).2
    rcases hget with he | he
    · rw [he]
      exact h
    · rw [he]
      refine h.of_sameWindows ⟨rfl, rfl, fun _ => rfl⟩ h.registered fun x hx => ?_
      obtain ⟨e, hl⟩ := Map.mem_iff_lookup.1 hx
      rw [Lru.lookup_get] at hl
      exact h.cached x (Map.mem_iff_lookup.2 ⟨e, hl⟩)
  | set event =>
    rw [step, EventLog.step]
    cases hs : log.store.setEvent S event with
    | error err => exact h
    | ok s' =>
      rcases hu with hagain | hnext
      · rcases h.setEvent_again hagain with ⟨-, s'', hs'', -, hholds⟩ | ⟨-, err, herr⟩
        · rw [hs] at hs''
          obtain rfl := Except.ok.inj hs''
          exact hholds
        · rw [hs] at herr
          cases herr
      · exact h.setEvent_next hnext hs

end EventStore

namespace BadgerEventStore

variable {S : Scheme H K} {s s' : BadgerEventStore H K} {event : Event H K}

/-- A call on the store. -/
def step (S : Scheme H K) :
    EventLog (BadgerEventStore H K) H K → Use H K → EventLog (BadgerEventStore H K) H K :=
  EventLog.step (setEvent S) fun s key => (s.getEvent key).2

/-- `KnownEvents`, `LastEventFrom`, `ParticipantEvents` and `ParticipantEvent` answer as
before. The first two answer from memory. -/
structure SameAnswers (s s' : BadgerEventStore H K) : Prop where
  knownEvents : ∀ e, e ∈ s'.inmemStore.knownEvents ↔ e ∈ s.inmemStore.knownEvents
  lastEventFrom : ∀ k, s'.inmemStore.lastEventFrom k = s.inmemStore.lastEventFrom k
  participantEvents : ∀ k skip, s'.participantEvents k skip = s.participantEvents k skip
  participantEvent : ∀ k i, s'.participantEvent k i = s.participantEvent k i

/-- The memory holds the stored events, and so does the database, unless it is not written. -/
structure Holds (S : Scheme H K) (stored : List (Event H K)) (s : BadgerEventStore H K) : Prop where
  inmem : s.inmemStore.Holds S stored
  written : s.maintenanceMode = false → ∀ e ∈ stored, e.hex S ∈ s.db.events

theorem setEvent_error {err : Err} (h : s.inmemStore.setEvent S event = .error err) :
    s.setEvent S event = .error err := by
  rw [setEvent, h]
  rfl

theorem setEvent_ok {inmem : EventStore H K} (h : s.inmemStore.setEvent S event = .ok inmem) :
    s.setEvent S event = .ok { s with
      inmemStore := inmem
      db := if s.maintenanceMode then s.db else s.db.setEvent S event } := by
  rw [setEvent, h]
  cases s.maintenanceMode <;> rfl

theorem getEvent_snd (s : BadgerEventStore H K) (key : H) :
    (s.getEvent key).2 = { s with inmemStore := (s.inmemStore.getEvent key).2 } := by
  unfold getEvent
  rcases s.inmemStore.getEvent key with ⟨_ | e, inmem⟩
  · cases s.db.events.lookup key <;> rfl
  · rfl

/-- The store in memory is used like one of its own. -/
theorem inmem_step (log : EventLog (BadgerEventStore H K) H K) (use : Use H K) :
    EventStore.step S ⟨log.store.inmemStore, log.stored⟩ use =
      ⟨(step S log use).store.inmemStore, (step S log use).stored⟩ := by
  cases use with
  | get key => simp only [EventStore.step, step, EventLog.step, getEvent_snd]
  | set event =>
    simp only [EventStore.step, step, EventLog.step]
    cases hs : log.store.inmemStore.setEvent S event with
    | error err => rw [setEvent_error hs]
    | ok inmem => rw [setEvent_ok hs]

/-- A written event is in the database. -/
theorem mem_setEvent {db : EventDb H K} {x : H} (h : x = event.hex S ∨ x ∈ db.events) :
    x ∈ (db.setEvent S event).events := by
  have hmem : x ∈ db.events.insert (event.hex S) event := (AList.mem_insert _).2 h
  simp only [EventDb.setEvent]
  split_ifs <;> exact hmem

theorem holds_step {log : EventLog (BadgerEventStore H K) H K} (h : Holds S log.stored log.store)
    {use : Use H K} (hu : Consecutive S log use) :
    Holds S (step S log use).stored (step S log use).store := by
  have hu' : Consecutive S ⟨log.store.inmemStore, log.stored⟩ use := by
    cases use <;> exact hu
  refine ⟨?_, ?_⟩
  · have hin := EventStore.holds_step h.inmem hu'
    rwa [inmem_step] at hin
  · cases use with
    | get key =>
      simp only [step, EventLog.step, getEvent_snd]
      exact h.written
    | set event =>
      simp only [step, EventLog.step]
      cases hs : log.store.inmemStore.setEvent S event with
      | error err =>
        rw [setEvent_error hs]
        exact h.written
      | ok inmem =>
        rw [setEvent_ok hs]
        intro hm e he
        simp only at hm
        simp only [hm]
        refine mem_setEvent ?_
        rcases List.mem_append.1 he with he | he
        · exact .inr (h.written hm e he)
        · rw [List.mem_singleton.1 he]
          exact .inl rfl

/-- Writing an event again changes no key. -/
theorem participantEvents_setEvent {db : EventDb H K} (h : event.hex S ∈ db.events) :
    (db.setEvent S event).participantEvents = db.participantEvents := by
  rw [EventDb.setEvent, if_pos h]

theorem sameAnswers {inmem : EventStore H K} {db : EventDb H K}
    (hin : s.inmemStore.SameAnswers inmem)
    (hdb : db.participantEvents = s.db.participantEvents) :
    s.SameAnswers { s with inmemStore := inmem, db := db } := by
  have hfrom : ∀ k fuel i, db.participantEventsFrom k fuel i =
      s.db.participantEventsFrom k fuel i := by
    intro k fuel
    induction fuel with
    | zero => exact fun _ => rfl
    | succ fuel ih =>
      intro i
      rw [EventDb.participantEventsFrom, EventDb.participantEventsFrom, hdb]
      cases s.db.participantEvents.lookup (k, i) with
      | none => rfl
      | some x => simp only [ih]
  refine ⟨hin.knownEvents, hin.lastEventFrom, fun k skip => ?_, fun k i => ?_⟩
  · simp only [participantEvents, hin.participantEvents, hdb, hfrom]
  · simp only [participantEvent, hin.participantEvent, hdb]

end BadgerEventStore

namespace Sample

/-- An event of the first validator, as it is stored. -/
def turn (n : ℕ) : Event Bytes Bytes :=
  { event n 1 n (if n = 0 then none else some (n - 1)) none [] with topologicalIndex := n }

/-- A store with a cache of two events, after the first `n` events. -/
def afterTurns (n : ℕ) : EventLog (EventStore Bytes Bytes) Bytes Bytes :=
  ((List.range n).map fun i => Use.set (turn i)).foldl (EventStore.step scheme)
    ⟨.new 2 [peer 1], []⟩

@[inherit_doc afterTurns]
def afterTurnsBadger (n : ℕ) : EventLog (BadgerEventStore Bytes Bytes) Bytes Bytes :=
  ((List.range n).map fun i => Use.set (turn i)).foldl (BadgerEventStore.step scheme)
    ⟨⟨.new 2 [peer 1], false, ⟨∅, ∅, ∅⟩⟩, []⟩

theorem afterTurns_stored : (afterTurns 3).stored = [turn 0, turn 1, turn 2] := rfl

theorem afterTurnsBadger_stored : (afterTurnsBadger 3).stored = [turn 0, turn 1, turn 2] := rfl

end Sample

end Babble

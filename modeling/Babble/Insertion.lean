import Babble.Reception

/-!
# The insertion of an event

`insertEvent` either fails and leaves the hashgraph as it was, but for the topological
counter, or stores the event with its coordinates and marks it as a first descendant in
its ancestors (`Inserted`).

The marking asks whether ancestors are witnesses. They went through `divideRounds`, so
the answers come from the cache and the marking is a function of the stored events
(`markFrom`).
-/

set_option linter.unusedSectionVars false

namespace Babble

variable {H K : Type} [DecidableEq H] [DecidableEq K] [Hex H] [Hex K]

namespace Hashgraph

/-- What `markAncestors` does to the stored events, where `wit` tells the witnesses. -/
def markFrom (wit : H → Bool) (creator : K) (coordinates : EventCoordinates H) :
    ℕ → Option H → Map H (Event H K) → Map H (Event H K)
  | 0, _, ec => ec
  | _ + 1, none, ec => ec
  | fuel + 1, some ah, ec =>
    match ec.lookup ah with
    | none => ec
    | some a =>
      match a.firstDescendants.lookup creator with
      | some _ => ec
      | none =>
        let ec := ec.insert ah (addFirstDescendant creator coordinates a)
        if wit ah then ec else markFrom wit creator coordinates fuel a.body.selfParent ec

/-- The marking from every ancestor in a list. -/
def markAll (wit : H → Bool) (creator : K) (coordinates : EventCoordinates H) (fuel : ℕ)
    (ancestors : List (K × EventCoordinates H)) (ec : Map H (Event H K)) : Map H (Event H K) :=
  ancestors.foldl (fun ec c => markFrom wit creator coordinates fuel (some c.2.hash) ec) ec

/-! ## Marking keeps events up to first descendants -/

/-- Versions of an event that differ in first descendants only, and keep the known ones. -/
structure Marks (e e' : Event H K) : Prop where
  eq : e' = { e with firstDescendants := e'.firstDescendants }
  keeps : ∀ k c, e.firstDescendants.lookup k = some c → e'.firstDescendants.lookup k = some c

theorem Marks.lastAncestors {e e' : Event H K} (h : Marks e e') :
    e'.lastAncestors = e.lastAncestors := by
  rw [h.eq]

/-- The same events up to first descendants. -/
def EventsMarked (ec ec' : Map H (Event H K)) : Prop :=
  ∀ x, Option.Rel Marks (ec.lookup x) (ec'.lookup x)

theorem EventsMarked.refl (ec : Map H (Event H K)) : EventsMarked ec ec := by
  intro x
  cases ec.lookup x with
  | none => exact .none
  | some e => exact .some ⟨rfl, fun _ _ => id⟩

theorem EventsMarked.trans {ec ec' ec'' : Map H (Event H K)} (h : EventsMarked ec ec')
    (h' : EventsMarked ec' ec'') : EventsMarked ec ec'' := by
  intro x
  have h1 := h x
  have h2 := h' x
  revert h1 h2
  generalize ec.lookup x = a
  generalize ec'.lookup x = b
  generalize ec''.lookup x = c
  rintro (@⟨e, e', h1⟩ | _) (@⟨_, e'', h2⟩ | _)
  · refine .some ⟨?_, fun k c hk => h2.keeps k c (h1.keeps k c hk)⟩
    rw [h2.eq, h1.eq]
  · exact .none

theorem EventsMarked.lookup {ec ec' : Map H (Event H K)} (h : EventsMarked ec ec') {x : H}
    {e : Event H K} (he : ec.lookup x = some e) : ∃ e', ec'.lookup x = some e' ∧ Marks e e' := by
  have hx := h x
  rw [he] at hx
  cases hl : ec'.lookup x with
  | none => rw [hl] at hx; cases hx
  | some e' => rw [hl] at hx; cases hx with | some hx => exact ⟨e', rfl, hx⟩

theorem EventsMarked.lookup_back {ec ec' : Map H (Event H K)} (h : EventsMarked ec ec') {x : H}
    {e' : Event H K} (he : ec'.lookup x = some e') : ∃ e, ec.lookup x = some e ∧ Marks e e' := by
  have hx := h x
  rw [he] at hx
  cases hl : ec.lookup x with
  | none => rw [hl] at hx; cases hx
  | some e => rw [hl] at hx; cases hx with | some hx => exact ⟨e, rfl, hx⟩

theorem EventsMarked.mem_iff {ec ec' : Map H (Event H K)} (h : EventsMarked ec ec') {x : H} :
    x ∈ ec' ↔ x ∈ ec := by
  simp only [Map.mem_iff_lookup]
  constructor
  · rintro ⟨e', he'⟩
    obtain ⟨e, he, -⟩ := h.lookup_back he'
    exact ⟨e, he⟩
  · rintro ⟨e, he⟩
    obtain ⟨e', he', -⟩ := h.lookup he
    exact ⟨e', he'⟩

variable {wit : H → Bool} {creator : K} {coordinates : EventCoordinates H}

theorem eventsMarked_insert {ec : Map H (Event H K)} {x : H} {a : Event H K}
    (ha : ec.lookup x = some a) (hf : a.firstDescendants.lookup creator = none) :
    EventsMarked ec (ec.insert x (addFirstDescendant creator coordinates a)) := by
  intro y
  rw [Map.lookup_insert_ite]
  split_ifs with hy
  · subst hy
    rw [ha]
    refine .some ⟨rfl, fun k c hk => ?_⟩
    rw [addFirstDescendant, AList.lookup_insert_ne]
    · exact hk
    · rintro rfl
      rw [hf] at hk
      cases hk
  · exact EventsMarked.refl ec y

theorem markFrom_none (fuel : ℕ) (ec : Map H (Event H K)) :
    markFrom wit creator coordinates fuel none ec = ec := by
  cases fuel <;> rfl

/-- The marking does nothing at an event that is missing or already marked. -/
theorem markFrom_of_stop (fuel : ℕ) {ah : H} {ec : Map H (Event H K)}
    (h : ∀ a, ec.lookup ah = some a → ∃ c, a.firstDescendants.lookup creator = some c) :
    markFrom wit creator coordinates fuel (some ah) ec = ec := by
  cases fuel with
  | zero => rfl
  | succ fuel =>
    rw [markFrom]
    cases ha : ec.lookup ah with
    | none => rfl
    | some a =>
      obtain ⟨c, hc⟩ := h a ha
      simp only [hc]

/-- The marking enters the descendant in an unmarked event and goes on to its self-parent,
unless the event is a witness. -/
theorem markFrom_of_lookup (fuel : ℕ) {ah : H} {ec : Map H (Event H K)} {a : Event H K}
    (ha : ec.lookup ah = some a) (hf : a.firstDescendants.lookup creator = none) :
    markFrom wit creator coordinates (fuel + 1) (some ah) ec =
      if wit ah then ec.insert ah (addFirstDescendant creator coordinates a)
      else markFrom wit creator coordinates fuel a.body.selfParent
        (ec.insert ah (addFirstDescendant creator coordinates a)) := by
  rw [markFrom]
  simp only [ha, hf]

theorem eventsMarked_markFrom (fuel : ℕ) (ah : Option H) (ec : Map H (Event H K)) :
    EventsMarked ec (markFrom wit creator coordinates fuel ah ec) := by
  induction fuel generalizing ah ec with
  | zero => exact EventsMarked.refl ec
  | succ fuel ih =>
    cases ah with
    | none => exact EventsMarked.refl ec
    | some ah =>
      by_cases hstop : ∀ a, ec.lookup ah = some a → ∃ c, a.firstDescendants.lookup creator = some c
      · rw [markFrom_of_stop _ hstop]
        exact EventsMarked.refl ec
      · push Not at hstop
        obtain ⟨a, ha, hf⟩ := hstop
        have hf : a.firstDescendants.lookup creator = none := Option.eq_none_iff_forall_ne_some.2 hf
        rw [markFrom_of_lookup fuel ha hf]
        split_ifs
        · exact eventsMarked_insert ha hf
        · exact (eventsMarked_insert ha hf).trans (ih _ _)

theorem eventsMarked_markAll (fuel : ℕ) (ancestors : List (K × EventCoordinates H))
    (ec : Map H (Event H K)) :
    EventsMarked ec (markAll wit creator coordinates fuel ancestors ec) := by
  induction ancestors generalizing ec with
  | nil => exact EventsMarked.refl ec
  | cons c cs ih => exact (eventsMarked_markFrom _ _ _).trans (ih _)

/-! ## The methods -/

variable {S : Scheme H K} {rt : Runtime}

/-- The hashgraph with other events. -/
def withEventCache (h : Hashgraph H K) (ec : Map H (Event H K)) : Hashgraph H K :=
  { h with store := { h.store with eventCache := ec } }

/-- The witnesses among the unmarked events are in the cache. -/
def WitnessCached (wit : H → Bool) (creator : K) (m : Memo H) (ec : Map H (Event H K)) : Prop :=
  ∀ x a, ec.lookup x = some a → a.firstDescendants.lookup creator = none →
    m.witnessCache.lookup x = some (wit x)

theorem WitnessCached.mono {m : Memo H} {ec ec' : Map H (Event H K)}
    (hw : WitnessCached wit creator m ec) (h : EventsMarked ec ec') :
    WitnessCached wit creator m ec' := by
  intro x a' ha' hf
  obtain ⟨a, ha, hm⟩ := h.lookup_back ha'
  refine hw x a ha ?_
  cases hl : a.firstDescendants.lookup creator with
  | none => rfl
  | some c =>
    rw [hm.keeps _ _ hl] at hf
    cases hf

theorem returns_markAncestors {h : Hashgraph H K} (fuel : ℕ) (ah : Option H) :
    ∀ {ec : Map H (Event H K)}, WitnessCached wit creator h.memo ec →
      Exec.Returns (markAncestors S rt creator coordinates fuel ah) (h.withEventCache ec)
        fun _ h' => h' = h.withEventCache (markFrom wit creator coordinates fuel ah ec) := by
  induction fuel generalizing ah with
  | zero => exact fun _ => Exec.returns_pure rfl
  | succ fuel ih =>
    intro ec hw
    cases ah with
    | none => exact Exec.returns_pure rfl
    | some ah =>
      unfold markAncestors
      refine Exec.Returns.bind (Exec.returns_get ?_)
      cases ha : ec.lookup ah with
      | none =>
        rw [markFrom_of_stop _ (by simp [ha])]
        simp only [withEventCache, InmemStore.getEvent, ha]
        exact Exec.returns_pure rfl
      | some a =>
        simp only [withEventCache, InmemStore.getEvent, ha]
        cases hf : a.firstDescendants.lookup creator with
        | some c =>
          rw [markFrom_of_stop _ (by simp [ha, hf])]
          exact Exec.returns_pure rfl
        | none =>
          simp only
          rw [markFrom_of_lookup fuel ha hf]
          refine Exec.Returns.bind (returns_modifyStore ?_)
          simp only [InmemStore.modifyEvent, ha]
          refine Exec.Returns.bind (Exec.returns_attempt (returns_query
            (Query.returns_witness_of_cached (hw ah a ha hf) ?_)))
          cases hwit : wit ah with
          | true => exact Exec.returns_pure rfl
          | false => exact ih _ (hw.mono (eventsMarked_insert ha hf))

theorem returns_updateAncestorFirstDescendant {h : Hashgraph H K} {ev : Event H K}
    (hw : WitnessCached wit ev.creator h.memo h.store.eventCache) :
    Exec.Returns (updateAncestorFirstDescendant S rt ev) h fun _ h' => h' =
      { h.withEventCache (markAll wit ev.creator (ownCoordinates S ev.toSignedEvent)
          (h.store.eventCache.keys.length + 1) (rt.order h.memo.tick ev.lastAncestors.toPairs)
          h.store.eventCache) with
        memo := { h.memo with tick := h.memo.tick + 1 } } := by
  refine Exec.Returns.bind (returns_query (Query.returns_visit ?_))
  refine Exec.Returns.bind (Exec.returns_get ?_)
  set h₁ : Hashgraph H K := { h with memo := { h.memo with tick := h.memo.tick + 1 } } with hh₁
  let mark := fun l => markAll wit ev.creator (ownCoordinates S ev.toSignedEvent)
    (h.store.eventCache.keys.length + 1) l h.store.eventCache
  refine (Exec.returns_forM (fun l s => s = h₁.withEventCache (mark l)) rfl
    fun l c rest _ s hs => ?_).mono fun _ h' hh' => hh'
  subst hs
  have hw' : WitnessCached wit ev.creator h₁.memo (mark l) :=
    WitnessCached.mono hw (eventsMarked_markAll _ _ _)
  refine (returns_markAncestors _ _ hw').mono fun _ h' hh' => ?_
  rw [hh']
  simp only [mark, markAll, List.foldl_append, List.foldl_cons, List.foldl_nil]
  rfl

/-- A successful insertion : the event with its coordinates, the store with the event, and
the ancestors in the order in which they are marked. -/
structure Insertion (S : Scheme H K) (h : Hashgraph H K) (event : SignedEvent H K) where
  ev : Event H K
  store : InmemStore H K
  ancestors : List (K × EventCoordinates H)
  check : checkEvent S h.store event = .ok ()
  signed : ev.toSignedEvent = event
  round_eq : ev.round = none
  lamport_eq : ev.lamportTimestamp = none
  lastAncestors : ev.lastAncestors =
    (parentsLastAncestors h.store event).insert event.creator (ownCoordinates S event)
  firstDescendants : ev.firstDescendants =
    (∅ : CoordinatesMap H K).insert event.creator (ownCoordinates S event)
  setEvent : h.store.setEvent S ev = .ok store
  perm : ancestors.Perm ev.lastAncestors.toPairs

/-- The stored event carries the next topological index, and the wire fields that it came
with or those computed from the store. -/
def Insertion.Filled {h : Hashgraph H K} {event : SignedEvent H K} (i : Insertion S h event)
    (wire : WireInfo) (fill : Bool) : Prop :=
  wireInfo h.store event wire fill = .ok i.ev.wire ∧ i.ev.topologicalIndex = h.topologicalIndex

/-- The stored events after the insertion. -/
def Insertion.events {h : Hashgraph H K} {event : SignedEvent H K} (i : Insertion S h event)
    (wit : H → Bool) : Map H (Event H K) :=
  markAll wit event.creator (ownCoordinates S event) (i.store.eventCache.keys.length + 1)
    i.ancestors i.store.eventCache

/-- Storing an event changes the events and the participants' events only. -/
theorem setEvent_eq {st st' : InmemStore H K} {ev : Event H K} (h : st.setEvent S ev = .ok st') :
    ∃ pec, st' = { st with
        participantEventsCache := pec
        eventCache := st.eventCache.insert (ev.hex S) ev } ∧
      ((ev.hex S ∈ st.eventCache ∧ pec = st.participantEventsCache) ∨
        (ev.hex S ∉ st.eventCache ∧
          st.participantEventsCache.set ev.creator (ev.hex S) ev.body.index = .ok pec)) := by
  unfold InmemStore.setEvent at h
  cases hl : st.eventCache.lookup (ev.hex S) with
  | some e =>
    simp only [hl] at h
    cases h
    exact ⟨_, rfl, Or.inl ⟨Map.mem_iff_lookup.2 ⟨e, hl⟩, rfl⟩⟩
  | none =>
    simp only [hl] at h
    cases hs : st.participantEventsCache.set ev.creator (ev.hex S) ev.body.index with
    | error err => rw [hs] at h; cases h
    | ok pec =>
      rw [hs] at h
      cases h
      exact ⟨pec, rfl, Or.inr ⟨AList.lookup_eq_none.1 hl, rfl⟩⟩

theorem Insertion.eventCache_eq {h : Hashgraph H K} {event : SignedEvent H K}
    (i : Insertion S h event) :
    i.store.eventCache = h.store.eventCache.insert (event.hex S) i.ev := by
  obtain ⟨pec, hst, -⟩ := setEvent_eq i.setEvent
  have hkey : i.ev.hex S = event.hex S := congrArg (SignedEvent.hex S) i.signed
  rw [hst, ← hkey]

theorem Insertion.events_marked {h : Hashgraph H K} {event : SignedEvent H K}
    (i : Insertion S h event) (wit : H → Bool) :
    EventsMarked (h.store.eventCache.insert (event.hex S) i.ev) (i.events wit) := by
  rw [← i.eventCache_eq]
  exact eventsMarked_markAll _ _ _

theorem Insertion.mem_events {h : Hashgraph H K} {event : SignedEvent H K}
    (i : Insertion S h event) (wit : H → Bool) {y : H} :
    y ∈ i.events wit ↔ y = event.hex S ∨ y ∈ h.store.eventCache := by
  rw [(i.events_marked wit).mem_iff, AList.mem_insert]

/-- The hashgraph after a successful insertion. -/
def Insertion.Result {h : Hashgraph H K} {event : SignedEvent H K} (i : Insertion S h event)
    (wit : H → Bool) (h' : Hashgraph H K) : Prop :=
  ∃ ti sigs, h' =
    { h with
      store := { i.store with eventCache := i.events wit }
      memo := { h.memo with tick := h.memo.tick + 1 }
      undeterminedEvents := h.undeterminedEvents ++ [event.hex S]
      topologicalIndex := ti
      pendingLoadedEvents := h.pendingLoadedEvents + if event.isLoaded then 1 else 0
      pendingSignatures := sigs }

theorem Insertion.Result.events_marked {h h' : Hashgraph H K} {event : SignedEvent H K}
    {i : Insertion S h event} {wit : H → Bool} (hres : i.Result wit h') :
    EventsMarked (h.store.eventCache.insert (event.hex S) i.ev) h'.store.eventCache := by
  obtain ⟨ti, sigs, rfl⟩ := hres
  exact i.events_marked wit

theorem returns_tryStore {h : Hashgraph H K} {context : String} {Q : Unit → Hashgraph H K → Prop}
    {f : InmemStore H K → Except Err (InmemStore H K)} {st : InmemStore H K}
    (hf : f h.store = .ok st) (hQ : Q () { h with store := st }) :
    Exec.Returns (tryStore context f) h Q := by
  refine Exec.Returns.bind (Exec.returns_get ?_)
  rw [hf]
  exact Exec.returns_set hQ

theorem exec_tryStore_ok {h : Hashgraph H K} {context : String}
    {f : InmemStore H K → Except Err (InmemStore H K)} {st : InmemStore H K}
    (hf : f h.store = .ok st) :
    Exec.exec (tryStore context f) h = (.ok (), { h with store := st }) := by
  simp only [tryStore, Exec.exec_bind, Exec.exec_get, hf, Exec.exec_set]

theorem exec_tryStore_error {h : Hashgraph H K} {context : String}
    {f : InmemStore H K → Except Err (InmemStore H K)} {err : Err} (hf : f h.store = .error err) :
    Exec.exec (tryStore context f) h = (.error (.wrap context err), h) := by
  simp only [tryStore, Exec.exec_bind, Exec.exec_get, hf, Exec.exec_throw]

/-- The first descendants of a new event hold its creator, so that it is never asked
whether it is a witness. -/
theorem witnessCached_insert {h : Hashgraph H K} {ev : Event H K} {creator : K}
    (hw : ∀ x, x ∈ h.store.eventCache → h.memo.witnessCache.lookup x = some (wit x))
    (hfd : ∃ c, ev.firstDescendants.lookup creator = some c) (x : H) :
    WitnessCached wit creator h.memo (h.store.eventCache.insert x ev) := by
  intro y a ha hf
  rw [Map.lookup_insert_ite] at ha
  split_ifs at ha with hy
  · obtain rfl := Option.some.inj ha
    obtain ⟨c, hc⟩ := hfd
    rw [hc] at hf
    cases hf
  · exact hw y (Map.mem_iff_lookup.2 ⟨a, ha⟩)

/-- The hashgraph with a stored event queued for consensus. -/
def queueEvent (S : Scheme H K) (event : SignedEvent H K) (h : Hashgraph H K) : Hashgraph H K :=
  { h with
    undeterminedEvents := h.undeterminedEvents ++ [event.hex S]
    pendingLoadedEvents := h.pendingLoadedEvents + if event.isLoaded then 1 else 0
    pendingSignatures := event.body.blockSignatures.foldl addPendingSignature h.pendingSignatures }

/-- An insertion fails and changes the topological counter at most, or it stores the event
and marks its ancestors. -/
theorem insertEvent_cases_of (S : Scheme H K) (rt : Runtime) {h : Hashgraph H K}
    (event : SignedEvent H K) (wire : WireInfo) (fill : Bool)
    {Q : Insertion S h event → Hashgraph H K → Prop}
    (hmark : ∀ i : Insertion S h event, i.Filled wire fill →
      i.ancestors = rt.order h.memo.tick i.ev.lastAncestors.toPairs →
      Exec.Returns (updateAncestorFirstDescendant S rt i.ev)
        { h with topologicalIndex := h.topologicalIndex + 1, store := i.store } fun _ => Q i) :
    (∃ err ti, Exec.exec (insertEvent S rt event wire fill) h =
        (.error err, { h with topologicalIndex := ti })) ∨
      ∃ (i : Insertion S h event) (h₁ : Hashgraph H K), Q i h₁ ∧
        Exec.exec (insertEvent S rt event wire fill) h = (.ok (), queueEvent S event h₁) := by
  unfold insertEvent
  simp only [Exec.exec_bind, exec_read, Exec.exec_get, Exec.exec_modify]
  cases hcheck : checkEvent S h.store event with
  | error err => exact Or.inl ⟨err, h.topologicalIndex, rfl⟩
  | ok _ =>
    cases hwire : wireInfo h.store event wire fill with
    | error err => exact Or.inl ⟨err, h.topologicalIndex + 1, by simp only [hwire]⟩
    | ok wire' =>
      simp only [hwire]
      set ev := initEventCoordinates S h.store
        { event with wire := wire', topologicalIndex := h.topologicalIndex } with hev
      cases hset : h.store.setEvent S ev with
      | error err =>
        refine Or.inl ⟨.wrap "SetEvent" err, h.topologicalIndex + 1, ?_⟩
        simp only [storeEvent, Exec.exec_bind, Exec.exec_get]
        rw [exec_tryStore_error hset]
      | ok st =>
        let i : Insertion S h event :=
          ⟨ev, st, rt.order h.memo.tick ev.lastAncestors.toPairs, hcheck, rfl, rfl, rfl, rfl, rfl,
            hset, rt.order_perm _ _⟩
        obtain ⟨_, h₁, he, hQ⟩ := hmark i ⟨hwire, rfl⟩ rfl
        refine Or.inr ⟨i, h₁, hQ, ?_⟩
        have hret : Exec.Returns (storeEvent S rt { event with
            wire := wire', topologicalIndex := h.topologicalIndex })
            { h with topologicalIndex := h.topologicalIndex + 1 } fun _ h' =>
              h' = queueEvent S event h₁ := by
          refine Exec.Returns.bind (Exec.returns_get (Exec.Returns.bind (returns_tryStore hset ?_)))
          exact Exec.Returns.bind ⟨_, h₁, he, Exec.returns_modify rfl⟩
        obtain ⟨_, h', he', rfl⟩ := hret
        exact he'

/-- An insertion fails and changes the topological counter at most, or it succeeds and marks
the ancestors up to the known witnesses. -/
theorem insertEvent_cases (S : Scheme H K) (rt : Runtime) {h : Hashgraph H K}
    (event : SignedEvent H K) (wire : WireInfo) (fill : Bool)
    (hw : ∀ x, x ∈ h.store.eventCache → h.memo.witnessCache.lookup x = some (wit x)) :
    (∃ err ti, Exec.exec (insertEvent S rt event wire fill) h =
        (.error err, { h with topologicalIndex := ti })) ∨
      ∃ (i : Insertion S h event) (h' : Hashgraph H K), i.Result wit h' ∧
        Exec.exec (insertEvent S rt event wire fill) h = (.ok (), h') := by
  have hmark : ∀ i : Insertion S h event, i.Filled wire fill →
      i.ancestors = rt.order h.memo.tick i.ev.lastAncestors.toPairs →
      Exec.Returns (updateAncestorFirstDescendant S rt i.ev)
        { h with topologicalIndex := h.topologicalIndex + 1, store := i.store } fun _ h₁ => h₁ =
          { h with
            topologicalIndex := h.topologicalIndex + 1
            store := { i.store with eventCache := i.events wit }
            memo := { h.memo with tick := h.memo.tick + 1 } } := by
    intro i _ hi
    obtain ⟨pec, hst, -⟩ := setEvent_eq i.setEvent
    have hcreator : i.ev.creator = event.creator := congrArg SignedEvent.creator i.signed
    have hcached : WitnessCached wit i.ev.creator h.memo i.store.eventCache := by
      rw [hst]
      refine witnessCached_insert hw ⟨ownCoordinates S event, ?_⟩ _
      rw [i.firstDescendants, hcreator, AList.lookup_insert]
    refine (returns_updateAncestorFirstDescendant hcached).mono ?_
    rintro _ _ rfl
    simp only [withEventCache, Insertion.events, hi, i.signed]
  rcases insertEvent_cases_of S rt event wire fill hmark with hfail | ⟨i, _, rfl, he⟩
  · exact Or.inl hfail
  · exact Or.inr ⟨i, _, ⟨_, _, rfl⟩, he⟩

/-! ## Without the caches -/

theorem exec_query_eq {α : Type} (q : InmemStore H K → Query H α) (h : Hashgraph H K) :
    Exec.exec (query q) h =
      ((Exec.exec (q h.store) h.memo).1, { h with memo := (Exec.exec (q h.store) h.memo).2 }) := by
  unfold query
  simp only [Exec.exec_bind, Exec.exec_get, Exec.exec_set]
  cases (Exec.exec (q h.store) h.memo).1 with
  | ok a => rfl
  | error err => rfl

theorem exec_query {α : Type} (q : InmemStore H K → Query H α) (h : Hashgraph H K) :
    ∃ r m, Exec.exec (query q) h = (r, { h with memo := m }) :=
  ⟨_, _, exec_query_eq q h⟩

/-- An event without a first descendant by the creator. -/
def Unmarked (creator : K) (ec : Map H (Event H K)) (x : H) : Prop :=
  ∀ a, ec.lookup x = some a → a.firstDescendants.lookup creator = none

theorem Unmarked.of_marked {ec ec' : Map H (Event H K)} {x : H} (h : EventsMarked ec ec')
    (hx : Unmarked creator ec' x) : Unmarked creator ec x := by
  intro a ha
  obtain ⟨a', ha', hm⟩ := h.lookup ha
  cases hf : a.firstDescendants.lookup creator with
  | none => rfl
  | some c =>
    rw [← hm.keeps creator c hf]
    exact hx a' ha'

theorem not_unmarked_insert {ec : Map H (Event H K)} {x : H} {a : Event H K} :
    ¬Unmarked creator (ec.insert x (addFirstDescendant creator coordinates a)) x := by
  intro h
  have hnone := h _ (AList.lookup_insert ec)
  rw [addFirstDescendant, AList.lookup_insert] at hnone
  cases hnone

/-- The marking asks only about the events that it marks. -/
theorem markFrom_congr {wit' : H → Bool} (fuel : ℕ) (ah : Option H) (ec : Map H (Event H K))
    (h : ∀ z, Unmarked creator ec z →
      ¬Unmarked creator (markFrom wit creator coordinates fuel ah ec) z → wit' z = wit z) :
    markFrom wit' creator coordinates fuel ah ec = markFrom wit creator coordinates fuel ah ec := by
  induction fuel generalizing ah ec with
  | zero => rfl
  | succ fuel ih =>
    cases ah with
    | none => rfl
    | some ah =>
      by_cases hstop : ∀ a, ec.lookup ah = some a → ∃ c, a.firstDescendants.lookup creator = some c
      · rw [markFrom_of_stop _ hstop, markFrom_of_stop _ hstop]
      push Not at hstop
      obtain ⟨a, ha, hf⟩ := hstop
      have hf : a.firstDescendants.lookup creator = none := Option.eq_none_iff_forall_ne_some.2 hf
      have hun : Unmarked creator ec ah := fun a' ha' => Option.some.inj (ha.symm.trans ha') ▸ hf
      rw [markFrom_of_lookup fuel ha hf] at h ⊢
      rw [markFrom_of_lookup fuel ha hf]
      set ec₁ := ec.insert ah (addFirstDescendant creator coordinates a) with hec₁
      have hmark : ¬Unmarked creator ec₁ ah := not_unmarked_insert
      have hwit : wit' ah = wit ah := by
        refine h ah hun fun hfinal => hmark ?_
        split_ifs at hfinal
        · exact hfinal
        · exact hfinal.of_marked (eventsMarked_markFrom _ _ _)
      rw [hwit]
      split_ifs with hw
      · rfl
      · refine ih _ _ fun z hz hz' => h z (hz.of_marked (eventsMarked_insert ha hf)) ?_
        rwa [if_neg hw]

theorem markAll_congr {wit' : H → Bool} (fuel : ℕ) (l : List (K × EventCoordinates H))
    (ec : Map H (Event H K)) (h : ∀ z, Unmarked creator ec z →
      ¬Unmarked creator (markAll wit creator coordinates fuel l ec) z → wit' z = wit z) :
    markAll wit' creator coordinates fuel l ec = markAll wit creator coordinates fuel l ec := by
  induction l generalizing ec with
  | nil => rfl
  | cons d l ih =>
    have hcons : ∀ w : H → Bool, markAll w creator coordinates fuel (d :: l) ec =
        markAll w creator coordinates fuel l
          (markFrom w creator coordinates fuel (some d.2.hash) ec) := fun _ => rfl
    rw [hcons] at h
    have hfrom : markFrom wit' creator coordinates fuel (some d.2.hash) ec =
        markFrom wit creator coordinates fuel (some d.2.hash) ec :=
      markFrom_congr _ _ _ fun z hz hz' =>
        h z hz fun hfinal => hz' (hfinal.of_marked (eventsMarked_markAll _ _ _))
    rw [hcons, hcons, hfrom]
    exact ih _ fun z hz hz' => h z (hz.of_marked (eventsMarked_markFrom _ _ _)) hz'

/-- A marking with other witnesses after a marking is one marking. -/
theorem exists_markAll_concat (wit wit' : H → Bool) (creator : K)
    (coordinates : EventCoordinates H) (fuel : ℕ) (l : List (K × EventCoordinates H))
    (d : K × EventCoordinates H) (ec : Map H (Event H K)) :
    ∃ wit'' : H → Bool, markAll wit'' creator coordinates fuel (l ++ [d]) ec =
      markFrom wit' creator coordinates fuel (some d.2.hash)
        (markAll wit creator coordinates fuel l ec) := by
  classical
  set ec₁ := markAll wit creator coordinates fuel l ec with hec₁
  let both : H → Bool := fun z => if Unmarked creator ec₁ z then wit' z else wit z
  have hfirst : markAll both creator coordinates fuel l ec = ec₁ :=
    markAll_congr _ _ _ fun z _ hz' => if_neg hz'
  have hsecond : markFrom both creator coordinates fuel (some d.2.hash) ec₁ =
      markFrom wit' creator coordinates fuel (some d.2.hash) ec₁ :=
    markFrom_congr _ _ _ fun z hz _ => if_pos hz
  have happend : markAll both creator coordinates fuel (l ++ [d]) ec =
      markFrom both creator coordinates fuel (some d.2.hash)
        (markAll both creator coordinates fuel l ec) := by
    simp only [markAll, List.foldl_append, List.foldl_cons, List.foldl_nil]
  exact ⟨both, happend.trans (hfirst ▸ hsecond)⟩

/-- Whatever the caches answer, the marking is one for some witnesses. -/
theorem returns_markAncestors_some (fuel : ℕ) (ah : Option H) (h : Hashgraph H K) :
    Exec.Returns (markAncestors S rt creator coordinates fuel ah) h fun _ h' => ∃ wit m, h' =
      { h.withEventCache (markFrom wit creator coordinates fuel ah h.store.eventCache) with
        memo := m } := by
  induction fuel generalizing ah h with
  | zero => exact Exec.returns_pure ⟨fun _ => false, h.memo, rfl⟩
  | succ fuel ih =>
    cases ah with
    | none => exact Exec.returns_pure ⟨fun _ => false, h.memo, by rw [markFrom_none]; rfl⟩
    | some ah =>
      unfold markAncestors
      refine Exec.Returns.bind (Exec.returns_get ?_)
      cases ha : h.store.eventCache.lookup ah with
      | none =>
        simp only [InmemStore.getEvent, ha]
        exact Exec.returns_pure ⟨fun _ => false, h.memo, by
          rw [markFrom_of_stop _ (by simp [ha])]; rfl⟩
      | some a =>
        simp only [InmemStore.getEvent, ha]
        cases hf : a.firstDescendants.lookup creator with
        | some c =>
          exact Exec.returns_pure ⟨fun _ => false, h.memo, by
            rw [markFrom_of_stop _ (by simp [ha, hf])]; rfl⟩
        | none =>
          refine Exec.Returns.bind (returns_modifyStore ?_)
          simp only [InmemStore.modifyEvent, ha]
          set h₁ : Hashgraph H K :=
            h.withEventCache (h.store.eventCache.insert ah (addFirstDescendant creator coordinates a))
            with hh₁
          obtain ⟨r, m, hr⟩ := exec_query (fun st => Query.witness S rt st ah) h₁
          refine Exec.Returns.bind ⟨r, { h₁ with memo := m }, by rw [Exec.exec_attempt]; erw [hr], ?_⟩
          -- an error of the query is as good as a no
          have hgo : Exec.Returns (markAncestors S rt creator coordinates fuel a.body.selfParent)
              { h₁ with memo := m } fun _ h' => ∃ wit m, h' = { h.withEventCache (markFrom wit creator
                coordinates (fuel + 1) (some ah) h.store.eventCache) with memo := m } := by
            refine (ih a.body.selfParent { h₁ with memo := m }).mono ?_
            rintro _ _ ⟨wit, m', rfl⟩
            have hsame : markFrom (Function.update wit ah false) creator coordinates fuel
                a.body.selfParent h₁.store.eventCache =
                markFrom wit creator coordinates fuel a.body.selfParent h₁.store.eventCache := by
              refine markFrom_congr _ _ _ fun z hz _ => Function.update_of_ne (fun hzah => ?_) _ _
              rw [hzah] at hz
              exact not_unmarked_insert hz
            refine ⟨Function.update wit ah false, m', ?_⟩
            rw [markFrom_of_lookup fuel ha hf, Function.update_self, if_neg Bool.false_ne_true]
            exact congrArg (fun ec => { h.withEventCache ec with memo := m' }) hsame.symm
          rcases r with err | b
          · exact hgo
          · cases b with
            | true =>
              refine Exec.returns_pure ⟨fun _ => true, m, ?_⟩
              rw [markFrom_of_lookup fuel ha hf, if_pos rfl]
            | false => exact hgo

variable (S rt) in
theorem returns_updateAncestorFirstDescendant_some (ev : Event H K) (h : Hashgraph H K) :
    Exec.Returns (updateAncestorFirstDescendant S rt ev) h fun _ h' => ∃ wit m, h' =
      { h.withEventCache (markAll wit ev.creator (ownCoordinates S ev.toSignedEvent)
          (h.store.eventCache.keys.length + 1) (rt.order h.memo.tick ev.lastAncestors.toPairs)
          h.store.eventCache) with memo := m } := by
  refine Exec.Returns.bind (returns_query (Query.returns_visit ?_))
  refine Exec.Returns.bind (Exec.returns_get ?_)
  refine Exec.returns_forM (fun l h' => ∃ wit m, h' =
    { h.withEventCache (markAll wit ev.creator (ownCoordinates S ev.toSignedEvent)
        (h.store.eventCache.keys.length + 1) l h.store.eventCache) with memo := m })
    ⟨fun _ => false, { h.memo with tick := h.memo.tick + 1 }, rfl⟩ ?_
  rintro l d rest - _ ⟨wit, m, rfl⟩
  refine (returns_markAncestors_some _ _ _).mono ?_
  rintro _ _ ⟨wit', m', rfl⟩
  obtain ⟨wit'', hwit⟩ := exists_markAll_concat wit wit' ev.creator
    (ownCoordinates S ev.toSignedEvent) (h.store.eventCache.keys.length + 1) l d h.store.eventCache
  exact ⟨wit'', m', by rw [hwit]; rfl⟩

/-- The hashgraph with its events marked and with other caches. -/
def MarkedFrom (h h' : Hashgraph H K) : Prop :=
  ∃ ec m, EventsMarked h.store.eventCache ec ∧ h' = { h.withEventCache ec with memo := m }

variable (S rt) in
theorem returns_updateAncestorFirstDescendant_any (ev : Event H K) (h : Hashgraph H K) :
    Exec.Returns (updateAncestorFirstDescendant S rt ev) h fun _ h' => MarkedFrom h h' := by
  refine (returns_updateAncestorFirstDescendant_some S rt ev h).mono ?_
  rintro _ _ ⟨wit, m, rfl⟩
  exact ⟨_, m, eventsMarked_markAll _ _ _, rfl⟩

/-- Whatever the caches hold, an insertion fails and changes the topological counter at
most, or it stores the event and marks its ancestors up to some events. -/
theorem insertEvent_cases_some (S : Scheme H K) (rt : Runtime) (h : Hashgraph H K)
    (event : SignedEvent H K) (wire : WireInfo) (fill : Bool) :
    (∃ err ti, Exec.exec (insertEvent S rt event wire fill) h =
        (.error err, { h with topologicalIndex := ti })) ∨
      ∃ (i : Insertion S h event) (wit : H → Bool) (h' : Hashgraph H K),
        h'.store = { i.store with eventCache := i.events wit } ∧
        Exec.exec (insertEvent S rt event wire fill) h = (.ok (), h') := by
  have hmark : ∀ i : Insertion S h event, i.Filled wire fill →
      i.ancestors = rt.order h.memo.tick i.ev.lastAncestors.toPairs →
      Exec.Returns (updateAncestorFirstDescendant S rt i.ev)
        { h with topologicalIndex := h.topologicalIndex + 1, store := i.store } fun _ h₁ =>
          ∃ wit, h₁.store = { i.store with eventCache := i.events wit } := by
    intro i _ hi
    refine (returns_updateAncestorFirstDescendant_some S rt i.ev _).mono ?_
    rintro _ _ ⟨wit, m, rfl⟩
    refine ⟨wit, ?_⟩
    simp only [withEventCache, Insertion.events, hi, i.signed]
  rcases insertEvent_cases_of S rt event wire fill hmark with hfail | ⟨i, h₁, ⟨wit, hst⟩, he⟩
  · exact Or.inl hfail
  · exact Or.inr ⟨i, wit, queueEvent S event h₁, hst, he⟩

/-- Whatever the caches hold, an insertion fails and changes the topological counter at
most, or it stores the event and marks others. -/
theorem insertEvent_cases_any (S : Scheme H K) (rt : Runtime) (h : Hashgraph H K)
    (event : SignedEvent H K) (wire : WireInfo) (fill : Bool) :
    (∃ err ti, Exec.exec (insertEvent S rt event wire fill) h =
        (.error err, { h with topologicalIndex := ti })) ∨
      ∃ (i : Insertion S h event) (ec : Map H (Event H K)) (h' : Hashgraph H K),
        i.Filled wire fill ∧ EventsMarked i.store.eventCache ec ∧
        h'.store = { i.store with eventCache := ec } ∧
        Exec.exec (insertEvent S rt event wire fill) h = (.ok (), h') := by
  rcases insertEvent_cases_of S rt event wire fill fun i hi _ =>
    (returns_updateAncestorFirstDescendant_any S rt i.ev _).mono fun _ _ => And.intro hi with
    hfail | ⟨i, _, ⟨hi, hm⟩, he⟩
  · exact Or.inl hfail
  · obtain ⟨ec, m, hec, rfl⟩ := hm
    exact Or.inr ⟨i, ec, _, hi, hec, rfl, he⟩

end Hashgraph

end Babble

import Babble.WellFormed

/-!
# The events of the participants

The store keeps the hashes of every participant's events in a rolling index. `Listed` says
that these hold all stored events, in the order of their self-parents and at consecutive
indexes, as long as the windows have room. Then an event is found under its creator and
its index (`Listed.getItem_iff`), and the last one is the one to be the next self-parent.

An event is listed under its index only if it claims the index after its self-parent's
(`IndexFollows`).
-/

set_option linter.unusedSectionVars false

namespace Babble

variable {H K : Type} [DecidableEq H] [DecidableEq K] [Hex H] [Hex K]

/-! ## Signed events -/

/-- The signed part of the stored events. -/
def signedEvents (ec : Map H (Event H K)) (x : H) : Option (SignedEvent H K) :=
  (ec.lookup x).map Event.toSignedEvent

theorem signedEvents_eq_some {ec : Map H (Event H K)} {x : H} {e : SignedEvent H K} :
    signedEvents ec x = some e ↔ ∃ ev, ec.lookup x = some ev ∧ ev.toSignedEvent = e :=
  Option.map_eq_some_iff

theorem signedEvents_isSome {ec : Map H (Event H K)} {x : H} :
    (∃ e, signedEvents ec x = some e) ↔ x ∈ ec := by
  simp [signedEvents, Map.mem_iff_lookup]

theorem signedEvents_insert (ec : Map H (Event H K)) (x : H) (ev : Event H K) :
    signedEvents (ec.insert x ev) = Function.update (signedEvents ec) x (some ev.toSignedEvent) := by
  funext y
  rw [signedEvents, Map.lookup_insert_ite, Function.update_apply]
  split_ifs
  · rfl
  · rfl

/-- What the marking does not change in an event. -/
theorem Hashgraph.EventsMarked.map_lookup {γ : Type} {g : Event H K → γ}
    (hg : ∀ e e', Marks e e' → g e' = g e) {ec ec' : Map H (Event H K)} (h : EventsMarked ec ec')
    (x : H) : (ec'.lookup x).map g = (ec.lookup x).map g := by
  have hx := h x
  revert hx
  generalize ec.lookup x = a
  generalize ec'.lookup x = b
  rintro (@⟨e, e', hm⟩ | _)
  · exact congrArg some (hg e e' hm)
  · rfl

/-- What the passes of consensus do not change in an event. -/
theorem EventsLike.map_lookup {γ : Type} {g : Event H K → γ}
    (hg : ∀ e e', e.SameCoordinates e' → g e' = g e) {ec ec' : Map H (Event H K)}
    (h : EventsLike ec ec') (x : H) : (ec'.lookup x).map g = (ec.lookup x).map g := by
  have hx := h x
  revert hx
  generalize ec.lookup x = a
  generalize ec'.lookup x = b
  rintro (@⟨e, e', hm⟩ | _)
  · exact congrArg some (hg e e' hm)
  · rfl

theorem Hashgraph.EventsMarked.signedEvents_eq {ec ec' : Map H (Event H K)}
    (h : EventsMarked ec ec') : signedEvents ec' = signedEvents ec :=
  funext (h.map_lookup fun _ _ hm => by rw [hm.eq])

theorem EventsLike.signedEvents_eq {ec ec' : Map H (Event H K)} (h : EventsLike ec ec') :
    signedEvents ec' = signedEvents ec :=
  funext (h.map_lookup fun _ _ hm => hm.signed)

/-! ## Participants -/

theorem PeerSet.lookup_byPubKey {ps : PeerSet K} {k : K} {p : Peer K}
    (h : ps.byPubKey.lookup k = some p) : p ∈ ps.peers ∧ p.pubKeyString = k :=
  (Map.lookup_foldl_insert Peer.pubKeyString h).resolve_left (by simp)

theorem PeerSet.lookup_byID_eq_none {ps : PeerSet K} {i : UInt32} :
    ps.byID.lookup i = none ↔ ∀ p ∈ ps.peers, p.id ≠ i := by
  rw [AList.lookup_eq_none, byID, Map.mem_foldl_insert]
  simp

namespace ParticipantEventsCache

variable {pec pec' : ParticipantEventsCache H K} {k : K} {x : H} {i : ℤ}

/-- Setting an event leaves the participants. -/
theorem participants_set (h : pec.set k x i = .ok pec') : pec'.participants = pec.participants := by
  unfold ParticipantEventsCache.set at h
  cases hid : pec.participantID k with
  | error err => rw [hid] at h; cases h
  | ok id =>
    rw [hid] at h
    cases hset : pec.rim.set id x i with
    | error err => simp only [bind, Except.bind, hset] at h; cases h
    | ok rim =>
      simp only [bind, Except.bind, hset] at h
      obtain rfl := Except.ok.inj h
      rfl

/-- Participants have distinct identifiers, and a rolling index belongs to one of them. -/
structure Registered (pec : ParticipantEventsCache H K) : Prop where
  ids : (pec.participants.peers.map Peer.id).Nodup
  mapping : ∀ id, id ∈ pec.rim.mapping ↔ ∃ p ∈ pec.participants.peers, p.id = id

/-- Two participants with one identifier are one. -/
theorem Registered.toUpper_eq (hr : pec.Registered) {k k' : K} {id : UInt32}
    (h : pec.participantID k = .ok id) (h' : pec.participantID k' = .ok id) :
    Hex.toUpper k = Hex.toUpper k' := by
  unfold participantID at h h'
  cases hp : pec.participants.byPubKey.lookup (Hex.toUpper k) with
  | none => rw [hp] at h; cases h
  | some p =>
    cases hq : pec.participants.byPubKey.lookup (Hex.toUpper k') with
    | none => rw [hq] at h'; cases h'
    | some q =>
      rw [hp] at h
      rw [hq] at h'
      obtain ⟨hpmem, hpk⟩ := PeerSet.lookup_byPubKey hp
      obtain ⟨hqmem, hqk⟩ := PeerSet.lookup_byPubKey hq
      have hid : p.id = q.id := by
        rw [Except.ok.inj h, Except.ok.inj h']
      have hpq : p = q := List.inj_on_of_nodup_map hr.ids hpmem hqmem hid
      rw [← hpk, ← hqk, hpq]

/-- The last event of a participant. -/
theorem getLast_eq {id : UInt32} {ri : RollingIndex H} (hid : pec.participantID k = .ok id)
    (hri : pec.rim.mapping.lookup id = some ri) :
    pec.getLast k = match ri.items.getLast? with
      | none => .error (.store pec.rim.name .empty)
      | some last => .ok last := by
  unfold getLast
  rw [hid]
  change pec.rim.getLast id = _
  unfold RollingIndexMap.getLast
  generalize pec.rim.mapping.lookup id = o at hri ⊢
  subst hri
  rfl

/-- The rolling index of a participant. -/
def window (pec : ParticipantEventsCache H K) (k : K) : Option (RollingIndex H) :=
  match pec.participantID k with
  | .ok id => pec.rim.mapping.lookup id
  | .error _ => none

theorem window_eq_some {ri : RollingIndex H} : pec.window k = some ri ↔
    ∃ id, pec.participantID k = .ok id ∧ pec.rim.mapping.lookup id = some ri := by
  unfold window
  cases pec.participantID k <;> simp

/-- The case of a public key does not matter. -/
theorem window_congr {k' : K} (h : Hex.toUpper k = Hex.toUpper k') : pec.window k = pec.window k' := by
  unfold window participantID
  rw [h]

theorem exists_set_iff {ri : RollingIndex H} (hw : pec.window k = some ri) :
    (∃ pec', pec.set k x i = .ok pec') ↔ ∃ ri', ri.set x i = .ok ri' := by
  obtain ⟨id, hid, hl⟩ := window_eq_some.1 hw
  simp only [ParticipantEventsCache.set, hid, bind, Except.bind, RollingIndexMap.set, hl,
    Option.getD_some]
  cases ri.set x i with
  | error err =>
    refine iff_of_false ?_ ?_
    · rintro ⟨pec', h⟩
      cases h
    · rintro ⟨ri', h⟩
      cases h
  | ok ri' => exact iff_of_true ⟨_, rfl⟩ ⟨ri', rfl⟩

/-- Every rolling index is the window of a participant. -/
theorem Registered.exists_window (hr : pec.Registered) {id : UInt32} {ri : RollingIndex H}
    (h : pec.rim.mapping.lookup id = some ri) : ∃ k, pec.window k = some ri := by
  obtain ⟨p, hp, rfl⟩ := (hr.mapping id).1 (Map.mem_iff_lookup.2 ⟨ri, h⟩)
  obtain ⟨q, hq⟩ := Map.mem_iff_lookup.1 (PeerSet.mem_byPubKey.2 ⟨p, hp, rfl⟩)
  refine ⟨p.pubKeyString, window_eq_some.2 ⟨p.id, ?_, h⟩⟩
  rw [participantID, Peer.toUpper_pubKeyString, hq]
  exact congrArg _ (Peer.id_eq_of_pubKeyString (PeerSet.lookup_byPubKey hq).2)

theorem Registered.window_eq_none (hr : pec.Registered) :
    pec.window k = none ↔ pec.participantID k = .error (.store "ParticipantEvents" .unknownParticipant) := by
  unfold window participantID
  cases hp : pec.participants.byPubKey.lookup (Hex.toUpper k) with
  | none => simp
  | some p =>
    have hmem : p.id ∈ pec.rim.mapping :=
      (hr.mapping _).2 ⟨p, (PeerSet.lookup_byPubKey hp).1, rfl⟩
    obtain ⟨ri, hri⟩ := Map.mem_iff_lookup.1 hmem
    simp [hri]

/-- The last event of a participant is the last one of its window. -/
theorem Registered.getLast_eq (hr : pec.Registered) (k : K) :
    pec.getLast k =
      match pec.window k with
      | none => .error (.store "ParticipantEvents" .unknownParticipant)
      | some ri =>
        match ri.items.getLast? with
        | none => .error (.store pec.rim.name .empty)
        | some last => .ok last := by
  cases hw : pec.window k with
  | none => rw [getLast, hr.window_eq_none.1 hw]; rfl
  | some ri =>
    unfold window at hw
    cases hid : pec.participantID k with
    | error err => rw [hid] at hw; cases hw
    | ok id =>
      rw [hid] at hw
      exact ParticipantEventsCache.getLast_eq hid hw

/-- Setting an event changes the window of its creator. -/
theorem Registered.set (hr : pec.Registered) (hset : pec.set k x i = .ok pec') :
    pec'.Registered ∧
      (∃ ri ri', pec.window k = some ri ∧ ri.set x i = .ok ri' ∧ pec'.window k = some ri') ∧
      ∀ k', Hex.toUpper k' ≠ Hex.toUpper k → pec'.window k' = pec.window k' := by
  cases hid : pec.participantID k with
  | error err => rw [ParticipantEventsCache.set, hid] at hset; cases hset
  | ok id =>
    have hw : pec.window k = pec.rim.mapping.lookup id := by rw [window, hid]
    cases hri : pec.window k with
    | none => rw [hr.window_eq_none.1 hri] at hid; cases hid
    | some ri =>
      rw [hri] at hw
      simp only [ParticipantEventsCache.set, hid, bind, Except.bind, RollingIndexMap.set, ← hw,
        Option.getD_some] at hset
      cases hri' : ri.set x i with
      | error err => rw [hri'] at hset; cases hset
      | ok ri' =>
        rw [hri'] at hset
        obtain rfl := Except.ok.inj hset
        refine ⟨⟨hr.ids, fun j => ?_⟩, ⟨ri, ri', rfl, hri', ?_⟩, fun k' hk' => ?_⟩
        · rw [← hr.mapping j]
          refine (AList.mem_insert _).trans (or_iff_right_of_imp ?_)
          rintro rfl
          exact Map.mem_iff_lookup.2 ⟨ri, hw.symm⟩
        · change (match pec.participantID k with | .ok id' => _ | .error _ => _) = _
          rw [hid]
          exact AList.lookup_insert _
        · change (match pec.participantID k' with | .ok id' => _ | .error _ => _) = window pec k'
          rw [window]
          cases hid' : pec.participantID k' with
          | error err => rfl
          | ok id' =>
            refine AList.lookup_insert_ne ?_
            rintro rfl
            exact hk' (hr.toUpper_eq hid' hid)

/-- Participants are added, with empty windows. -/
def Enrolls (pec pec' : ParticipantEventsCache H K) : Prop :=
  pec.Registered → pec'.Registered ∧ pec'.rim.size = pec.rim.size ∧
    ∀ k, pec'.window k = pec.window k ∨
      pec.window k = none ∧ ∃ name, pec'.window k = some (RollingIndex.new name pec.rim.size)

theorem Enrolls.refl (pec : ParticipantEventsCache H K) : pec.Enrolls pec :=
  fun hr => ⟨hr, rfl, fun _ => Or.inl rfl⟩

theorem Enrolls.trans {pec'' : ParticipantEventsCache H K} (h : pec.Enrolls pec')
    (h' : pec'.Enrolls pec'') : pec.Enrolls pec'' := by
  intro hr
  obtain ⟨hr', hsize, hw⟩ := h hr
  obtain ⟨hr'', hsize', hw'⟩ := h' hr'
  refine ⟨hr'', hsize'.trans hsize, fun k => ?_⟩
  rcases hw' k with he' | ⟨hn', name, he'⟩
  · rw [he']
    exact hw k
  · rcases hw k with he | ⟨-, name', he⟩
    · exact Or.inr ⟨he ▸ hn', name, hsize ▸ he'⟩
    · rw [he] at hn'
      cases hn'

theorem enrolls_addPeer {p : Peer K} (hp : pec.participants.byID.lookup p.id = none) :
    pec.Enrolls (pec.addPeer p).2 := by
  intro hr
  have hnew : p.id ∉ pec.rim.mapping := by
    rw [hr.mapping]
    rintro ⟨q, hq, hid⟩
    exact PeerSet.lookup_byID_eq_none.1 hp q hq hid
  have hpec : (pec.addPeer p).2 =
      { participants := ⟨pec.participants.peers ++ [p]⟩
        rim := { pec.rim with mapping :=
          pec.rim.mapping.insert p.id (RollingIndex.new pec.rim.name pec.rim.size) } } := by
    simp only [ParticipantEventsCache.addPeer, RollingIndexMap.addKey,
      AList.lookup_eq_none.2 hnew, PeerSet.withNewPeer, hp]
  rw [hpec]
  refine ⟨⟨?_, fun id => ?_⟩, rfl, fun k => ?_⟩
  · rw [List.map_append, List.nodup_append]
    refine ⟨hr.ids, by simp, fun a ha b hb hab => ?_⟩
    obtain ⟨q, hq, rfl⟩ := List.mem_map.1 ha
    rw [List.map_singleton, List.mem_singleton] at hb
    exact PeerSet.lookup_byID_eq_none.1 hp q hq (hab.trans hb)
  · simp only [AList.mem_insert, hr.mapping, List.mem_append, List.mem_singleton]
    constructor
    · rintro (rfl | ⟨q, hq, hidq⟩)
      exacts [⟨p, Or.inr rfl, rfl⟩, ⟨q, Or.inl hq, hidq⟩]
    · rintro ⟨q, hq | rfl, hidq⟩
      exacts [Or.inr ⟨q, hq, hidq⟩, Or.inl hidq.symm]
  · unfold window participantID
    simp only [PeerSet.byPubKey, List.foldl_append, List.foldl_cons, List.foldl_nil,
      Map.lookup_insert_ite]
    cases hq : pec.participants.byPubKey.lookup (Hex.toUpper k) with
    | none =>
      unfold PeerSet.byPubKey at hq
      split_ifs with hkp
      · exact Or.inr ⟨by rw [hq], pec.rim.name, by simp⟩
      · exact Or.inl (by rw [hq])
    | some q =>
      obtain ⟨hmem, hqk⟩ := PeerSet.lookup_byPubKey hq
      have hne : q.id ≠ p.id := PeerSet.lookup_byID_eq_none.1 hp q hmem
      have hkp : Hex.toUpper k ≠ p.pubKeyString :=
        fun hkp => hne (Peer.id_eq_of_pubKeyString (hqk.trans hkp))
      unfold PeerSet.byPubKey at hq
      exact Or.inl (by simp only [if_neg hkp, hq, if_neg hne])

theorem enrolls_foldl (ps : List (Peer K)) (st : InmemStore H K) :
    st.participantEventsCache.Enrolls
      (ps.foldl InmemStore.addParticipant st).participantEventsCache := by
  induction ps generalizing st with
  | nil => exact .refl _
  | cons p ps ih =>
    refine .trans ?_ (ih _)
    have hroot : ∀ st : InmemStore H K,
        (st.addRoot p).participantEventsCache = st.participantEventsCache := by
      intro st
      unfold InmemStore.addRoot
      cases st.roots.lookup p.pubKeyString <;> rfl
    unfold InmemStore.addParticipant
    cases hp : st.participantEventsCache.participants.byID.lookup p.id with
    | some _ => exact (hroot st).symm ▸ .refl _
    | none =>
      have hadd := enrolls_addPeer hp
      generalize st.participantEventsCache.addPeer p = res at hadd
      obtain ⟨_ | _, pec⟩ := res
      · exact hadd
      · exact (hroot _).symm ▸ hadd

/-- Recording a peer-set. -/
theorem enrolls_setPeerSet {st st' : InmemStore H K} {r : ℤ} {P : PeerSet K}
    (hset : st.setPeerSet r P = .ok st') :
    st.participantEventsCache.Enrolls st'.participantEventsCache := by
  unfold InmemStore.setPeerSet at hset
  cases hpsc : st.peerSetCache.set r P with
  | error err => rw [hpsc] at hset; cases hset
  | ok psc =>
    rw [hpsc] at hset
    obtain rfl := Except.ok.inj hset
    have hsync : ∀ st : InmemStore H K,
        st.syncSharedRoots.participantEventsCache = st.participantEventsCache := by
      intro st
      unfold InmemStore.syncSharedRoots
      cases st.sharedRoots with
      | none => rfl
      | some r => cases hfr : st.frameCache.lookup r <;> simp only [hfr]
    rw [hsync]
    exact enrolls_foldl P.peers { st with peerSetCache := psc }

end ParticipantEventsCache

/-! ## Rolling indexes of events -/

/-- The items of a rolling index are the events of `k` from a first one that satisfies `B`
on, each the self-parent of the next. -/
structure RollingIndex.Lists (B : SignedEvent H K → Prop) (f : H → Option (SignedEvent H K))
    (k : K) (ri : RollingIndex H) : Prop where
  empty : ri.items = [] → ri.lastIndex = -1
  item : ∀ (i : ℕ) x, ri.items[i]? = some x →
    ∃ e, f x = some e ∧ e.creator = k ∧ e.body.index = ri.oldestCachedIndex + i
  first : ∀ x e, ri.items[0]? = some x → f x = some e → B e
  next : ∀ (i : ℕ) x y e, ri.items[i]? = some x → ri.items[i + 1]? = some y → f y = some e →
    e.body.selfParent = some x

namespace RollingIndex.Lists

variable {B : SignedEvent H K → Prop} {f : H → Option (SignedEvent H K)} {k : K}
  {ri : RollingIndex H}

theorem getItem_iff (h : ri.Lists B f k) {i : ℤ} {x : H} :
    ri.getItem i = .ok x ↔ ∃ e, x ∈ ri.items ∧ f x = some e ∧ e.body.index = i := by
  unfold RollingIndex.getItem
  constructor
  · intro hi
    split_ifs at hi with hlt
    cases hx : ri.items[(i - ri.oldestCachedIndex).toNat]? with
    | none => rw [hx] at hi; cases hi
    | some y =>
      rw [hx] at hi
      obtain rfl := Except.ok.inj hi
      obtain ⟨e, he, -, hidx⟩ := h.item _ _ hx
      exact ⟨e, List.mem_of_getElem? hx, he, by omega⟩
  · rintro ⟨e, hmem, he, hidx⟩
    obtain ⟨j, hj⟩ := List.mem_iff_getElem?.1 hmem
    obtain ⟨e', he', -, hidx'⟩ := h.item _ _ hj
    obtain rfl : e = e' := Option.some.inj (he.symm.trans he')
    rw [if_neg (by omega), show (i - ri.oldestCachedIndex).toNat = j by omega, hj]

theorem lastIndex_eq (h : ri.Lists B f k) {x : H} {e : SignedEvent H K}
    (hx : ri.items.getLast? = some x) (he : f x = some e) : e.body.index = ri.lastIndex := by
  rw [List.getLast?_eq_getElem?] at hx
  obtain ⟨e', he', -, hidx⟩ := h.item _ _ hx
  obtain rfl : e = e' := Option.some.inj (he.symm.trans he')
  have hpos : 0 < ri.items.length := by
    by_contra hlen
    rw [List.getElem?_eq_none (by omega)] at hx
    cases hx
  rw [hidx, RollingIndex.oldestCachedIndex]
  omega

/-- The list goes on with the next event. -/
theorem append (h : ri.Lists B f k) {x : H} {e : SignedEvent H K} (hx : f x = none)
    (hk : e.creator = k) (hfirst : ri.items = [] → B e)
    (hnext : ∀ p, ri.items.getLast? = some p →
      e.body.selfParent = some p ∧ e.body.index = ri.lastIndex + 1) :
    RollingIndex.Lists B (Function.update f x (some e)) k
      { ri with items := ri.items ++ [x], lastIndex := e.body.index } := by
  have hne : ∀ (i : ℕ) y, ri.items[i]? = some y → y ≠ x := by
    rintro i y hy rfl
    obtain ⟨e', he', -⟩ := h.item i y hy
    rw [hx] at he'
    cases he'
  have hold : ∀ (i : ℕ) y, ri.items[i]? = some y → Function.update f x (some e) y = f y :=
    fun i y hy => Function.update_of_ne (hne i y hy) _ _
  have hoff : ri.items ≠ [] → e.body.index = ri.lastIndex + 1 := by
    intro hnil
    obtain ⟨p, hp⟩ := Option.ne_none_iff_exists'.1 (mt List.getLast?_eq_none_iff.1 hnil)
    exact (hnext p hp).2
  -- an item of the longer list is an old one or the new one at the end
  have hsplit : ∀ (i : ℕ) y, (ri.items ++ [x])[i]? = some y →
      ri.items[i]? = some y ∨ i = ri.items.length ∧ y = x := by
    intro i y hy
    rw [List.getElem?_append] at hy
    split_ifs at hy with hi
    · exact Or.inl hy
    · rw [List.getElem?_singleton] at hy
      split_ifs at hy with hi'
      exact Or.inr ⟨by omega, (Option.some.inj hy).symm⟩
  refine ⟨fun hnil => by simp at hnil, fun i y hy => ?_, fun y e' hy he' => ?_,
    fun i y z e' hy hz he' => ?_⟩
  · rcases hsplit i y hy with hy | ⟨rfl, rfl⟩
    · obtain ⟨e', he', hk', hidx⟩ := h.item i y hy
      refine ⟨e', (hold i y hy).trans he', hk', ?_⟩
      have hlen := hoff (List.ne_nil_of_mem (List.mem_of_getElem? hy))
      simp only [RollingIndex.oldestCachedIndex, List.length_append, List.length_singleton] at *
      omega
    · refine ⟨e, Function.update_self _ _ _, hk, ?_⟩
      simp only [RollingIndex.oldestCachedIndex, List.length_append, List.length_singleton]
      omega
  · rcases hsplit 0 y hy with hy | ⟨hlen, rfl⟩
    · rw [hold 0 y hy] at he'
      exact h.first y e' hy he'
    · obtain rfl : e = e' := by simpa using he'
      exact hfirst (List.length_eq_zero_iff.1 hlen.symm)
  · rcases hsplit (i + 1) z hz with hz | ⟨hlen, rfl⟩
    · rw [hold (i + 1) z hz] at he'
      have hi : i < ri.items.length := by
        have := (List.getElem?_eq_some_iff.1 hz).1
        omega
      rw [List.getElem?_append_left hi] at hy
      exact h.next i y z e' hy hz he'
    · obtain rfl : e = e' := by simpa using he'
      refine (hnext y ?_).1
      rw [List.getElem?_append_left (by omega)] at hy
      rw [List.getLast?_eq_getElem?, ← hlen, Nat.add_sub_cancel, hy]

/-- A window with room takes the next event at its end. -/
theorem set (h : ri.Lists B f k) (hlen : ri.items.length < ri.size) {x : H} {e : SignedEvent H K}
    (hx : f x = none) (hk : e.creator = k) (hfirst : ri.items = [] → B e)
    (hnext : ∀ p, ri.items.getLast? = some p →
      e.body.selfParent = some p ∧ e.body.index = ri.lastIndex + 1) :
    ∃ ri' : RollingIndex H, ri.set x e.body.index = .ok ri' ∧
      ri'.Lists B (Function.update f x (some e)) k ∧ ri'.size = ri.size ∧
      ri'.items = ri.items ++ [x] := by
  refine ⟨_, ?_, h.append hx hk hfirst hnext, rfl, rfl⟩
  have hat : ri.lastIndex < 0 ∨ e.body.index = ri.lastIndex + 1 := by
    cases hg : ri.items.getLast? with
    | none => exact Or.inl (by rw [h.empty (List.getLast?_eq_none_iff.1 hg)]; omega)
    | some p => exact Or.inr (hnext p hg).2
  rw [RollingIndex.set, if_neg (by omega), if_pos hat, RollingIndex.append,
    if_neg (by omega : ¬ ri.size ≤ ri.items.length)]

/-- An event that is not in the list does not matter. -/
theorem update (h : ri.Lists B f k) {x : H} {e : SignedEvent H K} (hx : f x = none) :
    ri.Lists B (Function.update f x (some e)) k := by
  have hold : ∀ (i : ℕ) y, ri.items[i]? = some y → Function.update f x (some e) y = f y := by
    intro i y hy
    obtain ⟨ey, hey, -⟩ := h.item i y hy
    refine Function.update_of_ne ?_ _ _
    rintro rfl
    rw [hx] at hey
    cases hey
  refine ⟨h.empty, fun i y hy => ?_, fun y ey hy hey => ?_, fun i y z ez hy hz hez => ?_⟩
  · rw [hold i y hy]
    exact h.item i y hy
  · rw [hold 0 y hy] at hey
    exact h.first y ey hy hey
  · rw [hold (i + 1) z hz] at hez
    exact h.next i y z ez hy hz hez

end RollingIndex.Lists

/-- The rolling indexes hold all events of `f`, in windows of `size` of which at most `n`
places are taken. -/
structure Listed (B : SignedEvent H K → Prop) (f : H → Option (SignedEvent H K)) (size n : ℕ)
    (pec : ParticipantEventsCache H K) : Prop extends pec.Registered where
  rimSize : pec.rim.size = size
  room : ∀ id ri, pec.rim.mapping.lookup id = some ri → ri.size = size ∧ ri.items.length ≤ n
  lists : ∀ k id ri, pec.participantID k = .ok id → pec.rim.mapping.lookup id = some ri →
    ri.Lists B f (Hex.toUpper k)
  stored : ∀ x e, f x = some e → ∃ id ri, pec.participantID e.creator = .ok id ∧
    pec.rim.mapping.lookup id = some ri ∧ x ∈ ri.items

theorem SignedEvent.toUpper_creator (e : SignedEvent H K) : Hex.toUpper e.creator = e.creator :=
  Hex.toUpper_encode _

namespace Listed

variable {B : SignedEvent H K → Prop} {f : H → Option (SignedEvent H K)} {size n : ℕ}
  {pec pec' : ParticipantEventsCache H K} {k : K} {x y : H} {e e' : SignedEvent H K}

theorem mono (h : Listed B f size n pec) {m : ℕ} (hm : n ≤ m) : Listed B f size m pec :=
  { h with room := fun id ri hl => ⟨(h.room id ri hl).1, (h.room id ri hl).2.trans hm⟩ }

/-- The rolling index of a participant. -/
theorem exists_index (h : Listed B f size n pec) {id : UInt32} (hid : pec.participantID k = .ok id) :
    ∃ ri, pec.rim.mapping.lookup id = some ri := by
  unfold ParticipantEventsCache.participantID at hid
  cases hp : pec.participants.byPubKey.lookup (Hex.toUpper k) with
  | none => rw [hp] at hid; cases hid
  | some p =>
    rw [hp] at hid
    obtain ⟨hmem, -⟩ := PeerSet.lookup_byPubKey hp
    exact Map.mem_iff_lookup.1 ((h.mapping id).2 ⟨p, hmem, Except.ok.inj hid⟩)

/-- A stored event is among the items of its creator. -/
theorem mem_items (h : Listed B f size n pec) (he : f x = some e) {id : UInt32}
    {ri : RollingIndex H} (hid : pec.participantID e.creator = .ok id)
    (hri : pec.rim.mapping.lookup id = some ri) : x ∈ ri.items := by
  obtain ⟨id', ri', hid', hri', hmem⟩ := h.stored x e he
  obtain rfl : id' = id := Except.ok.inj (hid'.symm.trans hid)
  obtain rfl : ri' = ri := Option.some.inj (hri'.symm.trans hri)
  exact hmem

/-- The event of a participant at an index. -/
theorem getItem_iff (h : Listed B f size n pec) (hk : Hex.toUpper k = k) {i : ℤ} :
    pec.getItem k i = .ok x ↔ ∃ e, f x = some e ∧ e.creator = k ∧ e.body.index = i := by
  unfold ParticipantEventsCache.getItem
  constructor
  · intro hi
    cases hid : pec.participantID k with
    | error err => rw [hid] at hi; cases hi
    | ok id =>
      obtain ⟨ri, hri⟩ := h.exists_index hid
      rw [hid] at hi
      simp only [bind, Except.bind, RollingIndexMap.getItem, hri] at hi
      have hl := h.lists k id ri hid hri
      obtain ⟨e, hmem, he, hidx⟩ := hl.getItem_iff.1 hi
      obtain ⟨j, hj⟩ := List.mem_iff_getElem?.1 hmem
      obtain ⟨e', he', hc, -⟩ := hl.item j x hj
      obtain rfl : e = e' := Option.some.inj (he.symm.trans he')
      exact ⟨e, he, hc.trans hk, hidx⟩
  · rintro ⟨e, he, rfl, hidx⟩
    obtain ⟨id, ri, hid, hri, hmem⟩ := h.stored x e he
    rw [hid]
    simp only [bind, Except.bind, RollingIndexMap.getItem, hri]
    exact (h.lists _ id ri hid hri).getItem_iff.2 ⟨e, hmem, he, hidx⟩

/-- The last event of a participant is one of its own. -/
theorem creator_of_getLast (h : Listed B f size n pec) (hl : pec.getLast k = .ok x) :
    ∃ e, f x = some e ∧ e.creator = Hex.toUpper k := by
  cases hid : pec.participantID k with
  | error err =>
    unfold ParticipantEventsCache.getLast at hl
    rw [hid] at hl
    cases hl
  | ok id =>
    obtain ⟨ri, hri⟩ := h.exists_index hid
    rw [ParticipantEventsCache.getLast_eq hid hri] at hl
    cases hlast : ri.items.getLast? with
    | none => rw [hlast] at hl; cases hl
    | some y =>
      rw [hlast] at hl
      obtain rfl := Except.ok.inj hl
      obtain ⟨j, hj⟩ := List.mem_iff_getElem?.1 (List.mem_of_getLast? hlast)
      obtain ⟨e, he, hc, -⟩ := (h.lists k id ri hid hri).item j y hj
      exact ⟨e, he, hc⟩

/-- A creator has one event at an index. -/
theorem eq_of_index (h : Listed B f size n pec) (hx : f x = some e) (hy : f y = some e')
    (hc : e.creator = e'.creator) (hi : e.body.index = e'.body.index) : x = y := by
  have h1 := (h.getItem_iff e.toUpper_creator).2 ⟨e, hx, rfl, rfl⟩
  have h2 := (h.getItem_iff e.toUpper_creator).2 ⟨e', hy, hc.symm, hi.symm⟩
  exact Except.ok.inj (h1.symm.trans h2)

/-- The rolling indexes go on with the next event of its creator. -/
theorem set (h : Listed B f size n pec) (hn : n < size) (hx : f x = none)
    (hset : pec.set e.creator x e.body.index = .ok pec')
    (hfirst : (∀ p, pec.getLast e.creator ≠ .ok p) → B e)
    (hnext : ∀ p, pec.getLast e.creator = .ok p → e.body.selfParent = some p ∧
      ∃ ep, f p = some ep ∧ e.body.index = ep.body.index + 1) :
    Listed B (Function.update f x (some e)) size (n + 1) pec' := by
  cases hid : pec.participantID e.creator with
  | error err =>
    rw [ParticipantEventsCache.set, hid] at hset
    cases hset
  | ok id =>
    obtain ⟨ri, hri⟩ := h.exists_index hid
    obtain ⟨hsize, hlen⟩ := h.room id ri hri
    have hl := h.lists _ id ri hid hri
    have hlast := ParticipantEventsCache.getLast_eq hid hri
    obtain ⟨ri', hri', hl', hsize', hitems⟩ := hl.set (by omega) hx e.toUpper_creator.symm
      (fun hnil => hfirst fun p hp => by rw [hlast, hnil] at hp; cases hp)
      (fun p hp => by
        rw [hp] at hlast
        obtain ⟨hsp, ep, hep, hidx⟩ := hnext p hlast
        exact ⟨hsp, by rw [hidx, hl.lastIndex_eq hp hep]⟩)
    have hpec : pec' =
        { pec with rim := { pec.rim with mapping := pec.rim.mapping.insert id ri' } } := by
      simp only [ParticipantEventsCache.set, hid, bind, Except.bind, RollingIndexMap.set, hri,
        Option.getD_some, hri'] at hset
      exact (Except.ok.inj hset).symm
    have hids : ∀ j, pec'.participantID j = pec.participantID j := fun j => by rw [hpec]; rfl
    have hmap : ∀ j, pec'.rim.mapping.lookup j =
        if j = id then some ri' else pec.rim.mapping.lookup j := fun j => by
      rw [hpec]
      exact Map.lookup_insert_ite _ _ _ _
    refine ⟨⟨by rw [hpec]; exact h.ids, fun j => ?_⟩, by rw [hpec]; exact h.rimSize,
      fun j rj hj => ?_, fun j idj rj hidj hj => ?_, fun y ey hy => ?_⟩
    · rw [hpec]
      simp only [AList.mem_insert]
      refine ⟨?_, fun hp => Or.inr ((h.mapping j).2 hp)⟩
      rintro (rfl | hj)
      · exact (h.mapping j).1 (Map.mem_iff_lookup.2 ⟨ri, hri⟩)
      · exact (h.mapping j).1 hj
    · rw [hmap] at hj
      split_ifs at hj with hjid
      · obtain rfl := Option.some.inj hj
        rw [hsize', hitems, List.length_append, List.length_singleton]
        exact ⟨hsize, by omega⟩
      · exact ⟨(h.room j rj hj).1, (h.room j rj hj).2.trans (Nat.le_succ n)⟩
    · rw [hids] at hidj
      rw [hmap] at hj
      split_ifs at hj with hjid
      · subst hjid
        obtain rfl := Option.some.inj hj
        rw [h.toUpper_eq hidj hid]
        exact hl'
      · exact (h.lists j idj rj hidj hj).update hx
    · by_cases hyx : y = x
      · subst hyx
        obtain rfl : e = ey := by simpa using hy
        exact ⟨id, ri', (hids _).trans hid, by rw [hmap, if_pos rfl], by simp [hitems]⟩
      · rw [Function.update_of_ne hyx] at hy
        obtain ⟨idy, riy, hidy, hriy, hmem⟩ := h.stored y ey hy
        by_cases hyid : idy = id
        · subst hyid
          obtain rfl : riy = ri := Option.some.inj (hriy.symm.trans hri)
          exact ⟨idy, ri', (hids _).trans hidy, by rw [hmap, if_pos rfl],
            hitems ▸ List.mem_append_left _ hmem⟩
        · exact ⟨idy, riy, (hids _).trans hidy, by rw [hmap, if_neg hyid]; exact hriy, hmem⟩

/-- A participant that is added has no event yet. -/
theorem of_enrolls (h : Listed B f size n pec) (he : pec.Enrolls pec') : Listed B f size n pec' := by
  obtain ⟨hr', hsize, hw⟩ := he h.toRegistered
  have hempty : ∀ name k, (RollingIndex.new name size : RollingIndex H).Lists B f k := fun name k =>
    ⟨fun _ => rfl, fun i x hx => by simp [RollingIndex.new] at hx,
      fun x e hx => by simp [RollingIndex.new] at hx, fun i x y e hx => by simp [RollingIndex.new] at hx⟩
  refine ⟨hr', hsize.trans h.rimSize, fun id ri hri => ?_, fun k id ri hk hri => ?_,
    fun x e hx => ?_⟩
  · obtain ⟨k, hk⟩ := hr'.exists_window hri
    rcases hw k with heq | ⟨-, name, heq⟩
    · obtain ⟨id', -, hri'⟩ := ParticipantEventsCache.window_eq_some.1 (heq.symm.trans hk)
      exact h.room id' ri hri'
    · obtain rfl := Option.some.inj (hk.symm.trans heq)
      exact ⟨h.rimSize, Nat.zero_le n⟩
  · have hk' := ParticipantEventsCache.window_eq_some.2 ⟨id, hk, hri⟩
    rcases hw k with heq | ⟨-, name, heq⟩
    · obtain ⟨id', hid', hri'⟩ := ParticipantEventsCache.window_eq_some.1 (heq.symm.trans hk')
      exact h.lists k id' ri hid' hri'
    · obtain rfl := Option.some.inj (hk'.symm.trans heq)
      rw [h.rimSize]
      exact hempty name _
  · obtain ⟨id, ri, hk, hri, hmem⟩ := h.stored x e hx
    have hk' := ParticipantEventsCache.window_eq_some.2 ⟨id, hk, hri⟩
    rcases hw e.creator with heq | ⟨hnone, -⟩
    · obtain ⟨id', hid', hri'⟩ := ParticipantEventsCache.window_eq_some.1 (heq.trans hk')
      exact ⟨id', ri, hid', hri', hmem⟩
    · rw [hnone] at hk'
      cases hk'

/-- Recording a peer-set adds participants without events. -/
theorem setPeerSet {st st' : InmemStore H K} {r : ℤ} {P : PeerSet K}
    (h : Listed B f size n st.participantEventsCache) (hset : st.setPeerSet r P = .ok st') :
    Listed B f size n st'.participantEventsCache :=
  h.of_enrolls (ParticipantEventsCache.enrolls_setPeerSet hset)

theorem new (B : SignedEvent H K → Prop) (size : ℕ) :
    Listed B (fun _ => none) size 0 (ParticipantEventsCache.new size) := by
  refine ⟨⟨by simp [ParticipantEventsCache.new], fun id => ?_⟩, rfl, fun id ri hri => ?_,
    fun k id ri hk => ?_, fun x e hx => by cases hx⟩
  · simp [ParticipantEventsCache.new, RollingIndexMap.new]
  · simp [ParticipantEventsCache.new, RollingIndexMap.new] at hri
  · simp [ParticipantEventsCache.new, ParticipantEventsCache.participantID, PeerSet.byPubKey] at hk

theorem signedEvents_init {m : ℕ} {P : PeerSet K} {h : Hashgraph H K}
    (hi : (Hashgraph.new (InmemStore.new m)).init P = .ok h) :
    signedEvents h.store.eventCache = fun _ => none := by
  obtain ⟨st, hs, rfl⟩ := Hashgraph.init_cases hi
  obtain ⟨_, _, _, _, -, hst, -⟩ := InmemStore.setPeerSet_eq hs
  rw [hst]
  rfl

theorem init {m : ℕ} {P : PeerSet K} {h : Hashgraph H K} (B : SignedEvent H K → Prop)
    (hi : (Hashgraph.new (InmemStore.new m)).init P = .ok h) :
    Listed B (signedEvents h.store.eventCache) m 0 h.store.participantEventsCache := by
  rw [signedEvents_init hi]
  obtain ⟨st, hs, rfl⟩ := Hashgraph.init_cases hi
  exact (new B m).setPeerSet hs

end Listed

/-! ## Insertion -/

namespace Hashgraph

variable {S : Scheme H K} {rt : Runtime}

/-- The index of an event's self-parent, or `-1` if there is none in the store. -/
def selfParentIndex (st : InmemStore H K) (event : SignedEvent H K) : ℤ :=
  match st.getParent event.body.selfParent with
  | .ok selfParent => selfParent.body.index
  | .error _ => -1

/-- The event claims the index after its self-parent's. -/
def IndexFollows (st : InmemStore H K) (event : SignedEvent H K) : Prop :=
  event.body.index = selfParentIndex st event + 1

instance (st : InmemStore H K) (event : SignedEvent H K) : Decidable (IndexFollows st event) :=
  inferInstanceAs (Decidable (_ = _))

theorem selfParentIndex_of_none {st : InmemStore H K} {event : SignedEvent H K}
    (h : event.body.selfParent = none) : selfParentIndex st event = -1 := by
  simp only [selfParentIndex, h, InmemStore.getParent]

theorem selfParentIndex_of_some {st : InmemStore H K} {event e : SignedEvent H K} {p : H}
    (h : event.body.selfParent = some p) (hp : signedEvents st.eventCache p = some e) :
    selfParentIndex st event = e.body.index := by
  obtain ⟨ev, hev, rfl⟩ := signedEvents_eq_some.1 hp
  simp only [selfParentIndex, h, InmemStore.getParent, InmemStore.getEvent, hev]

theorem checkSelfParent_cases {st : InmemStore H K} {event : SignedEvent H K}
    (h : checkSelfParent st event = .ok ()) :
    (∃ p, st.lastEventFrom event.creator = .ok p ∧ event.body.selfParent = some p) ∨
      (∀ p, st.lastEventFrom event.creator ≠ .ok p) ∧ event.body.selfParent = none := by
  unfold checkSelfParent at h
  cases hl : st.lastEventFrom event.creator with
  | ok p =>
    simp only [hl] at h
    split_ifs at h with hsp
    exact Or.inl ⟨p, rfl, hsp⟩
  | error err =>
    simp only [hl] at h
    split_ifs at h with hsp
    exact Or.inr ⟨fun p hp => (by cases hp), hsp.2⟩

theorem checkSelfParent_of_checkEvent {st : InmemStore H K} {event : SignedEvent H K}
    (h : checkEvent S st event = .ok ()) : checkSelfParent st event = .ok () := by
  unfold checkEvent at h
  cases hv : event.verify S with
  | error err => rw [hv] at h; cases h
  | ok b =>
    rw [hv] at h
    cases b with
    | false => cases h
    | true =>
      cases hc : checkSelfParent st event with
      | ok _ => rfl
      | error err =>
        simp only [bind, Except.bind, hc, if_true] at h
        cases h

/-- Where the index of an accepted event follows, the event is new and takes its place in
the rolling index. -/
theorem Insertion.listed {B : SignedEvent H K → Prop} {size n : ℕ} {h : Hashgraph H K}
    {event : SignedEvent H K} (i : Insertion S h event)
    (hl : Listed B (signedEvents h.store.eventCache) size n h.store.participantEventsCache)
    (hn : n < size) (hB : ∀ e : SignedEvent H K, e.body.selfParent = none → e.body.index = 0 → B e)
    (hsame : ∀ e, signedEvents h.store.eventCache (event.hex S) = some e → e.body = event.body)
    (hidx : IndexFollows h.store event) {ec : Map H (Event H K)}
    (hec : EventsMarked i.store.eventCache ec) :
    event.hex S ∉ h.store.eventCache ∧
      signedEvents ec =
        Function.update (signedEvents h.store.eventCache) (event.hex S) (some event) ∧
      Listed B (signedEvents ec) size (n + 1) i.store.participantEventsCache := by
  have hkey : i.ev.hex S = event.hex S := congrArg (SignedEvent.hex S) i.signed
  have hcreator : i.ev.creator = event.creator := congrArg SignedEvent.creator i.signed
  -- the last event of the creator is the self-parent
  have hnext : ∀ p, h.store.lastEventFrom event.creator = .ok p →
      event.body.selfParent = some p ∧ ∃ ep, signedEvents h.store.eventCache p = some ep ∧
        event.body.index = ep.body.index + 1 := by
    intro p hp
    rcases checkSelfParent_cases (checkSelfParent_of_checkEvent i.check) with ⟨q, hq, hsp⟩ | ⟨hno, -⟩
    · obtain rfl : p = q := Except.ok.inj (hp.symm.trans hq)
      refine ⟨hsp, ?_⟩
      have hmem : ∃ ep, signedEvents h.store.eventCache p = some ep := by
        unfold InmemStore.lastEventFrom at hp
        cases hid : h.store.participantEventsCache.participantID event.creator with
        | error err => rw [ParticipantEventsCache.getLast, hid] at hp; cases hp
        | ok id =>
          obtain ⟨ri, hri⟩ := hl.exists_index hid
          rw [ParticipantEventsCache.getLast_eq hid hri] at hp
          cases hg : ri.items.getLast? with
          | none => rw [hg] at hp; cases hp
          | some q =>
            rw [hg] at hp
            obtain rfl := Except.ok.inj hp
            rw [List.getLast?_eq_getElem?] at hg
            obtain ⟨e, he, -⟩ := (hl.lists _ id ri hid hri).item _ _ hg
            exact ⟨e, he⟩
      obtain ⟨ep, hep⟩ := hmem
      exact ⟨ep, hep, hidx.trans (by rw [selfParentIndex_of_some hsp hep])⟩
    · exact absurd hp (hno p)
  have hfirst : (∀ p, h.store.lastEventFrom event.creator ≠ .ok p) → B event := by
    intro hno
    rcases checkSelfParent_cases (checkSelfParent_of_checkEvent i.check) with ⟨q, hq, -⟩ | ⟨-, hsp⟩
    · exact absurd hq (hno q)
    · exact hB event hsp (hidx.trans (by rw [selfParentIndex_of_none hsp]; rfl))
  -- an event that is stored already has an index up to the last one
  have hnew : signedEvents h.store.eventCache (event.hex S) = none := by
    cases he : signedEvents h.store.eventCache (event.hex S) with
    | none => rfl
    | some e =>
      exfalso
      have hbody := hsame e he
      have hc : e.creator = event.creator := by rw [SignedEvent.creator, hbody]; rfl
      obtain ⟨id, ri, hid, hri, hmem⟩ := hl.stored _ e he
      have hlri := hl.lists _ id ri hid hri
      rw [hc] at hid
      have hne : ri.items ≠ [] := List.ne_nil_of_mem hmem
      obtain ⟨p, hp⟩ := Option.ne_none_iff_exists'.1 (mt List.getLast?_eq_none_iff.1 hne)
      have hlast : h.store.lastEventFrom event.creator = .ok p := by
        unfold InmemStore.lastEventFrom
        rw [ParticipantEventsCache.getLast_eq hid hri, hp]
      obtain ⟨-, ep, hep, hind⟩ := hnext p hlast
      have hlidx := hlri.lastIndex_eq hp hep
      obtain ⟨j, hj⟩ := List.mem_iff_getElem?.1 hmem
      obtain ⟨e', he', -, hje⟩ := hlri.item j _ hj
      obtain rfl : e = e' := Option.some.inj (he.symm.trans he')
      have hjlt := (List.getElem?_eq_some_iff.1 hj).1
      rw [hbody, hind] at hje
      unfold RollingIndex.oldestCachedIndex at hje
      omega
  have hnot : event.hex S ∉ h.store.eventCache := fun hmem => by
    obtain ⟨e, he⟩ := signedEvents_isSome.2 hmem
    rw [hnew] at he
    cases he
  obtain ⟨pec, hst, hpec⟩ := setEvent_eq i.setEvent
  have hpec : h.store.participantEventsCache.set event.creator (event.hex S) event.body.index =
      .ok pec := by
    rw [hkey] at hpec
    have := (hpec.resolve_left fun hm => hnot hm.1).2
    rwa [hcreator, i.signed] at this
  have hsigned : signedEvents ec =
      Function.update (signedEvents h.store.eventCache) (event.hex S) (some event) := by
    rw [hec.signedEvents_eq, hst]
    simp only
    rw [signedEvents_insert, hkey, i.signed]
  refine ⟨hnot, hsigned, ?_⟩
  rw [hsigned, hst]
  exact hl.set hn hnew hpec hfirst hnext

end Hashgraph

end Babble

import Babble.Chains

/-!
# Events on the wire

Gossip sends events in a short form. The creator and the parents' creators are replaced by
their identifiers and the parents by their indexes, with -1 for a missing parent; the
validators of the block signatures are dropped, since an event carries signatures of its
creator only. `ReadWireInfo` undoes this from the receiver's peers and the receiver's index
of events.

The numbers of an event are filled in by `SetWireInfo` when a node makes the event itself,
and come with the event otherwise. In both cases they describe the event's creator and its
parents (`Describes`), so that any hashgraph with the same peers, under distinct
identifiers, and with both parents reads the event back as it was (`wire_lossless`).
-/

set_option linter.unusedSectionVars false

namespace Babble

variable {H K : Type} [DecidableEq H] [DecidableEq K] [Hex H] [Hex K]

/-! ## The short form -/

/-- A block signature without its validator. -/
structure WireBlockSignature where
  index : ℤ
  signature : String
deriving DecidableEq

/-- The body of an event with numbers for hashes. -/
structure WireBody (K : Type) where
  transactions : List (List UInt8)
  internalTransactions : List (InternalTransaction K)
  blockSignatures : List WireBlockSignature
  creatorID : UInt32
  otherParentCreatorID : UInt32
  index : ℤ
  selfParentIndex : ℤ
  otherParentIndex : ℤ
  timestamp : Int64
deriving DecidableEq

/-- An event as it is sent. -/
structure WireEvent (K : Type) where
  body : WireBody K
  signature : String
deriving DecidableEq

/-- Drop the validator of a block signature. -/
def BlockSignature.toWire (bs : BlockSignature) : WireBlockSignature :=
  { index := bs.index, signature := bs.signature }

/-- An event in its short form. -/
def Event.toWire (e : Event H K) : WireEvent K where
  body :=
    { transactions := e.body.transactions
      internalTransactions := e.body.internalTransactions
      selfParentIndex := e.wire.selfParentIndex
      otherParentCreatorID := e.wire.otherParentCreatorID
      otherParentIndex := e.wire.otherParentIndex
      creatorID := e.wire.creatorID
      index := e.body.index
      timestamp := e.body.timestamp
      blockSignatures := e.body.blockSignatures.map BlockSignature.toWire }
  signature := e.signature

/-- The block signatures of a sent event, attributed to `validator`. -/
def WireEvent.blockSignatures (we : WireEvent K) (validator : List UInt8) : List BlockSignature :=
  we.body.blockSignatures.map fun bs =>
    { validator := validator, index := bs.index, signature := bs.signature }

namespace Hashgraph

/-- The hash of a parent, none for a negative index. -/
def readParent (index : ℤ) (find : Except Err H) : Except Err (Option H) :=
  if 0 ≤ index then find.map some else .ok none

/-- The hash of the other-parent. -/
def readOtherParent (st : InmemStore H K) (creatorID : UInt32) (index : ℤ) :
    Except Err (Option H) :=
  readParent index <|
    match st.peerSetCache.repertoireByID.lookup creatorID with
    | none => .error (.msg s!"Participant {creatorID} not found")
    | some otherParentCreator =>
      match st.participantEvent otherParentCreator.pubKeyString index with
      | .ok hash => .ok hash
      | .error _ =>
        .error (.msg s!"OtherParent (creator: {creatorID}, index: {index}) not found")

/-- Replace the numbers of a sent event by public keys and hashes. -/
def readWireInfo (st : InmemStore H K) (wevent : WireEvent K) :
    Except Err (SignedEvent H K × WireInfo) :=
  let creatorID := wevent.body.creatorID
  match st.peerSetCache.repertoireByID.lookup creatorID with
  | none => .error (.msg s!"Creator {creatorID} not found")
  | some creator =>
    if !Hex.wellFormed creator.pubKeyString then .error (.msg "encoding/hex: invalid byte")
    else do
      let creatorBytes := Hex.decodeFromString creator.pubKeyString
      let selfParent ← readParent wevent.body.selfParentIndex
        (st.participantEvent creator.pubKeyString wevent.body.selfParentIndex)
      let otherParent ← readOtherParent st wevent.body.otherParentCreatorID
        wevent.body.otherParentIndex
      return (
        { body :=
            { transactions := wevent.body.transactions
              internalTransactions := wevent.body.internalTransactions
              blockSignatures := wevent.blockSignatures creatorBytes
              selfParent := selfParent
              otherParent := otherParent
              creator := creatorBytes
              index := wevent.body.index
              timestamp := wevent.body.timestamp }
          signature := wevent.signature },
        { selfParentIndex := wevent.body.selfParentIndex
          otherParentCreatorID := wevent.body.otherParentCreatorID
          otherParentIndex := wevent.body.otherParentIndex
          creatorID := wevent.body.creatorID })

end Hashgraph

/-! ## Peers and their identifiers -/

namespace PeerSetCache

/-- The repertoires hold the same peers, under the public keys and the identifiers that the
peers have. -/
structure Consistent (c : PeerSetCache K) : Prop where
  pubKey : ∀ k p, c.repertoireByPubKey.lookup k = some p → p.pubKeyString = k
  id : ∀ i p, c.repertoireByID.lookup i = some p →
    p.id = i ∧ p.pubKeyString ∈ c.repertoireByPubKey
  complete : ∀ k p, c.repertoireByPubKey.lookup k = some p → p.id ∈ c.repertoireByID

/-- No two public keys have one identifier. -/
def DistinctIDs (c : PeerSetCache K) : Prop :=
  ∀ k k' p p', c.repertoireByPubKey.lookup k = some p → c.repertoireByPubKey.lookup k' = some p' →
    p.id = p'.id → k = k'

theorem Consistent.new : (PeerSetCache.new : PeerSetCache K).Consistent :=
  ⟨by simp [PeerSetCache.new], by simp [PeerSetCache.new], by simp [PeerSetCache.new]⟩

theorem Consistent.addPeer {c : PeerSetCache K} (h : c.Consistent) (round : ℤ) (p : Peer K) :
    (addPeer round c p).Consistent := by
  have hkeys : ∀ {k}, k ∈ c.repertoireByPubKey → k ∈ (PeerSetCache.addPeer round c p).repertoireByPubKey :=
    fun hk => (AList.mem_insert _).2 (.inr hk)
  refine ⟨fun k q hq => ?_, fun i q hq => ?_, fun k q hq => ?_⟩
  · simp only [PeerSetCache.addPeer, Map.lookup_insert_ite] at hq
    split_ifs at hq with hk
    · rw [← Option.some.inj hq, hk]
    · exact h.pubKey k q hq
  · simp only [PeerSetCache.addPeer, Map.lookup_insert_ite] at hq
    split_ifs at hq with hi
    · rw [← Option.some.inj hq, hi]
      exact ⟨rfl, (AList.mem_insert _).2 (.inl rfl)⟩
    · exact (h.id i q hq).imp_right hkeys
  · simp only [PeerSetCache.addPeer, Map.lookup_insert_ite] at hq
    split_ifs at hq with hk
    · rw [← Option.some.inj hq]
      exact (AList.mem_insert _).2 (.inl rfl)
    · exact (AList.mem_insert _).2 (.inr (h.complete k q hq))

/-- Recording a peer-set keeps the repertoires consistent. -/
theorem Consistent.set {c c' : PeerSetCache K} (h : c.Consistent) {round : ℤ} {P : PeerSet K}
    (hset : c.set round P = .ok c') : c'.Consistent := by
  unfold PeerSetCache.set at hset
  split at hset
  · cases hset
  · obtain rfl := Except.ok.inj hset
    refine List.foldlRecOn P.peers (PeerSetCache.addPeer round) (motive := Consistent) ?_
      fun c hc p _ => hc.addPeer round p
    exact ⟨h.pubKey, h.id, h.complete⟩

/-- The identifier of a known public key leads back to it. -/
theorem Consistent.lookup_id {c : PeerSetCache K} (h : c.Consistent) (hd : c.DistinctIDs) {k : K}
    (hk : k ∈ c.repertoireByPubKey) :
    ∃ q, c.repertoireByID.lookup (fnv32a (Hex.decodeFromString k)) = some q ∧
      q.pubKeyString = k := by
  obtain ⟨p, hp⟩ := Map.mem_iff_lookup.1 hk
  have hpk := h.pubKey k p hp
  have hid : p.id = fnv32a (Hex.decodeFromString k) := by
    rw [← hpk, Peer.pubKeyString, Hex.decode_toUpper]
    rfl
  obtain ⟨q, hq⟩ := Map.mem_iff_lookup.1 (h.complete k p hp)
  obtain ⟨hqid, hqk⟩ := h.id _ _ hq
  obtain ⟨p', hp'⟩ := Map.mem_iff_lookup.1 hqk
  refine ⟨q, hid ▸ hq, hd _ _ p' p hp' hp ?_⟩
  rw [← hqid]
  exact Peer.id_eq_of_pubKeyString (h.pubKey _ _ hp')

end PeerSetCache

theorem Peer.id_eq (p : Peer K) : p.id = fnv32a (Hex.decodeFromString p.pubKeyString) := by
  rw [Peer.pubKeyString, Hex.decode_toUpper]
  rfl

theorem SignedEvent.decode_creator (e : SignedEvent H K) :
    Hex.decodeFromString e.creator = e.body.creator :=
  Hex.decode_encode _

/-! ## Finding events by index -/

namespace Chains

variable {st : InmemStore H K}

/-- An event is found under its creator and its index. -/
theorem participantEvent_eq (h : Chains st) {x : H} {e : Event H K} (he : st.getEvent x = .ok e) :
    0 ≤ e.body.index ∧ st.participantEvent e.creator e.body.index = .ok x := by
  obtain ⟨-, chain, hc⟩ := h e.creator e.toUpper_creator
  obtain ⟨i, hi⟩ := List.mem_iff_getElem?.1 ((hc.mem_iff x).2 ⟨e, he, rfl⟩)
  rw [hc.index_eq hi he]
  exact ⟨Int.natCast_nonneg i, (hc.participantEvent _ _).2 ⟨Int.natCast_nonneg i, by simpa using hi⟩⟩

/-- What is found under a public key and an index is the event of that creator with that
index. -/
theorem getEvent_of_participantEvent (h : Chains st) {k : K} (hk : Hex.toUpper k = k) {i : ℤ}
    {x : H} (hx : st.participantEvent k i = .ok x) :
    ∃ e, st.getEvent x = .ok e ∧ e.creator = k ∧ e.body.index = i := by
  obtain ⟨-, chain, hc⟩ := h k hk
  obtain ⟨hi, hget⟩ := (hc.participantEvent i x).1 hx
  obtain ⟨e, he, hek⟩ := (hc.mem_iff x).1 (List.mem_iff_getElem?.2 ⟨_, hget⟩)
  exact ⟨e, he, hek, by rw [hc.index_eq hget he, Int.toNat_of_nonneg hi]⟩

end Chains

/-- What is found under a public key and an index is the event of that creator with that
index. -/
def InmemStore.Indexes (st : InmemStore H K) : Prop :=
  ∀ {k : K} {i : ℤ} {x : H}, Hex.toUpper k = k → st.participantEvent k i = .ok x →
    ∃ e, st.getEvent x = .ok e ∧ e.creator = k ∧ e.body.index = i

theorem Chains.indexes {st : InmemStore H K} (h : Chains st) : st.Indexes :=
  fun hk hx => h.getEvent_of_participantEvent hk hx

/-- The last event of a creator is one of its own. -/
theorem InmemStore.Indexes.creator_of_lastEventFrom {st : InmemStore H K} (h : st.Indexes) {k : K}
    (hk : Hex.toUpper k = k) {x : H} (hx : st.lastEventFrom k = .ok x) :
    ∃ e, st.getEvent x = .ok e ∧ e.creator = k := by
  unfold InmemStore.lastEventFrom ParticipantEventsCache.getLast at hx
  cases hid : st.participantEventsCache.participantID k with
  | error err => rw [hid] at hx; cases hx
  | ok id =>
    rw [hid] at hx
    obtain ⟨i, hi⟩ := RollingIndexMap.getItem_of_getLast hx
    have hitem : st.participantEvent k i = .ok x := by
      unfold InmemStore.participantEvent ParticipantEventsCache.getItem
      rw [hid]
      exact hi
    obtain ⟨e, he, hek, -⟩ := h hk hitem
    exact ⟨e, he, hek⟩

/-! ## Descriptions -/

namespace Hashgraph

/-- The wire fields are true of the event : they name its creator among the peers, and its
parents among the stored events. -/
structure Describes (st : InmemStore H K) (event : SignedEvent H K) (wire : WireInfo) : Prop where
  creator : ∃ k ∈ st.peerSetCache.repertoireByPubKey, wire.creatorID = fnv32a (Hex.decodeFromString k) ∧
    Hex.decodeFromString k = event.body.creator ∧ Hex.wellFormed k = true ∧
    (event.body.selfParent ≠ none → k = event.creator)
  selfParent : (event.body.selfParent = none → wire.selfParentIndex < 0) ∧
    ∀ x, event.body.selfParent = some x → ∃ e, st.getEvent x = .ok e ∧ e.creator = event.creator ∧
      e.body.index = wire.selfParentIndex
  otherParent : (event.body.otherParent = none → wire.otherParentIndex < 0) ∧
    ∀ x, event.body.otherParent = some x → ∃ e, st.getEvent x = .ok e ∧
      e.creator ∈ st.peerSetCache.repertoireByPubKey ∧
      wire.otherParentCreatorID = fnv32a e.body.creator ∧ e.body.index = wire.otherParentIndex

variable {st st' : InmemStore H K} {event : SignedEvent H K} {wire : WireInfo}

theorem repertoireID_ok {k : K} {id : UInt32} (h : repertoireID st k = .ok id) :
    ∃ p, st.peerSetCache.repertoireByPubKey.lookup k = some p ∧ p.id = id := by
  unfold repertoireID at h
  split at h
  · next p hp => exact ⟨p, hp, Except.ok.inj h⟩
  · cases h

/-- What `SetWireInfo` computes. -/
theorem setWireInfo_ok (h : setWireInfo st event = .ok wire) :
    repertoireID st event.creator = .ok wire.creatorID ∧
    (event.body.selfParent = none → wire.selfParentIndex = -1) ∧
    (∀ x, event.body.selfParent = some x →
      ∃ e, st.getEvent x = .ok e ∧ e.body.index = wire.selfParentIndex) ∧
    (event.body.otherParent = none → wire.otherParentIndex = -1) ∧
    ∀ x, event.body.otherParent = some x → ∃ e, st.getEvent x = .ok e ∧
      repertoireID st e.creator = .ok wire.otherParentCreatorID ∧
      e.body.index = wire.otherParentIndex := by
  unfold setWireInfo at h
  obtain ⟨id, hid, h⟩ := Exec.except_bind_ok h
  rw [hid]
  cases hsp : event.body.selfParent with
  | none =>
    cases hop : event.body.otherParent with
    | none =>
      simp only [hsp, hop, pure_bind] at h
      obtain rfl := Except.ok.inj h
      simp
    | some op =>
      simp only [hsp, hop, pure_bind] at h
      obtain ⟨eo, heo, h⟩ := Exec.except_bind_ok h
      obtain ⟨oid, hoid, h⟩ := Exec.except_bind_ok h
      obtain rfl := Except.ok.inj h
      simp [heo, hoid]
  | some sp =>
    simp only [hsp, pure_bind] at h
    obtain ⟨es, hes, h⟩ := Exec.except_bind_ok h
    cases hop : event.body.otherParent with
    | none =>
      simp only [hop] at h
      obtain rfl := Except.ok.inj h
      simp [hes]
    | some op =>
      simp only [hop] at h
      obtain ⟨eo, heo, h⟩ := Exec.except_bind_ok h
      obtain ⟨oid, hoid, h⟩ := Exec.except_bind_ok h
      obtain rfl := Except.ok.inj h
      simp [hes, heo, hoid]

/-- A checked event has the last event of its creator as its self-parent. -/
theorem creator_of_checkEvent {S : Scheme H K} (hch : st.Indexes)
    (h : checkEvent S st event = .ok ()) {x : H} (hx : event.body.selfParent = some x) :
    ∃ e, st.getEvent x = .ok e ∧ e.creator = event.creator := by
  have hsp : checkSelfParent st event = .ok () := by
    unfold checkEvent at h
    obtain ⟨b, -, h⟩ := Exec.except_bind_ok h
    split_ifs at h
    obtain ⟨_, hs, -⟩ := Exec.except_bind_ok h
    exact hs
  unfold checkSelfParent at hsp
  split at hsp
  · split_ifs at hsp with hempty
    rw [hx] at hempty
    cases hempty.2
  · next last hlast =>
    split_ifs at hsp with heq
    obtain rfl := Option.some.inj (hx.symm.trans heq)
    exact hch.creator_of_lastEventFrom event.toUpper_creator hlast

/-- The wire fields of an event that the node makes. -/
theorem describes_of_setWireInfo {S : Scheme H K} (hp : st.peerSetCache.Consistent)
    (hch : st.Indexes) (hcheck : checkEvent S st event = .ok ())
    (h : setWireInfo st event = .ok wire) : Describes st event wire := by
  obtain ⟨hid, hsnone, hs, honone, ho⟩ := setWireInfo_ok h
  obtain ⟨p, hlook, hpid⟩ := repertoireID_ok hid
  have hkey := hp.pubKey _ _ hlook
  refine ⟨⟨event.creator, Map.mem_iff_lookup.2 ⟨p, hlook⟩, ?_, event.decode_creator,
    Hex.wellFormed_encode _, fun _ => rfl⟩, ⟨fun hn => by rw [hsnone hn]; omega, ?_⟩,
    ⟨fun hn => by rw [honone hn]; omega, ?_⟩⟩
  · rw [← hpid, p.id_eq, hkey]
  · intro x hx
    obtain ⟨e, he, hi⟩ := hs x hx
    obtain ⟨e', he', hc⟩ := creator_of_checkEvent hch hcheck hx
    obtain rfl := Except.ok.inj (he.symm.trans he')
    exact ⟨e, he, hc, hi⟩
  · intro x hx
    obtain ⟨e, he, hoid, hi⟩ := ho x hx
    obtain ⟨q, hq, hqid⟩ := repertoireID_ok hoid
    refine ⟨e, he, Map.mem_iff_lookup.2 ⟨q, hq⟩, ?_, hi⟩
    rw [← hqid, q.id_eq, hp.pubKey _ _ hq, e.decode_creator]

theorem readParent_ok {i : ℤ} {find : Except Err H} {p : Option H} :
    readParent i find = .ok p ↔ (i < 0 ∧ p = none) ∨ 0 ≤ i ∧ ∃ x, find = .ok x ∧ p = some x := by
  unfold readParent
  split_ifs with hi
  · cases find with
    | error err => simp [Except.map, hi]
    | ok x => simp [Except.map, hi, eq_comm, not_lt.2 hi]
  · simp [hi, not_le.1 hi, eq_comm]

/-- Where the hash of the other-parent comes from. -/
theorem readOtherParent_ok {id : UInt32} {i : ℤ} {p : Option H} :
    readOtherParent st id i = .ok p ↔ (i < 0 ∧ p = none) ∨
      0 ≤ i ∧ ∃ q x, st.peerSetCache.repertoireByID.lookup id = some q ∧
        st.participantEvent q.pubKeyString i = .ok x ∧ p = some x := by
  rw [readOtherParent, readParent_ok]
  cases hq : st.peerSetCache.repertoireByID.lookup id with
  | none => simp
  | some q =>
    cases hx : st.participantEvent q.pubKeyString i with
    | error err => simp [hx]
    | ok x => simp [hx]

/-- What `ReadWireInfo` returns. -/
theorem readWireInfo_ok {w : WireEvent K} :
    readWireInfo st w = .ok (event, wire) ↔
      ∃ q, st.peerSetCache.repertoireByID.lookup w.body.creatorID = some q ∧
        Hex.wellFormed q.pubKeyString = true ∧
        readParent w.body.selfParentIndex
          (st.participantEvent q.pubKeyString w.body.selfParentIndex) = .ok event.body.selfParent ∧
        readOtherParent st w.body.otherParentCreatorID w.body.otherParentIndex =
          .ok event.body.otherParent ∧
        event.body.creator = Hex.decodeFromString q.pubKeyString ∧
        event.body.blockSignatures = w.blockSignatures event.body.creator ∧
        event.body.transactions = w.body.transactions ∧
        event.body.internalTransactions = w.body.internalTransactions ∧
        event.body.index = w.body.index ∧ event.body.timestamp = w.body.timestamp ∧
        event.signature = w.signature ∧
        wire = ⟨w.body.creatorID, w.body.otherParentCreatorID, w.body.selfParentIndex,
          w.body.otherParentIndex⟩ := by
  unfold readWireInfo
  cases hq : st.peerSetCache.repertoireByID.lookup w.body.creatorID with
  | none => simp [hq]
  | some q =>
    simp only [hq, Option.some.injEq, exists_eq_left']
    cases hwf : (Hex.wellFormed q.pubKeyString : Bool) with
    | false => simp
    | true =>
      cases hs : readParent w.body.selfParentIndex
        (st.participantEvent q.pubKeyString w.body.selfParentIndex) with
      | error err => simp [bind, Except.bind]
      | ok sp =>
        cases ho : readOtherParent st w.body.otherParentCreatorID w.body.otherParentIndex with
        | error err => simp [bind, Except.bind]
        | ok op =>
          obtain ⟨⟨txs, itxs, sp', op', cr, idx, sigs, ts⟩, sig⟩ := event
          simp only [bind, Except.bind, pure, Except.pure, Bool.not_true, Bool.false_eq_true,
            if_false, Except.ok.injEq, Prod.mk.injEq, SignedEvent.mk.injEq, EventBody.mk.injEq,
            true_and]
          constructor
          · rintro ⟨⟨⟨rfl, rfl, rfl, rfl, rfl, rfl, rfl, rfl⟩, rfl⟩, rfl⟩
            simp
          · rintro ⟨rfl, rfl, rfl, rfl, rfl, rfl, rfl, rfl, rfl, rfl⟩
            simp

/-- The wire fields of an event that was read. -/
theorem describes_of_readWireInfo (hp : st.peerSetCache.Consistent) (hch : st.Indexes)
    {w : WireEvent K} (h : readWireInfo st w = .ok (event, wire)) : Describes st event wire := by
  obtain ⟨q, hq, hwf, hs, ho, hcr, -, -, -, -, -, -, rfl⟩ := readWireInfo_ok.1 h
  obtain ⟨hqid, hqk⟩ := hp.id _ _ hq
  -- the self-parent is found under the public key of the peer, hence the key is spelled as
  -- that of an event
  have hself : ∀ x, event.body.selfParent = some x → ∃ e, st.getEvent x = .ok e ∧
      e.creator = q.pubKeyString ∧ e.body.index = w.body.selfParentIndex := by
    intro x hx
    rcases readParent_ok.1 hs with ⟨-, hn⟩ | ⟨-, y, hy, hsome⟩
    · rw [hx] at hn
      cases hn
    · obtain rfl := Option.some.inj (hx.symm.trans hsome)
      exact hch q.toUpper_pubKeyString hy
  have hcreator : ∀ x, event.body.selfParent = some x → q.pubKeyString = event.creator := by
    intro x hx
    obtain ⟨e, -, he, -⟩ := hself x hx
    rw [SignedEvent.creator, hcr, ← he, e.decode_creator]
    rfl
  refine ⟨⟨q.pubKeyString, hqk, ?_, hcr.symm, hwf, ?_⟩, ⟨?_, ?_⟩, ⟨?_, ?_⟩⟩
  · rw [← hqid, q.id_eq]
  · intro hn
    obtain ⟨x, hx⟩ := Option.ne_none_iff_exists'.1 hn
    exact hcreator x hx
  · intro hn
    rcases readParent_ok.1 hs with ⟨hi, -⟩ | ⟨-, y, -, hsome⟩
    · exact hi
    · rw [hn] at hsome
      cases hsome
  · intro x hx
    obtain ⟨e, he, hek, hi⟩ := hself x hx
    exact ⟨e, he, hek.trans (hcreator x hx), hi⟩
  · intro hn
    rcases readOtherParent_ok.1 ho with ⟨hi, -⟩ | ⟨-, q', y, -, -, hsome⟩
    · exact hi
    · rw [hn] at hsome
      cases hsome
  · intro x hx
    rcases readOtherParent_ok.1 ho with ⟨-, hn⟩ | ⟨-, q', y, hq', hy, hsome⟩
    · rw [hx] at hn
      cases hn
    · obtain rfl := Option.some.inj (hx.symm.trans hsome)
      obtain ⟨hq'id, hq'k⟩ := hp.id _ _ hq'
      obtain ⟨e, he, hek, hi⟩ := hch q'.toUpper_pubKeyString hy
      refine ⟨e, he, hek ▸ hq'k, ?_, hi⟩
      rw [← hq'id, q'.id_eq, ← hek, e.decode_creator]

/-- The wire fields that an insertion gives to an event that the node makes or has read. -/
theorem describes_of_wireInfo {S : Scheme H K} (hp : st.peerSetCache.Consistent)
    (hch : st.Indexes) (hcheck : checkEvent S st event = .ok ()) {fill : Bool} {wire' : WireInfo}
    (hwire : fill = true ∨ fill = false ∧ ∃ w, readWireInfo st w = .ok (event, wire))
    (h : wireInfo st event wire fill = .ok wire') : Describes st event wire' := by
  unfold wireInfo at h
  rcases hwire with hfill | ⟨hfill, w, hw⟩
  · rw [if_pos hfill] at h
    split at h
    · next wire'' hset =>
      obtain rfl := Except.ok.inj h
      exact describes_of_setWireInfo hp hch hcheck hset
    · cases h
  · rw [hfill] at h
    rw [← Except.ok.inj h]
    exact describes_of_readWireInfo hp hch hw

/-- A description stays true when events and peers are added. -/
theorem Describes.mono (hd : Describes st event wire)
    (hpeers : ∀ k ∈ st.peerSetCache.repertoireByPubKey, k ∈ st'.peerSetCache.repertoireByPubKey)
    (hevents : ∀ x e, signedEvents st.eventCache x = some e → signedEvents st'.eventCache x = some e) :
    Describes st' event wire := by
  have hget : ∀ x e, st.getEvent x = .ok e →
      ∃ e', st'.getEvent x = .ok e' ∧ e'.toSignedEvent = e.toSignedEvent := by
    intro x e he
    have hx := hevents x e.toSignedEvent
      (signedEvents_eq_some.2 ⟨e, InmemStore.getEvent_eq_ok.1 he, rfl⟩)
    obtain ⟨e', he', hs⟩ := signedEvents_eq_some.1 hx
    exact ⟨e', InmemStore.getEvent_eq_ok.2 he', hs⟩
  refine ⟨?_, ⟨hd.selfParent.1, fun x hx => ?_⟩, ⟨hd.otherParent.1, fun x hx => ?_⟩⟩
  · obtain ⟨k, hk, hrest⟩ := hd.creator
    exact ⟨k, hpeers k hk, hrest⟩
  · obtain ⟨e, he, hc, hi⟩ := hd.selfParent.2 x hx
    obtain ⟨e', he', hs⟩ := hget x e he
    exact ⟨e', he', by rw [hs]; exact hc, by rw [hs]; exact hi⟩
  · obtain ⟨e, he, hc, hid, hi⟩ := hd.otherParent.2 x hx
    obtain ⟨e', he', hs⟩ := hget x e he
    exact ⟨e', he', by rw [hs]; exact hpeers _ hc, by rw [hs]; exact hid, by rw [hs]; exact hi⟩

/-! ## Reading what was sent -/

/-- A hashgraph that can read the event : it has peers with distinct identifiers, the
sender's among them, its events form chains, and it has both parents. -/
structure Receives (st st' : InmemStore H K) (event : SignedEvent H K) : Prop where
  consistent : st'.peerSetCache.Consistent
  distinctIDs : st'.peerSetCache.DistinctIDs
  chains : Chains st'
  peers : ∀ k ∈ st.peerSetCache.repertoireByPubKey, k ∈ st'.peerSetCache.repertoireByPubKey
  parents : ∀ x e, event.body.selfParent = some x ∨ event.body.otherParent = some x →
    st.getEvent x = .ok e → ∃ e', st'.getEvent x = .ok e' ∧ e'.body = e.body

theorem map_toWire_attributed {l : List BlockSignature} {validator : List UInt8}
    (h : ∀ bs ∈ l, bs.validator = validator) :
    (l.map BlockSignature.toWire).map (fun bs =>
      ({ validator := validator, index := bs.index, signature := bs.signature } :
        BlockSignature)) = l := by
  rw [List.map_map]
  refine (List.map_congr_left fun bs hbs => ?_).trans (List.map_id l)
  rw [← h bs hbs]
  rfl

/-- A hashgraph that has the event's parents under their creators and indexes, and knows the
creators, under distinct identifiers. -/
structure Reads (st st' : InmemStore H K) (event : SignedEvent H K) : Prop where
  consistent : st'.peerSetCache.Consistent
  distinctIDs : st'.peerSetCache.DistinctIDs
  creator : ∀ k ∈ st.peerSetCache.repertoireByPubKey,
    Hex.decodeFromString k = event.body.creator → k ∈ st'.peerSetCache.repertoireByPubKey
  parents : ∀ x e, event.body.selfParent = some x ∨ event.body.otherParent = some x →
    st.getEvent x = .ok e → st'.participantEvent e.creator e.body.index = .ok x ∧
      (e.creator ∈ st.peerSetCache.repertoireByPubKey →
        e.creator ∈ st'.peerSetCache.repertoireByPubKey)

namespace Receives

/-- A parent is found under its creator and its index. -/
theorem participantEvent_eq (hr : Receives st st' event) {x : H} {e : Event H K}
    (hx : event.body.selfParent = some x ∨ event.body.otherParent = some x)
    (he : st.getEvent x = .ok e) :
    0 ≤ e.body.index ∧ st'.participantEvent e.creator e.body.index = .ok x := by
  obtain ⟨e', he', hbody⟩ := hr.parents x e hx he
  obtain ⟨hnonneg, hfind⟩ := hr.chains.participantEvent_eq he'
  have hcreator : e'.creator = e.creator :=
    congrArg (fun b : EventBody H K => (Hex.encodeToString b.creator : K)) hbody
  rw [hbody] at hnonneg hfind
  exact ⟨hnonneg, hcreator ▸ hfind⟩

theorem reads (hr : Receives st st' event) : Reads st st' event where
  consistent := hr.consistent
  distinctIDs := hr.distinctIDs
  creator k hk _ := hr.peers k hk
  parents _ _ hx he := ⟨(hr.participantEvent_eq hx he).2, hr.peers _⟩

end Receives

/-- An event with a true description is read back as it was sent. -/
theorem readWireInfo_toWire {ev : Event H K} (hd : Describes st ev.toSignedEvent ev.wire)
    (hsig : ∀ bs ∈ ev.body.blockSignatures, bs.validator = ev.body.creator)
    (hindex : ∀ x e, ev.body.selfParent = some x ∨ ev.body.otherParent = some x →
      st.getEvent x = .ok e → 0 ≤ e.body.index)
    (hr : Reads st st' ev.toSignedEvent) :
    readWireInfo st' ev.toWire = .ok (ev.toSignedEvent, ev.wire) := by
  obtain ⟨k, hk, hid, hbytes, hwf, hspelled⟩ := hd.creator
  obtain ⟨q, hq, hqk⟩ := hr.consistent.lookup_id hr.distinctIDs (hr.creator k hk hbytes)
  refine readWireInfo_ok.2 ⟨q, ?_, hqk ▸ hwf, ?_, ?_, ?_, ?_, rfl, rfl, rfl, rfl, rfl, rfl⟩
  · rw [← hq, ← hid]
    rfl
  · refine readParent_ok.2 ?_
    cases hsp : ev.body.selfParent with
    | none => exact .inl ⟨hd.selfParent.1 hsp, rfl⟩
    | some x =>
      obtain ⟨e, he, hek, hei⟩ := hd.selfParent.2 x hsp
      have hnonneg := hindex x e (.inl hsp) he
      obtain ⟨hfind, -⟩ := hr.parents x e (.inl hsp) he
      have hcreator : e.creator = q.pubKeyString := by
        rw [hqk, hspelled (by rw [hsp]; simp), ← hek]
      rw [hei] at hnonneg hfind
      exact .inr ⟨hnonneg, x, hcreator ▸ hfind, rfl⟩
  · refine readOtherParent_ok.2 ?_
    cases hop : ev.body.otherParent with
    | none => exact .inl ⟨hd.otherParent.1 hop, rfl⟩
    | some x =>
      obtain ⟨e, he, hek, hoid, hei⟩ := hd.otherParent.2 x hop
      have hnonneg := hindex x e (.inr hop) he
      obtain ⟨hfind, hknown⟩ := hr.parents x e (.inr hop) he
      obtain ⟨q', hq', hq'k⟩ := hr.consistent.lookup_id hr.distinctIDs (hknown hek)
      rw [hei] at hnonneg hfind
      refine .inr ⟨hnonneg, q', x, ?_, hq'k.symm ▸ hfind, rfl⟩
      rw [← hq', e.decode_creator, ← hoid]
      rfl
  · rw [hqk, hbytes]
  · exact (map_toWire_attributed hsig).symm

/-- What was read is sent as it was received. -/
theorem toWire_readWireInfo {w : WireEvent K} (h : readWireInfo st w = .ok (event, wire)) :
    ({ event with wire := wire } : Event H K).toWire = w := by
  obtain ⟨q, -, -, -, -, -, hsigs, htx, hitx, hidx, hts, hsig, rfl⟩ := readWireInfo_ok.1 h
  obtain ⟨⟨txs, itxs, sigs, c, oc, idx, si, oi, ts⟩, sig⟩ := w
  have hback : event.body.blockSignatures.map BlockSignature.toWire = sigs := by
    rw [hsigs, WireEvent.blockSignatures, List.map_map]
    exact List.map_id sigs
  simp only [Event.toWire, hback, htx, hitx, hidx, hts, hsig]

/-- An insertion leaves the peers alone. -/
theorem peerSetCache_insertEvents (S : Scheme H K) (rt : Runtime) (h : Hashgraph H K)
    (is : List (Session.Input H K)) :
    (insertEvents S rt h is).store.peerSetCache = h.store.peerSetCache := by
  induction is generalizing h with
  | nil => rfl
  | cons i is ih =>
    refine (ih _).trans ?_
    rcases insertEvent_cases_any S rt h i.event i.wire i.fill with
      ⟨err, ti, he⟩ | ⟨ins, ec, h', -, -, hst, he⟩
    · rw [insertInput, he]
    · obtain ⟨pec, hst', -⟩ := setEvent_eq ins.setEvent
      rw [insertInput, he, hst, hst']

/-- The peers of a hashgraph with a genesis set are consistent. -/
theorem consistent_init {n : ℕ} {P : PeerSet K} {h : Hashgraph H K}
    (hinit : (Hashgraph.new (InmemStore.new n)).init P = .ok h) :
    h.store.peerSetCache.Consistent := by
  obtain ⟨st, hst, rfl⟩ := Hashgraph.init_cases hinit
  obtain ⟨psc, pec, roots, fc, hset, rfl, -⟩ := InmemStore.setPeerSet_eq hst
  exact PeerSetCache.Consistent.new.set hset

end Hashgraph

namespace Sample

/-- A hashgraph of two validators. -/
def pairHg : Hashgraph Bytes Bytes :=
  (Core.new ⟨[peer 1, peer 2]⟩ ⟨[peer 1, peer 2]⟩ (InmemStore.new 100)).hg

/-- Both validators have an event, and the first one makes another on top of the two. -/
def meeting : List (Session.Input Bytes Bytes) :=
  [ ⟨event 0 1 0 none none [], {}, true⟩, ⟨event 1 2 0 none none [], {}, true⟩ ]

@[inherit_doc meeting]
def met : Session.Input Bytes Bytes :=
  ⟨event 2 1 1 (some 0) (some 1) [], {}, true⟩

/-- The hashgraph that takes the last of these events, and one that has the first two. -/
def metHg : Hashgraph Bytes Bytes :=
  Hashgraph.insertEvents scheme .plain pairHg meeting

theorem metHg_chains : Chains metHg.store := by
  have h : Hashgraph.InsertedFrom scheme 100 (meeting.take 2)
      (Hashgraph.insertEvents scheme .plain pairHg (meeting.take 2)) :=
    Hashgraph.insertedFrom_insertEvents (P := ⟨[peer 1, peer 2]⟩) rfl (by decide)
      (by decide +kernel) (by decide +kernel) le_rfl
  exact h.listed.chains

theorem metHg_consistent : metHg.store.peerSetCache.Consistent := by
  rw [metHg, Hashgraph.peerSetCache_insertEvents]
  exact Hashgraph.consistent_init (P := ⟨[peer 1, peer 2]⟩) (n := 100) rfl

theorem metHg_distinctIDs : metHg.store.peerSetCache.DistinctIDs := by
  intro k k' p p' hp hp' hid
  have hall : ∀ e ∈ metHg.store.peerSetCache.repertoireByPubKey.toPairs,
      ∀ e' ∈ metHg.store.peerSetCache.repertoireByPubKey.toPairs,
      e.2.id = e'.2.id → e.1 = e'.1 := by decide +kernel
  exact hall (k, p) (Map.mem_toPairs.2 hp) (k', p') (Map.mem_toPairs.2 hp') hid

end Sample

end Babble

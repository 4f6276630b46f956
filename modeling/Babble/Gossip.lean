import Babble.Interludes
import Babble.Serving
import Babble.Payload

/-!
# Gossip between nodes

A node makes its own events and takes the others from the wire. `node.sync` inserts what a
peer has sent and makes events on top of the heads; `monologue` makes an event without a
peer; `push` and the answer to a request send the events that the other does not know.

A wire event names the parents by creator and index, so that what a node reads depends on
the events it has. `Sent` says that a wire event stands for an event among `E`. If the
events of every creator form a line (`Lines`), then a node with events of `E` only reads the
event that was sent, or nothing (`Sent.read`).

`Citizen` is what gossip keeps at one node, while the other nodes have made the events `O` :
its events are its own ones and those of `O`, and they are on the wire as they were made.
-/

set_option linter.unusedSectionVars false

namespace Babble

variable {H K : Type} [DecidableEq H] [DecidableEq K] [Hex H] [Hex K]

/-! ## The methods of the node -/

namespace PoolCore

variable (S : Scheme H K) (rt : Runtime) (v : Validator) (app : Application K)
  (clock : ℕ → Int64)

/-- Attach the pending signatures to their blocks. -/
def processSigPool : Exec Err (PoolCore H K) Unit :=
  Session.onHashgraph (Hashgraph.processSigPool S rt)

/-- `node.sync` : insert the events of a peer, and then process the signature pool, also if
an own event was refused because of its self-parent. -/
def nodeSync (fromID : UInt32) (events : List (WireEvent K)) : Exec Err (PoolCore H K) Unit := do
  match ← Exec.attempt (sync S rt v app clock fromID events) with
  | .error err => if err.isNormalSelfParentError then processSigPool S rt else throw err
  | .ok _ => processSigPool S rt

/-- Make an event without a peer if there is work. -/
def monologue : Exec Err (PoolCore H K) Unit := do
  let s ← get
  if s.busy then
    addSelfEvent S rt v app clock none
    processSigPool S rt

/-- The request that `push` sends to a peer with the known indexes `known`. A request with no
events is sent if the limit is 0 and there is something to send. -/
def push (rt : Runtime) (tick : ℕ) (v : Validator) (confSyncLimit : ℤ)
    (known : List (UInt32 × ℤ)) (s : PoolCore H K) : Except Err (Option (EagerSyncRequest K)) := do
  let eventDiff ← s.core.eventDiff rt tick known
  if 0 < eventDiff.length then
    let eventDiff ←
      if confSyncLimit < eventDiff.length then Core.sliceTo eventDiff confSyncLimit
      else pure eventDiff
    return some ⟨v.id, eventDiff.map Event.toWire⟩
  else
    return none

/-- Answer a push. -/
def processEagerSyncRequest (cmd : EagerSyncRequest K) : Exec Err (PoolCore H K) Unit :=
  nodeSync S rt v app clock cmd.fromID cmd.events

end PoolCore

/-! ## Events of several creators -/

/-- No two events of `E` have one hash. -/
def CollisionFree (S : Scheme H K) (E : Set (SignedEvent H K)) : Prop :=
  ∀ e ∈ E, ∀ e' ∈ E, e.hex S = e'.hex S → e.body = e'.body

theorem CollisionFree.mono {S : Scheme H K} {E E' : Set (SignedEvent H K)}
    (h : CollisionFree S E') (hE : E ⊆ E') : CollisionFree S E :=
  fun e he e' he' => h e (hE he) e' (hE he')

/-- Every event comes after its self-parent, one of the same creator, and no creator has two
events with one index. -/
structure Lines (S : Scheme H K) (E : Set (SignedEvent H K)) : Prop where
  nonneg : ∀ e ∈ E, 0 ≤ e.body.index
  first : ∀ e ∈ E, e.body.selfParent = none → e.body.index = 0
  next : ∀ e ∈ E, ∀ x, e.body.selfParent = some x →
    ∃ p ∈ E, p.hex S = x ∧ p.creator = e.creator ∧ e.body.index = p.body.index + 1
  unique : ∀ e ∈ E, ∀ e' ∈ E, e.creator = e'.creator → e.body.index = e'.body.index → e = e'

namespace Lines

variable {S : Scheme H K} {E E' : Set (SignedEvent H K)}

/-- Lines of different creators. -/
theorem union (h : Lines S E) (h' : Lines S E')
    (hne : ∀ e ∈ E, ∀ e' ∈ E', e.creator ≠ e'.creator) : Lines S (E ∪ E') where
  nonneg e he := he.elim (h.nonneg e) (h'.nonneg e)
  first e he := he.elim (h.first e) (h'.first e)
  next e he x hx := by
    rcases he with he | he
    · obtain ⟨p, hp, hrest⟩ := h.next e he x hx
      exact ⟨p, .inl hp, hrest⟩
    · obtain ⟨p, hp, hrest⟩ := h'.next e he x hx
      exact ⟨p, .inr hp, hrest⟩
  unique e he e' he' hc hi := by
    rcases he with he | he <;> rcases he' with he' | he'
    · exact h.unique e he e' he' hc hi
    · exact absurd hc (hne e he e' he')
    · exact absurd hc.symm (hne e' he' e he)
    · exact h'.unique e he e' he' hc hi

/-- An event of the lines that passes the checks claims the index after its self-parent's. -/
theorem indexFollows (h : Lines S E) (hcol : CollisionFree S E) {hg : Hashgraph H K}
    (hs : hg.Stacked S E) {event : SignedEvent H K} (he : event ∈ E)
    (hc : Hashgraph.Checked S hg.store event) : Hashgraph.IndexFollows hg.store event := by
  unfold Hashgraph.IndexFollows
  cases hsp : event.body.selfParent with
  | none =>
    rw [h.first event he hsp, Hashgraph.selfParentIndex_of_none hsp]
    rfl
  | some x =>
    have hstored : ∃ e, signedEvents hg.store.eventCache x = some e := by
      rcases hc.selfParent with ⟨y, hy, hx⟩ | ⟨err, -, -, hn⟩
      · obtain rfl := Option.some.inj (hsp.symm.trans hx)
        exact hs.stored_of_lastEventFrom hy
      · cases hsp.symm.trans hn
    obtain ⟨e, hx⟩ := hstored
    obtain ⟨p, hp, hhex, -, hidx⟩ := h.next event he x hsp
    obtain ⟨heE, hehex⟩ := hs.origin x e hx
    rw [Hashgraph.selfParentIndex_of_some hsp hx, hidx,
      hcol p hp e heE (hhex.trans hehex.symm)]

end Lines

/-! ## Events on the wire -/

/-- No two keys of `Q` have one identifier. -/
def DistinctKeys (Q : Set K) : Prop :=
  ∀ k ∈ Q, ∀ k' ∈ Q, fnv32a (Hex.decodeFromString k) = fnv32a (Hex.decodeFromString k') → k = k'

/-- The wire event stands for the event `e` of `E` : it has the contents of the event, and it
names the creator and the parents, which are among `E`. -/
structure Sent (S : Scheme H K) (Q : Set K) (E : Set (SignedEvent H K)) (w : WireEvent K)
    (e : SignedEvent H K) : Prop where
  mem : e ∈ E
  creator : ∃ k ∈ Q, w.body.creatorID = fnv32a (Hex.decodeFromString k) ∧
    Hex.decodeFromString k = e.body.creator ∧ Hex.wellFormed k = true ∧
    (e.body.selfParent ≠ none → k = e.creator)
  selfParent : (e.body.selfParent = none → w.body.selfParentIndex < 0) ∧
    ∀ x, e.body.selfParent = some x → ∃ p ∈ E, p.hex S = x ∧ p.creator = e.creator ∧
      p.body.index = w.body.selfParentIndex
  otherParent : (e.body.otherParent = none → w.body.otherParentIndex < 0) ∧
    ∀ x, e.body.otherParent = some x → ∃ p ∈ E, p.hex S = x ∧ p.creator ∈ Q ∧
      w.body.otherParentCreatorID = fnv32a p.body.creator ∧
      p.body.index = w.body.otherParentIndex
  blockSignatures : w.blockSignatures e.body.creator = e.body.blockSignatures
  transactions : w.body.transactions = e.body.transactions
  internalTransactions : w.body.internalTransactions = e.body.internalTransactions
  index : w.body.index = e.body.index
  timestamp : w.body.timestamp = e.body.timestamp
  signature : w.signature = e.signature

namespace Sent

variable {S : Scheme H K} {Q : Set K} {E E' : Set (SignedEvent H K)} {w : WireEvent K}
  {e : SignedEvent H K}

theorem mono (h : Sent S Q E w e) (hE : E ⊆ E') : Sent S Q E' w e :=
  { h with
    mem := hE h.mem
    selfParent := ⟨h.selfParent.1, fun x hx =>
      (h.selfParent.2 x hx).imp fun _ hp => ⟨hE hp.1, hp.2⟩⟩
    otherParent := ⟨h.otherParent.1, fun x hx =>
      (h.otherParent.2 x hx).imp fun _ hp => ⟨hE hp.1, hp.2⟩⟩ }

/-- A hashgraph with events of `E` reads the event that was sent, if it reads one. -/
theorem read (h : Sent S Q E w e) (hlines : Lines S E) (hQ : DistinctKeys Q)
    {hg : Hashgraph H K} (hs : hg.Stacked S E)
    (hwithin : ∀ k ∈ hg.store.peerSetCache.repertoireByPubKey, k ∈ Q) {event : SignedEvent H K}
    {wire : WireInfo} (hr : Hashgraph.readWireInfo hg.store w = .ok (event, wire)) : event = e := by
  -- the event of `E` that is found under a creator and an index
  have hfind : ∀ {k : K} {i : ℤ} {x : H}, Hex.toUpper k = k →
      hg.store.participantEvent k i = .ok x → ∀ p ∈ E, p.creator = k → p.body.index = i →
      x = p.hex S := by
    intro k i x hk hx p hp hc hi
    obtain ⟨ev, hev, hevc, hevi⟩ := hs.indexes hk hx
    obtain ⟨hevE, hhex⟩ := hs.origin x ev.toSignedEvent
      (signedEvents_eq_some.2 ⟨ev, InmemStore.getEvent_eq_ok.1 hev, rfl⟩)
    rw [← hhex, hlines.unique _ hevE p hp (hevc.trans hc.symm) (hevi.trans hi.symm)]
  have hkey : ∀ {id : UInt32} {q : Peer K} {k : K},
      hg.store.peerSetCache.repertoireByID.lookup id = some q → k ∈ Q →
      id = fnv32a (Hex.decodeFromString k) → q.pubKeyString = k := by
    intro id q k hq hk hid
    obtain ⟨hqid, hqk⟩ := hs.consistent.id id q hq
    refine hQ _ (hwithin _ hqk) k hk ?_
    rw [← hid, ← hqid, q.id_eq]
  obtain ⟨q, hq, hwf, hself, hother, hcr, -⟩ := Hashgraph.readWireInfo_ok.1 hr
  obtain ⟨k, hkQ, hid, hkc, -, hkeq⟩ := h.creator
  have hqk := hkey hq hkQ hid
  have hselfParent : event.body.selfParent = e.body.selfParent := by
    rcases Hashgraph.readParent_ok.1 hself with ⟨hi, hn⟩ | ⟨hi, x, hx, hsome⟩
    · rw [hn]
      cases hsp : e.body.selfParent with
      | none => rfl
      | some y =>
        obtain ⟨p, hp, -, -, hpi⟩ := h.selfParent.2 y hsp
        have := hlines.nonneg p hp
        omega
    · rw [hsome]
      cases hsp : e.body.selfParent with
      | none =>
        have := h.selfParent.1 hsp
        omega
      | some y =>
        obtain ⟨p, hp, hhex, hpc, hpi⟩ := h.selfParent.2 y hsp
        have hek : k = e.creator := hkeq (by rw [hsp]; exact Option.some_ne_none y)
        rw [hfind q.toUpper_pubKeyString hx p hp (by rw [hpc, hqk, hek]) hpi, hhex]
  have hotherParent : event.body.otherParent = e.body.otherParent := by
    rcases Hashgraph.readOtherParent_ok.1 hother with ⟨hi, hn⟩ | ⟨hi, q', x, hq', hx, hsome⟩
    · rw [hn]
      cases hop : e.body.otherParent with
      | none => rfl
      | some y =>
        obtain ⟨p, hp, -, -, -, hpi⟩ := h.otherParent.2 y hop
        have := hlines.nonneg p hp
        omega
    · rw [hsome]
      cases hop : e.body.otherParent with
      | none =>
        have := h.otherParent.1 hop
        omega
      | some y =>
        obtain ⟨p, hp, hhex, hpQ, hpid, hpi⟩ := h.otherParent.2 y hop
        have hq'k := hkey hq' hpQ (by rw [hpid, p.decode_creator])
        rw [hfind q'.toUpper_pubKeyString hx p hp hq'k.symm hpi, hhex]
  have hread : Hashgraph.readWireInfo hg.store w = .ok (e, wire) := by
    obtain ⟨-, -, -, -, -, -, -, -, -, -, -, -, hwire⟩ := Hashgraph.readWireInfo_ok.1 hr
    refine Hashgraph.readWireInfo_ok.2 ⟨q, hq, hwf, hselfParent ▸ hself, hotherParent ▸ hother, ?_,
      h.blockSignatures.symm, h.transactions.symm, h.internalTransactions.symm, h.index.symm,
      h.timestamp.symm, h.signature.symm, hwire⟩
    rw [hqk, hkc]
  exact (Prod.mk.inj (Except.ok.inj (hr.symm.trans hread))).1

end Sent

/-- What a node has stored is sent as it is. -/
theorem Hashgraph.Serving.sent {S : Scheme H K} {Q : Set K} {E : Set (SignedEvent H K)}
    {hg : Hashgraph H K} (hv : hg.Serving S E ∅)
    (hwithin : ∀ k ∈ hg.store.peerSetCache.repertoireByPubKey, k ∈ Q) {x : H} {ev : Event H K}
    (hx : hg.store.getEvent x = .ok ev) : Sent S Q E ev.toWire ev.toSignedEvent := by
  have hlook := InmemStore.getEvent_eq_ok.1 hx
  have hstored : ∀ {y : H} {e : Event H K}, hg.store.getEvent y = .ok e →
      e.toSignedEvent ∈ E ∧ e.hex S = y := fun hy =>
    hv.origin _ _ (signedEvents_eq_some.2 ⟨_, InmemStore.getEvent_eq_ok.1 hy, rfl⟩)
  have hd := hv.describes x _ _ (Set.notMem_empty x) (wiredEvents_eq_some.2 ⟨ev, hlook, rfl, rfl⟩)
  refine
    { mem := (hstored hx).1
      creator := ?_
      selfParent := ⟨hd.selfParent.1, fun y hy => ?_⟩
      otherParent := ⟨hd.otherParent.1, fun y hy => ?_⟩
      blockSignatures := map_toWire_attributed
        (hv.attributed x _ (Set.notMem_empty x) (signedEvents_eq_some.2 ⟨ev, hlook, rfl⟩))
      transactions := rfl
      internalTransactions := rfl
      index := rfl
      timestamp := rfl
      signature := rfl }
  · obtain ⟨k, hk, hd⟩ := hd.creator
    exact ⟨k, hwithin k hk, hd⟩
  · obtain ⟨p, hp, hpc, hpi⟩ := hd.selfParent.2 y hy
    exact ⟨p.toSignedEvent, (hstored hp).1, (hstored hp).2, hpc, hpi⟩
  · obtain ⟨p, hp, hpk, hpid, hpi⟩ := hd.otherParent.2 y hy
    exact ⟨p.toSignedEvent, (hstored hp).1, (hstored hp).2, hwithin _ hpk, hpid, hpi⟩

/-! ## Insertions -/

namespace Hashgraph

variable {S : Scheme H K} {rt : Runtime} {h : Hashgraph H K} {i : Session.Input H K}

/-- An event that is accepted has passed the checks, and there is a place for it. -/
theorem Accepts.checked (hacc : Accepts S rt h i) :
    Checked S h.store i.event ∧ Placeable S h.store i.event i.fill := by
  by_cases hc : Checked S h.store i.event
  · refine ⟨hc, ?_⟩
    by_contra hp
    obtain ⟨err, he⟩ := exec_insertEvent_of_not_placeable rt i.wire hc hp
    rw [Accepts, he] at hacc
    cases hacc
  · obtain ⟨err, he⟩ := exec_insertEvent_of_not_checked rt i.wire i.fill hc
    rw [Accepts, he] at hacc
    cases hacc

/-- An event that is not accepted leaves at most a count. -/
theorem exec_insertEvent_of_not_accepts (hno : ¬Accepts S rt h i) :
    ∃ n, h.topologicalIndex ≤ n ∧ (Exec.exec (insertEvent S rt i.event i.wire i.fill) h).2 =
      { h with topologicalIndex := n } := by
  by_cases hc : Checked S h.store i.event
  · by_cases hp : Placeable S h.store i.event i.fill
    · obtain ⟨-, -, h', -, -, -, -, he⟩ := exec_insertEvent_of_placeable rt i.wire hc hp
      exact absurd (congrArg Prod.fst he) hno
    · obtain ⟨err, he⟩ := exec_insertEvent_of_not_placeable rt i.wire hc hp
      exact ⟨h.topologicalIndex + 1, by omega, congrArg Prod.snd he⟩
  · obtain ⟨err, he⟩ := exec_insertEvent_of_not_checked rt i.wire i.fill hc
    exact ⟨h.topologicalIndex, le_rfl, congrArg Prod.snd he⟩

namespace Serving

variable {E E' : Set (SignedEvent H K)} {F : Set H}

theorem mono (hv : Serving S E F h) (hE : E ⊆ E') : Serving S E' F h :=
  { hv with origin := fun x e hx => ⟨hE (hv.origin x e hx).1, (hv.origin x e hx).2⟩ }

/-- An insertion, if an event that is accepted is one of the lines, and the node makes it with
signatures of its own or has read it. -/
theorem insertEvent (hv : Serving S E F h)
    (hacc : Accepts S rt h i → CollisionFree S E ∧ Lines S E ∧ i.event ∈ E ∧
      (i.fill = true ∨ i.fill = false ∧ ∃ w, readWireInfo h.store w = .ok (i.event, i.wire)) ∧
      ∀ bs ∈ i.event.body.blockSignatures, bs.validator = i.event.body.creator) :
    Serving S E F (Exec.exec (Hashgraph.insertEvent S rt i.event i.wire i.fill) h).2 := by
  have hcount : ∀ n, h.topologicalIndex ≤ n → Serving S E F { h with topologicalIndex := n } :=
    fun n hn => { hv with ordered := hv.ordered.mono hn }
  by_cases ha : Accepts S rt h i
  · obtain ⟨hcol, hlines, hE, hwire, hsig⟩ := hacc ha
    have hidx := hlines.indexFollows hcol hv.toStacked hE
    rcases hv.toStacked.insertEvent_cases rt hcol hE hidx with ⟨n, hn, he⟩ | hadds
    · rw [he]
      exact hcount n hn
    · exact hv.adds hE hidx hwire hsig hadds
  · obtain ⟨n, hn, he⟩ := exec_insertEvent_of_not_accepts ha
    rw [he]
    exact hcount n hn

end Serving

/-- What attaching pending signatures can change : signatures of stored blocks, the anchor and
the pool. -/
theorem relates_processSigPool {r : Hashgraph H K → Hashgraph H K → Prop} (hrefl : ∀ h, r h h)
    (htrans : ∀ {h h' h''}, r h h' → r h' h'' → r h h'')
    (htick : ∀ h n, r h { h with memo := { h.memo with tick := n } })
    (hblock : ∀ h bs b, h.store.blockCache.lookup bs.index = some b →
      r h { h with store := h.store.setBlock (b.setSignature bs) })
    (hanchor : ∀ h a, r h { h with anchorBlock := a })
    (hpool : ∀ h p, r h { h with pendingSignatures := p }) :
    Exec.Relates r (processSigPool S rt : Hg H K Unit) := by
  refine Exec.Relates.bind htrans hrefl fun _ =>
    Exec.Relates.bind htrans (fun h => htick h (h.memo.tick + 1)) fun _ =>
      Exec.relates_forM hrefl htrans fun bs h => ?_
  rcases processSignature_cases (S := S) bs h with he | ⟨b, P, hb, -, -, -, pool, he⟩
  · rw [he]
    exact hrefl h
  · rw [he]
    exact htrans (htrans (hblock h bs b hb) (relates_setAnchorBlock hrefl hanchor _ _)) (hpool _ _)

end Hashgraph

/-! ## Peers with known keys -/

/-- The repertoire gains the keys of a peer-set that is recorded. -/
theorem PeerSetCache.mem_repertoireByPubKey_set {c c' : PeerSetCache K} {r : ℤ} {P : PeerSet K}
    (h : c.set r P = .ok c') (k : K) : k ∈ c'.repertoireByPubKey ↔
      k ∈ c.repertoireByPubKey ∨ ∃ p ∈ P.peers, p.pubKeyString = k := by
  unfold PeerSetCache.set at h
  split at h
  · cases h
  · obtain rfl := Except.ok.inj h
    rw [PeerSetCache.repertoireByPubKey_foldl, Map.mem_foldl_insert]

/-- The application accepts new peers with keys of `Q` only. -/
def Application.Admits (Q : Set K) (app : Application K) : Prop :=
  ∀ b response, app.commit b = .ok response → ∀ r ∈ response.internalTransactionReceipts,
    r.accepted = true → r.internalTransaction.body.type = .peerAdd →
    r.internalTransaction.body.peer.pubKeyString ∈ Q

/-- Peers after receipts are peers from before or accepted ones. -/
theorem mem_of_afterReceipts {receipts : List (InternalTransactionReceipt K)} {V : PeerSet K}
    {p : Peer K} (hp : p ∈ (afterReceipts receipts V).peers) : p ∈ V.peers ∨
      ∃ r ∈ receipts, r.accepted = true ∧ r.internalTransaction.body.type = .peerAdd ∧
        r.internalTransaction.body.peer = p := by
  revert hp
  refine List.foldlRecOn receipts (fun V r => InternalTransactionReceipt.apply r V)
    (motive := fun V' : PeerSet K => p ∈ V'.peers → p ∈ V.peers ∨
      ∃ r ∈ receipts, r.accepted = true ∧ r.internalTransaction.body.type = .peerAdd ∧
        r.internalTransaction.body.peer = p) .inl fun V' hV' r hr hp => ?_
  unfold InternalTransactionReceipt.apply at hp
  split_ifs at hp with hacc
  · split at hp
    · next htype =>
      unfold PeerSet.withNewPeer at hp
      split at hp
      · exact hV' hp
      · rcases List.mem_append.1 hp with hp | hp
        · exact hV' hp
        · exact .inr ⟨r, hr, hacc, htype, (List.mem_singleton.1 hp).symm⟩
    · exact hV' (List.mem_of_mem_filter hp)
    · exact hV' hp
  · exact hV' hp

namespace Core

variable {S : Scheme H K} {v : Validator} {proxy : ProxyCommitCallback K} {Q : Set K}

variable (S v proxy) in
/-- What a commit does to the validators and the recorded peers : nothing, or it records the
validators after the receipts of the application. -/
theorem members_commitCallback (b : Block K) (s : Core H K) :
    ((commitCallback S v proxy b s).host.validators = s.host.validators ∧
      (commitCallback S v proxy b s).hg.store.peerSetCache = s.hg.store.peerSetCache) ∨
    ∃ response c, proxy b = .ok response ∧
      response.internalTransactionReceipts.any InternalTransactionReceipt.changes = true ∧
      s.hg.store.peerSetCache.set (b.body.roundReceived + 6)
        (afterReceipts response.internalTransactionReceipts s.host.validators) = .ok c ∧
      (commitCallback S v proxy b s).host.validators =
        afterReceipts response.internalTransactionReceipts s.host.validators ∧
      (commitCallback S v proxy b s).hg.store.peerSetCache = c := by
  unfold commitCallback
  cases hproxy : proxy b with
  | error err =>
    refine .inl ?_
    simp only [commit, hproxy, Exec.exec_throw]
    trivial
  | ok response =>
    cases hP : s.hg.store.getPeerSet b.body.roundReceived with
    | error err =>
      have hP' : (setBlock (b.answered response) s).hg.store.getPeerSet
          (b.answered response).body.roundReceived = .error err := hP
      simp only [commit, hproxy, Exec.exec_bind, Exec.exec_modify, signBlock,
        Session.exec_onHashgraph, Hashgraph.exec_read]
      simp only [Block.answered] at hP'
      rw [hP']
      exact .inl ⟨rfl, rfl⟩
    | ok P =>
      rw [exec_commit hproxy hP]
      have hmembers : (withSigned S v P (b.answered response)
          (setBlock (b.answered response) s)).host.validators = s.host.validators ∧
        (withSigned S v P (b.answered response)
          (setBlock (b.answered response) s)).hg.store.peerSetCache =
            s.hg.store.peerSetCache := by
        rw [withSigned]
        cases P.byID.lookup v.id <;> exact ⟨rfl, rfl⟩
      generalize withSigned S v P (b.answered response) (setBlock (b.answered response) s) = t
        at hmembers ⊢
      have hanchor := Hashgraph.relates_setAnchorBlock
        (r := fun h h' => h'.store.peerSetCache = h.store.peerSetCache) (fun _ => rfl)
        (fun _ _ => rfl) (signedBlock S v P (b.answered response)) t.hg
      rw [Exec.exec_bind, Session.exec_onHashgraph]
      generalize Exec.exec (Hashgraph.setAnchorBlock (signedBlock S v P (b.answered response)))
        t.hg = res at hanchor ⊢
      obtain ⟨err | _, h₁⟩ := res
      · exact .inl ⟨hmembers.1, hanchor.trans hmembers.2⟩
      · obtain ⟨res, s', hexec, hcase⟩ := exec_process_cases (v := v) { t with hg := h₁ }
          b.body.roundReceived response.internalTransactionReceipts
        simp only [hexec]
        rcases hcase with ⟨-, -, hval, hhg⟩ | ⟨-, err, -, -, hval, hhg⟩ |
          ⟨hany, st, hst, -, hval, hhg⟩
        · exact .inl ⟨hval.trans hmembers.1, by rw [hhg]; exact hanchor.trans hmembers.2⟩
        · exact .inl ⟨hval.trans hmembers.1, by rw [hhg]; exact hanchor.trans hmembers.2⟩
        · have hset := InmemStore.peerSetCache_setPeerSet hst
          have hpsc : h₁.store.peerSetCache = s.hg.store.peerSetCache := hanchor.trans hmembers.2
          simp only [hmembers.1, hpsc] at hset hval
          exact .inr ⟨response, st.peerSetCache, rfl, hany, hset, hval, by rw [hhg]⟩

/-- The validators and the recorded peers have keys of `Q`. -/
structure Within (Q : Set K) (s : Core H K) : Prop where
  validators : ∀ p ∈ s.host.validators.peers, p.pubKeyString ∈ Q
  repertoire : ∀ k ∈ s.hg.store.peerSetCache.repertoireByPubKey, k ∈ Q

theorem Within.of_eq {s s' : Core H K} (h : Within Q s)
    (hval : s'.host.validators = s.host.validators)
    (hpsc : s'.hg.store.peerSetCache = s.hg.store.peerSetCache) : Within Q s' :=
  ⟨hval ▸ h.validators, hpsc ▸ h.repertoire⟩

theorem Within.commitCallback {app : Application K} (happ : app.Admits Q) {s : Core H K}
    (h : Within Q s) (b : Block K) : Within Q (Core.commitCallback S v app.commit b s) := by
  rcases members_commitCallback S v app.commit b s with
    ⟨hval, hpsc⟩ | ⟨response, c, hresp, -, hset, hval, hpsc⟩
  · exact h.of_eq hval hpsc
  · have hV : ∀ p ∈ (afterReceipts response.internalTransactionReceipts s.host.validators).peers,
        p.pubKeyString ∈ Q := by
      intro p hp
      rcases mem_of_afterReceipts hp with hp | ⟨r, hr, hacc, htype, rfl⟩
      · exact h.validators p hp
      · exact happ b response hresp r hr hacc htype
    refine ⟨hval ▸ hV, fun k hk => ?_⟩
    rw [hpsc] at hk
    rcases (PeerSetCache.mem_repertoireByPubKey_set hset k).1 hk with hk | ⟨p, hp, rfl⟩
    · exact h.repertoire k hk
    · exact hV p hp

end Core

/-! ## Own events and events that were read -/

namespace Journal

variable {k : K} {j j' : Journal H K} {event : SignedEvent H K}

/-- The events of `O` and those that the core has made. -/
def among (O : Set (SignedEvent H K)) (j : Journal H K) : Set (SignedEvent H K) :=
  O ∪ {e | e ∈ j.made}

theorem among_mono (O : Set (SignedEvent H K)) (hp : j.entries <+: j'.entries) :
    j.among O ⊆ j'.among O := by
  rintro e (he | he)
  · exact .inl he
  · exact .inr (mem_made.2 (hp.subset (mem_made.1 he)))

theorem Genuine.append_made (h : Genuine k j) (hj : j'.entries = j.entries ++ [.made event]) :
    Genuine k j' := by
  intro pre e post hsplit hc
  cases post using List.reverseRecOn with
  | nil => cases (List.append_inj' (hj.symm.trans hsplit) rfl).2
  | append_singleton post a =>
    have hsplit' : j.entries ++ [.made event] = (pre ++ .read e :: post) ++ [a] := by
      rw [← hj, hsplit, List.append_assoc, List.cons_append]
    exact h pre e post (List.append_inj' hsplit' rfl).1 hc

/-- An own event that is read was made before. -/
theorem Genuine.append_read (h : Genuine k j) (hj : j'.entries = j.entries ++ [.read event])
    (hmade : event.creator = k → event ∈ j.made) : Genuine k j' := by
  intro pre e post hsplit hc
  cases post using List.reverseRecOn with
  | nil =>
    obtain ⟨rfl, he⟩ := List.append_inj' (hj.symm.trans hsplit) rfl
    obtain rfl : event = e := by
      cases he
      rfl
    exact ⟨event, mem_made.1 (hmade hc), rfl⟩
  | append_singleton post a =>
    have hsplit' : j.entries ++ [.read event] = (pre ++ .read e :: post) ++ [a] := by
      rw [← hj, hsplit, List.append_assoc, List.cons_append]
    exact h pre e post (List.append_inj' hsplit' rfl).1 hc

end Journal

namespace PoolCore

variable {S : Scheme H K} {rt : Runtime} {v : Validator} {app : Application K}
  {clock : ℕ → Int64} {s s' : PoolCore H K} {q : ℤ} {Q : Set K}

section Insertion

variable (S rt v app)

/-- An insertion is a call of the hashgraph, after which the head may move. -/
theorem insert_eq (event : SignedEvent H K) (wire : WireInfo) (fill : Bool) (s : PoolCore H K) :
    ∃ head seq, (Exec.exec (insertEventAndRunConsensus S rt v app event wire fill) s).2 =
      withHead (Session.feed S rt (commitCallback S v app) s ⟨event, wire, fill⟩) head seq := by
  rw [insertEventAndRunConsensus, Exec.exec_bind, Session.feed]
  obtain ⟨res, t⟩ := Exec.exec (Session.insertEventAndRunConsensus S rt (commitCallback S v app)
    event wire fill) s
  cases res with
  | error err => exact ⟨t.host.head, t.host.seq, rfl⟩
  | ok _ =>
    simp only
    split_ifs
    · exact ⟨_, _, rfl⟩
    · exact ⟨t.host.head, t.host.seq, rfl⟩

/-- The pools are trimmed if the own event was accepted. -/
theorem makeEvent_eq (event : SignedEvent H K) (s : PoolCore H K) : ∃ head seq,
    makeEvent S rt v app event s = withHead (Session.feed S rt (commitCallback S v app) s
      ⟨event, {}, true⟩) head seq ∨
    makeEvent S rt v app event s = trim event (withHead (Session.feed S rt
      (commitCallback S v app) s ⟨event, {}, true⟩) head seq) := by
  obtain ⟨head, seq, he⟩ := insert_eq S rt v app event {} true s
  refine ⟨head, seq, ?_⟩
  rw [makeEvent, Exec.exec_bind, ← he]
  generalize Exec.exec (insertEventAndRunConsensus S rt v app event {} true) s = res
  obtain ⟨err | _, t⟩ := res
  · exact .inl rfl
  · exact .inr rfl

theorem hg_makeEvent (event : SignedEvent H K) (s : PoolCore H K) :
    (makeEvent S rt v app event s).hg =
      (Session.feed S rt (commitCallback S v app) s ⟨event, {}, true⟩).hg := by
  obtain ⟨head, seq, he | he⟩ := makeEvent_eq S rt v app event s <;> rw [he] <;> rfl

theorem hg_takeEvent (event : SignedEvent H K) (wire : WireInfo) (s : PoolCore H K) :
    (takeEvent S rt v app event wire s).hg =
      (Session.feed S rt (commitCallback S v app) (noteRead event s) ⟨event, wire, false⟩).hg := by
  obtain ⟨head, seq, he⟩ := insert_eq S rt v app event wire false (noteRead event s)
  rw [takeEvent, he]
  rfl

end Insertion

theorem among_makeEvent (S : Scheme H K) (rt : Runtime) (v : Validator) (app : Application K)
    (O : Set (SignedEvent H K)) (event : SignedEvent H K) (s : PoolCore H K) :
    s.host.journal.among O ⊆ (makeEvent S rt v app event s).host.journal.among O :=
  Journal.among_mono O (entries_makeEvent event s)

variable (rt v app) in
/-- An own event is noted exactly if it is accepted. -/
theorem entries_makeEvent_cases (hs : Session.Sound S q s) (event : SignedEvent H K) :
    (¬Hashgraph.Accepts S rt s.hg ⟨event, {}, true⟩ ∧
      (makeEvent S rt v app event s).host.journal.entries = s.host.journal.entries) ∨
    Hashgraph.Accepts S rt s.hg ⟨event, {}, true⟩ ∧
      (makeEvent S rt v app event s).host.journal.entries =
        s.host.journal.entries ++ [.made event] := by
  have hent := entries_insert S rt v app event {} true s
  rw [makeEvent, Exec.exec_bind]
  have hcb : Session.Hosting (commitCallback S v app : CommitCallback (PoolState H K) H K) :=
    hosting_commitCallback
  rcases hs.feed_cases rt hcb.undisturbing ⟨event, {}, true⟩ with ⟨err, ti, hno, -, he⟩ | ⟨t, ps, A, he, -⟩
  · refine .inl ⟨hno, ?_⟩
    have hexec : (Exec.exec (insertEventAndRunConsensus S rt v app event {} true) s).1 =
        .error err := by
      rw [insertEventAndRunConsensus, Exec.exec_bind, he]
    generalize Exec.exec (insertEventAndRunConsensus S rt v app event {} true) s = res at hent hexec
    obtain ⟨r, t⟩ := res
    obtain rfl : r = .error err := hexec
    exact hent
  · have hok : (Exec.exec (Session.insertEventAndRunConsensus S rt (commitCallback S v app) event {}
        true) s).1 = .ok () := by rw [he]
    refine .inr ⟨Session.accepts_of_ok hok, ?_⟩
    have hexec : (Exec.exec (insertEventAndRunConsensus S rt v app event {} true) s).1 =
        .ok () := by
      rw [insertEventAndRunConsensus, Exec.exec_bind, he]
      simp only
      split_ifs <;> rfl
    generalize Exec.exec (insertEventAndRunConsensus S rt v app event {} true) s = res at hent hexec
    obtain ⟨r, t⟩ := res
    obtain rfl : r = .ok () := hexec
    exact congrArg (· ++ [Entry.made event]) hent

variable (S rt v) in
/-- The commits keep the keys. -/
theorem within_feed (happ : app.Admits Q) (i : Session.Input H K) (h : Core.Within Q s.core) :
    Core.Within Q (core (Session.feed S rt (commitCallback S v app) s i)) := by
  have hun : Session.Unshelved fun s s' : PoolCore H K =>
      Core.Within Q s.core → Core.Within Q s'.core :=
    fun s hg hs h => h.of_eq rfl (congrArg Shelf.peerSets hs)
  refine hun.feed (fun h1 h2 => h2 ∘ h1) (fun fr t ht => ?_) s i h
  rw [Session.commitFrame_eq]
  split_ifs
  · exact ht
  · set b := Block.fromFrame S (t.hg.store.lastBlock + 1) fr
    have ht' : Core.Within Q (core (submit (app.transactions b) (app.internalTransactions b)
      (Session.storing b t))) := ht.of_eq rfl rfl
    exact ht'.commitCallback happ b

/-- The signatures in the pool are the validator's. -/
def SignsOwn (v : Validator) (s : PoolCore H K) : Prop :=
  ∀ k sig, s.host.selfBlockSignatures.lookup k = some sig → sig.validator = v.publicKeyBytes

variable (S rt app) in
theorem signsOwn_feed (i : Session.Input H K) (h : SignsOwn v s) :
    SignsOwn v (Session.feed S rt (commitCallback S v app) s i) := by
  have hun : Session.Unshelved fun s s' : PoolCore H K => SignsOwn v s → SignsOwn v s' :=
    fun s hg hs => id
  refine hun.feed (fun h1 h2 => h2 ∘ h1) (fun fr t ht => ?_) s i h
  rw [Session.commitFrame_eq]
  split_ifs
  · exact ht
  · set b := Block.fromFrame S (t.hg.store.lastBlock + 1) fr
    set c := core (submit (app.transactions b) (app.internalTransactions b) (Session.storing b t))
    intro k sig hk
    replace hk : ((Core.commitSignatures S v app.commit b c).foldl Hashgraph.addPendingSignature
        t.host.selfBlockSignatures).lookup k = some sig := by
      rw [← hk]
      exact congrArg (fun pool : Map (ℤ × K) BlockSignature => pool.lookup k)
        (Core.selfBlockSignatures_commitCallback b c).symm
    -- what a commit adds is a signature by the validator
    revert k sig
    refine List.foldlRecOn _ Hashgraph.addPendingSignature
      (motive := fun pool : Map (ℤ × K) BlockSignature =>
        ∀ k sig, pool.lookup k = some sig → sig.validator = v.publicKeyBytes) ht
      fun pool hpool sig hsig k sig' hk => ?_
    rw [Hashgraph.addPendingSignature, Map.lookup_insert_ite] at hk
    split_ifs at hk
    · obtain rfl := Option.some.inj hk
      unfold Core.commitSignatures at hsig
      split at hsig
      · split at hsig
        · cases hsig
        · rw [List.mem_singleton.1 hsig]
          rfl
      · cases hsig
    · exact hpool k sig' hk

theorem SignsOwn.trim (h : SignsOwn v s) (event : SignedEvent H K) : SignsOwn v (trim event s) := by
  refine List.foldlRecOn event.body.blockSignatures _
    (motive := fun pool : Map (ℤ × K) BlockSignature =>
      ∀ k sig, pool.lookup k = some sig → sig.validator = v.publicKeyBytes) h
    fun pool hpool bs _ k sig hk => ?_
  by_cases hkey : k = (bs.index, bs.validatorHex)
  · rw [hkey, AList.lookup_erase] at hk
    cases hk
  · rw [AList.lookup_erase_ne hkey] at hk
    exact hpool k sig hk

/-- The own events are a line. -/
theorem Owned.lines (h : Owned S v s) : Lines S {e | e ∈ s.host.journal.made} where
  nonneg e he := by
    obtain ⟨n, hn⟩ := List.mem_iff_getElem?.1 he
    rw [(h.made n e hn).2.1]
    exact Int.natCast_nonneg n
  first e he hnone := by
    obtain ⟨n, hn⟩ := List.mem_iff_getElem?.1 he
    have hlt := (List.getElem?_eq_some_iff.1 hn).1
    have hp := h.parent n e hn
    rw [hnone, eq_comm, Option.map_eq_none_iff, List.getLast?_eq_none_iff,
      List.take_eq_nil_iff] at hp
    rw [(h.made n e hn).2.1]
    rcases hp with rfl | hp
    · rfl
    · rw [hp] at hlt
      cases hlt
  next e he x hx := by
    obtain ⟨n, hn⟩ := List.mem_iff_getElem?.1 he
    have hp := h.parent n e hn
    rw [hx, eq_comm, Option.map_eq_some_iff] at hp
    obtain ⟨p, hp, hhex⟩ := hp
    have hlt := (List.getElem?_eq_some_iff.1 hn).1
    cases n with
    | zero => cases hp
    | succ n =>
      rw [List.getLast?_take, if_neg (by omega), Nat.add_sub_cancel,
        List.getElem?_eq_getElem (by omega), Option.some_or] at hp
      have hp' : s.host.journal.made[n]? = some p := by
        rw [List.getElem?_eq_getElem (by omega)]
        exact hp
      refine ⟨p, List.mem_of_getElem? hp', hhex, ?_, ?_⟩
      · rw [(h.made _ e hn).1, (h.made n p hp').1]
      · rw [(h.made _ e hn).2.1, (h.made n p hp').2.1]
        rfl
  unique e he e' he' _ hi := by
    obtain ⟨n, hn⟩ := List.mem_iff_getElem?.1 he
    obtain ⟨n', hn'⟩ := List.mem_iff_getElem?.1 he'
    rw [(h.made n e hn).2.1, (h.made n' e' hn').2.1] at hi
    obtain rfl := Int.ofNat.inj hi
    exact Option.some.inj (hn.symm.trans hn')

end PoolCore

/-! ## What gossip keeps at a node -/

namespace PoolCore

variable {S : Scheme H K} {rt : Runtime} {v : Validator} {app : Application K}
  {clock : ℕ → Int64} {s s' : PoolCore H K} {Q : Set K} {O : Set (SignedEvent H K)}
  {W : Set (WireEvent K)}

/-- The node has its own events and some of `O`, and the wire events `W` stand for events of
both kinds. -/
structure Citizen (S : Scheme H K) (v : Validator) (Q : Set K) (O : Set (SignedEvent H K))
    (W : Set (WireEvent K)) (s : PoolCore H K) : Prop extends Owned S v s where
  genuine : s.host.journal.Genuine (v.publicKeyHex : K)
  entries : ∀ a ∈ s.host.journal.entries, a.event ∈ s.host.journal.among O
  serving : s.hg.Serving S (s.host.journal.among O) ∅
  within : Core.Within Q s.core
  signsOwn : SignsOwn v s
  verified : ∀ e ∈ s.host.journal.made, e.verify S = .ok true ∧ e.creator ∈ Q
  sent : ∀ w ∈ W, ∃ e, Sent S Q (s.host.journal.among O) w e

/-- The known events are lines, if those of the others are. -/
theorem Owned.among_lines (h : Owned S v s) (hO : Lines S O)
    (hforeign : ∀ e ∈ O, e.creator ≠ (v.publicKeyHex : K)) :
    Lines S (s.host.journal.among O) := by
  refine hO.union h.lines fun e he e' he' hc => hforeign e he (hc.trans ?_)
  obtain ⟨n, hn⟩ := List.mem_iff_getElem?.1 he'
  exact (h.made n e' hn).1

/-- A call keeps what is served, if the insertion does. -/
theorem serving_feed {E : Set (SignedEvent H K)} {F : Set H} {i : Session.Input H K}
    (hinsert : s.hg.Serving S E F → Hashgraph.Serving S E F
      (Exec.exec (Hashgraph.insertEvent S rt i.event i.wire i.fill) s.hg).2) :
    s.hg.Serving S E F → (Session.feed S rt (commitCallback S v app) s i).hg.Serving S E F :=
  Hashgraph.Serving.stable.feed (fun b t ht =>
    (Hashgraph.Serving.stable.across b).commitCallback (core (submit _ _ t)) ht) hinsert

namespace Citizen

theorem distinct (h : ∀ a ∈ s.host.journal.entries, a.event ∈ s.host.journal.among O)
    (hcol : CollisionFree S (s.host.journal.among O)) : s.host.journal.Distinct S :=
  fun a ha b hb => hcol _ (h a ha) _ (h b hb)

/-- The hashgraph changes, but not its events or peers. -/
theorem of_hg (h : Citizen S v Q O W s) {hg : Hashgraph H K}
    (hkept : Kept S v { s with hg := hg }) (hec : hg.store.eventCache = s.hg.store.eventCache)
    (hpec : hg.store.participantEventsCache = s.hg.store.participantEventsCache)
    (hpsc : hg.store.peerSetCache = s.hg.store.peerSetCache)
    (hti : hg.topologicalIndex = s.hg.topologicalIndex) :
    Citizen S v Q O W { s with hg := hg } where
  toOwned := h.toOwned.of_eq hkept hec rfl rfl rfl
  genuine := h.genuine
  entries := h.entries
  serving := Hashgraph.Serving.stable.of_eq hec hpec hpsc hti h.serving
  within := h.within.of_eq rfl hpsc
  signsOwn := h.signsOwn
  verified := h.verified
  sent := h.sent

/-- The fields of the host that gossip does not read. -/
theorem of_host (h : Citizen S v Q O W s) {c : PoolState H K}
    (hhead : c.head = s.host.head) (hseq : c.seq = s.host.seq)
    (hentries : c.journal.entries = s.host.journal.entries)
    (hval : c.validators = s.host.validators)
    (hsigs : c.selfBlockSignatures = s.host.selfBlockSignatures) :
    Citizen S v Q O W { s with host := c } := by
  have hmade : c.journal.made = s.host.journal.made := by
    rw [Journal.made, hentries, Journal.made]
  have hamong : c.journal.among O = s.host.journal.among O := by
    rw [Journal.among, hmade, Journal.among]
  refine
    { toOwned := h.toOwned.of_eq (h.toKept.of_eq rfl hhead hseq (by rw [hentries])) rfl hhead
        hseq hmade
      genuine := fun pre e post he => h.genuine pre e post (hentries ▸ he)
      entries := ?_
      serving := ?_
      within := h.within.of_eq hval rfl
      signsOwn := fun k sig hk => h.signsOwn k sig (hsigs ▸ hk)
      verified := fun e he => h.verified e (hmade ▸ he)
      sent := ?_ }
  · rw [hentries, hamong]
    exact h.entries
  · rw [hamong]
    exact h.serving
  · rw [hamong]
    exact h.sent

/-- The others have made more events, and there is more on the wire. -/
theorem mono (h : Citizen S v Q O W s) {O' : Set (SignedEvent H K)} (hO : O ⊆ O')
    {W' : Set (WireEvent K)} (hW : ∀ w ∈ W', ∃ e, Sent S Q (s.host.journal.among O') w e) :
    Citizen S v Q O' W' s := by
  have hsub : s.host.journal.among O ⊆ s.host.journal.among O' :=
    Set.union_subset_union_left _ hO
  exact ⟨h.toOwned, h.genuine, fun a ha => hsub (h.entries a ha), h.serving.mono hsub, h.within,
    h.signsOwn, h.verified, hW⟩

/-- The node makes an event : it is refused, or it is the next of its line. -/
theorem makeEvent (hO : Lines S O) (hforeign : ∀ e ∈ O, e.creator ≠ (v.publicKeyHex : K))
    (happ : app.Admits Q) (h : Citizen S v Q O W s) {sigs : List BlockSignature}
    (hsigs : sigs.Perm (s.host.selfBlockSignatures.toPairs.map Prod.snd)) {otherHead : Option H}
    {t : Int64} {event : SignedEvent H K} (he : event = selfEvent S v s sigs otherHead t)
    (hcol : CollisionFree S ((PoolCore.makeEvent S rt v app event s).host.journal.among O)) :
    Citizen S v Q O W (PoolCore.makeEvent S rt v app event s) := by
  obtain ⟨q, ht⟩ := h.tracked
  have hcases := entries_makeEvent_cases rt v app ht.sound event
  have hsub := among_makeEvent S rt v app O event s
  have hsteady := (steady_owned : Steady S rt v app _).own s sigs otherHead t hsigs event he
  have heq := makeEvent_eq S rt v app event s
  have hhg := hg_makeEvent S rt v app event s
  rw [← PoolCore.makeEvent] at hsteady
  set s' := PoolCore.makeEvent S rt v app event s
  have hgenuine : s'.host.journal.Genuine (v.publicKeyHex : K) := by
    rcases hcases with ⟨-, hent⟩ | ⟨-, hent⟩
    · exact h.genuine.mono (by rw [hent])
    · exact h.genuine.append_made hent
  have hentries : ∀ a ∈ s'.host.journal.entries, a.event ∈ s'.host.journal.among O := by
    intro a ha
    rcases hcases with ⟨-, hent⟩ | ⟨-, hent⟩
    · exact hsub (h.entries a (hent ▸ ha))
    · rw [hent, List.mem_append, List.mem_singleton] at ha
      rcases ha with ha | rfl
      · exact hsub (h.entries a ha)
      · exact .inr (Journal.mem_made.2 (by rw [hent]; simp [Entry.event]))
  have howned : Owned S v s' := hsteady.2 ⟨distinct hentries hcol, hgenuine⟩ h.toOwned
  refine ⟨howned, hgenuine, hentries, ?_, ?_, ?_, fun e he' => ?_, fun w hw => ?_⟩
  · rw [hhg]
    refine serving_feed (fun hv => hv.insertEvent fun hacc => ?_) (h.serving.mono hsub)
    refine ⟨hcol, howned.among_lines hO hforeign, .inr ?_, .inl rfl, fun bs hbs => ?_⟩
    · rcases hcases with ⟨hno, -⟩ | ⟨-, hent⟩
      · exact absurd hacc hno
      · exact Journal.mem_made.2 (by rw [hent]; simp)
    · -- the signatures of an own event are from the pool
      have hmem : bs ∈ s.host.selfBlockSignatures.toPairs.map Prod.snd := by
        refine hsigs.subset ?_
        rwa [he] at hbs
      obtain ⟨⟨k, sig⟩, hk, rfl⟩ := List.mem_map.1 hmem
      rw [h.signsOwn k sig (Map.mem_toPairs.1 hk), he]
      rfl
  · have hw := within_feed S rt v happ ⟨event, {}, true⟩ h.within
    obtain ⟨head, seq, heq | heq⟩ := heq <;> rw [heq] <;> exact hw.of_eq rfl rfl
  · have hs := signsOwn_feed S rt app ⟨event, {}, true⟩ h.signsOwn
    obtain ⟨head, seq, heq | heq⟩ := heq <;> rw [heq]
    · exact hs
    · exact SignsOwn.trim (s := withHead _ head seq) hs event
  · rcases hcases with ⟨-, hent⟩ | ⟨hacc, hent⟩
    · exact h.verified e (Journal.mem_made.2 (hent ▸ Journal.mem_made.1 he'))
    · have hmem := Journal.mem_made.1 he'
      rw [hent, List.mem_append, List.mem_singleton] at hmem
      rcases hmem with hmem | hmem
      · exact h.verified e (Journal.mem_made.2 hmem)
      · cases hmem
        exact ⟨hacc.checked.1.verified,
          h.within.repertoire _ (hacc.checked.2.wirable rfl).creator⟩
  · obtain ⟨e, hs⟩ := h.sent w hw
    exact ⟨e, hs.mono hsub⟩

/-- The node inserts an event that it has read from `W`. -/
theorem takeEvent (hO : Lines S O) (hforeign : ∀ e ∈ O, e.creator ≠ (v.publicKeyHex : K))
    (hQ : DistinctKeys Q) (happ : app.Admits Q) (h : Citizen S v Q O W s)
    (hcol : CollisionFree S (s.host.journal.among O)) {event : SignedEvent H K} {wire : WireInfo}
    {w : WireEvent K} (hw : w ∈ W)
    (hr : Hashgraph.readWireInfo s.hg.store w = .ok (event, wire)) :
    Citizen S v Q O W (PoolCore.takeEvent S rt v app event wire s) := by
  have hlines := h.toOwned.among_lines hO hforeign
  have hevent : event ∈ s.host.journal.among O := by
    obtain ⟨e, hs⟩ := h.sent w hw
    rw [hs.read hlines hQ h.serving.toStacked h.within.repertoire hr]
    exact hs.mem
  have hent := entries_takeEvent S rt v app event wire s
  have hmade := made_noteRead hent
  have hsteady := (steady_owned : Steady S rt v app _).read s event wire
  have heq := insert_eq S rt v app event wire false (noteRead event s)
  have hhg := hg_takeEvent S rt v app event wire s
  rw [← PoolCore.takeEvent] at hsteady heq
  set s' := PoolCore.takeEvent S rt v app event wire s
  have hamong : s'.host.journal.among O = s.host.journal.among O := by
    rw [Journal.among, hmade, Journal.among]
  have hgenuine : s'.host.journal.Genuine (v.publicKeyHex : K) := by
    refine h.genuine.append_read hent fun hc => ?_
    exact hevent.resolve_left fun hO => hforeign event hO hc
  have hentries : ∀ a ∈ s'.host.journal.entries, a.event ∈ s'.host.journal.among O := by
    intro a ha
    rw [hamong]
    rw [hent, List.mem_append, List.mem_singleton] at ha
    rcases ha with ha | rfl
    · exact h.entries a ha
    · exact hevent
  refine ⟨hsteady.2 ⟨distinct hentries (hamong ▸ hcol), hgenuine⟩ h.toOwned, hgenuine, hentries, ?_,
    ?_, ?_, fun e he => h.verified e (hmade ▸ he), hamong ▸ h.sent⟩
  · rw [hamong, hhg]
    refine serving_feed (s := noteRead event s) (fun hv => hv.insertEvent fun _ => ?_) h.serving
    refine ⟨hcol, hlines, hevent, .inr ⟨rfl, w, hr⟩, fun bs hbs => ?_⟩
    obtain ⟨q, -, -, -, -, -, hsigs, -⟩ := Hashgraph.readWireInfo_ok.1 hr
    rw [hsigs, WireEvent.blockSignatures, List.mem_map] at hbs
    obtain ⟨wbs, -, rfl⟩ := hbs
    rfl
  · obtain ⟨head, seq, heq⟩ := heq
    rw [heq]
    exact (within_feed S rt v (s := noteRead event s) happ ⟨event, wire, false⟩
      (h.within.of_eq rfl rfl)).of_eq rfl rfl
  · obtain ⟨head, seq, heq⟩ := heq
    rw [heq]
    exact signsOwn_feed S rt app (s := noteRead event s) ⟨event, wire, false⟩ h.signsOwn

end Citizen

/-- What is in the journal stays there. -/
theorem steadyOn_entries : SteadyOn S rt v app W fun s s' : PoolCore H K =>
    s.host.journal.entries <+: s'.host.journal.entries where
  refl _ := List.prefix_rfl
  trans := List.IsPrefix.trans
  tick _ _ := List.prefix_rfl
  submit _ _ _ := List.prefix_rfl
  deleteHead _ _ := List.prefix_rfl
  noteHead _ _ _ := List.prefix_rfl
  own s _ _ _ _ event _ := entries_makeEvent event s
  read s event wire _ := entries_takeEvent S rt v app event wire s ▸ List.prefix_append _ _

variable (rt W) in
/-- The calls of the core keep all this, as long as no two known events have one hash. -/
theorem steadyOn_citizen (hO : Lines S O) (hforeign : ∀ e ∈ O, e.creator ≠ (v.publicKeyHex : K))
    (hQ : DistinctKeys Q) (happ : app.Admits Q) :
    SteadyOn S rt v app W
      (Maintains (fun j => CollisionFree S (j.among O)) (Citizen S v Q O W)) where
  refl := .refl
  trans := .trans fun hp hj => hj.mono (Journal.among_mono O hp)
  tick s n := ⟨List.prefix_refl _, fun _ h => h.of_hg (h.toKept.tick n) rfl rfl rfl rfl⟩
  submit s _ _ := ⟨List.prefix_refl _, fun _ h => h.of_host rfl rfl rfl rfl rfl⟩
  deleteHead s _ := ⟨List.prefix_refl _, fun _ h => h.of_host rfl rfl rfl rfl rfl⟩
  noteHead s _ _ := ⟨List.prefix_refl _, fun _ h => h.of_host rfl rfl rfl rfl rfl⟩
  own s sigs otherHead t hsigs event he :=
    ⟨entries_makeEvent event s, fun hcol h => h.makeEvent hO hforeign happ hsigs he hcol⟩
  read s event wire := by
    rintro ⟨w, hw, hr⟩
    have hent := entries_takeEvent S rt v app event wire s
    refine ⟨hent ▸ List.prefix_append _ _, fun hcol h => h.takeEvent hO hforeign hQ happ ?_ hw hr⟩
    exact hcol.mono (Journal.among_mono O (hent ▸ List.prefix_append _ _))

/-- A new node, with nothing on the wire. -/
theorem citizen_new (S : Scheme H K) (v : Validator) (n : ℕ) (peers : PeerSet K)
    {genesis : PeerSet K} (hgenesis : ∀ p ∈ genesis.peers, p.pubKeyString ∈ Q) :
    Citizen S v Q ∅ ∅ (new peers genesis (InmemStore.new n)) := by
  have hfresh : (Hashgraph.new (InmemStore.new n)).Serving S
      ((∅ : Set (SignedEvent H K)) ∪ {e | e ∈ ([] : List (SignedEvent H K))}) ∅ :=
    { toStacked := (Hashgraph.Catalogued.new n).stacked
      ordered := orderedOutside_empty.2 (Hashgraph.Catalogued.new (S := S) (E := ∅) n).ordered
      nonneg := by rintro x e ⟨⟩
      loaded := by rintro x ⟨⟩
      blank := by rintro x ⟨⟩
      describes := by rintro x e w - ⟨⟩
      attributed := by rintro x e - ⟨⟩ }
  refine ⟨owned_new S v n peers genesis, ?_, ?_, ?_, ⟨hgenesis, fun k hk => ?_⟩, ?_, ?_, ?_⟩
  · intro pre e post he
    cases pre <;> cases he
  · rintro a ⟨⟩
  · have hserving : Hashgraph.Serving S _ ∅ (Core.new peers genesis (InmemStore.new n) : Core H K).hg :=
      Hashgraph.Serving.stable.new hfresh
    exact hserving
  · obtain ⟨h, hi⟩ := Core.exists_init (H := H) n genesis
    obtain ⟨st, hst, rfl⟩ := Hashgraph.init_cases hi
    have hnew : (core (new peers genesis (InmemStore.new n) : PoolCore H K)).hg.store.peerSetCache =
        st.peerSetCache := congrArg (fun h => h.store.peerSetCache) (Core.new_hg hi)
    rw [hnew] at hk
    rcases (PeerSetCache.mem_repertoireByPubKey_set (InmemStore.peerSetCache_setPeerSet hst) k).1 hk
      with hk | ⟨p, hp, rfl⟩
    · cases hk
    · exact hgenesis p hp
  · rintro k sig ⟨⟩
  · rintro e ⟨⟩
  · rintro w ⟨⟩

/-- Attaching signatures to blocks is no matter of the events. -/
theorem Citizen.processSigPool (h : Citizen S v Q O W s) :
    Citizen S v Q O W (Exec.exec (processSigPool S rt) s).2 := by
  rw [PoolCore.processSigPool, Session.exec_onHashgraph]
  refine Hashgraph.relates_processSigPool
    (r := fun hg hg' => Citizen S v Q O W { s with hg := hg } → Citizen S v Q O W { s with hg := hg' })
    (fun _ => id) (fun h1 h2 => h2 ∘ h1) (fun hg n hc => hc.of_hg (hc.toKept.tick n) rfl rfl rfl rfl)
    (fun hg bs b _ hc => ?_) (fun hg a hc => ?_) (fun hg p hc => ?_) s.hg h
  · exact hc.of_hg (hc.toKept.of_undisturbed
      ⟨⟨rfl, rfl, rfl, rfl, fun _ => id, fun _ => id, id, rfl, rfl, rfl, rfl⟩, rfl⟩ rfl)
      rfl rfl rfl rfl
  · exact hc.of_hg (hc.toKept.of_undisturbed
      ⟨⟨rfl, rfl, rfl, rfl, fun _ => id, fun _ => id, id, rfl, rfl, rfl, rfl⟩, rfl⟩ rfl)
      rfl rfl rfl rfl
  · exact hc.of_hg (hc.toKept.of_undisturbed
      ⟨⟨rfl, rfl, rfl, rfl, fun _ => id, fun _ => id, id, rfl, rfl, rfl, rfl⟩, rfl⟩ rfl)
      rfl rfl rfl rfl

/-! ## Methods of the node -/

section Node

variable {r : PoolCore H K → PoolCore H K → Prop}

/-- What holds across the calls of the core and across the signature pool holds across a
sync. -/
theorem SteadyOwn.nodeSync (h : SteadyOwn S rt v app r) (hlearns : LearnsOn S rt v app W r)
    (hpool : ∀ s, r s (Exec.exec (processSigPool S rt) s).2) (fromID : UInt32)
    {events : List (WireEvent K)} (hW : ∀ w ∈ events, w ∈ W) :
    Exec.Relates r (nodeSync S rt v app clock fromID events) := by
  intro s
  have hsync : r s (Exec.exec (sync S rt v app clock fromID events) s).2 :=
    h.perform hlearns (.sync fromID events) (fun _ _ he => by cases he; exact hW) s
  rw [PoolCore.nodeSync, Exec.exec_bind, Exec.exec_attempt]
  generalize Exec.exec (sync S rt v app clock fromID events) s = res at hsync ⊢
  obtain ⟨err | _, t⟩ := res
  · simp only
    split_ifs
    · exact h.trans hsync (hpool t)
    · exact hsync
  · exact h.trans hsync (hpool t)

/-- And across a monologue. -/
theorem SteadyOwn.monologue (h : SteadyOwn S rt v app r)
    (hpool : ∀ s, r s (Exec.exec (processSigPool S rt) s).2) :
    Exec.Relates r (monologue S rt v app clock) := by
  refine Exec.Relates.bind h.trans h.refl fun s => ?_
  split_ifs
  · exact Exec.Relates.bind h.trans (h.addSelfEvent none) fun _ => hpool
  · exact h.refl

end Node

end PoolCore

end Babble

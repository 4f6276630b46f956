import Babble.NetworkAgreement

/-!
# Exchange of events

A node asks a peer for the events above the indexes that it knows, and inserts what it gets.
In the meantime it may have learned some of these events from others, or made new ones.
-/

set_option linter.unusedSectionVars false

namespace Babble

variable {ι H K : Type} [DecidableEq ι] [DecidableEq H] [DecidableEq K] [Hex H] [Hex K]

/-! ## Stored events -/

namespace Hashgraph

variable {S : Scheme H K} {rt : Runtime} {E : Set (SignedEvent H K)} {Q : Set K}
  {h h' : Hashgraph H K} {e e' : SignedEvent H K}

/-- The event is stored under its hash. -/
def Stores (S : Scheme H K) (h : Hashgraph H K) (e : SignedEvent H K) : Prop :=
  signedEvents h.store.eventCache (e.hex S) = some e

/-- There is a window for every key of `Q`. -/
structure Opens (Q : Set K) (h : Hashgraph H K) : Prop where
  registered : h.store.participantEventsCache.Registered
  window : ∀ k ∈ Q, h.store.participantEventsCache.window k ≠ none

theorem Opens.stable : Stable (Opens Q : Hashgraph H K → Prop) where
  same hs ho := by
    refine ⟨?_, ?_⟩ <;> rw [hs.participantEvents]
    exacts [ho.registered, ho.window]
  peerSet hst ho := by
    obtain ⟨hr, -, hw⟩ := (InmemStore.enrolled_setPeerSet hst).enrolls ho.registered
    refine ⟨hr, fun k hk => ?_⟩
    rcases hw k with he | ⟨-, name, he⟩
    · exact he.symm ▸ ho.window k hk
    · exact he.symm ▸ Option.some_ne_none _

theorem Opens.adds (ho : h.Opens Q) {wire : WireInfo} {fill : Bool}
    (ha : Adds S e wire fill h h') : h'.Opens Q := by
  obtain ⟨hr, ⟨ri, ri', -, -, hri'⟩, hother⟩ := ho.registered.set ha.window
  refine ⟨hr, fun k hk => ?_⟩
  by_cases hke : Hex.toUpper k = Hex.toUpper e.creator
  · rw [ParticipantEventsCache.window_congr hke, hri']
    exact Option.some_ne_none _
  · rw [hother k hke]
    exact ho.window k hk

/-- The peers with whom a hashgraph starts have windows. -/
theorem Opens.initial {P : PeerSet K} (size : ℕ) (hQ : DistinctKeys Q)
    (hP : ∀ k, k ∈ Q ↔ ∃ p ∈ P.peers, p.pubKeyString = k) :
    (Hashgraph.initial size P : Hashgraph H K).Opens Q := by
  obtain ⟨st, hst, heq⟩ := Hashgraph.init_cases (init_initial (H := H) size P)
  rw [heq]
  have henrolled := InmemStore.enrolled_setPeerSet hst
  have hr : st.participantEventsCache.Registered :=
    (henrolled.enrolls (Listed.new (fun _ => True) size).toRegistered).1
  refine ⟨hr, fun k hk => ?_⟩
  obtain ⟨p, hp, rfl⟩ := (hP k).1 hk
  obtain ⟨q, hq, hid⟩ := henrolled.participant p (.inr hp)
  have hqP : q ∈ P.peers := (henrolled.origin q hq).resolve_left fun hq => by cases hq
  have hkey : q.pubKeyString = p.pubKeyString :=
    hQ _ ((hP _).2 ⟨q, hqP, rfl⟩) _ hk (by rw [← q.id_eq, ← p.id_eq, hid])
  obtain ⟨q', hq'⟩ := Map.mem_iff_lookup.1 (PeerSet.mem_byPubKey.2 ⟨q, hq, hkey⟩)
  change ¬st.participantEventsCache.window p.pubKeyString = none
  rw [hr.window_eq_none, ParticipantEventsCache.participantID, p.toUpper_pubKeyString]
  simp [hq']

/-- A hashgraph in which events of `E` are found under their creators and indexes. -/
structure Found (S : Scheme H K) (E : Set (SignedEvent H K)) (h : Hashgraph H K) : Prop
    extends Stacked S E h where
  chains : Chains h.store
  lines : Lines S E
  collisionFree : CollisionFree S E

namespace Found

theorem stores_iff (hf : Found S E h) : h.Stores S e ↔
    ∃ x, signedEvents h.store.eventCache x = some e := by
  refine ⟨fun he => ⟨_, he⟩, ?_⟩
  rintro ⟨x, hx⟩
  rw [Stores, (hf.origin x e hx).2]
  exact hx

/-- Events that were made earlier than a stored one are stored. -/
theorem stores_earlier (hf : Found S E h) (he : h.Stores S e) (he' : e' ∈ E)
    (hc : e'.creator = e.creator) (hi : e'.body.index ≤ e.body.index) : h.Stores S e' := by
  obtain ⟨ev, hev, rfl⟩ := signedEvents_eq_some.1 he
  obtain ⟨-, chain, hchain⟩ := hf.chains ev.creator ev.toSignedEvent.toUpper_creator
  -- the chain of the creator has an event at every index up to that of the stored one
  obtain ⟨n, hn⟩ := List.mem_iff_getElem?.1
    ((hchain.mem_iff _).2 ⟨ev, InmemStore.getEvent_eq_ok.2 hev, rfl⟩)
  have hidx := hchain.index_eq hn (InmemStore.getEvent_eq_ok.2 hev)
  have hnonneg := hf.lines.nonneg e' he'
  have hlt := (List.getElem?_eq_some_iff.1 hn).1
  obtain ⟨y, hy⟩ : ∃ y, chain[e'.body.index.toNat]? = some y :=
    ⟨_, List.getElem?_eq_getElem (by omega)⟩
  obtain ⟨ev', hev', hc'⟩ := (hchain.mem_iff y).1 (List.mem_of_getElem? hy)
  have hidx' := hchain.index_eq hy hev'
  have hy' : signedEvents h.store.eventCache y = some ev'.toSignedEvent :=
    signedEvents_eq_some.2 ⟨ev', InmemStore.getEvent_eq_ok.1 hev', rfl⟩
  obtain ⟨hE, hhex⟩ := hf.origin y _ hy'
  have heq : ev'.toSignedEvent = e' := by
    refine hf.lines.unique _ hE e' he' (hc'.trans hc.symm) ?_
    omega
  exact hf.stores_iff.2 ⟨y, heq ▸ hy'⟩

/-- The last event of an open window. -/
theorem lastEventFrom_cases (hf : Found S E h) {k : K} (hk : Hex.toUpper k = k)
    {ri : RollingIndex H} (hw : h.store.participantEventsCache.window k = some ri) :
    (∃ err, h.store.lastEventFrom k = .error err ∧ err.isStore .empty = true ∧ ri.lastIndex = -1) ∨
      ∃ p, h.Stores S p ∧ h.store.lastEventFrom k = .ok (p.hex S) ∧ p.creator = k ∧
        p.body.index = ri.lastIndex := by
  have hshow := hf.shown.window k ri hw
  have hlast : h.store.lastEventFrom k = _ := hf.shown.toRegistered.getLast_eq k
  cases hitems : ri.items.getLast? with
  | none =>
    refine .inl ⟨.store h.store.participantEventsCache.rim.name .empty, ?_, rfl,
      hshow.empty (List.getLast?_eq_none_iff.1 hitems)⟩
    simp only [hlast, hw, hitems]
  | some z =>
    obtain ⟨p, hp, hpc, hpi⟩ := hshow.item _ z (RollingIndex.getItem_lastIndex hitems)
    obtain ⟨-, rfl⟩ := hf.origin z p hp
    refine .inr ⟨p, hp, ?_, hpc.trans hk, hpi⟩
    simp only [hlast, hw, hitems]

/-- A stored event is not above the last one of the window. -/
theorem index_le (hf : Found S E h) (he : h.Stores S e) {ri : RollingIndex H}
    (hw : h.store.participantEventsCache.window e.creator = some ri) :
    e.body.index ≤ ri.lastIndex :=
  ((hf.shown.window _ ri hw).stored _ e he e.toUpper_creator.symm).1

/-- The self-parent of an event of the lines, if it is stored. -/
theorem selfParent (hf : Found S E h) (he : e ∈ E) {x : H} (hx : e.body.selfParent = some x)
    (hstored : x ∈ h.store.eventCache) : ∃ p, h.Stores S p ∧ p.hex S = x ∧
      p.creator = e.creator ∧ e.body.index = p.body.index + 1 := by
  obtain ⟨p, hp⟩ := signedEvents_isSome.2 hstored
  obtain ⟨hpE, rfl⟩ := hf.origin x p hp
  obtain ⟨p', hp', hhex, hc, hi⟩ := hf.lines.next e he _ hx
  have hbody := hf.collisionFree p' hp' p hpE hhex
  refine ⟨p, hp, rfl, ?_, hbody ▸ hi⟩
  rw [← hc, SignedEvent.creator, SignedEvent.creator, hbody]

/-- An event whose self-parent is stored and that is not stored itself comes next. -/
theorem next_of_not_stores (hf : Found S E h) (he : e ∈ E) (hnot : ¬h.Stores S e)
    (hparent : ∀ x, e.body.selfParent = some x → x ∈ h.store.eventCache) {ri : RollingIndex H}
    (hw : h.store.participantEventsCache.window e.creator = some ri) :
    e.body.index = ri.lastIndex + 1 ∧
      ((∃ x, h.store.lastEventFrom e.creator = .ok x ∧ e.body.selfParent = some x) ∨
        ∃ err, h.store.lastEventFrom e.creator = .error err ∧ err.isStore .empty = true ∧
          e.body.selfParent = none) := by
  have hnonneg := hf.lines.nonneg e he
  rcases hf.lastEventFrom_cases e.toUpper_creator hw with
    ⟨err, hlast, herr, hempty⟩ | ⟨z, hz, hlast, hzc, hzi⟩
  · -- nothing of the creator is stored
    cases hsp : e.body.selfParent with
    | none => exact ⟨by rw [hf.lines.first e he hsp, hempty]; rfl, .inr ⟨err, hlast, herr, rfl⟩⟩
    | some x =>
      obtain ⟨p, hp, -, hpc, hpi⟩ := hf.selfParent he hsp (hparent x hsp)
      have hle := hf.index_le hp (hpc ▸ hw)
      have hp0 := hf.lines.nonneg p (hf.origin _ p hp).1
      omega
  · have hzE := (hf.origin _ z hz).1
    have hlt : z.body.index < e.body.index := by
      by_contra hle
      exact hnot (hf.stores_earlier hz he hzc.symm (by omega))
    cases hsp : e.body.selfParent with
    | none =>
      have hfirst := hf.lines.first e he hsp
      have hz0 := hf.lines.nonneg z hzE
      omega
    | some x =>
      obtain ⟨p, hp, rfl, hpc, hpi⟩ := hf.selfParent he hsp (hparent x hsp)
      have hle := hf.index_le hp (hpc ▸ hw)
      obtain rfl : p = z := hf.lines.unique p (hf.origin _ p hp).1 z hzE (hpc.trans hzc.symm)
        (by omega)
      exact ⟨by omega, .inl ⟨_, hlast, rfl⟩⟩

/-- Such an event is accepted, if its signature is good and the other-parent is stored. -/
theorem accepts (hf : Found S E h) (he : e ∈ E) (hnot : ¬h.Stores S e)
    (hparents : ∀ x, e.body.selfParent = some x ∨ e.body.otherParent = some x →
      x ∈ h.store.eventCache) (hopen : h.store.participantEventsCache.window e.creator ≠ none)
    (hverify : e.verify S = .ok true) (wire : WireInfo) (fill : Bool)
    (hfill : fill = true → Wirable h.store e) : Accepts S rt h ⟨e, wire, fill⟩ := by
  obtain ⟨ri, hri⟩ := Option.ne_none_iff_exists'.1 hopen
  obtain ⟨hnext, hself⟩ := hf.next_of_not_stores he hnot (fun x hx => hparents x (.inl hx)) hri
  have hplaceable : Placeable S h.store e fill := by
    refine ⟨hfill, .inr ⟨ri, hri, .inr ⟨?_, hnext.le⟩⟩⟩
    unfold RollingIndex.oldestCachedIndex
    omega
  obtain ⟨-, -, h', -, -, -, -, hexec⟩ := exec_insertEvent_of_placeable rt wire
    ⟨hverify, hself, fun x hx => hparents x (.inr hx)⟩ hplaceable
  exact congrArg Prod.fst hexec

/-- A stored event is refused, in the way that a sync takes for normal. -/
theorem checkEvent_of_stores (hf : Found S E h) (he : h.Stores S e)
    (hverify : e.verify S = .ok true) : checkEvent S h.store e =
      .error (.selfParent "Self-parent not last known event by creator" true) := by
  obtain ⟨ri, hri⟩ := Option.ne_none_iff_exists'.1 (hf.shown.creator _ e he)
  have hle := hf.index_le he hri
  have hnonneg := hf.lines.nonneg e (hf.origin _ e he).1
  rcases hf.lastEventFrom_cases e.toUpper_creator hri with
    ⟨err, -, -, hempty⟩ | ⟨z, hz, hlast, -, hzi⟩
  · omega
  · have hne : e.body.selfParent ≠ some (z.hex S) := by
      intro hsp
      obtain ⟨p, hp, hhex, -, hpi⟩ := hf.selfParent (hf.origin _ e he).1 hsp
        (signedEvents_isSome.1 ⟨z, hz⟩)
      have hbody := hf.collisionFree p (hf.origin _ p hp).1 z (hf.origin _ z hz).1 hhex
      rw [hbody] at hpi
      omega
    simp only [checkEvent, hverify, checkSelfParent, hlast, if_neg hne, bind, Except.bind]
    rfl

end Found

end Hashgraph

/-- A hashgraph that has the keys of `Q` and the parents reads what was sent. -/
theorem Sent.exists_read {S : Scheme H K} {Q : Set K} {E : Set (SignedEvent H K)} {w : WireEvent K}
    {e : SignedEvent H K} (h : Sent S Q E w e) {hg : Hashgraph H K} (hf : hg.Found S E)
    (hQ : DistinctKeys Q) (hkeys : ∀ k, k ∈ hg.store.peerSetCache.repertoireByPubKey ↔ k ∈ Q)
    (hparents : ∀ x, e.body.selfParent = some x ∨ e.body.otherParent = some x →
      x ∈ hg.store.eventCache) :
    ∃ wire, Hashgraph.readWireInfo hg.store w = .ok (e, wire) := by
  have hids : hg.store.peerSetCache.DistinctIDs := by
    intro k k' p p' hp hp' hid
    refine hQ k ((hkeys k).1 (Map.mem_iff_lookup.2 ⟨p, hp⟩)) k'
      ((hkeys k').1 (Map.mem_iff_lookup.2 ⟨p', hp'⟩)) ?_
    rwa [p.id_eq, p'.id_eq, hf.consistent.pubKey k p hp, hf.consistent.pubKey k' p' hp'] at hid
  -- a parent is found under its creator and its index
  have hfind : ∀ {p : SignedEvent H K}, p ∈ E → p.hex S ∈ hg.store.eventCache →
      hg.store.participantEvent p.creator p.body.index = .ok (p.hex S) := by
    intro p hp hmem
    obtain ⟨ev, hev⟩ := Map.mem_iff_lookup.1 hmem
    obtain ⟨hevE, hhex⟩ := hf.origin _ ev.toSignedEvent (signedEvents_eq_some.2 ⟨ev, hev, rfl⟩)
    have hbody : ev.body = p.body := hf.collisionFree _ hevE p hp hhex
    have hfound := (hf.chains.participantEvent_eq (InmemStore.getEvent_eq_ok.2 hev)).2
    rwa [SignedEvent.creator, hbody] at hfound
  obtain ⟨k, hkQ, hid, hkc, hwf, hkeq⟩ := h.creator
  obtain ⟨q, hq, rfl⟩ := hf.consistent.lookup_id hids ((hkeys k).2 hkQ)
  refine ⟨_, Hashgraph.readWireInfo_ok.2 ⟨q, hid ▸ hq, hwf, Hashgraph.readParent_ok.2 ?_,
    Hashgraph.readOtherParent_ok.2 ?_, hkc.symm, h.blockSignatures.symm, h.transactions.symm,
    h.internalTransactions.symm, h.index.symm, h.timestamp.symm, h.signature.symm, rfl⟩⟩
  · cases hsp : e.body.selfParent with
    | none => exact .inl ⟨h.selfParent.1 hsp, rfl⟩
    | some x =>
      obtain ⟨p, hp, rfl, hpc, hpi⟩ := h.selfParent.2 x hsp
      have hkey : q.pubKeyString = p.creator := by
        rw [hpc, hkeq (by rw [hsp]; exact Option.some_ne_none _)]
      refine .inr ⟨hpi ▸ hf.lines.nonneg p hp, _, ?_, rfl⟩
      rw [hkey, ← hpi]
      exact hfind hp (hparents _ (.inl hsp))
  · cases hop : e.body.otherParent with
    | none => exact .inl ⟨h.otherParent.1 hop, rfl⟩
    | some x =>
      obtain ⟨p, hp, rfl, hpQ, hpid, hpi⟩ := h.otherParent.2 x hop
      obtain ⟨q', hq', hqk⟩ := hf.consistent.lookup_id hids ((hkeys _).2 hpQ)
      rw [p.decode_creator] at hq'
      refine .inr ⟨hpi ▸ hf.lines.nonneg p hp, q', _, hpid ▸ hq', ?_, rfl⟩
      rw [hqk, ← hpi]
      exact hfind hp (hparents _ (.inr hop))

/-! ## What a node with fixed peers keeps -/

namespace PoolCore

variable {S : Scheme H K} {rt : Runtime} {v : Validator} {app : Application K}
  {clock : ℕ → Int64} {Q : Set K} {O : Set (SignedEvent H K)} {W : Set (WireEvent K)}
  {U : Universe S} {P : PeerSet K} {size : ℕ} {M : List (SignedEvent H K)}
  {B : Set (SignedEvent H K)} {s s' : PoolCore H K}

/-- A call keeps what the insertion of an event of the lines keeps. -/
theorem stable_feed {J : Hashgraph H K → Prop} (hJ : Hashgraph.Stable J) {i : Session.Input H K}
    (hcount : ∀ h n, J h → J { h with topologicalIndex := n })
    (hadds : ∀ h h', Hashgraph.Adds S i.event i.wire i.fill h h' → J h → J h')
    {E : Set (SignedEvent H K)} (hs : s.hg.Stacked S E)
    (hacc : Hashgraph.Accepts S rt s.hg i → CollisionFree S E ∧ Lines S E ∧ i.event ∈ E) :
    J s.hg → J (Session.feed S rt (commitCallback S v app) s i).hg := by
  refine hJ.feed (fun b t ht => (hJ.across b).commitCallback (core (submit _ _ t)) ht) fun hj => ?_
  by_cases ha : Hashgraph.Accepts S rt s.hg i
  · obtain ⟨hcol, hlines, hE⟩ := hacc ha
    rcases hs.insertEvent_cases rt hcol hE (hlines.indexFollows hcol hs hE) with ⟨n, -, he⟩ | hadd
    · rw [he]
      exact hcount _ n hj
    · exact hadds _ _ hadd hj
  · obtain ⟨n, -, he⟩ := Hashgraph.exec_insertEvent_of_not_accepts ha
    rw [he]
    exact hcount _ n hj

/-- The hashgraph leaves the heads of the peers to the core. -/
theorem heads_feed (s : PoolCore H K) (i : Session.Input H K) :
    (Session.feed S rt (commitCallback S v app) s i).host.heads = s.host.heads := by
  have hun : Session.Unshelved fun s s' : PoolCore H K => s'.host.heads = s.host.heads :=
    fun s hg _ => rfl
  refine hun.feed (fun h h' => h'.trans h) (fun fr s => ?_) s i
  rw [Session.commitFrame_eq]
  split_ifs <;> rfl

/-- What a node with fixed peers relies on : the events of the others are lines under other
keys, the keys of the peers have different identifiers, and there is room for the events `M`. -/
structure Setting (v : Validator) (app : Application K) (Q : Set K) (O : Set (SignedEvent H K))
    (U : Universe S) (P : PeerSet K) (M : List (SignedEvent H K)) (size : ℕ) : Prop where
  lines : Lines S O
  foreign : ∀ e ∈ O, e.creator ≠ (v.publicKeyHex : K)
  distinct : DistinctKeys Q
  keys : ∀ k, k ∈ Q ↔ ∃ p ∈ P.peers, p.pubKeyString = k
  static : app.Static
  bodies : ∀ e ∈ M, e.body ∈ U.bodies
  room : M.length ≤ size

/-- The known events are told apart by their hashes, and come from `M`. -/
def Known (S : Scheme H K) (O : Set (SignedEvent H K)) (M : List (SignedEvent H K))
    (j : Journal H K) : Prop :=
  CollisionFree S (j.among O) ∧ ∀ e ∈ j.among O, e ∈ M

theorem Known.mono {j j' : Journal H K} (hp : j.entries <+: j'.entries) (h : Known S O M j') :
    Known S O M j :=
  ⟨h.1.mono (Journal.among_mono O hp), fun e he => h.2 e (Journal.among_mono O hp he)⟩

/-- The node has its annals, the windows of its peers are open, and the events of `B` and the
heads of its peers are stored. -/
structure Resident (B : Set (SignedEvent H K)) (Q : Set K) (U : Universe S) (P : PeerSet K)
    (rt : Runtime) (size : ℕ) (proxy : ProxyCommitCallback K) (s : PoolCore H K) : Prop where
  annals : s.hg.Annals U P rt size proxy
  opens : s.hg.Opens Q
  stored : ∀ e ∈ B, s.hg.Stores S e
  heads : ∀ id ev, s.host.heads.lookup id = some (some ev) → s.hg.Stores S ev

namespace Resident

theorem with_stored (hr : Resident B Q U P rt size app.commit s) {B' : Set (SignedEvent H K)}
    (hstored : ∀ e ∈ B', s.hg.Stores S e) : Resident B' Q U P rt size app.commit s :=
  { hr with stored := hstored }

/-- The keys in the repertoire are those of the peers. -/
theorem mem_repertoire (hset : Setting v app Q O U P M size)
    (hr : Resident B Q U P rt size app.commit s) (k : K) :
    k ∈ s.hg.store.peerSetCache.repertoireByPubKey ↔ k ∈ Q := by
  obtain ⟨st, hst, heq⟩ := Hashgraph.init_cases (Hashgraph.init_initial (H := H) 0 P)
  have hpsc : s.hg.store.peerSetCache = st.peerSetCache := hr.annals.peers.trans (by rw [heq]; rfl)
  rw [hpsc, hset.keys,
    PeerSetCache.mem_repertoireByPubKey_set (InmemStore.peerSetCache_setPeerSet hst)]
  exact or_iff_right fun hk => by cases hk

/-- Its events are found under their creators and indexes. -/
theorem found (hset : Setting v app Q O U P M size) (hp : Known S O M s.host.journal)
    (hc : Citizen S v Q O W s) (hr : Resident B Q U P rt size app.commit s) :
    s.hg.Found S (s.host.journal.among O) :=
  { hc.serving.toStacked with
    chains := hr.annals.replica.stocked.listed.chains
    lines := hc.toOwned.among_lines hset.lines hset.foreign
    collisionFree := hp.1 }

end Resident

/-- An event that is stored over what is stored replaces nothing. -/
theorem stores_update {E : Set (SignedEvent H K)} (hlines : Lines S E) (hcol : CollisionFree S E)
    {h h' : Hashgraph H K} {event e : SignedEvent H K} (hevent : event ∈ E) (he : e ∈ E)
    (hsigned : signedEvents h'.store.eventCache =
      Function.update (signedEvents h.store.eventCache) (event.hex S) (some event)) :
    h.Stores S e → h'.Stores S e := by
  intro hs
  rw [Hashgraph.Stores, hsigned, Function.update_apply]
  split_ifs with hhex
  · have hbody := hcol e he event hevent hhex
    rw [hlines.unique e he event hevent (by rw [SignedEvent.creator, hbody, SignedEvent.creator])
      (by rw [hbody])]
  · exact hs

namespace Citizen

/-- An own event on top of the head claims the next index. -/
theorem index_eq (hc : Citizen S v Q O W s) (hf : s.hg.Found S (s.host.journal.among O))
    {event : SignedEvent H K} (hevent : event ∈ s.host.journal.among O)
    (hparent : event.body.selfParent = s.host.head) : event.body.index = s.host.seq + 1 := by
  obtain ⟨q, ht⟩ := hc.tracked
  cases hhead : s.host.head with
  | none =>
    rw [hf.lines.first event hevent (hparent.trans hhead), ht.tip.seq_none hhead]
    rfl
  | some x =>
    obtain ⟨e, he, -, hi⟩ := ht.tip.head_some x hhead
    obtain ⟨p, hp, hhex, -, hpi⟩ := hf.selfParent hevent (hparent.trans hhead)
      (signedEvents_isSome.1 ⟨e, he⟩)
    rw [Hashgraph.Stores, hhex, he] at hp
    rw [hpi, ← Option.some.inj hp, hi]

variable (rt app) in
/-- An event that was read and is inserted : it is stored, or refused, and the others stay. -/
theorem stores_takeEvent (hc : Citizen S v Q O W s) (hf : s.hg.Found S (s.host.journal.among O))
    {event : SignedEvent H K} (hevent : event ∈ s.host.journal.among O) (wire : WireInfo) :
    (∀ e, s.hg.Stores S e → (PoolCore.takeEvent S rt v app event wire s).hg.Stores S e) ∧
      ((Exec.exec (insertEventAndRunConsensus S rt v app event wire false) (noteRead event s)).1 =
        .ok () → (PoolCore.takeEvent S rt v app event wire s).hg.Stores S event) := by
  obtain ⟨q, ht⟩ := hc.tracked
  have ht₁ : Tracked S v q (noteRead event s) := ht.of_eq rfl rfl rfl
  rw [PoolCore.takeEvent]
  rcases ht₁.insert rt app ⟨event, wire, false⟩ fun _ => hc.index_eq hf hevent with
    ⟨err, ti, he⟩ | ⟨q', s', t, he, -, -, hsigned, -, -⟩
  · rw [he]
    refine ⟨fun e he => he, ?_⟩
    rintro ⟨⟩
  · rw [he]
    refine ⟨fun e he => stores_update hf.lines hf.collisionFree hevent (hf.origin _ e he).1
      hsigned he, fun _ => ?_⟩
    rw [Hashgraph.Stores, hsigned, Function.update_self]

/-- An own event is made : the others stay. -/
theorem stores_makeEvent (hc : Citizen S v Q O W s) {event : SignedEvent H K}
    (hcreator : event.creator = (v.publicKeyHex : K)) (hindex : event.body.index = s.host.seq + 1)
    (hlines : Lines S ((PoolCore.makeEvent S rt v app event s).host.journal.among O))
    (hcol : CollisionFree S ((PoolCore.makeEvent S rt v app event s).host.journal.among O))
    {e : SignedEvent H K} (he : s.hg.Stores S e) :
    (PoolCore.makeEvent S rt v app event s).hg.Stores S e := by
  have hsub := among_makeEvent S rt v app O event s
  rcases hc.toKept.makeEvent rt app hcreator hindex with
    ⟨ti, hs'⟩ | ⟨s', hs', hent, -, -, hsigned, -⟩
  · rw [hs']
    exact he
  · rw [hs'] at hsub hlines hcol ⊢
    refine stores_update hlines hcol (.inr (Journal.mem_made.2 ?_))
      (hsub (hc.serving.origin _ e he).1) hsigned he
    rw [hent]
    simp

end Citizen

namespace Resident

/-- The node makes an event. -/
theorem makeEvent (hset : Setting v app Q O U P M size) (hc : Citizen S v Q O W s)
    (hr : Resident B Q U P rt size app.commit s) {sigs : List BlockSignature}
    (hsigs : sigs.Perm (s.host.selfBlockSignatures.toPairs.map Prod.snd)) {otherHead : Option H}
    {t : Int64} {event : SignedEvent H K} (he : event = selfEvent S v s sigs otherHead t)
    (hp : Known S O M (PoolCore.makeEvent S rt v app event s).host.journal) :
    Citizen S v Q O W (PoolCore.makeEvent S rt v app event s) ∧
      Resident B Q U P rt size app.commit (PoolCore.makeEvent S rt v app event s) := by
  obtain ⟨hc', hannals⟩ := ((steadyOn_annals rt W P hset.lines hset.foreign hset.distinct hset.static
    hset.bodies hset.room).own s sigs otherHead t hsigs event he).2 hp ⟨hc, hr.annals⟩
  rw [← PoolCore.makeEvent] at hc' hannals
  have hlines := hc'.toOwned.among_lines hset.lines hset.foreign
  have hkeeps : ∀ e, s.hg.Stores S e → (PoolCore.makeEvent S rt v app event s).hg.Stores S e :=
    fun e => hc.stores_makeEvent (by rw [he]; rfl) (by rw [he]; rfl) hlines hp.1
  refine ⟨hc', hannals, ?_, fun e he => hkeeps e (hr.stored e he),
    fun id ev hev => hkeeps ev (hr.heads id ev ?_)⟩
  · obtain ⟨q, ht⟩ := hc.tracked
    rw [hg_makeEvent]
    refine stable_feed Hashgraph.Opens.stable (fun _ _ ho => ⟨ho.registered, ho.window⟩)
      (fun _ _ ha ho => ho.adds ha)
      (hc.serving.mono (among_makeEvent S rt v app O event s)).toStacked
      (fun hacc => ⟨hp.1, hlines, ?_⟩) hr.opens
    rcases entries_makeEvent_cases rt v app ht.sound event with
      ⟨hno, -⟩ | ⟨-, hent⟩
    · exact absurd hacc hno
    · exact .inr (Journal.mem_made.2 (by rw [hent]; simp))
  · rw [← hev]
    obtain ⟨head, seq, heq | heq⟩ := makeEvent_eq S rt v app event s <;> rw [heq] <;>
      exact congrArg _ (heads_feed s _).symm

/-- The node inserts an event that it has read. -/
theorem takeEvent (hset : Setting v app Q O U P M size) (hc : Citizen S v Q O W s)
    (hr : Resident B Q U P rt size app.commit s) {event : SignedEvent H K} {wire : WireInfo}
    (hread : ∃ w ∈ W, Hashgraph.readWireInfo s.hg.store w = .ok (event, wire))
    (hp : Known S O M s.host.journal) :
    Citizen S v Q O W (PoolCore.takeEvent S rt v app event wire s) ∧
      Resident B Q U P rt size app.commit (PoolCore.takeEvent S rt v app event wire s) ∧
      ((Exec.exec (insertEventAndRunConsensus S rt v app event wire false) (noteRead event s)).1 =
        .ok () → (PoolCore.takeEvent S rt v app event wire s).hg.Stores S event) := by
  have hf := found hset hp hc hr
  have hevent : event ∈ s.host.journal.among O := by
    obtain ⟨w, hw, hread⟩ := hread
    obtain ⟨e, hs⟩ := hc.sent w hw
    rw [hs.read hf.lines hset.distinct hf.toStacked hc.within.repertoire hread]
    exact hs.mem
  have hp' : Known S O M (PoolCore.takeEvent S rt v app event wire s).host.journal := by
    unfold Known Journal.among
    rwa [made_noteRead (entries_takeEvent S rt v app event wire s)]
  obtain ⟨hc', hannals⟩ := ((steadyOn_annals rt W P hset.lines hset.foreign hset.distinct hset.static
    hset.bodies hset.room).read s event wire hread).2 hp' ⟨hc, hr.annals⟩
  rw [← PoolCore.takeEvent] at hc' hannals
  obtain ⟨hkeeps, hnew⟩ := hc.stores_takeEvent rt app hf hevent wire
  refine ⟨hc', ⟨hannals, ?_, fun e he => hkeeps e (hr.stored e he),
    fun id ev hev => hkeeps ev (hr.heads id ev ?_)⟩, hnew⟩
  · rw [hg_takeEvent]
    exact stable_feed (s := noteRead event s) Hashgraph.Opens.stable
      (fun _ _ ho => ⟨ho.registered, ho.window⟩) (fun _ _ ha ho => ho.adds ha) hf.toStacked
      (fun _ => ⟨hf.collisionFree, hf.lines, hevent⟩) hr.opens
  · rw [← hev]
    obtain ⟨head, seq, heq⟩ := insert_eq S rt v app event wire false (noteRead event s)
    rw [PoolCore.takeEvent, heq]
    exact congrArg _ (heads_feed (noteRead event s) _).symm

theorem of_heads (hr : Resident B Q U P rt size app.commit s)
    {heads : Map UInt32 (Option (SignedEvent H K))}
    (hheads : ∀ id ev, heads.lookup id = some (some ev) → s.hg.Stores S ev) :
    Resident B Q U P rt size app.commit { s with host := { s.host with heads := heads } } :=
  ⟨hr.annals, hr.opens, hr.stored, hheads⟩

theorem deleteHead (hr : Resident B Q U P rt size app.commit s) (id : UInt32) :
    Resident B Q U P rt size app.commit (PoolCore.deleteHead id s) := by
  refine hr.of_heads fun id' ev hev => hr.heads id' ev ?_
  by_cases hid : id' = id
  · rw [hid, AList.lookup_erase] at hev
    cases hev
  · rwa [AList.lookup_erase_ne hid] at hev

theorem passHead (hr : Resident B Q U P rt size app.commit s) (id : UInt32) (index : ℤ) :
    Resident B Q U P rt size app.commit (PoolCore.passHead id index s) := by
  unfold PoolCore.passHead
  split
  · split_ifs
    · exact hr.deleteHead id
    · exact hr
  · exact hr

theorem setHead (hr : Resident B Q U P rt size app.commit s) (fromID : UInt32)
    {otherHead : Option (SignedEvent H K)} (hother : ∀ ev ∈ otherHead, s.hg.Stores S ev) :
    Resident B Q U P rt size app.commit (PoolCore.setHead fromID otherHead s) := by
  have hinsert : Resident B Q U P rt size app.commit
      { s with host := { s.host with heads := s.host.heads.insert fromID otherHead } } := by
    refine hr.of_heads fun id ev hev => ?_
    rw [Map.lookup_insert_ite] at hev
    split_ifs at hev
    · exact hother ev (Option.some.inj hev)
    · exact hr.heads id ev hev
  unfold PoolCore.setHead
  split
  · split
    · split_ifs
      · exact hinsert
      · exact hr
    · exact hr
  · exact hinsert

end Resident

/-- Only the heads change. -/
theorem passHead_eq (id : UInt32) (index : ℤ) (s : PoolCore H K) : ∃ heads,
    passHead id index s = { s with host := { s.host with heads := heads } } := by
  unfold passHead
  split
  · split_ifs
    · exact ⟨_, rfl⟩
    · exact ⟨s.host.heads, rfl⟩
  · exact ⟨s.host.heads, rfl⟩

theorem setHead_eq (fromID : UInt32) (otherHead : Option (SignedEvent H K)) (s : PoolCore H K) :
    ∃ heads, setHead fromID otherHead s = { s with host := { s.host with heads := heads } } := by
  unfold setHead
  split
  · split
    · split_ifs
      · exact ⟨_, rfl⟩
      · exact ⟨s.host.heads, rfl⟩
    · exact ⟨s.host.heads, rfl⟩
  · exact ⟨_, rfl⟩

theorem Citizen.of_heads (hc : Citizen S v Q O W s)
    (heads : Map UInt32 (Option (SignedEvent H K))) :
    Citizen S v Q O W { s with host := { s.host with heads := heads } } :=
  hc.of_host rfl rfl rfl rfl rfl

theorem Known.of_made {j j' : Journal H K} (h : Known S O M j) (hmade : j'.made = j.made) :
    Known S O M j' := by
  unfold Known Journal.among
  rwa [hmade]

/-- Events are read from `W` and inserted : the head that is found is stored. -/
theorem resident_syncEvents (hset : Setting v app Q O U P M size) (fromID : UInt32)
    {events : List (WireEvent K)} (hW : ∀ w ∈ events, w ∈ W) :
    ∀ {s : PoolCore H K} {otherHead}, Citizen S v Q O W s →
      Resident B Q U P rt size app.commit s → Known S O M s.host.journal →
      (∀ ev ∈ otherHead, s.hg.Stores S ev) →
      Citizen S v Q O W (Exec.exec (syncEvents S rt v app fromID otherHead events) s).2 ∧
        Resident B Q U P rt size app.commit
          (Exec.exec (syncEvents S rt v app fromID otherHead events) s).2 ∧
        ∀ head, (Exec.exec (syncEvents S rt v app fromID otherHead events) s).1 = .ok head →
          ∀ ev ∈ head,
            (Exec.exec (syncEvents S rt v app fromID otherHead events) s).2.hg.Stores S ev := by
  induction events generalizing B with
  | nil =>
    intro s otherHead hc hr _ hother
    refine ⟨hc, hr, fun head hhead => ?_⟩
    cases hhead
    exact hother
  | cons we rest ih =>
    intro s otherHead hc hr hp hother
    have ih := fun {B : Set (SignedEvent H K)} =>
      @ih B fun w hw => hW w (List.mem_cons_of_mem we hw)
    simp only [syncEvents, Exec.exec_bind, Exec.exec_get, Exec.exec_ofExcept]
    cases hread : Hashgraph.readWireInfo s.hg.store we with
    | error err =>
      refine ⟨hc, hr, ?_⟩
      rintro head ⟨⟩
    | ok read =>
      obtain ⟨ev, wire⟩ := read
      -- the head so far stays among the stored events
      have hr₀ : Resident (B ∪ {e | e ∈ otherHead}) Q U P rt size app.commit s :=
        hr.with_stored fun e he => he.elim (hr.stored e) (hother e)
      obtain ⟨hc', hr', hnew⟩ := Resident.takeEvent hset hc hr₀
        ⟨we, hW we List.mem_cons_self, hread⟩ hp
      have hp' : Known S O M (takeEvent S rt v app ev wire s).host.journal :=
        hp.of_made (made_noteRead (entries_takeEvent S rt v app ev wire s))
      rw [takeEvent] at hc' hr' hnew hp'
      simp only [Exec.exec_modify, Exec.exec_attempt]
      generalize Exec.exec (insertEventAndRunConsensus S rt v app ev wire false) (noteRead ev s) =
        res at hc' hr' hnew hp' ⊢
      obtain ⟨err | _, t⟩ := res
      · have hrB := hr'.with_stored fun e he => hr'.stored e (.inl he)
        simp only
        split_ifs
        · exact ih hc' hrB hp' fun ev' hev' => hr'.stored ev' (.inr hev')
        · refine ⟨hc', hrB, ?_⟩
          rintro head ⟨⟩
      · simp only [Exec.exec_bind, Exec.exec_modify]
        have hr'' := hr'.passHead we.body.creatorID we.body.index
        obtain ⟨heads, heq⟩ := passHead_eq we.body.creatorID we.body.index t
        rw [heq] at hr'' ⊢
        refine ih (hc'.of_heads heads) (hr''.with_stored fun e he => hr''.stored e (.inl he)) hp'
          fun ev' hev' => ?_
        split_ifs at hev'
        · obtain rfl := Option.some.inj hev'
          exact hnew rfl
        · exact hr'.stored ev' (.inr hev')

/-- A node with fixed peers keeps what it has to, whatever is delivered to it from `W`. -/
theorem learnsOn_resident (hset : Setting v app Q O U P M size) :
    LearnsOn S rt v app W (Maintains (Known S O M) fun s =>
      Citizen S v Q O W s ∧ Resident B Q U P rt size app.commit s) := by
  intro fromID events hW s
  have hentries := (steadyOn_entries : SteadyOn S rt v app W _).learnsOn fromID events hW s
  refine ⟨hentries, fun hp ⟨hc, hr⟩ => ?_⟩
  have hnone : ∀ ev ∈ (none : Option (SignedEvent H K)), s.hg.Stores S ev := by rintro ev ⟨⟩
  obtain ⟨hc', hr', hhead⟩ := resident_syncEvents hset fromID hW hc hr (hp.mono hentries) hnone
  rw [Exec.exec_bind] at hp ⊢
  generalize Exec.exec (syncEvents S rt v app fromID none events) s = res at hc' hr' hhead hp ⊢
  obtain ⟨err | head, t⟩ := res
  · exact ⟨hc', hr'⟩
  · refine ⟨?_, hr'.setHead fromID (hhead head rfl)⟩
    obtain ⟨heads, heq⟩ := setHead_eq fromID head t
    change Citizen S v Q O W (setHead fromID head t)
    rw [heq]
    exact hc'.of_heads heads

variable (B rt W) in
/-- And so it does when it makes events. -/
theorem steadyOwn_resident (hset : Setting v app Q O U P M size) :
    SteadyOwn S rt v app (Maintains (Known S O M) fun s =>
      Citizen S v Q O W s ∧ Resident B Q U P rt size app.commit s) where
  refl := .refl
  trans := .trans fun hp h => h.mono hp
  tick _ n := ⟨List.prefix_rfl, fun _ h => ⟨h.1.of_hg (h.1.toKept.tick n) rfl rfl rfl rfl,
    h.2.annals.tick n, ⟨h.2.opens.registered, h.2.opens.window⟩, h.2.stored, h.2.heads⟩⟩
  submit _ _ _ := ⟨List.prefix_rfl, fun _ h => ⟨h.1.of_host rfl rfl rfl rfl rfl,
    h.2.annals, h.2.opens, h.2.stored, h.2.heads⟩⟩
  deleteHead _ id := ⟨List.prefix_rfl, fun _ h => ⟨h.1.of_heads _, h.2.deleteHead id⟩⟩
  own s _ _ _ hsigs event he := ⟨entries_makeEvent event s, fun hp h =>
    Resident.makeEvent hset h.1 h.2 hsigs he hp⟩

end PoolCore

end Babble

import Babble.Head
import Babble.FastForward

/-!
# Loading a frame

A reset clears the store and loads the events of a frame and of its roots, in consensus
order and without checks. The peers of the frame's peer-sets become the participants.
-/

set_option linter.unusedSectionVars false

namespace Babble

variable {H K : Type} [DecidableEq H] [DecidableEq K] [Hex H] [Hex K]

/-! ## Participants of a new store -/

namespace InmemStore

/-- The participants are those of `st` and the peers `ps`, as far as identifiers tell. No
root gains or loses an event. -/
structure Enrolled (ps : List (Peer K)) (st st' : InmemStore H K) : Prop where
  enrolls : st.participantEventsCache.Enrolls st'.participantEventsCache
  participant : ∀ p, p ∈ st.participantEventsCache.participants.peers ∨ p ∈ ps →
    ∃ q ∈ st'.participantEventsCache.participants.peers, q.id = p.id
  origin : ∀ q ∈ st'.participantEventsCache.participants.peers,
    q ∈ st.participantEventsCache.participants.peers ∨ q ∈ ps
  roots : ∀ k fe, (∃ root, st'.roots.lookup k = some root ∧ fe ∈ root.events) ↔
    ∃ root, st.roots.lookup k = some root ∧ fe ∈ root.events

namespace Enrolled

variable {ps ps' : List (Peer K)} {st st' st'' : InmemStore H K}

theorem refl (st : InmemStore H K) : Enrolled [] st st :=
  ⟨.refl _, fun p hp => ⟨p, hp.resolve_right List.not_mem_nil, rfl⟩, fun _ => Or.inl,
    fun _ _ => Iff.rfl⟩

theorem trans (h : Enrolled ps st st') (h' : Enrolled ps' st' st'') :
    Enrolled (ps ++ ps') st st'' := by
  refine ⟨h.enrolls.trans h'.enrolls, fun p hp => ?_, fun q hq => ?_,
    fun k fe => (h'.roots k fe).trans (h.roots k fe)⟩
  · rw [List.mem_append, ← or_assoc] at hp
    rcases hp with hp | hp
    · obtain ⟨q, hq, hid⟩ := h.participant p hp
      obtain ⟨q', hq', hid'⟩ := h'.participant q (Or.inl hq)
      exact ⟨q', hq', hid'.trans hid⟩
    · exact h'.participant p (Or.inr hp)
  · rw [List.mem_append, ← or_assoc]
    exact (h'.origin q hq).imp_left (h.origin q)

end Enrolled

theorem addRoot_eq (st : InmemStore H K) (p : Peer K) : ∃ roots,
    st.addRoot p = { st with roots := roots } ∧
      ∀ k fe, (∃ root, roots.lookup k = some root ∧ fe ∈ root.events) ↔
        ∃ root, st.roots.lookup k = some root ∧ fe ∈ root.events := by
  unfold addRoot
  cases hl : st.roots.lookup p.pubKeyString with
  | some _ => exact ⟨st.roots, rfl, fun _ _ => Iff.rfl⟩
  | none =>
    refine ⟨_, rfl, fun k fe => ?_⟩
    simp only [Map.lookup_insert_ite]
    split_ifs with hk
    · rw [hk, hl]
      simp
    · exact Iff.rfl

theorem enrolled_addParticipant (st : InmemStore H K) (p : Peer K) :
    Enrolled [p] st (st.addParticipant p) := by
  have henrolls := ParticipantEventsCache.enrolls_foldl [p] st
  rw [List.foldl_cons, List.foldl_nil] at henrolls
  unfold addParticipant at henrolls ⊢
  cases hp : st.participantEventsCache.participants.byID.lookup p.id with
  | some q =>
    obtain ⟨roots, he, hroots⟩ := st.addRoot_eq p
    simp only [hp, he] at henrolls ⊢
    refine ⟨henrolls, fun r hr => ?_, fun _ => Or.inl, hroots⟩
    rw [List.mem_singleton] at hr
    rcases hr with hr | rfl
    · exact ⟨r, hr, rfl⟩
    · by_contra hno
      push Not at hno
      rw [PeerSet.lookup_byID_eq_none.2 hno] at hp
      cases hp
  | none =>
    have hpeers : (st.participantEventsCache.addPeer p).2.participants.peers =
        st.participantEventsCache.participants.peers ++ [p] := by
      unfold ParticipantEventsCache.addPeer
      cases st.participantEventsCache.rim.addKey p.id <;>
        simp only [PeerSet.withNewPeer, hp]
    simp only [hp] at henrolls ⊢
    generalize st.participantEventsCache.addPeer p = res at hpeers henrolls ⊢
    obtain ⟨res, pec⟩ := res
    have hmem : ∀ r, r ∈ pec.participants.peers ↔
        r ∈ st.participantEventsCache.participants.peers ∨ r ∈ [p] := by
      intro r
      rw [← List.mem_append]
      exact hpeers ▸ Iff.rfl
    cases res with
    | error err =>
      exact ⟨henrolls, fun r hr => ⟨r, (hmem r).2 hr, rfl⟩, fun r => (hmem r).1, fun _ _ => Iff.rfl⟩
    | ok _ =>
      obtain ⟨roots, he, hroots⟩ := addRoot_eq { st with participantEventsCache := pec } p
      simp only [he] at henrolls ⊢
      exact ⟨henrolls, fun r hr => ⟨r, (hmem r).2 hr, rfl⟩, fun r => (hmem r).1, hroots⟩

theorem enrolled_foldl (ps : List (Peer K)) (st : InmemStore H K) :
    Enrolled ps st (ps.foldl addParticipant st) := by
  induction ps generalizing st with
  | nil => exact .refl st
  | cons p ps ih => exact (enrolled_addParticipant st p).trans (ih _)

theorem enrolled_setPeerSet {st st' : InmemStore H K} {r : ℤ} {P : PeerSet K}
    (h : st.setPeerSet r P = .ok st') : Enrolled P.peers st st' := by
  unfold setPeerSet at h
  cases hset : st.peerSetCache.set r P with
  | error err => rw [hset] at h; cases h
  | ok psc =>
    rw [hset] at h
    obtain rfl := Except.ok.inj h
    have hfold := enrolled_foldl P.peers { st with peerSetCache := psc }
    generalize P.peers.foldl addParticipant { st with peerSetCache := psc } = t at hfold
    have hsync : ∃ fc, t.syncSharedRoots = { t with frameCache := fc } := by
      unfold syncSharedRoots
      split
      · exact ⟨t.frameCache, rfl⟩
      · split
        · exact ⟨t.frameCache, rfl⟩
        · exact ⟨_, rfl⟩
    obtain ⟨fc, hfc⟩ := hsync
    rw [hfc]
    exact ⟨hfold.enrolls, hfold.participant, hfold.origin, hfold.roots⟩

end InmemStore

/-- The repertoire gains the peers of a peer-set that is recorded. -/
theorem PeerSetCache.mem_repertoireByID_set {c c' : PeerSetCache K} {r : ℤ} {P : PeerSet K}
    (h : c.set r P = .ok c') (i : UInt32) :
    i ∈ c'.repertoireByID ↔ i ∈ c.repertoireByID ∨ ∃ p ∈ P.peers, p.id = i := by
  unfold PeerSetCache.set at h
  cases hl : c.peerSets.lookup r with
  | some _ => rw [hl] at h; cases h
  | none =>
    rw [hl] at h
    obtain rfl := Except.ok.inj h
    rw [repertoireByID_foldl, Map.mem_foldl_insert]

/-! ## Frames -/

namespace Frame

/-- An event of the frame or of one of its roots. -/
def Holds (frame : Frame H K) (a : FrameEvent H K) : Prop :=
  a ∈ frame.events ∨ ∃ k root, frame.roots.lookup k = some root ∧ a ∈ root.events

/-- A peer of one of the peer-sets. -/
def Lists (frame : Frame H K) (p : Peer K) : Prop :=
  ∃ r ps, frame.peerSets.lookup r = some ps ∧ p ∈ ps

theorem mem_peers {frame : Frame H K} {p : Peer K} :
    p ∈ frame.peerSets.toPairs.flatMap Prod.snd ↔ frame.Lists p := by
  simp only [List.mem_flatMap, Prod.exists, Map.mem_toPairs]
  exact Iff.rfl

end Frame

/-- The store that a frame is loaded into : the peers of the frame are the participants, and
there are no events yet. -/
structure InmemStore.Cleared (frame : Frame H K) (st : InmemStore H K) : Prop where
  eventCache : st.eventCache = ∅
  roundCache : st.roundCache = ∅
  lastRound : st.lastRound = -1
  lastConsensusEvents : st.lastConsensusEvents = ∅
  frames : ∀ j, j ∈ st.frameCache → j = frame.round
  peerSets : st.peerSetCache.Records fun r => (frame.peerSets.lookup r).map PeerSet.mk
  repertoire : ∀ i, i ∈ st.peerSetCache.repertoireByID ↔ ∃ p, frame.Lists p ∧ p.id = i
  tip : ∀ k, Tip k none (-1) (fun _ => none) st.participantEventsCache
  participant : ∀ p, frame.Lists p → ∃ q ∈ st.participantEventsCache.participants.peers, q.id = p.id
  origin : ∀ q ∈ st.participantEventsCache.participants.peers, frame.Lists q
  roots : ∀ a, (Frame.Holds { frame with roots := st.roots } a) ↔ frame.Holds a

namespace InmemStore

/-- Recording the peer-sets of a list with distinct rounds. -/
theorem exists_setPeerSets {l : List (ℤ × List (Peer K))} (hl : (l.map Prod.fst).Nodup)
    (st : InmemStore H K) (hst : ∀ r ∈ l.map Prod.fst, r ∉ st.peerSetCache.peerSets) :
    ∃ st' psc pec roots fc, st.setPeerSets l = .ok st' ∧
      st' = { st with
        peerSetCache := psc
        participantEventsCache := pec
        roots := roots
        frameCache := fc } ∧
      Enrolled (l.flatMap Prod.snd) st st' ∧ (∀ j, j ∈ fc → j ∈ st.frameCache) ∧
      ∀ i, i ∈ psc.repertoireByID ↔
        i ∈ st.peerSetCache.repertoireByID ∨ ∃ p ∈ l.flatMap Prod.snd, p.id = i := by
  induction l generalizing st with
  | nil => exact ⟨st, _, _, _, _, rfl, rfl, .refl st, fun _ => id, by simp⟩
  | cons a l ih =>
    obtain ⟨r, ps⟩ := a
    rw [List.map_cons, List.nodup_cons] at hl
    obtain ⟨psc, hpsc⟩ : ∃ psc, st.peerSetCache.set r ⟨ps⟩ = .ok psc := by
      rw [PeerSetCache.set, AList.lookup_eq_none.2 (hst r List.mem_cons_self)]
      exact ⟨_, rfl⟩
    obtain ⟨st₁, hst₁⟩ : ∃ st₁, st.setPeerSet r ⟨ps⟩ = .ok st₁ := by
      rw [setPeerSet, hpsc]
      exact ⟨_, rfl⟩
    have henrolled := enrolled_setPeerSet hst₁
    obtain ⟨psc', pec, roots, fc, hpsc', he₁, -, hfc⟩ := setPeerSet_eq hst₁
    obtain rfl : psc = psc' := Except.ok.inj (hpsc.symm.trans hpsc')
    obtain ⟨-, hsets, -⟩ := PeerSetCache.set_eq hpsc
    obtain ⟨st', psc₂, pec₂, roots₂, fc₂, hst', he, henrolled', hfc', hrep⟩ := ih hl.2 st₁ fun j hj => by
      rw [he₁]
      simp only [hsets, AList.mem_insert, not_or]
      exact ⟨fun hjr => hl.1 (hjr ▸ hj), hst j (List.mem_cons_of_mem _ hj)⟩
    rw [he₁] at he hfc' hrep
    refine ⟨st', psc₂, pec₂, roots₂, fc₂, ?_, he, henrolled.trans henrolled',
      fun j hj => hfc j (hfc' j hj), fun i => ?_⟩
    · rw [setPeerSets, hst₁]
      exact hst'
    · rw [hrep, PeerSetCache.mem_repertoireByID_set hpsc, List.flatMap_cons]
      simp only [List.mem_append, or_and_right, exists_or, or_assoc]

/-- A store is reset to the peer-sets of any frame. -/
theorem exists_reset (rt : Runtime) (tick : ℕ) (st : InmemStore H K) (frame : Frame H K) :
    ∃ st', st.reset rt tick frame = .ok st' ∧ Cleared frame st' := by
  have hperm := rt.order_perm tick frame.peerSets.toPairs
  have hnd : ((rt.order tick frame.peerSets.toPairs).map Prod.fst).Nodup := by
    rw [(hperm.map Prod.fst).nodup_iff, Map.map_fst_toPairs]
    exact frame.peerSets.keys_nodup
  have hlists : ∀ p, p ∈ (rt.order tick frame.peerSets.toPairs).flatMap Prod.snd ↔
      frame.Lists p := by
    intro p
    rw [← Frame.mem_peers]
    simp only [List.mem_flatMap, hperm.mem_iff]
  obtain ⟨st', psc, pec, roots, fc, hst', he, henrolled, hfc, hrep⟩ := exists_setPeerSets hnd
    { InmemStore.new st.cacheSize with
      totConsensusEvents := st.totConsensusEvents
      roots := frame.roots } fun r _ => by simp [InmemStore.new, PeerSetCache.new]
  have hreset : st.reset rt tick frame =
      .ok { st'.setFrame { frame with roots := st'.roots } with sharedRoots := some frame.round } := by
    rw [reset]
    erw [hst']
    rfl
  refine ⟨_, hreset, ?_⟩
  have hrecords := records_reset hreset
  rw [he] at henrolled hrecords ⊢
  refine
    { eventCache := rfl
      roundCache := rfl
      lastRound := rfl
      lastConsensusEvents := rfl
      frames := fun j hj => ?_
      peerSets := hrecords
      repertoire := fun i => ?_
      tip := fun k => (Tip.new k st.cacheSize).enrolls henrolled.enrolls
      participant := fun p hp => henrolled.participant p (Or.inr ((hlists p).2 hp))
      origin := fun q hq => (hlists q).1 ((henrolled.origin q hq).resolve_left List.not_mem_nil)
      roots := fun a => ?_ }
  · rcases (AList.mem_insert _).1 hj with hj | hj
    · exact hj
    · exact absurd (hfc j hj) (by simp [InmemStore.new])
  · refine (hrep i).trans ?_
    simp [InmemStore.new, PeerSetCache.new, hlists]
  · exact or_congr Iff.rfl (exists_congr fun k => henrolled.roots k a)

namespace Cleared

variable {frame : Frame H K} {st : InmemStore H K}

theorem not_mem (h : st.Cleared frame) (x : H) : x ∉ st.eventCache := by
  rw [h.eventCache]
  exact AList.notMem_empty x

theorem registered (h : st.Cleared frame) : st.participantEventsCache.Registered :=
  (h.tip (Hex.encodeToString [])).registered

/-- The windows are empty. -/
theorem items (h : st.Cleared frame) (x : H) : ¬st.participantEventsCache.Holds x := by
  rintro ⟨id, ri, hri, hx⟩
  obtain ⟨k, hk⟩ := h.registered.exists_window hri
  rw [List.getLast?_eq_none_iff.1 ((h.tip k).window ri hk).1] at hx
  exact List.not_mem_nil hx

end Cleared

end InmemStore

/-! ## Frames in order -/

namespace Frame

/-- The frame can be loaded as the frame of `round` : its events are by its peers, whom
identifiers tell apart, no two of them have one hash, and those of a creator have
consecutive indexes that grow in consensus order. -/
structure Loadable (S : Scheme H K) (round : ℤ) (frame : Frame H K) : Prop where
  nonneg : 0 ≤ round
  round_le : frame.round ≤ round
  recorded : ∃ r, r ∈ frame.peerSets
  ids : ∀ p, frame.Lists p → ∀ q, frame.Lists q → p.id = q.id → p.pubKeyString = q.pubKeyString
  creator : ∀ a, frame.Holds a → ∃ p, frame.Lists p ∧ p.pubKeyString = a.core.creator
  rounds : ∀ a, frame.Holds a → 0 ≤ a.round ∧ a.round ≤ round
  hash : ∀ a, frame.Holds a → ∀ b, frame.Holds b → a.core.hex S = b.core.hex S → a = b
  index_nonneg : ∀ a, frame.Holds a → 0 ≤ a.core.body.index
  index : ∀ a, frame.Holds a → ∀ b, frame.Holds b → a.core.creator = b.core.creator →
    a.core.body.index = b.core.body.index → a = b
  less : ∀ a, frame.Holds a → ∀ b, frame.Holds b → a.core.creator = b.core.creator →
    a.core.body.index < b.core.body.index → a.less b = true
  previous : ∀ a, frame.Holds a → ∀ b, frame.Holds b → a.core.creator = b.core.creator →
    a.core.body.index < b.core.body.index →
    ∃ c, frame.Holds c ∧ c.core.creator = b.core.creator ∧
      c.core.body.index + 1 = b.core.body.index

theorem mem_sortedFrameEvents {rt : Runtime} {tick : ℕ} {frame : Frame H K} {a : FrameEvent H K} :
    a ∈ frame.sortedFrameEvents rt tick ↔ frame.Holds a := by
  rw [sortedFrameEvents, rt.mem_sort, List.mem_append, or_comm]
  simp only [List.mem_flatMap, rt.mem_order, Prod.exists, Map.mem_toPairs]
  exact Iff.rfl

section Decidable

variable {frame : Frame H K}

instance {P : FrameEvent H K → Prop} [DecidablePred P] : Decidable (∀ a, frame.Holds a → P a) :=
  decidable_of_iff (∀ a ∈ frame.sortedFrameEvents .plain 0, P a) (by simp only [mem_sortedFrameEvents])

instance {P : FrameEvent H K → Prop} [DecidablePred P] : Decidable (∃ a, frame.Holds a ∧ P a) :=
  decidable_of_iff (∃ a ∈ frame.sortedFrameEvents .plain 0, P a) (by simp only [mem_sortedFrameEvents])

instance {P : Peer K → Prop} [DecidablePred P] : Decidable (∀ p, frame.Lists p → P p) :=
  decidable_of_iff (∀ p ∈ frame.peerSets.toPairs.flatMap Prod.snd, P p) (by simp only [mem_peers])

instance {P : Peer K → Prop} [DecidablePred P] : Decidable (∃ p, frame.Lists p ∧ P p) :=
  decidable_of_iff (∃ p ∈ frame.peerSets.toPairs.flatMap Prod.snd, P p) (by simp only [mem_peers])

end Decidable

variable {S : Scheme H K} {round : ℤ} {frame : Frame H K} {pre post : List (FrameEvent H K)}
  {a : FrameEvent H K}

/-- In consensus order an event comes after the creator's events with lower indexes, the
last of which has the index before. -/
theorem Loadable.next (h : frame.Loadable S round)
    (hmem : ∀ b, b ∈ pre ++ a :: post ↔ frame.Holds b)
    (hsorted : (pre ++ a :: post).Pairwise fun a b => b.less a = false) (hnew : a ∉ pre) :
    (∀ b ∈ pre, b.core.creator = a.core.creator → b.core.body.index < a.core.body.index) ∧
      ∀ b ∈ pre, b.core.creator = a.core.creator →
        ∃ c ∈ pre, c.core.creator = a.core.creator ∧ c.core.body.index + 1 = a.core.body.index := by
  obtain ⟨-, hafter, hbefore⟩ := List.pairwise_append.1 hsorted
  have hpre : ∀ b ∈ pre, frame.Holds b := fun b hb => (hmem b).1 (List.mem_append_left _ hb)
  have ha : frame.Holds a := (hmem a).1 (by simp)
  have hlt : ∀ b ∈ pre, b.core.creator = a.core.creator →
      b.core.body.index < a.core.body.index := by
    intro b hb hc
    by_contra hle
    rcases (not_lt.1 hle).lt_or_eq with hlt | heq
    · have hless := h.less a ha b (hpre b hb) hc.symm hlt
      rw [hbefore b hb a List.mem_cons_self] at hless
      cases hless
    · exact hnew (h.index a ha b (hpre b hb) hc.symm heq ▸ hb)
  refine ⟨hlt, fun b hb hc => ?_⟩
  obtain ⟨c, hheld, hcc, hidx⟩ := h.previous b (hpre b hb) a ha hc (hlt b hb hc)
  refine ⟨c, ?_, hcc, hidx⟩
  rcases List.mem_append.1 ((hmem c).2 hheld) with hin | hin
  · exact hin
  · -- the previous event is less than `a`, so that it does not come after `a`
    exfalso
    rcases List.mem_cons.1 hin with rfl | hin
    · omega
    · have hless := h.less c hheld a ha hcc (by omega)
      rw [List.rel_of_pairwise_cons hafter hin] at hless
      cases hless

end Frame

/-! ## One event -/

namespace Hashgraph

variable {S : Scheme H K} {rt : Runtime} {frame : Frame H K} {h₀ h h' : Hashgraph H K}
  {a : FrameEvent H K} {pre : List (FrameEvent H K)}

/-- What the loading of an event does, where `pec` are the participants' events after it. -/
def LoadedTo (S : Scheme H K) (a : FrameEvent H K) (pec : ParticipantEventsCache H K)
    (h h' : Hashgraph H K) : Prop :=
  ∃ ev ec cc, Event.toSignedEvent ev = a.core ∧
    EventsMarked (h.store.eventCache.insert (a.core.hex S) ev) ec ∧
    h' = { h with
      memo := { h.memo with
        roundCache := h.memo.roundCache.insert (a.core.hex S) a.round
        witnessCache := h.memo.witnessCache.insert (a.core.hex S) a.witness
        timestampCache := h.memo.timestampCache.insert (a.core.hex S) a.lamportTimestamp
        tick := h.memo.tick + 1 }
      store := { h.store with
        roundCache := h.store.roundCache.insert a.round
          (((h.store.roundCache.lookup a.round).getD {}).addCreatedEvent (a.core.hex S) a.witness)
        lastRound := if h.store.lastRound < a.round then a.round else h.store.lastRound
        participantEventsCache := pec
        eventCache := ec
        consensusCache := cc
        totConsensusEvents := h.store.totConsensusEvents + 1
        lastConsensusEvents := h.store.lastConsensusEvents.insert a.core.creator (a.core.hex S) } }

/-- An event of a frame is loaded if it is known or finds its place among the events of its
creator. -/
theorem returns_insertFrameEvent {wit : H → Bool} {pec : ParticipantEventsCache H K}
    (hw : ∀ x, x ∈ h.store.eventCache → h.memo.witnessCache.lookup x = some (wit x))
    (hset : a.core.hex S ∈ h.store.eventCache ∧ pec = h.store.participantEventsCache ∨
      a.core.hex S ∉ h.store.eventCache ∧
        h.store.participantEventsCache.set a.core.creator (a.core.hex S) a.core.body.index = .ok pec) :
    Exec.Returns (insertFrameEvent S rt a) h fun _ h' => LoadedTo S a pec h h' := by
  unfold insertFrameEvent
  refine Exec.Returns.bind (Exec.returns_modify ?_)
  refine Exec.Returns.bind (returns_read (getOrNewRound_eq _ _) ?_)
  refine Exec.Returns.bind (returns_modifyStore ?_)
  refine Exec.Returns.bind (Exec.returns_get ?_)
  simp only [InmemStore.setRound]
  set st : InmemStore H K := { h.store with
    roundCache := h.store.roundCache.insert a.round
      (((h.store.roundCache.lookup a.round).getD {}).addCreatedEvent (a.core.hex S) a.witness)
    lastRound := if h.store.lastRound < a.round then a.round else h.store.lastRound } with hst
  set ev := initEventCoordinates S st
    { a.core with round := some a.round, lamportTimestamp := some a.lamportTimestamp } with hev
  have hstore : st.setEvent S ev = .ok { st with
      participantEventsCache := pec
      eventCache := h.store.eventCache.insert (a.core.hex S) ev } := by
    rw [InmemStore.setEvent]
    rcases hset with ⟨hmem, rfl⟩ | ⟨hnew, hset⟩
    · obtain ⟨e, he⟩ := Map.mem_iff_lookup.1 hmem
      have hl : st.eventCache.lookup (ev.hex S) = some e := he
      rw [hl]
      rfl
    · have hl : st.eventCache.lookup (ev.hex S) = none := AList.lookup_eq_none.2 hnew
      have hp : st.participantEventsCache.set ev.creator (ev.hex S) ev.body.index = .ok pec := hset
      simp only [hl, hp]
      rfl
  refine Exec.Returns.bind (returns_tryStore hstore ?_)
  have hcached : WitnessCached (Function.update wit (a.core.hex S) a.witness) ev.creator
      { h.memo with
        roundCache := h.memo.roundCache.insert (a.core.hex S) a.round
        witnessCache := h.memo.witnessCache.insert (a.core.hex S) a.witness
        timestampCache := h.memo.timestampCache.insert (a.core.hex S) a.lamportTimestamp }
      (h.store.eventCache.insert (a.core.hex S) ev) := by
    refine witnessCached_insert (h := { h with memo := { h.memo with
        roundCache := h.memo.roundCache.insert (a.core.hex S) a.round
        witnessCache := h.memo.witnessCache.insert (a.core.hex S) a.witness
        timestampCache := h.memo.timestampCache.insert (a.core.hex S) a.lamportTimestamp } })
      (fun y hy => ?_) ⟨ownCoordinates S a.core, AList.lookup_insert _⟩ _
    rw [Map.lookup_insert_ite, Function.update_apply]
    split_ifs
    · rfl
    · exact hw y hy
  refine Exec.Returns.bind ((returns_updateAncestorFirstDescendant hcached).mono ?_)
  rintro _ _ rfl
  refine returns_modifyStore ⟨ev, _, _, rfl, eventsMarked_markAll _ _ _, rfl⟩

/-! ## All events -/

/-- The rounds hold the events `pre` of a frame, and none of them is received yet. -/
structure RoundsOf (S : Scheme H K) (pre : List (FrameEvent H K)) (rc : Map ℤ (RoundInfo H)) :
    Prop where
  created : ∀ r info x e, rc.lookup r = some info → info.createdEvents.lookup x = some e →
    ∃ a ∈ pre, a.core.hex S = x ∧ a.round = r ∧ e.witness = a.witness
  recorded : ∀ a ∈ pre, ∃ info e, rc.lookup a.round = some info ∧
    info.createdEvents.lookup (a.core.hex S) = some e
  received : ∀ r info, rc.lookup r = some info → info.receivedEvents = []

/-- What the round of a new event holds : its events so far, and the new one. -/
theorem RoundsOf.getD {rc : Map ℤ (RoundInfo H)} (h : RoundsOf S pre rc) (r : ℤ) :
    (∀ x e, ((rc.lookup r).getD {}).createdEvents.lookup x = some e →
      ∃ a ∈ pre, a.core.hex S = x ∧ a.round = r ∧ e.witness = a.witness) ∧
    ((rc.lookup r).getD {}).receivedEvents = [] := by
  cases hr : rc.lookup r with
  | none => exact ⟨nofun, rfl⟩
  | some info => exact ⟨fun x e he => h.created r info x e hr he, h.received r info hr⟩

theorem RoundsOf.insert {rc : Map ℤ (RoundInfo H)} (h : RoundsOf S pre rc) (a : FrameEvent H K) :
    RoundsOf S (pre ++ [a]) (rc.insert a.round
      (((rc.lookup a.round).getD {}).addCreatedEvent (a.core.hex S) a.witness)) := by
  obtain ⟨hcreated, hreceived⟩ := h.getD a.round
  refine ⟨fun r info x e hr hx => ?_, fun b hb => ?_, fun r info hr => ?_⟩
  · -- an old entry, or the one of `a`
    suffices hsuf : (∃ b ∈ pre, b.core.hex S = x ∧ b.round = r ∧ e.witness = b.witness) ∨
        a.core.hex S = x ∧ a.round = r ∧ e.witness = a.witness by
      rcases hsuf with ⟨b, hb, hbx⟩ | hax
      · exact ⟨b, List.mem_append_left _ hb, hbx⟩
      · exact ⟨a, by simp, hax⟩
    rw [Map.lookup_insert_ite] at hr
    split_ifs at hr with hra
    · subst hra
      obtain rfl := Option.some.inj hr
      rw [RoundInfo.lookup_addCreatedEvent] at hx
      split_ifs at hx with hxa
      · subst hxa
        cases he : ((rc.lookup a.round).getD {}).createdEvents.lookup (a.core.hex S) with
        | none =>
          rw [he] at hx
          obtain rfl := Option.some.inj hx
          exact Or.inr ⟨rfl, rfl, rfl⟩
        | some e' =>
          rw [he] at hx
          exact Or.inl (hcreated _ e (he.trans hx))
      · exact Or.inl (hcreated x e hx)
    · exact Or.inl (h.created r info x e hr hx)
  · rw [Map.lookup_insert_ite]
    rcases List.mem_append.1 hb with hb | hb
    · obtain ⟨info, e, hinfo, he⟩ := h.recorded b hb
      split_ifs with hr
      · refine ⟨_, e, rfl, ?_⟩
        rw [← hr, hinfo, Option.getD_some, RoundInfo.lookup_addCreatedEvent]
        split_ifs with hx
        · rw [← hx, he, Option.getD_some]
        · exact he
      · exact ⟨info, e, hinfo, he⟩
    · rw [List.mem_singleton.1 hb, if_pos rfl]
      exact ⟨_, _, rfl, by rw [RoundInfo.lookup_addCreatedEvent, if_pos rfl]⟩
  · rw [Map.lookup_insert_ite] at hr
    split_ifs at hr with hra
    · obtain rfl := Option.some.inj hr
      unfold RoundInfo.addCreatedEvent
      split <;> exact hreceived
    · exact h.received r info hr

/-- The events `pre` of a frame are loaded into the hashgraph `h₀`. -/
structure Loaded (S : Scheme H K) (frame : Frame H K) (h₀ : Hashgraph H K)
    (pre : List (FrameEvent H K)) (h : Hashgraph H K) : Prop where
  events : ∀ x e, signedEvents h.store.eventCache x = some e ↔
    ∃ a ∈ pre, a.core = e ∧ a.core.hex S = x
  round : ∀ a ∈ pre, h.memo.roundCache.lookup (a.core.hex S) = some a.round
  round_none : ∀ x, x ∉ h.store.eventCache → h.memo.roundCache.lookup x = none
  witness : ∀ a ∈ pre, h.memo.witnessCache.lookup (a.core.hex S) = some a.witness
  witness_none : ∀ x, x ∉ h.store.eventCache → h.memo.witnessCache.lookup x = none
  lamport : ∀ a ∈ pre, h.memo.timestampCache.lookup (a.core.hex S) = some a.lamportTimestamp
  rounds : RoundsOf S pre h.store.roundCache
  le_last : ∀ r, r ∈ h.store.roundCache → r ≤ h.store.lastRound
  last : h.store.lastRound = -1 ∨ ∃ a ∈ pre, h.store.lastRound = a.round
  consensus : ∀ k x, h.store.lastConsensusEvents.lookup k = some x → x ∈ h.store.eventCache
  items : ∀ x, h.store.participantEventsCache.Holds x → x ∈ h.store.eventCache
  tip : ∀ k, Hex.toUpper k = k → ∃ head seq,
    Tip k head seq (signedEvents h.store.eventCache) h.store.participantEventsCache
  window : ∀ k, h.store.participantEventsCache.window k ≠ none ↔
    ∃ p, frame.Lists p ∧ p.pubKeyString = Hex.toUpper k
  rest : ∃ m st, h = { h₀ with memo := m, store := st } ∧
    st.frameCache = h₀.store.frameCache ∧ st.peerSetCache = h₀.store.peerSetCache

namespace Loaded

theorem mem (hl : Loaded S frame h₀ pre h) {x : H} :
    x ∈ h.store.eventCache ↔ ∃ a ∈ pre, a.core.hex S = x := by
  rw [← signedEvents_isSome]
  simp only [hl.events]
  constructor
  · rintro ⟨e, a, ha, -, hx⟩
    exact ⟨a, ha, hx⟩
  · rintro ⟨a, ha, hx⟩
    exact ⟨a.core, a, ha, rfl, hx⟩

/-- The place of the next event among those of its creator. -/
theorem exists_set (hl : Loaded S frame h₀ pre h) (hnew : a.core.hex S ∉ h.store.eventCache)
    (hcreator : ∃ p, frame.Lists p ∧ p.pubKeyString = a.core.creator)
    (hindex : 0 ≤ a.core.body.index)
    (hlt : ∀ b ∈ pre, b.core.creator = a.core.creator → b.core.body.index < a.core.body.index)
    (hnext : ∀ b ∈ pre, b.core.creator = a.core.creator →
      ∃ c ∈ pre, c.core.creator = a.core.creator ∧ c.core.body.index + 1 = a.core.body.index) :
    ∃ pec, h.store.participantEventsCache.set a.core.creator (a.core.hex S) a.core.body.index =
        .ok pec ∧
      ∀ k, Hex.toUpper k = k → ∃ head seq, Tip k head seq (Function.update
        (signedEvents h.store.eventCache) (a.core.hex S) (some a.core)) pec := by
  obtain ⟨head, seq, htip⟩ := hl.tip a.core.creator a.core.toUpper_creator
  -- the last event of the creator has the index before, if there is one
  have hseq : seq < a.core.body.index ∧ (seq < 0 ∨ a.core.body.index = seq + 1) := by
    cases head with
    | none =>
      have := htip.seq_none rfl
      omega
    | some x =>
      obtain ⟨e, he, hc, hi⟩ := htip.head_some x rfl
      obtain ⟨b, hb, rfl, -⟩ := (hl.events x e).1 he
      have hbefore := hlt b hb hc
      obtain ⟨c, hcpre, hcc, hci⟩ := hnext b hb hc
      have hle := htip.le_seq _ c.core ((hl.events _ _).2 ⟨c, hcpre, rfl, rfl⟩) hcc
      omega
  obtain ⟨ri, hri⟩ : ∃ ri, h.store.participantEventsCache.window a.core.creator = some ri := by
    refine Option.ne_none_iff_exists'.1 ((hl.window _).2 ?_)
    rw [a.core.toUpper_creator]
    exact hcreator
  have hset : ri.set (a.core.hex S) a.core.body.index =
      .ok (ri.append (a.core.hex S) a.core.body.index) := by
    have hlast := (htip.window ri hri).2
    rw [RollingIndex.set, if_neg (by omega), if_pos (by omega)]
  obtain ⟨pec, hpec⟩ := (ParticipantEventsCache.exists_set_iff hri).2 ⟨_, hset⟩
  refine ⟨pec, hpec, fun k hk => ?_⟩
  have hnone : signedEvents h.store.eventCache (a.core.hex S) = none := by
    rw [signedEvents, AList.lookup_eq_none.2 hnew]
    rfl
  by_cases hc : a.core.creator = k
  · subst hc
    exact ⟨_, _, htip.set_own rfl hseq.1 hseq.2 hpec⟩
  · obtain ⟨head', seq', htip'⟩ := hl.tip k hk
    refine ⟨head', seq', (htip'.update hc fun e he => ?_).set_other hk hc hpec⟩
    rw [hnone] at he
    cases he

/-- Another event is loaded. -/
theorem step (hl : Loaded S frame h₀ pre h) {pec : ParticipantEventsCache H K}
    (hhash : ∀ b ∈ pre, b.core.hex S = a.core.hex S → b = a) (ha : LoadedTo S a pec h h')
    (htip : ∀ k, Hex.toUpper k = k → ∃ head seq, Tip k head seq (Function.update
      (signedEvents h.store.eventCache) (a.core.hex S) (some a.core)) pec)
    (hitems : ∀ x, pec.Holds x → x = a.core.hex S ∨ h.store.participantEventsCache.Holds x)
    (hwindow : ∀ k, pec.window k ≠ none ↔ h.store.participantEventsCache.window k ≠ none) :
    Loaded S frame h₀ (pre ++ [a]) h' := by
  obtain ⟨ev, ec, cc, hev, hmarked, rfl⟩ := ha
  have hsigned : signedEvents ec = Function.update (signedEvents h.store.eventCache)
      (a.core.hex S) (some a.core) := by
    rw [hmarked.signedEvents_eq, signedEvents_insert, hev]
  have hmem : ∀ x, x ∈ ec ↔ x = a.core.hex S ∨ x ∈ h.store.eventCache := by
    intro x
    rw [hmarked.mem_iff, AList.mem_insert]
  -- a table with an entry for every event gains one for `a`
  have htable : ∀ {α : Type} (t : Map H α) (f : FrameEvent H K → α),
      (∀ b ∈ pre, t.lookup (b.core.hex S) = some (f b)) →
      ∀ b ∈ pre ++ [a], (t.insert (a.core.hex S) (f a)).lookup (b.core.hex S) = some (f b) := by
    intro α t f ht b hb
    rw [Map.lookup_insert_ite]
    rcases List.mem_append.1 hb with hb | hb
    · split_ifs with hx
      · rw [hhash b hb hx]
      · exact ht b hb
    · rw [List.mem_singleton.1 hb, if_pos rfl]
  have htable_none : ∀ {α : Type} (t : Map H α) (y : α),
      (∀ x, x ∉ h.store.eventCache → t.lookup x = none) →
      ∀ x, x ∉ ec → (t.insert (a.core.hex S) y).lookup x = none := by
    intro α t y ht x hx
    rw [hmem, not_or] at hx
    rw [Map.lookup_insert_ite, if_neg hx.1]
    exact ht x hx.2
  have hlast : h.store.lastRound ≤
        (if h.store.lastRound < a.round then a.round else h.store.lastRound) ∧
      a.round ≤ (if h.store.lastRound < a.round then a.round else h.store.lastRound) := by
    split_ifs <;> omega
  refine
    { events := fun x e => ?_
      round := htable _ FrameEvent.round hl.round
      round_none := htable_none _ _ hl.round_none
      witness := htable _ FrameEvent.witness hl.witness
      witness_none := htable_none _ _ hl.witness_none
      lamport := htable _ FrameEvent.lamportTimestamp hl.lamport
      rounds := hl.rounds.insert a
      le_last := fun r hr => ?_
      last := ?_
      consensus := fun k x hx => ?_
      items := fun x hx => ?_
      tip := fun k hk => ?_
      window := fun k => (hwindow k).trans (hl.window k)
      rest := ?_ }
  · simp only [hsigned, Function.update_apply]
    split_ifs with hx
    · constructor
      · intro he
        exact ⟨a, by simp, Option.some.inj he, hx.symm⟩
      · rintro ⟨b, hb, rfl, hbx⟩
        rcases List.mem_append.1 hb with hb | hb
        · rw [hhash b hb (hbx.trans hx)]
        · rw [List.mem_singleton.1 hb]
    · rw [hl.events]
      constructor
      · rintro ⟨b, hb, he, hbx⟩
        exact ⟨b, List.mem_append_left _ hb, he, hbx⟩
      · rintro ⟨b, hb, he, hbx⟩
        rcases List.mem_append.1 hb with hb | hb
        · exact ⟨b, hb, he, hbx⟩
        · rw [List.mem_singleton.1 hb] at hbx
          exact absurd hbx.symm hx
  · rcases (AList.mem_insert _).1 hr with rfl | hr
    · exact hlast.2
    · exact (hl.le_last r hr).trans hlast.1
  · simp only
    split_ifs
    · exact Or.inr ⟨a, by simp, rfl⟩
    · exact hl.last.imp_right fun ⟨b, hb, he⟩ => ⟨b, List.mem_append_left _ hb, he⟩
  · simp only [Map.lookup_insert_ite] at hx
    refine (hmem x).2 ?_
    split_ifs at hx
    · exact Or.inl (Option.some.inj hx).symm
    · exact Or.inr (hl.consensus k x hx)
  · exact (hmem x).2 ((hitems x hx).imp_right (hl.items x))
  · simp only [hsigned]
    exact htip k hk
  · obtain ⟨m, st, rfl, hfc, hpsc⟩ := hl.rest
    exact ⟨_, _, rfl, hfc, hpsc⟩

/-- There is a window for the peers of the frame, and for no one else. -/
theorem window_of_cleared {round : ℤ} (hf : frame.Loadable S round) {st : InmemStore H K}
    (hst : st.Cleared frame) (k : K) : st.participantEventsCache.window k ≠ none ↔
      ∃ p, frame.Lists p ∧ p.pubKeyString = Hex.toUpper k := by
  rw [Ne, (hst.tip k).registered.window_eq_none, ParticipantEventsCache.participantID]
  constructor
  · intro hne
    cases hq : st.participantEventsCache.participants.byPubKey.lookup (Hex.toUpper k) with
    | none => simp [hq] at hne
    | some q =>
      obtain ⟨hmem, hkey⟩ := PeerSet.lookup_byPubKey hq
      exact ⟨q, hst.origin q hmem, hkey⟩
  · rintro ⟨p, hp, hkey⟩
    obtain ⟨q, hq, hid⟩ := hst.participant p hp
    have hqkey : q.pubKeyString = Hex.toUpper k :=
      (hf.ids q (hst.origin q hq) p hp hid).trans hkey
    obtain ⟨q', hq'⟩ := Map.mem_iff_lookup.1 (PeerSet.mem_byPubKey.2 ⟨q, hq, hqkey⟩)
    simp [hq']

/-- The loading starts. -/
theorem nil {round : ℤ} (hf : frame.Loadable S round) (hst : h₀.store.Cleared frame)
    (hround : h₀.memo.roundCache = ∅) (hwitness : h₀.memo.witnessCache = ∅) :
    Loaded S frame h₀ [] h₀ := by
  have hevents : signedEvents h₀.store.eventCache = fun _ => none := by
    rw [hst.eventCache]
    rfl
  refine
    { events := fun x e => by simp [hevents]
      round := by simp
      round_none := fun x _ => by rw [hround]; rfl
      witness := by simp
      witness_none := fun x _ => by rw [hwitness]; rfl
      lamport := by simp
      rounds := ⟨?_, by simp, ?_⟩
      le_last := fun r hr => ?_
      last := Or.inl hst.lastRound
      consensus := fun k x hx => ?_
      items := fun x hx => absurd hx (hst.items x)
      tip := fun k _ => ⟨none, -1, hevents ▸ hst.tip k⟩
      window := window_of_cleared hf hst
      rest := ⟨_, _, rfl, rfl, rfl⟩ }
  · intro r info x e hr
    rw [hst.roundCache] at hr
    cases hr
  · intro r info hr
    rw [hst.roundCache] at hr
    cases hr
  · rw [hst.roundCache] at hr
    cases hr
  · rw [hst.lastConsensusEvents] at hx
    cases hx

/-- The loading of one more event of the frame, which is there already or is the next one of
its creator. -/
structure Next (S : Scheme H K) (frame : Frame H K) (h₀ : Hashgraph H K)
    (pre : List (FrameEvent H K)) (a : FrameEvent H K) (h h' : Hashgraph H K) : Prop where
  loaded : Loaded S frame h₀ pre h
  holds : frame.Holds a
  place : ∃ pec, LoadedTo S a pec h h' ∧
    (a ∈ pre ∧ pec = h.store.participantEventsCache ∨
      a.core.hex S ∉ h.store.eventCache ∧
      h.store.participantEventsCache.set a.core.creator (a.core.hex S) a.core.body.index = .ok pec ∧
      (∀ b ∈ pre, b.core.creator = a.core.creator → b.core.body.index < a.core.body.index) ∧
      ∀ b ∈ pre, b.core.creator = a.core.creator →
        ∃ c ∈ pre, c.core.creator = a.core.creator ∧ c.core.body.index + 1 = a.core.body.index)

/-- All events of a frame are loaded, in consensus order, and what the loading of one keeps is
kept. -/
theorem returns_forM_of_next {round : ℤ} (rt : Runtime) (h0 : Loaded S frame h₀ [] h₀)
    (hf : frame.Loadable S round) {l : List (FrameEvent H K)} (hmem : ∀ b, b ∈ l ↔ frame.Holds b)
    (hsorted : l.Pairwise fun a b => b.less a = false)
    (J : List (FrameEvent H K) → Hashgraph H K → Prop) (hJ0 : J [] h₀)
    (hJ : ∀ pre a h h', Next S frame h₀ pre a h h' → J pre h → J (pre ++ [a]) h') :
    Exec.Returns (l.forM (insertFrameEvent S rt)) h₀ fun _ h => Loaded S frame h₀ l h ∧ J l h := by
  refine Exec.returns_forM (fun pre h => Loaded S frame h₀ pre h ∧ J pre h) ⟨h0, hJ0⟩
    fun pre a post hsplit h ⟨hl, hj⟩ => ?_
  subst hsplit
  have hheld : ∀ b ∈ pre, frame.Holds b := fun b hb => (hmem b).1 (List.mem_append_left _ hb)
  have ha : frame.Holds a := (hmem a).1 (by simp)
  have hhash : ∀ b ∈ pre, b.core.hex S = a.core.hex S → b = a :=
    fun b hb => hf.hash b (hheld b hb) a ha
  have hw : ∀ x, x ∈ h.store.eventCache →
      h.memo.witnessCache.lookup x = some ((h.memo.witnessCache.lookup x).getD false) := by
    intro x hx
    obtain ⟨b, hb, rfl⟩ := hl.mem.1 hx
    rw [hl.witness b hb, Option.getD_some]
  by_cases hx : a.core.hex S ∈ h.store.eventCache
  · -- the frame has the event twice
    obtain ⟨b, hb, hbx⟩ := hl.mem.1 hx
    obtain rfl := hhash b hb hbx
    refine (returns_insertFrameEvent hw (Or.inl ⟨hx, rfl⟩)).mono fun _ h' hto => ?_
    refine ⟨hl.step hhash hto (fun k hk => ?_) (fun _ => Or.inr) fun _ => Iff.rfl,
      hJ pre b h h' ⟨hl, ha, _, hto, Or.inl ⟨hb, rfl⟩⟩ hj⟩
    rw [Function.update_eq_self_iff.2 ((hl.events _ _).2 ⟨b, hb, rfl, rfl⟩).symm]
    exact hl.tip k hk
  · have hnew : a ∉ pre := fun hin => hx (hl.mem.2 ⟨a, hin, rfl⟩)
    obtain ⟨hlt, hnext⟩ := hf.next hmem hsorted hnew
    obtain ⟨pec, hset, htip⟩ :=
      hl.exists_set hx (hf.creator a ha) (hf.index_nonneg a ha) hlt hnext
    refine (returns_insertFrameEvent hw (Or.inr ⟨hx, hset⟩)).mono fun _ h' hto => ?_
    obtain ⟨_, _, hreg⟩ := hl.tip a.core.creator a.core.toUpper_creator
    obtain ⟨-, ⟨ri, ri', hri, -, hri'⟩, hother⟩ := hreg.registered.set hset
    refine ⟨hl.step hhash hto htip (fun x => ParticipantEventsCache.holds_of_set hset) fun k => ?_,
      hJ pre a h h' ⟨hl, ha, pec, hto, Or.inr ⟨hx, hset, hlt, hnext⟩⟩ hj⟩
    by_cases hk : Hex.toUpper k = Hex.toUpper a.core.creator
    · rw [ParticipantEventsCache.window_congr hk, ParticipantEventsCache.window_congr hk, hri, hri']
      simp
    · rw [hother k hk]

end Loaded

/-- The hashgraph `h` is started from a block of round `round`. -/
def startFrom (block : Block K) (h : Hashgraph H K) : Hashgraph H K :=
  { ({ h with store := h.store.setBlock block } : Hashgraph H K).setLastConsensusRound
      block.body.roundReceived with
    roundLowerBound := some block.body.roundReceived }

/-- A reset to a frame that can be loaded succeeds, and keeps what the loading of an event
keeps. -/
theorem returns_reset_of_next (rt : Runtime) {block : Block K}
    (hf : frame.Loadable S block.body.roundReceived) (h : Hashgraph H K)
    (J : List (FrameEvent H K) → Hashgraph H K → Prop)
    (hJ0 : ∀ st, InmemStore.Cleared frame st → J [] { h.cleared with store := st })
    (hJ : ∀ st pre a h₁ h₂, Loaded.Next S frame { h.cleared with store := st } pre a h₁ h₂ →
      J pre h₁ → J (pre ++ [a]) h₂) :
    Exec.Returns (reset S rt block frame) h fun _ h' => ∃ st l h₁,
      InmemStore.Cleared frame st ∧ (∀ a, a ∈ l ↔ frame.Holds a) ∧
      Loaded S frame { h.cleared with store := st } l h₁ ∧ J l h₁ ∧ h' = startFrom block h₁ := by
  obtain ⟨st, hreset, hst⟩ := h.store.exists_reset rt h.memo.tick frame
  let l := Frame.sortedFrameEvents rt (h.memo.tick + 1) { frame with roots := st.roots }
  have hmem : ∀ a, a ∈ l ↔ frame.Holds a := fun a =>
    Frame.mem_sortedFrameEvents.trans (hst.roots a)
  have hsorted : l.Pairwise fun a b => b.less a = false :=
    rt.sort_pairwise _ _ (fun _ _ => FrameEvent.less_asymm) fun _ _ _ => FrameEvent.not_less_trans
  have h0 : Loaded S frame { h.cleared with store := st } [] { h.cleared with store := st } :=
    .nil hf hst rfl rfl
  have hrefill : Exec.Returns (refill S rt block { frame with roots := st.roots } (h.memo.tick + 1))
      { h.cleared with store := st } fun _ h' => ∃ h₁,
        Loaded S frame { h.cleared with store := st } l h₁ ∧ J l h₁ ∧ h' = startFrom block h₁ := by
    refine Exec.Returns.bind ((h0.returns_forM_of_next rt hf hmem hsorted J (hJ0 st hst)
      (hJ st)).mono fun _ h₁ ⟨hl, hj⟩ => ?_)
    exact Exec.Returns.bind (returns_modifyStore (Exec.returns_modify ⟨h₁, hl, hj, rfl⟩))
  obtain ⟨_, h', he, h₁, hl, hj, hh'⟩ := hrefill
  refine ⟨(), h', ?_, st, l, h₁, hst, hmem, hl, hj, hh'⟩
  rw [exec_reset, hreset]
  exact he

/-- A reset to a frame that can be loaded succeeds. -/
theorem returns_reset (rt : Runtime) {block : Block K}
    (hf : frame.Loadable S block.body.roundReceived) (h : Hashgraph H K) :
    Exec.Returns (reset S rt block frame) h fun _ h' => ∃ st l h₁,
      InmemStore.Cleared frame st ∧ (∀ a, a ∈ l ↔ frame.Holds a) ∧
      Loaded S frame { h.cleared with store := st } l h₁ ∧ h' = startFrom block h₁ := by
  refine (returns_reset_of_next rt hf h (fun _ _ => True) (fun _ _ => trivial)
    fun _ _ _ _ _ _ _ => trivial).mono ?_
  rintro _ h' ⟨st, l, h₁, hst, hmem, hl, -, hh'⟩
  exact ⟨st, l, h₁, hst, hmem, hl, hh'⟩

/-- What the caches know of the events. -/
def assignmentOf (m : Memo H) : Assignment H where
  round x := (m.roundCache.lookup x).getD 0
  witness x := (m.witnessCache.lookup x).getD false
  lamport x := (m.timestampCache.lookup x).getD 0

/-- All events of a loaded hashgraph are divided. -/
theorem Loaded.divided (hl : Loaded S frame h₀ pre h) :
    Divided (assignmentOf h.memo) (· ∈ h.store.eventCache) h := by
  have hround : ∀ a ∈ pre, (assignmentOf h.memo).round (a.core.hex S) = a.round := fun a ha => by
    simp only [assignmentOf, hl.round a ha, Option.getD_some]
  have hwitness : ∀ a ∈ pre, (assignmentOf h.memo).witness (a.core.hex S) = a.witness :=
    fun a ha => by simp only [assignmentOf, hl.witness a ha, Option.getD_some]
  refine
    { stored := fun _ => id
      round := fun x hx => ?_
      round_none := hl.round_none
      witness := fun x hx => ?_
      witness_none := hl.witness_none
      lamport := fun x hx => ?_
      lamport_cached := fun x t ht => by simp only [assignmentOf, ht, Option.getD_some]
      created := fun r info x e hr hx => ?_
      recorded := fun x hx => ?_
      le_last := hl.le_last }
  · obtain ⟨a, ha, rfl⟩ := hl.mem.1 hx
    rw [hround a ha, hl.round a ha]
  · obtain ⟨a, ha, rfl⟩ := hl.mem.1 hx
    rw [hwitness a ha, hl.witness a ha]
  · obtain ⟨a, ha, rfl⟩ := hl.mem.1 hx
    simp only [assignmentOf, hl.lamport a ha, Option.getD_some]
  · obtain ⟨a, ha, rfl, rfl, hw⟩ := hl.rounds.created r info x e hr hx
    exact ⟨hl.mem.2 ⟨a, ha, rfl⟩, hround a ha, hw.trans (hwitness a ha).symm⟩
  · obtain ⟨a, ha, rfl⟩ := hl.mem.1 hx
    rw [hround a ha]
    exact hl.rounds.recorded a ha

/-- A hashgraph that was reset to a frame is well-formed, with the rounds up to the one of the
block left to the frame. -/
theorem Loaded.wellFormed {block : Block K} {st : InmemStore H K}
    (hf : frame.Loadable S block.body.roundReceived) (hst : st.Cleared frame)
    (hmem : ∀ a, a ∈ pre ↔ frame.Holds a) {h₀ : Hashgraph H K}
    (hl : Loaded S frame { h₀.cleared with store := st } pre h) :
    WellFormed S (assignmentOf h.memo) (· ∈ h.store.eventCache) block.body.roundReceived
      block.body.roundReceived (startFrom block h) := by
  have hd := hl.divided
  have hrounds : ∀ a ∈ pre, 0 ≤ a.round ∧ a.round ≤ block.body.roundReceived :=
    fun a ha => hf.rounds a ((hmem a).1 ha)
  have hlast : -1 ≤ h.store.lastRound ∧ h.store.lastRound ≤ block.body.roundReceived := by
    have hnonneg := hf.nonneg
    rcases hl.last with hlast | ⟨a, ha, hlast⟩
    · omega
    · have := hrounds a ha
      omega
  -- the rounds up to the one of the block are left to the frame
  have hbelow : ∀ j, (startFrom block h).belowLowerBound j = false ↔
      block.body.roundReceived < j := by
    intro j
    rw [belowLowerBound_eq_false]
    exact ⟨fun hj => hj _ rfl, fun hj b hb => Option.some.inj hb ▸ hj⟩
  obtain ⟨m, st', hh, hfc, hpsc⟩ := hl.rest
  have hu : (startFrom block h).undeterminedEvents = [] := by rw [hh]; rfl
  have hp : (startFrom block h).pendingRounds = [] := by rw [hh]; rfl
  refine
    { keys := fun x e he => ?_
      divided := ⟨hd.stored, hd.round, hd.round_none, hd.witness, hd.witness_none, hd.lamport,
        hd.lamport_cached, hd.created, hd.recorded, hd.le_last⟩
      round_nonneg := fun x hx => ?_
      items := hl.items
      consensus := hl.consensus
      undetermined := by simp [hu]
      received := fun r info hr x hx => ?_
      peerSets := ?_
      last := hlast.1
      le := by have := hf.nonneg; omega
      lowerBound := fun b hb => (Option.some.inj hb).ge
      rounds := fun j _ hj hb => ?_
      top := fun j _ hj => ?_
      sorted := by simp [hp]
      pending := fun j => ?_
      decided := fun j info _ hj hb => ?_
      flags := by simp [hp]
      frames := fun j hj => ?_ }
  · have hsigned : signedEvents h.store.eventCache x = some e.toSignedEvent :=
      signedEvents_eq_some.2 ⟨e, he, rfl⟩
    obtain ⟨a, -, hae, hx⟩ := (hl.events x _).1 hsigned
    rw [← hx, hae]
  · obtain ⟨a, ha, rfl⟩ := hl.mem.1 hx
    simp only [assignmentOf, hl.round a ha, Option.getD_some]
    exact (hrounds a ha).1
  · rw [hl.rounds.received r info hr] at hx
    cases hx
  · obtain ⟨r, hr⟩ := hf.recorded
    obtain ⟨ps, hps⟩ := Map.mem_iff_lookup.1 hr
    have hsets : (startFrom block h).store.peerSetCache = st.peerSetCache := by
      rw [hh]
      exact hpsc
    rw [hsets]
    have hne : (frame.peerSets.lookup r).map PeerSet.mk ≠ none := by simp [hps]
    exact hst.peerSets.wellFormed hne
  · rw [hbelow] at hb
    have hj' : j ≤ h.store.lastRound := hj
    omega
  · have := (hbelow j).not.2 (not_lt.2 hj)
    simpa using this
  · rw [hp]
    have hlast' : (startFrom block h).store.lastRound = h.store.lastRound := rfl
    rw [hlast']
    simp only [List.map_nil, List.not_mem_nil, false_iff]
    omega
  · rw [hbelow] at hb
    omega
  · have hframes : (startFrom block h).store.frameCache = st.frameCache := by
      rw [hh]
      exact hfc
    rw [hframes] at hj
    exact (hst.frames j hj).trans_le hf.round_le

end Hashgraph

end Babble

import Babble.Division
import Babble.Process

/-!
# What holds in every run

`WellFormed` collects what the methods of the hashgraph rely on and keep, whatever the
events : all stored events are divided, lists of hashes name stored events, the pending
rounds are those above `q` up to the last one, and the rounds up to `q` are decided or
left to the frame of a reset.

Every pass of consensus keeps it, for any answers the queries may give.
-/

set_option linter.unusedSectionVars false

namespace Babble

variable {H K : Type} [DecidableEq H] [DecidableEq K] [Hex H] [Hex K]

/-! ## Peer-sets and participants -/

/-- There is a peer-set, and one for every recorded round. -/
structure PeerSetCache.WellFormed (c : PeerSetCache K) : Prop where
  ne_nil : c.rounds ≠ []
  recorded : ∀ r ∈ c.rounds, r ∈ c.peerSets

theorem PeerSetCache.situate_mem (round r : ℤ) (rs : List ℤ) : situate round r rs ∈ r :: rs := by
  induction rs generalizing r with
  | nil => simp [situate]
  | cons r' rs ih =>
    rw [situate]
    split_ifs
    · exact List.mem_cons_self
    · exact List.mem_cons_of_mem r (ih r')

/-- There is a peer-set for every round. -/
theorem PeerSetCache.WellFormed.exists_get {c : PeerSetCache K} (hc : c.WellFormed) (r : ℤ) :
    ∃ P, c.get r = .ok P := by
  unfold get
  cases hl : c.peerSets.lookup r with
  | some P => exact ⟨P, rfl⟩
  | none =>
    cases hr : c.rounds with
    | nil => exact absurd hr hc.ne_nil
    | cons r₀ rs =>
      have hmem : (if r < r₀ then r₀ else situate r r₀ rs) ∈ c.rounds := by
        rw [hr]
        split_ifs
        · exact List.mem_cons_self
        · exact situate_mem r r₀ rs
      obtain ⟨P, hP⟩ := Map.mem_iff_lookup.1 (hc.recorded _ hmem)
      exact ⟨P, by simp only [hP]⟩

theorem PeerSetCache.foldl_addPeer (round : ℤ) (ps : List (Peer K)) (c : PeerSetCache K) :
    (ps.foldl (addPeer round) c).peerSets = c.peerSets ∧
      (ps.foldl (addPeer round) c).rounds = c.rounds := by
  induction ps generalizing c with
  | nil => exact ⟨rfl, rfl⟩
  | cons p ps ih => exact ih _

/-- What recording a peer-set does to the table. -/
theorem PeerSetCache.set_eq {c c' : PeerSetCache K} {r : ℤ} {P : PeerSet K}
    (h : c.set r P = .ok c') : r ∉ c.peerSets ∧ c'.peerSets = c.peerSets.insert r P ∧
      c'.rounds = (c.rounds ++ [r]).insertionSort (· ≤ ·) := by
  unfold set at h
  cases hl : c.peerSets.lookup r with
  | some P => rw [hl] at h; cases h
  | none =>
    simp only [hl, Except.ok.injEq] at h
    rw [← h]
    exact ⟨AList.lookup_eq_none.1 hl, foldl_addPeer r P.peers _⟩

theorem PeerSetCache.wellFormed_of_set {c c' : PeerSetCache K} {r : ℤ} {P : PeerSet K}
    (hc : ∀ j ∈ c.rounds, j ∈ c.peerSets) (h : c.set r P = .ok c') : c'.WellFormed := by
  obtain ⟨-, hps, hr⟩ := set_eq h
  have hmem : ∀ j, j ∈ c'.rounds ↔ j ∈ c.rounds ∨ j = r := by
    intro j
    rw [hr, (List.perm_insertionSort _ _).mem_iff]
    simp
  refine ⟨fun hnil => ?_, fun j hj => ?_⟩
  · have := (hmem r).2 (Or.inr rfl)
    rw [hnil] at this
    cases this
  · rw [hps, AList.mem_insert]
    exact ((hmem j).1 hj).symm.imp_right (hc j)

theorem RollingIndex.mem_of_set {α : Type} {r r' : RollingIndex α} {a b : α} {i : ℤ}
    (h : r.set a i = .ok r') (hb : b ∈ r'.items) : b = a ∨ b ∈ r.items := by
  unfold RollingIndex.set at h
  split_ifs at h
  · obtain rfl := Except.ok.inj h
    simp only [RollingIndex.append, List.mem_append, List.mem_singleton] at hb
    rcases hb with hb | hb
    · right
      split_ifs at hb
      · exact List.mem_of_mem_drop hb
      · exact hb
    · exact Or.inl hb
  · obtain rfl := Except.ok.inj h
    exact (List.mem_or_eq_of_mem_set hb).symm

/-- A hash among the participants' events. -/
def ParticipantEventsCache.Holds (pec : ParticipantEventsCache H K) (x : H) : Prop :=
  ∃ id ri, pec.rim.mapping.lookup id = some ri ∧ x ∈ ri.items

namespace ParticipantEventsCache

variable {pec pec' : ParticipantEventsCache H K} {x y : H} {k : K}

theorem holds_of_getLast (h : pec.getLast k = .ok x) : pec.Holds x := by
  unfold getLast at h
  cases hid : pec.participantID k with
  | error err => rw [hid] at h; cases h
  | ok id =>
    rw [hid] at h
    simp only [bind, Except.bind, RollingIndexMap.getLast] at h
    cases hl : pec.rim.mapping.lookup id with
    | none => rw [hl] at h; cases h
    | some ri =>
      simp only [hl] at h
      cases hi : ri.items.getLast? with
      | none => rw [hi] at h; cases h
      | some y =>
        rw [hi] at h
        cases h
        exact ⟨id, ri, hl, List.mem_of_getLast? hi⟩

theorem holds_of_getItem {i : ℤ} (h : pec.getItem k i = .ok x) : pec.Holds x := by
  unfold getItem at h
  cases hid : pec.participantID k with
  | error err => rw [hid] at h; cases h
  | ok id =>
    rw [hid] at h
    simp only [bind, Except.bind, RollingIndexMap.getItem] at h
    cases hl : pec.rim.mapping.lookup id with
    | none => rw [hl] at h; cases h
    | some ri =>
      simp only [hl, RollingIndex.getItem] at h
      split_ifs at h
      cases hi : ri.items[(i - ri.oldestCachedIndex).toNat]? with
      | none => rw [hi] at h; cases h
      | some y =>
        rw [hi] at h
        cases h
        exact ⟨id, ri, hl, List.mem_of_getElem? hi⟩

theorem holds_of_set {i : ℤ} (h : pec.set k x i = .ok pec') (hy : pec'.Holds y) :
    y = x ∨ pec.Holds y := by
  unfold set at h
  cases hid : pec.participantID k with
  | error err => rw [hid] at h; cases h
  | ok id =>
    rw [hid] at h
    simp only [bind, Except.bind, RollingIndexMap.set] at h
    cases hs : ((pec.rim.mapping.lookup id).getD
        (RollingIndex.new pec.rim.name pec.rim.size)).set x i with
    | error err => rw [hs] at h; cases h
    | ok ri =>
      rw [hs] at h
      obtain rfl := Except.ok.inj h
      obtain ⟨id', ri', hl, hmem⟩ := hy
      simp only [Map.lookup_insert_ite] at hl
      split_ifs at hl with hid'
      · obtain rfl := Option.some.inj hl
        refine (RollingIndex.mem_of_set hs hmem).imp_right fun hmem => ?_
        cases hl' : pec.rim.mapping.lookup id with
        | none => rw [hl'] at hmem; cases hmem
        | some ri'' => rw [hl'] at hmem; exact ⟨id, ri'', hl', hmem⟩
      · exact Or.inr ⟨id', ri', hl, hmem⟩

theorem holds_of_addPeer {p : Peer K} (hy : (pec.addPeer p).2.Holds y) : pec.Holds y := by
  unfold addPeer RollingIndexMap.addKey at hy
  cases hl : pec.rim.mapping.lookup p.id with
  | some ri => rw [hl] at hy; exact hy
  | none =>
    rw [hl] at hy
    obtain ⟨id, ri, hl', hmem⟩ := hy
    simp only [Map.lookup_insert_ite] at hl'
    split_ifs at hl' with hid
    · obtain rfl := Option.some.inj hl'
      cases hmem
    · exact ⟨id, ri, hl', hmem⟩

end ParticipantEventsCache

theorem InmemStore.addParticipant_eq (st : InmemStore H K) (p : Peer K) :
    ∃ pec roots, st.addParticipant p =
      { st with participantEventsCache := pec, roots := roots } ∧
      (pec = st.participantEventsCache ∨ pec = (st.participantEventsCache.addPeer p).2) := by
  have hroot : ∀ st : InmemStore H K, ∃ roots, st.addRoot p = { st with roots := roots } := by
    intro st
    unfold addRoot
    cases st.roots.lookup p.pubKeyString with
    | some _ => exact ⟨_, rfl⟩
    | none => exact ⟨_, rfl⟩
  unfold addParticipant
  cases st.participantEventsCache.participants.byID.lookup p.id with
  | some _ =>
    obtain ⟨roots, hr⟩ := hroot st
    exact ⟨_, roots, hr, Or.inl rfl⟩
  | none =>
    cases hadd : st.participantEventsCache.addPeer p with
    | mk res pec =>
      cases res with
      | ok _ =>
        obtain ⟨roots, hr⟩ := hroot { st with participantEventsCache := pec }
        exact ⟨pec, roots, hr, Or.inr rfl⟩
      | error _ => exact ⟨pec, st.roots, rfl, Or.inr rfl⟩

theorem InmemStore.foldl_addParticipant (ps : List (Peer K)) (st : InmemStore H K) :
    ∃ pec roots, ps.foldl addParticipant st =
      { st with participantEventsCache := pec, roots := roots } ∧
      ∀ x, pec.Holds x → st.participantEventsCache.Holds x := by
  induction ps generalizing st with
  | nil => exact ⟨_, _, rfl, fun _ => id⟩
  | cons p ps ih =>
    obtain ⟨pec, roots, he, hpec⟩ := st.addParticipant_eq p
    obtain ⟨pec', roots', he', hpec'⟩ := ih (st.addParticipant p)
    refine ⟨pec', roots', by rw [List.foldl_cons, he', he], fun x hx => ?_⟩
    have := hpec' x hx
    rw [he] at this
    rcases hpec with rfl | rfl
    · exact this
    · exact ParticipantEventsCache.holds_of_addPeer this

/-- Recording a peer-set adds participants without events, and otherwise changes the
table of peer-sets, the roots and the frame that shares them. -/
theorem InmemStore.setPeerSet_eq {st st' : InmemStore H K} {r : ℤ} {P : PeerSet K}
    (h : st.setPeerSet r P = .ok st') : ∃ psc pec roots fc,
      st.peerSetCache.set r P = .ok psc ∧
      st' = { st with
        peerSetCache := psc
        participantEventsCache := pec
        roots := roots
        frameCache := fc } ∧
      (∀ x, pec.Holds x → st.participantEventsCache.Holds x) ∧
      ∀ j, j ∈ fc → j ∈ st.frameCache := by
  unfold setPeerSet at h
  cases hset : st.peerSetCache.set r P with
  | error err => rw [hset] at h; cases h
  | ok psc =>
    rw [hset] at h
    obtain rfl := Except.ok.inj h
    obtain ⟨pec, roots, he, hpec⟩ := foldl_addParticipant P.peers { st with peerSetCache := psc }
    rw [he]
    unfold syncSharedRoots
    cases hs : st.sharedRoots with
    | none => exact ⟨psc, pec, roots, _, rfl, by simp, hpec, fun _ => id⟩
    | some j =>
      cases hf : st.frameCache.lookup j with
      | none => exact ⟨psc, pec, roots, _, rfl, by simp [hf], hpec, fun _ => id⟩
      | some fr =>
        refine ⟨psc, pec, roots, st.frameCache.insert j { fr with roots := roots }, rfl,
          by simp [hf], hpec, fun i hi => ?_⟩
        rcases (AList.mem_insert _).1 hi with rfl | hi
        · exact Map.mem_iff_lookup.2 ⟨fr, hf⟩
        · exact hi

/-- A hashgraph that was just initialised. -/
theorem Hashgraph.init_cases {st : InmemStore H K} {P : PeerSet K} {h : Hashgraph H K}
    (hi : (Hashgraph.new st).init P = .ok h) :
    ∃ st', st.setPeerSet 0 P = .ok st' ∧ h = Hashgraph.new st' := by
  unfold Hashgraph.init at hi
  split at hi
  · next st' hs => exact ⟨st', hs, (Except.ok.inj hi).symm⟩
  · cases hi

/-- Frames change with the roots only where they share them. -/
theorem InmemStore.frameCache_setPeerSet {st st' : InmemStore H K} {r : ℤ} {P : PeerSet K}
    (h : st.setPeerSet r P = .ok st') (hs : st.sharedRoots = none) :
    st'.frameCache = st.frameCache := by
  unfold setPeerSet at h
  cases hset : st.peerSetCache.set r P with
  | error err => rw [hset] at h; cases h
  | ok psc =>
    rw [hset] at h
    obtain rfl := Except.ok.inj h
    obtain ⟨pec, roots, he, -⟩ := foldl_addParticipant P.peers { st with peerSetCache := psc }
    rw [he]
    simp only [syncSharedRoots, hs]

/-! ## The invariant -/

/-- The keys of events that differ in the fields of consensus only. -/
theorem EventsLike.keys {S : Scheme H K} {ec ec' : Map H (Event H K)} (hl : EventsLike ec ec')
    (h : ∀ x e, ec.lookup x = some e → e.hex S = x) :
    ∀ x e, ec'.lookup x = some e → e.hex S = x := by
  intro x e' he'
  have hx := hl x
  rw [he'] at hx
  cases he : ec.lookup x with
  | none => rw [he] at hx; cases hx
  | some e =>
    rw [he] at hx
    cases hx with
    | some hx =>
      rw [hx.signed]
      exact h x e he

/-- A stored event whose self-parent is stored. -/
def Rooted (ec : Map H (Event H K)) (x : H) : Prop :=
  ∃ e, ec.lookup x = some e ∧ ∀ p, e.body.selfParent = some p → p ∈ ec

theorem Rooted.mem {ec : Map H (Event H K)} {x : H} (h : Rooted ec x) : x ∈ ec := by
  obtain ⟨e, he, -⟩ := h
  exact Map.mem_iff_lookup.2 ⟨e, he⟩

theorem Rooted.of_like {ec ec' : Map H (Event H K)} {x : H} (h : Rooted ec x)
    (hl : EventsLike ec ec') : Rooted ec' x := by
  obtain ⟨e, he, hp⟩ := h
  obtain ⟨e', he', hs⟩ := hl.lookup he
  refine ⟨e', he', fun p hsp => hl.mem_iff.2 (hp p ?_)⟩
  rw [← hsp, hs.signed]

theorem Rooted.of_marked {ec ec' : Map H (Event H K)} {x : H} (h : Rooted ec x)
    (hl : Hashgraph.EventsMarked ec ec') : Rooted ec' x := by
  obtain ⟨e, he, hp⟩ := h
  obtain ⟨e', he', hs⟩ := hl.lookup he
  refine ⟨e', he', fun p hsp => hl.mem_iff.2 (hp p ?_)⟩
  rw [← hsp, hs.eq]

theorem rooted_insert {ec : Map H (Event H K)} {x : H} {e : Event H K}
    (hp : ∀ p, e.body.selfParent = some p → p ∈ ec) : Rooted (ec.insert x e) x :=
  ⟨e, AList.lookup_insert _, fun p hsp => (AList.mem_insert _).2 (Or.inr (hp p hsp))⟩

theorem Rooted.insert {ec : Map H (Event H K)} {x y : H} {e : Event H K} (h : Rooted ec y)
    (hp : ∀ p, e.body.selfParent = some p → p ∈ ec) : Rooted (ec.insert x e) y := by
  by_cases hy : y = x
  · subst hy
    exact rooted_insert hp
  · obtain ⟨e', he', hp'⟩ := h
    exact ⟨e', (AList.lookup_insert_ne hy).trans he',
      fun p hsp => (AList.mem_insert _).2 (Or.inr (hp' p hsp))⟩

namespace Hashgraph

/-- The events with `D` are divided as `A` says, the rounds above `q` are pending, and
frames are known up to round `f`. -/
structure WellFormed (S : Scheme H K) (A : Assignment H) (D : H → Prop) (q f : ℤ)
    (h : Hashgraph H K) : Prop where
  keys : ∀ x e, h.store.eventCache.lookup x = some e → e.hex S = x
  divided : Divided A D h
  round_nonneg : ∀ x, D x → 0 ≤ A.round x
  items : ∀ x, h.store.participantEventsCache.Holds x → x ∈ h.store.eventCache
  consensus : ∀ k x, h.store.lastConsensusEvents.lookup k = some x → x ∈ h.store.eventCache
  undetermined : ∀ x ∈ h.undeterminedEvents, Rooted h.store.eventCache x
  received : ∀ r info, h.store.roundCache.lookup r = some info →
    ∀ x ∈ info.receivedEvents, Rooted h.store.eventCache x
  peerSets : h.store.peerSetCache.WellFormed
  last : -1 ≤ h.store.lastRound
  le : -1 ≤ q
  lowerBound : ∀ b, h.roundLowerBound = some b → b ≤ q
  rounds : ∀ j, 0 ≤ j → j ≤ h.store.lastRound → h.belowLowerBound j = false →
    j ∈ h.store.roundCache
  top : ∀ j, h.store.lastRound < j → j ≤ q → h.belowLowerBound j = true
  sorted : (h.pendingRounds.map PendingRound.index).Pairwise (· < ·)
  pending : ∀ j, j ∈ h.pendingRounds.map PendingRound.index ↔ q < j ∧ j ≤ h.store.lastRound
  decided : ∀ j info, h.store.roundCache.lookup j = some info → j ≤ q →
    h.belowLowerBound j = false → info.decided = true
  flags : ∀ p ∈ h.pendingRounds, p.decided = true →
    ∃ info, h.store.roundCache.lookup p.index = some info ∧ info.decided = true
  frames : ∀ j, j ∈ h.store.frameCache → j ≤ f

variable {S : Scheme H K} {rt : Runtime} {R : Reading H K} {ps : ℤ → PeerSet K}
  {A : Assignment H} {D : H → Prop} {q f : ℤ} {h h' : Hashgraph H K}

theorem belowLowerBound_eq_false {j : ℤ} :
    h.belowLowerBound j = false ↔ ∀ b, h.roundLowerBound = some b → b < j := by
  unfold belowLowerBound
  cases h.roundLowerBound <;> simp

theorem WellFormed.belowLowerBound (hw : WellFormed S A D q f h) {j : ℤ} (hj : q < j) :
    h.belowLowerBound j = false :=
  belowLowerBound_eq_false.2 fun b hb => (hw.lowerBound b hb).trans_lt hj

theorem WellFormed.undecidedQueued (hw : WellFormed S A D q f h) : h.UndecidedQueued := by
  intro r info hi hd hb
  rw [PendingRounds.queued_iff, hw.pending]
  refine ⟨not_le.1 fun hle => ?_, hw.divided.le_last r (Map.mem_iff_lookup.2 ⟨info, hi⟩)⟩
  rw [hw.decided r info hi hle hb] at hd
  cases hd

/-- The events are stored under their hashes, and those of the participants are stored. -/
structure Addressed (S : Scheme H K) (h : Hashgraph H K) : Prop where
  keys : ∀ x e, h.store.eventCache.lookup x = some e → e.hex S = x
  items : ∀ x, h.store.participantEventsCache.Holds x → x ∈ h.store.eventCache

theorem WellFormed.addressed (hw : WellFormed S A D q f h) : Addressed S h :=
  ⟨hw.keys, hw.items⟩

/-! ## The passes keep it -/

/-- The parents of an inserted event are stored. -/
theorem Insertion.parents_mem {event : SignedEvent H K} (i : Insertion S h event)
    (hitems : ∀ x, h.store.participantEventsCache.Holds x → x ∈ h.store.eventCache) :
    (∀ p, event.body.selfParent = some p → p ∈ h.store.eventCache) ∧
      ∀ p, event.body.otherParent = some p → p ∈ h.store.eventCache := by
  have hc := i.check
  unfold checkEvent at hc
  cases hv : event.verify S with
  | error err => rw [hv] at hc; cases hc
  | ok b =>
    rw [hv] at hc
    cases b with
    | false => cases hc
    | true =>
      simp only [bind, Except.bind, if_true] at hc
      cases hsp : checkSelfParent h.store event with
      | error err => rw [hsp] at hc; cases hc
      | ok _ =>
        simp only [hsp] at hc
        refine ⟨fun p hp => ?_, fun p hp => ?_⟩
        · unfold checkSelfParent at hsp
          cases hl : h.store.lastEventFrom event.creator with
          | error err => simp [hl, hp] at hsp
          | ok last =>
            simp only [hl, hp] at hsp
            split_ifs at hsp with heq
            obtain rfl := Option.some.inj heq
            exact hitems p (ParticipantEventsCache.holds_of_getLast hl)
        · simp only [checkOtherParent, hp, InmemStore.getEvent] at hc
          cases hl : h.store.eventCache.lookup p with
          | none => simp [hl] at hc
          | some e => exact Map.mem_iff_lookup.2 ⟨e, hl⟩

theorem Addressed.of_insertion {event : SignedEvent H K} {i : Insertion S h event} {wit : H → Bool}
    (hk : Addressed S h) (hst : h'.store = { i.store with eventCache := i.events wit }) :
    Addressed S h' := by
  have hkey : i.ev.hex S = event.hex S := congrArg (SignedEvent.hex S) i.signed
  refine ⟨fun x e he => ?_, fun x hx => ?_⟩
  · rw [hst] at he
    obtain ⟨e₀, he₀, hm⟩ := (i.events_marked wit).lookup_back he
    rw [hm.eq]
    rw [Map.lookup_insert_ite] at he₀
    split_ifs at he₀ with hx
    · obtain rfl := Option.some.inj he₀
      exact hkey.trans hx.symm
    · exact hk.keys x e₀ he₀
  · rw [hst] at hx ⊢
    refine (i.mem_events wit).2 ?_
    obtain ⟨pec, hst', hpec⟩ := setEvent_eq i.setEvent
    rw [hst'] at hx
    rcases hpec with ⟨-, rfl⟩ | ⟨-, hset⟩
    · exact Or.inr (hk.items x hx)
    · rcases ParticipantEventsCache.holds_of_set hset hx with rfl | hx
      · exact Or.inl hkey
      · exact Or.inr (hk.items x hx)

theorem WellFormed.of_insertion {event : SignedEvent H K} {i : Insertion S h event}
    {wit : H → Bool} (hw : WellFormed S A D q f h) (hres : i.Result wit h') :
    WellFormed S A D q f h' := by
  have haddr : Addressed S h' := by
    obtain ⟨ti, sigs, rfl⟩ := hres
    exact hw.addressed.of_insertion rfl
  obtain ⟨pec, hst, -⟩ := setEvent_eq i.setEvent
  obtain ⟨ti, sigs, rfl⟩ := hres
  have hmem : ∀ {y}, y ∈ i.events wit ↔ y = event.hex S ∨ y ∈ h.store.eventCache := i.mem_events wit
  have hec : ∀ {y}, y ∈ h.store.eventCache → y ∈ i.events wit := fun hy => hmem.2 (Or.inr hy)
  have hsp : ∀ p, i.ev.body.selfParent = some p → p ∈ h.store.eventCache := by
    rw [i.signed]
    exact (i.parents_mem hw.items).1
  have hroot : ∀ {y}, Rooted h.store.eventCache y → Rooted (i.events wit) y :=
    fun hy => (hy.insert hsp).of_marked (i.events_marked wit)
  have hitems := haddr.items
  rw [hst] at hitems ⊢
  refine ⟨haddr.keys, ⟨fun x hx => hec (hw.divided.stored x hx), hw.divided.round,
      hw.divided.round_none, hw.divided.witness, hw.divided.witness_none, hw.divided.lamport,
      hw.divided.lamport_cached, hw.divided.created, hw.divided.recorded, hw.divided.le_last⟩,
    hw.round_nonneg, hitems, fun k x hx => hec (hw.consensus k x hx), ?_,
    fun r info hi x hx => hroot (hw.received r info hi x hx), hw.peerSets, hw.last, hw.le,
    hw.lowerBound, hw.rounds, hw.top, hw.sorted, hw.pending, hw.decided, hw.flags, hw.frames⟩
  · intro x hx
    rcases List.mem_append.1 hx with hx | hx
    · exact hroot (hw.undetermined x hx)
    · rw [List.mem_singleton.1 hx]
      exact (rooted_insert hsp).of_marked (i.events_marked wit)

theorem WellFormed.of_redivided (hw : WellFormed S A D q f h) (hr : Redivided D h h') :
    WellFormed S A D q f h' := by
  have hd := hw.divided.of_redivided hr
  obtain ⟨ec, rc, rfl, hec, -, hrc⟩ := hr
  have hmem : ∀ {y}, y ∈ h.store.eventCache → y ∈ ec := fun hy => hec.mem_iff.2 hy
  refine ⟨hec.keys hw.keys, hd, hw.round_nonneg, fun x hx => hmem (hw.items x hx),
    fun k x hx => hmem (hw.consensus k x hx), fun x hx => (hw.undetermined x hx).of_like hec,
    fun r info hi x hx => (hw.received r info (hrc r ▸ hi) x hx).of_like hec, hw.peerSets, hw.last, hw.le,
    hw.lowerBound, fun j h0 hj hb => ?_, hw.top, hw.sorted, hw.pending,
    fun j info hi => hw.decided j info (hrc j ▸ hi), fun p hp hdec => ?_, hw.frames⟩
  · obtain ⟨info, hi⟩ := Map.mem_iff_lookup.1 (hw.rounds j h0 hj hb)
    exact Map.mem_iff_lookup.2 ⟨info, (hrc j).trans hi⟩
  · obtain ⟨info, hi, hinfo⟩ := hw.flags p hp hdec
    exact ⟨info, (hrc _).trans hi, hinfo⟩

theorem selfValue_ge {ρ : H → ℤ} {sp : Option H} (hsp : ∀ p, sp = some p → 0 ≤ ρ p) :
    -1 ≤ selfValue ρ sp := by
  cases sp with
  | none => exact le_rfl
  | some p =>
    have : 0 ≤ ρ p := hsp p rfl
    simp only [selfValue, Option.elim_some]
    omega

theorem parentValue_ge {ρ : H → ℤ} {sp op : Option H} (hsp : ∀ p, sp = some p → 0 ≤ ρ p) :
    -1 ≤ parentValue ρ sp op := by
  cases op with
  | none => exact selfValue_ge hsp
  | some p => exact (selfValue_ge hsp).trans (le_max_left _ _)

theorem RoundOf.nonneg {W : ℤ → H → Prop} {x : H} {p r : ℤ} (h : RoundOf R ps W x p r)
    (hp : -1 ≤ p) : 0 ≤ r := by
  rcases h with ⟨-, rfl⟩ | ⟨hne, l, -, rfl⟩
  · exact le_rfl
  · split_ifs <;> omega

/-- The round of the parents of an event is one that is there, or there is none. -/
theorem parentValue_le (hd : Divided A D h) (hlast : -1 ≤ h.store.lastRound) {sp op : Option H}
    (hsp : ∀ p, sp = some p → D p) (hop : ∀ p, op = some p → D p) :
    parentValue A.round sp op ≤ h.store.lastRound := by
  rcases parentValue_mem hd hsp hop with hv | hv
  · rw [hv]
    exact hlast
  · exact hd.le_last _ hv

section New

variable {x : H} {e : SignedEvent H K} {r t : ℤ} {w : Bool}

/-- The pending rounds after the division of a new event. -/
theorem WellFormed.queueRound (hw : WellFormed S A D q f h) (hr0 : 0 ≤ r)
    (hr : r ≤ h.store.lastRound + 1) :
    (h.queueRound r ((h.store.roundCache.lookup r).getD {})).pendingRounds =
      if h.store.lastRound < r ∧ h.belowLowerBound r = false then h.pendingRounds ++ [⟨r, false⟩]
      else h.pendingRounds := by
  split_ifs with hnew
  · have hnone : h.store.roundCache.lookup r = none := by
      refine AList.lookup_eq_none.2 fun hmem => ?_
      have := hw.divided.le_last r hmem
      omega
    have hnq : h.pendingRounds.queued r = false := by
      rw [Bool.eq_false_iff, ne_eq, PendingRounds.queued_iff, hw.pending]
      omega
    simp only [Hashgraph.queueRound, hnone, Option.getD_none, hnq, hnew.2, Bool.not_false,
      Bool.and_self, if_true]
    refine PendingRounds.set_eq hw.sorted fun j hj => ?_
    have := ((hw.pending j).1 hj).2
    simp only
    omega
  · rw [queueRound_eq_self fun hd hb => ?_]
    have hle : r ≤ h.store.lastRound := not_lt.1 fun hlt => hnew ⟨hlt, hb⟩
    obtain ⟨info, hi⟩ := Map.mem_iff_lookup.1 (hw.rounds r hr0 hle hb)
    rw [hi, Option.getD_some] at hd
    exact hw.undecidedQueued r info hi hd hb

theorem WellFormed.of_newlyDivided (hw : WellFormed S A D q f h) (hxs : x ∈ h.store.eventCache)
    (hx : ¬D x) (hsp : ∀ p, e.body.selfParent = some p → D p)
    (hop : ∀ p, e.body.otherParent = some p → D p)
    (hn : NewlyDivided S R ps A h x e r w t h') :
    WellFormed S (A.set x r w t) (fun y => D y ∨ y = x) q f h' := by
  have hd := hn.divided hw.divided hxs hx
  have hr0 : 0 ≤ r :=
    RoundOf.nonneg hn.roundOf (parentValue_ge fun p hp => hw.round_nonneg p (hsp p hp))
  have hr1 : r ≤ h.store.lastRound + 1 :=
    hn.roundOf.le (parentValue_le hw.divided hw.last hsp hop) hw.last
  have hpend := hw.queueRound hr0 hr1
  have hev := hn.events
  have hrounds := hn.rounds
  obtain ⟨ec, rc, m, rfl⟩ := hn.eq
  rw [hpend] at hd ⊢
  have hmem : ∀ {y}, y ∈ h.store.eventCache → y ∈ ec := fun hy => hev.mem_iff.2 hy
  -- what the new state knows of a round that was there
  have hkept : ∀ j info, h.store.roundCache.lookup j = some info →
      ∃ info', rc.lookup j = some info' ∧ info'.decided = info.decided := by
    intro j info hi
    have := hrounds j
    simp only at this
    split_ifs at this with hj
    · refine ⟨_, this, ?_⟩
      rw [← hj, hi]
      simp
    · exact ⟨info, this.trans hi, rfl⟩
  have hback : ∀ j info, rc.lookup j = some info →
      (∃ info', h.store.roundCache.lookup j = some info' ∧ info.decided = info'.decided ∧
        info.receivedEvents = info'.receivedEvents) ∨
      (h.store.roundCache.lookup j = none ∧ j = r ∧ info.receivedEvents = []) := by
    intro j info hi
    have := hrounds j
    simp only [hi] at this
    split_ifs at this with hj
    · obtain rfl := Option.some.inj this
      subst hj
      cases hl : h.store.roundCache.lookup j with
      | none => exact Or.inr ⟨rfl, rfl, by simp⟩
      | some info' => exact Or.inl ⟨info', rfl, by simp⟩
    · exact Or.inl ⟨info, this.symm, rfl, rfl⟩
  refine ⟨hev.keys hw.keys, hd, ?_, fun y hy => hmem (hw.items y hy), fun k y hy => hmem (hw.consensus k y hy),
    fun y hy => (hw.undetermined y hy).of_like hev, ?_, hw.peerSets, hw.last.trans (le_max_left _ _), hw.le,
    hw.lowerBound, ?_, ?_, ?_, ?_, ?_, ?_, hw.frames⟩
  · rintro y (hy | rfl)
    · have hne : y ≠ x := fun heq => hx (heq ▸ hy)
      rw [Assignment.round_set_of_ne hne]
      exact hw.round_nonneg y hy
    · rw [Assignment.round_set_self]
      exact hr0
  · intro j info hi y hy
    rcases hback j info hi with ⟨info', hi', -, hrec⟩ | ⟨-, -, hnil⟩
    · exact (hw.received j info' hi' y (hrec ▸ hy)).of_like hev
    · rw [hnil] at hy
      cases hy
  · intro j h0 hj hb
    rcases le_or_gt j h.store.lastRound with hle | hlt
    · obtain ⟨info, hi⟩ := Map.mem_iff_lookup.1 (hw.rounds j h0 hle hb)
      obtain ⟨info', hi', -⟩ := hkept j info hi
      exact Map.mem_iff_lookup.2 ⟨info', hi'⟩
    · obtain rfl : j = r := by
        simp only [le_max_iff] at hj
        omega
      exact Map.mem_iff_lookup.2 ⟨_, (hrounds j).trans (if_pos rfl)⟩
  · intro j hj hjq
    exact hw.top j ((le_max_left _ _).trans_lt hj) hjq
  · split_ifs with hnew
    · rw [List.map_append, List.pairwise_append]
      refine ⟨hw.sorted, by simp, ?_⟩
      intro a ha b hb
      have := ((hw.pending a).1 ha).2
      simp only [List.map_cons, List.map_nil, List.mem_singleton] at hb
      omega
    · exact hw.sorted
  · intro j
    split_ifs with hnew
    · have hqr : q < r := not_le.1 fun hle => by
        have := hw.top r hnew.1 hle
        rw [hnew.2] at this
        cases this
      rw [List.map_append, List.mem_append, hw.pending]
      simp only [List.map_cons, List.map_nil, List.mem_singleton, le_max_iff]
      omega
    · rw [hw.pending]
      simp only [le_max_iff]
      rcases le_or_gt r h.store.lastRound with hle | hlt
      · omega
      · -- a new round up to the lower bound
        have hb : h.belowLowerBound r = true := by
          rw [← Bool.not_eq_false]
          exact fun hb => hnew ⟨hlt, hb⟩
        have : ¬q < r := fun hqr => by
          rw [hw.belowLowerBound hqr] at hb
          cases hb
        omega
  · intro j info hi hjq hb
    change h.belowLowerBound j = false at hb
    rcases hback j info hi with ⟨info', hi', hdec, -⟩ | ⟨hnone, rfl, -⟩
    · rw [hdec]
      exact hw.decided j info' hi' hjq hb
    · have hle : j ≤ h.store.lastRound := not_lt.1 fun hlt => by
        have := hw.top j hlt hjq
        rw [hb] at this
        cases this
      have := hw.rounds j hr0 hle hb
      rw [← AList.lookup_isSome, hnone] at this
      cases this
  · intro p hp hdec
    have hold : p ∈ h.pendingRounds := by
      split_ifs at hp with hnew
      · rcases List.mem_append.1 hp with hp | hp
        · exact hp
        · rw [List.mem_singleton.1 hp] at hdec
          cases hdec
      · exact hp
    obtain ⟨info, hi, hinfo⟩ := hw.flags p hold hdec
    obtain ⟨info', hi', hdec'⟩ := hkept _ info hi
    exact ⟨info', hi', hdec'.trans hinfo⟩

end New

/-- A round that still records the same events, and may have received events with `C`. -/
structure RoundKept (C : H → Prop) (i i' : RoundInfo H) : Prop where
  created : ∀ x, Option.Rel (fun e e' => e'.witness = e.witness) (i.createdEvents.lookup x)
    (i'.createdEvents.lookup x)
  decided : i.decided = true → i'.decided = true
  received : ∀ x ∈ i'.receivedEvents, x ∈ i.receivedEvents ∨ C x

/-- Rounds that still record the same events. -/
def RoundsKept (C : H → Prop) (rc rc' : Map ℤ (RoundInfo H)) : Prop :=
  ∀ j, Option.Rel (RoundKept C) (rc.lookup j) (rc'.lookup j)

theorem RoundsKept.lookup {C : H → Prop} {rc rc' : Map ℤ (RoundInfo H)} (h : RoundsKept C rc rc')
    {j : ℤ} {i : RoundInfo H} (hi : rc.lookup j = some i) :
    ∃ i', rc'.lookup j = some i' ∧ RoundKept C i i' := by
  have hj := h j
  rw [hi] at hj
  cases hl : rc'.lookup j with
  | none => rw [hl] at hj; cases hj
  | some i' => rw [hl] at hj; cases hj with | some hj => exact ⟨i', rfl, hj⟩

theorem RoundsKept.lookup_back {C : H → Prop} {rc rc' : Map ℤ (RoundInfo H)}
    (h : RoundsKept C rc rc') {j : ℤ} {i' : RoundInfo H} (hi : rc'.lookup j = some i') :
    ∃ i, rc.lookup j = some i ∧ RoundKept C i i' := by
  have hj := h j
  rw [hi] at hj
  cases hl : rc.lookup j with
  | none => rw [hl] at hj; cases hj
  | some i => rw [hl] at hj; cases hj with | some hj => exact ⟨i, rfl, hj⟩

theorem RoundsKept.mem_iff {C : H → Prop} {rc rc' : Map ℤ (RoundInfo H)} (h : RoundsKept C rc rc')
    {j : ℤ} : j ∈ rc' ↔ j ∈ rc := by
  simp only [Map.mem_iff_lookup]
  constructor
  · rintro ⟨i', hi'⟩
    obtain ⟨i, hi, -⟩ := h.lookup_back hi'
    exact ⟨i, hi⟩
  · rintro ⟨i, hi⟩
    obtain ⟨i', hi', -⟩ := h.lookup hi
    exact ⟨i', hi'⟩

/-- A pass that keeps what the rounds record, and the indexes of the pending rounds. -/
theorem WellFormed.of_rounds (hw : WellFormed S A D q f h) {C : H → Prop} {ec : Map H (Event H K)}
    {rc : Map ℤ (RoundInfo H)} {m : Memo H} {us : List H} {pr : PendingRounds}
    (hC : ∀ x, C x → Rooted h.store.eventCache x) (hec : EventsLike h.store.eventCache ec)
    (hrc : RoundsKept C h.store.roundCache rc) (hm : h.memo.SameRounds m)
    (hus : ∀ x ∈ us, Rooted h.store.eventCache x)
    (hpr : pr.map PendingRound.index = h.pendingRounds.map PendingRound.index)
    (hflags : ∀ p ∈ pr, p.decided = true →
      ∃ info, rc.lookup p.index = some info ∧ info.decided = true) :
    WellFormed S A D q f
      { h.withEvents ec rc m with undeterminedEvents := us, pendingRounds := pr } := by
  have hmem : ∀ {y}, y ∈ h.store.eventCache → y ∈ ec := fun hy => hec.mem_iff.2 hy
  have hd := hw.divided
  refine ⟨hec.keys hw.keys, ⟨fun x hx => hmem (hd.stored x hx), ?_, ?_, ?_, ?_, ?_, ?_, ?_, ?_, ?_⟩, hw.round_nonneg,
    fun x hx => hmem (hw.items x hx), fun k x hx => hmem (hw.consensus k x hx),
    fun x hx => (hus x hx).of_like hec, ?_, hw.peerSets, hw.last, hw.le, hw.lowerBound,
    fun j h0 hj hb => hrc.mem_iff.2 (hw.rounds j h0 hj hb), hw.top, ?_, ?_, ?_, hflags, hw.frames⟩
  · simpa only [withEvents, hm.round] using hd.round
  · simpa only [withEvents, hm.round] using hd.round_none
  · simpa only [withEvents, hm.witness] using hd.witness
  · simpa only [withEvents, hm.witness] using hd.witness_none
  · simpa only [withEvents, hm.timestamp] using hd.lamport
  · simpa only [withEvents, hm.timestamp] using hd.lamport_cached
  · intro r info x e hi he
    obtain ⟨info₀, hi₀, hk⟩ := hrc.lookup_back hi
    have hx := hk.created x
    rw [he] at hx
    cases hl : info₀.createdEvents.lookup x with
    | none => rw [hl] at hx; cases hx
    | some e₀ =>
      rw [hl] at hx
      cases hx with
      | some hx =>
        rw [hx]
        exact hd.created r info₀ x e₀ hi₀ hl
  · intro x hx
    obtain ⟨info, e, hi, he⟩ := hd.recorded x hx
    obtain ⟨info', hi', hk⟩ := hrc.lookup hi
    have hx := hk.created x
    rw [he] at hx
    cases hl : info'.createdEvents.lookup x with
    | none => rw [hl] at hx; cases hx
    | some e' => exact ⟨info', e', hi', hl⟩
  · exact fun r hr => hd.le_last r (hrc.mem_iff.1 hr)
  · intro r info hi x hx
    obtain ⟨info₀, hi₀, hk⟩ := hrc.lookup_back hi
    exact ((hk.received x hx).elim (hw.received r info₀ hi₀ x) (hC x)).of_like hec
  · rw [hpr]
    exact hw.sorted
  · rw [hpr]
    exact hw.pending
  · intro j info hi hjq hb
    obtain ⟨info₀, hi₀, hk⟩ := hrc.lookup_back hi
    exact hk.decided (hw.decided j info₀ hi₀ hjq hb)

theorem rel_of_judged {V : H → Bool → Prop} {i i' : RoundInfo H} (h : i.Judged V i')
    (x : H) : Option.Rel (fun e e' => e'.witness = e.witness) (i.createdEvents.lookup x)
      (i'.createdEvents.lookup x) := by
  have hc := h.created x
  revert hc
  generalize i.createdEvents.lookup x = a
  generalize i'.createdEvents.lookup x = b
  rintro (hc | _)
  · exact .some hc.witness
  · exact .none

theorem PendingRounds.map_update (c : PendingRounds) (dl : List ℤ) :
    (c.update dl).map PendingRound.index = c.map PendingRound.index := by
  simp only [PendingRounds.update, List.map_map]
  refine List.map_congr_left fun p _ => ?_
  simp only [Function.comp]
  split_ifs <;> rfl

/-- The fame pass. -/
theorem WellFormed.of_passed (hw : WellFormed S A D q f h) {rc : Map ℤ (RoundInfo H)} {m : Memo H}
    {dl : List ℤ} (hm : h.memo.SameRounds m)
    (hp : Passed R ps h.store h.pendingRounds h.store.roundCache rc dl) :
    WellFormed S A D q f { h.withRounds rc m with pendingRounds := h.pendingRounds.update dl } := by
  have hkept : RoundsKept (fun _ => False) h.store.roundCache rc := by
    intro j
    by_cases hj : j ∈ h.pendingRounds.map PendingRound.index
    · obtain ⟨i, i', hi, hjd, hset, -⟩ := hp.judged j hj
      rw [hi, hset]
      have hcreated := rel_of_judged hjd
      refine .some ⟨hcreated, fun hdec => ?_, fun x hx => Or.inl ?_⟩
      · simp [RoundInfo.settle, RoundInfo.witnessesDecided, hjd.decided, hdec]
      · rw [← hjd.received]
        exact hx
    · rw [hp.other j hj]
      cases h.store.roundCache.lookup j with
      | none => exact .none
      | some i =>
        refine .some ⟨fun x => ?_, id, fun x hx => Or.inl hx⟩
        cases i.createdEvents.lookup x with
        | none => exact .none
        | some e => exact .some rfl
  refine hw.of_rounds (fun x hx => hx.elim) (EventsLike.refl _) hkept hm hw.undetermined
    (PendingRounds.map_update _ _) fun p hpm hdec => ?_
  obtain ⟨p₀, hp₀, rfl⟩ := List.mem_map.1 hpm
  have hidx : (if p₀.index ∈ dl then { p₀ with decided := true } else p₀).index = p₀.index := by
    split_ifs <;> rfl
  rw [hidx]
  by_cases hdl : p₀.index ∈ dl
  · obtain ⟨i, i', -, -, hset, hmem⟩ := hp.judged _ (hp.sub _ hdl)
    exact ⟨_, hset, by simp [RoundInfo.settle, hmem.1 hdl]⟩
  · rw [if_neg hdl] at hdec
    obtain ⟨info, hi, hinfo⟩ := hw.flags p₀ hp₀ hdec
    obtain ⟨info', hi', hk⟩ := hkept.lookup hi
    exact ⟨info', hi', hk.decided hinfo⟩

/-- The round-received pass. -/
theorem WellFormed.of_received (hw : WellFormed S A D q f h) {ρ : H → ℤ} {ec : Map H (Event H K)}
    {rc : Map ℤ (RoundInfo H)} {m : Memo H} {l : ℤ → List H} {rest : List H}
    (hs : Receiving S R ps h l ec rc m)
    (hr : ReceivedFrom R ps h ρ h.undeterminedEvents (fun _ => []) l rest) :
    WellFormed S A D q f { h.withEvents ec rc m with undeterminedEvents := rest } := by
  have hkept : RoundsKept (· ∈ h.undeterminedEvents) h.store.roundCache rc := by
    intro j
    have hj := hs.rounds j
    obtain ⟨new, hnew, hsub, -⟩ := hr.found j
    rw [List.nil_append] at hnew
    revert hj
    generalize h.store.roundCache.lookup j = a
    generalize rc.lookup j = b
    rintro (@⟨i, i', hj⟩ | _)
    · refine .some ⟨fun x => ?_, fun hdec => ?_, fun x hx => ?_⟩
      · rw [hj.created]
        cases i.createdEvents.lookup x with
        | none => exact .none
        | some e => exact .some rfl
      · rcases hj.decided with hd | hd
        · exact hd.trans hdec
        · rw [hd, RoundInfo.witnessesDecided, hdec, Bool.true_or]
      · rw [hj.received, List.mem_append, hnew] at hx
        exact hx.imp_right fun hx => hsub.subset hx
    · exact .none
  refine hw.of_rounds hw.undetermined hs.events hkept hs.memo.same
    (fun x hx => hw.undetermined x (hr.rest_sub.subset hx)) rfl fun p hp hdec => ?_
  obtain ⟨info, hi, hinfo⟩ := hw.flags p hp hdec
  obtain ⟨info', hi', hk⟩ := hkept.lookup hi
  exact ⟨info', hi', hk.decided hinfo⟩

/-! ## The passes return -/

theorem WellFormed.canVote (hw : WellFormed S A D q f h) (hR : R.Holds S h.store)
    (hpeers : ∀ j, j ≤ h.store.lastRound → h.store.getPeerSet j = .ok (ps j))
    (hin : ∀ j, R.Peers (ps j)) : CanVote S R ps (q + 1) h.store where
  holds := hR
  rounds j hj hjl := hw.rounds j (by have := hw.le; omega) hjl (hw.belowLowerBound (by omega))
  stored _ w hjw := hw.divided.stored w (hw.divided.witnessAt_iff.1 hjw).1
  once j j' w hj hj' := by
    rw [hw.divided.witnessAt_iff] at hj hj'
    exact hj.2.1.symm.trans hj'.2.1
  peers j _ hj := hpeers j hj
  inUse := hin

theorem WellFormed.canReceive (hw : WellFormed S A D q f h) (hR : R.Holds S h.store)
    (hpeers : ∀ j, j ≤ h.store.lastRound → h.store.getPeerSet j = .ok (ps j)) :
    CanReceive S R ps h where
  holds := hR
  stored _ w hjw := hw.divided.stored w (hw.divided.witnessAt_iff.1 hjw).1
  peers := hpeers

/-- The fame pass on a well-formed hashgraph. -/
theorem WellFormed.returns_decideFame (hw : WellFormed S A D q f h) (hR : R.Holds S h.store)
    (hm : h.memo.Coherent S R)
    (hpeers : ∀ j, j ≤ h.store.lastRound → h.store.getPeerSet j = .ok (ps j))
    (hin : ∀ j, R.Peers (ps j)) :
    Exec.Returns (decideFame S rt) h fun _ h' =>
      ∃ rc m dl, h' = { h.withRounds rc m with pendingRounds := h.pendingRounds.update dl } ∧
        h.memo.Extends S R m ∧
        Passed R ps h.store h.pendingRounds h.store.roundCache rc dl := by
  refine Hashgraph.returns_decideFame (hw.canVote hR hpeers hin) hm ?_ fun p hp => ?_
  · exact hw.sorted.imp fun h => h.ne
  · have := (hw.pending p.index).1 (List.mem_map_of_mem hp)
    omega

/-- The round-received pass on a well-formed hashgraph. -/
theorem WellFormed.returns_decideRoundReceived (hw : WellFormed S A D q f h)
    (hD : ∀ x, x ∈ h.store.eventCache → D x) (hR : R.Holds S h.store) (hm : h.memo.Coherent S R)
    (hpeers : ∀ j, j ≤ h.store.lastRound → h.store.getPeerSet j = .ok (ps j)) :
    Exec.Returns (decideRoundReceived S rt) h fun _ h' => ∃ ec rc m l rest,
      h' = { h.withEvents ec rc m with undeterminedEvents := rest } ∧
        Receiving S R ps h l ec rc m ∧
        ReceivedFrom R ps h A.round h.undeterminedEvents (fun _ => []) l rest :=
  Hashgraph.returns_decideRoundReceived (hw.canReceive hR hpeers) hm fun x hx =>
    have hs := (hw.undetermined x hx).mem
    ⟨hs, hw.divided.round x (hD x hs), hw.divided.round_le (hD x hs)⟩

end Hashgraph

end Babble

import Babble.WellFormed

/-!
# What a frame contains

On a well-formed hashgraph the frame of a round is computed without errors, and only the
numbering of map visits changes in the caches. `FrameOf` describes the frame : the
events received in the round in consensus order, each with its assigned values, and a
root for the creators of these events and for the participants known by then. The order
in which maps were visited does not show in it.
-/

set_option linter.unusedSectionVars false

namespace Babble

variable {H K : Type} [DecidableEq H] [DecidableEq K] [Hex H] [Hex K]

/-- An event with its assigned round, timestamp and witness flag. -/
def frameEvent (A : Assignment H) (core : H → SignedEvent H K) (x : H) : FrameEvent H K :=
  { core := core x, round := A.round x, lamportTimestamp := A.lamport x, witness := A.witness x }

/-- The stored events, with an empty one for a hash that is not stored. -/
def InmemStore.core (st : InmemStore H K) (x : H) : SignedEvent H K :=
  match st.eventCache.lookup x with
  | some e => e.toSignedEvent
  | none => ⟨⟨[], [], none, none, [], 0, [], 0⟩, ""⟩

theorem InmemStore.core_eq {st : InmemStore H K} {x : H} {e : Event H K}
    (he : st.eventCache.lookup x = some e) : st.core x = e.toSignedEvent := by
  simp only [core, he]

/-- The hashes of a participant's events before `index`, the latest first. -/
def hashesBefore (st : InmemStore H K) (participant : K) : ℤ → ℕ → List H
  | _, 0 => []
  | index, n + 1 =>
    if 0 ≤ index - 1 then
      match st.participantEvent participant (index - 1) with
      | .error _ => []
      | .ok x => x :: hashesBefore st participant (index - 1) n
    else []

/-- The root of a participant with `head` as its last event. -/
def rootOf (A : Assignment H) (core : H → SignedEvent H K) (st : InmemStore H K) (k : K) :
    Option H → Root H K
  | none => {}
  | some x => ⟨((x :: hashesBefore st k (core x).body.index Query.rootDepth).map
      (frameEvent A core)).reverse⟩

/-- Whether a participant was added by round `r`. -/
def InmemStore.knownBy (st : InmemStore H K) (r : ℤ) (k : K) : Bool :=
  ((st.peerSetCache.repertoireByPubKey.lookup k).bind fun p =>
    st.peerSetCache.firstRound p.id).any fun fr => decide (fr ≤ r)

/-- The frame of round `r` that the store amounts to. -/
structure FrameOf (rt : Runtime) (A : Assignment H) (core : H → SignedEvent H K)
    (st : InmemStore H K) (r : ℤ) (info : RoundInfo H) (P : PeerSet K) (fr : Frame H K) : Prop where
  round : fr.round = r
  peers : fr.peers = P.peers
  events : fr.events =
    rt.sort FrameEvent.less (info.receivedEvents.map (frameEvent A core))
  roots : ∀ k, fr.roots.lookup k =
    match fr.events.find? fun e => decide (e.core.creator = k) with
    | some e => some (rootOf A core st k e.core.body.selfParent)
    | none => if st.knownBy r k then some (rootOf A core st k (st.lastConsensusEventFrom k))
      else none
  peerSets : fr.peerSets = st.peerSetCache.getAll
  timestamp : fr.timestamp = median (info.famousWitnesses.map fun w => (core w).body.timestamp)

namespace Query

variable {S : Scheme H K} {rt : Runtime} {st : InmemStore H K} {m : Memo H}
  {A : Assignment H} {core : H → SignedEvent H K}

/-- The stored events can be put in a frame. -/
structure Framable (A : Assignment H) (core : H → SignedEvent H K) (st : InmemStore H K)
    (m : Memo H) : Prop where
  core : ∀ x e, st.eventCache.lookup x = some e → core x = e.toSignedEvent
  round : ∀ x, x ∈ st.eventCache → m.roundCache.lookup x = some (A.round x)
  lamport : ∀ x, x ∈ st.eventCache → m.timestampCache.lookup x = some (A.lamport x)
  recorded : ∀ x, x ∈ st.eventCache → ∃ info e, st.roundCache.lookup (A.round x) = some info ∧
    info.createdEvents.lookup x = some e ∧ e.witness = A.witness x
  items : ∀ x, st.participantEventsCache.Holds x → x ∈ st.eventCache

theorem returns_createFrameEvent (hf : Framable A core st m) {x : H} (hx : x ∈ st.eventCache) :
    Exec.Returns (createFrameEvent S rt st x) m fun fe m' => fe = frameEvent A core x ∧ m' = m := by
  obtain ⟨e, hget, he⟩ := getEvent_of_mem hx
  obtain ⟨info, re, hinfo, hre, hw⟩ := hf.recorded x hx
  unfold createFrameEvent
  simp only [hget]
  refine Exec.Returns.bind (returns_round_of_cached (hf.round x hx) ?_)
  refine Exec.Returns.bind (Exec.returns_ofExcept (a := info)
    (by simp [InmemStore.getRound, hinfo]) ?_)
  simp only [hre]
  refine Exec.Returns.bind (returns_lamportTimestamp_of_cached (hf.lamport x hx)
    (Exec.returns_pure ⟨?_, rfl⟩))
  rw [frameEvent, hf.core x e he, hw]

theorem returns_createFrameEvents (hf : Framable A core st m) (xs : List H)
    (hxs : ∀ x ∈ xs, x ∈ st.eventCache) :
    Exec.Returns (createFrameEvents S rt st xs) m fun fes m' =>
      fes = xs.map (frameEvent A core) ∧ m' = m := by
  induction xs with
  | nil => exact Exec.returns_pure ⟨rfl, rfl⟩
  | cons x xs ih =>
    refine Exec.Returns.bind ((returns_createFrameEvent hf (hxs x List.mem_cons_self)).mono ?_)
    rintro fe m' ⟨rfl, rfl⟩
    refine Exec.Returns.bind ((ih fun y hy => hxs y (List.mem_cons_of_mem x hy)).mono ?_)
    rintro fes m' ⟨rfl, rfl⟩
    exact Exec.returns_pure ⟨rfl, rfl⟩

theorem returns_eventsBefore (hf : Framable A core st m) (k : K) (n : ℕ) (index : ℤ) :
    Exec.Returns (eventsBefore S rt st k index n) m fun fes m' =>
      fes = (hashesBefore st k index n).map (frameEvent A core) ∧ m' = m := by
  induction n generalizing index with
  | zero => exact Exec.returns_pure ⟨rfl, rfl⟩
  | succ n ih =>
    unfold eventsBefore hashesBefore
    split_ifs with h0
    · cases hp : st.participantEvent k (index - 1) with
      | error err => exact Exec.returns_pure ⟨rfl, rfl⟩
      | ok x =>
        have hx := hf.items x (ParticipantEventsCache.holds_of_getItem hp)
        refine Exec.Returns.bind ((returns_createFrameEvent hf hx).mono ?_)
        rintro fe m' ⟨rfl, rfl⟩
        refine Exec.Returns.bind ((ih (index - 1)).mono ?_)
        rintro fes m' ⟨rfl, rfl⟩
        exact Exec.returns_pure ⟨rfl, rfl⟩
    · exact Exec.returns_pure ⟨rfl, rfl⟩

theorem foldl_insert (l : List (FrameEvent H K)) (r : Root H K) :
    l.foldl Root.insert r = ⟨r.events ++ l⟩ := by
  induction l generalizing r with
  | nil => simp
  | cons e l ih => rw [List.foldl_cons, ih, Root.insert, List.append_assoc]; rfl

theorem returns_createRoot (hf : Framable A core st m) (k : K) {head : Option H}
    (hhead : ∀ x, head = some x → x ∈ st.eventCache) :
    Exec.Returns (createRoot S rt st k head) m fun r m' => r = rootOf A core st k head ∧ m' = m := by
  cases head with
  | none => exact Exec.returns_pure ⟨rfl, rfl⟩
  | some x =>
    refine Exec.Returns.bind ((returns_createFrameEvent hf (hhead x rfl)).mono ?_)
    rintro fe m' ⟨rfl, rfl⟩
    refine Exec.Returns.bind ((returns_eventsBefore hf k rootDepth _).mono ?_)
    rintro fes m' ⟨rfl, rfl⟩
    refine Exec.returns_pure ⟨?_, rfl⟩
    rw [foldl_insert]
    rfl

/-- The roots after the events of a list : a creator without a root gets one under its
first event. -/
theorem returns_rootsOfEvents (hf : Framable A core st m) (evs : List (FrameEvent H K))
    (hevs : ∀ e ∈ evs, ∀ p, e.core.body.selfParent = some p → p ∈ st.eventCache)
    (roots : Map K (Root H K)) :
    Exec.Returns (rootsOfEvents S rt st roots evs) m fun roots' m' => m' = m ∧
      ∀ k, roots'.lookup k = (roots.lookup k).or
        ((evs.find? fun e => decide (e.core.creator = k)).map fun e =>
          rootOf A core st k e.core.body.selfParent) := by
  induction evs generalizing roots with
  | nil => exact Exec.returns_pure ⟨rfl, fun k => by simp⟩
  | cons ev evs ih =>
    have hevs' := fun e he => hevs e (List.mem_cons_of_mem ev he)
    unfold rootsOfEvents
    cases hl : roots.lookup ev.core.creator with
    | some r =>
      simp only
      refine (ih hevs' roots).mono fun roots' m' ⟨hm, hroots⟩ => ⟨hm, fun k => ?_⟩
      rw [hroots, List.find?_cons]
      by_cases hk : ev.core.creator = k
      · subst hk
        simp [hl]
      · simp [hk]
    | none =>
      simp only
      refine Exec.Returns.bind ((returns_createRoot hf ev.core.creator
        (hevs ev List.mem_cons_self)).mono ?_)
      rintro r m' ⟨rfl, rfl⟩
      refine (ih hevs' _).mono fun roots' m' ⟨hm, hroots⟩ => ⟨hm, fun k => ?_⟩
      rw [hroots, List.find?_cons, Map.lookup_insert_ite]
      by_cases hk : ev.core.creator = k
      · subst hk
        simp [hl]
      · have hk' : ¬k = ev.core.creator := fun h => hk h.symm
        simp [hk, hk']

/-- The roots after the participants of a list. -/
theorem returns_rootsOfOthers (hf : Framable A core st m)
    (hlast : ∀ k x, st.lastConsensusEventFrom k = some x → x ∈ st.eventCache) {r : ℤ}
    (rest : List (K × Peer K)) (roots : Map K (Root H K)) :
    Exec.Returns (rootsOfOthers S rt st r roots rest) m fun roots' m' => m' = m ∧
      ∀ k, roots'.lookup k = (roots.lookup k).or
        (if rest.any fun e => decide (e.1 = k) &&
            (st.peerSetCache.firstRound e.2.id).any fun fr => decide (fr ≤ r) then
          some (rootOf A core st k (st.lastConsensusEventFrom k)) else none) := by
  induction rest generalizing roots with
  | nil => exact Exec.returns_pure ⟨rfl, fun k => by simp⟩
  | cons e rest ih =>
    obtain ⟨p, peer⟩ := e
    unfold rootsOfOthers
    cases hfr : st.peerSetCache.firstRound peer.id with
    | none =>
      simp only
      refine (ih roots).mono fun roots' m' ⟨hm, hroots⟩ => ⟨hm, fun k => ?_⟩
      simp only [hroots, List.any_cons, hfr, Option.any_none, Bool.and_false, Bool.false_or]
    | some fr =>
      cases hl : roots.lookup p with
      | some root =>
        simp only
        refine (ih roots).mono fun roots' m' ⟨hm, hroots⟩ => ⟨hm, fun k => ?_⟩
        rw [hroots]
        by_cases hk : p = k
        · subst hk
          simp [hl]
        · simp only [List.any_cons, hk, decide_false, Bool.false_and, Bool.false_or]
      | none =>
        simp only
        split_ifs with hlt
        · refine (ih roots).mono fun roots' m' ⟨hm, hroots⟩ => ⟨hm, fun k => ?_⟩
          have : ¬fr ≤ r := not_le.2 hlt
          simp only [hroots, List.any_cons, hfr, Option.any_some, this, decide_false,
            Bool.and_false, Bool.false_or]
        · refine Exec.Returns.bind ((returns_createRoot hf p (hlast p)).mono ?_)
          rintro root m' ⟨rfl, rfl⟩
          refine (ih _).mono fun roots' m' ⟨hm, hroots⟩ => ⟨hm, fun k => ?_⟩
          have : fr ≤ r := not_lt.1 hlt
          rw [hroots, Map.lookup_insert_ite]
          by_cases hk : p = k
          · subst hk
            simp [hl, hfr, this]
          · have hk' : ¬k = p := fun h => hk h.symm
            simp only [List.any_cons, hk, hk', decide_false, Bool.false_and, Bool.false_or, if_false]

theorem returns_timestamps (hf : Framable A core st m) (ws : List H)
    (hws : ∀ w ∈ ws, w ∈ st.eventCache) :
    Exec.Returns (timestamps st ws) m fun ts m' =>
      ts = ws.map (fun w => (core w).body.timestamp) ∧ m' = m := by
  induction ws with
  | nil => exact Exec.returns_pure ⟨rfl, rfl⟩
  | cons w ws ih =>
    obtain ⟨e, hget, he⟩ := getEvent_of_mem (hws w List.mem_cons_self)
    refine Exec.Returns.bind (Exec.returns_ofExcept hget ?_)
    refine Exec.Returns.bind ((ih fun y hy => hws y (List.mem_cons_of_mem w hy)).mono ?_)
    rintro ts m' ⟨rfl, rfl⟩
    refine Exec.returns_pure ⟨?_, rfl⟩
    rw [List.map_cons, hf.core w e he]

theorem Framable.tick (hf : Framable A core st m) (n : ℕ) :
    Framable A core st { m with tick := n } :=
  ⟨hf.core, hf.round, hf.lamport, hf.recorded, hf.items⟩

/-- A visit of the repertoire finds the participants known by a round. -/
theorem any_knownBy (n : ℕ) (r : ℤ) (k : K) :
    ((rt.order n st.peerSetCache.repertoireByPubKey.toPairs).any fun e => decide (e.1 = k) &&
      (st.peerSetCache.firstRound e.2.id).any fun fr => decide (fr ≤ r)) = st.knownBy r k := by
  rw [Bool.eq_iff_iff, List.any_eq_true]
  unfold InmemStore.knownBy
  constructor
  · rintro ⟨⟨k', p⟩, hmem, hk⟩
    simp only [Bool.and_eq_true, decide_eq_true_eq] at hk
    obtain ⟨rfl, hany⟩ := hk
    rw [Map.mem_toPairs.1 ((rt.mem_order _).1 hmem)]
    exact hany
  · intro hany
    cases hl : st.peerSetCache.repertoireByPubKey.lookup k with
    | none => rw [hl] at hany; simp at hany
    | some p =>
      rw [hl] at hany
      exact ⟨(k, p), (rt.mem_order _).2 (Map.mem_toPairs.2 hl), by simpa using hany⟩

/-- The computation of a frame. -/
theorem returns_computeFrame (hf : Framable A core st m)
    (hlast : ∀ k x, st.lastConsensusEventFrom k = some x → x ∈ st.eventCache) {r : ℤ}
    {info : RoundInfo H} {P : PeerSet K} (hinfo : st.roundCache.lookup r = some info)
    (hP : st.getPeerSet r = .ok P)
    (hrec : ∀ x ∈ info.receivedEvents, Rooted st.eventCache x)
    (hfw : ∀ w ∈ info.famousWitnesses, w ∈ st.eventCache) :
    Exec.Returns (computeFrame S rt st r) m fun fr m' =>
      FrameOf rt A core st r info P fr ∧ ∃ n, m' = { m with tick := n } := by
  refine Exec.Returns.bind (Exec.returns_ofExcept (a := info)
    (by simp [InmemStore.getRound, hinfo]) ?_)
  refine Exec.Returns.bind (Exec.returns_ofExcept hP ?_)
  refine Exec.Returns.bind ((returns_createFrameEvents hf info.receivedEvents
    fun x hx => (hrec x hx).mem).mono ?_)
  rintro _ _ ⟨rfl, rfl⟩
  have hsp : ∀ e ∈ rt.sort FrameEvent.less (info.receivedEvents.map (frameEvent A core)),
      ∀ p, e.core.body.selfParent = some p → p ∈ st.eventCache := by
    intro e he p hp
    obtain ⟨x, hx, rfl⟩ := List.mem_map.1 (rt.mem_sort.1 he)
    obtain ⟨ev, hev, hroot⟩ := hrec x hx
    refine hroot p ?_
    rw [← hp, frameEvent, hf.core x ev hev]
  refine Exec.Returns.bind ((returns_rootsOfEvents hf _ hsp ∅).mono ?_)
  rintro roots _ ⟨rfl, hroots⟩
  refine Exec.Returns.bind (returns_visit ?_)
  refine Exec.Returns.bind ((returns_rootsOfOthers (hf.tick _) hlast _ roots).mono ?_)
  rintro roots' _ ⟨rfl, hroots'⟩
  refine Exec.Returns.bind (returns_visit ?_)
  refine Exec.Returns.bind ((returns_timestamps ((hf.tick _).tick _) _
    fun w hw => hfw w (rt.mem_order _ |>.1 hw)).mono ?_)
  rintro ts _ ⟨rfl, rfl⟩
  refine Exec.returns_pure ⟨⟨rfl, rfl, rfl, fun k => ?_, rfl, ?_⟩, _, rfl⟩
  · rw [hroots', hroots, any_knownBy]
    cases List.find? (fun e => decide (e.core.creator = k))
      (rt.sort FrameEvent.less (info.receivedEvents.map (frameEvent A core))) <;> simp
  · exact median_eq_of_perm ((rt.order_perm _ _).map _)

end Query

end Babble

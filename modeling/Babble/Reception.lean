import Babble.Fame

/-!
# The round-received pass

`decideRoundReceived` walks through the undetermined events. For each it looks, from the
round after the event's own, for the first round that receives it (`Hits`), past rounds
that are decided and do not (`Misses`), and up to the first round that is missing or
undecided (`Stops`). It changes nothing but the `roundReceived` of events, the lists of
received events and the `decided` flags.
-/

set_option linter.unusedSectionVars false

namespace Babble

variable {H K : Type} [DecidableEq H] [DecidableEq K] [Hex H] [Hex K]

/-! ## Events with the same coordinates -/

/-- Versions of an event that differ in the fields of consensus only. -/
structure Event.SameCoordinates (e e' : Event H K) : Prop where
  signed : e'.toSignedEvent = e.toSignedEvent
  wire : e'.wire = e.wire
  topologicalIndex : e'.topologicalIndex = e.topologicalIndex
  lastAncestors : e'.lastAncestors = e.lastAncestors
  firstDescendants : e'.firstDescendants = e.firstDescendants

theorem Event.SameCoordinates.refl (e : Event H K) : e.SameCoordinates e :=
  ⟨rfl, rfl, rfl, rfl, rfl⟩

theorem Event.SameCoordinates.trans {e e' e'' : Event H K} (h : e.SameCoordinates e')
    (h' : e'.SameCoordinates e'') : e.SameCoordinates e'' where
  signed := h'.signed.trans h.signed
  wire := h'.wire.trans h.wire
  topologicalIndex := h'.topologicalIndex.trans h.topologicalIndex
  lastAncestors := h'.lastAncestors.trans h.lastAncestors
  firstDescendants := h'.firstDescendants.trans h.firstDescendants

/-- The same events up to the fields of consensus. -/
def EventsLike (ec ec' : Map H (Event H K)) : Prop :=
  ∀ x, Option.Rel Event.SameCoordinates (ec.lookup x) (ec'.lookup x)

theorem EventsLike.refl (ec : Map H (Event H K)) : EventsLike ec ec := by
  intro x
  cases ec.lookup x with
  | none => exact .none
  | some e => exact .some (.refl e)

theorem EventsLike.trans {ec ec' ec'' : Map H (Event H K)} (h : EventsLike ec ec')
    (h' : EventsLike ec' ec'') : EventsLike ec ec'' := by
  intro x
  have h1 := h x
  have h2 := h' x
  revert h1 h2
  generalize ec.lookup x = a
  generalize ec'.lookup x = b
  generalize ec''.lookup x = c
  rintro (h1 | _) (h2 | _)
  · exact .some (h1.trans h2)
  · exact .none

theorem EventsLike.lookup {ec ec' : Map H (Event H K)} (h : EventsLike ec ec') {x : H}
    {e : Event H K} (he : ec.lookup x = some e) :
    ∃ e', ec'.lookup x = some e' ∧ e.SameCoordinates e' := by
  have hx := h x
  rw [he] at hx
  cases hl : ec'.lookup x with
  | none => rw [hl] at hx; cases hx
  | some e' => rw [hl] at hx; cases hx with | some hx => exact ⟨e', rfl, hx⟩

theorem EventsLike.mem_iff {ec ec' : Map H (Event H K)} (h : EventsLike ec ec') {x : H} :
    x ∈ ec' ↔ x ∈ ec := by
  have hx := h x
  rw [← AList.lookup_isSome, ← AList.lookup_isSome]
  revert hx
  generalize ec.lookup x = a
  generalize ec'.lookup x = b
  rintro (_ | _) <;> rfl

/-- Changing the fields of consensus of one event. -/
theorem EventsLike.insert {ec ec' : Map H (Event H K)} (h : EventsLike ec ec') {x : H}
    {e e' : Event H K} (he : ec'.lookup x = some e) (hs : e.SameCoordinates e') :
    EventsLike ec (ec'.insert x e') := by
  refine h.trans fun y => ?_
  rw [Map.lookup_insert_ite]
  split_ifs with hy
  · subst hy
    rw [he]
    exact .some hs
  · exact EventsLike.refl ec' y

namespace InmemStore

variable {st st' : InmemStore H K}

theorem sees_eq_of_like (h : EventsLike st.eventCache st'.eventCache) (x y : H) :
    st'.sees x y = st.sees x y := by
  have hx := h x
  have hy := h y
  unfold sees
  revert hx hy
  generalize st.eventCache.lookup x = a
  generalize st'.eventCache.lookup x = a'
  generalize st.eventCache.lookup y = b
  generalize st'.eventCache.lookup y = b'
  rintro (@⟨ex, ex', hx⟩ | _) (@⟨ey, ey', hy⟩ | _)
  · have hc : ey'.creator = ey.creator := congrArg SignedEvent.creator hy.signed
    simp only [hx.lastAncestors, hy.signed]
    rw [hc]
  all_goals rfl

theorem stronglySees_eq_of_like (h : EventsLike st.eventCache st'.eventCache) (x y : H)
    (P : PeerSet K) : st'.stronglySees x y P = st.stronglySees x y P := by
  have hx := h x
  have hy := h y
  unfold stronglySees
  revert hx hy
  generalize st.eventCache.lookup x = a
  generalize st'.eventCache.lookup x = a'
  generalize st.eventCache.lookup y = b
  generalize st'.eventCache.lookup y = b'
  rintro (@⟨ex, ex', hx⟩ | _) (@⟨ey, ey', hy⟩ | _)
  · have : ex'.reaches ey' = ex.reaches ey := by
      funext p
      simp only [Event.reaches, hx.lastAncestors, hy.firstDescendants]
    simp only [this]
  all_goals rfl

end InmemStore

theorem Reading.Holds.of_like {R : Reading H K} {S : Scheme H K} {st st' : InmemStore H K}
    (hR : R.Holds S st) (h : EventsLike st.eventCache st'.eventCache) : R.Holds S st' where
  sees x y hx hy := by
    rw [InmemStore.sees_eq_of_like h]
    exact hR.sees x y (h.mem_iff.1 hx) (h.mem_iff.1 hy)
  stronglySees x y P hP hx hy := by
    rw [InmemStore.stronglySees_eq_of_like h]
    exact hR.stronglySees x y P hP (h.mem_iff.1 hx) (h.mem_iff.1 hy)
  hash := hR.hash

/-! ## The pass -/

namespace Hashgraph

/-- The hashgraph with other events, rounds and caches. -/
def withEvents (h : Hashgraph H K) (ec : Map H (Event H K)) (rc : Map ℤ (RoundInfo H))
    (m : Memo H) : Hashgraph H K :=
  { h with store := { h.store with eventCache := ec, roundCache := rc }, memo := m }

variable {S : Scheme H K} {rt : Runtime} {R : Reading H K} {ps : ℤ → PeerSet K}

/-- Round `i` is decided, its famous witnesses are enough and all see `x`. -/
def Hits (R : Reading H K) (ps : ℤ → PeerSet K) (h : Hashgraph H K) (x : H) (i : ℤ) : Prop :=
  ∃ info, h.store.roundCache.lookup i = some info ∧ info.witnessesDecided (ps i) = true ∧
    (∀ w ∈ info.famousWitnesses, R.Sees w x true) ∧
    (ps i).superMajority ≤ info.famousWitnesses.length

/-- Round `i` is decided and does not receive `x`, or it is left to the frame of the
reset. -/
def Misses (R : Reading H K) (ps : ℤ → PeerSet K) (h : Hashgraph H K) (x : H) (i : ℤ) : Prop :=
  ∃ info, h.store.roundCache.lookup i = some info ∧
    ((info.witnessesDecided (ps i) = true ∧
        ((∃ w ∈ info.famousWitnesses, R.Sees w x false) ∨
          info.famousWitnesses.length < (ps i).superMajority)) ∨
      (info.witnessesDecided (ps i) = false ∧ h.belowLowerBound i = true))

/-- Round `i` ends the search. -/
def Stops (ps : ℤ → PeerSet K) (h : Hashgraph H K) (i : ℤ) : Prop :=
  ∀ info, h.store.roundCache.lookup i = some info →
    info.witnessesDecided (ps i) = false ∧ h.belowLowerBound i = false

/-- From round `i` on, `k` is the first round that receives `x`. -/
structure FoundAt (R : Reading H K) (ps : ℤ → PeerSet K) (h : Hashgraph H K) (x : H)
    (i k : ℤ) : Prop where
  le : i ≤ k
  le_last : k ≤ h.store.lastRound
  hits : Hits R ps h x k
  misses : ∀ j, i ≤ j → j < k → Misses R ps h x j

/-- From round `i` on, no round receives `x` before the search ends. -/
def NotFound (R : Reading H K) (ps : ℤ → PeerSet K) (h : Hashgraph H K) (x : H) (i : ℤ) : Prop :=
  ∃ k, i ≤ k ∧ (h.store.lastRound < k ∨ Stops ps h k) ∧ ∀ j, i ≤ j → j < k → Misses R ps h x j

theorem FoundAt.of_succ {h : Hashgraph H K} {x : H} {i k : ℤ} (hf : FoundAt R ps h x (i + 1) k)
    (hm : Misses R ps h x i) : FoundAt R ps h x i k where
  le := by have := hf.le; omega
  le_last := hf.le_last
  hits := hf.hits
  misses j hij hjk := by
    rcases hij.eq_or_lt with rfl | hlt
    · exact hm
    · exact hf.misses j (by omega) hjk

theorem NotFound.of_succ {h : Hashgraph H K} {x : H} {i : ℤ} (hf : NotFound R ps h x (i + 1))
    (hm : Misses R ps h x i) : NotFound R ps h x i := by
  obtain ⟨k, hik, hend, hmiss⟩ := hf
  refine ⟨k, by omega, hend, fun j hij hjk => ?_⟩
  rcases hij.eq_or_lt with rfl | hlt
  · exact hm
  · exact hmiss j (by omega) hjk

/-- A round in the course of the pass : settled or not, with events `l` received. -/
structure RoundReceiving (P : PeerSet K) (l : List H) (i i' : RoundInfo H) : Prop where
  created : i'.createdEvents = i.createdEvents
  received : i'.receivedEvents = i.receivedEvents ++ l
  decided : i'.decided = i.decided ∨ i'.decided = i.witnessesDecided P

theorem RoundReceiving.witnessesDecided {P : PeerSet K} {l : List H} {i i' : RoundInfo H}
    (h : RoundReceiving P l i i') : i'.witnessesDecided P = i.witnessesDecided P := by
  unfold RoundInfo.witnessesDecided
  rw [h.created]
  rcases h.decided with hd | hd
  · rw [hd]
  · rw [hd, RoundInfo.witnessesDecided]
    cases i.decided <;> simp

theorem RoundReceiving.famousWitnesses {P : PeerSet K} {l : List H} {i i' : RoundInfo H}
    (h : RoundReceiving P l i i') : i'.famousWitnesses = i.famousWitnesses := by
  unfold RoundInfo.famousWitnesses
  rw [h.created]

theorem RoundReceiving.settle {P : PeerSet K} {l : List H} {i i' : RoundInfo H}
    (h : RoundReceiving P l i i') : RoundReceiving P l i (i'.settle P) where
  created := h.created
  received := h.received
  decided := Or.inr h.witnessesDecided

/-- The rounds in the course of the pass, where `l j` was received in round `j`. -/
def RoundsReceiving (ps : ℤ → PeerSet K) (l : ℤ → List H) (rc rc' : Map ℤ (RoundInfo H)) : Prop :=
  ∀ j, Option.Rel (RoundReceiving (ps j) (l j)) (rc.lookup j) (rc'.lookup j)

theorem RoundsReceiving.refl (rc : Map ℤ (RoundInfo H)) :
    RoundsReceiving ps (fun _ => []) rc rc := by
  intro j
  cases rc.lookup j with
  | none => exact .none
  | some i => exact .some ⟨rfl, by simp, Or.inl rfl⟩

section Pass

variable {h : Hashgraph H K} {rc : Map ℤ (RoundInfo H)} {ec : Map H (Event H K)} {m m₀ : Memo H}
  {l : ℤ → List H}

theorem RoundsReceiving.lookup_none (hr : RoundsReceiving ps l h.store.roundCache rc) {j : ℤ}
    (hj : rc.lookup j = none) : h.store.roundCache.lookup j = none := by
  have h1 := hr j
  rw [hj] at h1
  cases hl : h.store.roundCache.lookup j with
  | none => rfl
  | some i => rw [hl] at h1; cases h1

theorem RoundsReceiving.lookup_some (hr : RoundsReceiving ps l h.store.roundCache rc) {j : ℤ}
    {i' : RoundInfo H} (hj : rc.lookup j = some i') :
    ∃ i, h.store.roundCache.lookup j = some i ∧ RoundReceiving (ps j) (l j) i i' := by
  have h1 := hr j
  rw [hj] at h1
  cases hl : h.store.roundCache.lookup j with
  | none => rw [hl] at h1; cases h1
  | some i => rw [hl] at h1; cases h1 with | some h1 => exact ⟨i, rfl, h1⟩

/-- Replacing a round and what was received in it. -/
theorem RoundsReceiving.insert (hr : RoundsReceiving ps l h.store.roundCache rc) {j : ℤ}
    {i i' : RoundInfo H} {lj : List H} (hi : h.store.roundCache.lookup j = some i)
    (hji : RoundReceiving (ps j) lj i i') :
    RoundsReceiving ps (Function.update l j lj) h.store.roundCache (rc.insert j i') := by
  intro k
  rw [Map.lookup_insert_ite]
  split_ifs with hk
  · subst hk
    rw [hi, Function.update_self]
    exact .some hji
  · rw [Function.update_of_ne hk]
    exact hr k

/-- The events, rounds and caches in the course of the pass. -/
structure Receiving (S : Scheme H K) (R : Reading H K) (ps : ℤ → PeerSet K) (h : Hashgraph H K)
    (l : ℤ → List H) (ec : Map H (Event H K)) (rc : Map ℤ (RoundInfo H)) (m : Memo H) : Prop where
  events : EventsLike h.store.eventCache ec
  rounds : RoundsReceiving ps l h.store.roundCache rc
  memo : h.memo.Extends S R m

/-- The famous witnesses are stored and there is a peer-set for every round. -/
structure CanReceive (S : Scheme H K) (R : Reading H K) (ps : ℤ → PeerSet K)
    (h : Hashgraph H K) : Prop where
  holds : R.Holds S h.store
  stored : ∀ j w, h.store.WitnessAt j w → w ∈ h.store.eventCache
  peers : ∀ j, j ≤ h.store.lastRound → h.store.getPeerSet j = .ok (ps j)

theorem returns_receive (hs : Receiving S R ps h l ec rc m) {x : H} {i : ℤ} {info : RoundInfo H}
    (hx : x ∈ h.store.eventCache) (hi : rc.lookup i = some info) :
    Exec.Returns (receive x i) (h.withEvents ec rc m) fun _ h' =>
      ∃ ec', h' = h.withEvents ec' (rc.insert i (info.addReceivedEvent x)) m ∧
        Receiving S R ps h (Function.update l i (l i ++ [x])) ec'
          (rc.insert i (info.addReceivedEvent x)) m := by
  obtain ⟨e, he⟩ := Map.mem_iff_lookup.1 (hs.events.mem_iff.2 hx)
  refine Exec.Returns.bind (returns_read (a := e)
    (by simp [withEvents, InmemStore.getEvent, he]) ?_)
  refine Exec.Returns.bind (returns_modifyStore (returns_modifyStore ?_))
  refine ⟨ec.insert x { e with roundReceived := some i }, ?_, ?_, ?_, hs.memo⟩
  · simp only [withEvents, InmemStore.modifyEvent, InmemStore.modifyRound, he, hi]
  · exact hs.events.insert he ⟨rfl, rfl, rfl, rfl, rfl⟩
  · obtain ⟨i₀, hi₀, hrec⟩ := hs.rounds.lookup_some hi
    refine hs.rounds.insert hi₀ ⟨hrec.created, ?_, hrec.decided⟩
    simp [RoundInfo.addReceivedEvent, hrec.received]

theorem returns_receivedBy (hc : CanReceive S R ps h) {x : H} (hx : x ∈ h.store.eventCache)
    (hs : Receiving S R ps h l ec rc m) {i : ℤ} {info tr : RoundInfo H}
    (hi : h.store.roundCache.lookup i = some info)
    (hf : tr.famousWitnesses = info.famousWitnesses) (P : PeerSet K) :
    Exec.Returns (receivedBy rt tr P x) (h.withEvents ec rc m) fun b h' =>
      ∃ m', h' = h.withEvents ec rc m' ∧ h.memo.Extends S R m' ∧
        if b then (∀ w ∈ info.famousWitnesses, R.Sees w x true) ∧
            P.superMajority ≤ info.famousWitnesses.length
        else (∃ w ∈ info.famousWitnesses, R.Sees w x false) ∨
            info.famousWitnesses.length < P.superMajority := by
  refine Exec.Returns.bind (returns_query (Query.returns_visit ?_))
  rw [hf]
  change Exec.Returns _ (h.withEvents ec rc { m with tick := m.tick + 1 }) _
  change Exec.Returns (query (fun st => Exec.filter (fun w => Query.see st w x)
    (rt.order m.tick info.famousWitnesses)) >>= fun s => pure (decide (s.length =
      (rt.order m.tick info.famousWitnesses).length ∧ P.superMajority ≤ s.length))) _ _
  have hlen : (rt.order m.tick info.famousWitnesses).length = info.famousWitnesses.length :=
    (rt.order_perm _ _).length_eq
  have hmem : ∀ w, w ∈ rt.order m.tick info.famousWitnesses ↔ w ∈ info.famousWitnesses :=
    fun w => rt.mem_order _
  have hnd : (rt.order m.tick info.famousWitnesses).Nodup :=
    (rt.order_perm _ _).nodup_iff.2 (Map.nodup_keysWith _ _)
  generalize rt.order m.tick info.famousWitnesses = fws at hlen hmem hnd
  have hws : ∀ w ∈ fws, w ∈ ec := by
    intro w hw
    obtain ⟨e, he, hfe⟩ := Map.mem_keysWith.1 ((hmem w).1 hw)
    rw [Bool.and_eq_true] at hfe
    exact hs.events.mem_iff.2
      (hc.stored i w ⟨info, hi, RoundInfo.mem_witnesses.2 ⟨e, he, hfe.1⟩⟩)
  have hholds : R.Holds S (h.withEvents ec rc { m with tick := m.tick + 1 }).store :=
    hc.holds.of_like hs.events
  refine Exec.Returns.bind (returns_query ((Query.returns_seers hholds
    (hs.events.mem_iff.2 hx) hnd hws (hs.memo.tick (m.tick + 1))).mono
    fun s m' ⟨hm', hsub, hall⟩ => Exec.returns_pure ⟨m', rfl, hm', ?_⟩))
  rw [hlen]
  simp only [decide_eq_true_eq]
  split_ifs with hrcv
  · -- a sublist of full length is the list
    have heq : s = fws := hsub.eq_of_length (hrcv.1.trans hlen.symm)
    refine ⟨fun w hw => ?_, hrcv.1 ▸ hrcv.2⟩
    obtain ⟨b, hb, hiff⟩ := hall w ((hmem w).2 hw)
    rwa [← hiff.1 (heq ▸ (hmem w).2 hw)]
  · by_cases hsl : s.length = info.famousWitnesses.length
    · exact Or.inr (not_le.1 fun h => hrcv ⟨hsl, hsl ▸ h⟩)
    · -- some famous witness did not pass the filter
      left
      by_contra hno
      refine hsl (le_antisymm (hlen ▸ hsub.length_le) (hlen ▸ ?_))
      refine (List.subperm_of_subset hnd fun w hw => ?_).length_le
      obtain ⟨b, hb, hiff⟩ := hall w hw
      cases b with
      | true => exact hiff.2 rfl
      | false => exact absurd ⟨w, (hmem w).1 hw, hb⟩ hno

/-- The outcome of a search for the round-received of `x` from round `i` on. -/
def Searched (S : Scheme H K) (R : Reading H K) (ps : ℤ → PeerSet K) (h : Hashgraph H K)
    (l : ℤ → List H) (x : H) (i : ℤ) (received : Bool) (h' : Hashgraph H K) : Prop :=
  ∃ ec rc m, h' = h.withEvents ec rc m ∧
    ((received = true ∧ ∃ k, FoundAt R ps h x i k ∧
        Receiving S R ps h (Function.update l k (l k ++ [x])) ec rc m) ∨
      (received = false ∧ NotFound R ps h x i ∧ Receiving S R ps h l ec rc m))

theorem Searched.of_succ {x : H} {i : ℤ} {received : Bool} {h' : Hashgraph H K}
    (hm : Misses R ps h x i) (hs : Searched S R ps h l x (i + 1) received h') :
    Searched S R ps h l x i received h' := by
  obtain ⟨ec, rc, m, rfl, ⟨hrv, k, hk, hs⟩ | ⟨hrv, hnf, hs⟩⟩ := hs
  · exact ⟨ec, rc, m, rfl, Or.inl ⟨hrv, k, hk.of_succ hm, hs⟩⟩
  · exact ⟨ec, rc, m, rfl, Or.inr ⟨hrv, hnf.of_succ hm, hs⟩⟩

theorem returns_receiveLoop (hc : CanReceive S R ps h) {x : H} (hx : x ∈ h.store.eventCache)
    (n : ℕ) :
    ∀ {i : ℤ} {ec : Map H (Event H K)} {rc : Map ℤ (RoundInfo H)} {m : Memo H},
      Receiving S R ps h l ec rc m → i + n = h.store.lastRound + 1 →
      Exec.Returns (receiveLoop rt x i n) (h.withEvents ec rc m)
        (Searched S R ps h l x i) := by
  induction n with
  | zero =>
    intro i ec rc m hs hin
    exact Exec.returns_pure ⟨ec, rc, m, rfl, Or.inr ⟨rfl,
      ⟨i, le_rfl, Or.inl (by omega), fun j h1 h2 => absurd h1 (by omega)⟩, hs⟩⟩
  | succ n ih =>
    intro i ec rc m hs hin
    have hil : i ≤ h.store.lastRound := by omega
    refine Exec.Returns.bind (Exec.returns_get ?_)
    cases hi : rc.lookup i with
    | none =>
      have hget : (h.withEvents ec rc m).store.getRound i =
          .error (.store "RoundCache" .keyNotFound) := by
        simp [withEvents, InmemStore.getRound, hi]
      rw [hget]
      have hnone := hs.rounds.lookup_none hi
      refine Exec.returns_pure ⟨ec, rc, m, rfl, Or.inr ⟨rfl, ⟨i, le_rfl, Or.inr ?_, ?_⟩, hs⟩⟩
      · intro info hinfo
        rw [hnone] at hinfo
        cases hinfo
      · exact fun j h1 h2 => absurd h1 (by omega)
    | some tr =>
      have hget : (h.withEvents ec rc m).store.getRound i = .ok tr := by
        simp [withEvents, InmemStore.getRound, hi]
      rw [hget]
      obtain ⟨i₀, hi₀, hrec⟩ := hs.rounds.lookup_some hi
      refine Exec.Returns.bind (returns_read (hc.peers i hil) ?_)
      refine Exec.Returns.bind (returns_modifyStore ?_)
      have hst : { h.withEvents ec rc m with
          store := (h.withEvents ec rc m).store.modifyRound i fun tr => tr.settle (ps i) } =
          h.withEvents ec (rc.insert i (tr.settle (ps i))) m := by
        simp only [withEvents, InmemStore.modifyRound, hi]
      rw [hst]
      -- a settled round stays as it is for the rest of the pass
      have hs' : Receiving S R ps h l ec (rc.insert i (tr.settle (ps i))) m := by
        refine ⟨hs.events, ?_, hs.memo⟩
        have := hs.rounds.insert hi₀ hrec.settle
        rwa [Function.update_eq_self] at this
      rw [hrec.witnessesDecided]
      split_ifs with hd
      · refine Exec.Returns.bind ((returns_receivedBy hc hx hs' hi₀ hrec.famousWitnesses _).mono ?_)
        rintro b _ ⟨m', rfl, hm', hb⟩
        have hs'' : Receiving S R ps h l ec (rc.insert i (tr.settle (ps i))) m' :=
          ⟨hs'.events, hs'.rounds, hm'⟩
        cases b with
        | true =>
          refine Exec.Returns.bind ((returns_receive hs'' hx (AList.lookup_insert _)).mono ?_)
          rintro _ _ ⟨ec', rfl, hs₃⟩
          exact Exec.returns_pure ⟨ec', _, m', rfl, Or.inl ⟨rfl, i, ⟨le_rfl, hil,
            ⟨i₀, hi₀, hd, hb⟩, fun j h1 h2 => absurd h1 (by omega)⟩, hs₃⟩⟩
        | false =>
          refine (ih hs'' (by push_cast at hin; omega)).mono fun received h' hres => ?_
          exact Searched.of_succ ⟨i₀, hi₀, Or.inl ⟨hd, hb⟩⟩ hres
      · have hd' : i₀.witnessesDecided (ps i) = false := by simpa using hd
        refine Exec.Returns.bind (Exec.returns_get ?_)
        split_ifs with hb
        · have hmiss : Misses R ps h x i := ⟨i₀, hi₀, Or.inr ⟨hd', hb⟩⟩
          exact (ih hs' (by push_cast at hin; omega)).mono fun received h' => Searched.of_succ hmiss
        · refine Exec.returns_pure ⟨ec, _, m, rfl, Or.inr ⟨rfl, ⟨i, le_rfl, Or.inr ?_, ?_⟩, hs'⟩⟩
          · intro info hinfo
            rw [hi₀] at hinfo
            obtain rfl := Option.some.inj hinfo
            exact ⟨hd', Bool.eq_false_iff.2 hb⟩
          · exact fun j h1 h2 => absurd h1 (by omega)

/-- The rounds, after the events `xs` were searched, with those left undetermined. -/
structure ReceivedFrom (R : Reading H K) (ps : ℤ → PeerSet K) (h : Hashgraph H K) (ρ : H → ℤ)
    (xs : List H) (l l' : ℤ → List H) (rest : List H) : Prop where
  rest_sub : rest.Sublist xs
  rest_notFound : ∀ x ∈ rest, NotFound R ps h x (ρ x + 1)
  found : ∀ k, ∃ new : List H, l' k = l k ++ new ∧ new.Sublist xs ∧
    ∀ x ∈ new, FoundAt R ps h x (ρ x + 1) k
  all : ∀ x ∈ xs, x ∈ rest ∨ ∃ k, x ∈ l' k

theorem returns_receiveEvents (hc : CanReceive S R ps h) {ρ : H → ℤ} (xs : List H) :
    ∀ {ec : Map H (Event H K)} {rc : Map ℤ (RoundInfo H)} {m : Memo H} {l : ℤ → List H},
      (∀ x ∈ xs, x ∈ h.store.eventCache ∧ h.memo.roundCache.lookup x = some (ρ x) ∧
        ρ x ≤ h.store.lastRound) →
      Receiving S R ps h l ec rc m →
      Exec.Returns (receiveEvents S rt xs) (h.withEvents ec rc m) fun rest h' =>
        ∃ ec' rc' m' l', h' = h.withEvents ec' rc' m' ∧ Receiving S R ps h l' ec' rc' m' ∧
          ReceivedFrom R ps h ρ xs l l' rest := by
  induction xs with
  | nil =>
    intro ec rc m l _ hs
    exact Exec.returns_pure ⟨ec, rc, m, l, rfl, hs, List.Sublist.refl _, by simp,
      fun k => ⟨[], by simp, List.Sublist.refl _, by simp⟩, by simp⟩
  | cons x xs ih =>
    intro ec rc m l hxs hs
    obtain ⟨hx, hρ, hle⟩ := hxs x List.mem_cons_self
    refine Exec.Returns.bind (returns_query (Query.returns_round_of_cached (r := ρ x) ?_ ?_))
    · rw [← hρ]
      exact congrArg (AList.lookup x) hs.memo.same.round
    refine Exec.Returns.bind (Exec.returns_get ?_)
    refine Exec.Returns.bind ((returns_receiveLoop hc hx _ hs
      (by simp only [withEvents]; omega)).mono ?_)
    rintro received _ ⟨ec₁, rc₁, m₁, rfl, hres⟩
    have hxs' := fun z hz => hxs z (List.mem_cons_of_mem x hz)
    rcases hres with ⟨rfl, k, hk, hs₁⟩ | ⟨rfl, hnf, hs₁⟩
    · refine Exec.Returns.bind ((ih hxs' hs₁).mono ?_)
      rintro rest _ ⟨ec', rc', m', l', rfl, hs', hrec⟩
      refine Exec.returns_pure ⟨ec', rc', m', l', rfl, hs', hrec.rest_sub.cons x,
        hrec.rest_notFound, fun j => ?_, fun z hz => ?_⟩
      · obtain ⟨new, hl, hsub, hnew⟩ := hrec.found j
        by_cases hjk : j = k
        · subst hjk
          rw [Function.update_self] at hl
          refine ⟨x :: new, by simp [hl], hsub.cons_cons x, ?_⟩
          rintro z (_ | ⟨_, hz⟩)
          exacts [hk, hnew z hz]
        · rw [Function.update_of_ne hjk] at hl
          exact ⟨new, hl, hsub.cons x, hnew⟩
      · rcases List.mem_cons.1 hz with rfl | hz
        · obtain ⟨new, hl, -, -⟩ := hrec.found k
          exact Or.inr ⟨k, by simp [hl]⟩
        · exact hrec.all z hz
    · refine Exec.Returns.bind ((ih hxs' hs₁).mono ?_)
      rintro rest _ ⟨ec', rc', m', l', rfl, hs', hrec⟩
      refine Exec.returns_pure ⟨ec', rc', m', l', rfl, hs', hrec.rest_sub.cons_cons x, ?_,
        fun j => ?_, fun z hz => ?_⟩
      · rintro z (_ | ⟨_, hz⟩)
        exacts [hnf, hrec.rest_notFound z hz]
      · obtain ⟨new, hl, hsub, hnew⟩ := hrec.found j
        exact ⟨new, hl, hsub.cons x, hnew⟩
      · rcases List.mem_cons.1 hz with rfl | hz
        · exact Or.inl List.mem_cons_self
        · exact (hrec.all z hz).imp_left (List.mem_cons_of_mem x)

/-- The round-received pass. -/
theorem returns_decideRoundReceived (hc : CanReceive S R ps h) {ρ : H → ℤ}
    (hm : h.memo.Coherent S R)
    (hx : ∀ x ∈ h.undeterminedEvents, x ∈ h.store.eventCache ∧
      h.memo.roundCache.lookup x = some (ρ x) ∧ ρ x ≤ h.store.lastRound) :
    Exec.Returns (decideRoundReceived S rt) h fun _ h' => ∃ ec rc m l rest,
      h' = { h.withEvents ec rc m with undeterminedEvents := rest } ∧
        Receiving S R ps h l ec rc m ∧
        ReceivedFrom R ps h ρ h.undeterminedEvents (fun _ => []) l rest := by
  refine Exec.Returns.bind (Exec.returns_get (Exec.Returns.bind ?_))
  change Exec.Returns _ (h.withEvents h.store.eventCache h.store.roundCache h.memo) _
  refine (returns_receiveEvents hc h.undeterminedEvents hx
    ⟨EventsLike.refl _, RoundsReceiving.refl _, hm, .refl _⟩).mono ?_
  rintro rest _ ⟨ec, rc, m, l, rfl, hs, hrec⟩
  exact Exec.returns_modify ⟨ec, rc, m, l, rest, rfl, hs, hrec⟩

end Pass

end Hashgraph

end Babble

import Babble.History
import Mathlib.Order.Bounds.Basic

/-!
# The table of peer-sets

Whatever the order in which peer-sets are recorded, the table has for each round the first
one that was recorded for it, and its derived indexes stay in step with that : `get` finds
the last peer-set at or before a round, `firstRound` the first round of a peer, and the
repertoires hold the peers of all recorded sets (`PeerSetCache.table_afterSets`).
-/

set_option linter.unusedSectionVars false

namespace Babble

variable {K : Type} [DecidableEq K] [Hex K]

namespace PeerSetCache

variable {c c' : PeerSetCache K} {f : ℤ → Option (PeerSet K)} {r : ℤ} {P : PeerSet K}

/-! ## Lookup -/

/-- The set for a round is the last one recorded at or before it, or the first one of all if
the round is before that. -/
theorem Records.get_cases (h : c.Records f) (r : ℤ) :
    (∃ j P, f j = some P ∧ IsGreatest {i | f i ≠ none ∧ i ≤ r} j ∧ c.get r = .ok P) ∨
    (∃ j P, f j = some P ∧ IsLeast {i | f i ≠ none} j ∧ r < j ∧ c.get r = .ok P) ∨
    (∀ j, f j = none) ∧ c.get r = .error (.store "PeerSetCache" .keyNotFound) := by
  unfold get
  rw [h.lookup]
  cases hr : f r with
  | some P =>
    refine Or.inl ⟨r, P, hr, ⟨⟨?_, le_rfl⟩, fun i hi => hi.2⟩, rfl⟩
    rw [hr]
    exact Option.some_ne_none P
  | none =>
    cases hrounds : c.rounds with
    | nil =>
      refine Or.inr (Or.inr ⟨fun j => ?_, rfl⟩)
      by_contra hj
      have := (h.mem_rounds j).2 hj
      rw [hrounds] at this
      cases this
    | cons r₀ rs =>
      have hsorted := h.sorted
      have hmem := h.mem_rounds
      rw [hrounds] at hsorted hmem
      rcases lt_or_ge r r₀ with hlt | hge
      · have h₀ : f r₀ ≠ none := (hmem r₀).1 List.mem_cons_self
        obtain ⟨P, hP⟩ := Option.ne_none_iff_exists'.1 h₀
        refine Or.inr (Or.inl ⟨r₀, P, hP, ⟨h₀, fun i hi => ?_⟩, hlt, ?_⟩)
        · rcases List.mem_cons.1 ((hmem i).2 hi) with rfl | hi
          · exact le_rfl
          · exact ((List.pairwise_cons.1 hsorted).1 i hi).le
        · simp only [if_pos hlt, h.lookup, hP]
      · obtain ⟨h1, h2, h3⟩ := situate_spec hsorted hge
        have hj := (hmem _).1 h1
        obtain ⟨P, hP⟩ := Option.ne_none_iff_exists'.1 hj
        refine Or.inl ⟨_, P, hP, ⟨⟨hj, h2⟩, fun i hi => h3 i ((hmem i).2 hi.1) hi.2⟩, ?_⟩
        simp only [if_neg (not_lt.2 hge), h.lookup, hP]

/-! ## Derived indexes -/

/-- The first round of a peer that is entered is lowered to the present one. -/
theorem lookup_firstRounds_foldl (r : ℤ) (l : List (Peer K)) (c : PeerSetCache K) (i : UInt32) :
    (l.foldl (addPeer r) c).firstRounds.lookup i =
      if ∃ p ∈ l, p.id = i then some (((c.firstRounds.lookup i).map (min r)).getD r)
      else c.firstRounds.lookup i := by
  induction l generalizing c with
  | nil => simp
  | cons p l ih =>
    have hp : (addPeer r c p).firstRounds.lookup i =
        if p.id = i then some (((c.firstRounds.lookup i).map (min r)).getD r)
        else c.firstRounds.lookup i := by
      unfold addPeer
      split_ifs with hi
      · subst hi
        cases hl : c.firstRounds.lookup p.id with
        | none => simp
        | some fr =>
          by_cases hlt : r < fr
          · simp [hlt, min_eq_left hlt.le]
          · simp [hlt, hl, min_eq_right (not_lt.1 hlt)]
      · cases hl : c.firstRounds.lookup p.id with
        | none => simp only [AList.lookup_insert_ne (Ne.symm hi)]
        | some fr =>
          by_cases hlt : r < fr
          · simp only [if_pos hlt, AList.lookup_insert_ne (Ne.symm hi)]
          · simp only [if_neg hlt]
    rw [List.foldl_cons, ih, hp]
    by_cases hl : ∃ q ∈ l, q.id = i
    · have hcons : ∃ q ∈ p :: l, q.id = i := hl.imp fun q hq => ⟨List.mem_cons_of_mem p hq.1, hq.2⟩
      rw [if_pos hl, if_pos hcons]
      split_ifs with hi
      · cases c.firstRounds.lookup i <;> simp
      · rfl
    · rw [if_neg hl]
      refine if_congr ?_ rfl rfl
      simp only [List.mem_cons, exists_eq_or_imp, hl, or_false]

/-- The peer is in a recorded set. -/
def OnRecord (f : ℤ → Option (PeerSet K)) (p : Peer K) : Prop :=
  ∃ j P, f j = some P ∧ p ∈ P.peers

/-- The rounds whose sets have a peer with the identifier. -/
def roundsOf (f : ℤ → Option (PeerSet K)) (i : UInt32) : Set ℤ :=
  {j | ∃ P, f j = some P ∧ ∃ p ∈ P.peers, p.id = i}

/-- The table holds the sets of `f`, and its derived indexes are in step. -/
structure Tabulates (f : ℤ → Option (PeerSet K)) (c : PeerSetCache K) : Prop
    extends c.Records f where
  firstRound : ∀ i r, c.firstRounds.lookup i = some r ↔ IsLeast (roundsOf f i) r
  firstRound_none : ∀ i, c.firstRounds.lookup i = none ↔ roundsOf f i = ∅
  mem_byPubKey : ∀ k, k ∈ c.repertoireByPubKey ↔ ∃ p, OnRecord f p ∧ p.pubKeyString = k
  byPubKey : ∀ k p, c.repertoireByPubKey.lookup k = some p → OnRecord f p ∧ p.pubKeyString = k
  mem_byID : ∀ i, i ∈ c.repertoireByID ↔ ∃ p, OnRecord f p ∧ p.id = i
  byID : ∀ i p, c.repertoireByID.lookup i = some p → OnRecord f p ∧ p.id = i

theorem onRecord_update (hr : f r = none) {p : Peer K} :
    OnRecord (Function.update f r (some P)) p ↔ OnRecord f p ∨ p ∈ P.peers := by
  constructor
  · rintro ⟨j, Q, hQ, hp⟩
    rw [Function.update_apply] at hQ
    split_ifs at hQ with hj
    · exact Or.inr (Option.some.inj hQ ▸ hp)
    · exact Or.inl ⟨j, Q, hQ, hp⟩
  · rintro (⟨j, Q, hQ, hp⟩ | hp)
    · have hne : j ≠ r := fun hj => by rw [hj, hr] at hQ; cases hQ
      exact ⟨j, Q, by rw [Function.update_of_ne hne, hQ], hp⟩
    · exact ⟨r, P, Function.update_self .., hp⟩

theorem roundsOf_update (hr : f r = none) (i : UInt32) :
    roundsOf (Function.update f r (some P)) i =
      {j | j = r ∧ ∃ p ∈ P.peers, p.id = i} ∪ roundsOf f i := by
  ext j
  simp only [roundsOf, Set.mem_union, Set.mem_ofPred_eq, Function.update_apply]
  split_ifs with hj
  · subst hj
    simp [hr]
  · simp [hj]

namespace Tabulates

theorem new : Tabulates (fun _ => none) (new : PeerSetCache K) where
  lookup _ := rfl
  sorted := List.Pairwise.nil
  mem_rounds _ := by simp [PeerSetCache.new]
  firstRound i r := by
    refine iff_of_false (by simp [PeerSetCache.new]) ?_
    rintro ⟨⟨P, hP, -⟩, -⟩
    cases hP
  firstRound_none i := by simp [PeerSetCache.new, roundsOf]
  mem_byPubKey k := by simp [PeerSetCache.new, OnRecord]
  byPubKey k p h := by simp [PeerSetCache.new] at h
  mem_byID i := by simp [PeerSetCache.new, OnRecord]
  byID i p h := by simp [PeerSetCache.new] at h

/-- Recording a set for a round that has none. -/
theorem set (h : Tabulates f c) (hset : c.set r P = .ok c') :
    f r = none ∧ Tabulates (Function.update f r (some P)) c' := by
  have hr : f r = none := by
    by_contra hne
    obtain ⟨err, herr⟩ := h.toRecords.set_error hne P
    rw [hset] at herr
    cases herr
  obtain ⟨c₁, hc₁, hrec⟩ := h.toRecords.set hr P
  obtain rfl := Except.ok.inj (hset.symm.trans hc₁)
  refine ⟨hr, ?_⟩
  unfold PeerSetCache.set at hset
  rw [h.lookup, hr] at hset
  have hc' := (Except.ok.inj hset).symm
  have hfirst := fun i => hc' ▸ lookup_firstRounds_foldl r P.peers
    { c with
      peerSets := c.peerSets.insert r P
      rounds := (c.rounds ++ [r]).insertionSort (· ≤ ·) } i
  have hnone : ∀ {i}, (¬∃ p ∈ P.peers, p.id = i) → {j | j = r ∧ ∃ p ∈ P.peers, p.id = i} = ∅ :=
    fun hin => Set.eq_empty_iff_forall_notMem.2 fun j hj => hin hj.2
  refine { hrec with
    firstRound := fun i j => ?_
    firstRound_none := fun i => ?_
    mem_byPubKey := fun k => ?_
    byPubKey := fun k p hp => ?_
    mem_byID := fun i => ?_
    byID := fun i p hp => ?_ }
  · rw [hfirst, roundsOf_update hr]
    split_ifs with hin
    · have hset : {j | j = r ∧ ∃ p ∈ P.peers, p.id = i} = {r} := by
        ext j
        simp [hin]
      rw [hset, Set.singleton_union, Option.some.injEq]
      cases hl : c.firstRounds.lookup i with
      | none =>
        rw [(h.firstRound_none i).1 hl, insert_empty_eq]
        exact ⟨fun he => he ▸ isLeast_singleton, fun hj => isLeast_singleton.unique hj⟩
      | some fr =>
        have hmin := ((h.firstRound i fr).1 hl).insert r
        exact ⟨fun he => he ▸ hmin, fun hj => hmin.unique hj⟩
    · rw [hnone hin, Set.empty_union]
      exact h.firstRound i j
  · rw [hfirst, roundsOf_update hr]
    split_ifs with hin
    · refine iff_of_false id fun hempty => ?_
      have : r ∈ (∅ : Set ℤ) := hempty ▸ Or.inl ⟨rfl, hin⟩
      exact this
    · rw [hnone hin, Set.empty_union]
      exact h.firstRound_none i
  · rw [hc', repertoireByPubKey_foldl, Map.mem_foldl_insert]
    simp only [onRecord_update hr, h.mem_byPubKey, or_and_right, exists_or]
  · rw [hc', repertoireByPubKey_foldl] at hp
    rw [onRecord_update hr]
    rcases Map.lookup_foldl_insert Peer.pubKeyString hp with hp | ⟨hp, hk⟩
    · exact (h.byPubKey k p hp).imp_left Or.inl
    · exact ⟨Or.inr hp, hk⟩
  · rw [hc', repertoireByID_foldl, Map.mem_foldl_insert]
    simp only [onRecord_update hr, h.mem_byID, or_and_right, exists_or]
  · rw [hc', repertoireByID_foldl] at hp
    rw [onRecord_update hr]
    rcases Map.lookup_foldl_insert Peer.id hp with hp | ⟨hp, hi⟩
    · exact (h.byID i p hp).imp_left Or.inl
    · exact ⟨Or.inr hp, hi⟩

/-- A set for a round that has one is rejected. -/
theorem set_error_iff (h : Tabulates f c) (r : ℤ) (P : PeerSet K) :
    (∃ err, c.set r P = .error err) ↔ f r ≠ none := by
  refine ⟨fun ⟨err, herr⟩ hr => ?_, fun hr => h.toRecords.set_error hr P⟩
  obtain ⟨c', hc', -⟩ := h.toRecords.set hr P
  rw [herr] at hc'
  cases hc'

end Tabulates

/-! ## Sequences of calls -/

/-- The table after a call of `Set`, which may be rejected. -/
def setOrKeep (c : PeerSetCache K) (call : ℤ × PeerSet K) : PeerSetCache K :=
  match c.set call.1 call.2 with
  | .ok c' => c'
  | .error _ => c

/-- A new table after a sequence of calls of `Set`. -/
def afterSets (calls : List (ℤ × PeerSet K)) : PeerSetCache K :=
  calls.foldl setOrKeep new

/-- The set that is recorded for a round : that of the first call for it. -/
def recordedBy (calls : List (ℤ × PeerSet K)) (r : ℤ) : Option (PeerSet K) :=
  (calls.find? fun call => call.1 = r).map Prod.snd

theorem afterSets_append_singleton (calls : List (ℤ × PeerSet K)) (call : ℤ × PeerSet K) :
    afterSets (calls ++ [call]) = setOrKeep (afterSets calls) call :=
  List.foldl_append

/-- The first call for a round counts. -/
theorem recordedBy_append_singleton (calls : List (ℤ × PeerSet K)) (r : ℤ) (P : PeerSet K) :
    recordedBy (calls ++ [(r, P)]) =
      if recordedBy calls r = none then Function.update (recordedBy calls) r (some P)
      else recordedBy calls := by
  have hfind : ∀ j, recordedBy (calls ++ [(r, P)]) j =
      (recordedBy calls j).or (if r = j then some P else none) := by
    intro j
    unfold recordedBy
    rw [List.find?_append, List.find?_singleton]
    cases calls.find? fun call => call.1 = j with
    | some call => simp
    | none => by_cases hj : r = j <;> simp [hj]
  funext j
  rw [hfind]
  by_cases hj : r = j
  · subst hj
    cases hr : recordedBy calls r with
    | none => simp
    | some Q => simp [hr]
  · rw [if_neg hj, Option.or_none]
    split_ifs
    · rw [Function.update_of_ne (Ne.symm hj)]
    · rfl

theorem tabulates_afterSets (calls : List (ℤ × PeerSet K)) :
    Tabulates (recordedBy calls) (afterSets calls) := by
  induction calls using List.reverseRecOn with
  | nil => exact Tabulates.new
  | append_singleton calls call ih =>
    obtain ⟨r, P⟩ := call
    rw [afterSets_append_singleton, recordedBy_append_singleton, setOrKeep]
    cases hset : (afterSets calls).set r P with
    | ok c' =>
      obtain ⟨hr, htab⟩ := ih.set hset
      rw [if_pos hr]
      exact htab
    | error err =>
      rw [if_neg ((ih.set_error_iff r P).1 ⟨err, hset⟩)]
      exact ih

/-- The answers of a table that has recorded the sets of `f` : the set for a round, which
sets it rejects, the first rounds of the peers in `peers`, and the peers on record, under
their public keys and their identifiers. -/
structure Answers (peers : Set (Peer K)) (f : ℤ → Option (PeerSet K)) (c : PeerSetCache K) :
    Prop where
  get : ∀ r,
    (∃ j P, f j = some P ∧ IsGreatest {i | f i ≠ none ∧ i ≤ r} j ∧ c.get r = .ok P) ∨
    (∃ j P, f j = some P ∧ IsLeast {i | f i ≠ none} j ∧ r < j ∧ c.get r = .ok P) ∨
    (∀ j, f j = none) ∧ c.get r = .error (.store "PeerSetCache" .keyNotFound)
  rejects : ∀ r P, (∃ err, c.set r P = .error err) ↔ f r ≠ none
  firstRound : ∀ p ∈ peers, ∀ r, c.firstRound p.id = some r ↔
    IsLeast {j | ∃ P, f j = some P ∧ p.pubKeyString ∈ P.pubKeys} r
  pubKey_onRecord : ∀ k p, c.repertoireByPubKey.lookup k = some p →
    OnRecord f p ∧ p.pubKeyString = k
  lookup_pubKey : ∀ p, OnRecord f p →
    ∃ q, c.repertoireByPubKey.lookup p.pubKeyString = some q ∧ q.pubKeyString = p.pubKeyString
  id_onRecord : ∀ i p, c.repertoireByID.lookup i = some p → OnRecord f p ∧ p.id = i
  lookup_id : ∀ p, OnRecord f p →
    ∃ q, c.repertoireByID.lookup p.id = some q ∧ q.pubKeyString = p.pubKeyString

/-- If identifiers tell the peers apart, then identifiers and public keys are the same. -/
theorem Tabulates.answers (h : Tabulates f c) {peers : Set (Peer K)}
    (hin : ∀ p, OnRecord f p → p ∈ peers)
    (hids : ∀ p ∈ peers, ∀ q ∈ peers, p.id = q.id → p.pubKeyString = q.pubKeyString) :
    Answers peers f c := by
  refine
    { get := h.toRecords.get_cases
      rejects := h.set_error_iff
      firstRound := fun p hp r => ?_
      pubKey_onRecord := h.byPubKey
      lookup_pubKey := fun p hp => ?_
      id_onRecord := h.byID
      lookup_id := fun p hp => ?_ }
  · have hrounds : roundsOf f p.id = {j | ∃ P, f j = some P ∧ p.pubKeyString ∈ P.pubKeys} := by
      ext j
      refine exists_congr fun P => and_congr_right fun hP => ?_
      rw [PeerSet.mem_pubKeys]
      refine exists_congr fun q => and_congr_right fun hq => ⟨fun hi => ?_, fun hk => ?_⟩
      · exact hids q (hin q ⟨j, P, hP, hq⟩) p hp hi
      · exact Peer.id_eq_of_pubKeyString hk
    rw [← hrounds]
    exact h.firstRound p.id r
  · obtain ⟨q, hq⟩ := Map.mem_iff_lookup.1 ((h.mem_byPubKey _).2 ⟨p, hp, rfl⟩)
    exact ⟨q, hq, (h.byPubKey _ q hq).2⟩
  · obtain ⟨q, hq⟩ := Map.mem_iff_lookup.1 ((h.mem_byID _).2 ⟨p, hp, rfl⟩)
    obtain ⟨hrec, hi⟩ := h.byID _ q hq
    exact ⟨q, hq, hids q (hin q hrec) p (hin p hp) hi⟩

theorem exists_call_of_onRecord {calls : List (ℤ × PeerSet K)} {p : Peer K}
    (h : OnRecord (recordedBy calls) p) : ∃ call ∈ calls, p ∈ call.2.peers := by
  obtain ⟨j, P, hP, hp⟩ := h
  obtain ⟨call, hcall, rfl⟩ := Option.map_eq_some_iff.1 hP
  exact ⟨call, List.mem_of_find?_eq_some hcall, hp⟩

/-- After any sequence of calls of `Set` the table answers for the sets that the first call
for each round recorded, and a set that is rejected changes nothing. -/
theorem table_afterSets (calls : List (ℤ × PeerSet K)) (peers : Set (Peer K))
    (hin : ∀ call ∈ calls, ∀ p ∈ call.2.peers, p ∈ peers)
    (hids : ∀ p ∈ peers, ∀ q ∈ peers, p.id = q.id → p.pubKeyString = q.pubKeyString) :
    Answers peers (recordedBy calls) (afterSets calls) ∧
      ∀ r P err, (afterSets calls).set r P = .error err →
        afterSets (calls ++ [(r, P)]) = afterSets calls := by
  refine ⟨(tabulates_afterSets calls).answers (fun p hp => ?_) hids, fun r P err herr => ?_⟩
  · obtain ⟨call, hcall, hp⟩ := exists_call_of_onRecord hp
    exact hin call hcall p hp
  · rw [afterSets_append_singleton, setOrKeep, herr]

end PeerSetCache

namespace Sample

/-- Three rounds out of order, and a second set for one of them. -/
def setCalls : List (ℤ × PeerSet Bytes) :=
  [(5, ⟨[peer 1, peer 2]⟩), (0, ⟨[peer 1]⟩), (5, ⟨[peer 3]⟩), (9, ⟨[peer 2, peer 3]⟩)]

theorem table_setCalls :
    PeerSetCache.Answers {p | p ∈ [peer 1, peer 2, peer 3]} (PeerSetCache.recordedBy setCalls)
      (PeerSetCache.afterSets setCalls) ∧
    (PeerSetCache.afterSets setCalls).get 7 = .ok ⟨[peer 1, peer 2]⟩ := by
  have hin : ∀ call ∈ setCalls, ∀ p ∈ call.2.peers, p ∈ [peer 1, peer 2, peer 3] := by decide
  have hids : ∀ p ∈ [peer 1, peer 2, peer 3], ∀ q ∈ [peer 1, peer 2, peer 3],
      p.id = q.id → p.pubKeyString = q.pubKeyString := by decide +kernel
  exact ⟨(PeerSetCache.table_afterSets setCalls _ hin hids).1, by decide +kernel⟩

end Sample

end Babble

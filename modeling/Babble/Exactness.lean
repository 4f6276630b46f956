import Babble.Coordinates
import Babble.Run

/-!
# The passes compute the rounds and votes of the event graph

On a store whose coordinates are those of an event graph, the queries answer as the graph
says (`exactAnswer`). So a new event gets its round in the graph (`RoundOf.eq_round`), a
witness casts its vote in the graph (`Voted.exact`), and the famous witnesses and received
events that the passes record are those of the graph.

After a reset this holds for the events in a window : the store has no witnesses from
before, and rounds below `base` are not complete.
-/

set_option linter.unusedSectionVars false

namespace Babble

variable {H K : Type} [DecidableEq H] [DecidableEq K] [Hex H] [Hex K]

/-- The public keys of the peers of every round. -/
def keysAt (ps : ℤ → PeerSet K) (j : ℤ) : Finset K :=
  (ps j).pubKeys

theorem PeerSet.superMajority_eq (P : PeerSet K) : P.superMajority = EventGraph.quorum P.pubKeys := by
  rw [superMajority, EventGraph.quorum, card_pubKeys]

/-- A set of events, closed under descendants, with all events of rounds from `base` on.
The rounds up to `low` are left to others. -/
structure Window (G : EventGraph H K) (peers : ℤ → Finset K) where
  Inside : H → Prop
  base : ℤ
  low : ℤ
  up : UpClosed G Inside
  of_round : ∀ {x}, G.Mem x → base ≤ G.round peers x → Inside x
  base_le : base ≤ low + 1

/-- All events. -/
def Window.whole (G : EventGraph H K) (peers : ℤ → Finset K) : Window G peers where
  Inside _ := True
  base := 0
  low := -1
  up _ _ := trivial
  of_round _ _ := trivial
  base_le := le_rfl

/-- The answers of the graph, for events in the window. -/
def exactAnswer (G : EventGraph H K) (ps : ℤ → PeerSet K) (T : Window G (keysAt ps)) :
    Reading H K where
  Peers P := ∃ j, P = ps j
  Sees x y b := T.Inside y → (b = true ↔ G.Anc x y)
  StronglySees x w P b := T.Inside w → (b = true ↔ G.Sees (keysAt ps) P.pubKeys x w)

/-- Peer-sets with one hash have the same keys. -/
def HashesKeys (S : Scheme H K) (ps : ℤ → PeerSet K) : Prop :=
  ∀ i j, (ps i).hash S.sha256 = (ps j).hash S.sha256 → (ps i).pubKeys = (ps j).pubKeys

variable {G : EventGraph H K} {ps : ℤ → PeerSet K} {T : Window G (keysAt ps)}

/-! ## Sight and strong sight -/

namespace Coordinates

variable {stop : H → Prop} {ec : Map H (Event H K)} {st : InmemStore H K} {x y w : H}

/-- A peer joins `x` to `w` if the first descendant of `w` by the peer is an ancestor of
`x`. -/
theorem reaches_iff (hc : Coordinates G stop T.Inside ec) {ex ew : Event H K}
    (hx : ec.lookup x = some ex) (hw : ec.lookup w = some ew) (hTw : T.Inside w) {k : K} :
    ex.reaches ew k = true ↔
      ∃ z, G.Mem z ∧ G.creator z = k ∧ G.Anc x z ∧ G.FirstDesc stop w z := by
  have hdx := hc.event hx
  have hreach : ex.reaches ew k = true ↔ ∃ la fd, ex.lastAncestors.lookup k = some la ∧
      ew.firstDescendants.lookup k = some fd ∧ fd.index ≤ la.index := by
    unfold Event.reaches
    cases ex.lastAncestors.lookup k <;> cases ew.firstDescendants.lookup k <;> simp
  rw [hreach]
  constructor
  · rintro ⟨la, fd, hla, hfd, hle⟩
    obtain ⟨hloc, hanc⟩ := hc.lastSound hx hla
    obtain ⟨hmem, hlocf, hfirst⟩ := (hc.first hw hTw).1 hfd
    obtain ⟨ez, hez⟩ := Map.mem_iff_lookup.1 hmem
    refine ⟨fd.hash, (hc.event hez).mem, hlocf.creator, ?_, hfirst⟩
    refine hanc.trans (EventGraph.anc_of_index_le (hanc.mem hdx.mem) (hc.event hez).mem
      (hloc.creator.trans hlocf.creator.symm) ?_)
    rw [hloc.index, hlocf.index]
    exact hle
  · rintro ⟨z, hz, rfl, hxz, hfd⟩
    have hTz := T.up hfd.anc hTw
    obtain ⟨la, hla, hle⟩ := hc.lastComplete hx hTz hxz
    have hzmem := hc.mem_of_anc T.up (Map.mem_iff_lookup.2 ⟨ex, hx⟩) hxz hTz
    exact ⟨la, _, hla, hc.lookup_first hw hTw hzmem hfd, hle⟩

theorem stronglySees_iff (hc : Coordinates G stop T.Inside st.eventCache)
    (hx : x ∈ st.eventCache) (hw : w ∈ st.eventCache) (hTw : T.Inside w) (P : PeerSet K) :
    st.stronglySees x w P = true ↔ G.StronglySees stop P.pubKeys x w := by
  classical
  obtain ⟨ex, hex⟩ := Map.mem_iff_lookup.1 hx
  obtain ⟨ew, hew⟩ := Map.mem_iff_lookup.1 hw
  have hcount : P.byPubKey.keys.countP (ex.reaches ew) =
      G.count P.pubKeys fun z => G.Anc x z ∧ G.FirstDesc stop w z := by
    rw [List.countP_eq_length_filter, ← List.toFinset_card_of_nodup
      (P.byPubKey.keys_nodup.filter _), EventGraph.count, PeerSet.pubKeys]
    congr 1
    ext k
    simp only [List.mem_toFinset, List.mem_filter, Finset.mem_filter,
      hc.reaches_iff hex hew hTw]
  simp only [InmemStore.stronglySees, hex, hew, decide_eq_true_eq, hcount,
    PeerSet.superMajority_eq, EventGraph.StronglySees]

/-- The coordinates answer as the graph says. -/
theorem holds (S : Scheme H K) (hps : HashesKeys S ps)
    (hc : Coordinates G (G.Witness (keysAt ps)) T.Inside st.eventCache) :
    (exactAnswer G ps T).Holds S st where
  sees x y hx hy hT := hc.sees_iff hx hy hT
  stronglySees x y P _ hx hy hT := hc.stronglySees_iff hx hy hT P
  hash := by
    rintro _ _ ⟨i, rfl⟩ ⟨j, rfl⟩ hij x y b h hT
    rw [h hT, hps i j hij]

end Coordinates

/-! ## Rounds -/

open Classical in
/-- Rounds, witnesses and heights in the graph. -/
noncomputable def assignment (G : EventGraph H K) (ps : ℤ → PeerSet K) : Assignment H where
  round := G.round (keysAt ps)
  witness x := decide (G.Witness (keysAt ps) x)
  lamport := G.height

/-- A set of events that holds the ancestors of its events, within the window. -/
structure Window.Closed (T : Window G (keysAt ps)) (D : H → Prop) : Prop where
  mem : ∀ {x}, D x → G.Mem x
  anc : ∀ {x y}, D x → G.Anc x y → T.Inside y → D y

/-- The witnesses of round `j` in `D`. -/
def WitnessesIn (G : EventGraph H K) (ps : ℤ → PeerSet K) (D : H → Prop) (j : ℤ) (w : H) : Prop :=
  D w ∧ G.round (keysAt ps) w = j ∧ G.Witness (keysAt ps) w

theorem Coordinates.windowClosed {stop : H → Prop} {ec : Map H (Event H K)}
    (hc : Coordinates G stop T.Inside ec) : T.Closed (· ∈ ec) where
  mem hx := by
    obtain ⟨e, he⟩ := Map.mem_iff_lookup.1 hx
    exact (hc.event he).mem
  anc hx h hT := hc.mem_of_anc T.up hx h hT

/-- The witnesses that are recorded are those of the graph. -/
theorem Hashgraph.Divided.witnessAt_eq {D : H → Prop} {h : Hashgraph H K}
    (hd : h.Divided (assignment G ps) D) : h.store.WitnessAt = WitnessesIn G ps D := by
  funext j w
  simp only [hd.witnessAt_iff, WitnessesIn, assignment, decide_eq_true_eq]

namespace Depicts

variable {x : H} {e : SignedEvent H K}

theorem selfValue_eq (hd : Depicts G x e) (r : H → ℤ) :
    selfValue r e.body.selfParent = G.selfValue r x := by
  rw [hd.selfParent, selfValue, EventGraph.selfValue]
  cases G.selfParent x <;> rfl

theorem parentValue_eq (hd : Depicts G x e) (r : H → ℤ) :
    parentValue r e.body.selfParent e.body.otherParent = G.parentValue r x := by
  rw [parentValue, hd.selfValue_eq, hd.otherParent, EventGraph.parentValue]
  cases G.otherParent x <;> rfl

end Depicts

variable {D : H → Prop} {x y : H} {j : ℤ} {l : List H}

/-- A poll counts the witnesses that the graph counts. -/
theorem Reading.Poll.countP_eq (hD : T.Closed D) (hj : T.base ≤ j)
    (hp : (exactAnswer G ps T).Poll (ps j) (WitnessesIn G ps D j) y l) {f : H → Prop}
    {g : H → Bool} (hg : ∀ w ∈ l, g w = true ↔ f w)
    (hin : ∀ w, G.Mem w → G.SeenWitness (keysAt ps) j y w → f w → D w) :
    l.countP g = G.poll (keysAt ps) j y f := by
  have hseen : ∀ w, WitnessesIn G ps D j w →
      (w ∈ l ↔ G.Sees (keysAt ps) (keysAt ps j) y w) := by
    intro w hw
    obtain ⟨b, hb, hl⟩ := hp.answer w hw
    rw [hl]
    exact hb (T.of_round (hD.mem hw.1) (hw.2.1 ▸ hj))
  rw [List.countP_eq_length_filter, EventGraph.poll]
  refine (EventGraph.count_eq_length (hp.nodup.filter _) (fun w hw => ?_) (fun w hm _ hw => ?_)
    fun w hw w' hw' hc => ?_).symm
  · obtain ⟨hwl, hgw⟩ := List.mem_filter.1 hw
    have hW := hp.sub w hwl
    refine ⟨hD.mem hW.1, ?_, ⟨hW.2.1, hW.2.2, (hseen w hW).1 hwl⟩, (hg w hwl).1 hgw⟩
    have hk := hW.2.2.1
    rwa [hW.2.1] at hk
  · obtain ⟨hsw, hfw⟩ := hw
    have hwl := (hseen w ⟨hin w hm hsw hfw, hsw.round_eq, hsw.witness⟩).2 hsw.sees
    exact List.mem_filter.2 ⟨hwl, (hg w hwl).2 hfw⟩
  · have hW := hp.sub w (List.mem_filter.1 hw).1
    have hW' := hp.sub w' (List.mem_filter.1 hw').1
    exact EventGraph.Witness.unique (hD.mem hW.1) (hD.mem hW'.1) hW.2.2 hW'.2.2 hc
      (hW.2.1.trans hW'.2.1.symm)

/-- A new event gets its round in the graph. -/
theorem RoundOf.eq_round (hD : T.Closed D) (hx : ¬D x)
    (hanc : ∀ w, G.SAnc x w → T.Inside w → D w) {r : ℤ}
    (hbase : G.parentValue (G.round (keysAt ps)) x = -1 ∨
      T.base ≤ G.parentValue (G.round (keysAt ps)) x)
    (h : RoundOf (exactAnswer G ps T) ps (WitnessesIn G ps D) x
      (G.parentValue (G.round (keysAt ps)) x) r) : r = G.round (keysAt ps) x := by
  rw [EventGraph.round_eq]
  rcases h with ⟨hp, rfl⟩ | ⟨hp, l, hl, rfl⟩
  · rw [if_pos hp]
  · have hbase := hbase.resolve_left hp
    rw [if_neg hp]
    generalize G.parentValue (G.round (keysAt ps)) x = p at hp hl hbase
    -- the event itself is not among the witnesses polled
    have hcount : l.length = G.poll (keysAt ps) p x fun w => G.SAnc x w := by
      rw [← List.countP_eq_length.2 fun w _ => rfl (a := true)]
      refine hl.countP_eq hD hbase (fun w hw => ?_) fun w hm hw hs => ?_
      · obtain ⟨b, hb, hlw⟩ := hl.answer w (hl.sub w hw)
        have hW := hl.sub w hw
        have hsees := (hb (T.of_round (hD.mem hW.1) (hW.2.1 ▸ hbase))).1 (hlw.1 hw)
        exact ⟨fun _ => hsees.anc.sAnc fun h => hx (h ▸ hW.1), fun _ => rfl⟩
      · exact hanc w hs (T.of_round hm (hw.round_eq ▸ hbase))
    have hpoll : (G.poll (keysAt ps) p x fun w => G.SAnc x w) =
        G.count (keysAt ps p) fun w => G.SAnc x w ∧ G.round (keysAt ps) w = p ∧
          G.Witness (keysAt ps) w ∧ G.Sees (keysAt ps) (keysAt ps p) x w :=
      EventGraph.count_congr fun w _ =>
        ⟨fun h => ⟨h.2, h.1.round_eq, h.1.witness, h.1.sees⟩,
          fun h => ⟨⟨h.2.1, h.2.2.1, h.2.2.2⟩, h.1⟩⟩
    rw [← hpoll, ← hcount, PeerSet.superMajority_eq]
    rfl

/-! ## Votes -/

/-- The cast of a vote from the number of votes seen, in a round of the graph. -/
theorem cast_eq (n sm yays nays : ℕ) (coin : Bool) :
    Hashgraph.cast ((n : ℤ) + 2) sm yays nays coin =
      (if (n + 2) % 4 ≠ 0 ∨ sm ≤ max yays nays then decide (nays ≤ yays) else coin,
        decide ((n + 2) % 4 ≠ 0 ∧ sm ≤ max yays nays)) := by
  have hmod : ((n : ℤ) + 2) % Hashgraph.coinRoundFreq ≠ 0 ↔ (n + 2) % 4 ≠ 0 := by
    unfold Hashgraph.coinRoundFreq
    omega
  have hmaj : Hashgraph.majority yays nays = (decide (nays ≤ yays), max yays nays) := by
    unfold Hashgraph.majority
    split_ifs with h
    · simp [h]
    · simp [h, (not_le.1 h).le]
  unfold Hashgraph.cast
  rw [hmaj]
  by_cases h1 : (n + 2) % 4 = 0 <;> by_cases h2 : sm ≤ max yays nays <;>
    simp only [hmod, h1, h2, ne_eq, not_true_eq_false, not_false_eq_true, if_true, if_false,
      or_true, or_false, and_self, false_and, and_false, decide_true, decide_false]

/-- A recorded vote is the vote in the graph, and so is a decision. -/
theorem Voted.exact (hD : T.Closed D) {r : ℤ} (hx : G.round (keysAt ps) x = r)
    (hbase : T.base ≤ r) (hTx : T.Inside x) {v d : Bool}
    (h : Voted (exactAnswer G ps T) ps (WitnessesIn G ps D) r x j y v d)
    (hy : WitnessesIn G ps D j y) :
    ∃ n : ℕ, j = r + (n + 1) ∧ v = G.vote (keysAt ps) middleBit x (n + 1) y ∧
      (d = true ↔ G.Decides (keysAt ps) middleBit x n y v) := by
  classical
  induction h with
  | @sight y b hs =>
    refine ⟨0, by simp, ?_, fun hd => absurd hd (by simp),
      fun hd => absurd hd.distance (by omega)⟩
    rw [EventGraph.vote]
    cases b with
    | true => exact (decide_eq_true ((hs hTx).1 rfl)).symm
    | false =>
      refine (decide_eq_false fun hanc => ?_).symm
      have := (hs hTx).2 hanc
      cases this
  | @count j y l votes decides hj hpoll hvotes ih =>
    obtain ⟨n, hn⟩ : ∃ n : ℕ, j = r + (n + 2) := ⟨(j - r - 2).toNat, by omega⟩
    have hprev : j - 1 = r + ((n : ℤ) + 1) := by omega
    have hvote : ∀ w ∈ l, votes w = G.vote (keysAt ps) middleBit x (n + 1) w := by
      intro w hw
      obtain ⟨m, hm, hv, -⟩ := ih w hw (hpoll.sub w hw)
      obtain rfl : m = n := by omega
      exact hv
    have hround : G.roundAt (keysAt ps) x (n + 1) = j - 1 := by
      rw [EventGraph.roundAt, hx, hprev]
      push_cast
      rfl
    have hin : ∀ f : H → Prop, ∀ w, G.Mem w → G.SeenWitness (keysAt ps) (j - 1) y w → f w → D w :=
      fun f w hm hw _ => hD.anc hy.1 hw.sees.anc (T.of_round hm (by rw [hw.round_eq]; omega))
    have hyays : l.countP votes = G.ballots (keysAt ps) middleBit x (n + 1) y true := by
      rw [EventGraph.ballots, hround]
      exact hpoll.countP_eq hD (by omega) (fun w hw => by rw [hvote w hw]) (hin _)
    have hnays : (l.countP fun w => !votes w) =
        G.ballots (keysAt ps) middleBit x (n + 1) y false := by
      rw [EventGraph.ballots, hround]
      exact hpoll.countP_eq hD (by omega) (fun w hw => by rw [hvote w hw]; simp) (hin _)
    have hsm : (ps j).superMajority =
        EventGraph.quorum (keysAt ps (G.roundAt (keysAt ps) x (n + 2))) := by
      rw [PeerSet.superMajority_eq, EventGraph.roundAt_succ, hround, sub_add_cancel]
      rfl
    have hcast : Hashgraph.cast (j - r) (ps j).superMajority (l.countP votes)
        (l.countP fun w => !votes w) (middleBit y) =
        (G.vote (keysAt ps) middleBit x (n + 2) y,
          decide ((n + 2) % 4 ≠ 0 ∧ (ps j).superMajority ≤
            max (G.ballots (keysAt ps) middleBit x (n + 1) y true)
              (G.ballots (keysAt ps) middleBit x (n + 1) y false))) := by
      rw [show j - r = (n : ℤ) + 2 by omega, hyays, hnays, cast_eq, hsm,
        EventGraph.vote_succ (d := n + 1) (by omega)]
    rw [hcast]
    refine ⟨n + 1, by push_cast; omega, rfl, fun hd => ?_, fun hd => ?_⟩
    · obtain ⟨h4, henough⟩ := of_decide_eq_true hd
      exact ⟨by omega, h4, hsm ▸ henough, rfl⟩
    · exact decide_eq_true ⟨hd.normal, hsm ▸ hd.enough⟩

/-- Some witness in `D` decides the fame of `x`. -/
def DecidedIn (G : EventGraph H K) (ps : ℤ → PeerSet K) (D : H → Prop) (x : H) (v : Bool) : Prop :=
  ∃ d y, D y ∧ G.VoterAt (keysAt ps) x (d + 1) y ∧ G.Decides (keysAt ps) middleBit x d y v

theorem DecidedIn.mono {D' : H → Prop} {v : Bool} (h : DecidedIn G ps D x v)
    (hD : ∀ y, D y → D' y) : DecidedIn G ps D' x v := by
  obtain ⟨d, y, hy, hv⟩ := h
  exact ⟨d, y, hD y hy, hv⟩

/-- A decision of the fame pass is a decision in the graph. -/
theorem Hashgraph.Decision.decidedIn (hD : T.Closed D) {h : Hashgraph H K}
    (hd : h.Divided (assignment G ps) D) {r : ℤ} (hr : T.base ≤ r)
    (hx : WitnessesIn G ps D r x) {v : Bool}
    (hdec : Hashgraph.Decision (exactAnswer G ps T) ps h.store r x v) : DecidedIn G ps D x v := by
  obtain ⟨j, y, -, hy, hvoted⟩ := hdec
  rw [hd.witnessAt_eq] at hy hvoted
  obtain ⟨n, hj, -, hdec⟩ := hvoted.exact hD hx.2.1 hr (T.of_round (hD.mem hx.1) (hx.2.1 ▸ hr)) hy
  refine ⟨n, y, hy.1, ⟨hD.mem hy.1, hy.2.2, ?_⟩, hdec.1 rfl⟩
  rw [hy.2.1, hj, EventGraph.roundAt, hx.2.1]
  push_cast
  rfl

end Babble

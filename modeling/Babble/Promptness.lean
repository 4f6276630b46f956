import Babble.Agreement

/-!
# Decisions are not missed

A replica decides as soon as it can. A round is `Complete` in a set of events if enough of
its witnesses are there and each of them is decided by a witness that is there. Complete
rounds stay complete when events come in (`Complete.mono`) : a witness that comes late is not
seen by the witnesses two rounds later, and these decide against it.

The fame pass leaves no witness of a pending round undecided that some stored witness decides,
and the processing of rounds stops only at a round that is not complete (`Prompt`). So a
replica that has all the events of another one has got at least as far (`Prompt.le`), and how
far a replica has got depends on its events alone, not on the order in which they came.
-/

set_option linter.unusedSectionVars false

namespace EventGraph

variable {E K : Type} {G : EventGraph E K} {peers : ℤ → Finset K} {x z : E} {coin : E → Bool}

/-- A witness two rounds after `x` that does not descend from `x` decides against it, if the
threshold does not grow. -/
theorem decides_false_of_not_anc (hz : G.VoterAt peers x 2 z) (hn : ¬G.Anc z x)
    (hq : quorum (peers (G.roundAt peers x 2)) ≤ quorum (peers (G.roundAt peers x 1))) :
    G.Decides peers coin x 1 z false := by
  have hno : quorum (peers (G.roundAt peers x 1)) ≤ G.ballots peers coin x 1 z false := by
    refine hz.quorum_le.trans (poll_mono fun w _ hw _ => ?_)
    simpa [vote] using fun hwx => hn (hw.sees.anc.trans hwx)
  refine ⟨le_rfl, by omega, (hq.trans hno).trans (le_max_right _ _), ?_⟩
  exact unanimous_false_of_not_anc coin hz.round_eq.ge hn z hz

/-- A voter two rounds after `x` or later sees a witness of the round two after it. -/
theorem exists_voterAt_two {y : E} (hy : G.Mem y) (hw : G.Witness peers y)
    (hr : G.roundAt peers x 2 ≤ G.round peers y) : ∃ z, G.Anc y z ∧ G.VoterAt peers x 2 z := by
  rcases eq_or_lt_of_le hr with heq | hlt
  · exact ⟨y, .refl y, hy, hw, heq.symm⟩
  · have hpoll := quorum_le_poll (G.roundAt_nonneg peers x 2) (Int.add_one_le_iff.2 hlt)
    obtain ⟨z, hz, -, hseen, -⟩ := exists_of_count_pos ((quorum_pos _).trans_le hpoll)
    exact ⟨z, hseen.sees.anc, hz, hseen.witness, hseen.round_eq⟩

end EventGraph

namespace Babble

variable {C H K : Type} [DecidableEq H] [DecidableEq K] [Hex H] [Hex K]

/-! ## Complete rounds -/

/-- A quorum of witnesses of round `r` are in `D`, and all that are in `D` are decided by
witnesses in `D`. -/
structure Complete (G : EventGraph H K) (ps : ℤ → PeerSet K) (D : H → Prop) (r : ℤ) : Prop where
  decided : ∀ x, WitnessesIn G ps D r x → ∃ v, DecidedIn G ps D x v
  enough : ∃ l : List H, l.Nodup ∧ (∀ x ∈ l, WitnessesIn G ps D r x) ∧
    (ps r).superMajority ≤ l.length

/-- The threshold does not grow from round to round. -/
def Steadfast (ps : ℤ → PeerSet K) : Prop :=
  ∀ r, (ps (r + 1)).superMajority ≤ (ps r).superMajority

section Complete

variable {G : EventGraph H K} {ps : ℤ → PeerSet K} {T : Window G (keysAt ps)} {D D' : H → Prop}
  {r : ℤ} {x : H}

/-- A complete round has a witness two rounds later. -/
theorem Complete.exists_voterAt_two (hc : Complete G ps D r) (hD : T.Closed D)
    (hbase : T.base ≤ r) (hx : G.round (keysAt ps) x = r) :
    ∃ z, D z ∧ G.VoterAt (keysAt ps) x 2 z := by
  obtain ⟨l, -, hl, hlen⟩ := hc.enough
  obtain ⟨w, hw⟩ : ∃ w, w ∈ l := by
    refine List.exists_mem_of_length_pos (lt_of_lt_of_le ?_ hlen)
    rw [PeerSet.superMajority_eq]
    exact EventGraph.quorum_pos _
  obtain ⟨v, d, y, hDy, hvoter, hdec⟩ := hc.decided w (hl w hw)
  have hround := (hl w hw).2.1
  have hle : G.roundAt (keysAt ps) x 2 ≤ G.round (keysAt ps) y := by
    rw [hvoter.round_eq, EventGraph.roundAt, EventGraph.roundAt, hround, hx]
    have := hdec.distance
    push_cast
    omega
  obtain ⟨z, hyz, hz⟩ := EventGraph.exists_voterAt_two hvoter.mem hvoter.witness hle
  refine ⟨z, hD.anc hDy hyz (T.of_round hz.mem ?_), hz⟩
  rw [hz.round_eq, EventGraph.roundAt, hx]
  push_cast
  omega

/-- Complete rounds stay complete : what comes late is decided against. -/
theorem Complete.mono (hc : Complete G ps D r) (hps : Steadfast ps) (hD : T.Closed D)
    (hmem : ∀ y, D' y → G.Mem y) (hsub : ∀ y, D y → D' y) (hbase : T.base ≤ r) :
    Complete G ps D' r := by
  refine ⟨fun x hx => ?_, ?_⟩
  · by_cases hDx : D x
    · obtain ⟨v, hv⟩ := hc.decided x ⟨hDx, hx.2⟩
      exact ⟨v, hv.mono hsub⟩
    · obtain ⟨z, hDz, hz⟩ := hc.exists_voterAt_two hD hbase hx.2.1
      refine ⟨false, 1, z, hsub z hDz, hz, EventGraph.decides_false_of_not_anc hz ?_ ?_⟩
      · exact fun hanc => hDx (hD.anc hDz hanc (T.of_round (hmem x hx.1) (hx.2.1 ▸ hbase)))
      · have hq := hps (G.roundAt (keysAt ps) x 1)
        rw [PeerSet.superMajority_eq, PeerSet.superMajority_eq, ← EventGraph.roundAt_succ] at hq
        exact hq
  · obtain ⟨l, hnd, hl, hlen⟩ := hc.enough
    exact ⟨l, hnd, fun x hx => ⟨hsub x (hl x hx).1, (hl x hx).2⟩, hlen⟩

/-- A witness that the pass leaves undecided is not decided in the graph. -/
theorem Hashgraph.Undecided.not_decidedIn (hD : T.Closed D) {h : Hashgraph H K}
    (hd : h.Divided (assignment G ps) D) (hr : T.base ≤ r) (hx : WitnessesIn G ps D r x)
    (hu : Hashgraph.Undecided (exactAnswer G ps T) ps h.store r x) (v : Bool) :
    ¬DecidedIn G ps D x v := by
  rintro ⟨d, y, hDy, hvoter, hdec⟩
  have hround : G.round (keysAt ps) y = r + (d + 1) := by
    rw [hvoter.round_eq, EventGraph.roundAt, hx.2.1]
    push_cast
    rfl
  have hy : WitnessesIn G ps D (r + (d + 1)) y := ⟨hDy, hround, hvoter.witness⟩
  have hlast : r + (d + 1) ≤ h.store.lastRound := by
    obtain ⟨info, e, hinfo, -⟩ := hd.recorded y hDy
    have hround' : (assignment G ps).round y = r + (d + 1) := hround
    rw [hround'] at hinfo
    exact hd.le_last _ (Map.mem_iff_lookup.2 ⟨info, hinfo⟩)
  obtain ⟨v', hvoted⟩ := hu (r + (d + 1)) y (by omega) hlast (by rw [hd.witnessAt_eq]; exact hy)
  rw [hd.witnessAt_eq] at hvoted
  obtain ⟨n, hn, hvote, hiff⟩ :=
    hvoted.exact hD hx.2.1 hr (T.of_round (hD.mem hx.1) (hx.2.1 ▸ hr)) hy
  obtain rfl : n = d := by omega
  -- the vote of `y` is the value it decides for
  have hv : v' = v := hvote.trans hdec.vote_eq
  have := hiff.2 (hv ▸ hdec)
  cases this

end Complete

/-! ## Replicas -/

variable {S : Scheme H K} {U : Universe S} {ps : ℤ → PeerSet K}
  {T : Window U.graph (keysAt ps)}

theorem RoundInfo.isDecided_iff {info : RoundInfo H} {x : H} : info.isDecided x = true ↔
    ∃ e v, info.createdEvents.lookup x = some e ∧ e.witness = true ∧
      e.famous = Trilean.ofBool v := by
  unfold RoundInfo.isDecided
  cases info.createdEvents.lookup x with
  | none => simp
  | some e =>
    obtain ⟨w, f⟩ := e
    cases w <;> cases f <;> simp [Trilean.ofBool]

/-- The witnesses of a round are decided once each of them is, and they are enough. -/
theorem RoundInfo.witnessesDecided_iff (info : RoundInfo H) (P : PeerSet K) :
    ({ info with decided := false } : RoundInfo H).witnessesDecided P = true ↔
      (∀ x ∈ info.witnesses, info.isDecided x = true) ∧
        P.superMajority ≤ info.witnesses.length := by
  have hall : (info.createdEvents.keysWith fun e => e.witness && e.famous == .undefined) = [] ↔
      ∀ x ∈ info.witnesses, info.isDecided x = true := by
    rw [List.eq_nil_iff_forall_not_mem]
    refine forall_congr' fun x => ?_
    rw [Map.mem_keysWith, RoundInfo.mem_witnesses, RoundInfo.isDecided]
    cases info.createdEvents.lookup x with
    | none => simp
    | some e =>
      obtain ⟨w, f⟩ := e
      cases w <;> cases f <;> simp
  rw [RoundInfo.witnessesDecided, Bool.false_or, Bool.and_eq_true, List.isEmpty_iff,
    decide_eq_true_eq, hall]
  refine and_congr_right fun hdec => ?_
  -- the decided witnesses are the witnesses
  have hperm : (info.createdEvents.keysWith fun e => e.witness && e.famous != .undefined).Perm
      info.witnesses := by
    refine (List.perm_ext_iff_of_nodup (Map.nodup_keysWith _ _) (Map.nodup_keysWith _ _)).2
      fun x => ⟨fun hx => ?_, fun hx => ?_⟩
    · obtain ⟨e, he, hp⟩ := Map.mem_keysWith.1 hx
      exact RoundInfo.mem_witnesses.2 ⟨e, he, (Bool.and_eq_true _ _ ▸ hp).1⟩
    · obtain ⟨e, v, he, hwit, hfam⟩ := RoundInfo.isDecided_iff.1 (hdec x hx)
      refine Map.mem_keysWith.2 ⟨e, he, ?_⟩
      rw [hwit, hfam]
      cases v <;> rfl
  rw [hperm.length_eq]

theorem RoundInfo.witnessesDecided_settle {info : RoundInfo H} {P : PeerSet K} :
    (info.settle P).witnessesDecided P = info.witnessesDecided P := by
  unfold RoundInfo.settle RoundInfo.witnessesDecided
  cases info.decided <;> simp

/-! ## Flags -/

/-- The rounds that are flagged as decided satisfy `Φ`. -/
def FlagsIn (Φ : ℤ → Prop) (rc : Map ℤ (RoundInfo H)) : Prop :=
  ∀ ⦃r info⦄, rc.lookup r = some info → info.decided = true → Φ r

namespace FlagsIn

variable {Φ : ℤ → Prop} {R : Reading H K} {h : Hashgraph H K} {rc : Map ℤ (RoundInfo H)}

theorem of_newlyDivided {A : Assignment H} {h' : Hashgraph H K} {x : H} {e : SignedEvent H K}
    {r t : ℤ} {w : Bool} (hf : FlagsIn Φ h.store.roundCache)
    (hn : Hashgraph.NewlyDivided S R ps A h x e r w t h') : FlagsIn Φ h'.store.roundCache := by
  intro j info hi hdec
  rw [hn.rounds] at hi
  split_ifs at hi with hj
  · obtain rfl := Option.some.inj hi
    rw [RoundInfo.addCreatedEvent_decided] at hdec
    cases hl : h.store.roundCache.lookup r with
    | none => rw [hl] at hdec; cases hdec
    | some info => rw [hl] at hdec; exact hj ▸ hf hl hdec
  · exact hf hi hdec

/-- A pass may set the flags of rounds with their witnesses decided. -/
theorem of_passed {rs : List PendingRound} {dl : List ℤ} (hf : FlagsIn Φ h.store.roundCache)
    (hp : Hashgraph.Passed R ps h.store rs h.store.roundCache rc dl)
    (hΦ : ∀ r info, rc.lookup r = some info →
      ({ info with decided := false } : RoundInfo H).witnessesDecided (ps r) = true → Φ r) :
    FlagsIn Φ rc := by
  intro r info hinfo hdec
  by_cases hr : r ∈ rs.map PendingRound.index
  · obtain ⟨i, i', hold, hj, hnew, -⟩ := hp.judged r hr
    cases hi : i.decided with
    | true => exact hf hold hi
    | false =>
      refine hΦ r info hinfo ?_
      obtain rfl := Option.some.inj (hnew.symm.trans hinfo)
      have hi' : i'.decided = false := hj.decided.trans hi
      rw [← show i'.witnessesDecided (ps r) = true from hdec]
      exact congrArg (RoundInfo.witnessesDecided · (ps r)) (by rw [RoundInfo.settle, ← hi'])
  · exact hf (hp.other r hr ▸ hinfo) hdec

theorem of_receiving {l : ℤ → List H} (hf : FlagsIn Φ h.store.roundCache)
    (hr : Hashgraph.RoundsReceiving ps l h.store.roundCache rc)
    (hΦ : ∀ r info, h.store.roundCache.lookup r = some info →
      ({ info with decided := false } : RoundInfo H).witnessesDecided (ps r) = true → Φ r) :
    FlagsIn Φ rc := by
  intro r info hinfo hdec
  obtain ⟨i, hi, hrec⟩ := hr.lookup_some hinfo
  cases hd : i.decided with
  | true => exact hf hi hd
  | false =>
    refine hΦ r i hi ?_
    rw [← hd]
    rcases hrec.decided with h | h
    · rw [hdec, hd] at h
      cases h
    · exact h.symm.trans hdec

end FlagsIn

/-! ## Prompt replicas -/

section Rounds

variable {D : H → Prop} {h : Hashgraph H K} {r : ℤ} {info : RoundInfo H}
  (hd : h.Divided (assignment U.graph ps) D)
  (hinfo : h.store.roundCache.lookup r = some info)

include hd hinfo

theorem mem_witnesses_iff_witnessesIn {x : H} :
    x ∈ info.witnesses ↔ WitnessesIn U.graph ps D r x := by
  rw [← hd.witnessAt_eq]
  refine ⟨fun hx => ⟨info, hinfo, hx⟩, ?_⟩
  rintro ⟨info', hinfo', hx⟩
  obtain rfl := Option.some.inj (hinfo.symm.trans hinfo')
  exact hx

/-- A round with its witnesses decided is complete. -/
theorem complete_of_witnessesDecided (hf : FameIn (T.Decided D) h.store.roundCache)
    (hdec : ({ info with decided := false } : RoundInfo H).witnessesDecided (ps r) = true) :
    Complete U.graph ps D r := by
  obtain ⟨hall, hlen⟩ := (info.witnessesDecided_iff _).1 hdec
  refine ⟨fun x hx => ?_, info.witnesses, Map.nodup_keysWith _ _,
    fun x hx => (mem_witnesses_iff_witnessesIn hd hinfo).1 hx, hlen⟩
  have hx' := (mem_witnesses_iff_witnessesIn hd hinfo).2 hx
  obtain ⟨e, v, he, -, hv⟩ := RoundInfo.isDecided_iff.1 (hall x hx')
  exact ⟨v, (hf hinfo he hv).2⟩

end Rounds

namespace Hashgraph

/-- The flagged rounds are complete, the witnesses of the rounds after `q` that stored
witnesses decide are decided on record, and round `q + 1` still waits for some. -/
structure Prompt (U : Universe S) (ps : ℤ → PeerSet K) (q : ℤ) (h : Hashgraph H K) : Prop where
  complete : FlagsIn (Complete U.graph ps (· ∈ h.store.eventCache)) h.store.roundCache
  judged : ∀ {r info x}, h.store.roundCache.lookup r = some info → q < r → x ∈ info.witnesses →
    info.isDecided x = true ∨ ∀ v, ¬DecidedIn U.graph ps (· ∈ h.store.eventCache) x v
  waiting : ∀ {info}, h.store.roundCache.lookup (q + 1) = some info →
    info.witnessesDecided (ps (q + 1)) = false

/-- What does not touch events and rounds. -/
theorem Prompt.of_store {q : ℤ} {h h' : Hashgraph H K} (hp : h.Prompt U ps q)
    (hec : h'.store.eventCache = h.store.eventCache)
    (hrc : h'.store.roundCache = h.store.roundCache) : h'.Prompt U ps q := by
  obtain ⟨h1, h2, h3⟩ := hp
  rw [← hec, ← hrc] at h1
  rw [← hec, ← hrc] at h2
  rw [← hrc] at h3
  exact ⟨h1, h2, h3⟩

/-- A replica that has all the events of another one has got at least as far. -/
theorem Prompt.le {B B' : SignedEvent H K → Prop} {size size' n n' : ℕ} {q q' : ℤ}
    {h h' : Hashgraph H K} (hp : h.Prompt U ps q) (hp' : h'.Prompt U ps q')
    (hr : h.Replica T B size n q) (hs : h.Settled T q) (hr' : h'.Replica T B' size' n' q')
    (hps : Steadfast ps) (hsub : ∀ x, x ∈ h.store.eventCache → x ∈ h'.store.eventCache) :
    q ≤ q' := by
  by_contra hlt
  have hlow : T.low < q' + 1 := by have := hr'.low_le; omega
  have hbase : T.base ≤ q' + 1 := by have := T.base_le; omega
  have h0 := hr'.wellFormed.le
  -- the first round that `h'` has not processed is complete for `h`
  have hb : h.belowLowerBound (q' + 1) = false := by
    rw [← Bool.not_eq_true, hs.lowerBound _ hbase]
    omega
  have hlast : q' + 1 ≤ h.store.lastRound := by
    by_contra hgt
    rw [hr.wellFormed.top _ (not_le.1 hgt) (by omega)] at hb
    cases hb
  obtain ⟨info, hinfo⟩ := Map.mem_iff_lookup.1 (hr.wellFormed.rounds _ (by omega) hlast hb)
  have hc := (hp.complete hinfo (hr.wellFormed.decided _ info hinfo (by omega) hb)).mono hps
    hr.coordinates.windowClosed (fun y hy => hr'.coordinates.windowClosed.mem hy) hsub hbase
  -- and so it is for `h'`
  obtain ⟨l, hnd, hl, hlen⟩ := hc.enough
  have hpos : 0 < l.length := by
    refine lt_of_lt_of_le ?_ hlen
    rw [PeerSet.superMajority_eq]
    exact EventGraph.quorum_pos _
  obtain ⟨w, hw⟩ := List.exists_mem_of_length_pos hpos
  obtain ⟨info', e, hinfo', -⟩ := hr'.wellFormed.divided.recorded w (hl w hw).1
  rw [show (assignment U.graph ps).round w = q' + 1 from (hl w hw).2.1] at hinfo'
  have hwait := hp'.waiting hinfo'
  have hdec : info'.decided = false := by
    rw [RoundInfo.witnessesDecided, Bool.or_eq_false_iff] at hwait
    exact hwait.1
  refine absurd ?_ (Bool.eq_false_iff.1 hwait)
  have hiff := info'.witnessesDecided_iff (ps (q' + 1))
  rw [← hdec] at hiff
  have hmem : ∀ x, x ∈ info'.witnesses ↔ _ := fun x =>
    mem_witnesses_iff_witnessesIn hr'.wellFormed.divided hinfo'
  refine hiff.2 ⟨fun x hx => ?_, hlen.trans (hnd.subperm fun x hx => ?_).length_le⟩
  · obtain ⟨v, hv⟩ := hc.decided x ((hmem x).1 hx)
    exact (hp'.judged hinfo' (by omega) hx).resolve_right fun hno => hno v hv
  · exact (hmem x).2 (hl x hx)

end Hashgraph

/-! ## Calls -/

namespace Session

open Hashgraph

variable {rt : Runtime} {cb : CommitCallback C H K} {B : SignedEvent H K → Prop} {size n : ℕ}
  {q : ℤ} {s s' : Session C H K} {i : Input H K}

section Call

variable (hcb : Hosting cb) (hr : s.hg.Replica T B size n q)
  (c : Call S rt cb (exactAnswer U.graph ps T) ps (assignment U.graph ps) q s i s')
  (hb : i.event.body ∈ U.bodies) (hadm : T.Admits (i.event.hex S)) (hn : n < size)
  (hB : ∀ e : SignedEvent H K, e.body.selfParent = none → e.body.index = 0 → B e)

include hcb hr hb hadm hn hB

/-- The rounds that are flagged in a call are complete. -/
theorem Call.flags (hps : Steadfast ps) (hk : FamousKnown T s.hg.store.roundCache)
    (hp : s.hg.Prompt U ps q) :
    FlagsIn (Complete U.graph ps (· ∈ c.h₁.store.eventCache)) c.h₄.store.roundCache := by
  obtain ⟨hnew, -⟩ := c.stocked hcb hr.wellFormed hr.stocked U.indexed hb hn hB
  have hclosed := (c.coordinates₁ hcb hr hb hadm hn hB).windowClosed
  obtain ⟨-, -, -, hw₃, -⟩ := c.wellFormed_passes hr.wellFormed
  rw [c.assignment_eq hcb hr hb hadm hn hB] at hw₃
  obtain ⟨hf₃, -⟩ := c.fame hcb hr hb hadm hn hB
  have hf₁ : FlagsIn (Complete U.graph ps (· ∈ c.h₁.store.eventCache)) c.h₁.store.roundCache := by
    have hrc : c.h₁.store.roundCache = s.hg.store.roundCache := by
      obtain ⟨pec, hst, -⟩ := setEvent_eq c.ins.setEvent
      obtain ⟨ti, sigs, he⟩ := c.result
      rw [he, hst]
    rw [hrc]
    intro r info hinfo hdec
    have hlow := (hk hinfo hdec).1
    exact (hp.complete hinfo hdec).mono hps hr.coordinates.windowClosed (fun y hy => hclosed.mem hy)
      (fun y hy => c.mem_iff₁.2 (Or.inr hy)) (by have := T.base_le; omega)
  have hf₂ : FlagsIn (Complete U.graph ps (· ∈ c.h₁.store.eventCache)) c.h₂.store.roundCache := by
    rcases c.consensus.divided with ⟨hD, -⟩ | ⟨-, r, w, t, -, hnd⟩
    exacts [absurd hD hnew, hf₁.of_newlyDivided hnd]
  have hΦ : ∀ r info, c.h₃.store.roundCache.lookup r = some info →
      ({ info with decided := false } : RoundInfo H).witnessesDecided (ps r) = true →
        Complete U.graph ps (· ∈ c.h₁.store.eventCache) r := fun r info hinfo =>
    complete_of_witnessesDecided hw₃.divided hinfo hf₃
  have hf₃ : FlagsIn (Complete U.graph ps (· ∈ c.h₁.store.eventCache)) c.h₃.store.roundCache := by
    obtain ⟨rc, m, dl, he, -, hpass⟩ := c.consensus.judged
    have hrc : c.h₃.store.roundCache = rc := by rw [he]; rfl
    rw [hrc] at hΦ ⊢
    exact hf₂.of_passed hpass hΦ
  obtain ⟨ec, rc, m, l, rest, he, hrec, -⟩ := c.consensus.received
  rw [he]
  exact hf₃.of_receiving hrec.rounds hΦ

/-- A call keeps a replica prompt. -/
theorem Call.prompt (hps : Steadfast ps) (hk : FamousKnown T s.hg.store.roundCache)
    (hp : s.hg.Prompt U ps q) : s'.hg.Prompt U ps c.n := by
  have hund := hcb.undisturbing
  have hflags := c.flags hcb hr hb hadm hn hB hps hk hp
  have hclosed := (c.coordinates₁ hcb hr hb hadm hn hB).windowClosed
  obtain ⟨-, -, hw₂, hw₃, -⟩ := c.wellFormed_passes hr.wellFormed
  rw [c.assignment_eq hcb hr hb hadm hn hB] at hw₂ hw₃
  obtain ⟨hec, hrc, -⟩ := c.sameGraph hund
  have hD : (· ∈ s'.hg.store.eventCache) = (· ∈ c.h₁.store.eventCache) := by
    funext y
    rw [eq_iff_iff, hec, c.consensus.events.mem_iff]
  obtain ⟨rc, m, dl, he₃, -, hpass⟩ := c.consensus.judged
  obtain ⟨ec, rc', m', l, rest, he₄, hrec, -⟩ := c.consensus.received
  have hqn := c.processed.le
  have hrounds : s'.hg.store.roundCache = rc' := by rw [hrc, he₄]; rfl
  -- a round after `q` was pending in the fame pass
  have hpending : ∀ {r info}, c.h₃.store.roundCache.lookup r = some info → q < r →
      r ∈ c.h₂.pendingRounds.map PendingRound.index ∧ rc.lookup r = some info := by
    intro r info hinfo hqr
    have hle := hw₃.divided.le_last r (Map.mem_iff_lookup.2 ⟨info, hinfo⟩)
    rw [he₃] at hle hinfo
    exact ⟨(hw₂.pending r).2 ⟨hqr, hle⟩, hinfo⟩
  refine ⟨?_, fun {r info x} hinfo hr' hx => ?_, fun {info} hinfo => ?_⟩
  · rw [hD, hrc]
    exact hflags
  · rw [hrounds] at hinfo
    obtain ⟨i₃, hi₃, hrecv⟩ := hrec.rounds.lookup_some hinfo
    have hwit : info.witnesses = i₃.witnesses := by
      rw [RoundInfo.witnesses, RoundInfo.witnesses, hrecv.created]
    have hdecided : info.isDecided x = i₃.isDecided x := by
      rw [RoundInfo.isDecided, RoundInfo.isDecided, hrecv.created]
    obtain ⟨hpend, hi⟩ := hpending hi₃ (by omega)
    rw [hD, hdecided]
    refine (hpass.prompt r hpend i₃ hi x (hwit ▸ hx)).imp id fun hu => ?_
    have hlow := hr.low_le
    have hbase := T.base_le
    exact hu.not_decidedIn hclosed hw₂.divided (by omega)
      ((mem_witnesses_iff_witnessesIn hw₃.divided hi₃).1 (hwit ▸ hx))
  · rw [hrounds] at hinfo
    obtain ⟨i₃, hi₃, hrecv⟩ := hrec.rounds.lookup_some hinfo
    rw [hrecv.witnessesDecided]
    obtain ⟨hpend, hi⟩ := hpending hi₃ (by omega)
    obtain ⟨i, i', -, -, hnew, hiff⟩ := hpass.judged _ hpend
    obtain rfl := Option.some.inj (hi.symm.trans hnew)
    rw [RoundInfo.witnessesDecided_settle, ← Bool.not_eq_true, ← hiff]
    intro hdl
    -- the round was flagged, so it would have been processed
    obtain ⟨p, hp, hpn⟩ := List.mem_map.1 hpend
    have hmem : ({ p with decided := true } : PendingRound) ∈ c.h₄.pendingRounds := by
      rw [he₄, he₃]
      refine List.mem_map.2 ⟨p, hp, if_pos ?_⟩
      rwa [hpn]
    have := c.waiting _ hmem hpn
    cases this

end Call

end Session

end Babble

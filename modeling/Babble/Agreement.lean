import Babble.Accounting
import Babble.Replicas

/-!
# Decided rounds are the same for all

Where the peers change slowly enough for decisions to bind (`EventGraph.Fair`), the famous
witnesses of a round that a replica has decided are those of the event graph : none is
missing, since a witness that the replica does not know when it decides the round will
never be famous. So the events that a replica has received in a round are received there
in the event graph, and once the round is processed they are all of them (`Settled`).
-/

set_option linter.unusedSectionVars false

namespace Babble

variable {C H K : Type} [DecidableEq H] [DecidableEq K] [Hex H] [Hex K]

variable {S : Scheme H K} {U : Universe S} {ps : ℤ → PeerSet K}
  {T : Window U.graph (keysAt ps)}

/-- Decisions bind, and the rounds that are left to others receive no event of the window,
while the other rounds receive no event outside. -/
structure Window.Receptive (T : Window U.graph (keysAt ps)) : Prop where
  fair : ∀ x, EventGraph.Fair (keysAt ps) (U.graph.round (keysAt ps) x)
  unreceived : ∀ {x j}, T.Inside x → j ≤ T.low → ¬U.graph.Receives (keysAt ps) middleBit j x
  inside : ∀ {x r}, T.low < r → U.graph.Received (keysAt ps) middleBit r x → T.Inside x

theorem Window.whole_receptive (hfair : ∀ r, EventGraph.Fair (keysAt ps) r) :
    (Window.whole U.graph (keysAt ps)).Receptive where
  fair _ := hfair _
  unreceived {x j} _ hj hr := by
    obtain ⟨w, hw⟩ := hr.exists_famousIn
    have hnn := EventGraph.round_nonneg U.graph (keysAt ps) w
    rw [hw.round_eq] at hnn
    have : j ≤ -1 := hj
    omega
  inside _ _ := trivial

/-! ## Famous witnesses -/

section Famous

variable {D : H → Prop} {h : Hashgraph H K} {r : ℤ} {info : RoundInfo H} {w : H}
  (hD : T.Closed D) (hd : h.Divided (assignment U.graph ps) D)
  (hf : FameIn (T.Decided D) h.store.roundCache)
  (hinfo : h.store.roundCache.lookup r = some info)

include hD hd hf hinfo

/-- A witness that is recorded as famous is famous in the graph. -/
theorem famousIn_of_mem (hw : w ∈ info.famousWitnesses) :
    T.low < r ∧ D w ∧ U.graph.FamousIn (keysAt ps) middleBit r w := by
  obtain ⟨e, he, hwit, hfam⟩ := RoundInfo.mem_famousWitnesses.1 hw
  obtain ⟨hDw, hround, hwe⟩ := hd.created r info w e hinfo he
  obtain ⟨hlow, d, y, -, hvoter, hdec⟩ := hf (v := true) hinfo he hfam
  have hround : U.graph.round (keysAt ps) w = r := hround
  refine ⟨hround ▸ hlow, hDw, hD.mem hDw, ?_, hround, d, y, hvoter, hdec⟩
  classical exact decide_eq_true_iff.1 (hwe ▸ hwit : (assignment U.graph ps).witness w = true)

/-- No famous witness is missing when the witnesses of a round have just been decided. -/
theorem mem_of_famousIn (hfair : ∀ x, EventGraph.Fair (keysAt ps) (U.graph.round (keysAt ps) x))
    (hdec : ({ info with decided := false } : RoundInfo H).witnessesDecided (ps r) = true) :
    T.low < r ∧ ∀ w, U.graph.FamousIn (keysAt ps) middleBit r w → w ∈ info.famousWitnesses := by
  rw [RoundInfo.witnessesDecided, Bool.false_or, Bool.and_eq_true, List.isEmpty_iff,
    decide_eq_true_eq] at hdec
  obtain ⟨hnone, hmany⟩ := hdec
  -- a witness with its fame on record
  have hfame : ∀ {w e}, info.createdEvents.lookup w = some e → e.witness = true →
      ∃ v, e.famous = Trilean.ofBool v := by
    intro w e he hwit
    have hne : e.famous ≠ .undefined := by
      intro hu
      refine List.eq_nil_iff_forall_not_mem.1 hnone w (Map.mem_keysWith.2 ⟨e, he, ?_⟩)
      rw [hwit, hu]
      rfl
    cases hef : e.famous with
    | undefined => exact absurd hef hne
    | true => exact ⟨.true, rfl⟩
    | false => exact ⟨.false, rfl⟩
  obtain ⟨w₀, hw₀⟩ : ∃ w₀, w₀ ∈ info.createdEvents.keysWith
      fun e => e.witness && e.famous != .undefined := by
    refine List.exists_mem_of_ne_nil _ fun hnil => ?_
    rw [hnil, PeerSet.superMajority_eq, List.length_nil] at hmany
    exact absurd hmany (not_le.2 (EventGraph.quorum_pos _))
  obtain ⟨e₀, he₀, hp⟩ := Map.mem_keysWith.1 hw₀
  rw [Bool.and_eq_true] at hp
  obtain ⟨v₀, hv₀⟩ := hfame he₀ hp.1
  obtain ⟨hlow, d, y, hDy, hvoter, hdecides⟩ := hf hinfo he₀ hv₀
  obtain ⟨-, hround₀, -⟩ := hd.created r info w₀ e₀ hinfo he₀
  have hround₀ : U.graph.round (keysAt ps) w₀ = r := hround₀
  rw [hround₀] at hlow
  refine ⟨hlow, fun w hw => ?_⟩
  have hbase : T.base ≤ U.graph.round (keysAt ps) w := T.base_le.trans (by rw [hw.round_eq]; omega)
  by_cases hDw : D w
  · -- the witness is on record, and was not decided to be infamous
    obtain ⟨info', e, hinfo', he⟩ := hd.recorded w hDw
    have hrw : (assignment U.graph ps).round w = r := hw.round_eq
    rw [hrw] at hinfo'
    obtain rfl := Option.some.inj (hinfo.symm.trans hinfo')
    have hwit : e.witness = true := by
      rw [(hd.created r info w e hinfo he).2.2]
      classical exact decide_eq_true_iff.2 hw.witness
    obtain ⟨v, hv⟩ := hfame he hwit
    obtain ⟨-, d₁, y₁, -, hvoter₁, hdecides₁⟩ := hf hinfo he hv
    obtain ⟨d₂, y₂, hvoter₂, hdecides₂⟩ := hw.famous
    obtain rfl := hdecides₁.eq hvoter₁ hdecides₂ hvoter₂ (hfair w)
    exact RoundInfo.mem_famousWitnesses.2 ⟨e, he, hwit, hv⟩
  · -- a witness that is not known is not an ancestor of the voter that decided
    refine absurd hw.famous (EventGraph.not_famous_of_not_anc ?_
      (fun hanc => hDw (hD.anc hDy hanc (T.of_round hw.mem hbase))) (hfair w))
    rw [hvoter.round_eq, EventGraph.roundAt, EventGraph.roundAt, hround₀, hw.round_eq]
    have := hdecides.distance
    push_cast
    omega

/-- The famous witnesses of a decided round are those of the graph. -/
theorem length_famousWitnesses
    (hall : ∀ w, U.graph.FamousIn (keysAt ps) middleBit r w → w ∈ info.famousWitnesses) :
    info.famousWitnesses.length =
      U.graph.count (keysAt ps r) (U.graph.FamousIn (keysAt ps) middleBit r) := by
  refine (EventGraph.count_eq_length (Map.nodup_keysWith _ _) (fun w hw => ?_)
    (fun w _ _ hw => hall w hw) fun w hw w' hw' hc => ?_).symm
  · obtain ⟨-, -, hfw⟩ := famousIn_of_mem hD hd hf hinfo hw
    exact ⟨hfw.mem, hfw.round_eq ▸ hfw.witness.1, hfw⟩
  · obtain ⟨-, -, hfw⟩ := famousIn_of_mem hD hd hf hinfo hw
    obtain ⟨-, -, hfw'⟩ := famousIn_of_mem hD hd hf hinfo hw'
    exact EventGraph.Witness.unique hfw.mem hfw'.mem hfw.witness hfw'.witness hc
      (hfw.round_eq.trans hfw'.round_eq.symm)

end Famous

/-- The decided rounds have all their famous witnesses on record. -/
def FamousKnown (T : Window U.graph (keysAt ps)) (rc : Map ℤ (RoundInfo H)) : Prop :=
  ∀ ⦃r info⦄, rc.lookup r = some info → info.decided = true → T.low < r ∧
    ∀ w, U.graph.FamousIn (keysAt ps) middleBit r w → w ∈ info.famousWitnesses

namespace FamousKnown

variable {rc rc' : Map ℤ (RoundInfo H)} {R : Reading H K}

/-- A new event does not change what is on record. -/
theorem of_newlyDivided {A : Assignment H} {h h' : Hashgraph H K} {x : H} {e : SignedEvent H K}
    {r t : ℤ} {b : Bool} (hk : FamousKnown T h.store.roundCache)
    (hn : Hashgraph.NewlyDivided S R ps A h x e r b t h') : FamousKnown T h'.store.roundCache := by
  intro j info hinfo hdec
  rw [hn.rounds] at hinfo
  split_ifs at hinfo with hj
  · obtain rfl := Option.some.inj hinfo
    rw [RoundInfo.addCreatedEvent_decided] at hdec
    cases hl : h.store.roundCache.lookup r with
    | none => rw [hl] at hdec; cases hdec
    | some info =>
      rw [hl, Option.getD_some] at hdec
      obtain ⟨hlow, hall⟩ := hk hl hdec
      refine hj ▸ ⟨hlow, fun w hw => ?_⟩
      obtain ⟨e, he, hwit, hfam⟩ := RoundInfo.mem_famousWitnesses.1 (hall w hw)
      refine RoundInfo.mem_famousWitnesses.2 ⟨e, ?_, hwit, hfam⟩
      rw [Option.getD_some, RoundInfo.lookup_addCreatedEvent]
      split_ifs with hwx
      · rw [← hwx, he, Option.getD_some]
      · exact he
  · exact hk hinfo hdec

/-- Where the fame on record was decided by witnesses in `D`, all is known about a round
that has its witnesses decided. -/
theorem of_witnessesDecided (hfair : ∀ x, EventGraph.Fair (keysAt ps) (U.graph.round (keysAt ps) x))
    {D : H → Prop} {h : Hashgraph H K} (hD : T.Closed D)
    (hd : h.Divided (assignment U.graph ps) D) (hf : FameIn (T.Decided D) h.store.roundCache)
    (hk : FamousKnown T h.store.roundCache) {r : ℤ} {info : RoundInfo H}
    (hinfo : h.store.roundCache.lookup r = some info)
    (hdec : info.witnessesDecided (ps r) = true) : T.low < r ∧
      ∀ w, U.graph.FamousIn (keysAt ps) middleBit r w → w ∈ info.famousWitnesses := by
  cases hi : info.decided with
  | true => exact hk hinfo hi
  | false => exact mem_of_famousIn hD hd hf hinfo hfair (hi ▸ hdec)

end FamousKnown

/-! ## Reception -/

section Reception

variable {D : H → Prop} {h : Hashgraph H K} {x : H} {j : ℤ}
  (hT : T.Receptive) (hD : T.Closed D) (hd : h.Divided (assignment U.graph ps) D)
  (hf : FameIn (T.Decided D) h.store.roundCache) (hk : FamousKnown T h.store.roundCache)
  (hx : T.Inside x)

include hT hD hd hf hk hx

/-- A round that hits an event receives it in the graph. -/
theorem Hashgraph.Hits.receives (hh : Hits (exactAnswer U.graph ps T) ps h x j) :
    T.low < j ∧ U.graph.Receives (keysAt ps) middleBit j x := by
  obtain ⟨info, hinfo, hdec, hsee, hle⟩ := hh
  obtain ⟨hlow, hall⟩ := hk.of_witnessesDecided hT.fair hD hd hf hinfo hdec
  refine ⟨hlow, ?_, fun w hw => (hsee w (hall w hw) hx).1 rfl⟩
  rwa [← length_famousWitnesses hD hd hf hinfo hall, keysAt, ← PeerSet.superMajority_eq]

/-- A round that misses an event does not receive it in the graph. -/
theorem Hashgraph.Misses.not_receives (hlb : h.belowLowerBound j = true → j ≤ T.low)
    (hm : Misses (exactAnswer U.graph ps T) ps h x j) :
    ¬U.graph.Receives (keysAt ps) middleBit j x := by
  obtain ⟨info, hinfo, ⟨hdec, hmiss⟩ | ⟨-, hb⟩⟩ := hm
  · intro hr
    obtain ⟨-, hall⟩ := hk.of_witnessesDecided hT.fair hD hd hf hinfo hdec
    rcases hmiss with ⟨w, hw, hsee⟩ | hlt
    · obtain ⟨-, -, hfw⟩ := famousIn_of_mem hD hd hf hinfo hw
      have := (hsee hx).2 (hr.anc w hfw)
      cases this
    · rw [length_famousWitnesses hD hd hf hinfo hall, PeerSet.superMajority_eq] at hlt
      exact absurd hr.enough (not_le.2 hlt)
  · exact hT.unreceived hx (hlb hb)

/-- The round that a search finds is the round-received in the graph. -/
theorem Hashgraph.FoundAt.received
    (hlb : ∀ i, T.base ≤ i → h.belowLowerBound i = true → i ≤ T.low) (hm : U.graph.Mem x)
    (hbase : T.base ≤ U.graph.round (keysAt ps) x)
    (hfound : FoundAt (exactAnswer U.graph ps T) ps h x (U.graph.round (keysAt ps) x + 1) j) :
    U.graph.Received (keysAt ps) middleBit j x := by
  refine ⟨hm, by have := hfound.le; omega, (hfound.hits.receives hT hD hd hf hk hx).2,
    fun i h1 h2 => ?_⟩
  exact (hfound.misses i (by omega) h2).not_receives hT hD hd hf hk hx (hlb i (by omega))

end Reception

namespace Hashgraph

/-- What a replica has decided and received is what the graph says, and for the rounds up to
`q` it is all. -/
structure Settled (T : Window U.graph (keysAt ps)) (q : ℤ) (h : Hashgraph H K) : Prop where
  famous : FamousKnown T h.store.roundCache
  received : ∀ {r x}, x ∈ h.store.receivedIn r → U.graph.Received (keysAt ps) middleBit r x
  complete : ∀ {r x}, T.low < r → r ≤ q → U.graph.Received (keysAt ps) middleBit r x →
    x ∈ h.store.receivedIn r
  accounted : h.Accounted T.Inside
  undetermined : ∀ x ∈ h.undeterminedEvents, T.Inside x ∧ T.base ≤ U.graph.round (keysAt ps) x
  lowerBound : ∀ r, T.base ≤ r → (h.belowLowerBound r = true ↔ r ≤ T.low)

end Hashgraph

theorem sightDefinite_exactAnswer {x : H} (hx : T.Inside x) :
    Hashgraph.SightDefinite (exactAnswer U.graph ps T) x := by
  intro w htrue hfalse
  have := (hfalse hx).2 ((htrue hx).1 rfl)
  cases this

/-- The fame pass settles the rounds that it decides. -/
theorem FamousKnown.of_passed {R : Reading H K} {D : H → Prop} {h h' : Hashgraph H K}
    {rc : Map ℤ (RoundInfo H)} {rs : List PendingRound} {dl : List ℤ}
    (hfair : ∀ x, EventGraph.Fair (keysAt ps) (U.graph.round (keysAt ps) x)) (hD : T.Closed D)
    (hd : h'.Divided (assignment U.graph ps) D) (hf : FameIn (T.Decided D) h'.store.roundCache)
    (hrc : h'.store.roundCache = rc) (hk : FamousKnown T h.store.roundCache)
    (hp : Hashgraph.Passed R ps h.store rs h.store.roundCache rc dl) :
    FamousKnown T h'.store.roundCache := by
  intro r info hinfo hdec
  by_cases hr : r ∈ rs.map PendingRound.index
  · obtain ⟨i, i', hold, hj, hnew, -⟩ := hp.judged r hr
    rw [← hrc] at hnew
    obtain rfl := Option.some.inj (hnew.symm.trans hinfo)
    have hdec : i'.witnessesDecided (ps r) = true := hdec
    cases hi : i.decided with
    | true =>
      obtain ⟨hlow, hall⟩ := hk hold hi
      exact ⟨hlow, fun w hw => hj.mem_famousWitnesses (hall w hw)⟩
    | false =>
      refine mem_of_famousIn hD hd hf hinfo hfair ?_
      have hi' : i'.decided = false := hj.decided.trans hi
      rw [← hdec]
      exact congrArg (RoundInfo.witnessesDecided · (ps r)) (by rw [RoundInfo.settle, ← hi'])
  · refine hk ?_ hdec
    rw [← hp.other r hr, ← hrc]
    exact hinfo

/-- The round-received pass only sets the flags of rounds with their witnesses decided. -/
theorem FamousKnown.of_receiving {D : H → Prop} {h : Hashgraph H K} {rc : Map ℤ (RoundInfo H)}
    {l : ℤ → List H} (hfair : ∀ x, EventGraph.Fair (keysAt ps) (U.graph.round (keysAt ps) x))
    (hD : T.Closed D) (hd : h.Divided (assignment U.graph ps) D)
    (hf : FameIn (T.Decided D) h.store.roundCache) (hk : FamousKnown T h.store.roundCache)
    (hr : Hashgraph.RoundsReceiving ps l h.store.roundCache rc) : FamousKnown T rc := by
  intro r info hinfo hdec
  obtain ⟨i, hi, hrec⟩ := hr.lookup_some hinfo
  have hwd : i.witnessesDecided (ps r) = true := by
    rcases hrec.decided with h | h
    · rw [RoundInfo.witnessesDecided, ← h, hdec, Bool.true_or]
    · exact h.symm.trans hdec
  rw [hrec.famousWitnesses]
  exact hk.of_witnessesDecided hfair hD hd hf hi hwd

namespace Session

open Hashgraph

variable {rt : Runtime} {cb : CommitCallback C H K} {B : SignedEvent H K → Prop} {size n : ℕ}
  {q : ℤ} {s s' : Session C H K} {i : Input H K}

section Call

variable (hcb : Hosting cb) (hr : s.hg.Replica T B size n q)
  (c : Call S rt cb (exactAnswer U.graph ps T) ps (assignment U.graph ps) q s i s')
  (hb : i.event.body ∈ U.bodies) (hadm : T.Admits (i.event.hex S)) (hn : n < size)
  (hB : ∀ e : SignedEvent H K, e.body.selfParent = none → e.body.index = 0 → B e)

include hcb hr hb hadm hn hB

/-- The famous witnesses on record after the passes. -/
theorem Call.famousKnown (hT : T.Receptive) (hk : FamousKnown T s.hg.store.roundCache) :
    FamousKnown T c.h₃.store.roundCache ∧ FamousKnown T c.h₄.store.roundCache := by
  obtain ⟨hnew, -⟩ := c.stocked hcb hr.wellFormed hr.stocked U.indexed hb hn hB
  have hclosed := (c.coordinates₁ hcb hr hb hadm hn hB).windowClosed
  obtain ⟨-, -, hw₂, hw₃, -⟩ := c.wellFormed_passes hr.wellFormed
  rw [c.assignment_eq hcb hr hb hadm hn hB] at hw₂ hw₃
  obtain ⟨hf₃, hf₄⟩ := c.fame hcb hr hb hadm hn hB
  have hk₁ : FamousKnown T c.h₁.store.roundCache := by
    obtain ⟨pec, hst, -⟩ := setEvent_eq c.ins.setEvent
    obtain ⟨ti, sigs, he⟩ := c.result
    rw [he, hst]
    exact hk
  have hk₂ : FamousKnown T c.h₂.store.roundCache := by
    rcases c.consensus.divided with ⟨hD, -⟩ | ⟨-, r, w, t, -, hnd⟩
    exacts [absurd hD hnew, hk₁.of_newlyDivided hnd]
  have hk₃ : FamousKnown T c.h₃.store.roundCache := by
    obtain ⟨rc, m, dl, he, -, hp⟩ := c.consensus.judged
    exact hk₂.of_passed hT.fair hclosed hw₃.divided hf₃ (by rw [he]; rfl) hp
  refine ⟨hk₃, ?_⟩
  obtain ⟨ec, rc, m, l, rest, he, hrec, -⟩ := c.consensus.received
  rw [he]
  exact hk₃.of_receiving hT.fair hclosed hw₃.divided hf₃ hrec.rounds

/-- Every round from the base of the window up to the last is there. -/
theorem Call.mem_rounds₃ {k : ℤ} (hk : T.base ≤ k) (hk0 : 0 ≤ k) {y : H}
    (hy : y ∈ c.h₁.store.eventCache) (hky : k ≤ U.graph.round (keysAt ps) y) :
    k ∈ c.h₃.store.roundCache := by
  obtain ⟨-, -, -, hw₃, -⟩ := c.wellFormed_passes hr.wellFormed
  rw [c.assignment_eq hcb hr hb hadm hn hB] at hw₃
  have hclosed := (c.coordinates₁ hcb hr hb hadm hn hB).windowClosed
  obtain ⟨z, hyz, hz⟩ := EventGraph.exists_anc_round_eq hk0 hky
  have hzm := hyz.mem (hclosed.mem hy)
  have hzmem := hclosed.anc hy hyz (T.of_round hzm (by rw [hz]; exact hk))
  have := hw₃.divided.mem_rounds hzmem
  rwa [show (assignment U.graph ps).round z = k from hz] at this

/-- A call keeps a replica settled. -/
theorem Call.settled (hT : T.Receptive) (hs : s.hg.Settled T q) : s'.hg.Settled T c.n := by
  have hund := hcb.undisturbing
  obtain ⟨hnew, -⟩ := c.stocked hcb hr.wellFormed hr.stocked U.indexed hb hn hB
  have hclosed := (c.coordinates₁ hcb hr hb hadm hn hB).windowClosed
  obtain ⟨-, hmem₁, -, hw₃, hw₄⟩ := c.wellFormed_passes hr.wellFormed
  rw [c.assignment_eq hcb hr hb hadm hn hB] at hw₃ hw₄
  obtain ⟨hf₃, hf₄⟩ := c.fame hcb hr hb hadm hn hB
  obtain ⟨hk₃, hk₄⟩ := c.famousKnown hcb hr hb hadm hn hB hT hs.famous
  obtain ⟨hec, hrc, -, hu, -⟩ := c.sameGraph hund
  obtain ⟨hlb₃, hlb'⟩ : c.h₃.belowLowerBound = s.hg.belowLowerBound ∧
      s'.hg.belowLowerBound = s.hg.belowLowerBound := by
    obtain ⟨h1, h2⟩ := c.roundLowerBound hund
    unfold belowLowerBound
    rw [h1, h2]
    exact ⟨rfl, rfl⟩
  have hacc := c.accounted hund hs.accounted hnew hadm.inside (by
    rintro x (rfl | hx)
    exacts [sightDefinite_exactAnswer hadm.inside, sightDefinite_exactAnswer (hs.undetermined x hx).1])
  obtain ⟨l, hfrom, hrecv⟩ := c.received hund
  rw [c.assignment_eq hcb hr hb hadm hn hB] at hfrom
  -- the events that were searched
  have hsearched : ∀ x ∈ s.hg.undeterminedEvents ++ [i.event.hex S], T.Inside x ∧
      T.base ≤ U.graph.round (keysAt ps) x ∧ x ∈ c.h₁.store.eventCache := by
    intro x hx
    rcases List.mem_append.1 hx with hx | hx
    · obtain ⟨h1, h2⟩ := hs.undetermined x hx
      exact ⟨h1, h2, c.mem_iff₁.2 (Or.inr ((hs.accounted.all x).2 (Or.inl hx)).1)⟩
    · obtain rfl := List.mem_singleton.1 hx
      exact ⟨hadm.inside, hadm.round, c.mem_iff₁.2 (Or.inl rfl)⟩
  have hreceived : ∀ {r x}, x ∈ s'.hg.store.receivedIn r →
      U.graph.Received (keysAt ps) middleBit r x := by
    intro r x hx
    rw [hrecv] at hx
    rcases List.mem_append.1 hx with hx | hx
    · exact hs.received hx
    · obtain ⟨new, hl, hsub, hfound⟩ := hfrom.found r
      rw [hl, List.nil_append] at hx
      obtain ⟨h1, h2, h3⟩ := hsearched x (hsub.subset hx)
      refine (hfound x hx).received hT hclosed hw₃.divided hf₃ hk₃ h1 (fun j hj hbelow => ?_)
        (hclosed.mem h3) h2
      rw [hlb₃] at hbelow
      exact (hs.lowerBound j hj).1 hbelow
  refine ⟨hrc ▸ hk₄, hreceived, fun {r x} hlow hrn hx => ?_, hacc, fun x hx => ?_, fun r hr => ?_⟩
  · by_cases hrq : r ≤ q
    · rw [hrecv]
      exact List.mem_append_left _ (hs.complete hlow hrq hx)
    -- a famous witness of the round is stored, and so is the event
    obtain ⟨info, hinfo, hdec⟩ := c.processed.decided hund (not_le.1 hrq) hrn
    obtain ⟨w, hw⟩ := hx.receives.exists_famousIn
    obtain ⟨-, hDw, -⟩ :=
      famousIn_of_mem hclosed hw₄.divided hf₄ hinfo ((hk₄ hinfo hdec).2 w hw)
    have hTx := hT.inside hlow hx
    have hxmem := hclosed.anc hDw (hx.receives.anc w hw) hTx
    have hxmem' : x ∈ s'.hg.store.eventCache := by
      rw [hec]
      exact c.consensus.events.mem_iff.2 hxmem
    rcases (hacc.all x).1 ⟨hxmem', hTx⟩ with hwait | ⟨k, hk⟩
    · -- it cannot wait, since no round up to this one ends the search
      obtain ⟨hTx, hbx, -⟩ := hsearched x (hfrom.rest_sub.subset hwait)
      obtain ⟨k, hxk, hstop, hmiss⟩ := hfrom.rest_notFound x hwait
      have hxk : U.graph.round (keysAt ps) x + 1 ≤ k := hxk
      have hlbk : c.h₃.belowLowerBound r = true → r ≤ T.low := fun hbelow =>
        (hs.lowerBound r (hbx.trans hx.round_lt.le)).1 (hlb₃ ▸ hbelow)
      by_cases hrk : r < k
      · exact absurd hx.receives ((hmiss r hx.round_lt hrk).not_receives hT hclosed hw₃.divided
          hf₃ hk₃ hTx hlbk)
      · have hkw : k ≤ U.graph.round (keysAt ps) w := by rw [hw.round_eq]; omega
        obtain ⟨info₃, hinfo₃⟩ := Map.mem_iff_lookup.1 (c.mem_rounds₃ hcb hr hb hadm hn hB
          (by omega) (by have := EventGraph.round_nonneg U.graph (keysAt ps) x; omega) hDw hkw)
        rcases hstop with hlast | hstop
        · have := hw₃.divided.le_last k (Map.mem_iff_lookup.2 ⟨info₃, hinfo₃⟩)
          omega
        · obtain ⟨hund₃, hbelow₃⟩ := hstop info₃ hinfo₃
          rw [c.witnessesDecided₃ hund hr.wellFormed (by omega) hinfo₃ hbelow₃] at hund₃
          cases hund₃
    · rw [← (hreceived hk).unique hx]
      exact hk
  · obtain ⟨h1, h2, -⟩ := hsearched x (hfrom.rest_sub.subset hx)
    exact ⟨h1, h2⟩
  · rw [hlb']
    exact hs.lowerBound r hr

end Call

end Session

end Babble

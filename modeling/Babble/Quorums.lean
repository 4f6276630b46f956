import Babble.Enlisting
import Babble.StrongSight

/-!
# Every event rests on a quorum

An event whose round is later than the first strongly sees a super-majority of the witnesses
of the round before. The code asks so only of an event that starts a round. An event that
takes over the round of a parent strongly sees what the parent sees, and what is seen once is
seen at all later times (`StaticRun.rests_on_quorum`).

A creator has one witness per round, and no round is left out : the last round is the round
of an event (`Session.topped_run`), and below it every round has a quorum of witnesses.
-/

set_option linter.unusedSectionVars false

namespace Babble

variable {C H K : Type} [DecidableEq H] [DecidableEq K] [Hex H] [Hex K]
variable {S : Scheme H K} {U : Universe S} {P : PeerSet K} {x w : H} {r : ℤ}

/-! ## Witnesses of a round -/

namespace InmemStore

variable {st : InmemStore H K}

/-- The witnesses of a round, none if the round is not known. -/
def roundWitnesses (st : InmemStore H K) (r : ℤ) : List H :=
  match st.getRound r with
  | .ok info => info.witnesses
  | .error _ => []

theorem mem_roundWitnesses : w ∈ st.roundWitnesses r ↔ st.WitnessAt r w := by
  unfold roundWitnesses getRound WitnessAt
  cases st.roundCache.lookup r <;> simp

theorem nodup_roundWitnesses (st : InmemStore H K) (r : ℤ) : (st.roundWitnesses r).Nodup := by
  unfold roundWitnesses
  split
  · exact Map.nodup_keysWith _ _
  · exact List.nodup_nil

end InmemStore

/-! ## The last round -/

/-- The last round is the round of a stored event. -/
def Hashgraph.Topped (h : Hashgraph H K) : Prop :=
  h.store.lastRound = -1 ∨
    ∃ x ∈ h.store.eventCache, h.memo.roundCache.lookup x = some h.store.lastRound

namespace Session

variable {rt : Runtime} {R : Reading H K} {ps : ℤ → PeerSet K} {A : Assignment H} {q : ℤ}
  {cb : CommitCallback C H K} {s s' : Session C H K} {i : Input H K}

theorem lastRound_init {m : ℕ} {h : Hashgraph H K}
    (hi : (Hashgraph.new (InmemStore.new m)).init P = .ok h) : h.store.lastRound = -1 := by
  obtain ⟨st, hs, rfl⟩ := Hashgraph.init_cases hi
  obtain ⟨psc, pec, roots, fc, -, rfl, -, -⟩ := InmemStore.setPeerSet_eq hs
  rfl

/-- A call leaves the last round, or moves it to the round of its event. -/
theorem Call.lastRound (hcb : Undisturbing cb) (c : Call S rt cb R ps A q s i s') :
    s'.hg.store.lastRound = s.hg.store.lastRound ∨
      s'.hg.store.lastRound = c.A'.round (i.event.hex S) := by
  have h₁ : c.h₁.store.lastRound = s.hg.store.lastRound := by
    obtain ⟨pec, hst, -⟩ := Hashgraph.setEvent_eq c.ins.setEvent
    obtain ⟨ti, sigs, he⟩ := c.result
    rw [he, hst]
  have h₄ : c.h₄.store.lastRound = c.h₂.store.lastRound := by
    obtain ⟨ec, rc, m, pr, us, he⟩ := c.consensus.eq
    rw [he]
  rw [(c.sameGraph hcb).2.2.1, h₄, ← h₁]
  rcases c.consensus.divided with ⟨-, -, ec, rc, he, -⟩ | ⟨-, r, w, t, hA, hn⟩
  · exact Or.inl (by rw [he])
  · obtain ⟨ec, rc, m, he⟩ := hn.eq
    rw [he, hA]
    rcases max_choice c.h₁.store.lastRound r with h | h
    · exact Or.inl h
    · refine Or.inr (h.trans ?_)
      simp [Assignment.set]

/-- The rounds of the events from before stay. -/
theorem Call.round_eq (c : Call S rt cb R ps A q s i s') (hx : x ∈ s.hg.store.eventCache) :
    c.A'.round x = A.round x := by
  rcases c.consensus.divided with ⟨-, hA, -⟩ | ⟨hnew, r, w, t, hA, -⟩
  · rw [hA]
  · have hne : x ≠ i.event.hex S := fun h => hnew (h ▸ hx)
    rw [hA]
    simp [Assignment.set, hne]

theorem Call.topped (hcb : Undisturbing cb) (c : Call S rt cb R ps A q s i s')
    (hw : s.hg.WellFormed S A (· ∈ s.hg.store.eventCache) q q) (h : s.hg.Topped) :
    s'.hg.Topped := by
  have hround := c.wellFormed.divided.round
  rcases c.lastRound hcb with hlast | hlast
  · rcases h with hempty | ⟨x, hx, hlook⟩
    · exact Or.inl (hlast.trans hempty)
    · have hx' : x ∈ s'.hg.store.eventCache := (c.mem_iff hcb).2 (Or.inr hx)
      refine Or.inr ⟨x, hx', ?_⟩
      rw [hround x hx', c.round_eq hx, hlast, ← hlook]
      exact (hw.divided.round x hx).symm
  · have hx' : i.event.hex S ∈ s'.hg.store.eventCache := (c.mem_iff hcb).2 (Or.inl rfl)
    exact Or.inr ⟨_, hx', by rw [hround _ hx', hlast]⟩

/-- In every run the last round is the round of some event. -/
theorem topped_run (rt : Runtime) (hcb : Undisturbing cb) (hs : Sound S q s) (h : s.hg.Topped)
    (is : List (Input H K)) : (run S rt cb s is).hg.Topped := by
  refine run_induct (P := fun _ t => t.hg.Topped) is h ?_
  intro pre i _ ih
  obtain ⟨q', hs'⟩ := hs.run rt hcb pre
  rw [feed]
  rcases hs'.feed_cases rt hcb i with ⟨err, ti, -, -, he⟩ | ⟨s', ps, A, he, hw, ⟨c⟩⟩
  · rw [he]
    exact ih
  · rw [he]
    exact c.topped hcb hw ih

end Session

namespace StaticRun

/-- What is stored stays stored. -/
theorem stored_mono (d : StaticRun C U P) {pre : List (Session.Input H K)}
    (hpre : pre <+: d.inputs) (hx : x ∈ (d.upTo hpre).session.hg.store.eventCache) :
    x ∈ d.session.hg.store.eventCache := by
  obtain ⟨e, he⟩ := signedEvents_isSome.2 hx
  exact signedEvents_isSome.1 ⟨e, Session.signedEvents_mono (Hashgraph.init_initial d.cacheSize P)
    d.rt d.static.hosting d.indexed d.noEviction hpre he⟩

/-- The witnesses of a round that an event strongly sees, as the code computes it. -/
def stronglySeen (d : StaticRun C U P) (x : H) (r : ℤ) : List H :=
  (d.session.hg.store.roundWitnesses r).filter fun w =>
    (Exec.exec (Query.stronglySee S d.session.hg.store x w P) d.session.hg.memo).1.toOption =
      some true

/-- The witnesses on record are those of the graph among the stored events. -/
theorem mem_roundWitnesses (d : StaticRun C U P) : w ∈ d.session.hg.store.roundWitnesses r ↔
    w ∈ d.session.hg.store.eventCache ∧ U.graph.round (fun _ => P.pubKeys) w = r ∧
      U.graph.Witness (fun _ => P.pubKeys) w := by
  obtain ⟨q, -, hr, -⟩ := d.settled
  rw [InmemStore.mem_roundWitnesses, hr.wellFormed.divided.witnessAt_iff]
  simp only [assignment, decide_eq_true_eq]
  rfl

theorem mem_stronglySeen (d : StaticRun C U P) (hx : x ∈ d.session.hg.store.eventCache) :
    w ∈ d.stronglySeen x r ↔ w ∈ d.session.hg.store.roundWitnesses r ∧
      U.graph.Sees (fun _ => P.pubKeys) P.pubKeys x w := by
  rw [stronglySeen, List.mem_filter]
  refine and_congr_right fun hw => ?_
  obtain ⟨b, m, he, hb⟩ := d.returns_stronglySee hx (d.mem_roundWitnesses.1 hw).1
  rw [he, ← hb]
  simp [Except.toOption]

/-- The number of witnesses that an event strongly sees is the number of their creators. -/
theorem poll_eq_length (d : StaticRun C U P) (hx : x ∈ d.session.hg.store.eventCache) :
    U.graph.poll (fun _ => P.pubKeys) r x (fun _ => True) = (d.stronglySeen x r).length := by
  obtain ⟨q, -, hr, -⟩ := d.settled
  have hclosed := hr.coordinates.windowClosed
  have hseen := fun w => d.mem_stronglySeen hx (w := w) (r := r)
  refine EventGraph.count_eq_length ((d.session.hg.store.nodup_roundWitnesses r).filter _) ?_ ?_ ?_
  · intro w hw
    obtain ⟨hwit, hsees⟩ := (hseen w).1 hw
    obtain ⟨hmem, hround, hwitness⟩ := d.mem_roundWitnesses.1 hwit
    exact ⟨hclosed.mem hmem, hwitness.1, ⟨hround, hwitness, hsees⟩, trivial⟩
  · rintro w - - ⟨⟨hround, hwitness, hsees⟩, -⟩
    have hmem := hclosed.anc hx hsees.anc trivial
    exact (hseen w).2 ⟨d.mem_roundWitnesses.2 ⟨hmem, hround, hwitness⟩, hsees⟩
  · intro w hw w' hw' hc
    obtain ⟨hmem, hround, hwitness⟩ := d.mem_roundWitnesses.1 ((hseen w).1 hw).1
    obtain ⟨hmem', hround', hwitness'⟩ := d.mem_roundWitnesses.1 ((hseen w').1 hw').1
    exact hwitness.unique (hclosed.mem hmem) (hclosed.mem hmem') hwitness' hc
      (hround.trans hround'.symm)

/-- A node computes the rounds of the graph. -/
theorem round_eq (d : StaticRun C U P) (hx : x ∈ d.session.hg.store.eventCache) :
    (Exec.exec (Query.round S d.rt d.session.hg.store x) d.session.hg.memo).1 =
      .ok (U.graph.round (fun _ => P.pubKeys) x) := by
  rw [(d.round_eq_definedRound hx).1, EventGraph.round_eq_defined]

/-- The creators of the stored events are peers. -/
theorem creator_mem (d : StaticRun C U P) (hcb : Session.Enlisting d.commitCallback)
    (hx : x ∈ d.session.hg.store.eventCache) : U.graph.creator x ∈ P.pubKeys := by
  obtain ⟨q, -, hr, -⟩ := d.settled
  have hinit := Hashgraph.init_initial (H := H) d.cacheSize P
  have hsound := Session.sound_started S d.started_start d.host
  have hen : d.session.hg.store.Enlisted :=
    Session.enlisted_run d.rt d.static.hosting.undisturbing hcb hsound
      (Session.enlisted_init hinit) d.inputs
  obtain ⟨e, he⟩ := signedEvents_isSome.2 hx
  obtain ⟨ev, hev, rfl⟩ := signedEvents_eq_some.1 he
  obtain ⟨j, Q, hQ, p, hp, hkey⟩ := hen.creator hr.stocked.listed he
  -- only the peers of `Init` are on record
  have hsets : d.session.hg.store.peerSetCache.peerSets.lookup j =
      (AList.insert 0 P ∅ : Map ℤ (PeerSet K)).lookup j := by
    obtain ⟨st, hst, hh⟩ := Hashgraph.init_cases hinit
    obtain ⟨-, hins, -⟩ := PeerSetCache.set_eq (InmemStore.peerSetCache_setPeerSet hst)
    have hstart : d.start.hg.store.peerSetCache = st.peerSetCache :=
      congrArg (fun h => h.store.peerSetCache) hh
    have hrun : d.session.hg.store.peerSetCache = d.start.hg.store.peerSetCache :=
      d.static.run d.rt hsound d.inputs
    rw [hrun, hstart, hins]
    rfl
  rw [hsets, Map.lookup_insert_ite] at hQ
  split_ifs at hQ
  · obtain rfl := Option.some.inj hQ
    rw [PeerSet.mem_pubKeys, ← (hr.coordinates.event hev).creator]
    exact ⟨p, hp, hkey⟩
  · cases hQ

/-- Every round up to the last one has a witness. -/
theorem roundWitnesses_ne_nil (d : StaticRun C U P) (hcb : Session.Enlisting d.commitCallback)
    (h0 : 0 ≤ r) (hr : r ≤ d.session.hg.store.lastRound) :
    d.session.hg.store.roundWitnesses r ≠ [] := by
  obtain ⟨q, -, hrep, -⟩ := d.settled
  have hclosed := hrep.coordinates.windowClosed
  have hstart : d.start.hg.store.lastRound = -1 :=
    Session.lastRound_init (Hashgraph.init_initial d.cacheSize P)
  have htop : d.session.hg.Topped := Session.topped_run d.rt d.static.hosting.undisturbing
    (Session.sound_started S d.started_start d.host) (Or.inl hstart) d.inputs
  rcases htop with hempty | ⟨x, hx, hlook⟩
  · omega
  · have hround : U.graph.round (fun _ => P.pubKeys) x = d.session.hg.store.lastRound :=
      Option.some.inj ((hrep.wellFormed.divided.round x hx).symm.trans hlook)
    obtain ⟨y, hxy, hy⟩ := EventGraph.exists_anc_round_eq h0 (hround ▸ hr)
    have hys := hclosed.anc hx hxy trivial
    obtain ⟨w, hyw, hw⟩ := EventGraph.exists_witness_of_round hy (d.creator_mem hcb hys)
    exact List.ne_nil_of_mem (d.mem_roundWitnesses.2 ⟨hclosed.anc hys hyw trivial, hw⟩)

/-- An event of a round after the first strongly sees a super-majority of the witnesses of
the round before, now and at all later times. A creator has one witness per round, and every
round up to the last one has a witness. -/
theorem rests_on_quorum (d : StaticRun C U P) (hcb : Session.Enlisting d.commitCallback) :
    (∀ (pre : List (Session.Input H K)) (hpre : pre <+: d.inputs),
      ∀ x ∈ (d.upTo hpre).session.hg.store.eventCache, ∀ r,
        (Exec.exec (Query.round S d.rt (d.upTo hpre).session.hg.store x)
          (d.upTo hpre).session.hg.memo).1 = .ok r →
        1 ≤ r → P.superMajority ≤ (d.stronglySeen x (r - 1)).length) ∧
    (∀ r, ∀ w ∈ d.session.hg.store.roundWitnesses r,
      ∀ w' ∈ d.session.hg.store.roundWitnesses r, ∀ e e',
        d.session.hg.store.eventCache.lookup w = some e →
        d.session.hg.store.eventCache.lookup w' = some e' → e.creator = e'.creator → w = w') ∧
    ∀ r, 0 ≤ r → r ≤ d.session.hg.store.lastRound →
      d.session.hg.store.roundWitnesses r ≠ [] := by
  obtain ⟨q, -, hrep, -⟩ := d.settled
  refine ⟨fun pre hpre x hx r hround hr => ?_, fun r w hw w' hw' e e' he he' hc => ?_,
    fun r h0 hr => d.roundWitnesses_ne_nil hcb h0 hr⟩
  · obtain rfl : U.graph.round (fun _ => P.pubKeys) x = r :=
      Except.ok.inj (((d.upTo hpre).round_eq hx).symm.trans hround)
    have hx' : x ∈ d.session.hg.store.eventCache := d.stored_mono hpre hx
    rw [← d.poll_eq_length hx', PeerSet.superMajority_eq]
    exact EventGraph.quorum_le_poll (sub_nonneg.2 hr) (sub_add_cancel _ _).le
  · obtain ⟨hmem, hround, hwitness⟩ := d.mem_roundWitnesses.1 hw
    obtain ⟨hmem', hround', hwitness'⟩ := d.mem_roundWitnesses.1 hw'
    have hdep := hrep.coordinates.event he
    have hdep' := hrep.coordinates.event he'
    exact hwitness.unique hdep.mem hdep'.mem hwitness'
      (hdep.creator.symm.trans (hc.trans hdep'.creator)) (hround.trans hround'.symm)

end StaticRun

namespace Sample

/-- The last event of eleven turns is of round 2, and rests on three witnesses of round 1. -/
theorem turns_rest_on_quorum : four.superMajority ≤ (early.stronglySeen [10] 1).length :=
  (early.rests_on_quorum Session.enlisting_dummyCommitCallback).1 _ (List.prefix_refl _) [10]
    (by decide +kernel) 2 (by decide +kernel) (by decide)

end Sample

end Babble

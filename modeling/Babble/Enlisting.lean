import Babble.Consistency
import Babble.Ledger
import Babble.Loading

/-!
# Participants are recorded peers

`SetPeerSet` makes participants of the peers that it records, and nothing else adds a
participant. So every participant is a peer of a recorded peer-set (`Enlisted`), and the
creators of stored events are such peers (`Enlisted.creator`). A host that adds participants
in no other way keeps it so in every run (`Session.enlisted_run`); the core is one
(`Core.enlisting_commitCallback`).
-/

set_option linter.unusedSectionVars false

namespace Babble

variable {C H K : Type} [DecidableEq H] [DecidableEq K] [Hex H] [Hex K]

/-- Every participant is a peer of a recorded peer-set. -/
def InmemStore.Enlisted (st : InmemStore H K) : Prop :=
  ∀ p ∈ st.participantEventsCache.participants.peers,
    ∃ r P, st.peerSetCache.peerSets.lookup r = some P ∧ p ∈ P.peers

namespace InmemStore

variable {st st' : InmemStore H K}

theorem Enlisted.setPeerSet (h : st.Enlisted) {r : ℤ} {P : PeerSet K}
    (hs : st.setPeerSet r P = .ok st') : st'.Enlisted := by
  obtain ⟨hnot, hsets, -⟩ := PeerSetCache.set_eq (peerSetCache_setPeerSet hs)
  intro p hp
  rw [hsets]
  rcases (enrolled_setPeerSet hs).origin p hp with hp | hp
  · obtain ⟨j, Q, hQ, hmem⟩ := h p hp
    have hne : j ≠ r := fun he => hnot (Map.mem_iff_lookup.2 ⟨Q, he ▸ hQ⟩)
    exact ⟨j, Q, (AList.lookup_insert_ne hne).trans hQ, hmem⟩
  · exact ⟨r, P, AList.lookup_insert _, hp⟩

theorem Enlisted.congr (h : st.Enlisted) (hpsc : st'.peerSetCache = st.peerSetCache)
    (hpart : st'.participantEventsCache.participants = st.participantEventsCache.participants) :
    st'.Enlisted := by
  unfold Enlisted
  rw [hpsc, hpart]
  exact h

/-- The creator of a stored event is a peer of a recorded peer-set. -/
theorem Enlisted.creator (h : st.Enlisted) {B : SignedEvent H K → Prop} {size n : ℕ}
    (hl : Listed B (signedEvents st.eventCache) size n st.participantEventsCache) {x : H}
    {e : SignedEvent H K} (he : signedEvents st.eventCache x = some e) :
    ∃ r P, st.peerSetCache.peerSets.lookup r = some P ∧
      ∃ p ∈ P.peers, p.pubKeyString = e.creator := by
  obtain ⟨id, -, hid, -, -⟩ := hl.stored x e he
  unfold ParticipantEventsCache.participantID at hid
  cases hp : st.participantEventsCache.participants.byPubKey.lookup (Hex.toUpper e.creator) with
  | none => simp [hp] at hid
  | some p =>
    obtain ⟨hmem, hkey⟩ := PeerSet.lookup_byPubKey hp
    obtain ⟨r, P, hP, hpP⟩ := h p hmem
    exact ⟨r, P, hP, p, hpP, hkey.trans e.toUpper_creator⟩

end InmemStore

/-! ## Runs -/

namespace Session

variable {S : Scheme H K} {rt : Runtime} {R : Reading H K} {ps : ℤ → PeerSet K}
  {A : Assignment H} {q n : ℤ} {cb : CommitCallback C H K} {s t s' : Session C H K}
  {i : Input H K}

theorem enlisted_init {m : ℕ} {P : PeerSet K} {h : Hashgraph H K}
    (hi : (Hashgraph.new (InmemStore.new m)).init P = .ok h) : h.store.Enlisted := by
  obtain ⟨st, hs, rfl⟩ := Hashgraph.init_cases hi
  have hnew : (InmemStore.new m : InmemStore H K).Enlisted :=
    fun p hp => (List.not_mem_nil hp).elim
  exact hnew.setPeerSet hs

/-- The host makes participants of the peers whom it records at most. -/
def Enlisting (cb : CommitCallback C H K) : Prop :=
  ∀ b (s : Session C H K), s.hg.store.Enlisted → (cb b s).hg.store.Enlisted

theorem enlisting_dummyCommitCallback :
    Enlisting (dummyCommitCallback : CommitCallback C H K) :=
  fun _ _ h => h

theorem Processed.enlisted (hcb : Enlisting cb) (hp : Processed S rt cb A q s n t)
    (h : s.hg.store.Enlisted) : t.hg.store.Enlisted := by
  induction hp with
  | start => exact h
  | @round n t info P fr h₁ ht hinfo hdec hP hfr ho ih =>
    have hopened : h₁.store.Enlisted := by
      obtain ⟨m, cc, tot, rfl⟩ := ho
      exact ih
    have hcommit : (commitFrame S cb fr { t with hg := h₁ }).hg.store.Enlisted := by
      rw [commitFrame_eq]
      split_ifs
      · exact hopened
      · exact hcb _ (storing _ { t with hg := h₁ }) hopened
    obtain ⟨k, first, he⟩ := Hashgraph.closeRound_eq (n + 1) fr
      (commitFrame S cb fr { t with hg := h₁ }).hg
    rw [close, he]
    exact hcommit

/-- The insertion and the passes of a call leave the participants. -/
theorem Call.participants₄ (c : Call S rt cb R ps A q s i s') :
    c.h₄.store.participantEventsCache.participants =
      s.hg.store.participantEventsCache.participants := by
  rw [c.participantEvents₄]
  obtain ⟨pec, hst, hset⟩ := Hashgraph.setEvent_eq c.ins.setEvent
  rw [hst]
  rcases hset with ⟨-, rfl⟩ | ⟨-, hset⟩
  · rfl
  · exact ParticipantEventsCache.participants_set hset

theorem Call.enlisted (hcb : Enlisting cb) (c : Call S rt cb R ps A q s i s')
    (h : s.hg.store.Enlisted) : s'.hg.store.Enlisted := by
  have h₄ : c.h₄.store.Enlisted := h.congr c.peerSetCache₄ c.participants₄
  have ht : c.t.hg.store.Enlisted := c.processed.enlisted hcb h₄
  rw [c.eq]
  exact ht

/-- In every run the participants are recorded peers. -/
theorem enlisted_run (rt : Runtime) (hund : Undisturbing cb) (hcb : Enlisting cb)
    (hs : Sound S q s) (h : s.hg.store.Enlisted) (is : List (Input H K)) :
    (run S rt cb s is).hg.store.Enlisted := by
  refine run_induct (P := fun _ t => t.hg.store.Enlisted) is h ?_
  intro pre i _ ih
  obtain ⟨q', hs'⟩ := hs.run rt hund pre
  rw [feed]
  rcases hs'.feed_cases rt hund i with ⟨err, ti, -, -, he⟩ | ⟨s', ps, A, he, -, ⟨c⟩⟩
  · rw [he]
    exact ih
  · rw [he]
    exact c.enlisted hcb ih

end Session

theorem Core.enlisting_commitCallback {S : Scheme H K} {v : Validator}
    {proxy : ProxyCommitCallback K} :
    Session.Enlisting (commitCallback S v proxy : CommitCallback (CoreState H K) H K) := by
  intro b
  have h : Across b fun s s' : Core H K => s.hg.store.Enlisted → s'.hg.store.Enlisted :=
    { refl _ := id
      trans h h' := h' ∘ h
      host _ _ _ _ := id
      block _ _ _ := id
      anchor _ _ := id
      peerSet _ _ _ hs := fun h => h.setPeerSet hs }
  exact h.commitCallback

end Babble

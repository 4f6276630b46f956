import Babble.Calls
import Babble.Chains
import Babble.Coordinates

/-!
# Runs from an initialised hashgraph

Whatever the events, and whatever the host does to peer-sets, a call whose event is
accepted by `InsertEvent` runs through (`returns_of_accepts`).

If the bodies of the events are told apart by their hashes and have the indexes that
follow (`Indexed`), then the stored events are without forks, although events that fork
may have been submitted : they are a `Universe` of their own (`universeOf`).
-/

set_option linter.unusedSectionVars false

namespace Babble

variable {C H K : Type} [DecidableEq H] [DecidableEq K] [Hex H] [Hex K]

namespace Session

variable {S : Scheme H K} {rt : Runtime} {R : Reading H K} {ps : ℤ → PeerSet K}
  {A : Assignment H} {q n : ℤ} {cb : CommitCallback C H K} {s s' : Session C H K} {i : Input H K}

/-! ## Any events -/

theorem sound_init {m : ℕ} {P : PeerSet K} {h : Hashgraph H K}
    (hi : (Hashgraph.new (InmemStore.new m)).init P = .ok h) (c : C) : Sound S (-1) ⟨c, h⟩ := by
  refine ⟨⟨⟨fun _ => 0, fun _ => false, fun _ => 0⟩, wellFormed_init hi _⟩, ?_⟩
  unfold Hashgraph.init at hi
  split at hi
  · cases hi
    rfl
  · cases hi

theorem Sound.run (rt : Runtime) (hcb : Undisturbing cb) (hs : Sound S q s)
    (is : List (Input H K)) : ∃ q', Sound S q' (run S rt cb s is) := by
  refine run_induct (P := fun _ s => ∃ q', Sound S q' s) is ⟨q, hs⟩ ?_
  rintro pre i - ⟨q', hs'⟩
  obtain ⟨q'', -, hs'', -⟩ := hs'.feed rt (J := fun _ _ => True) hcb (fun _ => id) trivial
    (fun _ _ _ _ _ _ _ _ => trivial) i
  exact ⟨q'', hs''⟩

/-- A call that returns has its event accepted. -/
theorem accepts_of_ok
    (he : (Exec.exec (insertEventAndRunConsensus S rt cb i.event i.wire i.fill) s).1 = .ok ()) :
    Hashgraph.Accepts S rt s.hg i := by
  simp only [insertEventAndRunConsensus, Exec.exec_bind, exec_onHashgraph] at he
  rw [Hashgraph.Accepts]
  cases hi : Exec.exec (Hashgraph.insertEvent S rt i.event i.wire i.fill) s.hg with
  | mk r h =>
    rw [hi] at he
    cases r with
    | error err => cases he
    | ok u => rfl

/-- A call on a sound session is rejected, or it is a `Call` for any answers that are
acceptable. -/
theorem Sound.feed_cases (rt : Runtime) (hcb : Undisturbing cb) (hs : Sound S q s)
    (i : Input H K) : (∃ err ti, ¬Hashgraph.Accepts S rt s.hg i ∧ processedIn S rt cb s i = [] ∧
        Exec.exec (insertEventAndRunConsensus S rt cb i.event i.wire i.fill) s =
          (.error err, { s with hg := { s.hg with topologicalIndex := ti } })) ∨
      ∃ s' ps A, Exec.exec (insertEventAndRunConsensus S rt cb i.event i.wire i.fill) s =
          (.ok (), s') ∧ s.hg.WellFormed S A (· ∈ s.hg.store.eventCache) q q ∧
        Nonempty (Call S rt cb anyAnswer ps A q s i s') := by
  obtain ⟨A, hw⟩ := hs.wellFormed
  choose ps hps using fun j => hw.peerSets.exists_get j
  refine (Session.feed_cases rt hcb i hw (coherent_anyAnswer S _) (fun j _ => hps j)
    (fun _ => trivial) (fun _ _ _ => holds_anyAnswer S _)).imp id ?_
  rintro ⟨s', he, hc⟩
  exact ⟨s', ps, A, he, hw, hc⟩

/-- A call on a well-formed session is rejected, or it is a `Call` for answers that are
acceptable after the insertion of an accepted event. -/
theorem accepts_cases (rt : Runtime) (hcb : Undisturbing cb)
    (hw : s.hg.WellFormed S A (· ∈ s.hg.store.eventCache) q q) (hm : s.hg.memo.Coherent S R)
    (hpeers : ∀ j, j ≤ s.hg.store.lastRound + 1 → s.hg.store.getPeerSet j = .ok (ps j))
    (hin : ∀ j, R.Peers (ps j))
    (hR : Hashgraph.Accepts S rt s.hg i → ∀ (ins : Hashgraph.Insertion S s.hg i.event)
      (h₁ : Hashgraph H K), ins.Result A.witness h₁ → R.Holds S h₁.store) :
    (∃ ti, feed S rt cb s i = { s with hg := { s.hg with topologicalIndex := ti } }) ∨
      Hashgraph.Accepts S rt s.hg i ∧ Nonempty (Call S rt cb R ps A q s i (feed S rt cb s i)) := by
  by_cases hacc : Hashgraph.Accepts S rt s.hg i
  · refine Or.inr ⟨hacc, ?_⟩
    rcases feed_cases rt hcb i hw hm hpeers hin (hR hacc) with ⟨err, ti, hrej, -⟩ | ⟨s', he, hc⟩
    · exact absurd hacc hrej
    · rw [feed, he]
      exact hc
  · left
    choose ps' hps' using fun j => hw.peerSets.exists_get j
    rcases feed_cases rt hcb i hw (coherent_anyAnswer S _) (fun j _ => hps' j) (fun _ => trivial)
      (fun _ _ _ => holds_anyAnswer S _) with ⟨err, ti, -, -, he⟩ | ⟨s', he, -⟩
    · exact ⟨ti, by rw [feed, he]⟩
    · exact absurd (accepts_of_ok (by rw [he])) hacc

end Session

/-! ## Honest indexes -/

theorem Universe.depicts {S : Scheme H K} {U : Universe S} {event : SignedEvent H K}
    (hb : event.body ∈ U.bodies)
    (hsp : ∀ p, event.body.selfParent = some p →
      U.Grounded p ∧ (U.body p).creator = event.body.creator)
    (hop : ∀ p, event.body.otherParent = some p → U.Grounded p) :
    Depicts U.graph (event.hex S) event := by
  have hg : U.Grounded (event.hex S) := by
    refine .intro hb (fun p hp => (hsp p hp).1) (fun p hp hps => ?_) hop
    rw [← (hsp _ hps).2, Universe.body_hex hp]
  have hbody : U.body (event.hex S) = event.body := Universe.body_hex hb
  refine ⟨hg, ?_, ?_, ?_, ?_⟩
  · exact congrArg (fun b : EventBody H K => (Hex.encodeToString b.creator : K)) hbody.symm
  · exact congrArg EventBody.index hbody.symm
  · rw [Universe.graph_selfParent hg, hbody]
  · rw [Universe.graph_otherParent hg, hbody]

namespace Hashgraph

variable {S : Scheme H K} {bodies : Set (EventBody H K)} {B : SignedEvent H K → Prop} {size n : ℕ}
  {h : Hashgraph H K}

/-- The stored events have bodies from a set and are listed under their indexes. -/
structure Stocked (S : Scheme H K) (bodies : Set (EventBody H K)) (B : SignedEvent H K → Prop)
    (size n : ℕ) (h : Hashgraph H K) : Prop where
  body : ∀ {x e}, signedEvents h.store.eventCache x = some e → e.body ∈ bodies
  listed : Listed B (signedEvents h.store.eventCache) size n h.store.participantEventsCache

section Insertion

variable {event : SignedEvent H K} (hst : h.Stocked S bodies B size n) (hk : h.Addressed S)
  (ins : Insertion S h event) (hidx : Indexed S bodies) (hb : event.body ∈ bodies)

include hst hk ins hidx hb

/-- In an indexed set of bodies, the index of an accepted event follows. -/
theorem Stocked.indexFollows : IndexFollows h.store event := by
  rw [IndexFollows]
  cases hsp : event.body.selfParent with
  | none => rw [selfParentIndex_of_none hsp, hidx.index_first _ hb hsp, neg_add_cancel]
  | some p =>
    obtain ⟨e, he⟩ := Map.mem_iff_lookup.1 ((ins.parents_mem hk.items).1 p hsp)
    have hse : signedEvents h.store.eventCache p = some e.toSignedEvent :=
      signedEvents_eq_some.2 ⟨e, he, rfl⟩
    rw [selfParentIndex_of_some hsp hse]
    refine hidx.index_next _ hb _ (hst.body hse) ?_
    rw [hsp, ← hk.keys p e he]
    rfl

/-- An accepted event is new and takes its place in the rolling index. -/
theorem Stocked.insertion (hn : n < size)
    (hB : ∀ e : SignedEvent H K, e.body.selfParent = none → e.body.index = 0 → B e) :
    event.hex S ∉ h.store.eventCache ∧
      signedEvents ins.store.eventCache =
        Function.update (signedEvents h.store.eventCache) (event.hex S) (some event) ∧
      Listed B (signedEvents ins.store.eventCache) size (n + 1) ins.store.participantEventsCache := by
  refine ins.listed hst.listed hn hB (fun e he => ?_) (hst.indexFollows hk ins hidx hb)
    (EventsMarked.refl _)
  obtain ⟨ev, hev, rfl⟩ := signedEvents_eq_some.1 he
  exact hidx.collisionFree _ (hst.body he) _ hb (hk.keys _ _ hev)

/-- The self-parent of an accepted event is an event of the same creator. -/
theorem Stocked.creator_selfParent {p : H} (hsp : event.body.selfParent = some p) :
    ∃ e, signedEvents h.store.eventCache p = some e ∧ e.creator = event.creator := by
  rcases checkSelfParent_cases (checkSelfParent_of_checkEvent ins.check) with
    ⟨p', hlast, hsp'⟩ | ⟨-, hnone⟩
  · obtain rfl := Option.some.inj (hsp.symm.trans hsp')
    obtain ⟨e, he, hc⟩ := hst.listed.creator_of_getLast hlast
    exact ⟨e, he, hc.trans event.toUpper_creator⟩
  · rw [hnone] at hsp
    cases hsp

end Insertion

/-! ## Last ancestors -/

section Lineage

variable {U : Universe S} {T : H → Prop} {event : SignedEvent H K}

/-- The stored events have the bodies of the universe. -/
theorem Stocked.body_eq (hst : h.Stocked S U.bodies B size n)
    (hkeys : ∀ x e, h.store.eventCache.lookup x = some e → e.hex S = x) {x : H} {e : Event H K}
    (he : h.store.eventCache.lookup x = some e) : e.body = U.body x := by
  rw [← hkeys x e he]
  exact (Universe.body_hex (hst.body (signedEvents_eq_some.2 ⟨e, he, rfl⟩))).symm

variable (hst : h.Stocked S U.bodies B size n) (hk : h.Addressed S)
  (hl : Lineage U.graph T h.store.eventCache) (ins : Insertion S h event)
  (hb : event.body ∈ U.bodies)

include hst hk hl ins hb

/-- An accepted event is an event of the graph. -/
theorem Stocked.depicts : Depicts U.graph (event.hex S) event := by
  obtain ⟨hsp, hop⟩ := ins.parents_mem hk.items
  have hground : ∀ {p}, p ∈ h.store.eventCache → U.Grounded p := by
    intro p hp
    obtain ⟨e, he⟩ := Map.mem_iff_lookup.1 hp
    exact (hl.event he).mem
  refine Universe.depicts hb (fun p hp => ⟨hground (hsp p hp), ?_⟩) fun p hp => hground (hop p hp)
  obtain ⟨e, he, hc⟩ := hst.creator_selfParent hk ins U.indexed hb hp
  obtain ⟨ev, hev, rfl⟩ := signedEvents_eq_some.1 he
  rw [← hst.body_eq hk.keys hev]
  exact Hex.encode_injective hc

theorem Stocked.arrives (hT : UpClosed U.graph T) (hnew : event.hex S ∉ h.store.eventCache) :
    Lineage.Arrives U.graph T h.store.eventCache (event.hex S) ins.ev := by
  have hdep := hst.depicts hk hl ins hb
  obtain ⟨hsp, hop⟩ := ins.parents_mem hk.items
  have hpar : ∀ p, U.graph.Parent p (event.hex S) → T p → p ∈ h.store.eventCache := by
    rintro p (hp | hp) -
    · exact hsp p (hdep.selfParent.trans hp)
    · exact hop p (hdep.otherParent.trans hp)
  obtain ⟨hsound, hcomplete⟩ := hl.lastAncestors hT rfl hdep hpar ins.lastAncestors
  exact ⟨hnew, ins.signed.symm ▸ hdep, hpar, hsound, hcomplete⟩

/-- The first descendant of a new event is the event itself. -/
theorem Stocked.lookup_firstDescendants (k : K) (d : EventCoordinates H) :
    ins.ev.firstDescendants.lookup k = some d ↔
      k = U.graph.creator (event.hex S) ∧ d = ⟨event.hex S, U.graph.index (event.hex S)⟩ := by
  have hdep := hst.depicts hk hl ins hb
  rw [ins.firstDescendants, Map.lookup_insert_ite, hdep.creator]
  split_ifs with hkey
  · rw [Option.some.injEq, eq_comm, ownCoordinates, hdep.index]
    exact ⟨fun h => ⟨hkey, h⟩, fun h => h.2⟩
  · rw [show (∅ : CoordinatesMap H K).lookup k = none from rfl]
    exact ⟨fun h => (by cases h), fun h => absurd h.1 hkey⟩

/-- The last ancestors after an insertion. -/
theorem Stocked.lineage (hT : UpClosed U.graph T) (hnew : event.hex S ∉ h.store.eventCache)
    {wit : H → Bool} {h₁ : Hashgraph H K} (hres : ins.Result wit h₁) :
    Lineage U.graph T h₁.store.eventCache :=
  hl.mark (hst.arrives hk hl ins hb hT hnew) hres.events_marked

end Lineage

end Hashgraph

namespace Session

variable {S : Scheme H K} {rt : Runtime} {R : Reading H K} {ps : ℤ → PeerSet K}
  {A : Assignment H} {q r : ℤ} {cb : CommitCallback C H K} {s t s' : Session C H K}
  {i : Input H K} {bodies : Set (EventBody H K)} {B : SignedEvent H K → Prop} {size n : ℕ}

theorem listed_close (hcb : Hosting cb) {fr : Frame H K} {h₁ : Hashgraph H K}
    {f : H → Option (SignedEvent H K)} (ho : Hashgraph.Opened S fr t.hg h₁)
    (hl : Listed B f size n t.hg.store.participantEventsCache) :
    Listed B f size n
      (close S cb r fr { t with hg := h₁ }).hg.store.participantEventsCache := by
  have h₁l : Listed B f size n h₁.store.participantEventsCache := by
    obtain ⟨n, cc, tot, rfl⟩ := ho
    exact hl
  obtain ⟨n, first, he⟩ := Hashgraph.closeRound_eq r fr (commitFrame S cb fr { t with hg := h₁ }).hg
  rw [close, he]
  change Listed B f size _ (commitFrame S cb fr { t with hg := h₁ }).hg.store.participantEventsCache
  unfold commitFrame
  extract_lets block
  split_ifs
  · exact h₁l
  · exact h₁l
  · exact (hcb block _).listed h₁l

theorem Processed.listed (hcb : Hosting cb) {f : H → Option (SignedEvent H K)} {m : ℤ}
    (hp : Processed S rt cb A q s m t)
    (hl : Listed B f size n s.hg.store.participantEventsCache) :
    Listed B f size n t.hg.store.participantEventsCache := by
  induction hp with
  | start => exact hl
  | round ht hinfo hdec hP hfr ho ih => exact listed_close hcb ho ih

/-- While the rounds of a call are processed, its event is listed. -/
theorem Call.stocked_processed (hcb : Hosting cb) (c : Call S rt cb R ps A q s i s')
    (hw : s.hg.WellFormed S A (· ∈ s.hg.store.eventCache) q q)
    (hs : s.hg.Stocked S bodies B size n) (hidx : Indexed S bodies)
    (hb : i.event.body ∈ bodies) (hn : n < size)
    (hB : ∀ e : SignedEvent H K, e.body.selfParent = none → e.body.index = 0 → B e) {m : ℤ}
    (hp : Processed S rt cb c.A' q { s with hg := c.h₄ } m t) :
    t.hg.Stocked S bodies B size (n + 1) := by
  obtain ⟨hnew, hsig, hlisted⟩ := hs.insertion hw.addressed c.ins hidx hb hn hB
  have hec : signedEvents t.hg.store.eventCache =
      Function.update (signedEvents s.hg.store.eventCache) (i.event.hex S) (some i.event) := by
    rw [(hp.sameGraph hcb.undisturbing).eventCache]
    change signedEvents c.h₄.store.eventCache = _
    rw [← (c.sameGraph hcb.undisturbing).1, c.signedEvents_eq hcb.undisturbing]
  refine ⟨fun {x e} he => ?_, ?_⟩
  · rw [hec, Function.update_apply] at he
    split_ifs at he with hx
    · exact Option.some.inj he ▸ hb
    · exact hs.body he
  · rw [← c.participantEvents₄] at hlisted
    rw [hec, ← hsig]
    exact hp.listed hcb hlisted

/-- A call whose event is from the set brings a new event, which is listed. -/
theorem Call.stocked (hcb : Hosting cb) (c : Call S rt cb R ps A q s i s')
    (hw : s.hg.WellFormed S A (· ∈ s.hg.store.eventCache) q q)
    (hs : s.hg.Stocked S bodies B size n) (hidx : Indexed S bodies)
    (hb : i.event.body ∈ bodies) (hn : n < size)
    (hB : ∀ e : SignedEvent H K, e.body.selfParent = none → e.body.index = 0 → B e) :
    i.event.hex S ∉ s.hg.store.eventCache ∧ s'.hg.Stocked S bodies B size (n + 1) := by
  refine ⟨(hs.insertion hw.addressed c.ins hidx hb hn hB).1, ?_⟩
  have ht := c.stocked_processed hcb hw hs hidx hb hn hB c.processed
  have hec : s'.hg.store.eventCache = c.t.hg.store.eventCache :=
    congrArg (fun s => s.hg.store.eventCache) c.eq
  have hpec : s'.hg.store.participantEventsCache = c.t.hg.store.participantEventsCache :=
    congrArg (fun s => s.hg.store.participantEventsCache) c.eq
  exact ⟨fun he => ht.body (hec ▸ he), hec ▸ hpec ▸ ht.listed⟩

theorem stocked_init {m : ℕ} {P : PeerSet K} {h : Hashgraph H K}
    (hi : (Hashgraph.new (InmemStore.new m)).init P = .ok h) (bodies : Set (EventBody H K))
    (B : SignedEvent H K → Prop) : h.Stocked S bodies B m 0 where
  body he := by
    rw [Listed.signedEvents_init hi] at he
    cases he
  listed := Listed.init B hi

/-- The bodies of the events in a list of calls. -/
def bodiesOf (is : List (Input H K)) : Set (EventBody H K) :=
  { b | ∃ i ∈ is, i.event.body = b }

theorem bodiesOf_mono {pre is : List (Input H K)} (h : pre <+: is) : bodiesOf pre ⊆ bodiesOf is := by
  rintro _ ⟨i, hi, rfl⟩
  exact ⟨i, h.subset hi, rfl⟩

/-- A call with an event from the set, accepted or not. -/
theorem stocked_feed (rt : Runtime) (hcb : Hosting cb) (hs : Sound S q s)
    (hst : s.hg.Stocked S bodies SignedEvent.IsFirst size n) (hidx : Indexed S bodies)
    (hb : i.event.body ∈ bodies) (hn : n < size) :
    (feed S rt cb s i).hg.Stocked S bodies SignedEvent.IsFirst size (n + 1) ∧
      (∀ x e, signedEvents s.hg.store.eventCache x = some e →
        signedEvents (feed S rt cb s i).hg.store.eventCache x = some e) ∧
      (Hashgraph.Accepts S rt s.hg i →
        signedEvents (feed S rt cb s i).hg.store.eventCache (i.event.hex S) = some i.event) := by
  rw [feed]
  rcases hs.feed_cases rt hcb.undisturbing i with ⟨err, ti, hrej, -, he⟩ | ⟨s', ps, A, he, hw, ⟨c⟩⟩
  · rw [he]
    exact ⟨⟨hst.body, hst.listed.mono (by omega)⟩, fun _ _ => id, fun hacc => absurd hacc hrej⟩
  · obtain ⟨hnew, hst'⟩ := c.stocked hcb hw hst hidx hb hn fun e h1 h2 => ⟨h1, h2⟩
    rw [he]
    refine ⟨hst', fun x e hx => ?_, fun _ => ?_⟩
    · rw [c.signedEvents_eq hcb.undisturbing, Function.update_of_ne, hx]
      rintro rfl
      obtain ⟨ev, hev, -⟩ := signedEvents_eq_some.1 hx
      exact hnew (Map.mem_iff_lookup.2 ⟨ev, hev⟩)
    · rw [c.signedEvents_eq hcb.undisturbing, Function.update_self]

section Init

variable {m : ℕ} {P : PeerSet K} {h : Hashgraph H K} {c : C} {is : List (Input H K)}
  (hinit : (Hashgraph.new (InmemStore.new m)).init P = .ok h)

include hinit

/-- Runs with honest indexes, accepted or not, that fit in the rolling indexes. -/
theorem stocked_run (rt : Runtime) (hcb : Hosting cb) (hidx : Indexed S (bodiesOf is))
    (hlen : is.length ≤ m) :
    (run S rt cb ⟨c, h⟩ is).hg.Stocked S (bodiesOf is) SignedEvent.IsFirst m is.length := by
  refine run_induct (P := fun pre s => s.hg.Stocked S (bodiesOf is) SignedEvent.IsFirst m pre.length)
    is (stocked_init hinit _ _) fun pre i hpre hst => ?_
  have hlt := hpre.length_le
  rw [List.length_append, List.length_singleton] at hlt ⊢
  obtain ⟨q, hs⟩ := (sound_init (S := S) hinit c).run rt hcb.undisturbing pre
  exact (stocked_feed rt hcb hs hst hidx ⟨i, hpre.subset (by simp), rfl⟩ (by omega)).1

/-- The stored events stay, and a call adds its event if it is accepted. -/
theorem signedEvents_feed (rt : Runtime) (hcb : Hosting cb) (hidx : Indexed S (bodiesOf is))
    (hlen : is.length ≤ m) {pre : List (Input H K)} {i : Input H K} (hpre : pre ++ [i] <+: is) :
    (∀ x e, signedEvents (run S rt cb ⟨c, h⟩ pre).hg.store.eventCache x = some e →
        signedEvents (run S rt cb ⟨c, h⟩ (pre ++ [i])).hg.store.eventCache x = some e) ∧
      (Hashgraph.Accepts S rt (run S rt cb ⟨c, h⟩ pre).hg i →
        signedEvents (run S rt cb ⟨c, h⟩ (pre ++ [i])).hg.store.eventCache (i.event.hex S) =
          some i.event) := by
  have hpi : pre <+: is := (List.prefix_append pre [i]).trans hpre
  have hlt := hpre.length_le
  rw [List.length_append, List.length_singleton] at hlt
  obtain ⟨q, hs⟩ := (sound_init (S := S) hinit c).run rt hcb.undisturbing pre
  have hst := stocked_run (c := c) hinit rt hcb (hidx.mono (bodiesOf_mono hpi)) (by omega)
  have hst' : (run S rt cb ⟨c, h⟩ pre).hg.Stocked S (bodiesOf is) SignedEvent.IsFirst m
      pre.length := ⟨fun he => bodiesOf_mono hpi (hst.body he), hst.listed⟩
  rw [run_append_singleton]
  exact (stocked_feed rt hcb hs hst' hidx ⟨i, hpre.subset (by simp), rfl⟩ (by omega)).2

/-- What is stored stays stored. -/
theorem signedEvents_mono (rt : Runtime) (hcb : Hosting cb) (hidx : Indexed S (bodiesOf is))
    (hlen : is.length ≤ m) {pre : List (Input H K)} (hpre : pre <+: is) {x : H}
    {e : SignedEvent H K}
    (hx : signedEvents (run S rt cb ⟨c, h⟩ pre).hg.store.eventCache x = some e) :
    signedEvents (run S rt cb ⟨c, h⟩ is).hg.store.eventCache x = some e := by
  obtain ⟨l, rfl⟩ := hpre
  -- by induction on the calls that come after
  induction l using List.reverseRecOn with
  | nil => rwa [List.append_nil]
  | append_singleton l i ih =>
    rw [← List.append_assoc] at hidx hlen ⊢
    have hpi := List.prefix_append (pre ++ l) [i]
    exact (signedEvents_feed hinit rt hcb hidx hlen List.prefix_rfl).1 x e
      (ih (hidx.mono (bodiesOf_mono hpi)) (hpi.length_le.trans hlen))

omit hinit in
/-- The stored events are from the calls. -/
theorem exists_input_of_stored (rt : Runtime) (hcb : Undisturbing cb)
    (hinit : (Hashgraph.new (InmemStore.new m)).init P = .ok h) {x : H} {e : SignedEvent H K}
    (hx : signedEvents (run S rt cb ⟨c, h⟩ is).hg.store.eventCache x = some e) :
    ∃ i ∈ is, i.event = e := by
  revert x e
  refine run_induct (P := fun pre s => ∀ {x e}, signedEvents s.hg.store.eventCache x = some e →
    ∃ i ∈ pre, i.event = e) is (fun he => ?_) fun pre i _ ih x e hx => ?_
  · obtain ⟨_, hmem, -⟩ := (stocked_init (S := S) hinit (bodiesOf []) SignedEvent.IsFirst).body he
    cases hmem
  obtain ⟨q, hs⟩ := (sound_init (S := S) hinit c).run rt hcb pre
  rw [feed] at hx
  rcases hs.feed_cases rt hcb i with ⟨err, ti, -, -, he⟩ | ⟨s', ps, A, he, -, ⟨c⟩⟩
  · rw [he] at hx
    obtain ⟨j, hj, hje⟩ := ih hx
    exact ⟨j, List.mem_append_left _ hj, hje⟩
  · rw [he, c.signedEvents_eq hcb, Function.update_apply] at hx
    split_ifs at hx
    · exact ⟨i, by simp, Option.some.inj hx⟩
    · obtain ⟨j, hj, hje⟩ := ih hx
      exact ⟨j, List.mem_append_left _ hj, hje⟩

/-- Accepted events are stored. -/
theorem signedEvents_run (rt : Runtime) (hcb : Hosting cb) (hidx : Indexed S (bodiesOf is))
    (hlen : is.length ≤ m) {pre : List (Input H K)} {i : Input H K} (hpre : pre ++ [i] <+: is)
    (hacc : Hashgraph.Accepts S rt (run S rt cb ⟨c, h⟩ pre).hg i) :
    signedEvents (run S rt cb ⟨c, h⟩ is).hg.store.eventCache (i.event.hex S) = some i.event :=
  signedEvents_mono hinit rt hcb hidx hlen hpre
    ((signedEvents_feed hinit rt hcb hidx hlen hpre).2 hacc)

end Init

end Session

/-- The stored events of a run with honest indexes. -/
def universeOf {S : Scheme H K} {bodies : Set (EventBody H K)} {size n : ℕ} {h : Hashgraph H K}
    (hidx : Indexed S bodies) (hst : h.Stocked S bodies SignedEvent.IsFirst size n) : Universe S where
  bodies := { b | ∃ x e, signedEvents h.store.eventCache x = some e ∧ e.body = b }
  indexed := hidx.mono fun _ ⟨_, _, he, hb⟩ => hb ▸ hst.body he
  noFork := by
    rintro _ ⟨x, e, he, rfl⟩ _ ⟨x', e', he', rfl⟩ hc hsp
    obtain ⟨ev, hev, rfl⟩ := signedEvents_eq_some.1 he
    obtain ⟨ev', hev', rfl⟩ := signedEvents_eq_some.1 he'
    have hcr : ev'.creator = ev.creator := congrArg Hex.encodeToString hc.symm
    obtain ⟨hff, -⟩ := hst.listed.chains ev.creator ev.toSignedEvent.toUpper_creator
    obtain rfl := hff x x' ev ev' (InmemStore.getEvent_eq_ok.2 hev) (InmemStore.getEvent_eq_ok.2 hev')
      rfl hcr hsp
    rw [Option.some.inj (hev.symm.trans hev')]

namespace Sample

/-- A host that records a peer-set of two for the round after that of each block. -/
def changing : CommitCallback Unit Bytes Bytes := fun b s =>
  match s.hg.store.setPeerSet (b.body.roundReceived + 1) ⟨[peer 1, peer 2]⟩ with
  | .ok st => { s with hg := { s.hg with store := st } }
  | .error _ => s

theorem undisturbing_changing : Session.Undisturbing changing := by
  intro b s
  unfold changing
  split
  · next st hs => exact Hashgraph.undisturbed_setPeerSet hs
  · exact .refl _

/-- The events of a validator that goes on alone. -/
def lone (n : ℕ) : List (Session.Input Bytes Bytes) :=
  (List.range n).map fun k => ⟨event k 1 k (if k = 0 then none else some (k - 1)) none [], {}, true⟩

end Sample

end Babble

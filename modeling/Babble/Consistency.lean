import Babble.Agreement
import Babble.RoundDefinition
import Babble.Sample

/-!
# Runs of nodes over one universe

Every node that starts from `init` and is fed with events of one universe stays a replica,
and a settled one where decisions bind (`replica_run`). With a fixed set of peers that is
always so (`StaticRun.settled`).

So the nodes compute the same rounds, which are the rounds of the event graph and have a
definition that does not mention coordinates (`StaticRun.round_eq_definedRound`), and they
agree on fame (`StaticRun.fame_eq`) and on the famous witnesses of decided rounds
(`StaticRun.famousWitnesses_eq`). Where the peers change, they agree on fame if the changes
are slow enough (`Session.fame_eq_of_fair`).
-/

set_option linter.unusedSectionVars false

namespace Babble

variable {C H K : Type} [DecidableEq H] [DecidableEq K] [Hex H] [Hex K]

variable {S : Scheme H K} {U : Universe S} {ps : ℤ → PeerSet K}

open Hashgraph

/-! ## What a host does not change -/

section Hosted

variable {T : Window U.graph (keysAt ps)} {B : SignedEvent H K → Prop} {size n n' : ℕ} {q : ℤ}
  {h h' : Hashgraph H K} {b : Block K}

theorem Hashgraph.Replica.mono (hr : h.Replica T B size n q) (hn : n ≤ n') :
    h.Replica T B size n' q :=
  { hr with stocked := ⟨hr.stocked.body, hr.stocked.listed.mono hn⟩ }

theorem Hashgraph.Replica.of_hosted (hr : h.Replica T B size n q) (hh : Hosted b h h') :
    h'.Replica T B size n q := by
  obtain ⟨h1, ⟨h2, h3⟩, h4, h5, h6, h7⟩ := hr
  have hec := hh.eventCache
  refine ⟨hec ▸ h1.of_sameQueues hh.toSameQueues, ⟨?_, ?_⟩, hec ▸ h4, hh.memo ▸ h5, ?_, h7⟩
  · rw [hec]
    exact h2
  · rw [hec]
    exact hh.listed h3
  · rw [hec, hh.roundCache]
    exact h6

theorem InmemStore.receivedIn_congr {st st' : InmemStore H K} (h : st'.roundCache = st.roundCache)
    (r : ℤ) : st'.receivedIn r = st.receivedIn r := by
  rw [receivedIn, receivedIn, h]

theorem Hashgraph.Accounted.of_sameQueues {I : H → Prop} (ha : h.Accounted I)
    (hu : SameQueues h h') : h'.Accounted I := by
  have hrecv := InmemStore.receivedIn_congr hu.roundCache
  refine ⟨?_, fun r => ?_, fun r x => ?_, fun r r' x => ?_, fun x => ?_⟩
  · rw [hu.undeterminedEvents]
    exact ha.undetermined
  · rw [hrecv]
    exact ha.received r
  · rw [hrecv, hu.undeterminedEvents]
    exact ha.waiting r x
  · rw [hrecv, hrecv]
    exact ha.once r r' x
  · simp only [hrecv, hu.undeterminedEvents, hu.eventCache]
    exact ha.all x

theorem Hashgraph.Settled.of_sameQueues (hs : h.Settled T q) (hu : SameQueues h h') :
    h'.Settled T q := by
  have hrecv := InmemStore.receivedIn_congr hu.roundCache
  refine ⟨hu.roundCache ▸ hs.famous, fun {r x} hx => ?_, fun {r x} h1 h2 h3 => ?_,
    hs.accounted.of_sameQueues hu, ?_, ?_⟩
  · rw [hrecv] at hx
    exact hs.received hx
  · rw [hrecv]
    exact hs.complete h1 h2 h3
  · rw [hu.undeterminedEvents]
    exact hs.undetermined
  · rw [hu.belowLowerBound]
    exact hs.lowerBound

theorem hosted_topologicalIndex (b : Block K) (h : Hashgraph H K) (ti : ℤ) :
    Hosted b h { h with topologicalIndex := ti } :=
  ⟨⟨⟨rfl, rfl, rfl, rfl, fun _ => id, fun _ => id, id, rfl, rfl, rfl, rfl⟩, rfl⟩, id, fun _ => id,
    fun _ _ _ _ => rfl, fun _ => rfl, rfl, fun _ => rfl, rfl⟩

end Hosted

/-! ## The start -/

/-- A hashgraph after `init`, with any number of further peer-sets recorded. -/
inductive Hashgraph.Started (m : ℕ) (P : PeerSet K) : Hashgraph H K → Prop
  | init {h : Hashgraph H K} (hi : (Hashgraph.new (InmemStore.new m)).init P = .ok h) :
      Started m P h
  | setPeerSet {h : Hashgraph H K} {r : ℤ} {Q : PeerSet K} {st : InmemStore H K}
      (hs : Started m P h) (hset : h.store.setPeerSet r Q = .ok st) :
      Started m P { h with store := st }

/-- A block of the round before `r`. -/
def blockBefore (r : ℤ) : Block K :=
  ⟨⟨0, r - 1, 0, [], [], [], [], [], []⟩, ∅⟩

theorem hosted_setPeerSet_blockBefore {h : Hashgraph H K} {r : ℤ} {Q : PeerSet K}
    {st : InmemStore H K} (hset : h.store.setPeerSet r Q = .ok st) :
    Hosted (blockBefore r) h { h with store := st } :=
  hosted_setPeerSet hset (sub_one_lt r)

namespace Session

variable {rt : Runtime} {cb : CommitCallback C H K} {m : ℕ} {P : PeerSet K} {h : Hashgraph H K}
  {c : C} {is : List (Input H K)}

/-- A hashgraph after `init`, where nothing is stored. -/
theorem init_eq (hi : (Hashgraph.new (InmemStore.new m)).init P = .ok h) :
    h.store.eventCache = ∅ ∧ h.store.roundCache = ∅ ∧ h.memo = {} ∧ h.roundLowerBound = none ∧
      h.undeterminedEvents = [] ∧ h.lastConsensusRound = none ∧
      ∀ j, h.store.getPeerSet j = .ok P := by
  obtain ⟨st, hs, rfl⟩ := Hashgraph.init_cases hi
  obtain ⟨psc, pec, roots, fc, hset, rfl, -, -⟩ := InmemStore.setPeerSet_eq hs
  refine ⟨rfl, rfl, rfl, rfl, rfl, rfl, fun j => ?_⟩
  obtain ⟨-, hsets, hrounds⟩ := PeerSetCache.set_eq hset
  have hrounds : psc.rounds = [0] := hrounds
  change psc.get j = .ok P
  have hlook : psc.peerSets.lookup (if j < 0 then 0 else PeerSetCache.situate j 0 []) = some P := by
    rw [show (if j < 0 then 0 else PeerSetCache.situate j 0 []) = 0 from ite_self 0, hsets]
    exact AList.lookup_insert _
  unfold PeerSetCache.get
  simp only [hrounds, hlook]
  rw [hsets, Map.lookup_insert_ite]
  split_ifs with hj
  · rfl
  · rfl

theorem lastConsensusRound_started (hs : h.Started m P) : h.lastConsensusRound = none := by
  induction hs with
  | init hi => exact (init_eq hi).2.2.2.2.2.1
  | setPeerSet hs hset ih => exact (hosted_setPeerSet_blockBefore hset).lastConsensusRound.trans ih

theorem sound_started (S : Scheme H K) (hs : h.Started m P) (c : C) : Sound S (-1) ⟨c, h⟩ := by
  refine ⟨?_, by rw [lastConsensusRound_started hs]; rfl⟩
  induction hs with
  | init hi => exact (sound_init hi c).wellFormed
  | setPeerSet hs hset ih =>
    obtain ⟨A, hw⟩ := ih
    have hh := hosted_setPeerSet_blockBefore hset
    exact ⟨A, hh.eventCache ▸ hw.of_sameQueues hh.toSameQueues⟩

theorem replica_started (hs : h.Started m P) :
    h.Replica (Window.whole U.graph (keysAt ps)) SignedEvent.IsFirst m 0 (-1) := by
  induction hs with
  | init hi =>
    obtain ⟨hec, hrc, hm, -⟩ := init_eq hi
    refine ⟨wellFormed_init hi _, stocked_init hi _ _, ?_, ?_, ?_, le_rfl⟩
    · rw [hec]
      exact ⟨⟨fun he => (by cases he), fun hx => absurd hx (AList.notMem_empty _),
        fun he => (by cases he), fun he => (by cases he)⟩, fun he => (by cases he)⟩
    · rw [hm]
      exact ⟨fun x y b hb => (by cases hb), fun x y P b _ hb => (by cases hb)⟩
    · rw [hrc]
      intro r info x e v hinfo
      cases hinfo
  | setPeerSet hs hset ih => exact ih.of_hosted (hosted_setPeerSet_blockBefore hset)

theorem settled_started (hs : h.Started m P) :
    h.Settled (Window.whole U.graph (keysAt ps)) (-1) := by
  induction hs with
  | init hi =>
    obtain ⟨-, hrc, -, hlb, hu, -⟩ := init_eq hi
    have hrecv : ∀ r, InmemStore.receivedIn _ r = [] := fun r => by
      rw [InmemStore.receivedIn, hrc]
      rfl
    refine ⟨fun r info hinfo => ?_, fun {r x} hx => ?_, fun {r x} h1 h2 => ?_,
      accounted_init hi _, fun x hx => ?_, fun r hr => ?_⟩
    · rw [hrc] at hinfo
      cases hinfo
    · rw [hrecv] at hx
      cases hx
    · exact absurd (lt_of_lt_of_le h1 h2) (lt_irrefl _)
    · rw [hu] at hx
      cases hx
    · have hr : 0 ≤ r := hr
      rw [belowLowerBound, hlb]
      change false = true ↔ r ≤ -1
      simp only [Bool.false_eq_true, false_iff]
      omega
  | setPeerSet hs hset ih =>
    exact ih.of_sameQueues (hosted_setPeerSet_blockBefore hset).toSameQueues

/-! ## Whole runs -/

/-- A run from a replica, with events of the universe that the window admits, where the
peer-sets are known before the rounds that they govern. -/
theorem replica_run {T : Window U.graph (keysAt ps)} {B : SignedEvent H K → Prop} {size n : ℕ}
    {q : ℤ} {s : Session C H K} (rt : Runtime) (hcb : Hosting cb) (hps : HashesKeys S ps)
    (hB : ∀ e : SignedEvent H K, e.body.selfParent = none → e.body.index = 0 → B e)
    (hr : s.hg.Replica T B size n q) (hlcr : s.hg.lastConsensusRound.getD (-1) = q)
    (hs : T.Receptive → s.hg.Settled T q) (hlen : n + is.length ≤ size)
    (hU : ∀ pre i, pre ++ [i] <+: is → Accepts S rt (run S rt cb s pre).hg i →
      i.event.body ∈ U.bodies ∧ T.Admits (i.event.hex S))
    (hpeers : ∀ pre, pre <+: is → ∀ j ≤ (run S rt cb s pre).hg.store.lastRound + 1,
      (run S rt cb s pre).hg.store.getPeerSet j = .ok (ps j)) :
    ∃ q', (run S rt cb s is).hg.lastConsensusRound.getD (-1) = q' ∧
      (run S rt cb s is).hg.Replica T B size (n + is.length) q' ∧
      (T.Receptive → (run S rt cb s is).hg.Settled T q') := by
  refine run_induct (P := fun pre s => ∃ q, s.hg.lastConsensusRound.getD (-1) = q ∧
    s.hg.Replica T B size (n + pre.length) q ∧ (T.Receptive → s.hg.Settled T q))
    is ⟨q, hlcr, hr, hs⟩ ?_
  rintro pre i hpre ⟨q, hlcr, hr, hs⟩
  have hlt := hpre.length_le
  rw [List.length_append, List.length_singleton] at hlt ⊢
  have hpre' : pre <+: is := (List.prefix_append pre [i]).trans hpre
  rcases replica_cases rt hcb hps hr (hpeers pre hpre') (fun h => (hU pre i hpre h).1) (by omega)
    hB with ⟨ti, he⟩ | ⟨hacc, ⟨cl⟩⟩
  · have hh := hosted_topologicalIndex (blockBefore 0) (run S rt cb s pre).hg ti
    rw [he]
    exact ⟨q, hlcr, (hr.of_hosted hh).mono (Nat.le_succ _),
      fun hT => (hs hT).of_sameQueues hh.toSameQueues⟩
  · obtain ⟨hb, hadm⟩ := hU pre i hpre hacc
    refine ⟨cl.n, cl.lastConsensusRound hcb.undisturbing hlcr,
      cl.replica hcb hr hb hadm (by omega) hB, fun hT =>
      cl.settled hcb hr hb hadm (by omega) hB hT (hs hT)⟩

/-- A run from the start with events of the universe. -/
theorem replica_run_started (hst : h.Started m P) (rt : Runtime) (hcb : Hosting cb)
    (hps : HashesKeys S ps) (hlen : is.length ≤ m) (hU : ∀ i ∈ is, i.event.body ∈ U.bodies)
    (hpeers : ∀ pre, pre <+: is → ∀ j ≤ (run S rt cb ⟨c, h⟩ pre).hg.store.lastRound + 1,
      (run S rt cb ⟨c, h⟩ pre).hg.store.getPeerSet j = .ok (ps j)) :
    ∃ q, (run S rt cb ⟨c, h⟩ is).hg.lastConsensusRound.getD (-1) = q ∧
      (run S rt cb ⟨c, h⟩ is).hg.Replica (Window.whole U.graph (keysAt ps)) SignedEvent.IsFirst m
        is.length q ∧
      ((∀ r, EventGraph.Fair (keysAt ps) r) →
        (run S rt cb ⟨c, h⟩ is).hg.Settled (Window.whole U.graph (keysAt ps)) q) := by
  obtain ⟨q, hq, hr, hs⟩ := replica_run (T := Window.whole U.graph (keysAt ps)) (n := 0) (q := -1)
    (s := ⟨c, h⟩) rt hcb hps (fun e h1 h2 => ⟨h1, h2⟩) (replica_started hst)
    (by rw [lastConsensusRound_started hst]; rfl) (fun _ => settled_started hst) (by omega)
    (fun pre i hpre _ => ⟨hU i (hpre.subset (by simp)), Window.whole_admits _⟩) hpeers
  rw [Nat.zero_add] at hr
  exact ⟨q, hq, hr, fun hfair => hs (Window.whole_receptive hfair)⟩

end Session

/-- A node over the universe, with the peer-sets `ps` : how it starts, and the calls that it
gets, no more than its caches hold events. A peer-set is recorded before there are events of
the rounds that it governs. -/
structure NodeRun (C : Type) (U : Universe S) (ps : ℤ → PeerSet K) where
  rt : Runtime
  commitCallback : CommitCallback C H K
  hosting : Session.Hosting commitCallback
  cacheSize : ℕ
  genesis : PeerSet K
  start : Session C H K
  started : start.hg.Started cacheSize genesis
  inputs : List (Session.Input H K)
  bodies : ∀ i ∈ inputs, i.event.body ∈ U.bodies
  noEviction : inputs.length ≤ cacheSize
  peers : ∀ pre, pre <+: inputs →
    ∀ j ≤ (Session.run S rt commitCallback start pre).hg.store.lastRound + 1,
      (Session.run S rt commitCallback start pre).hg.store.getPeerSet j = .ok (ps j)

namespace NodeRun

variable {C' : Type} {x : H} {r : ℤ}

/-- The node after its calls. -/
def session (d : NodeRun C U ps) : Session C H K :=
  Session.run S d.rt d.commitCallback d.start d.inputs

theorem replica (d : NodeRun C U ps) (hps : HashesKeys S ps) :
    ∃ q, d.session.hg.lastConsensusRound.getD (-1) = q ∧
      d.session.hg.Replica (Window.whole U.graph (keysAt ps)) SignedEvent.IsFirst d.cacheSize
        d.inputs.length q ∧
      ((∀ r, EventGraph.Fair (keysAt ps) r) →
        d.session.hg.Settled (Window.whole U.graph (keysAt ps)) q) :=
  Session.replica_run_started d.started d.rt d.hosting hps d.noEviction d.bodies d.peers

/-- The fame of `x` is on record. -/
def Records (d : NodeRun C U ps) (x : H) (v : Bool) : Prop :=
  ∃ r info e, d.session.hg.store.roundCache.lookup r = some info ∧
    info.createdEvents.lookup x = some e ∧ e.famous = Trilean.ofBool v

theorem records_of_lookup {d : NodeRun C U ps} {v : Bool}
    (h : ((d.session.hg.store.roundCache.lookup r).bind fun info =>
      (info.createdEvents.lookup x).map RoundEvent.famous) = some (Trilean.ofBool v)) :
    d.Records x v := by
  obtain ⟨info, hinfo, h⟩ := Option.bind_eq_some_iff.1 h
  obtain ⟨e, he, hv⟩ := Option.map_eq_some_iff.1 h
  exact ⟨r, info, e, hinfo, he, hv⟩

/-- Fame on record was decided by the votes of some witness. -/
theorem Records.decides {d : NodeRun C U ps} {v : Bool} (h : d.Records x v)
    (hps : HashesKeys S ps) : ∃ n y, U.graph.VoterAt (keysAt ps) x (n + 1) y ∧
      U.graph.Decides (keysAt ps) middleBit x n y v := by
  obtain ⟨q, -, hr, -⟩ := d.replica hps
  obtain ⟨r, info, e, hinfo, he, hv⟩ := h
  obtain ⟨-, n, y, -, hy, hdec⟩ := hr.fame hinfo he hv
  exact ⟨n, y, hy, hdec⟩

/-- The famous witnesses of a decided round are those of the graph. -/
theorem mem_famousWitnesses_iff (d : NodeRun C U ps) (hps : HashesKeys S ps)
    (hfair : ∀ r, EventGraph.Fair (keysAt ps) r) {info : RoundInfo H}
    (hinfo : d.session.hg.store.roundCache.lookup r = some info)
    (hdec : info.witnessesDecided (ps r) = true) :
    x ∈ info.famousWitnesses ↔ U.graph.FamousIn (keysAt ps) middleBit r x := by
  obtain ⟨q, -, hr, hs⟩ := d.replica hps
  have hD := hr.coordinates.windowClosed
  have hd := hr.wellFormed.divided
  exact ⟨fun hx => (famousIn_of_mem hD hd hr.fame hinfo hx).2.2,
    (FamousKnown.of_witnessesDecided (fun _ => hfair _) hD hd hr.fame (hs hfair).famous hinfo
      hdec).2 x⟩

end NodeRun

/-! ## Fixed peers -/

namespace Session

variable {rt : Runtime} {cb : CommitCallback C H K} {R : Reading H K} {A : Assignment H}
  {q n : ℤ} {s t s' : Session C H K} {i : Input H K}

/-- The passes leave the peer-sets alone. -/
theorem Call.peerSetCache₄ (c : Call S rt cb R ps A q s i s') :
    c.h₄.store.peerSetCache = s.hg.store.peerSetCache := by
  obtain ⟨pec, hst, -⟩ := setEvent_eq c.ins.setEvent
  obtain ⟨ti, sigs, he₁⟩ := c.result
  obtain ⟨ec, rc, m, pr, us, he₄⟩ := c.consensus.eq
  rw [he₄, he₁, hst]

/-- A host that leaves the peer-sets as they are. -/
structure Static (cb : CommitCallback C H K) : Prop where
  hosting : Hosting cb
  peerSetCache : ∀ b s, (cb b s).hg.store.peerSetCache = s.hg.store.peerSetCache

theorem static_dummyCommitCallback : Static (dummyCommitCallback : CommitCallback C H K) :=
  ⟨hosting_dummyCommitCallback, fun _ _ => rfl⟩

namespace Static

theorem close (hcb : Static cb) {r : ℤ} {fr : Frame H K} {h₁ : Hashgraph H K}
    (ho : Opened S fr t.hg h₁) :
    (close S cb r fr { t with hg := h₁ }).hg.store.peerSetCache = t.hg.store.peerSetCache := by
  have h₁p : h₁.store.peerSetCache = t.hg.store.peerSetCache := by
    obtain ⟨n, cc, tot, rfl⟩ := ho
    rfl
  obtain ⟨n, first, he⟩ := closeRound_eq r fr (commitFrame S cb fr { t with hg := h₁ }).hg
  rw [Session.close, he, ← h₁p]
  change (commitFrame S cb fr { t with hg := h₁ }).hg.store.peerSetCache = _
  unfold commitFrame
  extract_lets block
  split_ifs
  · rfl
  · rfl
  · exact hcb.peerSetCache block _

theorem processed (hcb : Static cb) (hp : Processed S rt cb A q s n t) :
    t.hg.store.peerSetCache = s.hg.store.peerSetCache := by
  induction hp with
  | start => rfl
  | round ht hinfo hdec hP hfr ho ih => exact (hcb.close ho).trans ih

theorem call (hcb : Static cb) (c : Call S rt cb R ps A q s i s') :
    s'.hg.store.peerSetCache = s.hg.store.peerSetCache :=
  (congrArg (fun s => s.hg.store.peerSetCache) c.eq).trans
    ((hcb.processed c.processed).trans c.peerSetCache₄)

theorem run (hcb : Static cb) (rt : Runtime) (hs : Sound S q s) (is : List (Input H K)) :
    (run S rt cb s is).hg.store.peerSetCache = s.hg.store.peerSetCache := by
  refine run_induct (P := fun _ t => t.hg.store.peerSetCache = s.hg.store.peerSetCache) is rfl ?_
  intro pre i _ ih
  obtain ⟨q', hs'⟩ := hs.run rt hcb.hosting.undisturbing pre
  rw [feed]
  rcases hs'.feed_cases rt hcb.hosting.undisturbing i with ⟨err, ti, -, -, he⟩ | ⟨s', ps, A, he, -, ⟨c⟩⟩
  · rw [he]
    exact ih
  · rw [he]
    exact (hcb.call c).trans ih

end Static

end Session

/-- The hashgraph that `Init` makes. -/
def Hashgraph.initial (cacheSize : ℕ) (P : PeerSet K) : Hashgraph H K :=
  match (Hashgraph.new (InmemStore.new cacheSize)).init P with
  | .ok h => h
  | .error _ => Hashgraph.new (InmemStore.new cacheSize)

theorem Hashgraph.init_initial (m : ℕ) (P : PeerSet K) :
    (Hashgraph.new (InmemStore.new m)).init P = .ok (initial m P : Hashgraph H K) :=
  rfl

/-- A node whose peer-sets are all recorded at the start. -/
def NodeRun.ofStatic {cb : CommitCallback C H K} (rt : Runtime) (hcb : Session.Static cb)
    {m : ℕ} {P : PeerSet K} {s : Session C H K} (hs : s.hg.Started m P)
    {is : List (Session.Input H K)} (hU : ∀ i ∈ is, i.event.body ∈ U.bodies)
    (hlen : is.length ≤ m) (hps : ∀ j, s.hg.store.getPeerSet j = .ok (ps j)) : NodeRun C U ps where
  rt := rt
  commitCallback := cb
  hosting := hcb.hosting
  cacheSize := m
  genesis := P
  start := s
  started := hs
  inputs := is
  bodies := hU
  noEviction := hlen
  peers pre _ j _ := by
    rw [InmemStore.getPeerSet, hcb.run rt (Session.sound_started S hs s.host) pre]
    exact hps j

/-- A node over the universe with the fixed peers `P` : how it starts, and the calls that it
gets, no more than its caches hold events. -/
structure StaticRun (C : Type) (U : Universe S) (P : PeerSet K) where
  rt : Runtime
  commitCallback : CommitCallback C H K
  static : Session.Static commitCallback
  cacheSize : ℕ
  host : C
  inputs : List (Session.Input H K)
  bodies : ∀ i ∈ inputs, i.event.body ∈ U.bodies
  noEviction : inputs.length ≤ cacheSize

namespace StaticRun

variable {C' : Type} {P : PeerSet K} {x : H} {r : ℤ}

/-- The node after `Init`. -/
def start (d : StaticRun C U P) : Session C H K :=
  ⟨d.host, Hashgraph.initial d.cacheSize P⟩

theorem started_start (d : StaticRun C U P) : d.start.hg.Started d.cacheSize P :=
  .init (init_initial d.cacheSize P)

/-- With fixed peers, there is one peer-set for all rounds. -/
def toNodeRun (d : StaticRun C U P) : NodeRun C U fun _ => P :=
  .ofStatic d.rt d.static d.started_start d.bodies d.noEviction
    (Session.init_eq (init_initial (H := H) d.cacheSize P)).2.2.2.2.2.2

/-- The node after its calls. -/
def session (d : StaticRun C U P) : Session C H K :=
  Session.run S d.rt d.commitCallback d.start d.inputs

theorem session_toNodeRun (d : StaticRun C U P) : d.toNodeRun.session = d.session :=
  rfl

/-- The node after some of its calls. -/
def upTo (d : StaticRun C U P) {pre : List (Session.Input H K)} (hpre : pre <+: d.inputs) :
    StaticRun C U P :=
  { d with
    inputs := pre
    bodies := fun i hi => d.bodies i (hpre.subset hi)
    noEviction := hpre.length_le.trans d.noEviction }

theorem indexed (d : StaticRun C U P) : Indexed S (Session.bodiesOf d.inputs) :=
  U.indexed.mono fun _ ⟨i, hi, hb⟩ => hb ▸ d.bodies i hi

theorem hashesKeys (S : Scheme H K) (P : PeerSet K) : HashesKeys S fun _ => P :=
  fun _ _ _ => rfl

theorem fair (P : PeerSet K) (r : ℤ) : EventGraph.Fair (keysAt fun _ => P) r :=
  EventGraph.fair_const P.pubKeys r

theorem settled (d : StaticRun C U P) :
    ∃ q, d.session.hg.lastConsensusRound.getD (-1) = q ∧
      d.session.hg.Replica (Window.whole U.graph (keysAt fun _ => P)) SignedEvent.IsFirst
        d.cacheSize d.inputs.length q ∧
      d.session.hg.Settled (Window.whole U.graph (keysAt fun _ => P)) q := by
  obtain ⟨q, hq, hr, hs⟩ := d.toNodeRun.replica (hashesKeys S P)
  exact ⟨q, hq, hr, hs (fair P)⟩

open Classical in
/-- The rounds that a node computes are the rounds by definition, and its witnesses are the
first events of the peers in a round. -/
theorem round_eq_definedRound (d : StaticRun C U P)
    (hx : x ∈ d.session.hg.store.eventCache) :
    (Exec.exec (Query.round S d.rt d.session.hg.store x) d.session.hg.memo).1 =
        .ok (U.graph.definedRound (fun _ => P.pubKeys) x) ∧
      (Exec.exec (Query.witness S d.rt d.session.hg.store x) d.session.hg.memo).1 =
        .ok (decide (U.graph.FirstInRound (fun _ => P.pubKeys)
          (U.graph.definedRound fun _ => P.pubKeys) x)) := by
  obtain ⟨q, -, hr, -⟩ := d.settled
  have hround : U.graph.round (fun _ => P.pubKeys) = U.graph.definedRound fun _ => P.pubKeys :=
    funext EventGraph.round_eq_defined
  have hmem := hr.coordinates.windowClosed.mem hx
  constructor
  · have hret : Exec.Returns (Query.round S d.rt d.session.hg.store x) d.session.hg.memo
        fun r _ => r = U.graph.round (fun _ => P.pubKeys) x :=
      Query.returns_round_of_cached (hr.wellFormed.divided.round x hx) rfl
    obtain ⟨r, m, he, rfl⟩ := hret
    rw [he, hround]
  · have hret : Exec.Returns (Query.witness S d.rt d.session.hg.store x) d.session.hg.memo
        fun w _ => w = decide (U.graph.Witness (fun _ => P.pubKeys) x) :=
      Query.returns_witness_of_cached (hr.wellFormed.divided.witness x hx) rfl
    obtain ⟨w, m, he, rfl⟩ := hret
    rw [he, ← hround]
    simp only [EventGraph.witness_iff_firstInRound hmem]

/-- Two nodes that have the fame of a witness on record agree on it, and all witnesses that
decide it decide that. -/
theorem fame_eq (d : StaticRun C U P) (d' : StaticRun C' U P) {v : Bool}
    (hv : d.toNodeRun.Records x v) :
    (∀ v', d'.toNodeRun.Records x v' → v' = v) ∧
    ∀ n y v', U.graph.VoterAt (fun _ => P.pubKeys) x (n + 1) y →
      U.graph.Decides (fun _ => P.pubKeys) middleBit x n y v' → v' = v := by
  obtain ⟨n, y, hy, hdec⟩ := hv.decides (hashesKeys S P)
  refine ⟨fun v' hv' => ?_, fun n' y' v' hy' hdec' => hdec'.eq hy' hdec hy (fair P _)⟩
  obtain ⟨n', y', hy', hdec'⟩ := hv'.decides (hashesKeys S P)
  exact hdec'.eq hy' hdec hy (fair P _)

/-- A witness that is not known when a node has its round decided is famous for no node, and
the decided rounds have the same famous witnesses everywhere. -/
theorem famousWitnesses_eq (d : StaticRun C U P) (d' : StaticRun C' U P)
    {info info' : RoundInfo H} (hinfo : d.session.hg.store.roundCache.lookup r = some info)
    (hdec : info.witnessesDecided P = true)
    (hinfo' : d'.session.hg.store.roundCache.lookup r = some info') :
    (∀ x e, info'.createdEvents.lookup x = some e → e.witness = true →
      x ∉ d.session.hg.store.eventCache → e.famous ≠ .true) ∧
    (info'.witnessesDecided P = true →
      ∀ x, x ∈ info.famousWitnesses ↔ x ∈ info'.famousWitnesses) := by
  obtain ⟨q, -, hr, -⟩ := d.settled
  obtain ⟨q', -, hr', -⟩ := d'.settled
  have hfw := fun {x} => d.toNodeRun.mem_famousWitnesses_iff (x := x) (hashesKeys S P) (fair P)
    hinfo hdec
  refine ⟨fun x e he hwit hx hfam => hx ?_, fun hdec' x => ?_⟩
  · -- a famous witness of the graph is on record where the round is decided
    have hin := famousIn_of_mem hr'.coordinates.windowClosed hr'.wellFormed.divided hr'.fame
      hinfo' (RoundInfo.mem_famousWitnesses.2 ⟨e, he, hwit, hfam⟩)
    exact (famousIn_of_mem hr.coordinates.windowClosed hr.wellFormed.divided hr.fame hinfo
      (hfw.2 hin.2.2)).2.1
  · exact hfw.trans (d'.toNodeRun.mem_famousWitnesses_iff (hashesKeys S P) (fair P) hinfo' hdec').symm

end StaticRun

namespace Sample

/-- Three of four validators that take turns, each on the last event of the one before. -/
def turns (n : ℕ) : List (SignedEvent Bytes Bytes) :=
  (List.range n).map fun k => event k (UInt8.ofNat (k % 3 + 1)) (k / 3 : ℕ)
    (if k < 3 then none else some (k - 3)) (if k < 3 then none else some (k - 1)) []

/-- The first event of the fourth. -/
def late : SignedEvent Bytes Bytes :=
  event 99 4 0 none none []

/-- Twelve turns, and the first event of the fourth validator. -/
def quartet : Universe scheme :=
  .ofList scheme ((turns 12 ++ [late]).map SignedEvent.body) (by decide +kernel)
    (by decide +kernel) (by decide +kernel) (by decide +kernel)

/-- Four validators. -/
def four : PeerSet Bytes :=
  ⟨[peer 1, peer 2, peer 3, peer 4]⟩

/-- The calls for a list of events. -/
def calls (l : List (SignedEvent Bytes Bytes)) : List (Session.Input Bytes Bytes) :=
  l.map fun e => ⟨e, {}, true⟩

/-- A node with fixed peers that gets a list of events. -/
def nodeWith (P : PeerSet Bytes) {U : Universe scheme} (l : List (SignedEvent Bytes Bytes))
    (hU : ∀ e ∈ l, e.body ∈ U.bodies) (hlen : l.length ≤ 100) : StaticRun Unit U P where
  rt := .plain
  commitCallback := dummyCommitCallback
  static := Session.static_dummyCommitCallback
  cacheSize := 100
  host := ()
  inputs := calls l
  bodies i hi := by
    obtain ⟨e, he, rfl⟩ := List.mem_map.1 hi
    exact hU e he
  noEviction := (List.length_map _).trans_le hlen

/-- A node with eleven turns. -/
def early : StaticRun Unit quartet four :=
  nodeWith four (turns 11)
    (fun _ he => show _ ∈ (turns 12 ++ [late]).map SignedEvent.body from
      List.mem_map_of_mem (List.mem_append_left _ (List.mem_of_mem_take (i := 11) he)))
    (by decide)

/-- A node with all events, the late one at the end. -/
def complete : StaticRun Unit quartet four :=
  nodeWith four (turns 12 ++ [late]) (fun _ he => List.mem_map_of_mem he) (by decide)

/-- The event of the eleventh turn is of round 2. -/
theorem definedRound_ten : quartet.graph.definedRound (fun _ => four.pubKeys) [10] = 2 := by
  have hx : [10] ∈ early.session.hg.store.eventCache := by decide +kernel
  have h2 : (Exec.exec (Query.round scheme early.rt early.session.hg.store [10])
      early.session.hg.memo).1 = .ok 2 := by decide +kernel
  exact Except.ok.inj ((early.round_eq_definedRound hx).1.symm.trans h2)

theorem records_zero : early.toNodeRun.Records [0] true := by
  have h : ((early.session.hg.store.roundCache.lookup 0).bind fun info =>
      (info.createdEvents.lookup [0]).map RoundEvent.famous) = some .true := by decide +kernel
  rw [← early.session_toNodeRun] at h
  exact NodeRun.records_of_lookup h

/-- The first event of all is famous for both nodes. -/
theorem zero_famous : early.toNodeRun.Records [0] true ∧
    (∀ v, complete.toNodeRun.Records [0] v → v = true) ∧
    ∀ n y v, quartet.graph.VoterAt (fun _ => four.pubKeys) [0] (n + 1) y →
      quartet.graph.Decides (fun _ => four.pubKeys) middleBit [0] n y v → v = true :=
  ⟨records_zero, early.fame_eq complete records_zero⟩

/-- The first round of a node. -/
def firstRound (d : StaticRun Unit quartet four) : RoundInfo Bytes :=
  (d.session.hg.store.roundCache.lookup 0).getD {}

theorem lookup_firstRound {d : StaticRun Unit quartet four}
    (h : (d.session.hg.store.roundCache.lookup 0).isSome) :
    d.session.hg.store.roundCache.lookup 0 = some (firstRound d) := by
  obtain ⟨info, hinfo⟩ := Option.isSome_iff_exists.1 h
  rw [firstRound, hinfo, Option.getD_some]

/-- The late event is a witness of a round that was decided without it. -/
theorem late_not_famous : (firstRound early).witnessesDecided four = true ∧
    [99] ∉ early.session.hg.store.eventCache ∧ [99] ∈ (firstRound complete).witnesses ∧
    [99] ∉ (firstRound complete).famousWitnesses := by
  have hdec : (firstRound early).witnessesDecided four = true ∧
      [99] ∉ early.session.hg.store.eventCache ∧
      (early.session.hg.store.roundCache.lookup 0).isSome = true := by decide +kernel
  have hwit : [99] ∈ (firstRound complete).witnesses ∧
      (complete.session.hg.store.roundCache.lookup 0).isSome = true := by decide +kernel
  refine ⟨hdec.1, hdec.2.1, hwit.1, fun hmem => ?_⟩
  obtain ⟨e, he, hw, hfam⟩ := RoundInfo.mem_famousWitnesses.1 hmem
  exact (early.famousWitnesses_eq complete (lookup_firstRound hdec.2.2) hdec.1
    (lookup_firstRound hwit.2)).1 [99] e he hw hdec.2.1 hfam

/-- The store of a node that starts with the peers `P` and has `Q` recorded for the rounds
from 2 on. -/
def switched (P Q : PeerSet Bytes) : InmemStore Bytes Bytes :=
  match (Hashgraph.initial 100 P : Hashgraph Bytes Bytes).store.setPeerSet 2 Q with
  | .ok st => st
  | .error _ => InmemStore.new 100

/-- The node with that store. -/
def switching (P Q : PeerSet Bytes) : Session Unit Bytes Bytes :=
  ⟨(), { Hashgraph.initial 100 P with store := switched P Q }⟩

/-- The peers of its rounds. -/
def switchedPeers (P Q : PeerSet Bytes) (j : ℤ) : PeerSet Bytes :=
  if j < 2 then P else Q

theorem initial_peerSetCache (P : PeerSet Bytes) :
    (Hashgraph.initial 100 P : Hashgraph Bytes Bytes).store.peerSetCache.peerSets =
        (∅ : Map ℤ (PeerSet Bytes)).insert 0 P ∧
      (Hashgraph.initial 100 P : Hashgraph Bytes Bytes).store.peerSetCache.rounds = [0] := by
  have hset : (InmemStore.new 100 : InmemStore Bytes Bytes).setPeerSet 0 P =
      .ok (Hashgraph.initial 100 P : Hashgraph Bytes Bytes).store := rfl
  obtain ⟨psc, pec, roots, fc, hpsc, he, -⟩ := InmemStore.setPeerSet_eq hset
  obtain ⟨-, h1, h2⟩ := PeerSetCache.set_eq hpsc
  rw [he]
  exact ⟨h1, h2⟩

theorem setPeerSet_switched (P Q : PeerSet Bytes) :
    (Hashgraph.initial 100 P : Hashgraph Bytes Bytes).store.setPeerSet 2 Q = .ok (switched P Q) := by
  have hnone : (Hashgraph.initial 100 P : Hashgraph Bytes Bytes).store.peerSetCache.peerSets.lookup 2
      = none := by
    rw [(initial_peerSetCache P).1]
    rfl
  simp only [switched, InmemStore.setPeerSet, PeerSetCache.set, hnone]
  rfl

theorem getPeerSet_switching (P Q : PeerSet Bytes) (j : ℤ) :
    (switching P Q).hg.store.getPeerSet j = .ok (switchedPeers P Q j) := by
  obtain ⟨psc, pec, roots, fc, hpsc, he, -⟩ := InmemStore.setPeerSet_eq (setPeerSet_switched P Q)
  obtain ⟨-, h1, h2⟩ := PeerSetCache.set_eq hpsc
  obtain ⟨hsets, hrounds⟩ := initial_peerSetCache P
  rw [hsets] at h1
  rw [hrounds] at h2
  have h2 : psc.rounds = [0, 2] := h2
  change (switched P Q).getPeerSet j = _
  rw [he]
  change psc.get j = _
  unfold PeerSetCache.get switchedPeers
  rw [h1, h2]
  simp only [Map.lookup_insert_ite, PeerSetCache.situate]
  split_ifs <;> first | rfl | omega

theorem started_switching (P Q : PeerSet Bytes) : (switching P Q).hg.Started 100 P :=
  .setPeerSet (.init (init_initial 100 P)) (setPeerSet_switched P Q)

theorem hashesKeys_switched {P Q : PeerSet Bytes}
    (h : P.hash scheme.sha256 ≠ Q.hash scheme.sha256) :
    HashesKeys scheme (switchedPeers P Q) := by
  intro i j
  unfold switchedPeers
  split_ifs
  exacts [fun _ => rfl, fun he => absurd he h, fun he => absurd he.symm h, fun _ => rfl]

/-- A node with a switch of peers and calls for a list of events of a universe. -/
def switchingNode (P Q : PeerSet Bytes) {U : Universe scheme} {l : List (SignedEvent Bytes Bytes)}
    (hU : ∀ e ∈ l, e.body ∈ U.bodies) (hlen : l.length ≤ 100) :
    NodeRun Unit U (switchedPeers P Q) :=
  have hbodies : ∀ i ∈ calls l, i.event.body ∈ U.bodies := fun i hi => by
    obtain ⟨e, he, rfl⟩ := List.mem_map.1 hi
    exact hU e he
  .ofStatic .plain Session.static_dummyCommitCallback (started_switching P Q) hbodies
    ((List.length_map _).trans_le hlen) (getPeerSet_switching P Q)

/-- Three validators. -/
def three : PeerSet Bytes :=
  ⟨[peer 1, peer 2, peer 3]⟩

/-- Three validators that become four. -/
theorem fair_widening (r : ℤ) : EventGraph.Fair (keysAt (switchedPeers three four)) r := by
  have hcard : ∀ j, (keysAt (switchedPeers three four) j).card = if j < 2 then 3 else 4 := by
    intro j
    unfold keysAt switchedPeers
    split_ifs <;> decide +kernel
  intro d _
  simp only [EventGraph.quorum, hcard]
  refine ⟨fun _ => ?_, fun _ => ?_⟩ <;> split_ifs <;> omega

/-- A node of the three, with some turns. -/
def widening (n : ℕ) (hn : n ≤ 12) : NodeRun Unit quartet (switchedPeers three four) :=
  switchingNode three four (l := turns n)
    (fun e he => by
      obtain ⟨k, hk, rfl⟩ := List.mem_map.1 he
      refine List.mem_map.2 ⟨_, List.mem_append_left _ (List.mem_map.2 ⟨k, ?_, rfl⟩), rfl⟩
      exact List.mem_range.2 ((List.mem_range.1 hk).trans_le hn))
    (by rw [turns, List.length_map, List.length_range]; omega)

/-- Thirteen events of four validators. The witnesses 9 and 10 of round 1 see the first
event, the witnesses 7 and 8 do not. -/
def split : List (SignedEvent Bytes Bytes) :=
  [event 0 1 0 none none [], event 1 2 0 none none [], event 2 3 0 none none [],
    event 3 4 0 none none [], event 4 3 1 (some 2) (some 1) [], event 5 4 1 (some 3) (some 4) [],
    event 6 2 1 (some 1) (some 5) [], event 7 3 2 (some 4) (some 6) [],
    event 8 4 2 (some 5) (some 7) [], event 9 1 1 (some 0) (some 7) [],
    event 10 2 2 (some 6) (some 9) [], event 11 1 2 (some 9) (some 8) [],
    event 12 3 3 (some 7) (some 11) []]

/-- A witness of round 2 that strongly sees all of them. -/
def branch : List (SignedEvent Bytes Bytes) :=
  [event 13 3 4 (some 12) (some 10) [], event 14 1 3 (some 11) (some 13) []]

/-- A witness of round 2 that strongly sees 7, 8 and 9. -/
def branch' : List (SignedEvent Bytes Bytes) :=
  [event 15 4 3 (some 8) (some 12) [], event 16 2 3 (some 10) (some 15) []]

/-- All of these events. -/
def crossing : Universe scheme :=
  .ofList scheme ((split ++ branch ++ branch').map SignedEvent.body) (by decide +kernel)
    (by decide +kernel) (by decide +kernel) (by decide +kernel)

/-- Two of the validators. -/
def two : PeerSet Bytes :=
  ⟨[peer 1, peer 2]⟩

/-- A node with the first branch. -/
def approving : NodeRun Unit crossing (switchedPeers four two) :=
  switchingNode four two (l := split ++ branch)
    (fun _ he => List.mem_map_of_mem (List.mem_append_left _ he)) (by decide)

/-- A node with the second branch. -/
def denying : NodeRun Unit crossing (switchedPeers four two) :=
  switchingNode four two (l := split ++ branch')
    (fun _ he => List.mem_map_of_mem (List.append_assoc _ _ _ ▸
      (List.mem_append.1 he).elim (List.mem_append_left _)
        fun h => List.mem_append_right _ (List.mem_append_right _ h))) (by decide)

end Sample

end Babble

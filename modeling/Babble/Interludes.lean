import Babble.BlockAgreement
import Babble.Promptness

/-!
# Nodes that do other things between their calls

A node does more than insert events : it attaches signatures to blocks, visits maps and
changes its own fields. `Chronicled` is what the calls with fixed peers make of a hashgraph,
said of the hashgraph alone. A call keeps it (`Chronicled.feed_cases`), and what a host may do
between two calls does not touch it. Two hashgraphs that are chronicled over one universe
have the same frames, as far as both have got (`Chronicled.content_take_eq`), and the one that
has all the events of the other has got at least as far (`Chronicled.length_le`).
-/

set_option linter.unusedSectionVars false

namespace Babble

variable {C H K : Type} [DecidableEq H] [DecidableEq K] [Hex H] [Hex K]

variable {S : Scheme H K} {U : Universe S} {P : PeerSet K} {rt rt' : Runtime} {size size' : ℕ}

open Hashgraph

/-! ## The record of frames -/

/-- The frames `fs` are those of the rounds up to `q`, and the blocks are numbered as made
from them. -/
structure Hashgraph.Ledgered (S : Scheme H K) (q : ℤ) (fs : List (Frame H K))
    (h : Hashgraph H K) : Prop where
  le : -1 ≤ q
  rounds : fs.map Frame.round = (List.range (q + 1).toNat).map fun r : ℕ => (r : ℤ)
  stored : ∀ fr ∈ fs, h.store.frameCache.lookup fr.round = some fr
  lastBlock : h.store.lastBlock = (blocksFrom S 0 fs).length - 1
  lastConsensusEvents : h.store.lastConsensusEvents =
    consensusEvents S (fs.flatMap Frame.events) ∅
  sharedRoots : h.store.sharedRoots = none

namespace Session

variable {q : ℤ} {fs : List (Frame H K)}

theorem Ledger.ledgered {s : Recorded C H K} (hl : Ledger S q fs s) : s.hg.Ledgered S q fs :=
  ⟨hl.le, hl.rounds, hl.stored, by rw [hl.lastBlock, hl.committed], hl.lastConsensusEvents,
    hl.sharedRoots⟩

/-- The session with a record of the blocks of `fs`. -/
def recorded (S : Scheme H K) (fs : List (Frame H K)) (s : Session C H K) : Recorded C H K :=
  ⟨(s.host, (blocksFrom S 0 fs).map fun b => (b, s)), s.hg⟩

theorem ledger_recorded {s : Session C H K} (hl : s.hg.Ledgered S q fs) :
    Ledger S q fs (recorded S fs s) := by
  have hblocks : blocks (recorded S fs s) = blocksFrom S 0 fs := by
    rw [blocks, recorded, List.map_map]
    exact List.map_id _
  exact ⟨hl.le, hl.rounds, hl.stored, hblocks, by rw [hblocks]; exact hl.lastBlock,
    hl.lastConsensusEvents, hl.sharedRoots⟩

end Session

namespace Hashgraph

/-- What calls with the fixed peers `P`, and events of the universe, have made of a
hashgraph : it is a replica of its part of the universe, and the frames of the processed
rounds are as specified, whichever signed events extend the stored ones. -/
structure Chronicled (U : Universe S) (P : PeerSet K) (rt : Runtime) (size : ℕ)
    (h : Hashgraph H K) : Prop where
  replica : h.Replica (Window.whole U.graph (keysAt fun _ => P)) SignedEvent.IsFirst size
    h.store.eventCache.keys.length (h.lastConsensusRound.getD (-1))
  settled : h.Settled (Window.whole U.graph (keysAt fun _ => P)) (h.lastConsensusRound.getD (-1))
  prompt : h.Prompt U (fun _ => P) (h.lastConsensusRound.getD (-1))
  peers : h.store.peerSetCache = (initial 0 P : Hashgraph H K).store.peerSetCache
  ledgered : h.Ledgered S (h.lastConsensusRound.getD (-1)) h.processedFrames
  spec : ∀ core : H → SignedEvent H K,
    (∀ x e, h.store.eventCache.lookup x = some e → core x = e.toSignedEvent) →
    EachAfter (FrameSpec U (fun _ => P) rt core (initial 0 P : Hashgraph H K).store)
      h.processedFrames

namespace Chronicled

variable {h h' : Hashgraph H K} {x : H}

theorem getPeerSet (hc : Chronicled U P rt size h) (j : ℤ) : h.store.getPeerSet j = .ok P := by
  rw [InmemStore.getPeerSet, hc.peers]
  exact (Session.init_eq (init_initial (H := H) 0 P)).2.2.2.2.2.2 j

/-- A hashgraph after `Init`. -/
theorem initial (U : Universe S) (P : PeerSet K) (rt : Runtime) (size : ℕ) :
    Chronicled U P rt size (Hashgraph.initial size P) := by
  have hi := init_initial (H := H) size P
  have hst : (Hashgraph.initial size P : Hashgraph H K).Started size P := .init hi
  have hlcr := Session.lastConsensusRound_started hst
  have hl := (Session.ledger_init (S := S) hi ()).ledgered
  have hframes : (Hashgraph.initial size P : Hashgraph H K).processedFrames = [] := by
    rw [processedFrames, hlcr]
    rfl
  have hkeys : (Hashgraph.initial size P : Hashgraph H K).store.eventCache.keys.length = 0 := by
    rw [(Session.init_eq hi).1]
    rfl
  have hrounds : (Hashgraph.initial size P : Hashgraph H K).store.roundCache = ∅ := by
    obtain ⟨st, hs, he⟩ := init_cases hi
    obtain ⟨psc, pec, roots, fc, -, rfl, -⟩ := InmemStore.setPeerSet_eq hs
    rw [he]
    rfl
  refine ⟨?_, ?_, ?_, StaticRun.peerSetCache_initial size 0 P, ?_, fun core _ => ?_⟩
  · rw [hkeys, hlcr]
    exact Session.replica_started hst
  · rw [hlcr]
    exact Session.settled_started hst
  · refine ⟨fun r info hinfo => ?_, fun {r info x} hinfo => ?_, fun {info} hinfo => ?_⟩ <;>
    · rw [hrounds] at hinfo
      cases hinfo
  · rw [hframes, hlcr]
    exact hl
  · rw [hframes]
    exact EachAfter.nil _

/-! ## What happens between calls -/

/-- The host may visit maps. -/
theorem tick (hc : Chronicled U P rt size h) (n : ℕ) :
    Chronicled U P rt size { h with memo := { h.memo with tick := n } } := by
  obtain ⟨hw, hst, hco, hm, hf, hl⟩ := hc.replica
  refine ⟨⟨{ hw with divided := { hw.divided with } }, ⟨hst.body, hst.listed⟩, hco, ?_, hf, hl⟩,
    ?_, hc.prompt.of_store rfl rfl, hc.peers, { hc.ledgered with }, hc.spec⟩
  · exact ⟨hm.1, hm.2⟩
  · exact { hc.settled with accounted := { hc.settled.accounted with } }

/-- It may do what it may do on the commit of a block, and leave the peers and the frames
alone. -/
theorem of_hosted (hc : Chronicled U P rt size h) {b : Block K} (hh : Hosted b h h')
    (hpeers : h'.store.peerSetCache = h.store.peerSetCache)
    (hlast : h'.store.lastBlock = h.store.lastBlock) : Chronicled U P rt size h' := by
  have hfc := hh.frameCache hc.ledgered.sharedRoots
  have hframes : h'.processedFrames = h.processedFrames := by
    rw [processedFrames, processedFrames, hh.lastConsensusRound, hfc]
  refine ⟨?_, ?_, ?_, hpeers.trans hc.peers, ?_, ?_⟩
  · rw [hh.lastConsensusRound, hh.eventCache]
    exact hc.replica.of_hosted hh
  · rw [hh.lastConsensusRound]
    exact hc.settled.of_sameQueues hh.toSameQueues
  · rw [hh.lastConsensusRound]
    exact hc.prompt.of_store hh.eventCache hh.roundCache
  · rw [hframes, hh.lastConsensusRound]
    obtain ⟨h1, h2, h3, h4, h5, h6⟩ := hc.ledgered
    exact ⟨h1, h2, hfc ▸ h3, hlast.trans h4, hh.lastConsensusEvents.trans h5,
      hh.sharedRoots.trans h6⟩
  · rw [hframes, hh.eventCache]
    exact hc.spec

end Chronicled

end Hashgraph

/-! ## Calls -/

namespace Session

variable {cb : CommitCallback C H K} {s : Session C H K} {i : Input H K}

/-- A call stores one event more. -/
theorem Call.length_keys {R : Reading H K} {ps : ℤ → PeerSet K} {A : Assignment H} {q : ℤ}
    {s' : Session C H K} (hcb : Undisturbing cb) (c : Call S rt cb R ps A q s i s')
    (hnew : i.event.hex S ∉ s.hg.store.eventCache) :
    s'.hg.store.eventCache.keys.length = s.hg.store.eventCache.keys.length + 1 := by
  have hperm : s'.hg.store.eventCache.keys.Perm (i.event.hex S :: s.hg.store.eventCache.keys) := by
    refine (List.perm_ext_iff_of_nodup (AList.keys_nodup _)
      (List.nodup_cons.2 ⟨fun h => hnew (AList.mem_keys.2 h), AList.keys_nodup _⟩)).2 fun y => ?_
    rw [← AList.mem_keys, c.mem_iff hcb, List.mem_cons, AList.mem_keys]
  rw [hperm.length_eq, List.length_cons]

section Static

variable {s' : Recorded C H K} {t : Recorded C H K} {fs fs' : List (Frame H K)} {n : ℕ} {q : ℤ}

/-- The frames that a call with fixed peers adds are as specified. -/
theorem Call.spec (hcb : Static cb)
    (hr : t.hg.Replica (Window.whole U.graph (keysAt fun _ => P)) SignedEvent.IsFirst size n q)
    (hs : t.hg.Settled (Window.whole U.graph (keysAt fun _ => P)) q)
    (hpeers : t.hg.store.peerSetCache = (initial 0 P : Hashgraph H K).store.peerSetCache)
    (c : Call S rt (traced cb)
      (exactAnswer U.graph (fun _ => P) (Window.whole U.graph (keysAt fun _ => P))) (fun _ => P)
      (assignment U.graph fun _ => P) q t i s')
    (hb : i.event.body ∈ U.bodies) (hn : n < size) {core : H → SignedEvent H K}
    (hcore : ∀ x e, s'.hg.store.eventCache.lookup x = some e → core x = e.toSignedEvent)
    (hfs : EachAfter (FrameSpec U (fun _ => P) rt core (initial 0 P : Hashgraph H K).store) fs)
    (hl' : Ledger S c.n (fs ++ fs') s')
    (hframes : EachAfter (fun pre fr =>
      Nonempty (FrameFrom S rt cb c.A' q { t with hg := c.h₄ } (fs ++ pre) fr)) fs') :
    EachAfter (FrameSpec U (fun _ => P) rt core (initial 0 P : Hashgraph H K).store)
      (fs ++ fs') := by
  have hB : ∀ e : SignedEvent H K, e.body.selfParent = none → e.body.index = 0 → e.IsFirst :=
    fun e h1 h2 => ⟨h1, h2⟩
  have hr' := c.replica hcb.traced.hosting hr hb (Window.whole_admits _) hn hB
  have hs' := c.settled hcb.traced.hosting hr hb (Window.whole_admits _) hn hB
    (Window.whole_receptive (StaticRun.fair P)) hs
  -- the new frames one by one, each after those before it
  suffices hspec : ∀ l, l <+: fs' → EachAfter (FrameSpec U (fun _ => P) rt core
      (initial 0 P : Hashgraph H K).store) (fs ++ l) from hspec fs' List.prefix_rfl
  intro l
  induction l using List.reverseRecOn with
  | nil => exact fun _ => (List.append_nil fs).symm ▸ hfs
  | append_singleton l fr ih =>
    intro hpl
    have hl₀ := ih ((List.prefix_append l [fr]).trans hpl)
    obtain ⟨post, rfl⟩ := hpl
    obtain ⟨f⟩ := hframes l fr post (by simp)
    have hpsc : f.t.hg.store.peerSetCache = (initial 0 P : Hashgraph H K).store.peerSetCache :=
      ((hcb.traced.processed f.processed).trans c.peerSetCache₄).trans hpeers
    have hP : f.P = P := by
      have hget := f.peers
      rw [InmemStore.getPeerSet, hpsc] at hget
      exact Except.ok.inj (hget.symm.trans
        ((Session.init_eq (init_initial (H := H) 0 P)).2.2.2.2.2.2 (f.n + 1)))
    rw [← List.append_assoc]
    exact hl₀.snoc ((f.spec hcb.hosting hr c hb hn hr' hs' hcore
      (fun fr hfr => ⟨_, hl₀.of_mem hfr⟩) (hl'.round_le (by simp)) hP).of_peerSetCache hpsc)

end Static

end Session

namespace Hashgraph.Chronicled

variable {cb : CommitCallback C H K} {s : Session C H K} {i : Session.Input H K}
  {h h' : Hashgraph H K}

/-- A call with an event that is not accepted, or with one of the universe. In the second case
the blocks that are committed are those of the new frames. -/
theorem feed_cases (hc : Chronicled U P rt size s.hg) (hcb : Session.Static cb)
    (hb : Accepts S rt s.hg i → i.event.body ∈ U.bodies)
    (hlen : Accepts S rt s.hg i → s.hg.store.eventCache.keys.length < size) :
    (∃ ti, (Session.feed S rt cb s i).hg = { s.hg with topologicalIndex := ti }) ∨
    Chronicled U P rt size (Session.feed S rt cb s i).hg ∧
      Session.blocks (Session.feed S rt (Session.traced cb)
        (Session.recorded S s.hg.processedFrames s) i) =
          blocksFrom S 0 (Session.feed S rt cb s i).hg.processedFrames := by
  obtain ⟨q, hq⟩ : ∃ q, s.hg.lastConsensusRound.getD (-1) = q := ⟨_, rfl⟩
  have hr := hq ▸ hc.replica
  have hs := hq ▸ hc.settled
  have hl := Session.ledger_recorded (hq ▸ hc.ledgered)
  set t := Session.recorded S s.hg.processedFrames s with ht
  have hfeed : (Session.feed S rt (Session.traced cb) t i).hg = (Session.feed S rt cb s i).hg :=
    congrArg Session.hg (Session.untraced_feed S rt cb t i)
  by_cases hacc : Accepts S rt s.hg i
  · have hB : ∀ e : SignedEvent H K, e.body.selfParent = none → e.body.index = 0 → e.IsFirst :=
      fun e h1 h2 => ⟨h1, h2⟩
    rcases Session.replica_cases (s := t) (i := i) rt hcb.traced.hosting (StaticRun.hashesKeys S P)
      hr (fun j _ => hc.getPeerSet j) hb (hlen hacc) hB with ⟨ti, he⟩ | ⟨-, ⟨c⟩⟩
    · refine .inl ⟨ti, ?_⟩
      rw [← hfeed, he]
      rfl
    · obtain ⟨hnew, -⟩ := c.stocked hcb.traced.hosting hr.wellFormed hr.stocked U.indexed (hb hacc)
        (hlen hacc) hB
      have hcount := c.length_keys hcb.traced.hosting.undisturbing hnew
      have hlcr := c.lastConsensusRound hcb.traced.hosting.undisturbing hq
      obtain ⟨fs', hl', hframes⟩ := c.ledger hcb.hosting hl
      have hproc := hl'.processedFrames_eq hlcr
      have hr' := c.replica hcb.traced.hosting hr (hb hacc) (Window.whole_admits _) (hlen hacc) hB
      have hs' := c.settled hcb.traced.hosting hr (hb hacc) (Window.whole_admits _) (hlen hacc) hB
        (Window.whole_receptive (StaticRun.fair P)) hs
      rw [← hfeed, hproc]
      refine .inr ⟨⟨?_, ?_, ?_, (hcb.traced.call c).trans hc.peers, ?_, fun core hcore => ?_⟩,
        hl'.committed⟩
      · rw [hcount, hlcr]
        exact hr'
      · rw [hlcr]
        exact hs'
      · rw [hlcr]
        exact c.prompt hcb.traced.hosting hr (hb hacc) (Window.whole_admits _) (hlen hacc) hB
          (fun _ => le_rfl) hs.famous (hq ▸ hc.prompt)
      · rw [hproc, hlcr]
        exact hl'.ledgered
      · rw [hproc]
        refine c.spec hcb hr hs hc.peers (hb hacc) (hlen hacc) hcore
          (hc.spec core fun x e he => ?_) hl' hframes
        -- what was stored before is stored with the same signature
        have hne : x ≠ i.event.hex S := fun hx => hnew (hx ▸ Map.mem_iff_lookup.2 ⟨e, he⟩)
        have hsigned := congrFun (c.signedEvents_eq hcb.traced.hosting.undisturbing) x
        have hold : signedEvents t.hg.store.eventCache x = some e.toSignedEvent :=
          signedEvents_eq_some.2 ⟨e, he, rfl⟩
        rw [Function.update_of_ne hne, hold] at hsigned
        obtain ⟨e', he', heq⟩ := signedEvents_eq_some.1 hsigned
        rw [hcore x e' he', heq]
  · rcases (Session.sound_of_replica hr hq).feed_cases rt hcb.hosting.undisturbing i with
      ⟨err, ti, -, -, he⟩ | ⟨s', ps, A, he, -⟩
    · exact .inl ⟨ti, by rw [Session.feed, he]⟩
    · exact absurd (Session.accepts_of_ok (by rw [he])) hacc

/-- An event that is not accepted is counted at most. -/
theorem topologicalIndex (hc : Chronicled U P rt size h) (ti : ℤ) :
    Chronicled U P rt size { h with topologicalIndex := ti } :=
  hc.of_hosted (hosted_topologicalIndex (blockBefore 0) h ti) rfl rfl

/-! ## Two hashgraphs -/

variable {x : H} {n : ℕ}

theorem mem_of_received (hc : Chronicled U P rt size h) {r : ℤ} (h0 : 0 ≤ r)
    (hr : r ≤ h.lastConsensusRound.getD (-1))
    (hx : U.graph.Received (keysAt fun _ => P) middleBit r x) : x ∈ h.store.eventCache :=
  ((hc.settled.accounted.all x).2
    (Or.inr ⟨r, hc.settled.complete (show -1 < r by omega) hr hx⟩)).1

/-- The stored events are those of the universe. -/
theorem core_spec (hc : Chronicled U P rt size h) (hx : x ∈ h.store.eventCache) :
    (h.store.core x).body = U.body x ∧ (h.store.core x).hex S = x := by
  obtain ⟨e, he⟩ := Map.mem_iff_lookup.1 hx
  rw [InmemStore.core_eq he]
  exact ⟨hc.replica.stocked.body_eq hc.replica.wellFormed.keys he,
    hc.replica.wellFormed.keys x e he⟩

theorem eachAfter_spec (hc : Chronicled U P rt size h) :
    EachAfter (FrameSpec U (fun _ => P) rt h.store.core (Hashgraph.initial 0 P : Hashgraph H K).store)
      h.processedFrames :=
  hc.spec _ fun _ _ he => InmemStore.core_eq he

theorem length_processedFrames (hc : Chronicled U P rt size h) :
    h.processedFrames.length = (h.lastConsensusRound.getD (-1) + 1).toNat := by
  have := congrArg List.length hc.ledgered.rounds
  rwa [List.length_map, List.length_map, List.length_range] at this

/-- What a processed round receives is stored. -/
theorem stored_of_received (hc : Chronicled U P rt size h) {fr : Frame H K}
    (hfr : fr ∈ h.processedFrames) (hx : U.graph.Received (keysAt fun _ => P) middleBit fr.round x) :
    x ∈ h.store.eventCache := by
  obtain ⟨pre, post, hsplit⟩ := List.append_of_mem hfr
  have hround := (hc.eachAfter_spec pre fr post hsplit).round
  have hlen := congrArg List.length hsplit
  rw [hc.length_processedFrames, List.length_append, List.length_cons] at hlen
  exact hc.mem_of_received (by omega) (by omega) hx

/-- A frame of a processed round, the events it has, and where they are stored. -/
theorem mem_events (hc : Chronicled U P rt size h) {fr : Frame H K} (hfr : fr ∈ h.processedFrames)
    {e : FrameEvent H K} (he : e ∈ fr.events) : ∃ x ∈ h.store.eventCache,
      U.graph.Received (keysAt fun _ => P) middleBit fr.round x ∧
      frameEvent (assignment U.graph fun _ => P) h.store.core x = e := by
  obtain ⟨pre, hf⟩ := hc.eachAfter_spec.of_mem hfr
  obtain ⟨x, hx, rfl⟩ := hf.mem_events.1 he
  exact ⟨x, hc.stored_of_received hfr hx, hx, rfl⟩

/-- Two hashgraphs have the same frames, as far as both have got, if they have the same
signatures and no two events of a frame are tied. -/
theorem content_take_eq (hc : Chronicled U P rt size h) (hc' : Chronicled U P rt' size' h')
    (hn : n ≤ h.processedFrames.length) (hn' : n ≤ h'.processedFrames.length)
    (hkeys : ∀ fr ∈ h.processedFrames, ∀ a ∈ fr.events, ∀ b ∈ fr.events, a.key = b.key → a = b)
    (hcore : ∀ x ∈ h.store.eventCache, x ∈ h'.store.eventCache → h.store.core x = h'.store.core x) :
    (h.processedFrames.take n).map Frame.content = (h'.processedFrames.take n).map Frame.content := by
  refine (hc.eachAfter_spec.take n).map_eq (hc'.eachAfter_spec.take n) ?_ ?_
  · exact (List.length_take_of_le hn).trans (List.length_take_of_le hn').symm
  rintro pre fr pre' fr' ⟨hf, hpre, hfr, hlt⟩ ⟨hf', -, -, -⟩ hcontent
  refine hf.content_eq hf' hpre hcontent (fun j hj x hx => ?_) (hkeys fr hfr)
  have h0 := U.graph.round_nonneg (keysAt fun _ => P) x
  have h1 := hx.round_lt
  have h2 := hf.round
  have h3 := hc.length_processedFrames
  have h4 := hc'.length_processedFrames
  have hx₁ := hc.mem_of_received (by omega) (by omega) hx
  obtain ⟨hbody, hhex⟩ := hc.core_spec hx₁
  exact ⟨hbody, hhex, hcore x hx₁ (hc'.mem_of_received (by omega) (by omega) hx)⟩

/-- A hashgraph that has all the events of another one has processed as many rounds. -/
theorem length_le (hc : Chronicled U P rt size h) (hc' : Chronicled U P rt' size' h')
    (hsub : ∀ x, x ∈ h.store.eventCache → x ∈ h'.store.eventCache) :
    h.processedFrames.length ≤ h'.processedFrames.length := by
  rw [hc.length_processedFrames, hc'.length_processedFrames]
  have := hc.prompt.le hc'.prompt hc.replica hc.settled hc'.replica (fun _ => le_rfl) hsub
  omega

end Hashgraph.Chronicled

end Babble

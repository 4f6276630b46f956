import Babble.Consistency
import Babble.Ledger

/-!
# The frames of nodes with fixed peers

The frame of a processed round is determined by the event graph and the frames before it,
but for the signatures of the events : `FrameSpec` says how. It holds the events received in
the round in the event graph, in consensus order; the roots follow the self-parents of the
first events, or of the last consensus events.
-/

set_option linter.unusedSectionVars false

namespace Babble

variable {C H K : Type} [DecidableEq H] [DecidableEq K] [Hex H] [Hex K]

variable {S : Scheme H K} {U : Universe S} {ps : ℤ → PeerSet K}

open Hashgraph

/-! ## Roots -/

/-- The self-parents of `x`, the latest first, at most as many as the argument says. -/
noncomputable def Universe.selfChain (U : Universe S) : ℕ → H → List H
  | 0, _ => []
  | n + 1, x =>
    match (U.body x).selfParent with
    | none => []
    | some p => p :: U.selfChain n p

/-- The root of a participant with `head` as its last event. -/
noncomputable def Universe.rootFrom (U : Universe S) (A : Assignment H)
    (core : H → SignedEvent H K) : Option H → Root H K
  | none => {}
  | some x => ⟨((x :: U.selfChain Query.rootDepth x).map (frameEvent A core)).reverse⟩

/-- The key of an event's creator. -/
noncomputable def Universe.creator (U : Universe S) (x : H) : K :=
  Hex.encodeToString (U.body x).creator

section Roots

variable {B : SignedEvent H K → Prop} {size n : ℕ} {h : Hashgraph H K} {stop : H → Prop} {x : H}
  (hkeys : ∀ x e, h.store.eventCache.lookup x = some e → e.hex S = x)
  (hst : h.Stocked S U.bodies B size n) (hco : Coordinates U.graph stop (fun _ => True) h.store.eventCache)

include hkeys hst hco

/-- The events before a stored one, from the rolling index of its creator. -/
theorem hashesBefore_eq (hx : x ∈ h.store.eventCache) (j : ℕ) :
    hashesBefore h.store (U.creator x) (U.body x).index j = U.selfChain j x := by
  induction j generalizing x with
  | zero => rfl
  | succ j ih =>
    obtain ⟨ex, hex⟩ := Map.mem_iff_lookup.1 hx
    have hg : U.Grounded x := (hco.event hex).mem
    unfold hashesBefore Universe.selfChain
    cases hsp : (U.body x).selfParent with
    | none =>
      rw [U.indexed.index_first _ hg.mem hsp]
      rfl
    | some p =>
      have hp : p ∈ h.store.eventCache :=
        hco.mem_of_anc (fun _ _ => trivial) hx (EventGraph.Parent.anc
          (Or.inl ((Universe.graph_selfParent hg).trans hsp))) trivial
      obtain ⟨e, he⟩ := Map.mem_iff_lookup.1 hp
      have hi := hg.index_next hsp
      have hc : U.creator p = U.creator x := congrArg Hex.encodeToString (hg.creator_selfParent hsp)
      have h0 := (hg.selfParent hsp).index_nonneg
      have hbody := hst.body_eq hkeys he
      have hget : h.store.participantEvent (U.creator x) ((U.body x).index - 1) = .ok p := by
        refine (hst.listed.getItem_iff (Hex.toUpper_encode _)).2
          ⟨e.toSignedEvent, signedEvents_eq_some.2 ⟨e, he, rfl⟩, ?_, ?_⟩
        · exact (congrArg (fun b => Hex.encodeToString b.creator) hbody).trans hc
        · rw [hbody, hi, add_sub_cancel_right]
      rw [if_pos (by omega), hget]
      simp only
      rw [hi, add_sub_cancel_right, ← hc, ih hp]

omit hkeys hst in
theorem mem_of_mem_selfChain {j : ℕ} {y : H} (hx : x ∈ h.store.eventCache)
    (hy : y ∈ U.selfChain j x) : y ∈ h.store.eventCache := by
  induction j generalizing x with
  | zero => cases hy
  | succ j ih =>
    obtain ⟨e, he⟩ := Map.mem_iff_lookup.1 hx
    unfold Universe.selfChain at hy
    cases hsp : (U.body x).selfParent with
    | none => simp [hsp] at hy
    | some p =>
      rw [hsp] at hy
      have hp : p ∈ h.store.eventCache :=
        hco.mem_of_anc (fun _ _ => trivial) hx (EventGraph.Parent.anc
          (Or.inl ((Universe.graph_selfParent (hco.event he).mem).trans hsp))) trivial
      rcases List.mem_cons.1 hy with rfl | hy
      · exact hp
      · exact ih hp hy

/-- The root that a store gives for an event of a participant. -/
theorem rootOf_eq {A : Assignment H} {core : H → SignedEvent H K}
    (hcore : ∀ x e, h.store.eventCache.lookup x = some e → core x = e.toSignedEvent)
    (hx : x ∈ h.store.eventCache) :
    rootOf A h.store.core h.store (U.creator x) (some x) = U.rootFrom A core (some x) := by
  have hcore' : ∀ y ∈ h.store.eventCache, h.store.core y = core y := by
    intro y hy
    obtain ⟨e, he⟩ := Map.mem_iff_lookup.1 hy
    rw [InmemStore.core_eq he, hcore y e he]
  obtain ⟨e, he⟩ := Map.mem_iff_lookup.1 hx
  have hi : (h.store.core x).body.index = (U.body x).index := by
    rw [InmemStore.core_eq he, hst.body_eq hkeys he]
  rw [rootOf, Universe.rootFrom, hi, hashesBefore_eq hkeys hst hco hx]
  refine congrArg (fun l => Root.mk (List.reverse l)) (List.map_congr_left fun y hy => ?_)
  have hmem : y ∈ h.store.eventCache :=
    (List.mem_cons.1 hy).elim (fun h => h ▸ hx) (mem_of_mem_selfChain hco hx)
  rw [frameEvent, frameEvent, hcore' y hmem]

/-- The root below a stored event. -/
theorem rootOf_selfParent {A : Assignment H} {core : H → SignedEvent H K}
    (hcore : ∀ x e, h.store.eventCache.lookup x = some e → core x = e.toSignedEvent)
    (hx : x ∈ h.store.eventCache) :
    rootOf A h.store.core h.store (U.creator x) (U.body x).selfParent =
      U.rootFrom A core (U.body x).selfParent := by
  obtain ⟨e, he⟩ := Map.mem_iff_lookup.1 hx
  have hg : U.Grounded x := (hco.event he).mem
  cases hsp : (U.body x).selfParent with
  | none => rfl
  | some p =>
    have hp : p ∈ h.store.eventCache := hco.mem_of_anc (fun _ _ => trivial) hx
      (EventGraph.Parent.anc (Or.inl ((Universe.graph_selfParent hg).trans hsp))) trivial
    rw [← rootOf_eq hkeys hst hco hcore hp]
    exact congrArg (fun k => rootOf A h.store.core h.store k (some p))
      (congrArg Hex.encodeToString (hg.creator_selfParent hsp)).symm

end Roots

/-! ## Frames -/

/-- The last consensus events of a list of frames. -/
def lastEvents (S : Scheme H K) (fs : List (Frame H K)) : Map K H :=
  consensusEvents S (fs.flatMap Frame.events) ∅

/-- The frame after the frames `pre`, for the signed events `core` and the peers that `st`
has on record. -/
structure FrameSpec (U : Universe S) (ps : ℤ → PeerSet K) (rt : Runtime)
    (core : H → SignedEvent H K) (st : InmemStore H K) (pre : List (Frame H K))
    (fr : Frame H K) : Prop where
  round : fr.round = pre.length
  peers : fr.peers = (ps fr.round).peers
  events : ∃ xs : List H, xs.Nodup ∧
    (∀ x, x ∈ xs ↔ U.graph.Received (keysAt ps) middleBit fr.round x) ∧
    fr.events = rt.sort FrameEvent.less (xs.map (frameEvent (assignment U.graph ps) core))
  roots : ∀ k, fr.roots.lookup k =
    match fr.events.find? fun e => decide (e.core.creator = k) with
    | some e => some (U.rootFrom (assignment U.graph ps) core e.core.body.selfParent)
    | none =>
      if st.knownBy fr.round k then
        some (U.rootFrom (assignment U.graph ps) core ((lastEvents S pre).lookup k))
      else none
  peerSets : fr.peerSets = st.peerSetCache.getAll
  timestamp : ∃ ws : List H, ws.Nodup ∧
    (∀ w, w ∈ ws ↔ U.graph.FamousIn (keysAt ps) middleBit fr.round w) ∧
    fr.timestamp = median (ws.map fun w => (U.body w).timestamp)

namespace FrameSpec

variable {rt : Runtime} {core : H → SignedEvent H K} {st : InmemStore H K}
  {pre : List (Frame H K)} {fr : Frame H K}

/-- The events of a frame. -/
theorem mem_events (hf : FrameSpec U ps rt core st pre fr) {e : FrameEvent H K} :
    e ∈ fr.events ↔ ∃ x, U.graph.Received (keysAt ps) middleBit fr.round x ∧
      frameEvent (assignment U.graph ps) core x = e := by
  obtain ⟨xs, -, hxs, he⟩ := hf.events
  simp only [he, rt.mem_sort, List.mem_map, hxs]

/-- Only the peers on record count. -/
theorem of_peerSetCache {st' : InmemStore H K} (hf : FrameSpec U ps rt core st pre fr)
    (h : st.peerSetCache = st'.peerSetCache) : FrameSpec U ps rt core st' pre fr := by
  obtain ⟨h1, h2, h3, h4, h5, h6⟩ := hf
  have hknown : st.knownBy fr.round = st'.knownBy fr.round := by
    funext k
    simp only [InmemStore.knownBy, h]
  exact ⟨h1, h2, h3, hknown ▸ h4, h ▸ h5, h6⟩

end FrameSpec

/-- The last consensus event of a creator is one of its own. -/
theorem lookup_lastEvents {fs : List (Frame H K)} {k : K} {x : H}
    (h : (lastEvents S fs).lookup k = some x) :
    ∃ fr ∈ fs, ∃ e ∈ fr.events, e.core.hex S = x ∧ e.core.creator = k := by
  have key : ∀ (evs : List (FrameEvent H K)) (m : Map K H),
      (consensusEvents S evs m).lookup k = some x →
        (∃ e ∈ evs, e.core.hex S = x ∧ e.core.creator = k) ∨ m.lookup k = some x := by
    intro evs
    induction evs with
    | nil => exact fun m h => Or.inr h
    | cons e evs ih =>
      intro m h
      rcases ih _ h with ⟨e', he', h'⟩ | h
      · exact Or.inl ⟨e', List.mem_cons_of_mem e he', h'⟩
      · rw [Map.lookup_insert_ite] at h
        split_ifs at h with hk
        · exact Or.inl ⟨e, List.mem_cons_self, Option.some.inj h, hk.symm⟩
        · exact Or.inr h
  rcases key _ _ h with ⟨e, he, h1, h2⟩ | h
  · obtain ⟨fr, hfr, he⟩ := List.mem_flatMap.1 he
    exact ⟨fr, hfr, e, he, h1, h2⟩
  · cases h

namespace Session

variable {cb : CommitCallback C H K} {rt : Runtime} {size n : ℕ} {q : ℤ} {s s' : Recorded C H K}
  {i : Input H K} {core : H → SignedEvent H K} {fs : List (Frame H K)} {fr : Frame H K}

theorem Static.traced (hcb : Static cb) : Static (traced cb) :=
  ⟨hcb.hosting.traced, fun b s => hcb.peerSetCache b ⟨s.host.1, s.hg⟩⟩

/-- The frame of a round that a call processes is as specified. -/
theorem FrameFrom.spec (hcb : Hosting cb)
    (hr : s.hg.Replica (Window.whole U.graph (keysAt ps)) SignedEvent.IsFirst size n q)
    (c : Call S rt (traced cb) (exactAnswer U.graph ps (Window.whole U.graph (keysAt ps))) ps
      (assignment U.graph ps) q s i s')
    (hb : i.event.body ∈ U.bodies) (hn : n < size)
    (hr' : s'.hg.Replica (Window.whole U.graph (keysAt ps)) SignedEvent.IsFirst size (n + 1) c.n)
    (hs' : s'.hg.Settled (Window.whole U.graph (keysAt ps)) c.n)
    (hcore : ∀ x e, s'.hg.store.eventCache.lookup x = some e → core x = e.toSignedEvent)
    (hfs : ∀ fr ∈ fs, ∃ st pre, FrameSpec U ps rt core st pre fr) (hround : fr.round ≤ c.n)
    (f : FrameFrom S rt cb c.A' q { s with hg := c.h₄ } fs fr) (hP : f.P = ps fr.round) :
    FrameSpec U ps rt core f.t.hg.store fs fr := by
  obtain ⟨m, t, info, P, hp, hledger, hlookup, hdec, hpeers, hframe⟩ := f
  change P = ps fr.round at hP
  change FrameSpec U ps rt core t.hg.store fs fr
  have hh := hcb.traced
  have hB : ∀ e : SignedEvent H K, e.body.selfParent = none → e.body.index = 0 → e.IsFirst :=
    fun e h1 h2 => ⟨h1, h2⟩
  have hA : c.A' = assignment U.graph ps :=
    c.assignment_eq hh hr hb (Window.whole_admits _) hn hB
  have hframe : FrameOf rt (assignment U.graph ps) t.hg.store.core t.hg.store (m + 1) info P fr :=
    hA ▸ hframe
  -- the session in which the frame was computed has the events and rounds of the last one
  have hg := hp.sameGraph hh.undisturbing
  obtain ⟨hec₄, hrc₄, -⟩ := c.sameGraph hh.undisturbing
  have hec : t.hg.store.eventCache = s'.hg.store.eventCache := hg.eventCache.trans hec₄.symm
  have hrc : t.hg.store.roundCache = s'.hg.store.roundCache := hg.roundCache.trans hrc₄.symm
  have hst := c.stocked_processed hh hr.wellFormed hr.stocked U.indexed hb hn hB hp
  have hkeys : ∀ x e, t.hg.store.eventCache.lookup x = some e → e.hex S = x :=
    hec ▸ hr'.wellFormed.keys
  have hco : Coordinates U.graph (U.graph.Witness (keysAt ps)) (fun _ => True)
      t.hg.store.eventCache := hec ▸ hr'.coordinates
  have hcore' : ∀ x e, t.hg.store.eventCache.lookup x = some e → core x = e.toSignedEvent :=
    hec ▸ hcore
  have hcoret : ∀ x, x ∈ t.hg.store.eventCache →
      t.hg.store.core x = core x ∧ (core x).body = U.body x ∧ (core x).hex S = x := by
    intro x hx
    obtain ⟨e, he⟩ := Map.mem_iff_lookup.1 hx
    rw [InmemStore.core_eq he, hcore' x e he]
    exact ⟨rfl, hst.body_eq hkeys he, hkeys x e he⟩
  have hrnd := hframe.round
  have hle := hledger.le
  have hinfo : s'.hg.store.roundCache.lookup fr.round = some info := by
    rw [hrnd, ← hrc]
    exact hlookup
  have hrecv := InmemStore.receivedIn_eq hinfo
  have hstored : ∀ r ≤ c.n, ∀ x, U.graph.Received (keysAt ps) middleBit r x → -1 < r →
      x ∈ t.hg.store.eventCache := by
    intro r hr x hx hr1
    rw [hec]
    exact ((hs'.accounted.all x).2 (Or.inr ⟨r, hs'.complete hr1 hr hx⟩)).1
  have hevents : fr.events =
      rt.sort FrameEvent.less (info.receivedEvents.map (frameEvent (assignment U.graph ps) core)) := by
    rw [hframe.events]
    refine congrArg _ (List.map_congr_left fun x hx => ?_)
    have hx' : x ∈ t.hg.store.eventCache :=
      hec ▸ (hr'.wellFormed.received fr.round info hinfo x hx).mem
    rw [frameEvent, frameEvent, (hcoret x hx').1]
  have hreceived : ∀ x, x ∈ info.receivedEvents ↔
      U.graph.Received (keysAt ps) middleBit fr.round x := by
    intro x
    rw [← hrecv]
    exact ⟨hs'.received, hs'.complete (show -1 < fr.round by omega) hround⟩
  refine ⟨?_, hP ▸ hframe.peers, ⟨info.receivedEvents, ?_, hreceived, hevents⟩, fun k => ?_,
    ?_, info.famousWitnesses, Map.nodup_keysWith _ _, fun w => ⟨fun hw => ?_, fun hw => ?_⟩, ?_⟩
  · have hlen := congrArg List.length hledger.rounds
    rw [List.length_map, List.length_map, List.length_range] at hlen
    omega
  · rw [← hrecv]
    exact hs'.accounted.received fr.round
  · rw [hframe.roots k]
    cases hfind : fr.events.find? fun e => decide (e.core.creator = k) with
    | some e =>
      have he := List.mem_of_find?_eq_some hfind
      have hk : e.core.creator = k := by simpa using List.find?_some hfind
      rw [hevents, rt.mem_sort] at he
      obtain ⟨x, hx, rfl⟩ := List.mem_map.1 he
      have hx' : x ∈ t.hg.store.eventCache :=
        hec ▸ (hr'.wellFormed.received fr.round info hinfo x hx).mem
      have hbody : (frameEvent (assignment U.graph ps) core x).core.body = U.body x :=
        (hcoret x hx').2.1
      simp only [hbody]
      rw [← rootOf_selfParent hkeys hst hco hcore' hx', ← hk]
      exact congrArg (fun b : EventBody H K => some (rootOf _ _ _ (Hex.encodeToString b.creator) _)) hbody
    | none =>
      have hlast : t.hg.store.lastConsensusEventFrom k = (lastEvents S fs).lookup k := by
        rw [InmemStore.lastConsensusEventFrom, hledger.lastConsensusEvents]
        rfl
      rw [← hrnd, hlast]
      cases hx : (lastEvents S fs).lookup k with
      | none => rfl
      | some x =>
        -- the last consensus event is from an earlier frame
        obtain ⟨fr', hfr', e, he, rfl, rfl⟩ := lookup_lastEvents hx
        obtain ⟨st, pre, hspec⟩ := hfs fr' hfr'
        obtain ⟨y, hy, rfl⟩ := hspec.mem_events.1 he
        have h1 := hledger.round_le hfr'
        have h2 := hspec.round
        have hy' := hstored fr'.round (by omega) y hy (by omega)
        obtain ⟨-, hbody, hhex⟩ := hcoret y hy'
        have hcr : (frameEvent (assignment U.graph ps) core y).core.creator = U.creator y :=
          congrArg (fun b : EventBody H K => Hex.encodeToString b.creator) hbody
        have hhex : (frameEvent (assignment U.graph ps) core y).core.hex S = y := hhex
        rw [hcr, hhex, rootOf_eq hkeys hst hco hcore' hy']
  · exact hframe.peerSets
  · exact (famousIn_of_mem hr'.coordinates.windowClosed hr'.wellFormed.divided hr'.fame hinfo hw).2.2
  · exact (hs'.famous hinfo hdec).2 w hw
  · rw [hframe.timestamp]
    refine congrArg _ (List.map_congr_left fun w hw => ?_)
    have hw' := (famousIn_of_mem hr'.coordinates.windowClosed hr'.wellFormed.divided hr'.fame
      hinfo hw).2.1
    obtain ⟨h1, h2, -⟩ := hcoret w (hec ▸ hw')
    rw [h1, h2]

end Session

/-! ## The order of the events -/

/-- Frames as specified, with the signed events of the universe in `core`. -/
structure Archived (U : Universe S) (ps : ℤ → PeerSet K) (rt : Runtime)
    (core : H → SignedEvent H K) (st : InmemStore H K) (fs : List (Frame H K)) : Prop where
  spec : EachAfter (FrameSpec U ps rt core st) fs
  core : ∀ fr ∈ fs, ∀ x, U.graph.Received (keysAt ps) middleBit fr.round x →
    (core x).body = U.body x ∧ (core x).hex S = x

namespace Archived

variable {rt : Runtime} {core : H → SignedEvent H K} {st : InmemStore H K}
  {pre fs : List (Frame H K)} {fr : Frame H K} {x : H}

/-- The hashes in a frame are those of the events received in its round, each once. -/
theorem hashes_perm (ha : Archived U ps rt core st fs) (hf : FrameSpec U ps rt core st pre fr)
    (hfr : fr ∈ fs) :
    ∃ xs : List H, xs.Nodup ∧
      (∀ x, x ∈ xs ↔ U.graph.Received (keysAt ps) middleBit fr.round x) ∧
      (fr.events.map fun e => e.core.hex S).Perm xs := by
  obtain ⟨xs, hnd, hxs, he⟩ := hf.events
  refine ⟨xs, hnd, hxs, ?_⟩
  rw [he]
  refine ((rt.sort_perm _ _).map _).trans ?_
  rw [List.map_map]
  refine List.Perm.of_eq ((List.map_congr_left fun x hx => ?_).trans (List.map_id xs))
  exact (ha.core fr hfr x ((hxs x).1 hx)).2

theorem mem_hashes (ha : Archived U ps rt core st fs) (hf : FrameSpec U ps rt core st pre fr)
    (hfr : fr ∈ fs) :
    (∃ e ∈ fr.events, e.core.hex S = x) ↔ U.graph.Received (keysAt ps) middleBit fr.round x := by
  obtain ⟨xs, -, hxs, hperm⟩ := ha.hashes_perm hf hfr
  rw [← hxs, ← hperm.mem_iff, List.mem_map]

/-- Within a frame, an event comes after its ancestors of the same frame. -/
theorem before_of_sAnc (ha : Archived U ps rt core st fs) (hf : FrameSpec U ps rt core st pre fr)
    (hfr : fr ∈ fs) {l l' : List (FrameEvent H K)} {e : FrameEvent H K}
    (he : fr.events = l ++ e :: l') {y : H} (hy : U.graph.SAnc (e.core.hex S) y)
    (hrecv : U.graph.Received (keysAt ps) middleBit fr.round y) :
    ∃ e' ∈ l, e'.core.hex S = y := by
  have hhex : ∀ {x}, U.graph.Received (keysAt ps) middleBit fr.round x → (core x).hex S = x :=
    fun hx => (ha.core fr hfr _ hx).2
  obtain ⟨x, hx, hex⟩ := hf.mem_events.1 (he ▸ List.mem_append_right l List.mem_cons_self)
  have hex' : e.core.hex S = x := by rw [← hex]; exact hhex hx
  have hye : frameEvent (assignment U.graph ps) core y ∈ fr.events :=
    hf.mem_events.2 ⟨y, hrecv, rfl⟩
  rw [he, List.mem_append, List.mem_cons] at hye
  rcases hye with hye | rfl | hye
  · exact ⟨_, hye, hhex hrecv⟩
  · have hyx : y = x := (hhex hrecv).symm.trans hex'
    rw [hex', hyx] at hy
    exact absurd hy (EventGraph.SAnc.irrefl x)
  · -- the sort would put the lower event first
    have hsorted : fr.events.Pairwise fun a b => b.less a = false := by
      obtain ⟨xs, -, -, hev⟩ := hf.events
      rw [hev]
      exact rt.sort_pairwise _ _ (fun _ _ => FrameEvent.less_asymm)
        fun _ _ _ => FrameEvent.not_less_trans
    rw [he, List.pairwise_append, List.pairwise_cons] at hsorted
    have hless := hsorted.2.1.1 _ hye
    rw [hex'] at hy
    rw [Bool.eq_false_iff, ne_eq, FrameEvent.less_iff, ← hex] at hless
    exact absurd (Or.inl hy.height_lt) hless

/-- An ancestor of an event is in an earlier frame, or earlier in the same one. -/
theorem ancestors_before (ha : Archived U ps rt core st fs) :
    EachAfter (fun pre fr => EachAfter (fun l e => ∀ y, U.graph.SAnc (e.core.hex S) y →
        (∃ fr' ∈ pre, ∃ e' ∈ fr'.events, e'.core.hex S = y) ∨ ∃ e' ∈ l, e'.core.hex S = y)
      fr.events) fs := by
  intro pre fr post hfs l e l' he y hy
  have hall := ha.spec
  rw [hfs] at hall
  have hf : FrameSpec U ps rt core st pre fr := hall pre fr post rfl
  have hfr : fr ∈ fs := by simp [hfs]
  have hx := (ha.mem_hashes hf hfr).1 ⟨e, he ▸ List.mem_append_right l List.mem_cons_self, rfl⟩
  obtain ⟨j, hj, hyj⟩ := hx.anc hy.anc
  rcases hj.lt_or_eq with hj | rfl
  · -- an earlier frame, the one of round `j`
    left
    have h0 := U.graph.round_nonneg (keysAt ps) y
    have hjr := hyj.round_lt
    have hround := hf.round
    have hlt : j.toNat < pre.length := by omega
    have hpre : EachAfter (FrameSpec U ps rt core st) pre := fun pre' a post' h =>
      hall pre' a (post' ++ fr :: post) (by rw [h, List.append_assoc, List.cons_append])
    have hfj := hpre.getElem hlt
    have hrj : pre[j.toNat].round = j := by
      rw [hfj.round, List.length_take]
      omega
    refine ⟨pre[j.toNat], List.getElem_mem hlt, (ha.mem_hashes hfj ?_).2 (hrj.symm ▸ hyj)⟩
    rw [hfs]
    exact List.mem_append_left _ (List.getElem_mem hlt)
  · exact Or.inr (ha.before_of_sAnc hf hfr he hy hyj)

/-- No event is in two frames, or twice in one. -/
theorem committed_once (ha : Archived U ps rt core st fs) :
    EachAfter (fun pre fr => EachAfter (fun l e => (∀ fr' ∈ pre, ∀ e' ∈ fr'.events,
        e'.core.hex S ≠ e.core.hex S) ∧ ∀ e' ∈ l, e'.core.hex S ≠ e.core.hex S)
      fr.events) fs := by
  intro pre fr post hfs l e l' he
  have hall := ha.spec
  rw [hfs] at hall
  have hf : FrameSpec U ps rt core st pre fr := hall pre fr post rfl
  have hfr : fr ∈ fs := by simp [hfs]
  have hx := (ha.mem_hashes hf hfr).1 ⟨e, he ▸ List.mem_append_right l List.mem_cons_self, rfl⟩
  refine ⟨fun fr' hfr' e' he' heq => ?_, fun e' he' heq => ?_⟩
  · obtain ⟨pre', post', rfl⟩ := List.append_of_mem hfr'
    have hf' : FrameSpec U ps rt core st pre' fr' := hall pre' fr' (post' ++ fr :: post) (by simp)
    have hx' := (ha.mem_hashes hf' (by simp [hfs])).1 ⟨e', he', heq⟩
    have h1 := hx.unique hx'
    have h2 := hf.round
    have h3 := hf'.round
    rw [List.length_append, List.length_cons] at h2
    omega
  · obtain ⟨xs, hnd, -, hperm⟩ := ha.hashes_perm hf hfr
    have hnd := hperm.nodup_iff.2 hnd
    rw [he, List.map_append, List.map_cons, List.nodup_append] at hnd
    exact hnd.2.2 _ (List.mem_map_of_mem he') _ List.mem_cons_self heq

/-- The events in the frames are events of the universe. -/
theorem grounded (ha : Archived U ps rt core st fs) {e : FrameEvent H K}
    (he : e ∈ fs.flatMap Frame.events) :
    U.Grounded (e.core.hex S) ∧ U.body (e.core.hex S) = e.core.body := by
  obtain ⟨fr, hfr, he⟩ := List.mem_flatMap.1 he
  obtain ⟨pre, hf⟩ := ha.spec.of_mem hfr
  obtain ⟨x, hx, rfl⟩ := hf.mem_events.1 he
  obtain ⟨hbody, hhex⟩ := ha.core fr hfr x hx
  have hhex : (frameEvent (assignment U.graph ps) core x).core.hex S = x := hhex
  rw [hhex]
  exact ⟨hx.mem, hbody.symm⟩

end Archived

/-! ## Runs -/

namespace StaticRun

variable {P : PeerSet K} {fs : List (Frame H K)} {x : H}

/-- The node with a record of its commits. -/
def recording (d : StaticRun C U P) : StaticRun (C × List (Block K × Session C H K)) U P :=
  { d with
    commitCallback := Session.traced d.commitCallback
    static := d.static.traced
    host := (d.host, []) }

theorem untraced_recording (d : StaticRun C U P) :
    Session.untraced d.recording.session = d.session :=
  Session.untraced_run S d.rt d.commitCallback d.recording.start d.inputs

theorem recording_hg (d : StaticRun C U P) : d.recording.session.hg = d.session.hg :=
  congrArg Session.hg d.untraced_recording

/-- The blocks that the node commits. -/
def blocks (d : StaticRun C U P) : List (Block K) :=
  (Session.commits S d.rt d.commitCallback d.start d.inputs).map Prod.fst

theorem blocks_recording (d : StaticRun C U P) : Session.blocks d.recording.session = d.blocks :=
  rfl

/-- What the node has stored after some calls is stored at the end. -/
theorem core_eq (d : StaticRun C U P) {pre : List (Session.Input H K)} (hpre : pre <+: d.inputs)
    {e : Event H K} (he : (d.upTo hpre).session.hg.store.eventCache.lookup x = some e) :
    d.session.hg.store.core x = e.toSignedEvent := by
  obtain ⟨e', he', heq⟩ := signedEvents_eq_some.1 (Session.signedEvents_mono
    (init_initial d.cacheSize P) d.rt d.static.hosting d.indexed d.noEviction hpre
    (signedEvents_eq_some.2 ⟨e, he, rfl⟩))
  rw [← heq]
  exact InmemStore.core_eq he'

/-- The peers that are on record at the start, which do not depend on the cache size. -/
theorem peerSetCache_initial (m m' : ℕ) (P : PeerSet K) :
    (Hashgraph.initial m P : Hashgraph H K).store.peerSetCache =
      (Hashgraph.initial m' P : Hashgraph H K).store.peerSetCache := by
  have hset : ∀ m, (InmemStore.new m : InmemStore H K).setPeerSet 0 P =
      .ok (Hashgraph.initial m P : Hashgraph H K).store := fun _ => rfl
  obtain ⟨psc, pec, roots, fc, hpsc, he, -⟩ := InmemStore.setPeerSet_eq (hset m)
  obtain ⟨psc', pec', roots', fc', hpsc', he', -⟩ := InmemStore.setPeerSet_eq (hset m')
  rw [he, he']
  exact Except.ok.inj (hpsc.symm.trans hpsc')

/-- The frames of the node are as specified. -/
theorem chronicle (d : StaticRun C U P) :
    ∃ fs, Session.Ledger S (d.session.hg.lastConsensusRound.getD (-1)) fs d.recording.session ∧
      EachAfter (FrameSpec U (fun _ => P) d.rt d.session.hg.store.core
        (Hashgraph.initial 0 P : Hashgraph H K).store) fs := by
  rw [← d.recording_hg]
  refine Session.run_induct (P := fun _ s => ∃ fs,
    Session.Ledger S (s.hg.lastConsensusRound.getD (-1)) fs s ∧
      EachAfter (FrameSpec U (fun _ => P) d.rt d.recording.session.hg.store.core
        (Hashgraph.initial 0 P : Hashgraph H K).store) fs) d.inputs ⟨[], ?_, EachAfter.nil _⟩ ?_
  · exact Session.ledger_init (init_initial d.cacheSize P) d.host
  rintro pre i hpre ⟨fs, hl, hfs⟩
  have hpre' : pre <+: d.inputs := (List.prefix_append pre [i]).trans hpre
  obtain ⟨q, hq, hr, hs⟩ := (d.recording.upTo hpre').settled
  have hlt := hpre.length_le.trans d.noEviction
  rw [List.length_append, List.length_singleton] at hlt
  have hb := d.bodies i (hpre.subset (by simp))
  have hB : ∀ e : SignedEvent H K, e.body.selfParent = none → e.body.index = 0 → e.IsFirst :=
    fun e h1 h2 => ⟨h1, h2⟩
  rcases Session.replica_cases (i := i) d.rt d.recording.static.hosting (hashesKeys S P) hr
    (d.recording.toNodeRun.peers pre hpre') (fun _ => hb) hlt hB with ⟨ti, he⟩ | ⟨-, ⟨c⟩⟩
  · exact ⟨fs, he.symm ▸ hl.topologicalIndex ti, hfs⟩
  have hr' := c.replica d.recording.static.hosting hr hb (Window.whole_admits _) hlt hB
  have hs' := c.settled d.recording.static.hosting hr hb (Window.whole_admits _) hlt hB
    (Window.whole_receptive (fair P)) hs
  have hl : Session.Ledger S q fs (d.recording.upTo hpre').session := by
    rw [← hq]
    exact hl
  obtain ⟨fs', hl', hframes⟩ := c.ledger d.static.hosting hl
  have hlcr := c.lastConsensusRound d.recording.static.hosting.undisturbing hq
  have hpsc : (d.recording.upTo hpre').session.hg.store.peerSetCache =
      (Hashgraph.initial 0 P : Hashgraph H K).store.peerSetCache :=
    (d.recording.static.run d.rt (Session.sound_started S d.recording.started_start _) pre).trans
      (peerSetCache_initial _ _ P)
  have hcore : ∀ x e, (Session.feed S d.rt (Session.traced d.commitCallback)
      (d.recording.upTo hpre').session i).hg.store.eventCache.lookup x = some e →
        d.recording.session.hg.store.core x = e.toSignedEvent := by
    intro x e he
    have hrun : (d.recording.upTo hpre).session = Session.feed S d.rt
        (Session.traced d.commitCallback) (d.recording.upTo hpre').session i :=
      Session.run_append_singleton ..
    exact d.recording.core_eq hpre (hrun.symm ▸ he)
  -- the new frames one by one, each after those before it
  have hspec : ∀ l, l <+: fs' → EachAfter (FrameSpec U (fun _ => P) d.rt
      d.recording.session.hg.store.core (Hashgraph.initial 0 P : Hashgraph H K).store) (fs ++ l) := by
    intro l
    induction l using List.reverseRecOn with
    | nil => exact fun _ => (List.append_nil fs).symm ▸ hfs
    | append_singleton l fr ih =>
      intro hpl
      have hl₀ := ih ((List.prefix_append l [fr]).trans hpl)
      obtain ⟨post, rfl⟩ := hpl
      obtain ⟨f⟩ := hframes l fr post (by simp)
      -- the peers on record are those of the start
      have hpsc' : f.t.hg.store.peerSetCache =
          (Hashgraph.initial 0 P : Hashgraph H K).store.peerSetCache :=
        ((d.static.traced.processed f.processed).trans c.peerSetCache₄).trans hpsc
      have hP : f.P = P := by
        have hget := f.peers
        rw [InmemStore.getPeerSet, hpsc'] at hget
        exact Except.ok.inj (hget.symm.trans
          ((Session.init_eq (init_initial (H := H) 0 P)).2.2.2.2.2.2 (f.n + 1)))
      have hmem : ∀ fr ∈ fs ++ l, ∃ st pre, FrameSpec U (fun _ => P) d.rt
          d.recording.session.hg.store.core st pre fr :=
        fun fr hfr => ⟨_, hl₀.of_mem hfr⟩
      rw [← List.append_assoc]
      exact hl₀.snoc ((f.spec d.static.hosting hr c hb hlt hr' hs' hcore hmem
        (hl'.round_le (by simp)) hP).of_peerSetCache hpsc')
  exact ⟨fs ++ fs', hlcr.symm ▸ hl', hspec fs' List.prefix_rfl⟩

/-! ## The order of the events in a run -/

theorem mem_of_received (d : StaticRun C U P) {r : ℤ} (h0 : 0 ≤ r)
    (hr : r ≤ d.session.hg.lastConsensusRound.getD (-1))
    (hx : U.graph.Received (keysAt fun _ => P) middleBit r x) :
    x ∈ d.session.hg.store.eventCache := by
  obtain ⟨q, hq, -, hs⟩ := d.settled
  exact ((hs.accounted.all x).2 (Or.inr ⟨r, hs.complete (show -1 < r by omega) (hq ▸ hr) hx⟩)).1

/-- The stored events are those of the universe. -/
theorem core_spec (d : StaticRun C U P) (hx : x ∈ d.session.hg.store.eventCache) :
    (d.session.hg.store.core x).body = U.body x ∧ (d.session.hg.store.core x).hex S = x := by
  obtain ⟨q, -, hr, -⟩ := d.settled
  obtain ⟨e, he⟩ := Map.mem_iff_lookup.1 hx
  rw [InmemStore.core_eq he]
  exact ⟨hr.stocked.body_eq hr.wellFormed.keys he, hr.wellFormed.keys x e he⟩

/-- The specification of the frames of a node. -/
abbrev Spec (d : StaticRun C U P) : List (Frame H K) → Frame H K → Prop :=
  FrameSpec U (fun _ => P) d.rt d.session.hg.store.core
    (Hashgraph.initial 0 P : Hashgraph H K).store

variable {pre : List (Frame H K)} {fr : Frame H K}

/-- Events of one creator, each after its self-parent and none twice, have the indexes from
0 on. -/
theorem indexes_eq {l : List (FrameEvent H K)} {k : K}
    (hl : EachAfter (fun pre e =>
      (∀ p, e.core.body.selfParent = some p → ∃ e' ∈ pre, e'.core.hex S = p) ∧
        ∀ e' ∈ pre, e'.core.hex S ≠ e.core.hex S) l)
    (hmem : ∀ e ∈ l, U.Grounded (e.core.hex S) ∧ U.body (e.core.hex S) = e.core.body ∧
      e.core.creator = k) :
    l.map (fun e => e.core.body.index) = (List.range l.length).map fun i : ℕ => (i : ℤ) := by
  induction l using List.reverseRecOn with
  | nil => rfl
  | append_singleton l e ih =>
    have ih := ih (fun pre b post he => hl pre b (post ++ [e]) (by simp [he]))
      fun e' he' => hmem e' (List.mem_append_left _ he')
    obtain ⟨hg, hbody, hk⟩ := hmem e (by simp)
    obtain ⟨hparent, hnew⟩ := hl l e [] rfl
    -- an index is taken if and only if it is below the number of events so far
    have htaken : ∀ i : ℤ, (∃ e' ∈ l, e'.core.body.index = i) ↔ 0 ≤ i ∧ i < l.length := by
      intro i
      rw [← List.mem_map (f := fun e : FrameEvent H K => e.core.body.index), ih, List.mem_map]
      simp only [List.mem_range]
      exact ⟨fun ⟨j, hj, hji⟩ => by omega, fun h => ⟨i.toNat, by omega, by omega⟩⟩
    have hfree : ¬e.core.body.index < l.length := by
      intro hlt
      have h0 := hg.index_nonneg
      rw [hbody] at h0
      obtain ⟨e', he', hi⟩ := (htaken _).2 ⟨h0, hlt⟩
      obtain ⟨hg', hbody', hk'⟩ := hmem e' (List.mem_append_left _ he')
      refine hnew e' he' (hg'.unique hg ?_ (by rw [hbody, hbody', hi]))
      rw [hbody, hbody']
      exact Hex.encode_injective (hk'.trans hk.symm)
    have hnext : e.core.body.index ≤ l.length := by
      cases hsp : e.core.body.selfParent with
      | none =>
        have := U.indexed.index_first _ hg.mem (by rw [hbody, hsp])
        rw [hbody] at this
        omega
      | some p =>
        obtain ⟨e', he', rfl⟩ := hparent p hsp
        have hi := hg.index_next (by rw [hbody, hsp])
        rw [hbody, (hmem e' (List.mem_append_left _ he')).2.1] at hi
        have := (htaken _).1 ⟨e', he', rfl⟩
        omega
    rw [List.map_append, ih, List.length_append, List.length_singleton, List.range_succ,
      List.map_append, List.map_singleton, List.map_singleton]
    congr 2
    omega

/-- The frames that are stored for the processed rounds, one for each. -/
theorem processedFrames_spec (d : StaticRun C U P) :
    EachAfter d.Spec d.session.hg.processedFrames ∧
      d.session.hg.processedFrames.map Frame.round =
        (List.range (d.session.hg.lastConsensusRound.getD (-1) + 1).toNat).map fun r : ℕ => (r : ℤ) := by
  obtain ⟨fs, hl, hfs⟩ := d.chronicle
  have heq := hl.processedFrames_eq (by rw [d.recording_hg])
  rw [d.recording_hg] at heq
  rw [heq]
  exact ⟨hfs, hl.rounds⟩

theorem round_le (d : StaticRun C U P) (hfr : fr ∈ d.session.hg.processedFrames) :
    fr.round ≤ d.session.hg.lastConsensusRound.getD (-1) := by
  have hmem : fr.round ∈ d.session.hg.processedFrames.map Frame.round := List.mem_map_of_mem hfr
  rw [d.processedFrames_spec.2] at hmem
  obtain ⟨r, hr, he⟩ := List.mem_map.1 hmem
  have := List.mem_range.1 hr
  omega

theorem archived (d : StaticRun C U P) : Archived U (fun _ => P) d.rt d.session.hg.store.core
    (Hashgraph.initial 0 P : Hashgraph H K).store d.session.hg.processedFrames where
  spec := d.processedFrames_spec.1
  core fr hfr x hx := by
    obtain ⟨pre, hf⟩ := d.processedFrames_spec.1.of_mem hfr
    have h0 := hf.round
    exact d.core_spec (d.mem_of_received (by omega) (d.round_le hfr) hx)

/-- An ancestor of a committed event is in an earlier frame, or earlier in the same one. -/
theorem ancestors_before (d : StaticRun C U P) :
    EachAfter (fun pre fr => EachAfter (fun l e => ∀ y, U.graph.SAnc (e.core.hex S) y →
        (∃ fr' ∈ pre, ∃ e' ∈ fr'.events, e'.core.hex S = y) ∨ ∃ e' ∈ l, e'.core.hex S = y)
      fr.events) d.session.hg.processedFrames :=
  d.archived.ancestors_before

/-- No event is in two frames, or twice in one. -/
theorem committed_once (d : StaticRun C U P) :
    EachAfter (fun pre fr => EachAfter (fun l e => (∀ fr' ∈ pre, ∀ e' ∈ fr'.events,
        e'.core.hex S ≠ e.core.hex S) ∧ ∀ e' ∈ l, e'.core.hex S ≠ e.core.hex S)
      fr.events) d.session.hg.processedFrames :=
  d.archived.committed_once

/-- The consensus events are stored events of the universe. -/
theorem consensusOrder_spec (d : StaticRun C U P) {e : FrameEvent H K}
    (he : e ∈ d.session.hg.consensusOrder) :
    U.Grounded (e.core.hex S) ∧ U.body (e.core.hex S) = e.core.body :=
  d.archived.grounded he

end StaticRun

end Babble

import Babble.Loading
import Babble.Payload

/-!
# The head follows the store

The head of a core is its last event in the store, and its sequence number is the index of
that event, after any calls of its methods, those that fail included, and after any
fast-forwards (`head_tracks`). The events that are read from others under the core's own key
must claim the index after their self-parent's, and a frame that passes the checks of a
fast-forward must be one that can be loaded.

The last condition is there because a fast-forward sets the head after the reset only. If
the reset fails halfway, then the store is cleared and the head still names the old event
(`stale_head`).
-/

set_option linter.unusedSectionVars false

namespace Babble

variable {H K : Type} [DecidableEq H] [DecidableEq K] [Hex H] [Hex K]

namespace Core

variable {S : Scheme H K} {rt : Runtime} {v : Validator} {s : Core H K} {head : Option H} {seq : ℤ}

/-- The head is set to the last event of the validator. An error means that another peer has
the validator's identifier. -/
theorem exec_setHeadAndSeq
    (ht : Tip (v.publicKeyHex : K) head seq (signedEvents s.hg.store.eventCache)
      s.hg.store.participantEventsCache)
    (hnone : v.id ∉ s.hg.store.peerSetCache.repertoireByID → head = none) :
    Exec.exec (setHeadAndSeq v) s = (.ok (), s.withHead head seq) ∨
      (v.id ∈ s.hg.store.peerSetCache.repertoireByID ∧
        s.hg.store.participantEventsCache.window (v.publicKeyHex : K) = none ∧ head = none) ∧
        ∃ err, Exec.exec (setHeadAndSeq v) s = (.error err, s) := by
  simp only [setHeadAndSeq, Exec.exec_bind, Exec.exec_get]
  cases hid : s.hg.store.peerSetCache.repertoireByID.lookup v.id with
  | none =>
    have hhead := hnone (AList.lookup_eq_none.1 hid)
    simp only [hhead, ht.seq_none hhead]
    exact Or.inl rfl
  | some p =>
    simp only [InmemStore.lastEventFrom]
    rcases ht.getLast_eq with ⟨err, herr, hhead, hwhy⟩ | ⟨x, hx, hhead⟩
    · simp only [herr]
      by_cases hempty : err.isStore .empty
      · simp only [if_pos hempty, hhead, ht.seq_none hhead]
        exact Or.inl rfl
      · simp only [if_neg hempty]
        exact Or.inr ⟨⟨Map.mem_iff_lookup.2 ⟨p, hid⟩, hwhy.resolve_left hempty, hhead⟩, err, rfl⟩
    · obtain ⟨e, he, -, hindex⟩ := ht.head_some x hhead
      obtain ⟨ev, hev, rfl⟩ := signedEvents_eq_some.1 he
      simp only [hx, Exec.exec_bind, Exec.exec_ofExcept, InmemStore.getEvent, hev]
      rw [hhead, ← hindex]
      exact Or.inl rfl

/-- The checks of a fast-forward refuse the block or the frame. -/
def Refuses (S : Scheme H K) (block : Block K) (frame : Frame H K) : Prop :=
  Hashgraph.checkBlock S block ⟨frame.peers⟩ ≠ .ok () ∨ block.body.frameHash ≠ frame.hash S

/-- A fast-forward that is refused leaves the core as it was. -/
theorem fastForward_of_refuses {block : Block K} {frame : Frame H K} (h : Refuses S block frame)
    (s : Core H K) : ∃ err, Exec.exec (fastForward S rt v block frame) s = (.error err, s) := by
  cases hc : Hashgraph.checkBlock S block ⟨frame.peers⟩ with
  | error err => exact ⟨err, exec_fastForward_of_error hc⟩
  | ok _ =>
    have hhash := h.resolve_left (not_not_intro hc)
    refine ⟨.msg "Invalid Frame Hash", ?_⟩
    rw [fastForward, Exec.exec_bind, hc, Exec.exec_ofExcept]
    simp only [if_pos hhash]
    rfl

/-- No peer of the frame has the identifier of the validator but the validator. -/
def Identified (v : Validator) (frame : Frame H K) : Prop :=
  ∀ p, frame.Lists p → p.id = v.id → p.pubKeyString = v.publicKeyHex

/-- A fast-forward that is not refused, to a frame that can be loaded, puts the head where the
last event of the validator is. -/
theorem returns_fastForward {block : Block K} {frame : Frame H K} (rt : Runtime)
    (hpass : ¬Refuses S block frame) (hf : frame.Loadable S block.body.roundReceived)
    (hid : Identified v frame) (s : Core H K) :
    Exec.Returns (fastForward S rt v block frame) s fun _ t =>
      Session.Sound S block.body.roundReceived t ∧
      Tip (v.publicKeyHex : K) t.host.head t.host.seq (signedEvents t.hg.store.eventCache)
        t.hg.store.participantEventsCache := by
  rw [Refuses, not_or, not_not, not_not] at hpass
  refine Exec.Returns.bind (Exec.returns_ofExcept hpass.1 ?_)
  rw [if_neg (not_not_intro hpass.2)]
  obtain ⟨_, h', he, st, l, h₁, hst, hmem, hl, rfl⟩ := Hashgraph.returns_reset rt hf s.hg
  refine Exec.Returns.bind ⟨(), ⟨s.host, Hashgraph.startFrom block h₁⟩, ?_, ?_⟩
  · rw [Session.exec_onHashgraph, he]
  obtain ⟨head, seq, ht⟩ := hl.tip (v.publicKeyHex : K) (Hex.toUpper_encode _)
  -- the validator is a participant if and only if its identifier is in the repertoire
  have hiff : v.id ∈ (Hashgraph.startFrom block h₁).store.peerSetCache.repertoireByID ↔
      h₁.store.participantEventsCache.window (v.publicKeyHex : K) ≠ none := by
    obtain ⟨m, st', hh, -, hpsc⟩ := hl.rest
    have hrep : (Hashgraph.startFrom block h₁).store.peerSetCache = st.peerSetCache := by
      rw [hh]
      exact hpsc
    rw [hrep, hst.repertoire, hl.window]
    refine exists_congr fun p => and_congr_right fun hp => ⟨fun hpid => ?_, fun hkey => ?_⟩
    · rw [hid p hp hpid]
      exact (Hex.toUpper_encode _).symm
    · rw [Peer.id_eq, hkey, Validator.publicKeyHex, Hex.toUpper_encode, Hex.decode_encode]
      rfl
  rcases exec_setHeadAndSeq (s := ⟨s.host, Hashgraph.startFrom block h₁⟩) ht fun hno =>
    ht.outside (not_not.1 (hiff.not.1 hno)) with hset | ⟨⟨hin, hw, -⟩, -⟩
  · refine Exec.Returns.bind ⟨(), _, hset, Exec.returns_modify ?_⟩
    exact ⟨⟨⟨_, hl.wellFormed hf hst hmem⟩, rfl⟩, ht⟩
  · exact absurd hw (hiff.1 hin)

end Core

namespace PoolCore

variable {S : Scheme H K} {rt : Runtime} {v : Validator} {app : Application K}
  {clock : ℕ → Int64} {s : PoolCore H K}

/-- A fast-forward that the claimed conditions allow : it is refused, or its frame can be
loaded. -/
def Allows (S : Scheme H K) (v : Validator) (block : Block K) (frame : Frame H K) : Prop :=
  Core.Refuses S block frame ∨
    frame.Loadable S block.body.roundReceived ∧ Core.Identified v frame

variable (S rt v) in
theorem exec_fastForward (block : Block K) (frame : Frame H K) (s : PoolCore H K) :
    ∃ loaded, (Exec.exec (fastForward S rt v block frame) s).2 =
      (⟨{ s.host with
          toCoreState := (Exec.exec (Core.fastForward S rt v block frame) (core s)).2.host
          journal := { s.host.journal with entries := s.host.journal.entries ++ loaded } },
        (Exec.exec (Core.fastForward S rt v block frame) (core s)).2.hg⟩ : PoolCore H K) ∧
      ((Exec.exec (Core.fastForward S rt v block frame) (core s)).1 = .ok () →
        loaded = (Exec.exec (Core.fastForward S rt v block frame) (core s)).2.hg.store.eventCache.toPairs.map
          fun e => .loaded e.2.toSignedEvent) := by
  simp only [fastForward, Exec.exec_bind, Exec.exec_get]
  generalize Exec.exec (Core.fastForward S rt v block frame) (core s) = res
  obtain ⟨_ | _, c⟩ := res
  · exact ⟨[], rfl, nofun⟩
  · exact ⟨_, rfl, fun _ => rfl⟩

/-- The fast-forwards that are allowed keep the head at the last own event. -/
theorem Kept.fastForward (h : Kept S v s) {block : Block K} {frame : Frame H K}
    (hallow : Allows S v block frame) :
    Kept S v (Exec.exec (fastForward S rt v block frame) s).2 := by
  obtain ⟨loaded, he, hloaded⟩ := exec_fastForward S rt v block frame s
  rw [he]
  by_cases hrefuse : Core.Refuses S block frame
  · obtain ⟨err, hc⟩ : ∃ err, Exec.exec (Core.fastForward S rt v block frame) (core s) =
        (.error err, core s) :=
      Core.fastForward_of_refuses hrefuse (core s)
    rw [hc]
    exact h.of_eq rfl rfl rfl (List.prefix_append _ _)
  · obtain ⟨hf, hid⟩ := hallow.resolve_left hrefuse
    obtain ⟨_, c, hc, hsound, htip⟩ := Core.returns_fastForward rt hrefuse hf hid (core s)
    rw [hc] at hloaded ⊢
    obtain ⟨A, hw⟩ := hsound.wellFormed
    refine ⟨⟨_, ⟨⟨A, hw⟩, hsound.lastConsensusRound⟩, htip⟩, fun x e hx => ?_⟩
    obtain ⟨ev, hev, rfl⟩ := signedEvents_eq_some.1 hx
    refine ⟨hw.keys x ev hev, .loaded ev.toSignedEvent, List.mem_append_right _ ?_, rfl⟩
    rw [hloaded rfl]
    exact List.mem_map.2 ⟨(x, ev), Map.mem_toPairs.2 hev, rfl⟩

/-! ## Runs -/

/-- A call of a method, or a fast-forward. -/
inductive Action (H K : Type)
  | call (c : Call H K)
  | fastForward (block : Block K) (frame : Frame H K)

variable (S rt v app clock) in
/-- The core after an action. Errors are left to the caller. -/
def act (s : PoolCore H K) : Action H K → PoolCore H K
  | .call c => step S rt v app clock s c
  | .fastForward block frame => (Exec.exec (fastForward S rt v block frame) s).2

/-- A new core, with its head set from the store. -/
def start (v : Validator) (peers genesis : PeerSet K) (n : ℕ) : PoolCore H K :=
  let s := new peers genesis (InmemStore.new n)
  let c := (Exec.exec (Core.setHeadAndSeq v) (core s)).2
  ⟨{ s.host with toCoreState := c.host }, c.hg⟩

theorem start_eq (S : Scheme H K) (v : Validator) (peers genesis : PeerSet K) (n : ℕ) :
    (start v peers genesis n : PoolCore H K) = new peers genesis (InmemStore.new n) := by
  have hkept := kept_new (H := H) S v n peers genesis
  obtain ⟨q, -, htip⟩ := hkept.tracked
  rw [start]
  rcases Core.exec_setHeadAndSeq (v := v) (s := core (new peers genesis (InmemStore.new n))) htip
    fun _ => rfl with he | ⟨-, err, he⟩
  · rw [he]
    rfl
  · rw [he]
    rfl

/-- The head is the last event of the validator in the store, and the sequence number is its
index. -/
structure HeadTracks (v : Validator) (s : PoolCore H K) : Prop where
  last : ∀ x, s.hg.store.lastEventFrom (v.publicKeyHex : K) = .ok x →
    s.host.head = some x ∧ ∃ e, s.hg.store.getEvent x = .ok e ∧ e.body.index = s.host.seq
  first : ∀ err, s.hg.store.lastEventFrom (v.publicKeyHex : K) = .error err →
    s.host.head = none ∧ s.host.seq = -1

theorem Kept.headTracks (h : Kept S v s) : HeadTracks v s := by
  obtain ⟨q, ht⟩ := h.tracked
  rcases ht.tip.getLast_eq with ⟨err, herr, hhead, -⟩ | ⟨x, hx, hhead⟩
  · refine ⟨fun y hy => ?_, fun _ _ => ⟨hhead, ht.tip.seq_none hhead⟩⟩
    cases herr.symm.trans hy
  · refine ⟨fun y hy => ?_, fun err herr => ?_⟩
    · obtain rfl := Except.ok.inj (hx.symm.trans hy)
      obtain ⟨e, he, -, hindex⟩ := ht.tip.head_some x hhead
      obtain ⟨ev, hev, rfl⟩ := signedEvents_eq_some.1 he
      exact ⟨hhead, ev, by simp only [InmemStore.getEvent, hev], hindex⟩
    · cases hx.symm.trans herr

/-- The self-parent of the next event is accepted. -/
theorem Kept.checkSelfParent (h : Kept S v s) {id : UInt32}
    (hid : s.hg.store.participantEventsCache.participantID (v.publicKeyHex : K) = .ok id)
    (sigs : List BlockSignature) (otherHead : Option H) (t : Int64) :
    Hashgraph.checkSelfParent s.hg.store (selfEvent S v s sigs otherHead t) = .ok () := by
  obtain ⟨q, ht⟩ := h.tracked
  have hcreator : (selfEvent S v s sigs otherHead t).creator = (v.publicKeyHex : K) := rfl
  have hparent : (selfEvent S v s sigs otherHead t).body.selfParent = s.host.head := rfl
  rw [Hashgraph.checkSelfParent, hcreator, hparent, InmemStore.lastEventFrom]
  rcases ht.tip.getLast_eq with ⟨err, herr, hhead, hwhy⟩ | ⟨x, hx, hhead⟩
  · have hempty : err.isStore .empty = true := hwhy.resolve_right fun hw => by
      rw [ht.tip.registered.window_eq_none.1 hw] at hid
      cases hid
    simp only [herr, hhead, hempty, and_self, if_true]
  · simp only [hx, hhead, if_true]

end PoolCore

namespace Sample

/-- A frame of round 3 with two events of `creator`, and the block of the frame with the
signature of `signer`. -/
def aheadFrame (signer creator : UInt8) : Frame Bytes Bytes :=
  { round := 3
    peers := [peer signer]
    roots := (∅ : Map Bytes (Root Bytes Bytes)).insert [creator]
      ⟨[⟨event 105 creator 5 (some 104) none [], 1, 5, true⟩]⟩
    events := [⟨event 106 creator 6 (some 105) none [], 2, 6, true⟩]
    peerSets := (∅ : Map ℤ (List (Peer Bytes))).insert 0 [peer signer]
    timestamp := 0 }

@[inherit_doc aheadFrame]
def aheadBlock (signer creator : UInt8) : Block Bytes :=
  (Block.fromFrame scheme 4 (aheadFrame signer creator)).setSignature
    { validator := [signer], index := 4, signature := "1|1" }

/-- The validator makes an event, is fast-forwarded to a frame and makes another event. -/
def forwarded (signer creator : UInt8) : List (PoolCore.Action Bytes Bytes) :=
  [ .call (.addSelfEvent none), .fastForward (aheadBlock signer creator) (aheadFrame signer creator),
    .call (.addSelfEvent none) ]

/-- The core after that. -/
def tracking (signer creator : UInt8) : PoolCore Bytes Bytes :=
  (forwarded signer creator).foldl (PoolCore.act scheme .plain (validator 1) echo ticking)
    (PoolCore.start (validator 1) ⟨[peer 1]⟩ ⟨[peer 1]⟩ 100)

end Sample

end Babble

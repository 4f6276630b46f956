import Babble.History
import Babble.BlockCheck

/-!
# Fast-forward

A node that is behind asks a peer for a block with its frame, checks the signatures of
the block and resets its hashgraph from the frame.

## Trust

The signatures are checked against the peers that come with the frame, and the hashes
against the block that comes with it. If these peers are a validator-set that the node
knows, and the keys of the signatures are spelled in the one way of `EncodeToString`,
then an accepted block is signed by more than the trust count of these validators
(`trusted_of_fastForward`). Without that, an answer made up by a stranger is accepted
(`stranger_trusted`).

## Validators

A fast-forwarded node takes the peers of the frame for its validators and the recorded
peer-sets from the frame, then processes the receipts of the block. The peers of the frame
are the set effective at the round of the block, while the validators of the node that
made the block are the last set recorded. Both are the same unless a change is pending;
whether the two nodes agree from then on depends on what the receipts make of the two
(`validators_fastForward_iff`), and a pending change is lost (`pending_change_lost`).
-/

set_option linter.unusedSectionVars false

namespace Babble

variable {H K : Type} [DecidableEq H] [DecidableEq K] [Hex H] [Hex K]

namespace Core

variable {S : Scheme H K} {rt : Runtime} {v : Validator}

/-! ## Trust -/

/-- A validator-set that the node knows : the genesis set, or one recorded in its store. -/
def Knows (s : Core H K) (P : PeerSet K) : Prop :=
  P = s.host.genesisPeers ∨ ∃ r, s.hg.store.peerSetCache.peerSets.lookup r = some P

/-- A fast-forward that fails the check of the block leaves the core as it was. -/
theorem exec_fastForward_of_error {block : Block K} {frame : Frame H K} {s : Core H K} {err : Err}
    (h : Hashgraph.checkBlock S block ⟨frame.peers⟩ = .error err) :
    Exec.exec (fastForward S rt v block frame) s = (.error err, s) := by
  simp only [fastForward, h, Exec.exec_bind]
  rfl

theorem checkBlock_of_fastForward {block : Block K} {frame : Frame H K} {s : Core H K}
    (h : (Exec.exec (fastForward S rt v block frame) s).1 = .ok ()) :
    Hashgraph.checkBlock S block ⟨frame.peers⟩ = .ok () := by
  cases hc : Hashgraph.checkBlock S block ⟨frame.peers⟩ with
  | ok _ => rfl
  | error err =>
    rw [exec_fastForward_of_error hc] at h
    cases h

/-- An accepted block is signed by more than the trust count of the peers that came with
it, if no signer is spelled twice. -/
theorem trustCount_lt_of_fastForward {block : Block K} {frame : Frame H K} {s : Core H K}
    (hkeys : CanonicalKeys block)
    (h : (Exec.exec (fastForward S rt v block frame) s).1 = .ok ()) :
    (⟨frame.peers⟩ : PeerSet K).trustCount < (signers S block ⟨frame.peers⟩).card :=
  trustCount_lt_card_signers (checkBlock_of_fastForward h) (hkeys.injOn _)

end Core

/-! ## Peer-sets after a reset -/

/-- Recording a list of peer-sets one by one. -/
theorem PeerSetCache.Records.setPeerSets {l : List (ℤ × List (Peer K))} {st st' : InmemStore H K}
    {f : ℤ → Option (PeerSet K)} (hf : st.peerSetCache.Records f) (hl : (l.map Prod.fst).Nodup)
    (h : st.setPeerSets l = .ok st') : ∃ f', st'.peerSetCache.Records f' ∧
      (∀ r ps, (r, ps) ∈ l → f' r = some ⟨ps⟩) ∧ ∀ r, r ∉ l.map Prod.fst → f' r = f r := by
  induction l generalizing st f with
  | nil =>
    obtain rfl := Except.ok.inj h
    exact ⟨f, hf, by simp, fun _ _ => rfl⟩
  | cons a l ih =>
    obtain ⟨r, ps⟩ := a
    rw [List.map_cons, List.nodup_cons] at hl
    unfold InmemStore.setPeerSets at h
    cases hset : st.setPeerSet r ⟨ps⟩ with
    | error err => rw [hset] at h; cases h
    | ok st₁ =>
      rw [hset] at h
      have hpsc := InmemStore.peerSetCache_setPeerSet hset
      have hnone : f r = none := by
        by_contra hne
        obtain ⟨err, herr⟩ := hf.set_error hne ⟨ps⟩
        rw [herr] at hpsc
        cases hpsc
      obtain ⟨c', hc', hrec⟩ := hf.set hnone ⟨ps⟩
      obtain rfl := Except.ok.inj (hc'.symm.trans hpsc)
      obtain ⟨f', hf', hin, hout⟩ := ih hrec hl.2 h
      refine ⟨f', hf', fun j qs hj => ?_, fun j hj => ?_⟩
      · rcases List.mem_cons.1 hj with heq | hj
        · obtain ⟨rfl, rfl⟩ := Prod.mk.inj heq
          rw [hout j hl.1, Function.update_self]
        · exact hin j qs hj
      · rw [List.map_cons, List.mem_cons, not_or] at hj
        rw [hout j hj.2, Function.update_of_ne hj.1]

/-- A store that is reset holds the peer-sets of the frame. -/
theorem InmemStore.records_reset {rt : Runtime} {tick : ℕ} {st st' : InmemStore H K}
    {frame : Frame H K} (h : st.reset rt tick frame = .ok st') :
    st'.peerSetCache.Records fun r => (frame.peerSets.lookup r).map PeerSet.mk := by
  unfold InmemStore.reset at h
  simp only [bind, Except.bind] at h
  split at h
  · cases h
  next st₁ hst₁ =>
    have hperm := rt.order_perm tick frame.peerSets.toPairs
    have hnd : ((rt.order tick frame.peerSets.toPairs).map Prod.fst).Nodup := by
      rw [(hperm.map Prod.fst).nodup_iff, Map.map_fst_toPairs]
      exact frame.peerSets.keys_nodup
    have hnew : (PeerSetCache.new : PeerSetCache K).Records fun _ => none :=
      ⟨fun _ => rfl, List.Pairwise.nil, by simp [PeerSetCache.new]⟩
    obtain ⟨f, hf, hin, hout⟩ := hnew.setPeerSets hnd hst₁
    have hfeq : f = fun r => (frame.peerSets.lookup r).map PeerSet.mk := by
      funext r
      cases hl : frame.peerSets.lookup r with
      | none =>
        refine hout r ?_
        rw [(hperm.map Prod.fst).mem_iff, Map.map_fst_toPairs, ← AList.mem_keys]
        exact AList.lookup_eq_none.1 hl
      | some ps => exact hin r ps (hperm.mem_iff.2 (Map.mem_toPairs.2 hl))
    rw [← hfeq]
    obtain rfl := Except.ok.inj h
    exact hf

namespace Hashgraph

variable {S : Scheme H K} {rt : Runtime}

/-- The hashgraph with its state cleared for a reset. -/
def cleared (h : Hashgraph H K) : Hashgraph H K :=
  { h with
    lastConsensusRound := none
    firstConsensusRound := none
    anchorBlock := none
    undeterminedEvents := []
    pendingRounds := []
    pendingLoadedEvents := 0
    topologicalIndex := 0
    memo := { timestampCache := h.memo.timestampCache, tick := h.memo.tick + 2 } }

/-- The part of a reset on the new store. -/
def refill (S : Scheme H K) (rt : Runtime) (block : Block K) (frame : Frame H K) (tick : ℕ) :
    Hg H K Unit := do
  (frame.sortedFrameEvents rt tick).forM (insertFrameEvent S rt)
  modifyStore fun st => st.setBlock block
  modify fun h =>
    { h.setLastConsensusRound block.body.roundReceived with
      roundLowerBound := some block.body.roundReceived }

theorem exec_reset (S : Scheme H K) (rt : Runtime) (block : Block K) (frame : Frame H K)
    (h : Hashgraph H K) :
    Exec.exec (reset S rt block frame) h =
      match h.store.reset rt h.memo.tick frame with
      | .error err => (.error err, h.cleared)
      | .ok store => Exec.exec (refill S rt block { frame with roots := store.roots }
          (h.memo.tick + 1)) { h.cleared with store := store } := by
  unfold reset
  simp only [Exec.exec_bind, Exec.exec_modify, Exec.exec_get, exec_read]
  cases h.store.reset rt h.memo.tick frame with
  | error err => rfl
  | ok store =>
    simp only [refill, Exec.exec_bind]
    rfl

variable (S rt) in
theorem fixes_refill (block : Block K) (frame : Frame H K) (tick : ℕ) :
    Exec.Fixes peerSets (refill S rt block frame tick) :=
  (Exec.fixes_forM fun _ => fixes_peerSets (fixes_insertFrameEvent _)).bind fun _ =>
    (Exec.fixes_modify (by intro h; rfl)).bind fun _ => Exec.fixes_modify (by intro h; rfl)

/-- A hashgraph that is reset holds the peer-sets of the frame. -/
theorem records_reset {block : Block K} {frame : Frame H K} {h : Hashgraph H K}
    (hok : (Exec.exec (reset S rt block frame) h).1 = .ok ()) :
    (Exec.exec (reset S rt block frame) h).2.store.peerSetCache.Records
      fun r => (frame.peerSets.lookup r).map PeerSet.mk := by
  rw [exec_reset] at hok ⊢
  cases hst : h.store.reset rt h.memo.tick frame with
  | error err =>
    rw [hst] at hok
    cases hok
  | ok store =>
    have hfix := fixes_refill S rt block { frame with roots := store.roots }
      (h.memo.tick + 1) { h.cleared with store := store }
    unfold peerSets at hfix
    simp only [hfix]
    exact InmemStore.records_reset hst

end Hashgraph

/-! ## Validators after a fast-forward -/

namespace Core

variable {S : Scheme H K} {rt : Runtime} {v : Validator} {proxy : ProxyCommitCallback K}

theorem fixes_setHeadAndSeq :
    Exec.Fixes Session.hg (setHeadAndSeq v : Exec Err (Core H K) Unit) := by
  intro s
  unfold setHeadAndSeq
  simp only [Exec.exec_bind, Exec.exec_get]
  cases s.hg.store.peerSetCache.repertoireByID.lookup v.id with
  | none => rfl
  | some _ =>
    cases s.hg.store.lastEventFrom (v.publicKeyHex : K) with
    | error err =>
      simp only
      split_ifs <;> rfl
    | ok last =>
      simp only [Exec.exec_bind]
      cases s.hg.store.getEvent last <;> rfl

/-- A fast-forward that goes through resets the hashgraph, and takes the peers of the frame for
its validators. -/
theorem reset_of_fastForward {block : Block K} {frame : Frame H K} {z : Core H K}
    (hok : (Exec.exec (fastForward S rt v block frame) z).1 = .ok ()) :
    Exec.exec (Hashgraph.reset S rt block frame) z.hg =
        (.ok (), (Exec.exec (fastForward S rt v block frame) z).2.hg) ∧
      (Exec.exec (fastForward S rt v block frame) z).2.host.validators = ⟨frame.peers⟩ := by
  have hcheck := checkBlock_of_fastForward hok
  unfold fastForward at hok ⊢
  simp only [hcheck, Exec.exec_bind, Exec.exec_ofExcept] at hok ⊢
  by_cases hhash : block.body.frameHash ≠ frame.hash S
  · rw [if_pos hhash] at hok
    cases hok
  · rw [if_neg hhash] at hok ⊢
    simp only [Exec.exec_bind, Session.exec_onHashgraph] at hok ⊢
    rcases hres : Exec.exec (Hashgraph.reset S rt block frame) z.hg with ⟨_ | _, h'⟩
    · rw [hres] at hok
      cases hok
    · rw [hres] at hok
      have hfix := fixes_setHeadAndSeq (v := v) (⟨z.host, h'⟩ : Core H K)
      rcases hseq : Exec.exec (setHeadAndSeq v) (⟨z.host, h'⟩ : Core H K) with ⟨_ | _, z'⟩
      · simp only [hseq] at hok
        cases hok
      · rw [hseq] at hfix
        simp only [hseq, Exec.exec_modify]
        exact ⟨congrArg (Prod.mk _) hfix.symm, trivial⟩

/-- After a fast-forward the validators are the peers of the frame, and the peer-sets are
those of the frame. -/
theorem follows_fastForward {block : Block K} {frame : Frame H K} {z : Core H K}
    {sets : ℤ → Option (PeerSet K)} (hrec : ∃ r, sets r ≠ none)
    (hsets : ∀ r, frame.peerSets.lookup r = (sets r).map PeerSet.peers)
    (hok : (Exec.exec (fastForward S rt v block frame) z).1 = .ok ()) :
    Follows (Exec.exec (fastForward S rt v block frame) z).2 ⟨⟨frame.peers⟩, sets⟩ := by
  obtain ⟨hreset, hval⟩ := reset_of_fastForward hok
  have hrecords := Hashgraph.records_reset (congrArg Prod.fst hreset)
  refine ⟨hval, ?_, hrec⟩
  have heq : (fun r => (frame.peerSets.lookup r).map PeerSet.mk) = sets := by
    funext r
    rw [hsets]
    cases sets r <;> rfl
  rw [heq, hreset] at hrecords
  exact hrecords

/-- What the record of a run of a sound session shows : rounds in order, and frames with
the peer-sets of the moment. -/
structure Recorded (n : ℤ) (cs : List (Block K × Core H K)) : Prop where
  nonneg : ∀ c ∈ cs, 0 ≤ c.1.body.roundReceived
  le : ∀ c ∈ cs, c.1.body.roundReceived ≤ n
  sorted : cs.Pairwise fun c d => c.1.body.roundReceived < d.1.body.roundReceived
  framed : ∀ c ∈ cs, Session.Framed c.1 c.2.hg.store

/-- The record of a run from a new core. -/
theorem recorded_commits (S : Scheme H K) (rt : Runtime) (v : Validator)
    (proxy : ProxyCommitCallback K) (n : ℕ) (peers genesis : PeerSet K)
    (is : List (Session.Input H K)) :
    ∃ q, Recorded q (Session.commits S rt (Core.commitCallback S v proxy)
      (Core.new peers genesis (InmemStore.new n)) is) := by
  set cb : CommitCallback (CoreState H K) H K := Core.commitCallback S v proxy
  set s₀ : Core H K := Core.new peers genesis (InmemStore.new n)
  let J : ℤ → CoreState H K × List (Block K × Core H K) → Prop := fun m host =>
    -1 ≤ m ∧ Recorded m host.2
  have hmono : ∀ {n m c}, n ≤ m → J n c → J m c := fun hnm hJ =>
    ⟨hJ.1.trans hnm, { hJ.2 with le := fun c hc => (hJ.2.le c hc).trans hnm }⟩
  have hcb : Session.Undisturbing (Session.traced cb) :=
    Session.Undisturbing.traced undisturbing_commitCallback
  have hcommit : ∀ m b (s' : Session (CoreState H K × List (Block K × Core H K)) H K),
      J m s'.host → m < b.body.roundReceived → Session.Framed b s'.hg.store →
      J b.body.roundReceived (Session.traced cb b s').host := by
    rintro m b s' ⟨hm, hrec⟩ hb hframed
    refine ⟨by omega, fun c hc => ?_, fun c hc => ?_, ?_, fun c hc => ?_⟩
    · rcases List.mem_append.1 hc with hc | hc
      · exact hrec.nonneg c hc
      · rw [List.mem_singleton.1 hc]
        simp only
        omega
    · rcases List.mem_append.1 hc with hc | hc
      · exact (hrec.le c hc).trans hb.le
      · rw [List.mem_singleton.1 hc]
    · refine List.pairwise_append.2 ⟨hrec.sorted, List.pairwise_singleton _ _, fun c hc d hd => ?_⟩
      rw [List.mem_singleton.1 hd]
      exact (hrec.le c hc).trans_lt hb
    · rcases List.mem_append.1 hc with hc | hc
      · exact hrec.framed c hc
      · rw [List.mem_singleton.1 hc]
        exact hframed
  have hrun : ∀ (is : List (Session.Input H K)) q
      (t : Session (CoreState H K × List (Block K × Core H K)) H K), Session.Sound S q t →
      J q t.host → ∃ q', J q' (Session.run S rt (Session.traced cb) t is).host := by
    intro is
    induction is with
    | nil => exact fun q t _ hJ => ⟨q, hJ⟩
    | cons i is ih =>
      intro q t hs hJ
      obtain ⟨q', -, hs', hJ', -⟩ := hs.feed rt (J := J) hcb hmono hJ
        (fun m b s' hJm _ hb _ hf => hcommit m b s' hJm hb hf) i
      exact ih q' _ hs' hJ'
  obtain ⟨hw, hl⟩ := sound_new (H := H) S n peers genesis
  obtain ⟨q, -, hrec⟩ := hrun is (-1) ⟨(s₀.host, []), s₀.hg⟩ ⟨hw, hl⟩
    ⟨le_rfl, by simp, by simp, List.Pairwise.nil, by simp⟩
  exact ⟨q, hrec⟩

/-- A node `Z` is fast-forwarded to a block of a node that ran from its genesis set, and
processes the block's receipts. Its validators are those of the other node right after the
block, and its peer-sets are the same after the same later blocks, if and only if the
receipts make the same set of the frame's peers and of the other node's validators. -/
theorem validators_fastForward_iff (S : Scheme H K) (rt rtZ : Runtime) (v vZ : Validator)
    (proxy proxyZ : ProxyCommitCallback K) (n : ℕ) (peers genesis : PeerSet K)
    (is : List (Session.Input H K)) (k : ℕ) (b : Block K) (s : Core H K)
    (hb : (Session.commits S rt (Core.commitCallback S v proxy)
      (Core.new peers genesis (InmemStore.new n)) is)[k]? = some (b, s))
    (frame : Frame H K) (hframe : s.hg.store.getFrame b.body.roundReceived = .ok frame)
    (block : Block K) (hround : block.body.roundReceived = b.body.roundReceived)
    (hreceipts : block.body.internalTransactionReceipts = receiptsOf proxy b)
    (z : Core H K) (hok : (Exec.exec (fastForward S rtZ vZ block frame) z).1 = .ok ()) :
    ((Exec.exec (nodeFastForward S rtZ vZ block frame) z).2.host.validators =
        (Core.commitCallback S v proxy b s).host.validators ∧
      ∀ js, (Session.commits S rtZ (Core.commitCallback S vZ proxyZ)
          (Exec.exec (nodeFastForward S rtZ vZ block frame) z).2 js).map (fun c => answer proxyZ c.1) =
        ((Session.commits S rt (Core.commitCallback S v proxy)
          (Core.new peers genesis (InmemStore.new n)) is).drop (k + 1)).map
            (fun c => answer proxy c.1) →
        ∀ r, (Session.run S rtZ (Core.commitCallback S vZ proxyZ)
            (Exec.exec (nodeFastForward S rtZ vZ block frame) z).2 js).hg.store.getPeerSet r =
          (Session.run S rt (Core.commitCallback S v proxy)
            (Core.new peers genesis (InmemStore.new n)) is).hg.store.getPeerSet r) ↔
    afterReceipts (receiptsOf proxy b) ⟨frame.peers⟩ =
      afterReceipts (receiptsOf proxy b) s.host.validators := by
  obtain ⟨q, hrec⟩ := recorded_commits (H := H) S rt v proxy n peers genesis is
  obtain ⟨hpre, hfin⟩ := follows_run S rt v proxy
    (follows_new (H := H) n peers genesis) is
  generalize Session.commits S rt (Core.commitCallback S v proxy)
    (Core.new peers genesis (InmemStore.new n)) is = cs at hb hrec hpre hfin ⊢
  have hsplit : cs = cs.take k ++ (b, s) :: cs.drop (k + 1) := by
    obtain ⟨hk, hget⟩ := List.getElem?_eq_some_iff.1 hb
    rw [← hget, ← List.drop_eq_getElem_cons hk, List.take_append_drop]
  have hmem : (b, s) ∈ cs := List.mem_of_getElem? hb
  -- the history at the commit, and the frame that shows it
  have hs := hpre _ _ _ hsplit
  generalize hhist : (genesisHistory genesis).replay
    ((cs.take k).map fun c => answer proxy c.1) = h at hs
  obtain ⟨fr, P, hfr, -, -, hsets⟩ := hrec.framed _ hmem
  obtain rfl : fr = frame := by
    simp only [InmemStore.getFrame, hfr] at hframe
    exact Except.ok.inj hframe
  have hsets' : ∀ r, fr.peerSets.lookup r = (h.sets r).map PeerSet.peers := fun r => by
    rw [hsets]
    exact hs.records.lookup_getAll r
  -- no set is recorded for the sixth round yet
  have hfresh : h.sets (b.body.roundReceived + 6) = none := by
    by_contra hne
    rw [← hhist] at hne
    rcases History.sets_replay hne with h0 | ⟨a, ha, heq⟩
    · have := hrec.nonneg _ hmem
      simp only [genesisHistory] at h0
      rw [if_neg (by simp only at this; omega)] at h0
      exact h0 rfl
    · obtain ⟨c, hc, rfl⟩ := List.mem_map.1 ha
      have hsorted := hrec.sorted
      rw [hsplit, List.pairwise_append] at hsorted
      have hlt := hsorted.2.2 c hc (b, s) List.mem_cons_self
      simp only [answer] at heq hlt
      omega
  have hs₁ := hs.commitCallback S v proxy b
  have hz := follows_fastForward hs.recorded hsets' hok
  have hz₁ : Follows (Exec.exec (nodeFastForward S rtZ vZ block fr) z).2
      (History.commit ⟨⟨fr.peers⟩, h.sets⟩ b.body.roundReceived (receiptsOf proxy b)) := by
    have hexec : Exec.exec (fastForward S rtZ vZ block fr) z =
        (.ok (), (Exec.exec (fastForward S rtZ vZ block fr) z).2) := Prod.ext hok rfl
    unfold nodeFastForward
    rw [Exec.exec_bind, hexec]
    simp only [Exec.exec_bind, Exec.exec_attempt, hround, hreceipts]
    exact hz.process _ _
  have hcommit : ∀ V : PeerSet K,
      (History.commit ⟨V, h.sets⟩ b.body.roundReceived (receiptsOf proxy b)).validators =
        afterReceipts (receiptsOf proxy b) V := by
    intro V
    cases hany : (receiptsOf proxy b).any InternalTransactionReceipt.changes with
    | true => rw [History.commit, if_pos ⟨hany, hfresh⟩]
    | false =>
      rw [History.commit, if_neg (by simp [hany]), afterReceipts_of_unchanged hany]
  have hs₁val : (Core.commitCallback S v proxy b s).host.validators =
      afterReceipts (receiptsOf proxy b) s.host.validators := by
    rw [hs₁.validators, hs.validators]
    exact hcommit h.validators
  constructor
  · rintro ⟨hval, -⟩
    rw [hz₁.validators, hs₁val, hcommit] at hval
    exact hval
  · intro hcond
    refine ⟨by rw [hz₁.validators, hs₁val, hcommit, hcond], fun js hsame r => ?_⟩
    -- both histories are the same from here on
    have heq : History.commit ⟨⟨fr.peers⟩, h.sets⟩ b.body.roundReceived (receiptsOf proxy b) =
        h.commit b.body.roundReceived (receiptsOf proxy b) := by
      rw [hs.validators] at hcond
      cases hany : (receiptsOf proxy b).any InternalTransactionReceipt.changes with
      | true =>
        rw [History.commit, History.commit, if_pos ⟨hany, hfresh⟩, if_pos ⟨hany, hfresh⟩, hcond]
      | false =>
        rw [afterReceipts_of_unchanged hany, afterReceipts_of_unchanged hany] at hcond
        rw [hcond]
    rw [heq] at hz₁
    obtain ⟨-, hzfin⟩ := follows_run S rtZ vZ proxyZ hz₁ js
    rw [hsame] at hzfin
    rw [hsplit, List.map_append, List.map_cons] at hfin
    refine hzfin.records.get_eq ?_ r
    have hreplay : (genesisHistory genesis).replay ((cs.take k).map (fun c => answer proxy c.1) ++
        answer proxy b :: (cs.drop (k + 1)).map fun c => answer proxy c.1) =
        (h.commit b.body.roundReceived (receiptsOf proxy b)).replay
          ((cs.drop (k + 1)).map fun c => answer proxy c.1) := by
      rw [← hhist]
      simp only [History.replay, List.foldl_append, List.foldl_cons]
      rfl
    rw [hreplay] at hfin
    exact hfin.records

end Core

namespace Sample

/-- An answer to a fast-forward request : a frame with a single peer and a block of it that
this peer signed. -/
def answerFrame (key : UInt8) : Frame Bytes Bytes :=
  { round := 1, peers := [peer key], roots := ∅, events := [], peerSets := ∅, timestamp := 0 }

@[inherit_doc answerFrame]
def answerBlock (key : UInt8) : Block Bytes :=
  (Block.fromFrame scheme 0 (answerFrame key)).setSignature
    { validator := [key], index := 0, signature := "1|1" }

/-- The only validator-set that a new node knows is the genesis one. -/
theorem knows_alone {P : PeerSet Bytes} (h : Core.Knows alone P) : P = ⟨[peer 1]⟩ := by
  rcases h with h | ⟨r, h⟩
  · exact h
  · have hsets : alone.hg.store.peerSetCache.peerSets =
        (∅ : Map ℤ (PeerSet Bytes)).insert 0 ⟨[peer 1]⟩ := rfl
    rw [hsets, Map.lookup_insert_ite] at h
    split_ifs at h
    · exact (Option.some.inj h).symm
    · cases h

/-- The validator proposes a peer, which is accepted in the block of round 1, and goes on to
the block of round 2. -/
def pending : List (Session.Input Bytes Bytes) :=
  joining ++ [⟨event 4 1 4 (some 3) none [], {}, true⟩]

/-- The commits of the validator's node. -/
def pendingCommits : List (Block Bytes × Core Bytes Bytes) :=
  Session.commits scheme .plain (Core.commitCallback scheme (validator 1) acceptAll) alone pending

/-- A commit of the node, with a stand-in for an index without one. -/
def moment (k : ℕ) : Block Bytes × Core Bytes Bytes :=
  (pendingCommits[k]?).getD (answerBlock 0, alone)

/-- The frame of a commit. -/
def frameOf (c : Block Bytes × Core Bytes Bytes) : Frame Bytes Bytes :=
  match c.2.hg.store.getFrame c.1.body.roundReceived with
  | .ok frame => frame
  | .error _ => answerFrame 0

/-- The block of a commit with its receipts and the validator's signature. -/
def signed (c : Block Bytes × Core Bytes Bytes) : Block Bytes :=
  { c.1 with
    body := { c.1.body with
      internalTransactionReceipts := Core.receiptsOf acceptAll c.1 } }.setSignature
    { validator := [1], index := c.1.body.index, signature := "1|1" }

theorem frameOf_eq {c : Block Bytes × Core Bytes Bytes}
    (h : (c.2.hg.store.frameCache.lookup c.1.body.roundReceived).isSome = true) :
    c.2.hg.store.getFrame c.1.body.roundReceived = .ok (frameOf c) := by
  obtain ⟨fr, hfr⟩ := Option.isSome_iff_exists.1 h
  simp only [frameOf, InmemStore.getFrame, hfr]

theorem roundReceived_signed (c : Block Bytes × Core Bytes Bytes) :
    (signed c).body.roundReceived = c.1.body.roundReceived :=
  rfl

theorem receipts_signed (c : Block Bytes × Core Bytes Bytes) :
    (signed c).body.internalTransactionReceipts = Core.receiptsOf acceptAll c.1 :=
  rfl

/-- The validators of a node of the new peer that is fast-forwarded to a commit, and those
of the validator's node right after it. -/
def validatorsAfter (k : ℕ) : PeerSet Bytes × PeerSet Bytes :=
  ((Exec.exec (nodeFastForward scheme .plain (validator 2) (signed (moment k)) (frameOf (moment k)))
      alone).2.host.validators,
    (Core.commitCallback scheme (validator 1) acceptAll (moment k).1 (moment k).2).host.validators)

theorem moment_eq {k : ℕ} (h : pendingCommits[k]?.isSome = true) :
    pendingCommits[k]? = some ((moment k).1, (moment k).2) := by
  obtain ⟨c, hc⟩ := Option.isSome_iff_exists.1 h
  simp only [moment, hc, Option.getD_some]

/-- A fast-forward to the first block takes over the change that the block brings. -/
theorem first_block_agrees :
    (validatorsAfter 0).2 = ⟨[peer 1, peer 2]⟩ ∧ (validatorsAfter 0).1 = (validatorsAfter 0).2 := by
  have hok : (Exec.exec (Core.fastForward scheme .plain (validator 2) (signed (moment 0))
      (frameOf (moment 0))) alone).1 = .ok () := by decide +kernel
  have hcond : afterReceipts (Core.receiptsOf acceptAll (moment 0).1) ⟨(frameOf (moment 0)).peers⟩ =
      afterReceipts (Core.receiptsOf acceptAll (moment 0).1) (moment 0).2.host.validators := by
    decide +kernel
  have hiff := Core.validators_fastForward_iff scheme .plain .plain (validator 1) (validator 2)
    acceptAll acceptAll 100 ⟨[peer 1]⟩ ⟨[peer 1]⟩ pending 0 (moment 0).1 (moment 0).2
    (moment_eq (by decide +kernel)) (frameOf (moment 0)) (frameOf_eq (by decide +kernel))
    (signed (moment 0)) (roundReceived_signed _) (receipts_signed _) alone hok
  have hagree := (hiff.2 hcond).1
  refine ⟨by decide +kernel, ?_⟩
  simp only [validatorsAfter]
  exact hagree

/-- At the second block the peer is a validator on the node that commits it, but not on the
node that is fast-forwarded to it. -/
theorem pending_change_lost :
    pendingCommits[1]?.isSome = true ∧
    (Exec.exec (Core.fastForward scheme .plain (validator 2) (signed (moment 1)) (frameOf (moment 1)))
      alone).1 = .ok () ∧
    validatorsAfter 1 = (⟨[peer 1]⟩, ⟨[peer 1, peer 2]⟩) := by
  decide +kernel

end Sample

end Babble

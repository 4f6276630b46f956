import Babble.Sample
import Babble.Calls

/-!
# The six rounds before a change of membership

A block received in round `R` that accepts a join or a leave makes `core` record a new
peer-set for round `R + 6`. The change is retroactive if some event has a round from
`R + 6` on by then.

In every run the rounds are committed in order and the last round grows by one at most
per call. So the change is ahead of all events if, before each call, the last round is at
most five above the last consensus round (`lastRound_lt_of_run`). Nothing in the source
enforces that : with a single validator that removes others again, fame is decided late
enough for a round to be six above (`retroactive_change`).
-/

set_option linter.unusedSectionVars false

namespace Babble

variable {C H K : Type} [DecidableEq H] [DecidableEq K] [Hex H] [Hex K]

/-! ## What `commit` changes -/

/-- The anchor is moved or stays. -/
theorem Hashgraph.relates_setAnchorBlock {r : Hashgraph H K → Hashgraph H K → Prop}
    (hrefl : ∀ h, r h h) (hanchor : ∀ h a, r h { h with anchorBlock := a }) (block : Block K) :
    Exec.Relates r (setAnchorBlock block) := by
  intro h
  rw [setAnchorBlock, Exec.exec_bind, exec_read]
  cases h.store.getPeerSet block.body.roundReceived with
  | error err => exact hrefl h
  | ok P =>
    simp only [Exec.exec_modify]
    split_ifs
    · exact hanchor h _
    · exact hrefl h

namespace Core

variable {S : Scheme H K} {v : Validator} {proxy : ProxyCommitCallback K}

/-- A relation that holds across everything that the commit of a block does to a core : it
changes fields of the host besides the head, stores the block again, moves the anchor, and
records a peer-set for the sixth round after the round-received. -/
structure Across (b : Block K) (r : Core H K → Core H K → Prop) : Prop where
  refl : ∀ s, r s s
  trans : ∀ {s s' s''}, r s s' → r s' s'' → r s s''
  host : ∀ s c, c.head = s.host.head → c.seq = s.host.seq → r s { s with host := c }
  block : ∀ s b', b'.body.index = b.body.index → r s (setBlock b' s)
  anchor : ∀ s a, r s { s with hg := { s.hg with anchorBlock := a } }
  peerSet : ∀ s P st, s.hg.store.setPeerSet (b.body.roundReceived + 6) P = .ok st →
    r s { s with hg := { s.hg with store := st } }

variable {b : Block K} {r : Core H K → Core H K → Prop}

theorem Across.read (h : Across b r) {α : Type} (f : InmemStore H K → Except Err α) :
    Exec.Relates r (Session.onHashgraph (Hashgraph.read f)) := by
  intro s
  rw [Session.exec_onHashgraph, Hashgraph.exec_read]
  exact h.refl s

theorem Across.setAnchorBlock (h : Across b r) (block : Block K) :
    Exec.Relates r (Session.onHashgraph (Hashgraph.setAnchorBlock block)) := by
  intro s
  rw [Session.exec_onHashgraph]
  exact Hashgraph.relates_setAnchorBlock (r := fun h h' => r ⟨s.host, h⟩ ⟨s.host, h'⟩)
    (fun _ => h.refl _) (fun _ a => h.anchor _ a) block s.hg

theorem Across.processAcceptedInternalTransactions (h : Across b r)
    (receipts : List (InternalTransactionReceipt K)) :
    Exec.Relates r (processAcceptedInternalTransactions v b.body.roundReceived receipts) := by
  refine Exec.Relates.bind h.trans h.refl fun s₀ => ?_
  refine Exec.Relates.bind h.trans (Exec.relates_modify fun s => h.host s _ rfl rfl) fun _ => ?_
  split_ifs
  · refine Exec.Relates.bind h.trans (Exec.relates_modify fun s => h.host s _ rfl rfl) fun _ => ?_
    refine Exec.Relates.bind h.trans (fun s => ?_) fun _ => Exec.relates_modify fun s => h.host s _ rfl rfl
    rw [Session.exec_onHashgraph]
    cases hs : s.hg.store.setPeerSet (b.body.roundReceived + 6) _ with
    | error err =>
      rw [Hashgraph.exec_tryStore_error hs]
      exact h.refl s
    | ok st =>
      simp only [Hashgraph.tryStore, Exec.exec_bind, Exec.exec_get, hs, Exec.exec_set]
      exact h.peerSet s _ st hs
  · exact h.refl

theorem Across.signBlock (h : Across b r) {block : Block K}
    (hb : block.body.index = b.body.index) : Exec.Relates r (signBlock S v block) := by
  refine Exec.Relates.bind h.trans (h.read _) fun P => ?_
  cases P.byID.lookup v.id with
  | none => exact h.refl
  | some _ =>
    refine Exec.Relates.bind h.trans (Exec.relates_modify fun s => h.block s _ hb) fun _ => ?_
    exact Exec.Relates.bind h.trans (Exec.relates_modify fun s => h.host s _ rfl rfl) fun _ => h.refl

/-- A signature does not change the body. -/
theorem body_signBlock {block block' : Block K} {s : Core H K}
    (h : (Exec.exec (signBlock S v block) s).1 = .ok block') : block'.body = block.body := by
  rw [signBlock, Exec.exec_bind, Session.exec_onHashgraph, Hashgraph.exec_read] at h
  cases hP : s.hg.store.getPeerSet block.body.roundReceived with
  | error err => simp [hP] at h
  | ok P =>
    rw [hP] at h
    simp only at h
    cases hv : P.byID.lookup v.id with
    | none =>
      simp only [hv, Exec.exec_pure, Except.ok.injEq] at h
      rw [← h]
    | some _ =>
      simp only [hv, Exec.exec_bind, Exec.exec_modify, Exec.exec_pure, Except.ok.injEq] at h
      rw [← h]
      rfl

/-- What holds across the steps of a commit holds across the commit. -/
theorem Across.commitCallback (h : Across b r) (s : Core H K) :
    r s (commitCallback S v proxy b s) := by
  have hcommit : Exec.Relates r (commit S v proxy b) := by
    unfold commit
    cases proxy b with
    | error err => exact h.refl
    | ok response =>
      refine Exec.Relates.bind h.trans (Exec.relates_modify fun s => h.block s _ rfl) fun _ => ?_
      refine Exec.Relates.bind_of_ok h.trans (h.signBlock rfl) fun block s hsign => ?_
      refine Exec.Relates.bind h.trans (h.setAnchorBlock _) fun _ => ?_
      rw [body_signBlock hsign]
      exact h.processAcceptedInternalTransactions _
  exact hcommit s

theorem hosted_anchorBlock (b : Block K) (h : Hashgraph H K) (a : Option ℤ) :
    Hashgraph.Hosted b h { h with anchorBlock := a } :=
  ⟨⟨⟨rfl, rfl, rfl, rfl, fun _ => id, fun _ => id, id, rfl, rfl, rfl, rfl⟩, rfl⟩, id,
    fun _ => id, fun _ _ _ _ => rfl, fun _ => rfl, rfl, fun _ => rfl, rfl⟩

/-- The commit of a block leaves events, rounds and queues alone, and the peer-sets up to
its round. -/
theorem hosting_commitCallback :
    Session.Hosting (commitCallback S v proxy : CommitCallback (CoreState H K) H K) := by
  intro b
  have h : Across b fun s s' : Core H K => Hashgraph.Hosted b s.hg s'.hg :=
    { refl s := .refl b s.hg
      trans := .trans
      host s _ _ _ := .refl b s.hg
      block s _ hb := Hashgraph.hosted_setBlock hb s.hg
      anchor s a := hosted_anchorBlock b s.hg a
      peerSet _ _ _ hs := Hashgraph.hosted_setPeerSet hs (by omega) }
  exact h.commitCallback

theorem undisturbing_commitCallback :
    Session.Undisturbing (commitCallback S v proxy : CommitCallback (CoreState H K) H K) :=
  hosting_commitCallback.undisturbing

/-! ## Six rounds ahead -/

/-- A new store takes the genesis peer-set. -/
theorem exists_init (n : ℕ) (P : PeerSet K) :
    ∃ h : Hashgraph H K, (Hashgraph.new (InmemStore.new n)).init P = .ok h :=
  ⟨_, rfl⟩

theorem new_hg {n : ℕ} {peers P : PeerSet K} {h : Hashgraph H K}
    (hi : (Hashgraph.new (InmemStore.new n)).init P = .ok h) :
    (Core.new peers P (InmemStore.new n) : Core H K).hg = h := by
  simp only [Core.new, hi]

theorem sound_new (S : Scheme H K) (n : ℕ) (peers P : PeerSet K) :
    Session.Sound S (-1) (Core.new peers P (InmemStore.new n) : Core H K) := by
  obtain ⟨h, hi⟩ := exists_init (H := H) n P
  have hlcr : h.lastConsensusRound = none := by
    obtain rfl := Except.ok.inj hi
    rfl
  refine ⟨⟨⟨fun _ => 0, fun _ => false, fun _ => 0⟩, ?_⟩, ?_⟩
  · rw [new_hg hi]
    exact Session.wellFormed_init hi _
  · rw [new_hg hi, hlcr]
    rfl

/-- Before the next call, the last round is at most five above the last consensus round. -/
def Close (h : Hashgraph H K) : Prop :=
  h.store.lastRound ≤ h.lastConsensusRound.getD (-1) + 5

instance (h : Hashgraph H K) : Decidable (Close h) :=
  inferInstanceAs (Decidable (_ ≤ _))

/-- If every call finds the last round at most five above the last consensus round, then
every block is committed, and every peer-set recorded, while the last round is below the
sixth after the block's. -/
theorem lastRound_lt_of_run (S : Scheme H K) (rt : Runtime) (v : Validator)
    (proxy : ProxyCommitCallback K) (n : ℕ) (peers genesis : PeerSet K)
    (is : List (Session.Input H K))
    (hclose : ∀ k < is.length, Close (Session.run S rt (commitCallback S v proxy)
      (Core.new peers genesis (InmemStore.new n)) (is.take k)).hg) :
    ∀ c ∈ Session.commits S rt (commitCallback S v proxy)
        (Core.new peers genesis (InmemStore.new n)) is,
      c.2.hg.store.lastRound < c.1.body.roundReceived + 6 := by
  set cb : CommitCallback (CoreState H K) H K := commitCallback S v proxy
  set s₀ : Core H K := Core.new peers genesis (InmemStore.new n) with hs₀
  let J : CoreState H K × List (Block K × Core H K) → Prop := fun host =>
    ∀ c ∈ host.2, c.2.hg.store.lastRound < c.1.body.roundReceived + 6
  have hcb : Session.Undisturbing (Session.traced cb) :=
    Session.Undisturbing.traced undisturbing_commitCallback
  -- by induction on the part of the run that is done
  suffices hall : ∀ pre post, is = pre ++ post → ∃ q,
      Session.Sound S q (Session.run S rt (Session.traced cb) ⟨(s₀.host, []), s₀.hg⟩ pre) ∧
      J (Session.run S rt (Session.traced cb) ⟨(s₀.host, []), s₀.hg⟩ pre).host by
    obtain ⟨q, -, hJ⟩ := hall is [] (by simp)
    exact hJ
  intro pre
  induction pre using List.reverseRecOn with
  | nil =>
    obtain ⟨hw, hl⟩ := sound_new (H := H) S n peers genesis
    exact fun _ _ => ⟨-1, ⟨hw, hl⟩, fun c hc => by cases hc⟩
  | append_singleton pre i ih =>
    intro post his
    obtain ⟨q, hsound, hJ⟩ := ih (i :: post) (by simpa using his)
    have hc := hclose pre.length (by simp [his])
    rw [his, List.append_assoc, List.take_left] at hc
    have hun := Session.untraced_run S rt cb ⟨(s₀.host, []), s₀.hg⟩ pre
    have hrun : Session.run S rt (Session.traced cb) ⟨(s₀.host, []), s₀.hg⟩ (pre ++ [i]) =
        Session.feed S rt (Session.traced cb)
          (Session.run S rt (Session.traced cb) ⟨(s₀.host, []), s₀.hg⟩ pre) i := by
      simp only [Session.run, List.foldl_append, List.foldl_cons, List.foldl_nil]
    rw [hrun]
    generalize Session.run S rt (Session.traced cb) ⟨(s₀.host, []), s₀.hg⟩ pre = t at hsound hJ hun
    -- the record shows the run itself
    have hclose' : t.hg.store.lastRound ≤ q + 5 := by
      rw [← hsound.lastConsensusRound]
      have hhg : t.hg = (Session.run S rt cb s₀ pre).hg := congrArg Session.hg hun
      rw [hhg]
      exact hc
    have hcommit : ∀ n b s', J s'.host → q ≤ n → n < b.body.roundReceived →
        s'.hg.store.lastRound ≤ t.hg.store.lastRound + 1 → Session.Framed b s'.hg.store →
        J (Session.traced cb b s').host := by
      intro n b s' hJs hn hb hl _ c hmem
      rcases List.mem_append.1 hmem with hmem | hmem
      · exact hJs c hmem
      · rw [List.mem_singleton.1 hmem]
        simp only
        omega
    obtain ⟨q', -, hs', hJ', -⟩ :=
      hsound.feed rt (J := fun _ => J) hcb (fun _ => id) hJ hcommit i
    exact ⟨q', hs', hJ'⟩

end Core

namespace Sample

/-- The validator proposes a peer and goes on alone. -/
def joining : List (Session.Input Bytes Bytes) :=
  [ ⟨event 0 1 0 none none [join 2], {}, true⟩,
    ⟨event 1 1 1 (some 0) none [], {}, true⟩,
    ⟨event 2 1 2 (some 1) none [], {}, true⟩,
    ⟨event 3 1 3 (some 2) none [], {}, true⟩ ]

/-- The peer-set of round 7 is recorded at the commit of a block of round 1, when the last
round is 3. -/
theorem joining_ahead :
    (Session.run scheme .plain (Core.commitCallback scheme (validator 1) acceptAll) alone
      joining).hg.store.peerSetCache.rounds = [0, 7] ∧
    ∀ c ∈ Session.commits scheme .plain (Core.commitCallback scheme (validator 1) acceptAll) alone
        joining, c.2.hg.store.lastRound < c.1.body.roundReceived + 6 :=
  ⟨by decide +kernel, Core.lastRound_lt_of_run scheme .plain (validator 1) acceptAll 100
    ⟨[peer 1]⟩ ⟨[peer 1]⟩ joining (by decide +kernel)⟩

/-- Two peers join and leave again, and one of them joins once more. While the sets of
three are effective, the fame of the witness of round 5 stays undecided up to round 11. -/
def comingAndGoing : List (Session.Input Bytes Bytes) :=
  [ event 0 1 0 none none [join 2],
    event 1 1 1 (some 0) none [join 3],
    event 2 1 2 (some 1) none [leave 2, leave 3],
    event 3 1 3 (some 2) none [join 2],
    event 4 1 4 (some 3) none [join 5],
    event 5 1 5 (some 4) none [],
    event 6 1 6 (some 5) none [],
    event 7 1 7 (some 6) none [],
    event 17 2 0 none (some 7) [],
    event 8 1 8 (some 7) (some 17) [],
    event 18 2 1 (some 17) (some 8) [],
    event 28 3 0 none (some 18) [],
    event 9 1 9 (some 8) (some 28) [],
    event 19 2 2 (some 18) (some 9) [],
    event 10 1 10 (some 9) (some 19) [],
    event 11 1 11 (some 10) none [],
    event 20 2 3 (some 19) (some 11) [],
    event 12 1 12 (some 11) (some 20) [] ].map fun e => ⟨e, {}, true⟩

/-- The round-received of every block of a run, with the last round and the rounds of the
recorded peer-sets when it is committed. -/
def moments (is : List (Session.Input Bytes Bytes)) : List (ℤ × ℤ × List ℤ) :=
  (Session.commits scheme .plain (Core.commitCallback scheme (validator 1) acceptAll) alone is).map
    fun c => (c.1.body.roundReceived, c.2.hg.store.lastRound, c.2.hg.store.peerSetCache.rounds)

/-- The last round is 11 when the block of round 5 is committed, and at the next commit
there is a new peer-set for round 11. -/
theorem retroactive_change : ((moments comingAndGoing).drop 4).take 2 =
    [(5, 11, [0, 7, 8, 9, 10]), (6, 11, [0, 7, 8, 9, 10, 11])] := by
  decide +kernel

end Sample

end Babble

import Babble.History
import Babble.Interleaving

/-!
# Leaving

A validator leaves by an internal transaction that removes it from the validator-set.
`core.leave` submits one unless the node is not a validator, or the only one, as far as its
own validators tell. These are outdated as long as removals that were submitted are not
committed; and removals take effect together if they end up in one block.

`Group` is the members of a genesis set with what they have submitted and the blocks that
were made of it. Consensus is not modelled here : the blocks are made of any of the
submitted transactions, in any grouping, and every member commits the same blocks in the
same order, at its own pace.

A recorded validator-set has a member as long as every removal is submitted while another
member of the genesis set has not submitted one (`recorded_nonempty`). Two members that leave
at the same time both pass the check and leave an empty set behind (`both_leave`).
-/

set_option linter.unusedSectionVars false

namespace Babble

variable {H K : Type} [DecidableEq H] [DecidableEq K] [Hex H] [Hex K]

open Interleaving

/-! ## Members and their actions -/

/-- The transaction that `leave` submits : none if the node is not a validator, or the only
one, or in maintenance mode. -/
def Core.leave (S : Scheme H K) (v : Validator) (maintenanceMode : Bool) (s : Core H K) :
    Option (InternalTransaction K) :=
  match s.host.validators.byID.lookup v.id with
  | none => none
  | some p =>
    if s.host.validators.peers.length ≤ 1 then none
    else if maintenanceMode then none
    else
      let body : InternalTransactionBody K := { type := .peerRemove, peer := p }
      some { body := body, signature := v.sign (S.sha256 (S.marshalInternalTransactionBody body)) }

/-- A node with its validator and the number of blocks that it has committed. -/
structure Member (H K : Type) where
  validator : Validator
  maintenanceMode : Bool := false
  core : Core H K
  committed : ℕ := 0

/-- A member commits a block. -/
def Member.commit (m : Member H K) (block : ℤ × List (InternalTransactionReceipt K)) :
    Member H K :=
  { m with
    core := (Exec.exec (Core.processAcceptedInternalTransactions m.validator block.1 block.2)
      m.core).2
    committed := m.committed + 1 }

/-- The members, the transactions submitted so far, and the blocks made of them, each with
its round-received and its receipts. -/
structure Group (H K : Type) where
  members : List (Member H K)
  submitted : List (InternalTransaction K) := []
  blocks : List (ℤ × List (InternalTransactionReceipt K)) := []

/-! ## Histories that keep a peer -/

/-- The peer is one of the validators, and of every recorded set. -/
def History.Keeps (h : History K) (q : Peer K) : Prop :=
  q ∈ h.validators.peers ∧ ∀ r P, h.sets r = some P → q ∈ P.peers

/-- The receipt does not remove the peer. -/
def InternalTransactionReceipt.Spares (r : InternalTransactionReceipt K) (q : Peer K) : Prop :=
  r.internalTransaction.body.peer.pubKeyHex ≠ q.pubKeyHex

theorem InternalTransactionReceipt.Spares.mem_apply {r : InternalTransactionReceipt K} {q : Peer K}
    (h : r.Spares q) {V : PeerSet K} (hq : q ∈ V.peers) : q ∈ (r.apply V).peers := by
  unfold InternalTransactionReceipt.apply
  split_ifs
  · split
    · unfold PeerSet.withNewPeer
      split
      · exact hq
      · exact List.mem_append_left _ hq
    · exact List.mem_filter.2 ⟨hq, by simpa using fun he => h he.symm⟩
    · exact hq
  · exact hq

theorem mem_afterReceipts {receipts : List (InternalTransactionReceipt K)} {q : Peer K}
    (h : ∀ r ∈ receipts, r.Spares q) {V : PeerSet K} (hq : q ∈ V.peers) :
    q ∈ (afterReceipts receipts V).peers :=
  List.foldlRecOn receipts _ (motive := fun V : PeerSet K => q ∈ V.peers) hq
    fun _ hV r hr => (h r hr).mem_apply hV

theorem History.Keeps.commit {h : History K} {q : Peer K} (hk : h.Keeps q) (roundReceived : ℤ)
    {receipts : List (InternalTransactionReceipt K)} (hr : ∀ r ∈ receipts, r.Spares q) :
    (h.commit roundReceived receipts).Keeps q := by
  unfold History.commit
  split_ifs
  · refine ⟨mem_afterReceipts hr hk.1, fun r P hP => ?_⟩
    simp only [Function.update_apply] at hP
    split_ifs at hP
    · rw [← Option.some.inj hP]
      exact mem_afterReceipts hr hk.1
    · exact hk.2 r P hP
  · exact hk

/-! ## The group -/

namespace Group

/-- A member leaves, a block is made, or a member commits its next block. -/
inductive Action (K : Type)
  | leave (i : ℕ)
  | block (roundReceived : ℤ) (txs : List (InternalTransaction K))
  | commit (i : ℕ)

/-- The transaction that a member submits if it leaves now. -/
def leaveOf (S : Scheme H K) (g : Group H K) (i : ℕ) : Option (InternalTransaction K) :=
  g.members[i]?.bind fun m => m.core.leave S m.validator m.maintenanceMode

/-- One action. The application accepts every transaction. -/
def step (S : Scheme H K) (g : Group H K) : Action K → Group H K
  | .leave i => { g with submitted := g.submitted ++ (g.leaveOf S i).toList }
  | .block roundReceived txs =>
    { g with
      blocks := g.blocks ++ [(roundReceived,
        (txs.filter (· ∈ g.submitted)).map fun tx =>
          { internalTransaction := tx, accepted := true })] }
  | .commit i =>
    match g.members[i]? with
    | none => g
    | some m =>
      match g.blocks[m.committed]? with
      | none => g
      | some block => { g with members := g.members.set i (m.commit block) }

/-- The members of a genesis set, each with its validator, at the start. -/
def start (genesis : PeerSet K) (cacheSize : ℕ) (vs : List (Validator × Bool)) : Group H K where
  members := vs.map fun v =>
    { validator := v.1
      maintenanceMode := v.2
      core := Core.new genesis genesis (InmemStore.new cacheSize) }

/-! ## Who stays -/

/-- No removal of the peer was submitted. -/
def Stays (g : Group H K) (q : Peer K) : Prop :=
  ∀ tx ∈ g.submitted, tx.body.peer.pubKeyHex ≠ q.pubKeyHex

/-- A removal is submitted only while another member of the genesis set stays. -/
def Spares (S : Scheme H K) (genesis : PeerSet K) (g : Group H K) : Action K → Prop
  | .leave i => ∀ tx ∈ g.leaveOf S i,
      ∃ q ∈ genesis.peers, g.Stays q ∧ tx.body.peer.pubKeyHex ≠ q.pubKeyHex
  | _ => True

/-- The validators and the recorded sets of every member have the peers of the genesis set
that stay, and the blocks remove none of them. -/
structure Kept (genesis : PeerSet K) (g : Group H K) : Prop where
  members : ∀ m ∈ g.members, ∃ h, Core.Follows m.core h ∧
    ∀ q ∈ genesis.peers, g.Stays q → h.Keeps q
  blocks : ∀ b ∈ g.blocks, ∀ r ∈ b.2, ∀ q, g.Stays q → r.Spares q

theorem Stays.of_append {g : Group H K} {txs : List (InternalTransaction K)} {q : Peer K}
    (h : Stays ({ g with submitted := g.submitted ++ txs } : Group H K) q) : g.Stays q :=
  fun tx htx => h tx (List.mem_append_left txs htx)

theorem kept_start (genesis : PeerSet K) (n : ℕ) (vs : List (Validator × Bool)) :
    Kept genesis (start genesis n vs : Group H K) := by
  refine ⟨fun m hm => ?_, by simp [start]⟩
  obtain ⟨v, -, rfl⟩ := List.mem_map.1 hm
  refine ⟨_, Core.follows_new n genesis genesis, fun q hq _ => ⟨hq, fun r P hP => ?_⟩⟩
  unfold Core.genesisHistory at hP
  simp only at hP
  split_ifs at hP
  rw [← Option.some.inj hP]
  exact hq

/-- Every action keeps the peers that stay. -/
theorem Kept.step {S : Scheme H K} {genesis : PeerSet K} {g : Group H K} (hk : Kept genesis g)
    (a : Action K) : Kept genesis (g.step S a) := by
  cases a with
  | leave i =>
    exact ⟨fun m hm => (hk.members m hm).imp fun h hh =>
      ⟨hh.1, fun q hq hs => hh.2 q hq hs.of_append⟩,
      fun b hb r hr q hs => hk.blocks b hb r hr q hs.of_append⟩
  | block roundReceived txs =>
    refine ⟨hk.members, fun b hb r hr q hs => ?_⟩
    rcases List.mem_append.1 hb with hb | hb
    · exact hk.blocks b hb r hr q hs
    · -- a block is made of submitted transactions
      rw [List.mem_singleton.1 hb] at hr
      obtain ⟨tx, htx, rfl⟩ := List.mem_map.1 hr
      exact hs tx (by simpa using (List.mem_filter.1 htx).2 : tx ∈ g.submitted)
  | commit i =>
    simp only [Group.step]
    split
    · exact hk
    · next m hm =>
      split
      · exact hk
      · next block hblock =>
        refine ⟨fun m' hm' => ?_, hk.blocks⟩
        rcases List.mem_or_eq_of_mem_set hm' with hm' | rfl
        · exact hk.members m' hm'
        · obtain ⟨h, hf, hkeep⟩ := hk.members m (List.mem_of_getElem? hm)
          refine ⟨_, hf.process block.1 block.2, fun q hq hs => (hkeep q hq hs).commit _ ?_⟩
          exact fun r hr => hk.blocks block (List.mem_of_getElem? hblock) r hr q hs

/-- A submission that spares a member leaves one that stays. -/
theorem exists_stays_step {S : Scheme H K} {genesis : PeerSet K} {g : Group H K} {a : Action K}
    (h : ∃ q ∈ genesis.peers, g.Stays q) (ha : Spares S genesis g a) :
    ∃ q ∈ genesis.peers, (g.step S a).Stays q := by
  cases a with
  | leave i =>
    cases hl : g.leaveOf S i with
    | none => simpa [Group.step, hl, Stays] using h
    | some tx =>
      obtain ⟨q, hq, hs, hne⟩ := ha tx hl
      refine ⟨q, hq, fun tx' htx' => ?_⟩
      simp only [Group.step, hl, Option.toList_some] at htx'
      rcases List.mem_append.1 htx' with htx' | htx'
      · exact hs tx' htx'
      · rw [List.mem_singleton.1 htx']
        exact hne
  | block roundReceived txs => exact h
  | commit i =>
    simp only [Group.step]
    split
    · exact h
    · split <;> exact h

/-- Every recorded validator-set of every member has a peer, after every interleaving in
which a removal is submitted only while another member of the genesis set has not submitted
one. -/
theorem recorded_nonempty (S : Scheme H K) (genesis : PeerSet K) (hgenesis : genesis.peers ≠ [])
    (n : ℕ) (vs : List (Validator × Bool)) (actions : List (Action K))
    (h : Guarded (step S) (Spares S genesis) (start genesis n vs : Group H K) actions) :
    ∀ m ∈ (actions.foldl (step S) (start genesis n vs : Group H K)).members, ∀ r P,
      m.core.hg.store.peerSetCache.peerSets.lookup r = some P → P.peers ≠ [] := by
  have hinv := h.invariant
    (I := fun g : Group H K => Kept genesis g ∧ ∃ q ∈ genesis.peers, g.Stays q)
    (fun g a hg ha => ⟨hg.1.step a, exists_stays_step hg.2 ha⟩)
    ⟨kept_start genesis n vs, (List.exists_mem_of_ne_nil _ hgenesis).imp fun q hq =>
      ⟨hq, by simp [Stays, start]⟩⟩
  obtain ⟨hkept, q, hq, hs⟩ := hinv
  intro m hm r P hP
  obtain ⟨hist, hf, hkeep⟩ := hkept.members m hm
  rw [hf.records.lookup r] at hP
  exact List.ne_nil_of_mem ((hkeep q hq hs).2 r P hP)

end Group

namespace Sample

/-- Two validators. -/
def leavers : Group Bytes Bytes :=
  Group.start ⟨[peer 1, peer 2]⟩ 100 [(validator 1, false), (validator 2, false)]

/-- The transaction that removes a peer. -/
def removal (key : UInt8) : InternalTransaction Bytes :=
  { body := { type := .peerRemove, peer := peer key }, signature := "1|1" }

/-- The first validator leaves, and the second one leaves after it has committed that, when
it is alone. -/
def oneLeaves : List (Group.Action Bytes) :=
  [.leave 0, .block 1 [removal 1], .commit 0, .commit 1, .leave 1, .block 2 [removal 2],
    .commit 0, .commit 1]

instance (g : Group Bytes Bytes) (a : Group.Action Bytes) :
    Decidable (Group.Spares scheme ⟨[peer 1, peer 2]⟩ g a) := by
  cases a <;> unfold Group.Spares Group.Stays <;> infer_instance

/-- The peers of the recorded sets, by member and round. -/
def recorded (g : Group Bytes Bytes) (i : ℕ) (r : ℤ) : Option (List (Peer Bytes)) :=
  g.members[i]?.bind fun m =>
    (m.core.hg.store.peerSetCache.peerSets.lookup r).map PeerSet.peers

theorem one_stays :
    recorded (oneLeaves.foldl (Group.step scheme) leavers) 1 7 = some [peer 2] ∧
    ∀ m ∈ (oneLeaves.foldl (Group.step scheme) leavers).members, ∀ r P,
      m.core.hg.store.peerSetCache.peerSets.lookup r = some P → P.peers ≠ [] :=
  ⟨by decide +kernel, Group.recorded_nonempty scheme ⟨[peer 1, peer 2]⟩ (by simp) 100 _ oneLeaves
    (by decide +kernel)⟩

/-- Both validators leave before either has committed the removal of the other. -/
def bothLeave : List (Group.Action Bytes) :=
  [.leave 0, .leave 1, .block 1 [removal 1, removal 2], .commit 0]

/-- The set that the first validator records is empty. -/
theorem both_leave :
    (bothLeave.foldl (Group.step scheme) leavers).submitted = [removal 1, removal 2] ∧
    recorded (bothLeave.foldl (Group.step scheme) leavers) 0 7 = some [] := by
  decide +kernel

end Sample

end Babble

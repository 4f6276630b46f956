import Babble.History
import Babble.Ledger
import Babble.Runs

/-!
# The anchor block

Signatures of blocks travel in events and wait in a pool. `processSigPool` attaches those
that are valid and made by a member of the block's peer-set to their blocks. The anchor is
the highest block known to have more signatures than the trust count of its peer-set; it is
what a node offers to those that fast-forward.

A `Shelf` is the blocks with the peer-sets and the anchor. It is `Backed` if every
signature on it is valid for the body that it stands on and made by a member of the block's
peer-set. What changes the shelf keeps it backed, on two counts : a block gets its
signatures after its body is final, and the peer-sets recorded later are for later rounds.

A node signs a block that it commits if its identifier belongs to the peer-set. The
identifier is a hash of 32 bits of the public key. The node is a member then, as long as no
recorded peer has its identifier with another key (`Core.anchor_backed`); two keys with one
identifier are easily found (`stranger_signs`).
-/

set_option linter.unusedSectionVars false

namespace Babble

variable {C H K : Type} [DecidableEq H] [DecidableEq K] [Hex H] [Hex K]

/-! ## The pool of signatures -/

namespace Hashgraph

variable (S : Scheme H K) (rt : Runtime)

/-- Attach a pending signature to its block, if there is one, and the signature is valid
and by a member of its peer-set. -/
def processSignature (bs : BlockSignature) : Hg H K Unit := do
  match (← get).store.getBlock bs.index with
  | .error _ => return
  | .ok block =>
    match (← get).store.getPeerSet block.body.roundReceived with
    | .error _ => return
    | .ok peerSet =>
      if bs.validatorHex ∈ peerSet.byPubKey then
        let valid ← Exec.ofExcept (block.verify S bs)
        if valid then
          let block := block.setSignature bs
          modifyStore fun st => st.setBlock block
          setAnchorBlock block
          modify fun h => { h with
            pendingSignatures := h.pendingSignatures.erase (bs.index, bs.validatorHex) }

/-- Go through the pool of signatures. A signature that fails to decode stops the loop. -/
def processSigPool : Hg H K Unit := do
  let items := (← get).pendingSignatures.toPairs.map Prod.snd
  let items ← query fun _ => Query.visit rt items
  items.forM (processSignature S)

end Hashgraph

/-! ## Shelves -/

/-- The signature under the key `k` is valid for the body of the block, and `k` is the
public key of a member of the peer-set. -/
def Block.Endorsed (S : Scheme H K) (P : PeerSet K) (b : Block K) (k : K) (sig : String) : Prop :=
  ∃ p ∈ P.peers, k = Hex.encodeToString p.pubKeyBytes ∧
    b.verify S { validator := p.pubKeyBytes, index := b.body.index, signature := sig } = .ok true

namespace Shelf

/-- All signatures of the block are by members of its peer-set. -/
def Endorses (S : Scheme H K) (s : Shelf K) (b : Block K) : Prop :=
  ∀ P, s.peerSets.get b.body.roundReceived = .ok P →
    ∀ k sig, b.signatures.lookup k = some sig → b.Endorsed S P k sig

/-- The block has more signatures than the trust count of its peer-set. -/
def Trusts (s : Shelf K) (b : Block K) : Prop :=
  ∃ P, s.peerSets.get b.body.roundReceived = .ok P ∧ P.trustCount < b.signatures.keys.length

/-- The blocks are of rounds up to `q`, their signatures are by members of their peer-sets,
and the anchor has enough of them. -/
structure Backed (S : Scheme H K) (q : ℤ) (s : Shelf K) : Prop where
  founded : s.peerSets.Founded
  index : ∀ {i b}, s.blocks.lookup i = some b → b.body.index = i ∧ i ≤ s.lastBlock
  round : ∀ {i b}, s.blocks.lookup i = some b →
    0 ≤ b.body.roundReceived ∧ b.body.roundReceived ≤ q
  endorsed : ∀ {i b}, s.blocks.lookup i = some b → s.Endorses S b
  trusted : ∀ {i}, s.anchor = some i → ∃ b, s.blocks.lookup i = some b ∧ s.Trusts b

/-- The peer-sets of the first shelf are on the second one, and its anchor is not below the
first. -/
structure Grows (s s' : Shelf K) : Prop where
  sets : ∀ {r P}, s.peerSets.peerSets.lookup r = some P → s'.peerSets.peerSets.lookup r = some P
  anchor : ∀ i ∈ s.anchor, ∃ j ∈ s'.anchor, i ≤ j

theorem Grows.of_eq {s s' : Shelf K} (hs : s'.peerSets = s.peerSets) (ha : s'.anchor = s.anchor) :
    Grows s s' :=
  ⟨fun h => hs ▸ h, fun i hi => ⟨i, ha ▸ hi, le_refl i⟩⟩

theorem Grows.refl (s : Shelf K) : Grows s s :=
  .of_eq rfl rfl

theorem Grows.trans {s s' s'' : Shelf K} (h : Grows s s') (h' : Grows s' s'') : Grows s s'' := by
  refine ⟨fun hP => h'.sets (h.sets hP), fun i hi => ?_⟩
  obtain ⟨j, hj, hij⟩ := h.anchor i hi
  obtain ⟨k, hk, hjk⟩ := h'.anchor j hj
  exact ⟨k, hk, hij.trans hjk⟩

/-- The shelf with a block put in place. -/
def setBlock (s : Shelf K) (b : Block K) : Shelf K :=
  { s with
    blocks := s.blocks.insert b.body.index b
    lastBlock := if s.lastBlock < b.body.index then b.body.index else s.lastBlock }

/-- The shelf after a block was proposed as the anchor, if `P` is the block's peer-set. -/
def propose (s : Shelf K) (P : PeerSet K) (b : Block K) : Shelf K :=
  if P.trustCount < b.signatures.keys.length ∧ ∀ i ∈ s.anchor, i < b.body.index then
    { s with anchor := some b.body.index }
  else s

variable {S : Scheme H K} {q q' : ℤ} {s : Shelf K} {b b' : Block K} {P : PeerSet K}

theorem Backed.mono (h : s.Backed S q) (hq : q ≤ q') : s.Backed S q' where
  founded := h.founded
  index := h.index
  round hb := ⟨(h.round hb).1, (h.round hb).2.trans hq⟩
  endorsed := h.endorsed
  trusted := h.trusted

/-- A block is put in place of another one, or of none. -/
theorem Backed.setBlock (h : s.Backed S q)
    (hr : 0 ≤ b.body.roundReceived ∧ b.body.roundReceived ≤ q) (he : s.Endorses S b)
    (ht : s.anchor = some b.body.index → s.Trusts b) : (s.setBlock b).Backed S q := by
  -- what is at an index is the new block or was there before
  have hcases : ∀ {i b'}, (s.setBlock b).blocks.lookup i = some b' →
      (i = b.body.index ∧ b' = b) ∨ (i ≠ b.body.index ∧ s.blocks.lookup i = some b') := by
    intro i b' hb'
    by_cases hi : i = b.body.index
    · subst hi
      exact .inl ⟨rfl, (Option.some.inj ((AList.lookup_insert s.blocks).symm.trans hb')).symm⟩
    · exact .inr ⟨hi, (AList.lookup_insert_ne hi).symm.trans hb'⟩
  refine ⟨h.founded, fun {i b'} hb' => ?_, fun {i b'} hb' => ?_, fun {i b'} hb' => ?_,
    fun {i} hi => ?_⟩
  · simp only [Shelf.setBlock]
    rcases hcases hb' with ⟨rfl, rfl⟩ | ⟨-, hb'⟩
    · split_ifs <;> omega
    · have := h.index hb'
      split_ifs <;> omega
  · rcases hcases hb' with ⟨rfl, rfl⟩ | ⟨-, hb'⟩
    exacts [hr, h.round hb']
  · rcases hcases hb' with ⟨rfl, rfl⟩ | ⟨-, hb'⟩
    exacts [he, h.endorsed hb']
  · by_cases hbi : i = b.body.index
    · exact ⟨b, hbi ▸ AList.lookup_insert s.blocks, ht (hbi ▸ hi)⟩
    · obtain ⟨b', hb', htrust⟩ := h.trusted hi
      exact ⟨b', (AList.lookup_insert_ne hbi).trans hb', htrust⟩

theorem grows_propose : Grows s (s.propose P b) := by
  unfold Shelf.propose
  split_ifs with hc
  · exact ⟨id, fun i hi => ⟨_, rfl, (hc.2 i hi).le⟩⟩
  · exact .refl s

/-- A block of the shelf is proposed as the anchor. -/
theorem Backed.propose (h : s.Backed S q) (hb : s.blocks.lookup b.body.index = some b)
    (hP : s.peerSets.get b.body.roundReceived = .ok P) : (s.propose P b).Backed S q := by
  unfold Shelf.propose
  split_ifs with hc
  · refine ⟨h.founded, h.index, h.round, h.endorsed, fun {i} hi => ?_⟩
    rw [← Option.some.inj hi]
    exact ⟨b, hb, P, hP, hc.1⟩
  · exact h

variable {c : PeerSetCache K} {r : ℤ}

theorem grows_record (hset : s.peerSets.set r P = .ok c) : Grows s { s with peerSets := c } := by
  obtain ⟨hnot, hps, -⟩ := PeerSetCache.set_eq hset
  refine ⟨fun {r' P'} hP => ?_, fun i hi => ⟨i, hi, le_refl i⟩⟩
  have hne : r' ≠ r := by
    rintro rfl
    exact hnot (AList.lookup_isSome.1 (by rw [hP]; rfl))
  exact (congrArg (AList.lookup r') hps).trans ((AList.lookup_insert_ne hne).trans hP)

/-- A peer-set is recorded for a round after those of the blocks. -/
theorem Backed.record (h : s.Backed S q) (hset : s.peerSets.set r P = .ok c) (hr : q < r) :
    ({ s with peerSets := c } : Shelf K).Backed S q := by
  obtain ⟨hf, hget⟩ := h.founded.set hset
  have hsame : ∀ {i b}, s.blocks.lookup i = some b →
      c.get b.body.roundReceived = s.peerSets.get b.body.roundReceived := fun hb =>
    hget _ (h.round hb).1 ((h.round hb).2.trans_lt hr)
  refine ⟨hf, h.index, h.round, fun hb Q hQ => h.endorsed hb Q (hsame hb ▸ hQ), fun hi => ?_⟩
  obtain ⟨b, hb, Q, hQ, ht⟩ := h.trusted hi
  exact ⟨b, hb, Q, (hsame hb).trans hQ, ht⟩

end Shelf

/-! ## What the pool does to the shelf -/

theorem length_keys_insert {α β : Type} [DecidableEq α] (m : Map α β) (a : α) (b : β) :
    m.keys.length ≤ (m.insert a b).keys.length := by
  rw [AList.keys_insert, List.length_cons]
  have := List.length_erase_add_one (a := a) (l := m.keys)
  by_cases ha : a ∈ m.keys
  · have := List.length_erase_of_mem ha
    omega
  · rw [List.erase_of_not_mem ha]
    omega

theorem Block.signatures_setSignature {b : Block K} {bs : BlockSignature} {k : K} {sig : String}
    (h : (b.setSignature bs).signatures.lookup k = some sig) :
    (k = bs.validatorHex ∧ sig = bs.signature) ∨ b.signatures.lookup k = some sig := by
  by_cases hk : k = bs.validatorHex
  · subst hk
    exact .inl ⟨rfl, (Option.some.inj ((AList.lookup_insert b.signatures).symm.trans h)).symm⟩
  · exact .inr ((AList.lookup_insert_ne hk).symm.trans h)

namespace Shelf

variable {S : Scheme H K} {q : ℤ} {s : Shelf K} {b : Block K} {P : PeerSet K}

/-- A signature by a member is added. -/
theorem Endorses.setSignature (h : s.Endorses S b)
    (hP : s.peerSets.get b.body.roundReceived = .ok P) {p : Peer K} (hp : p ∈ P.peers)
    {bs : BlockSignature} (hbs : bs.validator = p.pubKeyBytes) (hv : b.verify S bs = .ok true) :
    s.Endorses S (b.setSignature bs) := by
  intro Q hQ k sig hk
  rcases Block.signatures_setSignature hk with ⟨rfl, rfl⟩ | hk
  · obtain rfl : P = Q := Except.ok.inj (hP.symm.trans hQ)
    exact ⟨p, hp, by rw [BlockSignature.validatorHex, hbs], by rw [← hbs]; exact hv⟩
  · exact h Q hQ k sig hk

theorem Trusts.setSignature (h : s.Trusts b) (bs : BlockSignature) :
    s.Trusts (b.setSignature bs) := by
  obtain ⟨P, hP, ht⟩ := h
  exact ⟨P, hP, ht.trans_le (length_keys_insert _ _ _)⟩

/-- A block of the shelf gets a signature by a member, and is proposed as the anchor. -/
theorem Backed.sign (h : s.Backed S q) (hb : s.blocks.lookup b.body.index = some b)
    (hP : s.peerSets.get b.body.roundReceived = .ok P) {p : Peer K} (hp : p ∈ P.peers)
    {bs : BlockSignature} (hbs : bs.validator = p.pubKeyBytes) (hv : b.verify S bs = .ok true) :
    ((s.setBlock (b.setSignature bs)).propose P (b.setSignature bs)).Backed S q := by
  have hset : (s.setBlock (b.setSignature bs)).Backed S q := by
    refine h.setBlock (h.round (b := b) hb) ((h.endorsed hb).setSignature hP hp hbs hv) fun ha => ?_
    obtain ⟨b', hb', ht⟩ := h.trusted ha
    obtain rfl : b = b' := Option.some.inj (hb.symm.trans hb')
    exact ht.setSignature bs
  exact hset.propose (AList.lookup_insert s.blocks) hP

end Shelf

namespace Hashgraph

variable {S : Scheme H K} {rt : Runtime} {q : ℤ} {h : Hashgraph H K}

/-- The shelf of the second hashgraph has grown. -/
def Grows (h h' : Hashgraph H K) : Prop :=
  h.shelf.Grows h'.shelf

theorem Grows.refl (h : Hashgraph H K) : Grows h h :=
  Shelf.Grows.refl _

theorem Grows.trans {h h' h'' : Hashgraph H K} (h1 : Grows h h') (h2 : Grows h' h'') :
    Grows h h'' :=
  Shelf.Grows.trans h1 h2

theorem exec_setAnchorBlock {b : Block K} {P : PeerSet K}
    (hP : h.store.getPeerSet b.body.roundReceived = .ok P) :
    Exec.exec (setAnchorBlock b) h = (.ok (),
      if P.trustCount < b.signatures.keys.length ∧ ∀ i ∈ h.anchorBlock, i < b.body.index then
        { h with anchorBlock := some b.body.index }
      else h) := by
  rw [setAnchorBlock, Exec.exec_bind, exec_read, hP]
  rfl

theorem shelf_setAnchorBlock {b : Block K} {P : PeerSet K}
    (hP : h.store.getPeerSet b.body.roundReceived = .ok P) :
    (Exec.exec (setAnchorBlock b) h).2.shelf = h.shelf.propose P b := by
  rw [exec_setAnchorBlock hP]
  unfold Shelf.propose shelf
  split_ifs <;> rfl

theorem grows_setAnchorBlock (b : Block K) :
    Exec.Relates Grows (setAnchorBlock b : Hg H K Unit) := by
  intro h
  cases hP : h.store.getPeerSet b.body.roundReceived with
  | error err =>
    rw [setAnchorBlock, Exec.exec_bind, exec_read, hP]
    exact .refl h
  | ok P =>
    rw [Grows, shelf_setAnchorBlock hP]
    exact Shelf.grows_propose

/-- A member by its public key has the bytes of that key. -/
theorem exists_member {P : PeerSet K} {bs : BlockSignature}
    (hm : (bs.validatorHex : K) ∈ P.byPubKey) : ∃ p ∈ P.peers, bs.validator = p.pubKeyBytes := by
  obtain ⟨p, hp, hk⟩ := PeerSet.mem_byPubKey.1 hm
  refine ⟨p, hp, ?_⟩
  rw [Peer.pubKeyBytes, ← Hex.decode_toUpper, ← Peer.pubKeyString, hk,
    BlockSignature.validatorHex, Hex.decode_encode]

/-- What one pending signature does. -/
theorem processSignature_cases (bs : BlockSignature) (h : Hashgraph H K) :
    (Exec.exec (processSignature S bs) h).2 = h ∨
      ∃ b P, h.store.blockCache.lookup bs.index = some b ∧
        h.store.getPeerSet b.body.roundReceived = .ok P ∧ (bs.validatorHex : K) ∈ P.byPubKey ∧
        b.verify S bs = .ok true ∧ ∃ pool, (Exec.exec (processSignature S bs) h).2 =
          { (Exec.exec (setAnchorBlock (b.setSignature bs))
              { h with store := h.store.setBlock (b.setSignature bs) }).2 with
            pendingSignatures := pool } := by
  simp only [processSignature, Exec.exec_bind, Exec.exec_get]
  cases hb : h.store.getBlock bs.index with
  | error err => exact .inl rfl
  | ok b =>
    simp only [Exec.exec_bind, Exec.exec_get]
    cases hP : h.store.getPeerSet b.body.roundReceived with
    | error err => exact .inl rfl
    | ok P =>
      by_cases hm : (bs.validatorHex : K) ∈ P.byPubKey
      · simp only [hm, if_true, Exec.exec_bind, Exec.exec_ofExcept]
        cases hv : b.verify S bs with
        | error err => exact .inl rfl
        | ok valid =>
          cases valid with
          | false => exact .inl rfl
          | true =>
            refine .inr ⟨b, P, ?_, hP, hm, hv, ?_⟩
            · unfold InmemStore.getBlock at hb
              split at hb
              · next b' hb' => rw [hb', Except.ok.inj hb]
              · cases hb
            · obtain ⟨h₂, hx⟩ : ∃ h₂, Exec.exec (setAnchorBlock (b.setSignature bs))
                  { h with store := h.store.setBlock (b.setSignature bs) } = (.ok (), h₂) :=
                ⟨_, exec_setAnchorBlock (b := b.setSignature bs) hP⟩
              simp only [if_true, modifyStore, Exec.exec_bind, Exec.exec_modify, hx]
              exact ⟨_, rfl⟩
      · simp only [hm, if_false]
        exact .inl rfl

theorem shelf_processSignature (bs : BlockSignature) (h : Hashgraph H K) :
    (Exec.exec (processSignature S bs) h).2.shelf = h.shelf ∨
      ∃ b P p, h.shelf.blocks.lookup bs.index = some b ∧
        h.shelf.peerSets.get b.body.roundReceived = .ok P ∧ p ∈ P.peers ∧
        bs.validator = p.pubKeyBytes ∧ b.verify S bs = .ok true ∧
        (Exec.exec (processSignature S bs) h).2.shelf =
          (h.shelf.setBlock (b.setSignature bs)).propose P (b.setSignature bs) := by
  rcases processSignature_cases (S := S) bs h with he | ⟨b, P, hb, hP, hm, hv, pool, he⟩
  · exact .inl (congrArg shelf he)
  · obtain ⟨p, hp, hbs⟩ := exists_member hm
    refine .inr ⟨b, P, p, hb, hP, hp, hbs, hv, (congrArg shelf he).trans ?_⟩
    exact shelf_setAnchorBlock (b := b.setSignature bs) (P := P)
      (h := { h with store := h.store.setBlock (b.setSignature bs) }) hP

theorem grows_processSignature (bs : BlockSignature) :
    Exec.Relates Grows (processSignature S bs : Hg H K Unit) := by
  intro h
  rcases shelf_processSignature (S := S) bs h with he | ⟨b, P, p, -, -, -, -, -, he⟩
  · rw [Grows, he]
    exact Shelf.Grows.refl _
  · rw [Grows, he]
    have hset : h.shelf.Grows (h.shelf.setBlock (b.setSignature bs)) := .of_eq rfl rfl
    exact hset.trans Shelf.grows_propose

theorem backed_processSignature (bs : BlockSignature) :
    Exec.Relates (fun h h' : Hashgraph H K => h.shelf.Backed S q → h'.shelf.Backed S q)
      (processSignature S bs) := by
  intro h hq
  rcases shelf_processSignature (S := S) bs h with he | ⟨b, P, p, hb, hP, hp, hbs, hv, he⟩
  · rw [he]
    exact hq
  · obtain ⟨hidx, -⟩ := hq.index hb
    rw [he]
    exact hq.sign (hidx ▸ hb) hP hp hbs hv

end Hashgraph

/-! ## What a commit does to the shelf -/

/-- The block with the answer of the application. -/
def Block.answered (b : Block K) (r : CommitResponse K) : Block K :=
  { b with body := { b.body with
      stateHash := r.stateHash
      internalTransactionReceipts := r.internalTransactionReceipts } }

/-- The signatures of the validator are valid. -/
def Validator.Signs (S : Scheme H K) (v : Validator) : Prop :=
  ∀ digest, (decodeSignature (v.sign digest) >>= S.verify v.publicKeyBytes digest) = .ok true

/-- The peer has the identifier of the validator only if it has its public key. -/
def Validator.Untwinned (v : Validator) (p : Peer K) : Prop :=
  p.id = v.id → p.pubKeyBytes = v.publicKeyBytes

/-- No recorded peer has the identifier of the validator with another key. -/
def Shelf.Untwinned (v : Validator) (s : Shelf K) : Prop :=
  ∀ r P, s.peerSets.peerSets.lookup r = some P → ∀ p ∈ P.peers, v.Untwinned p

theorem Shelf.Untwinned.of_grows {v : Validator} {s s' : Shelf K} (h : s'.Untwinned v)
    (hg : Shelf.Grows s s') : s.Untwinned v :=
  fun r P hP => h r P (hg.sets hP)

/-- The peer-set of a round, and its peers. -/
theorem Shelf.Untwinned.get {v : Validator} {s : Shelf K} (h : s.Untwinned v)
    (hf : s.peerSets.Founded) {r : ℤ} (hr : 0 ≤ r) :
    ∃ P, s.peerSets.get r = .ok P ∧ ∀ p ∈ P.peers, v.Untwinned p := by
  obtain ⟨i, -, -, -, P, hP, hget⟩ := hf.get_eq hr
  exact ⟨P, hget, h i P hP⟩

theorem PeerSet.exists_of_byID {P : PeerSet K} {i : UInt32} (h : P.byID.lookup i ≠ none) :
    ∃ p ∈ P.peers, p.id = i := by
  by_contra hnot
  refine h (PeerSet.lookup_byID_eq_none.2 fun p hp hi => hnot ⟨p, hp, hi⟩)

namespace Core

variable {S : Scheme H K} {rt : Runtime} {v : Validator} {proxy : ProxyCommitCallback K}
  {q : ℤ} {b : Block K} {P : PeerSet K} {s : Core H K}

/-- The signature of a block by the validator. -/
def signatureOf (S : Scheme H K) (v : Validator) (b : Block K) : BlockSignature :=
  { validator := v.publicKeyBytes
    index := b.body.index
    signature := v.sign (b.body.hash S) }

/-- The block as it leaves `signBlock`, if its peer-set is `P`. -/
def signedBlock (S : Scheme H K) (v : Validator) (P : PeerSet K) (b : Block K) : Block K :=
  match P.byID.lookup v.id with
  | none => b
  | some _ => b.setSignature (signatureOf S v b)

theorem body_signedBlock : (signedBlock S v P b).body = b.body := by
  unfold signedBlock
  split <;> rfl

/-- The core after `signBlock`. -/
def withSigned (S : Scheme H K) (v : Validator) (P : PeerSet K) (b : Block K) (s : Core H K) :
    Core H K :=
  match P.byID.lookup v.id with
  | none => s
  | some _ =>
    let s := setBlock (b.setSignature (signatureOf S v b)) s
    { s with host := { s.host with
        selfBlockSignatures :=
          Hashgraph.addPendingSignature s.host.selfBlockSignatures (signatureOf S v b) } }

theorem exec_signBlock (hP : s.hg.store.getPeerSet b.body.roundReceived = .ok P) :
    Exec.exec (signBlock S v b) s = (.ok (signedBlock S v P b), withSigned S v P b s) := by
  simp only [signBlock, Exec.exec_bind, Session.exec_onHashgraph, Hashgraph.exec_read, hP,
    signedBlock, withSigned]
  cases P.byID.lookup v.id <;> rfl

/-- A commit, up to the receipts. -/
theorem exec_commit {response : CommitResponse K} (hproxy : proxy b = .ok response)
    (hP : s.hg.store.getPeerSet b.body.roundReceived = .ok P) :
    Exec.exec (commit S v proxy b) s =
      Exec.exec (Session.onHashgraph (Hashgraph.setAnchorBlock (signedBlock S v P (b.answered response)))
        >>= fun _ => processAcceptedInternalTransactions v b.body.roundReceived
          response.internalTransactionReceipts)
        (withSigned S v P (b.answered response) (setBlock (b.answered response) s)) := by
  have hsign := exec_signBlock (S := S) (v := v) (b := b.answered response)
    (s := setBlock (b.answered response) s) (P := P) hP
  simp only [commit, hproxy, Exec.exec_bind, Exec.exec_modify]
  simp only [Block.answered] at hsign ⊢
  rw [hsign]
  simp only [body_signedBlock]

theorem getPeerSet_withSigned (hP : s.hg.store.getPeerSet b.body.roundReceived = .ok P) :
    (withSigned S v P b (setBlock b s)).hg.store.getPeerSet
      (signedBlock S v P b).body.roundReceived = .ok P := by
  rw [body_signedBlock, withSigned]
  split <;> exact hP

/-- The receipts of a block of round `q` only record a peer-set for a later round. -/
theorem shelf_process (receipts : List (InternalTransactionReceipt K)) (s : Core H K) :
    (Exec.exec (processAcceptedInternalTransactions v q receipts) s).2.hg.shelf = s.hg.shelf ∨
      ∃ V c, s.hg.shelf.peerSets.set (q + 6) V = .ok c ∧
        (Exec.exec (processAcceptedInternalTransactions v q receipts) s).2.hg.shelf =
          { s.hg.shelf with peerSets := c } := by
  obtain ⟨res, s', hexec, hcase⟩ := exec_process_cases (v := v) s q receipts
  rw [hexec]
  rcases hcase with ⟨-, -, -, hhg⟩ | ⟨-, err, -, -, -, hhg⟩ | ⟨-, st, hst, -, -, hhg⟩
  · exact .inl (by rw [hhg])
  · exact .inl (by rw [hhg])
  · obtain ⟨psc, pec, roots, fc, hset, rfl, -, -⟩ := InmemStore.setPeerSet_eq hst
    exact .inr ⟨_, psc, hset, by rw [hhg]; rfl⟩

theorem grows_process (receipts : List (InternalTransactionReceipt K)) (s : Core H K) :
    s.hg.shelf.Grows (Exec.exec (processAcceptedInternalTransactions v q receipts) s).2.hg.shelf := by
  rcases shelf_process (v := v) (q := q) receipts s with he | ⟨V, c, hset, he⟩
  · rw [he]
    exact .refl _
  · rw [he]
    exact Shelf.grows_record hset

theorem backed_process (receipts : List (InternalTransactionReceipt K)) {s : Core H K}
    (h : s.hg.shelf.Backed S q) :
    (Exec.exec (processAcceptedInternalTransactions v q receipts) s).2.hg.shelf.Backed S q := by
  rcases shelf_process (v := v) (q := q) receipts s with he | ⟨V, c, hset, he⟩
  · rw [he]
    exact h
  · rw [he]
    exact h.record hset (by omega)

/-- A commit records peer-sets and moves the anchor up. -/
theorem grows_commitCallback (b : Block K) (s : Core H K) :
    s.hg.shelf.Grows (commitCallback S v proxy b s).hg.shelf := by
  unfold commitCallback
  cases hproxy : proxy b with
  | error err =>
    simp only [commit, hproxy, Exec.exec_throw]
    exact .refl _
  | ok response =>
    cases hP : s.hg.store.getPeerSet b.body.roundReceived with
    | error err =>
      have hP' : (setBlock (b.answered response) s).hg.store.getPeerSet
          (b.answered response).body.roundReceived = .error err := hP
      simp only [commit, hproxy, Exec.exec_bind, Exec.exec_modify, signBlock,
        Session.exec_onHashgraph, Hashgraph.exec_read]
      simp only [Block.answered] at hP'
      rw [hP']
      exact .of_eq rfl rfl
    | ok P =>
      rw [exec_commit hproxy hP, Exec.exec_bind, Session.exec_onHashgraph]
      set s₂ := withSigned S v P (b.answered response) (setBlock (b.answered response) s) with hs₂
      have h₂ : s.hg.shelf.Grows s₂.hg.shelf := by
        rw [hs₂, withSigned]
        split <;> exact .of_eq rfl rfl
      have h₃ := Hashgraph.grows_setAnchorBlock (signedBlock S v P (b.answered response)) s₂.hg
      have hP₂ := getPeerSet_withSigned (S := S) (v := v) (b := b.answered response) (s := s) hP
      rw [Hashgraph.exec_setAnchorBlock hP₂] at h₃ ⊢
      exact (h₂.trans h₃).trans (grows_process _ { s₂ with hg := _ })

/-- The block of a commit is stored again with the answer of the application, and once more
with the signature of the validator if that is a member. -/
theorem backed_withSigned (hv : v.Signs S) (h : s.hg.shelf.Backed S q)
    (hr : 0 ≤ b.body.roundReceived ∧ b.body.roundReceived ≤ q) (hsigs : b.signatures = ∅)
    (hanchor : s.hg.anchorBlock ≠ some b.body.index)
    (hP : s.hg.store.getPeerSet b.body.roundReceived = .ok P)
    (ht : ∀ p ∈ P.peers, v.Untwinned p) :
    (withSigned S v P b (setBlock b s)).hg.shelf.Backed S q ∧
      (withSigned S v P b (setBlock b s)).hg.shelf.blocks.lookup b.body.index =
        some (signedBlock S v P b) := by
  have he : s.hg.shelf.Endorses S b := by
    intro Q hQ k sig hk
    rw [hsigs] at hk
    cases hk
  have h₁ : (s.hg.shelf.setBlock b).Backed S q := h.setBlock hr he fun ha => absurd ha hanchor
  unfold withSigned signedBlock
  cases hid : P.byID.lookup v.id with
  | none => exact ⟨h₁, AList.lookup_insert _⟩
  | some p =>
    obtain ⟨p, hp, hpid⟩ := PeerSet.exists_of_byID (P := P) (i := v.id) (by rw [hid]; simp)
    have he₂ : s.hg.shelf.Endorses S (b.setSignature (signatureOf S v b)) :=
      he.setSignature hP hp (ht p hp hpid).symm (hv _)
    exact ⟨h₁.setBlock hr he₂ fun ha => absurd ha hanchor, AList.lookup_insert _⟩

/-- The commit of a block that has just been stored. -/
theorem backed_commitCallback (hv : v.Signs S) (h : s.hg.shelf.Backed S b.body.roundReceived)
    (hr : 0 ≤ b.body.roundReceived) (hsigs : b.signatures = ∅)
    (hanchor : s.hg.anchorBlock ≠ some b.body.index)
    (hP : s.hg.store.getPeerSet b.body.roundReceived = .ok P)
    (ht : ∀ p ∈ P.peers, v.Untwinned p) :
    (commitCallback S v proxy b s).hg.shelf.Backed S b.body.roundReceived := by
  unfold commitCallback
  cases hproxy : proxy b with
  | error err =>
    simp only [commit, hproxy, Exec.exec_throw]
    exact h
  | ok response =>
    obtain ⟨h₂, hb₂⟩ := backed_withSigned (b := b.answered response) hv h ⟨hr, le_refl _⟩ hsigs
      hanchor hP ht
    have hP₂ := getPeerSet_withSigned (S := S) (v := v) (b := b.answered response) (s := s) hP
    set s₂ := withSigned S v P (b.answered response) (setBlock (b.answered response) s)
    have h₃ := h₂.propose (b := signedBlock S v P (b.answered response)) (P := P)
      (by rw [body_signedBlock]; exact hb₂) hP₂
    rw [← Hashgraph.shelf_setAnchorBlock hP₂, Hashgraph.exec_setAnchorBlock hP₂] at h₃
    rw [exec_commit hproxy hP, Exec.exec_bind, Session.exec_onHashgraph,
      Hashgraph.exec_setAnchorBlock hP₂]
    exact backed_process _ h₃

end Core

/-! ## What stays sound -/

theorem Session.Sound.of_undisturbed {S : Scheme H K} {q : ℤ} {s s' : Session C H K}
    (hs : Session.Sound S q s) (hu : Hashgraph.Undisturbed s.hg s'.hg) : Session.Sound S q s' := by
  obtain ⟨A, hw⟩ := hs.wellFormed
  refine ⟨⟨A, ?_⟩, hu.lastConsensusRound ▸ hs.lastConsensusRound⟩
  rw [hu.eventCache]
  exact hw.of_sameQueues hu.toSameQueues

theorem Session.Sound.tick {S : Scheme H K} {q : ℤ} {s : Session C H K}
    (hs : Session.Sound S q s) (n : ℕ) :
    Session.Sound S q { s with hg := { s.hg with memo := { s.hg.memo with tick := n } } } := by
  obtain ⟨A, hw⟩ := hs.wellFormed
  exact ⟨⟨A, { hw with divided := { hw.divided with } }⟩, hs.lastConsensusRound⟩

theorem Hashgraph.undisturbed_processSignature {S : Scheme H K} (bs : BlockSignature) :
    Exec.Relates Undisturbed (processSignature S bs : Hg H K Unit) := by
  intro h
  rcases processSignature_cases (S := S) bs h with he | ⟨b, P, hb, hP, hm, hv, pool, he⟩
  · rw [he]
    exact .refl h
  · rw [he]
    have h₁ := undisturbed_setBlock h (b.setSignature bs)
    have h₂ := relates_setAnchorBlock .refl (fun h a => (Core.hosted_anchorBlock b h a).toUndisturbed)
      (b.setSignature bs) { h with store := h.store.setBlock (b.setSignature bs) }
    exact (h₁.trans h₂).trans
      ⟨⟨rfl, rfl, rfl, rfl, fun _ => id, fun _ => id, id, rfl, rfl, rfl, rfl⟩, rfl⟩

/-! ## Runs -/

namespace Core

variable {S : Scheme H K} {rt : Runtime} {v : Validator} {proxy : ProxyCommitCallback K}
  {q : ℤ} {s s' : Core H K}

/-- The shelf is backed with blocks up to round `q`, if no recorded peer is a twin of the
validator. -/
def Anchored (S : Scheme H K) (v : Validator) (q : ℤ) (s : Core H K) : Prop :=
  s.hg.shelf.Untwinned v → s.hg.shelf.Backed S q

theorem Anchored.of_eq (h : Anchored S v q s) (hs : s'.hg.shelf = s.hg.shelf) :
    Anchored S v q s' := by
  unfold Anchored
  rwa [hs]

theorem grows_commitFrame (fr : Frame H K) (s : Core H K) :
    s.hg.shelf.Grows (Session.commitFrame S (commitCallback S v proxy) fr s).hg.shelf := by
  rw [Session.commitFrame_eq]
  split_ifs
  · exact .refl _
  · have hset (b : Block K) : s.hg.shelf.Grows (Session.storing b s).hg.shelf := .of_eq rfl rfl
    exact (hset _).trans (grows_commitCallback _ _)

/-- The frame of the next round is committed. -/
theorem Anchored.commitFrame (hv : v.Signs S) (h : Anchored S v q s) (hq : -1 ≤ q)
    {fr : Frame H K} (hfr : fr.round = q + 1) :
    Anchored S v (q + 1) (Session.commitFrame S (commitCallback S v proxy) fr s) := by
  intro ht'
  have ht := ht'.of_grows (grows_commitFrame fr s)
  have hs := h ht
  rw [Session.commitFrame_eq]
  split_ifs with hvoid
  · exact hs.mono (by omega)
  · set b := Block.fromFrame S (s.hg.store.lastBlock + 1) fr
    have hr : b.body.roundReceived = q + 1 := hfr
    -- the index is a new one
    have hanchor : s.hg.shelf.anchor ≠ some b.body.index := by
      intro ha
      obtain ⟨b', hb', -⟩ := hs.trusted ha
      have hle : s.hg.store.lastBlock + 1 ≤ s.hg.store.lastBlock := (hs.index hb').2
      omega
    have hstored : (Session.storing b s).hg.shelf.Backed S b.body.roundReceived := by
      refine (hs.mono (by omega)).setBlock ⟨by omega, le_refl _⟩ (fun Q hQ k sig hk => ?_)
        fun ha => absurd ha hanchor
      cases hk
    obtain ⟨P, hP, htP⟩ := ht.get hs.founded (r := b.body.roundReceived) (by omega)
    rw [← hr]
    exact backed_commitCallback hv hstored (by omega) rfl hanchor hP htP

/-- The rounds of a call are processed one after the other. -/
theorem Anchored.processed (hv : v.Signs S) (h : Anchored S v q s) (hq : -1 ≤ q)
    {A : Assignment H} {n : ℤ}
    (hp : Session.Processed S rt (commitCallback S v proxy) A q s n s') :
    Anchored S v n s' ∧ s.hg.shelf.Grows s'.hg.shelf := by
  induction hp with
  | start => exact ⟨h, .refl _⟩
  | @round n t info P fr h₁ ht hinfo hdec hP hfr ho ih =>
    have hn := ht.le
    have hs₁ : h₁.shelf = t.hg.shelf := by
      obtain ⟨k, cc, tot, rfl⟩ := ho
      rfl
    have h₁' : Anchored S v n ({ t with hg := h₁ } : Core H K) := ih.1.of_eq hs₁
    refine ⟨(h₁'.commitFrame hv (by omega) hfr.round).of_eq (Session.shelf_closeRound _ _ _),
      ih.2.trans ?_⟩
    rw [← hs₁, Session.close, Session.shelf_closeRound]
    exact grows_commitFrame fr { t with hg := h₁ }

theorem shelf_call {ps : ℤ → PeerSet K} {A : Assignment H} {R : Reading H K}
    {cb : CommitCallback (CoreState H K) H K} {i : Session.Input H K}
    (c : Session.Call S rt cb R ps A q s i s') : c.h₄.shelf = s.hg.shelf := by
  obtain ⟨pec, hst, -⟩ := Hashgraph.setEvent_eq c.ins.setEvent
  obtain ⟨ti, sigs, he₁⟩ := c.result
  obtain ⟨ec, rc, m, pr, us, he₄⟩ := c.consensus.eq
  rw [he₄, he₁, hst]
  rfl

variable (rt proxy) in
/-- A call keeps the shelf backed. -/
theorem Anchored.feed (hv : v.Signs S) (hs : Session.Sound S q s) (h : Anchored S v q s)
    (i : Session.Input H K) :
    ∃ q', Session.Sound S q' (Session.feed S rt (commitCallback S v proxy) s i) ∧
      Anchored S v q' (Session.feed S rt (commitCallback S v proxy) s i) ∧
      s.hg.shelf.Grows (Session.feed S rt (commitCallback S v proxy) s i).hg.shelf := by
  have hcb : Session.Undisturbing (commitCallback S v proxy) := undisturbing_commitCallback
  rcases hs.feed_cases rt hcb i with
    ⟨err, ti, -, -, he⟩ | ⟨s', ps, A, he, hw, ⟨c⟩⟩
  · rw [Session.feed, he]
    refine ⟨q, hs.of_undisturbed ?_, h.of_eq rfl, .of_eq rfl rfl⟩
    exact ⟨⟨rfl, rfl, rfl, rfl, fun _ => id, fun _ => id, id, rfl, rfl, rfl, rfl⟩, rfl⟩
  · have hs' : Session.Sound S c.n s' := ⟨⟨c.A', c.wellFormed⟩,
      c.lastConsensusRound undisturbing_commitCallback hs.lastConsensusRound⟩
    have h₄ : Anchored S v q ({ s with hg := c.h₄ } : Core H K) := h.of_eq (shelf_call c)
    obtain ⟨h', hg'⟩ := h₄.processed hv hw.le c.processed
    have hshelf : s'.hg.shelf = c.t.hg.shelf := congrArg (fun s => s.hg.shelf) c.eq
    rw [Session.feed, he]
    refine ⟨c.n, hs', h'.of_eq hshelf, ?_⟩
    rw [hshelf, ← shelf_call c]
    exact hg'

/-- An event is inserted, a signature arrives in the pool, or the pool is processed. -/
inductive Action (H K : Type)
  | insert (i : Session.Input H K)
  | receive (bs : BlockSignature)
  | processSigPool

/-- The core after an action. Errors are left to the caller. -/
def step (S : Scheme H K) (rt : Runtime) (v : Validator) (proxy : ProxyCommitCallback K)
    (s : Core H K) : Action H K → Core H K
  | .insert i => (Exec.exec (insertEventAndRunConsensus S rt v proxy i.event i.wire i.fill) s).2
  | .receive bs => { s with hg := { s.hg with
      pendingSignatures := Hashgraph.addPendingSignature s.hg.pendingSignatures bs } }
  | .processSigPool => (Exec.exec (Session.onHashgraph (Hashgraph.processSigPool S rt)) s).2

/-- Besides the head, the core does what its hashgraph does. -/
theorem insertEventAndRunConsensus_eq (S : Scheme H K) (rt : Runtime) (v : Validator)
    (proxy : ProxyCommitCallback K) (s : Core H K) (i : Session.Input H K) :
    ∃ head seq, (Exec.exec (insertEventAndRunConsensus S rt v proxy i.event i.wire i.fill) s).2 =
      withHead (Session.feed S rt (commitCallback S v proxy) s i) head seq := by
  rw [insertEventAndRunConsensus, Exec.exec_bind, Session.feed]
  obtain ⟨res, t⟩ := Exec.exec (Session.insertEventAndRunConsensus S rt (commitCallback S v proxy)
    i.event i.wire i.fill) s
  cases res with
  | error err => exact ⟨t.host.head, t.host.seq, rfl⟩
  | ok _ =>
    simp only
    split_ifs
    · exact ⟨_, _, rfl⟩
    · exact ⟨t.host.head, t.host.seq, rfl⟩

theorem Anchored.processSigPool (hs : Session.Sound S q s) (h : Anchored S v q s) :
    Session.Sound S q (step S rt v proxy s .processSigPool) ∧
      Anchored S v q (step S rt v proxy s .processSigPool) ∧
      s.hg.shelf.Grows (step S rt v proxy s .processSigPool).hg.shelf := by
  have hgrows : Exec.Relates Hashgraph.Grows (Hashgraph.processSigPool S rt : Hg H K Unit) :=
    Exec.Relates.bind .trans (fun h => .refl h) fun _ =>
      Exec.Relates.bind .trans (fun h => .refl h) fun _ =>
        Exec.relates_forM .refl .trans Hashgraph.grows_processSignature
  rw [step, Session.exec_onHashgraph]
  refine ⟨?_, fun ht => ?_, hgrows s.hg⟩
  · exact (hs.tick (s.hg.memo.tick + 1)).of_undisturbed (Exec.relates_forM
      Hashgraph.Undisturbed.refl .trans Hashgraph.undisturbed_processSignature _)
  · exact Exec.relates_forM (r := fun h h' : Hashgraph H K => h.shelf.Backed S q →
      h'.shelf.Backed S q) (fun _ => id) (fun h1 h2 => h2 ∘ h1) Hashgraph.backed_processSignature
      { s.hg with memo := { s.hg.memo with tick := s.hg.memo.tick + 1 } }
      (h (ht.of_grows (hgrows s.hg)))

variable (rt proxy) in
/-- An action keeps the shelf backed. -/
theorem Anchored.step (hv : v.Signs S) (hs : Session.Sound S q s) (h : Anchored S v q s)
    (a : Action H K) :
    ∃ q', Session.Sound S q' (Core.step S rt v proxy s a) ∧
      Anchored S v q' (Core.step S rt v proxy s a) ∧
      s.hg.shelf.Grows (Core.step S rt v proxy s a).hg.shelf := by
  cases a with
  | insert i =>
    obtain ⟨q', hs', h', hg'⟩ := h.feed rt proxy hv hs i
    obtain ⟨head, seq, he⟩ := insertEventAndRunConsensus_eq S rt v proxy s i
    rw [Core.step, he]
    exact ⟨q', ⟨hs'.wellFormed, hs'.lastConsensusRound⟩, h'.of_eq rfl, hg'⟩
  | receive bs =>
    refine ⟨q, hs.of_undisturbed ?_, h.of_eq rfl, .of_eq rfl rfl⟩
    exact ⟨⟨rfl, rfl, rfl, rfl, fun _ => id, fun _ => id, id, rfl, rfl, rfl, rfl⟩, rfl⟩
  | processSigPool => exact ⟨q, h.processSigPool hs⟩

theorem backed_new (n : ℕ) (peers genesis : PeerSet K) :
    (Core.new peers genesis (InmemStore.new n) : Core H K).hg.shelf.Backed S (-1) := by
  obtain ⟨h, hi⟩ := exists_init (H := H) n genesis
  rw [new_hg hi]
  obtain ⟨st, hs, rfl⟩ := Hashgraph.init_cases hi
  obtain ⟨psc, pec, roots, fc, hset, rfl, -, -⟩ := InmemStore.setPeerSet_eq hs
  obtain ⟨-, hps, hrounds⟩ := PeerSetCache.set_eq hset
  have hr : psc.rounds = [0] := hrounds
  refine ⟨⟨?_, fun r => ?_, 0, ?_, le_refl 0⟩, ?_, ?_, ?_, ?_⟩
  · simp [Hashgraph.shelf, Hashgraph.new, hr]
  · change r ∈ psc.rounds ↔ r ∈ psc.peerSets
    rw [hr, hps, AList.mem_insert, List.mem_singleton]
    exact (or_iff_left (AList.notMem_empty r)).symm
  · simp [Hashgraph.shelf, Hashgraph.new, hr]
  all_goals simp [Hashgraph.shelf, Hashgraph.new, InmemStore.new]

/-- In every run, the anchor has more signatures than the trust count of its peer-set, each
of them valid for its body and by a member of its peer-set, as long as no recorded peer has
the identifier of the validator with another key; and the anchor never sinks. -/
theorem anchor_backed (S : Scheme H K) (rt : Runtime) (v : Validator)
    (proxy : ProxyCommitCallback K) (hv : v.Signs S) (n : ℕ) (peers genesis : PeerSet K)
    (actions : List (Action H K)) (s : Core H K)
    (hs : s = actions.foldl (step S rt v proxy) (Core.new peers genesis (InmemStore.new n)))
    (ht : ∀ r P, s.hg.store.peerSetCache.peerSets.lookup r = some P →
      ∀ p ∈ P.peers, p.id = v.id → p.pubKeyBytes = v.publicKeyBytes)
    (i : ℤ) (hi : s.hg.anchorBlock = some i) :
    (∃ b P, s.hg.store.getBlock i = .ok b ∧
      s.hg.store.getPeerSet b.body.roundReceived = .ok P ∧
      P.trustCount < b.signatures.keys.length ∧
      ∀ k sig, b.signatures.lookup k = some sig → b.Endorsed S P k sig) ∧
    ∀ a, ∃ j, (step S rt v proxy s a).hg.anchorBlock = some j ∧ i ≤ j := by
  have hrun : ∃ q, Session.Sound S q s ∧ Anchored S v q s := by
    rw [hs]
    refine List.foldlRecOn actions _ (motive := fun s : Core H K => ∃ q, Session.Sound S q s ∧
      Anchored S v q s) ⟨-1, sound_new S n peers genesis, fun _ => backed_new n peers genesis⟩ ?_
    rintro s ⟨q, hs, h⟩ a -
    obtain ⟨q', hs', h', -⟩ := h.step rt proxy hv hs a
    exact ⟨q', hs', h'⟩
  obtain ⟨q, hsound, h⟩ := hrun
  refine ⟨?_, fun a => ?_⟩
  · have hb := h ht
    obtain ⟨b, hlookup, P, hP, hcount⟩ := hb.trusted hi
    refine ⟨b, P, ?_, hP, hcount, hb.endorsed hlookup P hP⟩
    rw [InmemStore.getBlock, show AList.lookup i _ = some b from hlookup]
  · obtain ⟨-, -, -, hgrows⟩ := h.step rt proxy hv hsound a
    exact hgrows.anchor i hi

end Core

namespace Sample

theorem signs_validator (key : UInt8) : (validator key).Signs scheme := by
  intro digest
  exact (by decide : (decodeSignature "1|1").bind (fun rs => scheme.verify [] [] rs) = .ok true)

/-- Two validators take turns; then the signatures of the other one and of a stranger
arrive. -/
def duet : List (Core.Action Bytes Bytes) :=
  [ event 0 1 0 none none [],
    event 1 2 0 none (some 0) [],
    event 2 1 1 (some 0) (some 1) [],
    event 3 2 1 (some 1) (some 2) [],
    event 4 1 2 (some 2) (some 3) [],
    event 5 2 2 (some 3) (some 4) [],
    event 6 1 3 (some 4) (some 5) [],
    event 7 2 3 (some 5) (some 6) [] ].map (fun e => .insert ⟨e, {}, true⟩) ++
  [.receive ⟨[2], 0, "1|1"⟩, .receive ⟨[3], 0, "1|1"⟩, .processSigPool]

/-- The node of the first validator after that. -/
def afterDuet : Core Bytes Bytes :=
  duet.foldl (Core.step scheme .plain (validator 1) acceptAll)
    (Core.new ⟨[peer 1, peer 2]⟩ ⟨[peer 1, peer 2]⟩ (InmemStore.new 100))

theorem afterDuet_anchor : afterDuet.hg.anchorBlock = some 0 := by
  decide +kernel

theorem afterDuet_peers : ∀ e ∈ afterDuet.hg.store.peerSetCache.peerSets.entries,
    ∀ p ∈ e.2.peers, p.id = (validator 1).id → p.pubKeyBytes = (validator 1).publicKeyBytes := by
  decide +kernel

/-- The first block is the anchor, with the signatures of both validators. -/
theorem duet_backed :
    (∃ b P, afterDuet.hg.store.getBlock 0 = .ok b ∧
      afterDuet.hg.store.getPeerSet b.body.roundReceived = .ok P ∧
      P.trustCount < b.signatures.keys.length ∧
      ∀ k sig, b.signatures.lookup k = some sig → b.Endorsed scheme P k sig) ∧
    ∀ a, ∃ j, (Core.step scheme .plain (validator 1) acceptAll afterDuet a).hg.anchorBlock = some j ∧
      0 ≤ j :=
  Core.anchor_backed scheme .plain (validator 1) acceptAll (signs_validator 1) 100
    ⟨[peer 1, peer 2]⟩ ⟨[peer 1, peer 2]⟩ duet afterDuet rfl
    (fun r P hP => afterDuet_peers ⟨r, P⟩ (AList.mem_lookup_iff.1 hP)) 0 afterDuet_anchor

/-- A public key, for which the private key is 69658. -/
def memberKey : Bytes :=
  [
    0x04, 0x78, 0x69, 0x89, 0x1d, 0xa0, 0xb6, 0x2d, 0x07, 0x58, 0xb1, 0xcf, 0x6a,
    0xe4, 0x83, 0x02, 0xea, 0x2d, 0xf1, 0xed, 0x9d, 0x5a, 0xa3, 0x49, 0xbe, 0xd5,
    0x49, 0xef, 0x29, 0x8d, 0xfa, 0x7b, 0xb3, 0x40, 0xa9, 0x3a, 0xdf, 0xbe, 0x62,
    0xed, 0x7b, 0xde, 0x0d, 0x05, 0x3e, 0xf3, 0x16, 0xf2, 0x0e, 0x2a, 0x71, 0x2a,
    0x4b, 0x79, 0x30, 0xaf, 0x65, 0x38, 0xc0, 0x7b, 0xf0, 0x16, 0x3f, 0xb4, 0x8f ]

/-- A public key, for which the private key is 72924. -/
def strangerKey : Bytes :=
  [
    0x04, 0xeb, 0xc6, 0x3c, 0x23, 0x58, 0xed, 0x30, 0x6f, 0x9c, 0xc5, 0xd4, 0xc3,
    0x89, 0xb0, 0xd9, 0x9a, 0x97, 0x92, 0x86, 0x9b, 0x91, 0xf7, 0xd0, 0xc2, 0xf0,
    0x16, 0xae, 0xd2, 0x87, 0x4e, 0x9f, 0x1d, 0xcd, 0x57, 0x73, 0x41, 0xd5, 0x08,
    0xf8, 0x17, 0xee, 0xcb, 0x15, 0x82, 0xa7, 0x11, 0xf1, 0x01, 0x0b, 0xa8, 0xde,
    0xed, 0x3c, 0xf6, 0x35, 0xb7, 0x55, 0x33, 0x61, 0x84, 0xab, 0xfc, 0x40, 0xed ]

/-- The peer with the first key. -/
def member : Peer Bytes :=
  { netAddr := "", pubKeyHex := memberKey, moniker := "" }

/-- The operator of a node with the second key. -/
def stranger : Validator :=
  { publicKeyBytes := strangerKey, sign := fun _ => "1|1" }

/-- The only validator goes on alone. -/
def solo : List (Core.Action Bytes Bytes) :=
  [ (0, none), (1, some 0), (2, some 1), (3, some 2) ].map fun e =>
    let ev := event e.1 0 e.1 e.2 none []
    .insert ⟨{ ev with body := { ev.body with creator := memberKey } }, {}, true⟩

/-- A node that is not a member of the peer-set, with the identifier of one, makes the first
block its anchor by its own signature. -/
theorem stranger_signs :
    let s := solo.foldl (Core.step scheme .plain stranger acceptAll)
      (Core.new ⟨[member]⟩ ⟨[member]⟩ (InmemStore.new 100))
    stranger.id = member.id ∧ s.hg.anchorBlock = some 0 ∧
      (s.hg.store.getPeerSet 1).toOption = some ⟨[member]⟩ ∧
      (s.hg.store.blockCache.lookup 0).map (fun b => (b.body.roundReceived, b.signatures.keys)) =
        some (1, [strangerKey]) := by
  decide +kernel

end Sample

end Babble

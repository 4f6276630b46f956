import Babble.Process

/-!
# The core of a node

`core` owns the hashgraph of a node and is its host : its `commit` hands a block to the
application, signs it, and processes the receipts of the internal transactions. Accepted
joins and leaves change the validator-set, which is recorded in the store to be effective
six rounds after the round-received of the block.

`fastForward` resets the hashgraph from a block and a frame received from a peer.
-/

set_option linter.unusedSectionVars false

namespace Babble

variable {H K : Type} [DecidableEq H] [DecidableEq K] [Hex H] [Hex K]

/-- The peer that operates a node : its public key, and signing with its private key. -/
structure Validator where
  publicKeyBytes : List UInt8
  sign : List UInt8 → String

/-- The identifier of the validator. -/
def Validator.id (v : Validator) : UInt32 :=
  fnv32a v.publicKeyBytes

/-- The public key as a string. -/
def Validator.publicKeyHex (v : Validator) : K :=
  Hex.encodeToString v.publicKeyBytes

/-- What the application answers to a block. -/
structure CommitResponse (K : Type) where
  stateHash : List UInt8
  internalTransactionReceipts : List (InternalTransactionReceipt K)

/-- The application behind a node. A run commits a block index once, so that the answer
may stand for one of an application with a state. -/
abbrev ProxyCommitCallback (K : Type) := Block K → Except Err (CommitResponse K)

/-- The fields of `core` besides the hashgraph. -/
structure CoreState (H K : Type) where
  genesisPeers : PeerSet K
  validators : PeerSet K
  peers : PeerSet K
  head : Option H := none
  seq : ℤ := -1
  acceptedRound : ℤ := -1
  removedRound : ℤ := -1
  targetRound : ℤ := -1
  lastPeerChangeRound : ℤ := -1
  selfBlockSignatures : Map (ℤ × K) BlockSignature := ∅
deriving DecidableEq

/-- A core with its hashgraph. -/
abbrev Core (H K : Type) := Session (CoreState H K) H K

namespace Core

variable (S : Scheme H K) (rt : Runtime) (v : Validator) (proxy : ProxyCommitCallback K)

/-- A new core, whose hashgraph is initialised with the genesis peers. An error of `Init`
is ignored. -/
def new (peers genesisPeers : PeerSet K) (store : InmemStore H K) : Core H K where
  host := { genesisPeers := genesisPeers, validators := genesisPeers, peers := peers }
  hg :=
    match (Hashgraph.new store).init genesisPeers with
    | .ok hg => hg
    | .error _ => Hashgraph.new store

/-! ## Receipts -/

/-- What the receipts of a block amount to. -/
structure Changes (K : Type) where
  validators : PeerSet K
  currentPeers : PeerSet K
  removedRound : ℤ
  changed : Bool

/-- Apply one receipt. -/
def applyReceipt (effectiveRound : ℤ) (c : Changes K) (r : InternalTransactionReceipt K) :
    Changes K :=
  let txBody := r.internalTransaction.body
  if r.accepted then
    match txBody.type with
    | .peerAdd =>
      { c with
        validators := c.validators.withNewPeer txBody.peer
        currentPeers := c.currentPeers.withNewPeer txBody.peer
        changed := true }
    | .peerRemove =>
      { validators := c.validators.withRemovedPeer txBody.peer
        currentPeers := c.currentPeers.withRemovedPeer txBody.peer
        removedRound := if txBody.peer.id = v.id then effectiveRound else c.removedRound
        changed := true }
    | .unknown _ => c
  else c

/-- Process the receipts of a block, and record the new peer-set for the sixth round after
the round-received. -/
def processAcceptedInternalTransactions (roundReceived : ℤ)
    (receipts : List (InternalTransactionReceipt K)) : Exec Err (Core H K) Unit := do
  let s ← get
  let effectiveRound := roundReceived + 6
  let changes := receipts.foldl (applyReceipt v effectiveRound)
    { validators := s.host.validators
      currentPeers := s.host.peers
      removedRound := s.host.removedRound
      changed := false }
  modify fun s => { s with host := { s.host with removedRound := changes.removedRound } }
  if changes.changed then
    modify fun s => { s with host := { s.host with lastPeerChangeRound := effectiveRound } }
    Session.onHashgraph (Hashgraph.tryStore "Updating Store PeerSet" fun st =>
      st.setPeerSet effectiveRound changes.validators)
    modify fun s =>
      { s with host := { s.host with
          validators := changes.validators
          peers := changes.currentPeers
          targetRound := max s.host.targetRound effectiveRound } }

/-! ## Commit -/

/-- Store a block. -/
def setBlock (block : Block K) (s : Core H K) : Core H K :=
  { s with hg := { s.hg with store := s.hg.store.setBlock block } }

/-- Sign a block if the validator belongs to its peer-set, and save it. -/
def signBlock (block : Block K) : Exec Err (Core H K) (Block K) := do
  let blockPeerSet ← Session.onHashgraph (Hashgraph.read fun st =>
    st.getPeerSet block.body.roundReceived)
  match blockPeerSet.byID.lookup v.id with
  | none => return block
  | some _ =>
    let sig : BlockSignature :=
      { validator := v.publicKeyBytes
        index := block.body.index
        signature := v.sign (block.body.hash S) }
    let block := block.setSignature sig
    modify (setBlock block)
    modify fun s => { s with host := { s.host with
      selfBlockSignatures := Hashgraph.addPendingSignature s.host.selfBlockSignatures sig } }
    return block

/-- Commit a block to the application and handle the response. The block is the one in
the store, so that its state hash and receipts change there. -/
def commit (block : Block K) : Exec Err (Core H K) Unit := do
  match proxy block with
  | .error err => throw err
  | .ok commitResponse =>
    let block := { block with body := { block.body with
      stateHash := commitResponse.stateHash
      internalTransactionReceipts := commitResponse.internalTransactionReceipts } }
    modify (setBlock block)
    let block ← signBlock S v block
    Session.onHashgraph (Hashgraph.setAnchorBlock block)
    processAcceptedInternalTransactions v block.body.roundReceived
      commitResponse.internalTransactionReceipts

/-- `commit` as the callback of the hashgraph. -/
def commitCallback : CommitCallback (CoreState H K) H K :=
  fun block s => (Exec.exec (commit S v proxy block) s).2

/-- The head of a core and its index. -/
def withHead (s : Core H K) (head : Option H) (seq : ℤ) : Core H K :=
  { s with host := { s.host with head := head, seq := seq } }

/-- Insert an event and run consensus. -/
def insertEventAndRunConsensus (event : SignedEvent H K) (wire : WireInfo) (fill : Bool) :
    Exec Err (Core H K) Unit := do
  Session.insertEventAndRunConsensus S rt (commitCallback S v proxy) event wire fill
  if event.creator = (v.publicKeyHex : K) then
    modify fun s => s.withHead (some (event.hex S)) event.body.index

/-! ## Fast-forward -/

/-- Set the head and the sequence number from the validator's last event. -/
def setHeadAndSeq : Exec Err (Core H K) Unit := do
  let s ← get
  match s.hg.store.peerSetCache.repertoireByID.lookup v.id with
  | none => set (s.withHead none (-1))
  | some _ =>
    match s.hg.store.lastEventFrom (v.publicKeyHex : K) with
    | .error err =>
      if err.isStore .empty then set (s.withHead none (-1)) else throw err
    | .ok last =>
      let lastEvent ← Exec.ofExcept (s.hg.store.getEvent last)
      set (s.withHead (some last) lastEvent.body.index)

/-- Reset the hashgraph from a block and its frame. -/
def fastForward (block : Block K) (frame : Frame H K) : Exec Err (Core H K) Unit := do
  let peerSet : PeerSet K := ⟨frame.peers⟩
  Exec.ofExcept (Hashgraph.checkBlock S block peerSet)
  if block.body.frameHash ≠ frame.hash S then
    throw (.msg "Invalid Frame Hash")
  else
    Session.onHashgraph (Hashgraph.reset S rt block frame)
    setHeadAndSeq v
    modify fun s =>
      { s with host := { s.host with peers := ⟨frame.peers⟩, validators := ⟨frame.peers⟩ } }

end Core

/-- The part of `Node.fastForward` that changes the core : the receipts of the block are
processed after the reset, and an error of that is only logged. -/
def nodeFastForward (S : Scheme H K) (rt : Runtime) (v : Validator) (block : Block K)
    (frame : Frame H K) : Exec Err (Core H K) Unit := do
  Core.fastForward S rt v block frame
  let _ ← Exec.attempt (Core.processAcceptedInternalTransactions v block.body.roundReceived
    block.body.internalTransactionReceipts)

end Babble

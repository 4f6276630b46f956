import Babble.Frames

/-!
# Decided rounds, blocks and reset

`processDecidedRounds` turns the decided rounds at the front of the queue into frames and
blocks and hands every block to the commit callback. The callback belongs to the host of
the hashgraph : it has a state of its own and may change the hashgraph, as the one of
`core` does when it records a new peer-set. `Session` is a host with its hashgraph.

`reset` starts a hashgraph again from a block and its frame.
-/

set_option linter.unusedSectionVars false

namespace Babble

variable {C H K : Type} [DecidableEq H] [DecidableEq K] [Hex H] [Hex K]

/-- A host and its hashgraph. -/
structure Session (C H K : Type) where
  host : C
  hg : Hashgraph H K

/-- A commit callback. The hashgraph only logs its errors. -/
abbrev CommitCallback (C H K : Type) := Block K → Session C H K → Session C H K

/-- The callback that does nothing. -/
def dummyCommitCallback : CommitCallback C H K := fun _ s => s

namespace Hashgraph

variable (S : Scheme H K) (rt : Runtime)

/-! ## Decided rounds -/

/-- Set the last consensus round, and the first one if there is none. -/
def setLastConsensusRound (h : Hashgraph H K) (i : ℤ) : Hashgraph H K :=
  { h with
    lastConsensusRound := some i
    firstConsensusRound := some (h.firstConsensusRound.getD i) }

/-- Count an event of a frame among the consensus events. -/
def addConsensusEvent (h : Hashgraph H K) (e : FrameEvent H K) : Hashgraph H K :=
  { h with
    store := h.store.addConsensusEvent S e.core
    consensusTransactions := h.consensusTransactions + e.core.body.transactions.length
    pendingLoadedEvents := h.pendingLoadedEvents - if e.core.isLoaded then 1 else 0 }

/-- The frame of a decided round, with its events entered as consensus events. -/
def openRound (r : ℤ) : Hg H K (Frame H K) := do
  let _ ← read fun st => st.getRound r
  match ← Exec.attempt (getFrame S rt r) with
  | .error err => throw (.wrap "Getting Frame" err)
  | .ok frame =>
    modify fun h => frame.events.foldl (addConsensusEvent S) h
    return frame

/-- Close a decided round after its block was committed. -/
def closeRound (r : ℤ) (frame : Frame H K) (h : Hashgraph H K) : Hashgraph H K :=
  let h := if frame.events = [] then h
    else { h with lastCommitedRoundEvents := frame.events.length }
  match h.lastConsensusRound with
  | none => h.setLastConsensusRound r
  | some lcr => if lcr < r then h.setLastConsensusRound r else h

end Hashgraph

namespace Session

variable (S : Scheme H K) (rt : Runtime) (commitCallback : CommitCallback C H K)

/-- Run a method of the hashgraph. -/
def onHashgraph {α : Type} (m : Hg H K α) : Exec Err (Session C H K) α := do
  let s ← get
  let (r, hg) := Exec.exec m s.hg
  set { s with hg := hg }
  Exec.ofExcept r

/-- Store the block of a frame and commit it. A block without transactions is dropped. -/
def commitFrame (frame : Frame H K) (s : Session C H K) : Session C H K :=
  if frame.events = [] then s
  else
    let block := Block.fromFrame S (s.hg.store.lastBlock + 1) frame
    if block.body.transactions = [] ∧ block.body.internalTransactions = [] then s
    else commitCallback block { s with hg := { s.hg with store := s.hg.store.setBlock block } }

/-- Process one decided round. -/
def processRound (r : ℤ) : Exec Err (Session C H K) Unit := do
  let frame ← onHashgraph (Hashgraph.openRound S rt r)
  modify (commitFrame S commitCallback frame)
  modify fun s => { s with hg := s.hg.closeRound r frame }

/-- Process the decided rounds at the front of a list. Returns the rounds processed, with
the error that stopped the loop if there was one. -/
def processRounds : List PendingRound → Exec Err (Session C H K) (List ℤ × Except Err Unit)
  | [] => return ([], .ok ())
  | r :: rs => do
    if r.decided then
      match ← Exec.attempt (processRound S rt commitCallback r.index) with
      | .error err => return ([], .error err)
      | .ok _ =>
        let (processedRounds, res) ← processRounds rs
        return (r.index :: processedRounds, res)
    else return ([], .ok ())

/-- Process the decided rounds at the front of the queue, and remove them from it. -/
def processDecidedRounds : Exec Err (Session C H K) Unit := do
  let (processedRounds, res) ← processRounds S rt commitCallback (← get).hg.pendingRounds
  modify fun s =>
    { s with hg := { s.hg with pendingRounds := s.hg.pendingRounds.clean processedRounds } }
  Exec.ofExcept res

/-- Insert an event and run the consensus methods. -/
def insertEventAndRunConsensus (event : SignedEvent H K) (wire : WireInfo) (fill : Bool) :
    Exec Err (Session C H K) Unit := do
  onHashgraph (Hashgraph.insertEvent S rt event wire fill)
  onHashgraph (Hashgraph.divideRounds S rt)
  onHashgraph (Hashgraph.decideFame S rt)
  onHashgraph (Hashgraph.decideRoundReceived S rt)
  processDecidedRounds S rt commitCallback

end Session

/-! ## Reset -/

namespace Hashgraph

variable (S : Scheme H K) (rt : Runtime)

/-- Insert an event of a frame, without checks, as a consensus event. -/
def insertFrameEvent (frameEvent : FrameEvent H K) : Hg H K Unit := do
  let x := frameEvent.core.hex S
  modify fun h =>
    { h with memo := { h.memo with
        roundCache := h.memo.roundCache.insert x frameEvent.round
        witnessCache := h.memo.witnessCache.insert x frameEvent.witness
        timestampCache := h.memo.timestampCache.insert x frameEvent.lamportTimestamp } }
  let roundInfo ← read fun st => getOrNewRound st frameEvent.round
  modifyStore fun st =>
    st.setRound frameEvent.round (roundInfo.addCreatedEvent x frameEvent.witness)
  let ev : Event H K :=
    { frameEvent.core with
      round := some frameEvent.round
      lamportTimestamp := some frameEvent.lamportTimestamp }
  let ev := initEventCoordinates S (← get).store ev
  tryStore "SetEvent" fun st => st.setEvent S ev
  updateAncestorFirstDescendant S rt ev
  modifyStore fun st => st.addConsensusEvent S frameEvent.core

/-- Clear the hashgraph and start it again from a block and its frame. The cache of
Lamport timestamps stays. -/
def reset (block : Block K) (frame : Frame H K) : Hg H K Unit := do
  modify fun h =>
    { h with
      lastConsensusRound := none
      firstConsensusRound := none
      anchorBlock := none
      undeterminedEvents := []
      pendingRounds := []
      pendingLoadedEvents := 0
      topologicalIndex := 0
      memo := { timestampCache := h.memo.timestampCache, tick := h.memo.tick } }
  let tick := (← get).memo.tick
  modify fun h => { h with memo := { h.memo with tick := tick + 2 } }
  let store ← read fun st => st.reset rt tick frame
  modifyStore fun _ => store
  -- the frame's map of roots is by now the one of the store
  let frame := { frame with roots := store.roots }
  (frame.sortedFrameEvents rt (tick + 1)).forM (insertFrameEvent S rt)
  modifyStore fun st => st.setBlock block
  modify fun h =>
    { h.setLastConsensusRound block.body.roundReceived with
      roundLowerBound := some block.body.roundReceived }

/-- The number of valid signatures by members of a peer-set. A signature that fails to
decode is not counted; a nil pointer stops the program. -/
def countValidSignatures (block : Block K) (peerSet : PeerSet K) :
    List BlockSignature → Except Err ℕ
  | [] => .ok 0
  | s :: ss => do
    let n ← countValidSignatures block peerSet ss
    if s.validatorHex ∈ peerSet.byPubKey then
      match block.verify S s with
      | .ok true => return n + 1
      | .error (.panic text) => throw (.panic text)
      | _ => return n
    else return n

/-- Check that a block has valid signatures from more than a third of a peer-set. -/
def checkBlock (block : Block K) (peerSet : PeerSet K) : Except Err Unit := do
  if peerSet.hash S.sha256 ≠ block.body.peersHash then
    throw (.msg "Wrong PeerSet")
  else
    let validSignatures ← countValidSignatures S block peerSet block.getSignatures
    let trustCount := peerSet.trustCount
    if validSignatures ≤ trustCount then
      throw (.msg s!"Not enough valid signatures: got {validSignatures}, need {trustCount}")

/-- Make a block the anchor if it has enough signatures and is above the current one. -/
def setAnchorBlock (block : Block K) : Hg H K Unit := do
  let peerSet ← read fun st => st.getPeerSet block.body.roundReceived
  modify fun h =>
    if peerSet.trustCount < block.signatures.keys.length ∧
        ∀ i ∈ h.anchorBlock, i < block.body.index then
      { h with anchorBlock := some block.body.index }
    else h

end Hashgraph

end Babble

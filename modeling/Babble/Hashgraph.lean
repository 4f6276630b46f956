import Babble.Query

/-!
# The hashgraph and the insertion of events

A `Hashgraph` is a store with the caches of the queries, the queue of undetermined events
and the queue of pending rounds. Its methods are computations over that state (`Hg`) : a
method that fails keeps what it changed before.

`insertEvent` checks an event and stores it with its coordinates : the last ancestor by
every participant, taken over from the parents, and the first descendants, which it then
updates in the event's ancestors.
-/

set_option linter.unusedSectionVars false

namespace Babble

variable {H K : Type} [DecidableEq H] [DecidableEq K] [Hex H] [Hex K]

/-- A DAG of events with what consensus has derived from it so far. -/
structure Hashgraph (H K : Type) where
  store : InmemStore H K
  memo : Memo H := {}
  undeterminedEvents : List H := []
  pendingRounds : PendingRounds := []
  pendingSignatures : Map (ℤ × K) BlockSignature := ∅
  lastConsensusRound : Option ℤ := none
  firstConsensusRound : Option ℤ := none
  anchorBlock : Option ℤ := none
  roundLowerBound : Option ℤ := none
  lastCommitedRoundEvents : ℕ := 0
  consensusTransactions : ℕ := 0
  pendingLoadedEvents : ℤ := 0
  topologicalIndex : ℤ := 0
deriving DecidableEq

/-- A method of the hashgraph. -/
abbrev Hg (H K α : Type) := Exec Err (Hashgraph H K) α

namespace Hashgraph

/-- A hashgraph on a store. -/
def new (store : InmemStore H K) : Hashgraph H K :=
  { store := store }

/-- Record the initial peer-set. -/
def init (h : Hashgraph H K) (peerSet : PeerSet K) : Except Err (Hashgraph H K) :=
  match h.store.setPeerSet 0 peerSet with
  | .ok store => .ok { h with store := store }
  | .error err => .error (.wrap "Error setting PeerSet" err)

/-! ## Access to the state -/

/-- Run a query on the current store. -/
def query {α : Type} (q : InmemStore H K → Query H α) : Hg H K α := do
  let h ← get
  let (r, memo) := Exec.exec (q h.store) h.memo
  set { h with memo := memo }
  Exec.ofExcept r

/-- Read from the current store. -/
def read {α : Type} (f : InmemStore H K → Except Err α) : Hg H K α := do
  let h ← get
  Exec.ofExcept (f h.store)

/-- Change the store. -/
def modifyStore (f : InmemStore H K → InmemStore H K) : Hg H K Unit :=
  modify fun h => { h with store := f h.store }

/-- Change the store, or fail with an error under a prefix. -/
def tryStore (context : String) (f : InmemStore H K → Except Err (InmemStore H K)) :
    Hg H K Unit := do
  let h ← get
  match f h.store with
  | .ok store => set { h with store := store }
  | .error err => throw (.wrap context err)

variable (S : Scheme H K) (rt : Runtime)

/-! ## Checks -/

/-- Check that the self-parent is the creator's last known event. -/
def checkSelfParent (st : InmemStore H K) (event : SignedEvent H K) : Except Err Unit :=
  match st.lastEventFrom event.creator with
  | .error err =>
    -- first event
    if err.isStore .empty ∧ event.body.selfParent = none then .ok ()
    else .error (.selfParent err.text false)
  | .ok creatorLastKnown =>
    if event.body.selfParent = some creatorLastKnown then .ok ()
    else .error (.selfParent "Self-parent not last known event by creator" true)

/-- Check that the other-parent is known. -/
def checkOtherParent (st : InmemStore H K) (event : SignedEvent H K) : Except Err Unit :=
  match event.body.otherParent with
  | none => .ok ()
  | some op =>
    match st.getEvent op with
    | .ok _ => .ok ()
    | .error _ => .error (.msg "Other-parent not known")

/-- The identifier of a public key in the repertoire. -/
def repertoireID (st : InmemStore H K) (k : K) : Except Err UInt32 :=
  match st.peerSetCache.repertoireByPubKey.lookup k with
  | some peer => .ok peer.id
  | none => .error (.msg "Creator not found")

/-- The parents and the creator of an event as numbers. -/
def setWireInfo (st : InmemStore H K) (event : SignedEvent H K) : Except Err WireInfo := do
  let creatorID ← repertoireID st event.creator
  let selfParentIndex ←
    match event.body.selfParent with
    | none => pure (-1)
    | some sp => do
      let selfParent ← st.getEvent sp
      pure selfParent.body.index
  let (otherParentCreatorID, otherParentIndex) ←
    match event.body.otherParent with
    | none => pure (0, -1)
    | some op => do
      let otherParent ← st.getEvent op
      let id ← repertoireID st otherParent.creator
      pure (id, otherParent.body.index)
  return {
    creatorID := creatorID
    otherParentCreatorID := otherParentCreatorID
    selfParentIndex := selfParentIndex
    otherParentIndex := otherParentIndex }

/-! ## Coordinates -/

/-- Enter one of the other-parent's last ancestors, if it is later than the one known. -/
def mergeAncestor (m : CoordinatesMap H K) (e : K × EventCoordinates H) : CoordinatesMap H K :=
  match m.lookup e.1 with
  | some sla => if sla.index < e.2.index then m.insert e.1 e.2 else m
  | none => m.insert e.1 e.2

/-- The last ancestors of an event, without the event itself. -/
def parentsLastAncestors (st : InmemStore H K) (event : SignedEvent H K) : CoordinatesMap H K :=
  match st.getParent event.body.selfParent, st.getParent event.body.otherParent with
  | .error _, .ok otherParent => otherParent.lastAncestors
  | .ok selfParent, .error _ => selfParent.lastAncestors
  | .ok selfParent, .ok otherParent =>
    otherParent.lastAncestors.toPairs.foldl mergeAncestor selfParent.lastAncestors
  | .error _, .error _ => ∅

/-- The coordinates of an event itself. -/
def ownCoordinates (event : SignedEvent H K) : EventCoordinates H :=
  { hash := event.hex S, index := event.body.index }

/-- The event with fresh coordinates. -/
def initEventCoordinates (st : InmemStore H K) (event : Event H K) : Event H K :=
  { event with
    firstDescendants := (∅ : CoordinatesMap H K).insert event.creator (ownCoordinates S event.toSignedEvent)
    lastAncestors :=
      (parentsLastAncestors st event.toSignedEvent).insert event.creator
        (ownCoordinates S event.toSignedEvent) }

/-- Enter a first descendant by `creator`. -/
def addFirstDescendant (creator : K) (coordinates : EventCoordinates H) (a : Event H K) :
    Event H K :=
  { a with firstDescendants := a.firstDescendants.insert creator coordinates }

/-- Enter `event` as the first descendant by its creator in the ancestor `ah` and on down
its self-parents, until one has a first descendant by that creator or is a witness. The
first argument bounds the number of steps. -/
def markAncestors (creator : K) (coordinates : EventCoordinates H) : ℕ → Option H → Hg H K Unit
  | 0, _ => return
  | _ + 1, none => return
  | fuel + 1, some ah => do
    match (← get).store.getEvent ah with
    | .error _ => return
    | .ok a =>
      match a.firstDescendants.lookup creator with
      | some _ => return
      | none =>
        modifyStore fun st => st.modifyEvent ah (addFirstDescendant creator coordinates)
        match ← Exec.attempt (query fun st => Query.witness S rt st ah) with
        | .ok true => return
        | _ => markAncestors creator coordinates fuel a.body.selfParent

/-- Update the first descendants of the ancestors of a stored event. -/
def updateAncestorFirstDescendant (event : Event H K) : Hg H K Unit := do
  let ancestors ← query fun _ => Query.visit rt event.lastAncestors.toPairs
  let fuel := (← get).store.eventCache.keys.length + 1
  ancestors.forM fun c =>
    markAncestors S rt event.creator (ownCoordinates S event.toSignedEvent) fuel (some c.2.hash)

/-! ## Insertion -/

/-- Add a block signature to the pool. -/
def addPendingSignature (pool : Map (ℤ × K) BlockSignature) (bs : BlockSignature) :
    Map (ℤ × K) BlockSignature :=
  pool.insert (bs.index, bs.validatorHex) bs

/-- The checks on an event before it changes anything. -/
def checkEvent (st : InmemStore H K) (event : SignedEvent H K) : Except Err Unit := do
  let ok ← event.verify S
  if ok then
    checkSelfParent st event
    checkOtherParent st event
  else
    .error (.msg "Invalid Event signature")

/-- The wire fields of an event : computed if `fill` is set, and kept otherwise. -/
def wireInfo (st : InmemStore H K) (event : SignedEvent H K) (wire : WireInfo) (fill : Bool) :
    Except Err WireInfo :=
  if fill then
    match setWireInfo st event with
    | .ok wire => .ok wire
    | .error err => .error (.wrap "SetWireInfo" err)
  else .ok wire

/-- Store a checked event and queue it for consensus. -/
def storeEvent (event : Event H K) : Hg H K Unit := do
  let ev := initEventCoordinates S (← get).store event
  tryStore "SetEvent" fun st => st.setEvent S ev
  updateAncestorFirstDescendant S rt ev
  modify fun h =>
    { h with
      undeterminedEvents := h.undeterminedEvents ++ [event.hex S]
      pendingLoadedEvents := h.pendingLoadedEvents + if event.isLoaded then 1 else 0
      pendingSignatures := event.body.blockSignatures.foldl addPendingSignature
        h.pendingSignatures }

/-- Insert an event in the DAG. `wire` is what the event's body holds from the wire; it
is computed here if `fill` is set. -/
def insertEvent (event : SignedEvent H K) (wire : WireInfo) (fill : Bool) : Hg H K Unit := do
  read fun st => checkEvent S st event
  let topologicalIndex := (← get).topologicalIndex
  modify fun h => { h with topologicalIndex := h.topologicalIndex + 1 }
  let wire ← read fun st => wireInfo st event wire fill
  storeEvent S rt { event with wire := wire, topologicalIndex := topologicalIndex }

end Hashgraph

end Babble

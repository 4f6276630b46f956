import Babble.Block
import Babble.Runtime

/-!
# The in-memory store

`InmemStore` holds events, rounds, blocks, frames, the peer-sets, and for every
participant a rolling index of event hashes. The maps stand for the LRU caches of the
source as long as nothing is evicted from them; the rolling indexes evict as in the
source.

Events, rounds and blocks are pointers in the source : a caller that changes one changes
the stored one. Here the caller writes the changed value back (`modifyRound`,
`modifyEvent`), at the point where the source changes it.
-/

set_option linter.unusedSectionVars false

namespace Babble

variable {H K : Type} [DecidableEq H] [DecidableEq K] [Hex H] [Hex K]

/-! ## Participants -/

/-- The events of every participant, in a rolling index under the participant's
identifier. -/
structure ParticipantEventsCache (H K : Type) where
  participants : PeerSet K
  rim : RollingIndexMap H
deriving DecidableEq

namespace ParticipantEventsCache

/-- No participant yet. -/
def new (size : ℕ) : ParticipantEventsCache H K :=
  { participants := ⟨[]⟩, rim := RollingIndexMap.new "ParticipantEvents" size }

/-- Add a peer. The set of participants changes even if the rolling index is refused. -/
def addPeer (pec : ParticipantEventsCache H K) (peer : Peer K) :
    Except Err Unit × ParticipantEventsCache H K :=
  match pec.rim.addKey peer.id with
  | .ok rim => (.ok (), { participants := pec.participants.withNewPeer peer, rim := rim })
  | .error err => (.error err, { pec with participants := pec.participants.withNewPeer peer })

/-- The identifier of a participant, whatever the case of its public key. -/
def participantID (pec : ParticipantEventsCache H K) (participant : K) : Except Err UInt32 :=
  match pec.participants.byPubKey.lookup (Hex.toUpper participant) with
  | some peer => .ok peer.id
  | none => .error (.store "ParticipantEvents" .unknownParticipant)

/-- A participant's events with index greater than `skipIndex`. -/
def get (pec : ParticipantEventsCache H K) (participant : K) (skipIndex : ℤ) :
    Except Err (List H) := do
  pec.rim.get (← pec.participantID participant) skipIndex

/-- A participant's event at `index`. -/
def getItem (pec : ParticipantEventsCache H K) (participant : K) (index : ℤ) :
    Except Err H := do
  pec.rim.getItem (← pec.participantID participant) index

/-- A participant's last event. -/
def getLast (pec : ParticipantEventsCache H K) (participant : K) : Except Err H := do
  pec.rim.getLast (← pec.participantID participant)

/-- Set an event of a participant. -/
def set (pec : ParticipantEventsCache H K) (participant : K) (hash : H) (index : ℤ) :
    Except Err (ParticipantEventsCache H K) := do
  let rim ← pec.rim.set (← pec.participantID participant) hash index
  return { pec with rim := rim }

end ParticipantEventsCache

/-! ## The store -/

/-- The store of a hashgraph. After a reset the map of roots is the one of the cached
frame, whose round is then in `sharedRoots`. -/
structure InmemStore (H K : Type) where
  cacheSize : ℕ
  eventCache : Map H (Event H K)
  roundCache : Map ℤ (RoundInfo H)
  blockCache : Map ℤ (Block K)
  frameCache : Map ℤ (Frame H K)
  consensusCache : RollingIndex H
  totConsensusEvents : ℕ
  peerSetCache : PeerSetCache K
  participantEventsCache : ParticipantEventsCache H K
  roots : Map K (Root H K)
  sharedRoots : Option ℤ
  lastRound : ℤ
  lastConsensusEvents : Map K H
  lastBlock : ℤ
deriving DecidableEq

namespace InmemStore

variable (S : Scheme H K)

/-- An empty store. -/
def new (cacheSize : ℕ) : InmemStore H K where
  cacheSize := cacheSize
  eventCache := ∅
  roundCache := ∅
  blockCache := ∅
  frameCache := ∅
  consensusCache := RollingIndex.new "ConsensusCache" cacheSize
  totConsensusEvents := 0
  peerSetCache := PeerSetCache.new
  participantEventsCache := ParticipantEventsCache.new cacheSize
  roots := ∅
  sharedRoots := none
  lastRound := -1
  lastConsensusEvents := ∅
  lastBlock := -1

/-! ### Peer-sets -/

/-- The peer-set effective at a round. -/
def getPeerSet (s : InmemStore H K) (round : ℤ) : Except Err (PeerSet K) :=
  s.peerSetCache.get round

/-- Give a peer an empty root if it has none. -/
def addRoot (s : InmemStore H K) (p : Peer K) : InmemStore H K :=
  match s.roots.lookup p.pubKeyString with
  | some _ => s
  | none => { s with roots := s.roots.insert p.pubKeyString {} }

/-- Register a peer as a participant. The caller ignores an error. -/
def addParticipant (s : InmemStore H K) (p : Peer K) : InmemStore H K :=
  match s.participantEventsCache.participants.byID.lookup p.id with
  | some _ => s.addRoot p
  | none =>
    match s.participantEventsCache.addPeer p with
    | (.ok _, pec) => { s with participantEventsCache := pec }.addRoot p
    | (.error _, pec) => { s with participantEventsCache := pec }

/-- The frame whose map of roots the store shares, with the roots as they are now. -/
def syncSharedRoots (s : InmemStore H K) : InmemStore H K :=
  match s.sharedRoots with
  | none => s
  | some r =>
    match s.frameCache.lookup r with
    | none => s
    | some frame => { s with frameCache := s.frameCache.insert r { frame with roots := s.roots } }

/-- Record a peer-set and register its peers. -/
def setPeerSet (s : InmemStore H K) (round : ℤ) (peerSet : PeerSet K) :
    Except Err (InmemStore H K) := do
  let psc ← s.peerSetCache.set round peerSet
  return (peerSet.peers.foldl addParticipant { s with peerSetCache := psc }).syncSharedRoots

/-! ### Events -/

/-- An event by hash. -/
def getEvent (s : InmemStore H K) (key : H) : Except Err (Event H K) :=
  match s.eventCache.lookup key with
  | some e => .ok e
  | none => .error (.store "EventCache" .keyNotFound)

/-- A parent by hash. No event is stored under the empty string. -/
def getParent (s : InmemStore H K) (key : Option H) : Except Err (Event H K) :=
  match key with
  | some k => s.getEvent k
  | none => .error (.store "EventCache" .keyNotFound)

/-- Store an event. A new one also goes to its creator's rolling index. -/
def setEvent (s : InmemStore H K) (event : Event H K) : Except Err (InmemStore H K) := do
  let key := event.hex S
  match s.eventCache.lookup key with
  | some _ => return { s with eventCache := s.eventCache.insert key event }
  | none =>
    let pec ← s.participantEventsCache.set event.creator key event.body.index
    return { s with participantEventsCache := pec, eventCache := s.eventCache.insert key event }

/-- Change a stored event in place. -/
def modifyEvent (s : InmemStore H K) (key : H) (f : Event H K → Event H K) : InmemStore H K :=
  match s.eventCache.lookup key with
  | some e => { s with eventCache := s.eventCache.insert key (f e) }
  | none => s

/-- A participant's events with index greater than `skip`. -/
def participantEvents (s : InmemStore H K) (participant : K) (skip : ℤ) : Except Err (List H) :=
  s.participantEventsCache.get participant skip

/-- A participant's event at `index`. -/
def participantEvent (s : InmemStore H K) (participant : K) (index : ℤ) : Except Err H :=
  s.participantEventsCache.getItem participant index

/-- A participant's last event. -/
def lastEventFrom (s : InmemStore H K) (participant : K) : Except Err H :=
  s.participantEventsCache.getLast participant

/-- A participant's last consensus event. -/
def lastConsensusEventFrom (s : InmemStore H K) (participant : K) : Option H :=
  s.lastConsensusEvents.lookup participant

/-- The last known index of every participant. -/
def knownEvents (s : InmemStore H K) : List (UInt32 × ℤ) :=
  s.participantEventsCache.rim.known

/-- Add a consensus event. The rolling index may refuse it without consequence. -/
def addConsensusEvent (s : InmemStore H K) (event : SignedEvent H K) : InmemStore H K :=
  { s with
    consensusCache :=
      match s.consensusCache.set (event.hex S) s.totConsensusEvents with
      | .ok c => c
      | .error _ => s.consensusCache
    totConsensusEvents := s.totConsensusEvents + 1
    lastConsensusEvents := s.lastConsensusEvents.insert event.creator (event.hex S) }

/-! ### Rounds, blocks and frames -/

/-- A round by index. -/
def getRound (s : InmemStore H K) (r : ℤ) : Except Err (RoundInfo H) :=
  match s.roundCache.lookup r with
  | some round => .ok round
  | none => .error (.store "RoundCache" .keyNotFound)

/-- Store a round. -/
def setRound (s : InmemStore H K) (r : ℤ) (round : RoundInfo H) : InmemStore H K :=
  { s with
    roundCache := s.roundCache.insert r round
    lastRound := if s.lastRound < r then r else s.lastRound }

/-- Change a stored round in place. -/
def modifyRound (s : InmemStore H K) (r : ℤ) (f : RoundInfo H → RoundInfo H) : InmemStore H K :=
  match s.roundCache.lookup r with
  | some round => { s with roundCache := s.roundCache.insert r (f round) }
  | none => s

/-- A block by index. -/
def getBlock (s : InmemStore H K) (index : ℤ) : Except Err (Block K) :=
  match s.blockCache.lookup index with
  | some block => .ok block
  | none => .error (.store "BlockCache" .keyNotFound)

/-- Store a block. -/
def setBlock (s : InmemStore H K) (block : Block K) : InmemStore H K :=
  { s with
    blockCache := s.blockCache.insert block.body.index block
    lastBlock := if s.lastBlock < block.body.index then block.body.index else s.lastBlock }

/-- A frame by round-received. -/
def getFrame (s : InmemStore H K) (index : ℤ) : Except Err (Frame H K) :=
  match s.frameCache.lookup index with
  | some frame => .ok frame
  | none => .error (.store "FrameCache" .keyNotFound)

/-- Store a frame. -/
def setFrame (s : InmemStore H K) (frame : Frame H K) : InmemStore H K :=
  { s with frameCache := s.frameCache.insert frame.round frame }

/-! ### Reset -/

/-- Record the peer-sets of a list in turn. -/
def setPeerSets (s : InmemStore H K) : List (ℤ × List (Peer K)) → Except Err (InmemStore H K)
  | [] => .ok s
  | (round, ps) :: rest => do
    let s ← s.setPeerSet round ⟨ps⟩
    s.setPeerSets rest

/-- Clear the store and fill it with a frame's roots and peer-sets, visited in the order
of `rt`. -/
def reset (rt : Runtime) (tick : ℕ) (s : InmemStore H K) (frame : Frame H K) :
    Except Err (InmemStore H K) := do
  let cleared : InmemStore H K :=
    { InmemStore.new s.cacheSize with
      totConsensusEvents := s.totConsensusEvents
      roots := frame.roots }
  let s ← cleared.setPeerSets (rt.order tick frame.peerSets.toPairs)
  return { s.setFrame { frame with roots := s.roots } with sharedRoots := some frame.round }

end InmemStore

end Babble

import Babble.Round

/-!
# Frames, blocks, hashes and signatures

A frame is the section of the hashgraph that was received in one round : its events in
consensus order, and for every participant a `Root`, the last events before the frame. A
block is made from a frame; it carries the frame's hash, the hash of the round's
peer-set, and the transactions of the frame's events.

`Scheme` is the code outside the repository : SHA-256, the JSON encoders and ECDSA. The
frame encoder sorts the keys of a map, so that a frame's hash depends on its content
only (`FrameContent`).
-/

set_option linter.unusedSectionVars false

namespace Babble

variable {H K : Type} [DecidableEq H] [DecidableEq K] [Hex H] [Hex K]

/-! ## Frames -/

/-- A base on top of which a participant's events can be inserted. -/
structure Root (H K : Type) where
  events : List (FrameEvent H K) := []
deriving DecidableEq

/-- Append an event to a root. -/
def Root.insert (r : Root H K) (frameEvent : FrameEvent H K) : Root H K :=
  ⟨r.events ++ [frameEvent]⟩

/-- A section of the hashgraph : the events with round-received `round`. -/
structure Frame (H K : Type) where
  round : ℤ
  peers : List (Peer K)
  roots : Map K (Root H K)
  events : List (FrameEvent H K)
  peerSets : Map ℤ (List (Peer K))
  timestamp : Int64
deriving DecidableEq

/-- What the encoding of a frame shows : maps without an order. -/
structure FrameContent (H K : Type) where
  round : ℤ
  peers : List (Peer K)
  roots : Finmap fun _ : K => Root H K
  events : List (FrameEvent H K)
  peerSets : Finmap fun _ : ℤ => List (Peer K)
  timestamp : Int64

/-- The content of a frame. -/
def Frame.content (f : Frame H K) : FrameContent H K where
  round := f.round
  peers := f.peers
  roots := f.roots.toFinmap
  events := f.events
  peerSets := f.peerSets.toFinmap
  timestamp := f.timestamp

/-! ## Blocks -/

/-- The content of a block. The state hash and the receipts come from the application. -/
structure BlockBody (K : Type) where
  index : ℤ
  roundReceived : ℤ
  timestamp : Int64
  stateHash : List UInt8
  frameHash : List UInt8
  peersHash : List UInt8
  transactions : List (List UInt8)
  internalTransactions : List (InternalTransaction K)
  internalTransactionReceipts : List (InternalTransactionReceipt K)
deriving DecidableEq

/-- A block with the signatures of its body, by validator. -/
structure Block (K : Type) where
  body : BlockBody K
  signatures : Map K String
deriving DecidableEq

/-! ## The code outside the repository -/

/-- SHA-256, the JSON encoders and the ECDSA check. -/
structure Scheme (H K : Type) where
  sha256 : List UInt8 → List UInt8
  marshalEventBody : EventBody H K → List UInt8
  marshalInternalTransactionBody : InternalTransactionBody K → List UInt8
  marshalFrame : FrameContent H K → List UInt8
  marshalBlockBody : BlockBody K → List UInt8
  /-- The signature `(r, s)` of a digest under the public key with these bytes. -/
  ecdsaVerify : List UInt8 → List UInt8 → ℤ → ℤ → Bool

variable (S : Scheme H K)

/-- `keys.Verify` on a decoded signature. A nil number is a nil pointer there. -/
def Scheme.verify (pub digest : List UInt8) : Option ℤ × Option ℤ → Except Err Bool
  | (some r, some s) => .ok (S.ecdsaVerify pub digest r s)
  | _ => .error (.panic "nil big.Int")

/-- The hash of an event's body. -/
def SignedEvent.hash (e : SignedEvent H K) : List UInt8 :=
  S.sha256 (S.marshalEventBody e.body)

/-- The hash of an event as a string. -/
def SignedEvent.hex (e : SignedEvent H K) : H :=
  Hex.encodeToString (e.hash S)

/-- Verify the signature of an internal transaction. -/
def InternalTransaction.verify (t : InternalTransaction K) : Except Err Bool := do
  let rs ← decodeSignature t.signature
  S.verify t.body.peer.pubKeyBytes (S.sha256 (S.marshalInternalTransactionBody t.body)) rs

/-- Verify the signatures of a list of internal transactions. -/
def verifyAll : List (InternalTransaction K) → Except Err Unit
  | [] => .ok ()
  | t :: ts => do
    let ok ← t.verify S
    if ok then verifyAll ts else .error (.msg "invalid signature on internal transaction")

/-- Verify an event's signature, after the signatures of its internal transactions. -/
def SignedEvent.verify (e : SignedEvent H K) : Except Err Bool := do
  verifyAll S e.body.internalTransactions
  let rs ← decodeSignature e.signature
  S.verify e.body.creator (e.hash S) rs

/-- The hash of a frame. -/
def Frame.hash (f : Frame H K) : List UInt8 :=
  S.sha256 (S.marshalFrame f.content)

namespace Block

/-- A new block. -/
def new (blockIndex roundReceived : ℤ) (frameHash : List UInt8) (peerSlice : List (Peer K))
    (txs : List (List UInt8)) (itxs : List (InternalTransaction K)) (timestamp : Int64) :
    Block K where
  body :=
    { index := blockIndex
      roundReceived := roundReceived
      timestamp := timestamp
      stateHash := []
      frameHash := frameHash
      peersHash := PeerSet.hash S.sha256 ⟨peerSlice⟩
      transactions := txs
      internalTransactions := itxs
      internalTransactionReceipts := [] }
  signatures := ∅

/-- Assemble a block from a frame. -/
def fromFrame (blockIndex : ℤ) (frame : Frame H K) : Block K :=
  new S blockIndex frame.round (frame.hash S) frame.peers
    (frame.events.flatMap fun e => e.core.body.transactions)
    (frame.events.flatMap fun e => e.core.body.internalTransactions) frame.timestamp

end Block

/-- The string representation of the signer's public key. -/
def BlockSignature.validatorHex (bs : BlockSignature) : K :=
  Hex.encodeToString bs.validator

/-- The hash of a block's body. -/
def BlockBody.hash (b : BlockBody K) : List UInt8 :=
  S.sha256 (S.marshalBlockBody b)

namespace Block

/-- The signatures of the block. The signer's bytes are read back from the map key. -/
def getSignatures (b : Block K) : List BlockSignature :=
  b.signatures.toPairs.map fun e =>
    { validator := Hex.decodeFromString e.1, index := b.body.index, signature := e.2 }

/-- Append a signature. -/
def setSignature (b : Block K) (bs : BlockSignature) : Block K :=
  { b with signatures := b.signatures.insert bs.validatorHex bs.signature }

/-- Verify a signature against the block. -/
def verify (b : Block K) (sig : BlockSignature) : Except Err Bool := do
  let rs ← decodeSignature sig.signature
  S.verify sig.validator (b.body.hash S) rs

end Block

end Babble

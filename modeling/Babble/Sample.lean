import Babble.Core

/-!
# A small instance to run the model on

Bytes stand for the strings that hold them, and an event is hashed to its timestamp, so
that a run on a few events can be evaluated. Every signature verifies.
-/

namespace Babble

/-- Bytes as the text that holds them. -/
instance instHexBytes : Hex (List UInt8) where
  encodeToString := id
  decodeFromString := id
  wellFormed _ := true
  toUpper := id
  decode_encode _ := rfl
  wellFormed_encode _ := rfl
  toUpper_encode _ := rfl
  decode_toUpper _ := rfl
  toUpper_toUpper _ := rfl

namespace Sample

/-- Hashes and public keys. -/
abbrev Bytes := List UInt8

/-- Events are told apart by their timestamps. -/
def scheme : Scheme Bytes Bytes where
  sha256 := id
  marshalEventBody b := [UInt8.ofNat b.timestamp.toInt.toNat]
  marshalInternalTransactionBody _ := []
  marshalFrame _ := []
  marshalBlockBody _ := []
  ecdsaVerify _ _ _ _ := true

/-- The peer with a public key of one byte. -/
def peer (key : UInt8) : Peer Bytes :=
  { netAddr := "", pubKeyHex := [key], moniker := "" }

/-- The event `id` of a creator, with one transaction. Parents are given by their ids. -/
def event (id : ℕ) (creator : UInt8) (index : ℤ) (selfParent otherParent : Option ℕ)
    (itxs : List (InternalTransaction Bytes)) : SignedEvent Bytes Bytes where
  body :=
    { transactions := [[UInt8.ofNat id]]
      internalTransactions := itxs
      selfParent := selfParent.map fun p => [UInt8.ofNat p]
      otherParent := otherParent.map fun p => [UInt8.ofNat p]
      creator := [creator]
      index := index
      blockSignatures := []
      timestamp := Int64.ofNat id }
  signature := "1|1"

/-- The request to add a peer. -/
def join (key : UInt8) : InternalTransaction Bytes :=
  { body := { type := .peerAdd, peer := peer key }, signature := "1|1" }

/-- The request to remove a peer. -/
def leave (key : UInt8) : InternalTransaction Bytes :=
  { body := { type := .peerRemove, peer := peer key }, signature := "1|1" }

/-- An application that accepts all requests. -/
def acceptAll : ProxyCommitCallback Bytes :=
  fun b => .ok
    { stateHash := []
      internalTransactionReceipts :=
        b.body.internalTransactions.map fun t => { internalTransaction := t, accepted := true } }

/-- The operator of a node. -/
def validator (key : UInt8) : Validator :=
  { publicKeyBytes := [key], sign := fun _ => "1|1" }

/-- A node with one validator, which operates it. -/
def alone : Core Bytes Bytes :=
  Core.new ⟨[peer 1]⟩ ⟨[peer 1]⟩ (InmemStore.new 100)

end Sample

end Babble

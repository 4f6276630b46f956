import Babble.Peers

/-!
# Events

An event's body ties it to two parents, its creator and its payload; the hash of the
body is the event's identity. The signature is not part of the body. `SignedEvent` is the
exported part of an event, what travels and what a frame carries; `Event` adds the
private fields that a node fills in while it runs consensus.

`FrameEvent` wraps an event with its round, Lamport timestamp and witness flag, and
`FrameEvent.less` is the order of a frame : by Lamport timestamp, ties broken by the `R`
value of the signature.
-/

set_option linter.unusedSectionVars false

namespace Babble

variable {H K : Type} [DecidableEq H] [DecidableEq K] [Hex H] [Hex K]

/-! ## Internal transactions -/

/-- The nature of an internal transaction. Any other byte can arrive from the network. -/
inductive TransactionType
  | peerAdd
  | peerRemove
  | unknown (code : UInt8)
deriving DecidableEq, Repr

structure InternalTransactionBody (K : Type) where
  type : TransactionType
  peer : Peer K
deriving DecidableEq

/-- A signed request to add or remove a peer. -/
structure InternalTransaction (K : Type) where
  body : InternalTransactionBody K
  signature : String
deriving DecidableEq

/-- The application's decision on an internal transaction. -/
structure InternalTransactionReceipt (K : Type) where
  internalTransaction : InternalTransaction K
  accepted : Bool
deriving DecidableEq

/-- A validator's signature of the block at `index`. -/
structure BlockSignature where
  validator : List UInt8
  index : ℤ
  signature : String
deriving DecidableEq

/-! ## Events -/

/-- The serialized part of an event's body. The two parents are hashes, absent where the
source has the empty string. -/
structure EventBody (H K : Type) where
  transactions : List (List UInt8)
  internalTransactions : List (InternalTransaction K)
  selfParent : Option H
  otherParent : Option H
  creator : List UInt8
  index : ℤ
  blockSignatures : List BlockSignature
  timestamp : Int64
deriving DecidableEq

/-- The fields of an event's body that are not serialized : parents and creator as
numbers, for the wire. -/
structure WireInfo where
  creatorID : UInt32 := 0
  otherParentCreatorID : UInt32 := 0
  selfParentIndex : ℤ := 0
  otherParentIndex : ℤ := 0
deriving DecidableEq

/-- An event's body with its creator's signature. -/
@[ext]
structure SignedEvent (H K : Type) where
  body : EventBody H K
  signature : String
deriving DecidableEq

/-- The index and hash of an event. -/
structure EventCoordinates (H : Type) where
  hash : H
  index : ℤ
deriving DecidableEq

/-- Coordinates by participant. -/
abbrev CoordinatesMap (H K : Type) := Map K (EventCoordinates H)

/-- An event with the private fields of a node. -/
structure Event (H K : Type) extends SignedEvent H K where
  wire : WireInfo := {}
  topologicalIndex : ℤ := 0
  round : Option ℤ := none
  lamportTimestamp : Option ℤ := none
  roundReceived : Option ℤ := none
  lastAncestors : CoordinatesMap H K := ∅
  firstDescendants : CoordinatesMap H K := ∅
deriving DecidableEq

namespace SignedEvent

/-- The string representation of the creator's public key. -/
def creator (e : SignedEvent H K) : K :=
  Hex.encodeToString e.body.creator

/-- An event that contains a payload or is its creator's first. -/
def isLoaded (e : SignedEvent H K) : Bool :=
  e.body.index = 0 || !e.body.transactions.isEmpty || !e.body.internalTransactions.isEmpty

end SignedEvent

/-! ## Signatures -/

/-- The value of a digit in base 36. -/
def digitValue (c : Char) : Option ℕ :=
  if 48 ≤ c.toNat ∧ c.toNat ≤ 57 then some (c.toNat - 48)
  else if 65 ≤ c.toNat ∧ c.toNat ≤ 90 then some (c.toNat - 55)
  else if 97 ≤ c.toNat ∧ c.toNat ≤ 122 then some (c.toNat - 87)
  else none

/-- A non-empty list of digits in base 36, after the value `acc`. -/
def parseDigits (acc : ℕ) : List Char → Option ℕ
  | [] => none
  | [c] => (digitValue c).map (36 * acc + ·)
  | c :: cs => (digitValue c).bind fun d => parseDigits (36 * acc + d) cs

/-- `big.Int.SetString` in base 36, `none` for the nil it returns on malformed text. -/
def setString36 : List Char → Option ℤ
  | '-' :: cs => (parseDigits 0 cs).map fun n => -(n : ℤ)
  | '+' :: cs => (parseDigits 0 cs).map fun n => (n : ℤ)
  | cs => (parseDigits 0 cs).map fun n => (n : ℤ)

/-- `DecodeSignature` : the two numbers around a vertical bar. -/
def decodeSignature (sig : String) : Except Err (Option ℤ × Option ℤ) :=
  match sig.toList.splitOn '|' with
  | [r, s] => .ok (setString36 r, setString36 s)
  | _ => .error (.msg "wrong number of values in signature")

/-- The `R` value of a signature. The source takes a nil one for granted to be absent. -/
def signatureR (sig : String) : ℤ :=
  match decodeSignature sig with
  | .ok (some r, _) => r
  | _ => 0

/-! ## Frame events -/

/-- An event with its round, Lamport timestamp and witness flag. -/
structure FrameEvent (H K : Type) where
  core : SignedEvent H K
  round : ℤ
  lamportTimestamp : ℤ
  witness : Bool
deriving DecidableEq

/-- `SortedFrameEvents.Less`. -/
def FrameEvent.less (a b : FrameEvent H K) : Bool :=
  if a.lamportTimestamp ≠ b.lamportTimestamp then a.lamportTimestamp < b.lamportTimestamp
  else signatureR a.core.signature < signatureR b.core.signature

/-- The pair a frame orders events by. -/
def FrameEvent.key (a : FrameEvent H K) : ℤ × ℤ :=
  (a.lamportTimestamp, signatureR a.core.signature)

theorem FrameEvent.less_iff {a b : FrameEvent H K} :
    a.less b = true ↔ a.lamportTimestamp < b.lamportTimestamp ∨
      a.lamportTimestamp = b.lamportTimestamp ∧
        signatureR a.core.signature < signatureR b.core.signature := by
  unfold FrameEvent.less
  split_ifs with h
  · have hne : a.lamportTimestamp ≠ b.lamportTimestamp := h
    simp [hne]
  · have he : a.lamportTimestamp = b.lamportTimestamp := not_not.1 h
    simp [he]

theorem FrameEvent.less_asymm {a b : FrameEvent H K} (h : a.less b = true) : b.less a = false := by
  rw [Bool.eq_false_iff, ne_eq, FrameEvent.less_iff]
  rw [FrameEvent.less_iff] at h
  omega

theorem FrameEvent.not_less_trans {a b c : FrameEvent H K} (h : b.less a = false)
    (h' : c.less b = false) : c.less a = false := by
  rw [Bool.eq_false_iff, ne_eq, FrameEvent.less_iff] at *
  omega

/-- Frame events that neither precedes have the same key. -/
theorem FrameEvent.key_eq_of_not_less {a b : FrameEvent H K} (h : a.less b = false)
    (h' : b.less a = false) : a.key = b.key := by
  rw [Bool.eq_false_iff, ne_eq, FrameEvent.less_iff] at h h'
  simp only [key, Prod.mk.injEq]
  omega

end Babble

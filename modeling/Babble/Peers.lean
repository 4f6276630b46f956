import Babble.Hex
import Babble.Rolling
import Mathlib.Data.List.Sort

/-!
# Peers, peer-sets, and the history of peer-sets

A `PeerSet` is a list of peers with two maps over it, by public key and by identifier.
Its size is the number of distinct public keys, and the two thresholds are computed from
that size : `superMajority`, strictly more than two thirds, and `trustCount`, at least one
third.

`PeerSetCache` is the table of the peer-sets recorded so far, each with the round from
which it is effective; `get` looks a round up in it.
-/

set_option linter.unusedSectionVars false

namespace Babble

variable {K : Type} [DecidableEq K] [Hex K]

/-! ## Peers -/

/-- A peer. `pubKeyHex` is the public key as it was written in a file or a message. -/
structure Peer (K : Type) where
  netAddr : String
  pubKeyHex : K
  moniker : String
deriving DecidableEq

/-- The upper-case version of the public key, under which maps index the peer. -/
def Peer.pubKeyString (p : Peer K) : K :=
  Hex.toUpper p.pubKeyHex

/-- The bytes of the public key. -/
def Peer.pubKeyBytes (p : Peer K) : List UInt8 :=
  Hex.decodeFromString p.pubKeyHex

/-- The identifier of the peer : a 32-bit hash of its public key. -/
def Peer.id (p : Peer K) : UInt32 :=
  fnv32a p.pubKeyBytes

theorem Peer.toUpper_pubKeyString (p : Peer K) : Hex.toUpper p.pubKeyString = p.pubKeyString :=
  Hex.toUpper_toUpper p.pubKeyHex

theorem Peer.id_eq_of_pubKeyString {p q : Peer K} (h : p.pubKeyString = q.pubKeyString) :
    p.id = q.id := by
  unfold Peer.id Peer.pubKeyBytes
  rw [← Hex.decode_toUpper p.pubKeyHex, ← Hex.decode_toUpper q.pubKeyHex]
  exact congrArg (fun s => fnv32a (Hex.decodeFromString s)) h

/-! ## Peer-sets -/

/-- A list of peers. The two maps are computed from it when the set is created. -/
structure PeerSet (K : Type) where
  peers : List (Peer K)
deriving DecidableEq

namespace PeerSet

/-- The peers by public key. Of two peers with one key the later stays. -/
def byPubKey (ps : PeerSet K) : Map K (Peer K) :=
  ps.peers.foldl (fun m p => m.insert p.pubKeyString p) ∅

/-- The peers by identifier. -/
def byID (ps : PeerSet K) : Map UInt32 (Peer K) :=
  ps.peers.foldl (fun m p => m.insert p.id p) ∅

/-- The peer-set with `peer`, unless a peer with its identifier is there. -/
def withNewPeer (ps : PeerSet K) (peer : Peer K) : PeerSet K :=
  match ps.byID.lookup peer.id with
  | some _ => ps
  | none => ⟨ps.peers ++ [peer]⟩

/-- The peer-set without the peers that spell their public key as `peer` does. -/
def withRemovedPeer (ps : PeerSet K) (peer : Peer K) : PeerSet K :=
  ⟨ps.peers.filter fun p => p.pubKeyHex ≠ peer.pubKeyHex⟩

/-- The public keys of the set, each once. -/
def pubKeys (ps : PeerSet K) : Finset K :=
  ps.byPubKey.keys.toFinset

/-- The bytes of the public keys, in order. -/
def keyBytes (ps : PeerSet K) : List (List UInt8) :=
  ps.peers.map Peer.pubKeyBytes

/-- The number of peers. -/
def len (ps : PeerSet K) : ℕ :=
  ps.byPubKey.keys.length

/-- The number of peers that forms a strong majority (more than two thirds). -/
def superMajority (ps : PeerSet K) : ℕ :=
  2 * ps.len / 3 + 1

/-- The number of signatures that a trusted state has to exceed : a third of the peers,
rounded up, or none for a single peer. -/
def trustCount (ps : PeerSet K) : ℕ :=
  if 1 < ps.peers.length then (ps.len + 2) / 3 else 0

/-- The public keys hashed together one by one. -/
def hash (sha256 : List UInt8 → List UInt8) (ps : PeerSet K) : List UInt8 :=
  ps.peers.foldl (fun h p => sha256 (h ++ p.pubKeyBytes)) []

theorem card_pubKeys (ps : PeerSet K) : ps.pubKeys.card = ps.len :=
  List.toFinset_card_of_nodup ps.byPubKey.keys_nodup

theorem mem_byPubKey {ps : PeerSet K} {k : K} :
    k ∈ ps.byPubKey ↔ ∃ p ∈ ps.peers, p.pubKeyString = k := by
  rw [byPubKey, Map.mem_foldl_insert]
  simp

theorem mem_pubKeys {ps : PeerSet K} {k : K} :
    k ∈ ps.pubKeys ↔ ∃ p ∈ ps.peers, p.pubKeyString = k := by
  rw [pubKeys, List.mem_toFinset, ← AList.mem_keys, mem_byPubKey]

end PeerSet

/-! ## The history of peer-sets -/

/-- The recorded peer-sets under the rounds from which they are effective, with every
peer that was ever in one of them. -/
structure PeerSetCache (K : Type) where
  rounds : List ℤ
  peerSets : Map ℤ (PeerSet K)
  repertoireByPubKey : Map K (Peer K)
  repertoireByID : Map UInt32 (Peer K)
  firstRounds : Map UInt32 ℤ
deriving DecidableEq

namespace PeerSetCache

/-- No peer-set yet. -/
def new : PeerSetCache K :=
  { rounds := [], peerSets := ∅, repertoireByPubKey := ∅, repertoireByID := ∅, firstRounds := ∅ }

/-- Enter one peer of a peer-set recorded at `round` in the repertoires. -/
def addPeer (round : ℤ) (c : PeerSetCache K) (p : Peer K) : PeerSetCache K :=
  { c with
    repertoireByPubKey := c.repertoireByPubKey.insert p.pubKeyString p
    repertoireByID := c.repertoireByID.insert p.id p
    firstRounds :=
      match c.firstRounds.lookup p.id with
      | none => c.firstRounds.insert p.id round
      | some fr => if round < fr then c.firstRounds.insert p.id round else c.firstRounds }

/-- Record a peer-set at a round that has none. -/
def set (c : PeerSetCache K) (round : ℤ) (peerSet : PeerSet K) : Except Err (PeerSetCache K) :=
  match c.peerSets.lookup round with
  | some _ => .error (.store "PeerSetCache" .keyAlreadyExists)
  | none =>
    .ok (peerSet.peers.foldl (addPeer round)
      { c with
        peerSets := c.peerSets.insert round peerSet
        rounds := (c.rounds ++ [round]).insertionSort (· ≤ ·) })

/-- The recorded round that governs `round` : the last one not above it. -/
def situate (round : ℤ) : ℤ → List ℤ → ℤ
  | r, [] => r
  | r, r' :: rs => if r ≤ round ∧ round < r' then r else situate round r' rs

/-- The peer-set effective at `round`. -/
def get (c : PeerSetCache K) (round : ℤ) : Except Err (PeerSet K) :=
  match c.peerSets.lookup round with
  | some ps => .ok ps
  | none =>
    match c.rounds with
    | [] => .error (.store "PeerSetCache" .keyNotFound)
    | r :: rs =>
      match c.peerSets.lookup (if round < r then r else situate round r rs) with
      | some ps => .ok ps
      | none => .error (.panic "nil PeerSet")

/-- All peer-sets by round. -/
def getAll (c : PeerSetCache K) : Map ℤ (List (Peer K)) :=
  c.rounds.foldl
    (fun m r => m.insert r (((c.peerSets.lookup r).map PeerSet.peers).getD [])) ∅

/-- The first round of a peer. -/
def firstRound (c : PeerSetCache K) (id : UInt32) : Option ℤ :=
  c.firstRounds.lookup id

@[simp] theorem addPeer_peerSets (round : ℤ) (c : PeerSetCache K) (p : Peer K) :
    (addPeer round c p).peerSets = c.peerSets := rfl

@[simp] theorem addPeer_rounds (round : ℤ) (c : PeerSetCache K) (p : Peer K) :
    (addPeer round c p).rounds = c.rounds := rfl

theorem repertoireByPubKey_foldl (round : ℤ) (l : List (Peer K)) (c : PeerSetCache K) :
    (l.foldl (addPeer round) c).repertoireByPubKey =
      l.foldl (fun m p => m.insert p.pubKeyString p) c.repertoireByPubKey :=
  (List.foldl_hom repertoireByPubKey fun _ _ => rfl).symm

theorem repertoireByID_foldl (round : ℤ) (l : List (Peer K)) (c : PeerSetCache K) :
    (l.foldl (addPeer round) c).repertoireByID =
      l.foldl (fun m p => m.insert p.id p) c.repertoireByID :=
  (List.foldl_hom repertoireByID fun _ _ => rfl).symm

end PeerSetCache

end Babble

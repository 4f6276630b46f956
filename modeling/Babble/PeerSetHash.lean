import Babble.BlockCheck
import Babble.Exactness
import Babble.Sample

/-!
# The hash of a peer-set

`PeerSet.Hash` hashes the public keys together one by one, from the empty string on. There
is no hash function with outputs of 32 bytes that has no collision at all, so the assumption
is on what is hashed : no two of the inputs on the way to the two hashes collide. Then peer-sets
with one hash have the same public keys in the same order, if all keys have one length
(`PeerSet.pubKeyBytes_eq_of_hash_eq`).
-/

set_option linter.unusedSectionVars false

namespace Babble

/-! ## Chains of hashes -/

section Chain

variable {β : Type} (sha : List β → List β)

/-- The hash of an item after the hash of the items before it. -/
def hashChain (items : List (List β)) : List β :=
  items.foldl (fun h x => sha (h ++ x)) []

/-- What is hashed on the way, from the hash `h` on. -/
def hashedFrom : List β → List (List β) → List (List β)
  | _, [] => []
  | h, x :: xs => (h ++ x) :: hashedFrom (sha (h ++ x)) xs

theorem hashedFrom_append_singleton (h : List β) (items : List (List β)) (x : List β) :
    hashedFrom sha h (items ++ [x]) =
      hashedFrom sha h items ++ [items.foldl (fun h x => sha (h ++ x)) h ++ x] := by
  induction items generalizing h with
  | nil => rfl
  | cons y items ih =>
    rw [List.cons_append, hashedFrom, ih]
    rfl

theorem hashChain_append_singleton (items : List (List β)) (x : List β) :
    hashChain sha (items ++ [x]) = sha (hashChain sha items ++ x) :=
  List.foldl_append

variable {sha}

/-- A chain of items ends in an output of the hash function. -/
theorem length_hashChain_append_singleton {n : ℕ} (hlen : ∀ x, (sha x).length = n)
    (items : List (List β)) (x : List β) : (hashChain sha (items ++ [x])).length = n := by
  rw [hashChain_append_singleton, hlen]

/-- Chains over items of one length that end in one hash are the same, unless there is a
collision on the way. -/
theorem eq_of_hashChain_eq {n len : ℕ} (hn : n ≠ 0) (hlen : ∀ x, (sha x).length = n)
    {items items' : List (List β)} (hi : ∀ x ∈ items, x.length = len)
    (hi' : ∀ x ∈ items', x.length = len)
    (hfree : ∀ a ∈ hashedFrom sha [] items, ∀ b ∈ hashedFrom sha [] items',
      sha a = sha b → a = b)
    (h : hashChain sha items = hashChain sha items') : items = items' := by
  -- the last items are compared first, since the chain grows at its end
  induction items using List.reverseRecOn generalizing items' with
  | nil =>
    rcases List.eq_nil_or_concat items' with rfl | ⟨items', x', rfl⟩
    · rfl
    · rw [List.concat_eq_append] at h
      have := congrArg List.length h
      rw [length_hashChain_append_singleton hlen] at this
      exact absurd this.symm hn
  | append_singleton items x ih =>
    rcases List.eq_nil_or_concat items' with rfl | ⟨items', x', rfl⟩
    · have := congrArg List.length h
      rw [length_hashChain_append_singleton hlen] at this
      exact absurd this hn
    · rw [List.concat_eq_append] at h hi' hfree ⊢
      rw [hashedFrom_append_singleton, hashedFrom_append_singleton] at hfree
      rw [hashChain_append_singleton, hashChain_append_singleton] at h
      have happ : hashChain sha items ++ x = hashChain sha items' ++ x' :=
        hfree _ (List.mem_append_right _ (List.mem_singleton.2 rfl)) _
          (List.mem_append_right _ (List.mem_singleton.2 rfl)) h
      have hxlen : x.length = x'.length := by
        rw [hi x (by simp), hi' x' (by simp)]
      obtain ⟨hinit, rfl⟩ := List.append_inj' happ hxlen
      rw [ih (fun y hy => hi y (List.mem_append_left _ hy))
        (fun y hy => hi' y (List.mem_append_left _ hy))
        (fun a ha b hb => hfree a (List.mem_append_left _ ha) b (List.mem_append_left _ hb)) hinit]

end Chain

/-! ## Peer-sets -/

variable {H K : Type} [DecidableEq H] [DecidableEq K] [Hex H] [Hex K]

namespace PeerSet

theorem hash_eq_hashChain (sha256 : List UInt8 → List UInt8) (ps : PeerSet K) :
    ps.hash sha256 = hashChain sha256 ps.keyBytes := by
  rw [hash, hashChain, keyBytes, List.foldl_map]

/-- What is hashed for the hash of the peer-set. -/
def hashed (sha256 : List UInt8 → List UInt8) (ps : PeerSet K) : List (List UInt8) :=
  hashedFrom sha256 [] ps.keyBytes

/-- No input on the way to the hash of `P` collides with one on the way to the hash of `Q`. -/
def NoCollision (sha256 : List UInt8 → List UInt8) (P Q : PeerSet K) : Prop :=
  ∀ a ∈ P.hashed sha256, ∀ b ∈ Q.hashed sha256, sha256 a = sha256 b → a = b

theorem keyBytes_eq_of_hash_eq {sha256 : List UInt8 → List UInt8}
    (hlen : ∀ x, (sha256 x).length = 32) {P Q : PeerSet K} {len : ℕ}
    (hP : ∀ p ∈ P.peers, p.pubKeyBytes.length = len)
    (hQ : ∀ p ∈ Q.peers, p.pubKeyBytes.length = len) (hfree : NoCollision sha256 P Q)
    (h : P.hash sha256 = Q.hash sha256) : P.keyBytes = Q.keyBytes := by
  rw [hash_eq_hashChain, hash_eq_hashChain] at h
  exact eq_of_hashChain_eq (by decide) hlen (List.forall_mem_map.2 hP) (List.forall_mem_map.2 hQ)
    hfree h

/-- Peer-sets with one hash have the same public keys in the same order, if all keys have
one length, hashes have 32 bytes and no two inputs collide. The peer-sets may differ in
length, and may be empty. -/
theorem pubKeyBytes_eq_of_hash_eq (sha256 : List UInt8 → List UInt8)
    (hlen : ∀ x, (sha256 x).length = 32) (P Q : PeerSet K) (len : ℕ)
    (hP : ∀ p ∈ P.peers, p.pubKeyBytes.length = len)
    (hQ : ∀ p ∈ Q.peers, p.pubKeyBytes.length = len) (hfree : NoCollision sha256 P Q)
    (h : P.hash sha256 = Q.hash sha256) :
    P.peers.map Peer.pubKeyBytes = Q.peers.map Peer.pubKeyBytes :=
  keyBytes_eq_of_hash_eq hlen hP hQ hfree h

end PeerSet

/-! ## What relies on the hash -/

section Uses

variable {S : Scheme H K} (hlen : ∀ x, (S.sha256 x).length = 32)

include hlen

/-- A block that was made with the peers `Q` passes the check of no validators but these. -/
theorem Hashgraph.keyBytes_of_checkBlock {block : Block K} {P Q : PeerSet K} {len : ℕ}
    (hP : ∀ p ∈ P.peers, p.pubKeyBytes.length = len)
    (hQ : ∀ p ∈ Q.peers, p.pubKeyBytes.length = len) (hfree : PeerSet.NoCollision S.sha256 P Q)
    (hmade : block.body.peersHash = Q.hash S.sha256) (h : checkBlock S block P = .ok ()) :
    P.keyBytes = Q.keyBytes :=
  PeerSet.keyBytes_eq_of_hash_eq hlen hP hQ hfree ((Core.checkBlock_iff.1 h).1.trans hmade)

/-- Strong sight is cached under the hash of a peer-set. The hash stands for the public keys,
if these are spelled in the one way of `EncodeToString`. -/
theorem hashesKeys_of_noCollision {ps : ℤ → PeerSet K} {len : ℕ}
    (hkeys : ∀ i, ∀ p ∈ (ps i).peers, p.pubKeyBytes.length = len)
    (hspelled : ∀ i, ∀ p ∈ (ps i).peers, p.pubKeyString = Hex.encodeToString p.pubKeyBytes)
    (hfree : ∀ i j, PeerSet.NoCollision S.sha256 (ps i) (ps j)) : HashesKeys S ps := by
  have hmem : ∀ i k, k ∈ (ps i).pubKeys ↔ k ∈ (ps i).keyBytes.map Hex.encodeToString := by
    intro i k
    simp only [PeerSet.mem_pubKeys, PeerSet.keyBytes, List.map_map, List.mem_map]
    refine exists_congr fun p => and_congr_right fun hp => ?_
    rw [hspelled i p hp]
    rfl
  intro i j h
  have hbytes := PeerSet.keyBytes_eq_of_hash_eq hlen (hkeys i) (hkeys j) (hfree i j) h
  ext k
  rw [hmem, hmem, hbytes]

end Uses

namespace Sample

/-- A hash function with outputs of 32 bytes. -/
def sha (data : Bytes) : Bytes :=
  List.replicate 32 (data.foldl (fun h b => 3 * h + b + 1) 0)

/-- A peer with a public key of 65 bytes. -/
def longPeer (key : UInt8) (moniker : String) : Peer Bytes :=
  { netAddr := "", pubKeyHex := List.replicate 65 key, moniker := moniker }

/-- Peers that changed their names have the same keys. -/
theorem renamed_same_keys :
    (⟨[longPeer 1 "a", longPeer 2 "b"]⟩ : PeerSet Bytes).hash sha =
        (⟨[longPeer 1 "c", longPeer 2 "d"]⟩ : PeerSet Bytes).hash sha ∧
      [longPeer 1 "a", longPeer 2 "b"].map Peer.pubKeyBytes =
        [longPeer 1 "c", longPeer 2 "d"].map Peer.pubKeyBytes := by
  have hhash : (⟨[longPeer 1 "a", longPeer 2 "b"]⟩ : PeerSet Bytes).hash sha =
      (⟨[longPeer 1 "c", longPeer 2 "d"]⟩ : PeerSet Bytes).hash sha := by decide +kernel
  have hfree : PeerSet.NoCollision sha ⟨[longPeer 1 "a", longPeer 2 "b"]⟩
      ⟨[longPeer 1 "c", longPeer 2 "d"]⟩ := by
    unfold PeerSet.NoCollision
    decide +kernel
  exact ⟨hhash, PeerSet.pubKeyBytes_eq_of_hash_eq sha (fun x => List.length_replicate) _ _ 65
    (by decide +kernel) (by decide +kernel) hfree hhash⟩

end Sample

end Babble

import Babble.History
import Babble.Anchor
import Babble.BlockCheck

/-!
# The validators after the receipts of a block

An accepted request to join adds a public key to the validators, and one to leave removes
it. A key has three names in the code : joins are matched by the 32-bit identifier, leaves
by the text that a key is written in, and the maps go by the text in upper case.

Over a set of peers, all changes are made as they are stated exactly if the names tell the
same keys apart (`Unambiguous`) : no two different keys have one identifier, and no key is
written in two ways.
-/

set_option linter.unusedSectionVars false

namespace Babble

variable {H K : Type} [DecidableEq H] [DecidableEq K] [Hex H] [Hex K]

/-! ## Names of keys -/

/-- The identifier and the text of a public key stand for its bytes. -/
structure Unambiguous (X : Set (Peer K)) : Prop where
  id : ∀ p ∈ X, ∀ q ∈ X, p.id = q.id → p.pubKeyBytes = q.pubKeyBytes
  text : ∀ p ∈ X, ∀ q ∈ X, p.pubKeyBytes = q.pubKeyBytes → p.pubKeyHex = q.pubKeyHex

/-- A list that is put into a map under different new keys adds that many entries. -/
theorem Map.length_keys_foldl_insert {α β : Type} [DecidableEq α] (f : β → α) (l : List β)
    (m : Map α β) (h : (l.map f).Nodup) (hnew : ∀ b ∈ l, f b ∉ m) :
    (l.foldl (fun m b => m.insert (f b) b) m).keys.length = m.keys.length + l.length := by
  induction l generalizing m with
  | nil => rfl
  | cons b l ih =>
    obtain ⟨hb, hl⟩ := List.nodup_cons.1 h
    have hkeys : (m.insert (f b) b).keys.length = m.keys.length + 1 := by
      rw [AList.keys_insert, List.length_cons, List.erase_of_not_mem
        fun hmem => hnew b List.mem_cons_self (AList.mem_keys.1 hmem)]
    rw [List.foldl_cons, ih _ hl, hkeys, List.length_cons]
    · omega
    · intro c hc hmem
      rcases (AList.mem_insert _).1 hmem with heq | hmem
      · exact hb (heq ▸ List.mem_map_of_mem hc)
      · exact hnew c (List.mem_cons_of_mem b hc) hmem

namespace PeerSet

/-- Every key is there once, and under every name. -/
structure Exact (V : PeerSet K) (keys : Finset (List UInt8)) : Prop where
  nodup : V.keyBytes.Nodup
  keys : V.keyBytes.toFinset = keys
  byPubKey : V.byPubKey.keys.length = V.peers.length
  byID : V.byID.keys.length = V.peers.length

end PeerSet

/-- The keys after one receipt. -/
def InternalTransactionReceipt.applyKeys (r : InternalTransactionReceipt K)
    (keys : Finset (List UInt8)) : Finset (List UInt8) :=
  if r.accepted then
    match r.internalTransaction.body.type with
    | .peerAdd => insert r.internalTransaction.body.peer.pubKeyBytes keys
    | .peerRemove => keys.erase r.internalTransaction.body.peer.pubKeyBytes
    | .unknown _ => keys
  else keys

/-- The keys after the receipts of a block, one after the other. -/
def keysAfterReceipts (receipts : List (InternalTransactionReceipt K))
    (keys : Finset (List UInt8)) : Finset (List UInt8) :=
  receipts.foldl (fun keys r => r.applyKeys keys) keys

/-! ## One change -/

section Unambiguous

variable {X : Set (Peer K)} {V : PeerSet K} {p : Peer K} {keys : Finset (List UInt8)}

/-- The peers are of `X`, each with a key of its own. -/
structure Distinct (X : Set (Peer K)) (V : PeerSet K) : Prop where
  subset : ∀ p ∈ V.peers, p ∈ X
  nodup : V.keyBytes.Nodup

theorem Unambiguous.exact (hX : Unambiguous X) (hV : Distinct X V) :
    V.Exact V.keyBytes.toFinset where
  nodup := hV.nodup
  keys := rfl
  byPubKey := by
    -- a key in upper case has the same bytes
    have hnodup : (V.peers.map Peer.pubKeyString).Nodup := by
      refine List.Nodup.of_map (Hex.decodeFromString : K → List UInt8) ?_
      rw [List.map_map]
      have hbytes : Hex.decodeFromString ∘ Peer.pubKeyString = (Peer.pubKeyBytes : Peer K → _) :=
        funext fun p => Hex.decode_toUpper p.pubKeyHex
      rw [hbytes]
      exact hV.nodup
    rw [PeerSet.byPubKey, Map.length_keys_foldl_insert _ _ _ hnodup fun _ _ => AList.notMem_empty _]
    exact Nat.zero_add _
  byID := by
    have hnodup : (V.peers.map Peer.id).Nodup := by
      refine (List.pairwise_map.1 hV.nodup).imp_of_mem ?_ |> List.pairwise_map.2
      intro p q hp hq hne hid
      exact hne (hX.id p (hV.subset p hp) q (hV.subset q hq) hid)
    rw [PeerSet.byID, Map.length_keys_foldl_insert _ _ _ hnodup fun _ _ => AList.notMem_empty _]
    exact Nat.zero_add _

theorem mem_keyBytes {b : List UInt8} : b ∈ V.keyBytes ↔ ∃ p ∈ V.peers, p.pubKeyBytes = b :=
  List.mem_map

theorem Unambiguous.withNewPeer (hX : Unambiguous X) (hV : Distinct X V) (hp : p ∈ X) :
    Distinct X (V.withNewPeer p) ∧
      (V.withNewPeer p).keyBytes.toFinset = insert p.pubKeyBytes V.keyBytes.toFinset := by
  unfold PeerSet.withNewPeer
  cases hid : V.byID.lookup p.id with
  | some q =>
    -- the peer with the identifier has the key
    obtain ⟨q, hq, hqid⟩ := PeerSet.exists_of_byID (P := V) (i := p.id) (by simp [hid])
    refine ⟨hV, (Finset.insert_eq_of_mem ?_).symm⟩
    rw [List.mem_toFinset, mem_keyBytes]
    exact ⟨q, hq, hX.id q (hV.subset q hq) p hp hqid⟩
  | none =>
    have hnew : p.pubKeyBytes ∉ V.keyBytes := by
      rw [mem_keyBytes]
      rintro ⟨q, hq, hbytes⟩
      refine PeerSet.lookup_byID_eq_none.1 hid q hq ?_
      rw [Peer.id, hbytes]
      rfl
    refine ⟨⟨fun q hq => ?_, ?_⟩, ?_⟩
    · rcases List.mem_append.1 hq with hq | hq
      · exact hV.subset q hq
      · exact List.mem_singleton.1 hq ▸ hp
    · simp only [PeerSet.keyBytes, List.map_append, List.map_cons, List.map_nil]
      rw [← List.concat_eq_append]
      exact hV.nodup.concat hnew
    · simp only [PeerSet.keyBytes, List.map_append, List.map_cons, List.map_nil,
        List.toFinset_append]
      ext b
      simp

theorem Unambiguous.withRemovedPeer (hX : Unambiguous X) (hV : Distinct X V) (hp : p ∈ X) :
    Distinct X (V.withRemovedPeer p) ∧
      (V.withRemovedPeer p).keyBytes.toFinset = V.keyBytes.toFinset.erase p.pubKeyBytes := by
  refine ⟨⟨fun q hq => hV.subset q (List.mem_of_mem_filter hq), ?_⟩, ?_⟩
  · exact hV.nodup.sublist (List.Sublist.map _ List.filter_sublist)
  · ext b
    rw [List.mem_toFinset, Finset.mem_erase, List.mem_toFinset, mem_keyBytes, mem_keyBytes]
    constructor
    · rintro ⟨q, hq, rfl⟩
      obtain ⟨hmem, hne⟩ := List.mem_filter.1 hq
      refine ⟨fun heq => ?_, q, hmem, rfl⟩
      simp [hX.text q (hV.subset q hmem) p hp heq] at hne
    · rintro ⟨hne, q, hq, rfl⟩
      refine ⟨q, List.mem_filter.2 ⟨hq, ?_⟩, rfl⟩
      simp only [ne_eq, decide_eq_true_eq]
      intro heq
      exact hne (by rw [Peer.pubKeyBytes, heq]; rfl)

/-- One receipt. -/
theorem Unambiguous.apply (hX : Unambiguous X) (hV : Distinct X V)
    {r : InternalTransactionReceipt K} (hr : r.internalTransaction.body.peer ∈ X) :
    Distinct X (r.apply V) ∧
      (r.apply V).keyBytes.toFinset = r.applyKeys V.keyBytes.toFinset := by
  unfold InternalTransactionReceipt.apply InternalTransactionReceipt.applyKeys
  split_ifs with hacc
  · cases r.internalTransaction.body.type with
    | peerAdd => exact hX.withNewPeer hV hr
    | peerRemove => exact hX.withRemovedPeer hV hr
    | unknown _ => exact ⟨hV, rfl⟩
  · exact ⟨hV, rfl⟩

/-- The receipts of a block. -/
theorem Unambiguous.afterReceipts (hX : Unambiguous X)
    {receipts : List (InternalTransactionReceipt K)}
    (hr : ∀ r ∈ receipts, r.internalTransaction.body.peer ∈ X) (hV : Distinct X V) :
    Distinct X (afterReceipts receipts V) ∧
      (Babble.afterReceipts receipts V).keyBytes.toFinset =
        keysAfterReceipts receipts V.keyBytes.toFinset := by
  induction receipts generalizing V with
  | nil => exact ⟨hV, rfl⟩
  | cons r receipts ih =>
    obtain ⟨hV', hkeys⟩ := hX.apply hV (hr r List.mem_cons_self)
    obtain ⟨hV'', hkeys'⟩ := ih (fun r hmem => hr r (List.mem_cons_of_mem _ hmem)) hV'
    refine ⟨hV'', hkeys'.trans ?_⟩
    rw [hkeys]
    rfl

end Unambiguous

/-! ## The core -/

namespace Core

variable {v : Validator} {rr : ℤ} {receipts : List (InternalTransactionReceipt K)}
  {s s' : Core H K}

/-- The validators are the fold of the receipts, and the set that is recorded. -/
theorem validators_of_exec (h : Exec.exec (processAcceptedInternalTransactions v rr receipts) s =
    (.ok (), s')) : s'.host.validators = afterReceipts receipts s.host.validators ∧
      (receipts.any InternalTransactionReceipt.changes = true →
        s'.hg.store.peerSetCache.peerSets.lookup (rr + 6) = some s'.host.validators) := by
  obtain ⟨res, s'', hexec, hcase⟩ := exec_process_cases (v := v) s rr receipts
  obtain ⟨rfl, rfl⟩ := Prod.mk.inj (hexec.symm.trans h)
  rcases hcase with ⟨hany, -, hval, -⟩ | ⟨-, err, -, hres, -⟩ | ⟨-, st, hst, -, hval, hhg⟩
  · rw [hval, hany]
    exact ⟨(afterReceipts_of_unchanged hany _).symm, nofun⟩
  · cases hres
  · refine ⟨hval, fun _ => ?_⟩
    rw [hhg, hval]
    obtain ⟨psc, pec, roots, fc, hset, rfl, -, -⟩ := InmemStore.setPeerSet_eq hst
    rw [show psc.peerSets = _ from (PeerSetCache.set_eq hset).2.1]
    exact AList.lookup_insert _

/-- A round without a peer-set takes the new one. -/
theorem exists_exec_process (rr : ℤ) (v : Validator) (receipts : List (InternalTransactionReceipt K))
    (h : s.hg.store.peerSetCache.peerSets.lookup (rr + 6) = none) :
    ∃ s', Exec.exec (processAcceptedInternalTransactions v rr receipts) s = (.ok (), s') := by
  obtain ⟨res, s', hexec, hcase⟩ := exec_process_cases (v := v) s rr receipts
  rcases hcase with ⟨-, rfl, -⟩ | ⟨-, err, herr, -⟩ | ⟨-, st, -, rfl, -⟩
  · exact ⟨s', hexec⟩
  · simp only [InmemStore.setPeerSet, PeerSetCache.set, h] at herr
    cases herr
  · exact ⟨s', hexec⟩

/-- The receipts changed the validators as they state, and the new set is on record. -/
structure Applied (s : Core H K) (rr : ℤ) (receipts : List (InternalTransactionReceipt K))
    (s' : Core H K) : Prop where
  exact : s'.host.validators.Exact (keysAfterReceipts receipts s.host.validators.keyBytes.toFinset)
  recorded : receipts.any InternalTransactionReceipt.changes = true →
    s'.hg.store.peerSetCache.peerSets.lookup (rr + 6) = some s'.host.validators

/-- The receipts are of validly signed transactions about peers of `X`. -/
def SignedReceipts (S : Scheme H K) (X : Set (Peer K))
    (receipts : List (InternalTransactionReceipt K)) : Prop :=
  ∀ r ∈ receipts, r.internalTransaction.body.peer ∈ X ∧ r.internalTransaction.verify S = .ok true

/-- Receipts of transactions about peers with unambiguous names change the validators as they
state. -/
theorem applied_of_unambiguous {X : Set (Peer K)} (hX : Unambiguous X)
    (hV : Distinct X s.host.validators)
    (hr : ∀ r ∈ receipts, r.internalTransaction.body.peer ∈ X)
    (h : Exec.exec (processAcceptedInternalTransactions v rr receipts) s = (.ok (), s')) :
    Applied s rr receipts s' := by
  obtain ⟨hval, hrec⟩ := validators_of_exec h
  obtain ⟨hV', hkeys⟩ := hX.afterReceipts hr hV
  refine ⟨?_, hrec⟩
  rw [hval, ← hkeys]
  exact hX.exact hV'

/-- A core whose only validator is `p` processes the receipt of one accepted change. -/
theorem exact_of_single (S : Scheme H K) (v : Validator) {X : Set (Peer K)} {p q : Peer K}
    (hsign : ∀ p ∈ X, ∀ t, ∃ sig, InternalTransaction.verify S ⟨⟨t, p⟩, sig⟩ = .ok true)
    (h : ∀ (s : Core H K) rr receipts s', Distinct X s.host.validators →
      SignedReceipts S X receipts →
      Exec.exec (processAcceptedInternalTransactions v rr receipts) s = (.ok (), s') →
      Applied s rr receipts s')
    (hp : p ∈ X) (hq : q ∈ X) (t : TransactionType) :
    ∃ r : InternalTransactionReceipt K, r.accepted = true ∧
      r.internalTransaction.body = ⟨t, q⟩ ∧
      (r.apply ⟨[p]⟩).Exact (r.applyKeys {p.pubKeyBytes}) := by
  obtain ⟨sig, hsig⟩ := hsign q hq t
  let r : InternalTransactionReceipt K := ⟨⟨⟨t, q⟩, sig⟩, true⟩
  let s : Core H K := Core.new ⟨[p]⟩ ⟨[p]⟩ (InmemStore.new 0)
  have hfree : s.hg.store.peerSetCache.peerSets.lookup 6 = none :=
    (follows_new 0 ⟨[p]⟩ ⟨[p]⟩).records.lookup 6
  obtain ⟨s', hs'⟩ := exists_exec_process (s := s) 0 v [r] hfree
  refine ⟨r, rfl, rfl, ?_⟩
  have hV : Distinct X s.host.validators :=
    ⟨fun p' hp' => List.mem_singleton.1 hp' ▸ hp, List.nodup_singleton _⟩
  have hr : SignedReceipts S X [r] :=
    fun r' hr' => List.mem_singleton.1 hr' ▸ ⟨hq, hsig⟩
  have hexact := (h s 0 [r] s' hV hr hs').exact
  rw [(validators_of_exec hs').1] at hexact
  exact hexact

end Core

namespace Sample

/-- The receipt of an accepted transaction, with a signature. -/
def accepted {K : Type} (t : TransactionType) (p : Peer K) : InternalTransactionReceipt K :=
  ⟨⟨⟨t, p⟩, "1|1"⟩, true⟩

theorem verify_accepted (t : TransactionType) (p : Peer Bytes) :
    (accepted t p).internalTransaction.verify scheme = .ok true := by
  have hsig : decodeSignature "1|1" = .ok (some 1, some 1) := by decide +kernel
  simp only [InternalTransaction.verify, accepted, hsig]
  rfl

/-- The names of two one-byte keys are unambiguous. -/
theorem unambiguous_pair : Unambiguous {p | p = peer 1 ∨ p = peer 2} where
  id := by
    rintro p (rfl | rfl) q (rfl | rfl) h
    all_goals first
      | rfl
      | exact absurd h (by decide)
  text _ _ _ _ h := h

/-- The peer with the second of the two keys of one identifier. -/
def latecomer : Peer Bytes :=
  { netAddr := "", pubKeyHex := strangerKey, moniker := "" }

end Sample

end Babble

import Babble.Head
import Babble.Sample

/-!
# What an event takes from the pools

Items are submitted at any time, also while an own event is inserted, since the insertion
may commit blocks. The pools are read before and trimmed after it, and so every item is
either in a pool or in the payload of one own event.
-/

set_option linter.unusedSectionVars false

namespace Babble

variable {H K : Type} [DecidableEq H] [DecidableEq K] [Hex H] [Hex K]

/-! ## Signatures -/

/-- The key of a signature in a pool. -/
def BlockSignature.key (bs : BlockSignature) : ℤ × K :=
  (bs.index, bs.validatorHex)

/-- The pool holds the signatures of the list, each under its key. -/
def Pools (pool : Map (ℤ × K) BlockSignature) (sigs : List BlockSignature) : Prop :=
  ∀ k sig, pool.lookup k = some sig ↔ sig ∈ sigs ∧ k = sig.key

namespace Pools

variable {pool : Map (ℤ × K) BlockSignature} {sigs new : List BlockSignature}

theorem mem_values (h : Pools pool sigs) {sig : BlockSignature} :
    sig ∈ pool.toPairs.map Prod.snd ↔ sig ∈ sigs := by
  rw [List.mem_map]
  constructor
  · rintro ⟨⟨k, sig'⟩, hk, rfl⟩
    exact ((h k _).1 (Map.mem_toPairs.1 hk)).1
  · intro hs
    exact ⟨(sig.key, sig), Map.mem_toPairs.2 ((h _ _).2 ⟨hs, rfl⟩), rfl⟩

theorem perm (h : Pools pool sigs) (hn : (sigs.map BlockSignature.index).Nodup) :
    (pool.toPairs.map Prod.snd).Perm sigs := by
  refine (List.perm_ext_iff_of_nodup ?_ (List.Nodup.of_map _ hn)).2 fun sig => h.mem_values
  refine (List.nodup_map_iff_inj_on pool.nodup_toPairs).2 ?_
  rintro ⟨k, sig⟩ hk ⟨k', sig'⟩ hk' rfl
  rw [((h k _).1 (Map.mem_toPairs.1 hk)).2, ((h k' _).1 (Map.mem_toPairs.1 hk')).2]

/-- A signature with a new index is added. -/
theorem add (h : Pools pool sigs) {sig : BlockSignature}
    (hnew : ∀ sig' ∈ sigs, sig'.index ≠ sig.index) :
    Pools (Hashgraph.addPendingSignature pool sig) (sigs ++ [sig]) := by
  intro k sig'
  rw [Hashgraph.addPendingSignature, Map.lookup_insert_ite]
  simp only [List.mem_append, List.mem_singleton]
  split_ifs with hk
  · rw [Option.some.injEq]
    constructor
    · rintro rfl
      exact ⟨Or.inr rfl, hk⟩
    · rintro ⟨hs | rfl, hk'⟩
      · exact absurd (congrArg Prod.fst (hk'.symm.trans hk)) (hnew sig' hs)
      · rfl
  · rw [h k sig']
    constructor
    · exact fun hs => ⟨Or.inl hs.1, hs.2⟩
    · rintro ⟨hs | rfl, hk'⟩
      · exact ⟨hs, hk'⟩
      · exact absurd hk' hk

theorem addAll (h : Pools pool sigs) (hnew : ((sigs ++ new).map BlockSignature.index).Nodup) :
    Pools (new.foldl Hashgraph.addPendingSignature pool) (sigs ++ new) := by
  induction new generalizing pool sigs with
  | nil => rwa [List.append_nil]
  | cons sig new ih =>
    have hsplit : sigs ++ sig :: new = (sigs ++ [sig]) ++ new := by simp
    rw [hsplit] at hnew ⊢
    refine ih (h.add fun sig' hs' heq => ?_) hnew
    rw [List.map_append, List.nodup_append] at hnew
    have hd := hnew.1
    rw [List.map_append, List.nodup_append] at hd
    exact hd.2.2 _ (List.mem_map_of_mem hs') _ (List.mem_map_of_mem (List.mem_singleton_self sig)) heq

/-- The pool after `taken` was removed. -/
theorem removeSlice (h : Pools pool (sigs ++ new))
    (hnodup : ((sigs ++ new).map BlockSignature.index).Nodup) {taken : List BlockSignature}
    (htaken : ∀ sig, sig ∈ taken ↔ sig ∈ sigs) : Pools (Babble.removeSlice pool taken) new := by
  have hlookup : ∀ (l : List BlockSignature) (pool : Map (ℤ × K) BlockSignature) (k : ℤ × K),
      (Babble.removeSlice pool l).lookup k =
        if k ∈ l.map (BlockSignature.key (K := K)) then none else pool.lookup k := by
    intro l
    induction l with
    | nil => exact fun pool k => (if_neg (by simp)).symm
    | cons sig l ih =>
      intro pool k
      change (Babble.removeSlice (pool.erase sig.key) l).lookup k = _
      rw [ih]
      by_cases hk : k = sig.key
      · subst hk
        rw [AList.lookup_erase]
        simp
      · rw [AList.lookup_erase_ne hk]
        simp [hk]
  have hdisj : ∀ sig ∈ sigs, ∀ sig' ∈ new, sig.index ≠ sig'.index := by
    rw [List.map_append, List.nodup_append] at hnodup
    exact fun sig hs sig' hs' => hnodup.2.2 _ (List.mem_map_of_mem hs) _ (List.mem_map_of_mem hs')
  intro k sig
  rw [hlookup]
  constructor
  · intro hk
    split_ifs at hk with hmem
    obtain ⟨hs, rfl⟩ := (h k sig).1 hk
    refine ⟨(List.mem_append.1 hs).resolve_left fun hs => hmem ?_, rfl⟩
    exact List.mem_map_of_mem ((htaken sig).2 hs)
  · rintro ⟨hs, rfl⟩
    rw [if_neg, (h _ _).2 ⟨List.mem_append_right _ hs, rfl⟩]
    rw [List.mem_map]
    rintro ⟨sig', hs', hkey⟩
    exact hdisj sig' ((htaken sig').1 hs') sig hs (congrArg Prod.fst hkey)

end Pools

/-! ## Commits -/

namespace Core

variable {S : Scheme H K} {v : Validator} {proxy : ProxyCommitCallback K}

theorem fixes_process (roundReceived : ℤ) (receipts : List (InternalTransactionReceipt K)) :
    Exec.Fixes (fun s : Core H K => s.host.selfBlockSignatures)
      (processAcceptedInternalTransactions v roundReceived receipts) := by
  refine Exec.Fixes.bind Exec.fixes_get fun s₀ => ?_
  refine Exec.Fixes.bind (Exec.fixes_modify fun s => rfl) fun _ => ?_
  split_ifs
  · refine Exec.Fixes.bind (Exec.fixes_modify fun s => rfl) fun _ => ?_
    refine Exec.Fixes.bind (fun s => ?_) fun _ => Exec.fixes_modify fun s => rfl
    rw [Session.exec_onHashgraph]
  · exact Exec.fixes_pure _

/-- A commit adds the signature of the block to the pool, if it makes one. -/
theorem selfBlockSignatures_commitCallback (b : Block K) (s : Core H K) :
    (commitCallback S v proxy b s).host.selfBlockSignatures =
      (commitSignatures S v proxy b s).foldl Hashgraph.addPendingSignature
        s.host.selfBlockSignatures := by
  unfold commitCallback commitSignatures
  cases hproxy : proxy b with
  | error err => simp only [commit, hproxy, Exec.exec_throw, List.foldl_nil]
  | ok response =>
    cases hP : s.hg.store.getPeerSet b.body.roundReceived with
    | error err =>
      have hP' : (setBlock (b.answered response) s).hg.store.getPeerSet
          (b.answered response).body.roundReceived = .error err := hP
      simp only [commit, hproxy, Exec.exec_bind, Exec.exec_modify, signBlock,
        Session.exec_onHashgraph, Hashgraph.exec_read]
      simp only [Block.answered] at hP'
      rw [hP']
      rfl
    | ok P =>
      rw [exec_commit hproxy hP]
      have hfix : Exec.Fixes (fun s : Core H K => s.host.selfBlockSignatures)
          (Session.onHashgraph (Hashgraph.setAnchorBlock (signedBlock S v P (b.answered response)))
            >>= fun _ => processAcceptedInternalTransactions v b.body.roundReceived
              response.internalTransactionReceipts) :=
        Exec.Fixes.bind (fun s => by rw [Session.exec_onHashgraph]) fun _ => fixes_process _ _
      refine (hfix _).trans ?_
      simp only [withSigned]
      cases P.byID.lookup v.id <;> rfl

theorem index_commitSignatures {b : Block K} {s : Core H K} {sig : BlockSignature}
    (h : sig ∈ commitSignatures S v proxy b s) : sig.index = b.body.index := by
  unfold commitSignatures at h
  split at h
  · split at h
    · cases h
    · rw [List.mem_singleton] at h
      rw [h]
      rfl
  · cases h

theorem nodup_commitSignatures (b : Block K) (s : Core H K) :
    ((commitSignatures S v proxy b s).map BlockSignature.index).Nodup := by
  unfold commitSignatures
  split
  · split <;> simp
  · simp

end Core

namespace PoolCore

variable {S : Scheme H K} {rt : Runtime} {v : Validator} {app : Application K} {clock : ℕ → Int64}
  {s s' s'' : PoolCore H K}

/-- Items are appended to the pools and to the journal, and the signatures of new blocks. -/
structure Appended (txs : List (List UInt8)) (itxs : List (InternalTransaction K))
    (sigs : List BlockSignature) (s s' : PoolCore H K) : Prop where
  transactions : s'.host.transactionPool = s.host.transactionPool ++ txs
  internalTransactions : s'.host.internalTransactionPool = s.host.internalTransactionPool ++ itxs
  signatures : s'.host.selfBlockSignatures =
    sigs.foldl Hashgraph.addPendingSignature s.host.selfBlockSignatures
  journal : s'.host.journal = { s.host.journal with
    transactions := s.host.journal.transactions ++ txs
    internalTransactions := s.host.journal.internalTransactions ++ itxs
    signatures := s.host.journal.signatures ++ sigs }
  lastBlock : s.hg.store.lastBlock ≤ s'.hg.store.lastBlock
  index : ∀ sig ∈ sigs, s.hg.store.lastBlock < sig.index ∧ sig.index ≤ s'.hg.store.lastBlock
  nodup : (sigs.map BlockSignature.index).Nodup

/-- Some items are appended. -/
def Extends (s s' : PoolCore H K) : Prop :=
  ∃ txs itxs sigs, Appended txs itxs sigs s s'

theorem Extends.of_lastBlock {hg : Hashgraph H K}
    (h : hg.store.lastBlock = s.hg.store.lastBlock) : Extends s { s with hg := hg } :=
  ⟨[], [], [], by simp, by simp, rfl, by simp, h.ge, nofun, List.nodup_nil⟩

theorem Extends.trans (h : Extends s s') (h' : Extends s' s'') : Extends s s'' := by
  obtain ⟨txs, itxs, sigs, h⟩ := h
  obtain ⟨txs', itxs', sigs', h'⟩ := h'
  refine ⟨txs ++ txs', itxs ++ itxs', sigs ++ sigs', ?_, ?_, ?_, ?_, h.lastBlock.trans h'.lastBlock,
    fun sig hs => ?_, ?_⟩
  · rw [h'.transactions, h.transactions, List.append_assoc]
  · rw [h'.internalTransactions, h.internalTransactions, List.append_assoc]
  · rw [h'.signatures, h.signatures, List.foldl_append]
  · rw [h'.journal, h.journal]
    simp only [List.append_assoc]
  · rcases List.mem_append.1 hs with hs | hs
    · exact ⟨(h.index sig hs).1, (h.index sig hs).2.trans h'.lastBlock⟩
    · exact ⟨h.lastBlock.trans_lt (h'.index sig hs).1, (h'.index sig hs).2⟩
  · rw [List.map_append, List.nodup_append]
    refine ⟨h.nodup, h'.nodup, fun i hi j hj hij => ?_⟩
    obtain ⟨sig, hs, rfl⟩ := List.mem_map.1 hi
    obtain ⟨sig', hs', rfl⟩ := List.mem_map.1 hj
    have := (h.index sig hs).2
    have := (h'.index sig' hs').1
    omega

/-- The commit of the next block. -/
theorem extends_commitFrame (fr : Frame H K) (s : PoolCore H K) :
    Extends s (Session.commitFrame S (commitCallback S v app) fr s) := by
  rw [Session.commitFrame_eq]
  split_ifs
  · exact .of_lastBlock rfl
  · set b := Block.fromFrame S (s.hg.store.lastBlock + 1) fr
    have hb : b.body.index = s.hg.store.lastBlock + 1 := rfl
    have hlast : (Session.storing b s).hg.store.lastBlock = s.hg.store.lastBlock + 1 :=
      if_pos (by omega)
    set c := core (submit (app.transactions b) (app.internalTransactions b) (Session.storing b s))
    have hlast' : (Core.commitCallback S v app.commit b c).hg.store.lastBlock =
        s.hg.store.lastBlock + 1 :=
      ((Core.hosting_commitCallback b c).lastBlock (by rw [hb]; exact hlast.ge)).trans hlast
    refine ⟨app.transactions b, app.internalTransactions b, Core.commitSignatures S v app.commit b c,
      rfl, rfl, Core.selfBlockSignatures_commitCallback b c, rfl, ?_, fun sig hs => ?_, ?_⟩
    · change _ ≤ (Core.commitCallback S v app.commit b c).hg.store.lastBlock
      omega
    · change _ ∧ _ ≤ (Core.commitCallback S v app.commit b c).hg.store.lastBlock
      have := Core.index_commitSignatures hs
      omega
    · exact Core.nodup_commitSignatures b c

theorem extends_feed (s : PoolCore H K) (i : Session.Input H K) :
    Extends s (Session.feed S rt (commitCallback S v app) s i) := by
  have hun : Session.Unshelved (Extends : PoolCore H K → PoolCore H K → Prop) :=
    fun s hg hs => .of_lastBlock (congrArg Shelf.lastBlock hs)
  exact hun.feed .trans extends_commitFrame s i

theorem extends_insert (event : SignedEvent H K) (wire : WireInfo) (fill : Bool)
    (s : PoolCore H K) :
    Extends s (Exec.exec (insertEventAndRunConsensus S rt v app event wire fill) s).2 := by
  have hfeed : Extends s (Session.feed S rt (commitCallback S v app) s ⟨event, wire, fill⟩) :=
    extends_feed s _
  rw [Session.feed] at hfeed
  rw [insertEventAndRunConsensus, Exec.exec_bind]
  generalize Exec.exec (Session.insertEventAndRunConsensus S rt (commitCallback S v app) event
    wire fill) s = res at hfeed ⊢
  obtain ⟨_ | _, t⟩ := res
  · exact hfeed
  · simp only
    split_ifs
    · obtain ⟨txs, itxs, sigs, h⟩ := hfeed
      exact ⟨txs, itxs, sigs, { h with }⟩
    · exact hfeed

/-! ## The record of payloads -/

/-- What was submitted and signed is what the own events and the pools hold. -/
structure Recorded (s : PoolCore H K) : Prop where
  transactions : (s.host.journal.made.flatMap fun e => e.body.transactions) ++
    s.host.transactionPool = s.host.journal.transactions
  internalTransactions : (s.host.journal.made.flatMap fun e => e.body.internalTransactions) ++
    s.host.internalTransactionPool = s.host.journal.internalTransactions
  signatures : ∃ waiting, Pools s.host.selfBlockSignatures waiting ∧
    ((s.host.journal.made.flatMap fun e => e.body.blockSignatures) ++ waiting).Perm
      s.host.journal.signatures
  nodup : (s.host.journal.signatures.map BlockSignature.index).Nodup
  le : ∀ sig ∈ s.host.journal.signatures, sig.index ≤ s.hg.store.lastBlock

theorem Recorded.nodup_waiting (h : Recorded s) {waiting : List BlockSignature}
    (hw : ((s.host.journal.made.flatMap fun e => e.body.blockSignatures) ++ waiting).Perm
      s.host.journal.signatures) : (waiting.map BlockSignature.index).Nodup := by
  have hn := (hw.map BlockSignature.index).nodup_iff.2 h.nodup
  rw [List.map_append, List.nodup_append] at hn
  exact hn.2.1

/-- The new signatures are none of those that wait. -/
theorem Recorded.nodup_append (h : Recorded s) {txs : List (List UInt8)}
    {itxs : List (InternalTransaction K)} {sigs waiting : List BlockSignature}
    (ha : Appended txs itxs sigs s s')
    (hw : ((s.host.journal.made.flatMap fun e => e.body.blockSignatures) ++ waiting).Perm
      s.host.journal.signatures) : ((waiting ++ sigs).map BlockSignature.index).Nodup := by
  rw [List.map_append, List.nodup_append]
  refine ⟨h.nodup_waiting hw, ha.nodup, fun i hi j hj hij => ?_⟩
  obtain ⟨sig, hs, rfl⟩ := List.mem_map.1 hi
  obtain ⟨sig', hs', rfl⟩ := List.mem_map.1 hj
  have := h.le sig (hw.subset (List.mem_append_right _ hs))
  have := (ha.index sig' hs').1
  omega

/-- Signatures of new blocks in the journal. -/
theorem Recorded.journal_signatures (h : Recorded s) {txs : List (List UInt8)}
    {itxs : List (InternalTransaction K)} {sigs : List BlockSignature}
    (ha : Appended txs itxs sigs s s') :
    (s'.host.journal.signatures.map BlockSignature.index).Nodup ∧
      ∀ sig ∈ s'.host.journal.signatures, sig.index ≤ s'.hg.store.lastBlock := by
  rw [ha.journal]
  simp only [List.map_append, List.nodup_append, List.mem_append]
  refine ⟨⟨h.nodup, ha.nodup, fun i hi j hj hij => ?_⟩, ?_⟩
  · obtain ⟨sig, hs, rfl⟩ := List.mem_map.1 hi
    obtain ⟨sig', hs', rfl⟩ := List.mem_map.1 hj
    have := h.le sig hs
    have := (ha.index sig' hs').1
    omega
  · rintro sig (hs | hs)
    · exact (h.le sig hs).trans ha.lastBlock
    · exact (ha.index sig hs).2

theorem Recorded.extends (h : Recorded s) (he : Extends s s') : Recorded s' := by
  obtain ⟨txs, itxs, sigs, ha⟩ := he
  obtain ⟨waiting, hpool, hperm⟩ := h.signatures
  obtain ⟨hnodup, hle⟩ := h.journal_signatures ha
  have hmade : s'.host.journal.made = s.host.journal.made := by rw [ha.journal]; rfl
  refine ⟨?_, ?_, ⟨waiting ++ sigs, ?_, ?_⟩, hnodup, hle⟩
  · rw [hmade, ha.transactions, ha.journal, ← List.append_assoc, h.transactions]
  · rw [hmade, ha.internalTransactions, ha.journal, ← List.append_assoc, h.internalTransactions]
  · rw [ha.signatures]
    exact hpool.addAll (h.nodup_append ha hperm)
  · rw [hmade, ha.journal, ← List.append_assoc]
    exact hperm.append_right sigs

/-- The pools are trimmed by what an event has taken before. -/
theorem Recorded.trim (h : Recorded s) (he : Extends s s') {event : SignedEvent H K}
    (htxs : event.body.transactions = s.host.transactionPool)
    (hitxs : event.body.internalTransactions = s.host.internalTransactionPool)
    (hsigs : event.body.blockSignatures.Perm (s.host.selfBlockSignatures.toPairs.map Prod.snd)) :
    Recorded (trim event s') := by
  obtain ⟨txs, itxs, sigs, ha⟩ := he
  obtain ⟨waiting, hpool, hperm⟩ := h.signatures
  obtain ⟨hnodup, hle⟩ := h.journal_signatures ha
  have hmade : (PoolCore.trim event s').host.journal.made = s.host.journal.made ++ [event] := by
    change List.filterMap _ (s'.host.journal.entries ++ [.made event]) = _
    rw [ha.journal, List.filterMap_append]
    rfl
  have hwaiting := hpool.perm (h.nodup_waiting hperm)
  refine ⟨?_, ?_, ⟨sigs, ?_, ?_⟩, hnodup, hle⟩
  · change _ ++ s'.host.transactionPool.drop event.body.transactions.length =
      s'.host.journal.transactions
    rw [hmade, ha.transactions, ha.journal, htxs, List.drop_left, ← h.transactions]
    simp [htxs]
  · change _ ++ s'.host.internalTransactionPool.drop event.body.internalTransactions.length =
      s'.host.journal.internalTransactions
    rw [hmade, ha.internalTransactions, ha.journal, hitxs, List.drop_left, ← h.internalTransactions]
    simp [hitxs]
  · change Pools (removeSlice s'.host.selfBlockSignatures event.body.blockSignatures) sigs
    rw [ha.signatures]
    refine (hpool.addAll (h.nodup_append ha hperm)).removeSlice (h.nodup_append ha hperm) fun sig => ?_
    exact hsigs.mem_iff.trans hpool.mem_values
  · change List.Perm _ s'.host.journal.signatures
    rw [hmade, ha.journal, List.flatMap_append]
    have hevent : ((s.host.journal.made.flatMap fun e => e.body.blockSignatures) ++
        event.body.blockSignatures).Perm s.host.journal.signatures :=
      ((hsigs.trans hwaiting).append_left _).trans hperm
    simpa using hevent.append_right sigs

theorem steady_recorded :
    Steady S rt v app fun s s' : PoolCore H K => Recorded s → Recorded s' where
  refl _ := id
  trans h h' := h' ∘ h
  tick s n h := { h with }
  submit s txs itxs h := h.extends ⟨txs, itxs, [], rfl, rfl, rfl, by simp [PoolCore.submit],
    le_refl _, nofun, List.nodup_nil⟩
  heads s m h := { h with }
  own s sigs otherHead t hperm event he h := by
    have hext : Extends s (Exec.exec (insertEventAndRunConsensus S rt v app event {} true) s).2 :=
      extends_insert event {} true s
    rw [Exec.exec_bind]
    generalize Exec.exec (insertEventAndRunConsensus S rt v app event {} true) s = res at hext ⊢
    obtain ⟨_ | _, t⟩ := res
    · exact h.extends hext
    · exact h.trim hext (by rw [he]; rfl) (by rw [he]; rfl) (by rw [he]; exact hperm)
  read s event wire h := by
    have hmade : (noteRead event s).host.journal.made = s.host.journal.made := by
      change List.filterMap _ (s.host.journal.entries ++ [.read event]) = _
      rw [List.filterMap_append]
      exact List.append_nil _
    have hnoted : Recorded (noteRead event s) :=
      ⟨by rw [hmade]; exact h.transactions, by rw [hmade]; exact h.internalTransactions,
        by rw [hmade]; exact h.signatures, h.nodup, h.le⟩
    exact hnoted.extends (extends_insert event wire false _)

end PoolCore

/-! ## Own events -/

/-- Every event of `k` that was read is one that the core has made before. -/
def Journal.Genuine (k : K) (j : Journal H K) : Prop :=
  ∀ pre e post, j.entries = pre ++ .read e :: post → e.creator = k →
    ∃ e', .made e' ∈ pre ∧ e'.body = e.body

theorem Journal.Genuine.mono {k : K} {j j' : Journal H K} (h : Genuine k j')
    (hp : j.entries <+: j'.entries) : Genuine k j := by
  intro pre e post he
  obtain ⟨rest, hrest⟩ := hp
  exact h pre e (post ++ rest) (by rw [← hrest, he]; simp)

theorem Journal.mem_made {j : Journal H K} {e : SignedEvent H K} :
    e ∈ j.made ↔ .made e ∈ j.entries := by
  rw [made, List.mem_filterMap]
  constructor
  · rintro ⟨_ | _ | _, ha, he⟩ <;> cases he
    exact ha
  · exact fun h => ⟨.made e, h, rfl⟩

namespace PoolCore

variable {S : Scheme H K} {rt : Runtime} {v : Validator} {app : Application K} {clock : ℕ → Int64}
  {s s' : PoolCore H K}

/-- The stored own events are those that the core has made, one on top of the other. -/
structure Owned (S : Scheme H K) (v : Validator) (s : PoolCore H K) : Prop extends Kept S v s where
  made : ∀ (n : ℕ) e, s.host.journal.made[n]? = some e → e.creator = (v.publicKeyHex : K) ∧
    e.body.index = n ∧ signedEvents s.hg.store.eventCache (e.hex S) = some e
  parent : ∀ (n : ℕ) e, s.host.journal.made[n]? = some e →
    e.body.selfParent = (s.host.journal.made.take n).getLast?.map (SignedEvent.hex S)
  head : s.host.head = s.host.journal.made.getLast?.map (SignedEvent.hex S)
  seq : s.host.seq = s.host.journal.made.length - 1
  stored : ∀ x e, signedEvents s.hg.store.eventCache x = some e →
    e.creator = (v.publicKeyHex : K) → e ∈ s.host.journal.made

/-- An own event that was made before is not on top of the head. -/
theorem Owned.ne_head (h : Owned S v s) {e : SignedEvent H K} (he : e ∈ s.host.journal.made) :
    e.body.selfParent ≠ s.host.head := by
  intro hhead
  obtain ⟨n, hn⟩ := List.mem_iff_getElem?.1 he
  have hlt : n < s.host.journal.made.length := (List.getElem?_eq_some_iff.1 hn).1
  rw [h.parent n e hn, h.head] at hhead
  obtain ⟨last, hlast⟩ := Option.ne_none_iff_exists'.1
    (mt List.getLast?_eq_none_iff.1 (List.ne_nil_of_mem he))
  rw [hlast] at hhead
  obtain ⟨p, hp, hhex⟩ := Option.map_eq_some_iff.1 hhead
  rw [List.getLast?_eq_getElem?] at hlast hp
  rw [List.getElem?_take] at hp
  split_ifs at hp with hn'
  rw [List.length_take, min_eq_left hlt.le] at hp hn'
  -- both are stored under one hash, and so have one index
  have hpe := (h.made _ p hp).2
  have hle := (h.made _ last hlast).2
  rw [hhex, hle.2] at hpe
  obtain rfl := Option.some.inj hpe.2
  have := hpe.1.symm.trans hle.1
  omega

theorem Owned.of_eq (h : Owned S v s) (hkept : Kept S v s')
    (hec : s'.hg.store.eventCache = s.hg.store.eventCache) (hhead : s'.host.head = s.host.head)
    (hseq : s'.host.seq = s.host.seq) (hmade : s'.host.journal.made = s.host.journal.made) :
    Owned S v s' := by
  refine ⟨hkept, ?_, ?_, ?_, ?_, ?_⟩
  · rw [hmade, hec]
    exact h.made
  · rw [hmade]
    exact h.parent
  · rw [hhead, hmade]
    exact h.head
  · rw [hseq, hmade]
    exact h.seq
  · rw [hmade, hec]
    exact h.stored

/-- The core has made another event. -/
theorem Owned.append (h : Owned S v s) {event : SignedEvent H K} (hkept : Kept S v s')
    (hcreator : event.creator = (v.publicKeyHex : K)) (hindex : event.body.index = s.host.seq + 1)
    (hparent : event.body.selfParent = s.host.head)
    (hmade : s'.host.journal.made = s.host.journal.made ++ [event])
    (hhead : s'.host.head = some (event.hex S)) (hseq : s'.host.seq = event.body.index)
    (hsigned : signedEvents s'.hg.store.eventCache =
      Function.update (signedEvents s.hg.store.eventCache) (event.hex S) (some event))
    (hd : s'.host.journal.Distinct S) : Owned S v s' := by
  have hne : ∀ e ∈ s.host.journal.made, e.hex S ≠ event.hex S := by
    intro e he hx
    obtain ⟨n, hn⟩ := List.mem_iff_getElem?.1 he
    have hlt : n < s.host.journal.made.length := (List.getElem?_eq_some_iff.1 hn).1
    have hmem : ∀ e' ∈ s.host.journal.made ++ [event], Entry.made e' ∈ s'.host.journal.entries :=
      fun e' he' => Journal.mem_made.1 (hmade ▸ he')
    have hbody : e.body = event.body :=
      hd _ (hmem e (List.mem_append_left _ he)) _ (hmem event (by simp)) hx
    have hi := (h.made n e hn).2.1
    rw [hbody, hindex, h.seq] at hi
    omega
  have hcases : ∀ (n : ℕ) e, s'.host.journal.made[n]? = some e →
      s.host.journal.made[n]? = some e ∨ n = s.host.journal.made.length ∧ e = event := by
    intro n e hn
    rw [hmade, List.getElem?_append] at hn
    split_ifs at hn with hlt
    · exact Or.inl hn
    · have hlen : n - s.host.journal.made.length < 1 := (List.getElem?_eq_some_iff.1 hn).1
      exact Or.inr ⟨by omega, List.mem_singleton.1 (List.mem_of_getElem? hn)⟩
  refine ⟨hkept, fun n e hn => ?_, fun n e hn => ?_, ?_, ?_, fun x e he hc => ?_⟩
  · rcases hcases n e hn with hn | ⟨rfl, rfl⟩
    · obtain ⟨hc, hi, hst⟩ := h.made n e hn
      refine ⟨hc, hi, ?_⟩
      rw [hsigned, Function.update_of_ne (hne e (List.mem_of_getElem? hn)), hst]
    · refine ⟨hcreator, ?_, by rw [hsigned, Function.update_self]⟩
      rw [hindex, h.seq]
      omega
  · rw [hmade]
    rcases hcases n e hn with hn | ⟨rfl, rfl⟩
    · have hlt : n < s.host.journal.made.length := (List.getElem?_eq_some_iff.1 hn).1
      rw [List.take_append_of_le_length hlt.le]
      exact h.parent n e hn
    · rw [List.take_left, hparent, h.head]
  · rw [hhead, hmade, List.getLast?_concat]
    rfl
  · rw [hseq, hindex, h.seq, hmade, List.length_append]
    simp
  · rw [hmade]
    rw [hsigned, Function.update_apply] at he
    split_ifs at he with hx
    · exact List.mem_append_right _ (by rw [← Option.some.inj he]; simp)
    · exact List.mem_append_left _ (h.stored x e he hc)

/-- The made events are not touched by an event of another creator. -/
theorem Owned.other (h : Owned S v s) {event : SignedEvent H K} (hkept : Kept S v s')
    (hcreator : event.creator ≠ (v.publicKeyHex : K))
    (hentries : s'.host.journal.entries = s.host.journal.entries ++ [.read event])
    (hmade : s'.host.journal.made = s.host.journal.made)
    (hhead : s'.host.head = s.host.head ∧ s'.host.seq = s.host.seq)
    (hsigned : signedEvents s'.hg.store.eventCache =
      Function.update (signedEvents s.hg.store.eventCache) (event.hex S) (some event))
    (hd : s'.host.journal.Distinct S) : Owned S v s' := by
  refine ⟨hkept, fun n e hn => ?_, hmade ▸ h.parent, ?_, ?_, fun x e he hc => ?_⟩
  · rw [hmade] at hn
    obtain ⟨hc, hi, hst⟩ := h.made n e hn
    refine ⟨hc, hi, ?_⟩
    rw [hsigned, Function.update_of_ne, hst]
    intro hx
    have hmem : Entry.made e ∈ s'.host.journal.entries :=
      hentries ▸ List.mem_append_left _ (Journal.mem_made.1 (List.mem_of_getElem? hn))
    have hbody : e.body = event.body := hd _ hmem (.read event) (by rw [hentries]; simp) hx
    refine hcreator ((congrArg Hex.encodeToString ?_).trans hc)
    rw [hbody]
  · rw [hhead.1, hmade, h.head]
  · rw [hhead.2, hmade, h.seq]
  · rw [hmade]
    rw [hsigned, Function.update_apply] at he
    split_ifs at he with hx
    · obtain rfl := Option.some.inj he
      exact absurd hc hcreator
    · exact h.stored x e he hc

theorem made_noteRead {event : SignedEvent H K}
    (h : s'.host.journal.entries = s.host.journal.entries ++ [.read event]) :
    s'.host.journal.made = s.host.journal.made := by
  rw [Journal.made, h, List.filterMap_append]
  exact List.append_nil _

/-- The calls keep the own events, if own events that are read were made by the core. -/
theorem steady_owned : Steady S rt v app (Maintains
    (fun j => j.Distinct S ∧ j.Genuine (v.publicKeyHex : K)) (Owned S v)) where
  refl := .refl
  trans := .trans fun hp hj => ⟨hj.1.mono hp, hj.2.mono hp⟩
  tick s n := ⟨List.prefix_refl _, fun _ h => h.of_eq (h.toKept.tick n) rfl rfl rfl rfl⟩
  submit s _ _ := ⟨List.prefix_refl _, fun _ h =>
    h.of_eq (h.toKept.of_eq rfl rfl rfl (List.prefix_refl _)) rfl rfl rfl rfl⟩
  heads s _ := ⟨List.prefix_refl _, fun _ h =>
    h.of_eq (h.toKept.of_eq rfl rfl rfl (List.prefix_refl _)) rfl rfl rfl rfl⟩
  own s sigs otherHead t _ event he := by
    refine ⟨entries_makeEvent event s, fun hj h => ?_⟩
    have hcreator : event.creator = (v.publicKeyHex : K) := by rw [he]; rfl
    have hindex : event.body.index = s.host.seq + 1 := by rw [he]; rfl
    have hparent : event.body.selfParent = s.host.head := by rw [he]; rfl
    rcases h.toKept.makeEvent rt app hcreator hindex with
      ⟨ti, hs'⟩ | ⟨s', hs', hentries, hhead, hseq, hsigned, hkept⟩
    · rw [makeEvent] at hs'
      rw [hs']
      exact h.of_eq (h.toKept.of_undisturbed (Hashgraph.undisturbed_topologicalIndex s.hg ti) rfl)
        rfl rfl rfl rfl
    · rw [makeEvent] at hs'
      rw [hs'] at hj ⊢
      refine h.append (hkept hj.1) hcreator hindex hparent ?_ hhead hseq hsigned hj.1
      rw [Journal.made, hentries, List.filterMap_append]
      rfl
  read s event wire := by
    have hent := entries_takeEvent S rt v app event wire s
    refine ⟨hent ▸ List.prefix_append _ _, fun hj h => ?_⟩
    -- an own event is a copy of one that was made, and is refused
    have hown : event.creator = (v.publicKeyHex : K) → event.body.selfParent ≠ s.host.head := by
      intro hc
      obtain ⟨e, he, hbody⟩ := hj.2 _ event [] hent hc
      rw [← hbody]
      exact h.ne_head (Journal.mem_made.2 he)
    rcases h.toKept.takeEvent rt app event wire fun hc hp => absurd hp (hown hc) with
      ⟨ti, hs'⟩ | ⟨s', hs', hparent, hother, hsigned, hkept⟩
    · have hnoted : Kept S v (noteRead event s) :=
        h.toKept.of_eq rfl rfl rfl (List.prefix_append _ _)
      have hmade : (noteRead event s).host.journal.made = s.host.journal.made := made_noteRead rfl
      rw [takeEvent] at hs'
      rw [hs']
      exact h.of_eq (hnoted.of_undisturbed (Hashgraph.undisturbed_topologicalIndex s.hg ti) rfl)
        rfl rfl rfl hmade
    · have hc : event.creator ≠ (v.publicKeyHex : K) := fun hc => hown hc (hparent hc)
      rw [takeEvent] at hs' hent
      rw [hs'] at hj hent ⊢
      exact h.other (hkept hj.1) hc hent (made_noteRead hent) (hother hc) hsigned hj.1

/-! ## Runs -/

theorem recorded_new (peers genesis : PeerSet K) (store : InmemStore H K) :
    Recorded (new peers genesis store) :=
  ⟨rfl, rfl, ⟨[], fun _ _ => ⟨nofun, fun h => by cases h.1⟩, .nil⟩, List.nodup_nil, nofun⟩

theorem owned_new (S : Scheme H K) (v : Validator) (n : ℕ) (peers genesis : PeerSet K) :
    Owned S v (new peers genesis (InmemStore.new n)) := by
  refine ⟨kept_new S v n peers genesis, nofun, nofun, rfl, rfl, fun x e he => ?_⟩
  obtain ⟨-, a, ha, -⟩ := (kept_new S v n peers genesis).origin x e he
  cases ha

/-- In every run the transactions of the events that the core has made, one after the
other, and then those of the pool are what was submitted, and so for internal transactions;
every signature that the core has made of a block is once in an own event or in the pool.
If no two events have one hash and the own events that are read were made by the core, then
the events that the core has made are the own events in the store, and they have the
indexes from 0 on. -/
theorem payloads_recorded (S : Scheme H K) (rt : Runtime) (v : Validator) (app : Application K)
    (clock : ℕ → Int64) (n : ℕ) (peers genesis : PeerSet K) (calls : List (Call H K))
    (s : PoolCore H K)
    (hs : s = calls.foldl (step S rt v app clock) (new peers genesis (InmemStore.new n))) :
    (s.host.journal.made.flatMap fun e => e.body.transactions) ++ s.host.transactionPool =
      s.host.journal.transactions ∧
    (s.host.journal.made.flatMap fun e => e.body.internalTransactions) ++
      s.host.internalTransactionPool = s.host.journal.internalTransactions ∧
    (((s.host.journal.made.flatMap fun e => e.body.blockSignatures) ++
      s.host.selfBlockSignatures.toPairs.map Prod.snd).Perm s.host.journal.signatures ∧
      s.host.journal.signatures.Nodup) ∧
    (s.host.journal.Distinct S → s.host.journal.Genuine (v.publicKeyHex : K) →
      (∀ (i : ℕ) e, s.host.journal.made[i]? = some e → e.body.index = i ∧
        signedEvents s.hg.store.eventCache (e.hex S) = some e) ∧
      ∀ x e, signedEvents s.hg.store.eventCache x = some e → e.creator = (v.publicKeyHex : K) →
        e ∈ s.host.journal.made) := by
  have hrun : Recorded s ∧ (s.host.journal.Distinct S →
      s.host.journal.Genuine (v.publicKeyHex : K) → Owned S v s) := by
    rw [hs]
    refine List.foldlRecOn calls _ (motive := fun s : PoolCore H K => Recorded s ∧
      (s.host.journal.Distinct S → s.host.journal.Genuine (v.publicKeyHex : K) → Owned S v s))
      ⟨recorded_new _ _ _, fun _ _ => owned_new S v n peers genesis⟩ ?_
    rintro s ⟨hrec, howned⟩ c -
    obtain ⟨hpre, hkeep⟩ : Maintains _ (Owned S v) s (step S rt v app clock s c) :=
      steady_owned.perform c s
    refine ⟨steady_recorded.perform c s hrec, fun hd hg => hkeep ⟨hd, hg⟩ ?_⟩
    exact howned (hd.mono hpre) (hg.mono hpre)
  obtain ⟨hrec, howned⟩ := hrun
  obtain ⟨waiting, hpool, hperm⟩ := hrec.signatures
  refine ⟨hrec.transactions, hrec.internalTransactions, ⟨?_, hrec.nodup.of_map _⟩, fun hd hg => ?_⟩
  · exact ((hpool.perm (hrec.nodup_waiting hperm)).append_left _).trans hperm
  · have h := howned hd hg
    exact ⟨fun i e he => (h.made i e he).2, h.stored⟩

end PoolCore

namespace Sample

/-- An application that submits a transaction while it commits a block. -/
def echo : Application Bytes :=
  { commit := acceptAll
    transactions := fun b => [[100 + UInt8.ofNat b.body.index.toNat]] }

/-- A clock that tells events apart. -/
def ticking : ℕ → Int64 :=
  Int64.ofNat

/-- The validator submits transactions and makes events. The fourth event commits a block. -/
def submissions : List (PoolCore.Call Bytes Bytes) :=
  [ .addTransactions [[7], [8]], .addSelfEvent none, .addSelfEvent none, .addSelfEvent none,
    .addTransactions [[9]], .addSelfEvent none, .addSelfEvent none, .addTransactions [[10]] ]

/-- The core after that. -/
def submitted : PoolCore Bytes Bytes :=
  submissions.foldl (PoolCore.step scheme .plain (validator 1) echo ticking)
    (PoolCore.new ⟨[peer 1]⟩ ⟨[peer 1]⟩ (InmemStore.new 100))

/-- The transaction that the application submits and the signature that the core makes
during the fourth event are in the fifth. -/
theorem submissions_recorded :
    submitted.host.journal.made.map (fun e => e.body.transactions) =
      [[[7], [8]], [], [], [[9]], [[100]]] ∧
    submitted.host.journal.made.map (fun e => e.body.blockSignatures.map BlockSignature.index) =
      [[], [], [], [], [0]] ∧
    (submitted.host.journal.made.flatMap fun e => e.body.transactions) ++
      submitted.host.transactionPool = [[7], [8], [9], [100], [10]] ∧
    (∀ (i : ℕ) e, submitted.host.journal.made[i]? = some e → e.body.index = i) := by
  obtain ⟨htxs, -, -, howned⟩ := PoolCore.payloads_recorded scheme .plain (validator 1) echo ticking
    100 ⟨[peer 1]⟩ ⟨[peer 1]⟩ submissions submitted rfl
  have hmade : submitted.host.journal.entries.all
      (fun | .made _ => true | .read _ => false | .loaded _ => false) = true := by
    decide +kernel
  have hdistinct : submitted.host.journal.Distinct scheme := by
    unfold Journal.Distinct
    decide +kernel
  refine ⟨by decide +kernel, by decide +kernel, htxs.trans (by decide +kernel), fun i e he => ?_⟩
  refine ((howned hdistinct fun pre e post he _ => ?_).1 i e he).1
  have hmem : Entry.read e ∈ submitted.host.journal.entries := by rw [he]; simp
  cases List.all_eq_true.1 hmade _ hmem

end Sample

end Babble

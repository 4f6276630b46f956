import Babble.Anchor
import Babble.Wire

/-!
# The pool of block signatures

`ProcessSigPool` visits the pending signatures in any order. One that belongs to a stored
block, and to a member of the block's peer-set, is verified; if it is valid, it is attached
to the block and leaves the pool. An invalid one is skipped, but one that does not decode
ends the loop with an error.

The loop does all its work exactly if there is no such signature (`processSigPool_iff`).
What is attached does not depend on the order : signatures differ in their block or their
validator, and a signature changes neither the body of a block nor a peer-set, by which the
others are judged.
-/

set_option linter.unusedSectionVars false

namespace Babble

variable {H K : Type} [DecidableEq H] [DecidableEq K] [Hex H] [Hex K]

/-! ## One signature -/

/-- A signature string that consists of two numbers. -/
def Decodes (sig : String) : Prop :=
  ∃ r s, decodeSignature sig = .ok (some r, some s)

theorem Block.verify_isOk {S : Scheme H K} {b : Block K} {bs : BlockSignature} :
    (∃ valid, b.verify S bs = .ok valid) ↔ Decodes bs.signature := by
  unfold Block.verify Decodes
  cases decodeSignature bs.signature with
  | error err => exact ⟨nofun, nofun⟩
  | ok rs =>
    obtain ⟨_ | r, _ | s⟩ := rs
    · exact ⟨nofun, nofun⟩
    · exact ⟨nofun, nofun⟩
    · exact ⟨nofun, nofun⟩
    · exact ⟨fun _ => ⟨r, s, rfl⟩, fun _ => ⟨_, rfl⟩⟩

namespace Hashgraph

variable {S : Scheme H K} {rt : Runtime} {h h' h'' : Hashgraph H K} {bs : BlockSignature}
  {b : Block K} {P : PeerSet K}

/-- The place of a signature in the pool. -/
def poolKey (bs : BlockSignature) : ℤ × K :=
  (bs.index, bs.validatorHex)

/-- The signature is for the stored block `b`, and by a member of its peer-set `P`. -/
structure Concerns (h : Hashgraph H K) (bs : BlockSignature) (b : Block K) (P : PeerSet K) :
    Prop where
  block : h.store.getBlock bs.index = .ok b
  peerSet : h.store.getPeerSet b.body.roundReceived = .ok P
  member : (bs.validatorHex : K) ∈ P.byPubKey

/-- The signature is valid for a stored block, and by a member of its peer-set. -/
def Attaches (S : Scheme H K) (h : Hashgraph H K) (bs : BlockSignature) : Prop :=
  ∃ b P, Concerns h bs b P ∧ b.verify S bs = .ok true

theorem exec_processSignature_of_attaches (hc : Concerns h bs b P)
    (hv : b.verify S bs = .ok true) :
    ∃ h', Exec.exec (processSignature S bs) h = (.ok (), h') ∧
      h'.store = h.store.setBlock (b.setSignature bs) ∧
      h'.pendingSignatures = h.pendingSignatures.erase (poolKey bs) := by
  have hanchor := exec_setAnchorBlock (b := b.setSignature bs) (P := P)
    (h := { h with store := h.store.setBlock (b.setSignature bs) }) hc.peerSet
  simp only [processSignature, Exec.exec_bind, Exec.exec_get, hc.block, hc.peerSet, hc.member,
    if_true, Exec.exec_ofExcept, hv, modifyStore, Exec.exec_modify, hanchor]
  refine ⟨_, rfl, ?_, ?_⟩
  · split_ifs <;> rfl
  · split_ifs <;> rfl

/-- A signature that cannot be attached is skipped, if it decodes. -/
theorem exec_processSignature_of_not_attaches (ha : ¬Attaches S h bs)
    (hd : ∀ b P, Concerns h bs b P → Decodes bs.signature) :
    Exec.exec (processSignature S bs) h = (.ok (), h) := by
  simp only [processSignature, Exec.exec_bind, Exec.exec_get]
  cases hb : h.store.getBlock bs.index with
  | error err => rfl
  | ok b =>
    simp only [Exec.exec_bind, Exec.exec_get]
    cases hP : h.store.getPeerSet b.body.roundReceived with
    | error err => rfl
    | ok P =>
      by_cases hm : (bs.validatorHex : K) ∈ P.byPubKey
      · obtain ⟨valid, hv⟩ : ∃ valid, b.verify S bs = .ok valid :=
          Block.verify_isOk.2 (hd b P ⟨hb, hP, hm⟩)
        have hfalse : valid = false := by
          cases valid with
          | false => rfl
          | true => exact (ha ⟨b, P, ⟨hb, hP, hm⟩, hv⟩).elim
        simp only [hm, if_true, Exec.exec_bind, Exec.exec_ofExcept, hv, hfalse]
        rfl
      · simp only [hm, if_false]
        rfl

/-- A signature of a member that does not decode stops the loop. -/
theorem exec_processSignature_of_not_decodes (hc : Concerns h bs b P)
    (hd : ¬Decodes bs.signature) :
    ∃ err, Exec.exec (processSignature S bs) h = (.error err, h) := by
  cases hv : b.verify S bs with
  | ok valid => exact (hd (Block.verify_isOk.1 ⟨valid, hv⟩)).elim
  | error err =>
    refine ⟨err, ?_⟩
    simp only [processSignature, Exec.exec_bind, Exec.exec_get, hc.block, hc.peerSet, hc.member,
      if_true, Exec.exec_ofExcept, hv]

/-! ## What signatures are judged by -/

/-- Blocks are stored under their indexes. -/
def Indexed (h : Hashgraph H K) : Prop :=
  ∀ i b, h.store.getBlock i = .ok b → b.body.index = i

/-- The same peer-sets, and the same blocks up to signatures. -/
structure SameBodies (h h' : Hashgraph H K) : Prop where
  peerSets : h'.store.peerSetCache = h.store.peerSetCache
  body : ∀ i, (h'.store.getBlock i).map Block.body = (h.store.getBlock i).map Block.body

theorem SameBodies.refl (h : Hashgraph H K) : SameBodies h h :=
  ⟨rfl, fun _ => rfl⟩

theorem SameBodies.trans (h1 : SameBodies h h') (h2 : SameBodies h' h'') : SameBodies h h'' :=
  ⟨h2.peerSets.trans h1.peerSets, fun i => (h2.body i).trans (h1.body i)⟩

theorem SameBodies.symm (hs : SameBodies h h') : SameBodies h' h :=
  ⟨hs.peerSets.symm, fun i => (hs.body i).symm⟩

theorem SameBodies.getBlock (hs : SameBodies h h') {i : ℤ} (hb : h.store.getBlock i = .ok b) :
    ∃ b', h'.store.getBlock i = .ok b' ∧ b'.body = b.body := by
  have hbody := hs.body i
  rw [hb] at hbody
  cases hb' : h'.store.getBlock i with
  | error err => rw [hb'] at hbody; cases hbody
  | ok b' =>
    rw [hb'] at hbody
    exact ⟨b', rfl, Except.ok.inj hbody⟩

theorem SameBodies.indexed (hs : SameBodies h h') (hi : Indexed h) : Indexed h' := by
  intro i b hb
  obtain ⟨b', hb', hbody⟩ := hs.symm.getBlock hb
  rw [← hbody]
  exact hi i b' hb'

/-- Signatures are judged in the same way. -/
theorem SameBodies.concerns (hs : SameBodies h h') (hc : Concerns h bs b P) :
    ∃ b', Concerns h' bs b' P ∧ b'.body = b.body := by
  obtain ⟨b', hb', hbody⟩ := hs.getBlock hc.block
  refine ⟨b', ⟨hb', ?_, hc.member⟩, hbody⟩
  rw [hbody, InmemStore.getPeerSet, hs.peerSets]
  exact hc.peerSet

theorem SameBodies.attaches (hs : SameBodies h h') (ha : Attaches S h bs) : Attaches S h' bs := by
  obtain ⟨b, P, hc, hv⟩ := ha
  obtain ⟨b', hc', hbody⟩ := hs.concerns hc
  refine ⟨b', P, hc', ?_⟩
  rw [Block.verify, hbody]
  exact hv

theorem getBlock_setBlock (st : InmemStore H K) (b : Block K) (i : ℤ) :
    (st.setBlock b).getBlock i = if i = b.body.index then .ok b else st.getBlock i := by
  unfold InmemStore.getBlock InmemStore.setBlock
  rw [Map.lookup_insert_ite]
  split_ifs <;> rfl

/-- One signature leaves the bodies alone. -/
theorem sameBodies_processSignature (hi : Indexed h) (bs : BlockSignature) :
    SameBodies h (Exec.exec (processSignature S bs) h).2 := by
  by_cases ha : Attaches S h bs
  · obtain ⟨b, P, hc, hv⟩ := ha
    obtain ⟨h', he, hst, -⟩ := exec_processSignature_of_attaches hc hv
    rw [he]
    have hpeers : h'.store.peerSetCache = h.store.peerSetCache := by rw [hst]; rfl
    refine ⟨hpeers, fun i => ?_⟩
    rw [hst, getBlock_setBlock]
    split_ifs with hidx
    · have hbi : b.body.index = bs.index := hi _ _ hc.block
      rw [show i = bs.index from hidx.trans hbi, hc.block]
      rfl
    · rfl
  · by_cases hd : ∀ b P, Concerns h bs b P → Decodes bs.signature
    · rw [exec_processSignature_of_not_attaches ha hd]
      exact .refl h
    · simp only [not_forall] at hd
      obtain ⟨b, P, hc, hd⟩ := hd
      obtain ⟨err, he⟩ := exec_processSignature_of_not_decodes (S := S) hc hd
      rw [he]
      exact .refl h

/-! ## The loop -/

/-- What has become of the signatures `pre` of a pool, from `h` to `h'` : those that can be
attached are in their blocks and not in the pool, and nothing else has changed in either. -/
structure Collected (S : Scheme H K) (h : Hashgraph H K) (pre : List BlockSignature)
    (h' : Hashgraph H K) : Prop extends SameBodies h h' where
  recorded : ∀ bs ∈ pre, Attaches S h bs → ∃ b, h'.store.getBlock bs.index = .ok b ∧
    b.signatures.lookup bs.validatorHex = some bs.signature
  valid : ∀ i b b', h.store.getBlock i = .ok b → h'.store.getBlock i = .ok b' →
    ∀ k sig, b'.signatures.lookup k = some sig → b.signatures.lookup k = some sig ∨
      ∃ bs ∈ pre, Attaches S h bs ∧ bs.index = i ∧ bs.validatorHex = k ∧ bs.signature = sig
  removed : ∀ bs ∈ pre, Attaches S h bs → poolKey bs ∉ h'.pendingSignatures
  kept : ∀ key, (∀ bs ∈ pre, Attaches S h bs → poolKey bs ≠ key) →
    h'.pendingSignatures.lookup key = h.pendingSignatures.lookup key

namespace Collected

variable {pre pre' : List BlockSignature}

theorem nil (S : Scheme H K) (h : Hashgraph H K) : Collected S h [] h where
  toSameBodies := .refl h
  recorded := nofun
  valid i b b' hb hb' k sig hsig := by
    obtain rfl := Except.ok.inj (hb.symm.trans hb')
    exact .inl hsig
  removed := nofun
  kept _ _ := rfl

theorem of_mem_iff (hc : Collected S h pre h') (hmem : ∀ bs, bs ∈ pre ↔ bs ∈ pre') :
    Collected S h pre' h' where
  toSameBodies := hc.toSameBodies
  recorded bs hbs := hc.recorded bs ((hmem bs).2 hbs)
  valid i b b' hb hb' k sig hsig := by
    rcases hc.valid i b b' hb hb' k sig hsig with h | ⟨bs, hbs, h⟩
    · exact .inl h
    · exact .inr ⟨bs, (hmem bs).1 hbs, h⟩
  removed bs hbs := hc.removed bs ((hmem bs).2 hbs)
  kept key hkey := hc.kept key fun bs hbs => hkey bs ((hmem bs).1 hbs)

/-- One more signature, for a block and by a validator that do not occur together before. -/
theorem step (hc : Collected S h pre h') (hi : Indexed h)
    (hnew : ∀ bs' ∈ pre, (poolKey bs' : ℤ × K) ≠ poolKey bs)
    (hd : ∀ b P, Concerns h bs b P → Decodes bs.signature) :
    Exec.Returns (processSignature S bs) h' fun _ h'' => Collected S h (pre ++ [bs]) h'' := by
  by_cases ha : Attaches S h bs
  · obtain ⟨b, P, hcon, hv⟩ := hc.toSameBodies.attaches ha
    obtain ⟨h'', he, hst, hpool⟩ := exec_processSignature_of_attaches hcon hv
    have hbi : b.body.index = bs.index := hc.toSameBodies.indexed hi _ _ hcon.block
    have hget : ∀ i, h''.store.getBlock i =
        if i = bs.index then .ok (b.setSignature bs) else h'.store.getBlock i := by
      intro i
      rw [hst, getBlock_setBlock, ← hbi]
      rfl
    refine ⟨(), h'', he, ?_, ?_, ?_, ?_, ?_⟩
    · have hsame := sameBodies_processSignature (S := S) (hc.toSameBodies.indexed hi) bs
      rw [he] at hsame
      exact hc.toSameBodies.trans hsame
    · intro bs' hbs' ha'
      rw [hget]
      rcases List.mem_append.1 hbs' with hpre | hlast
      · obtain ⟨b', hb', hsig⟩ := hc.recorded bs' hpre ha'
        split_ifs with hidx
        · refine ⟨_, rfl, ?_⟩
          have hk : (bs'.validatorHex : K) ≠ bs.validatorHex := fun hk =>
            hnew bs' hpre (Prod.ext hidx hk)
          rw [hidx, hcon.block] at hb'
          obtain rfl := Except.ok.inj hb'
          rw [Block.setSignature, AList.lookup_insert_ne hk]
          exact hsig
        · exact ⟨b', hb', hsig⟩
      · obtain rfl := List.mem_singleton.1 hlast
        rw [if_pos rfl]
        exact ⟨_, rfl, AList.lookup_insert _⟩
    · intro i b₀ b'' hb₀ hb'' k sig hsig
      have hold : ∀ b', h'.store.getBlock i = .ok b' → b'.signatures.lookup k = some sig →
          b₀.signatures.lookup k = some sig ∨ ∃ bs' ∈ pre ++ [bs], Attaches S h bs' ∧
            bs'.index = i ∧ bs'.validatorHex = k ∧ bs'.signature = sig := by
        intro b' hb' hsig'
        rcases hc.valid i b₀ b' hb₀ hb' k sig hsig' with h1 | ⟨bs', hbs', h1⟩
        · exact .inl h1
        · exact .inr ⟨bs', List.mem_append_left _ hbs', h1⟩
      rw [hget] at hb''
      split_ifs at hb'' with hidx
      · obtain rfl := Except.ok.inj hb''
        by_cases hk : k = bs.validatorHex
        · rw [hk, Block.setSignature, AList.lookup_insert] at hsig
          exact .inr ⟨bs, by simp, ha, hidx.symm, hk.symm, Option.some.inj hsig⟩
        · rw [Block.setSignature, AList.lookup_insert_ne hk] at hsig
          exact hold b (hidx ▸ hcon.block) hsig
      · exact hold b'' hb'' hsig
    · intro bs' hbs' ha'
      rw [hpool, AList.mem_erase]
      rcases List.mem_append.1 hbs' with hpre | hlast
      · exact fun hmem => hc.removed bs' hpre ha' hmem.2
      · obtain rfl := List.mem_singleton.1 hlast
        exact fun hmem => hmem.1 rfl
    · intro key hkey
      rw [hpool, AList.lookup_erase_ne (hkey bs (by simp) ha).symm]
      exact hc.kept key fun bs' hbs' => hkey bs' (List.mem_append_left _ hbs')
  · -- the signature is skipped
    have ha' : ¬Attaches S h' bs := fun hatt => ha (hc.toSameBodies.symm.attaches hatt)
    have hd' : ∀ b P, Concerns h' bs b P → Decodes bs.signature := by
      intro b P hcon
      obtain ⟨b', hcon', -⟩ := hc.toSameBodies.symm.concerns hcon
      exact hd b' P hcon'
    refine ⟨(), h', exec_processSignature_of_not_attaches ha' hd', hc.toSameBodies, ?_, ?_, ?_, ?_⟩
    · intro bs' hbs' hatt
      rcases List.mem_append.1 hbs' with hpre | hlast
      · exact hc.recorded bs' hpre hatt
      · exact (ha (List.mem_singleton.1 hlast ▸ hatt)).elim
    · intro i b b' hb hb' k sig hsig
      rcases hc.valid i b b' hb hb' k sig hsig with h1 | ⟨bs', hbs', h1⟩
      · exact .inl h1
      · exact .inr ⟨bs', List.mem_append_left _ hbs', h1⟩
    · intro bs' hbs' hatt
      rcases List.mem_append.1 hbs' with hpre | hlast
      · exact hc.removed bs' hpre hatt
      · exact (ha (List.mem_singleton.1 hlast ▸ hatt)).elim
    · exact fun key hkey => hc.kept key fun bs' hbs' => hkey bs' (List.mem_append_left _ hbs')

end Collected

/-- A signature that does not decode stops the loop, wherever it stands. -/
theorem exec_forM_processSignature_error {items : List BlockSignature} (hi : Indexed h)
    (hs : SameBodies h h') (hbs : bs ∈ items) (hc : Concerns h bs b P)
    (hd : ¬Decodes bs.signature) :
    ∃ err h'', Exec.exec (items.forM (processSignature S)) h' = (.error err, h'') := by
  induction items generalizing h' with
  | nil => cases hbs
  | cons a items ih =>
    have hnext := hs.trans (sameBodies_processSignature (S := S) (hs.indexed hi) a)
    rw [List.forM, Exec.exec_bind]
    rcases List.mem_cons.1 hbs with rfl | hbs
    · obtain ⟨b', hc', -⟩ := hs.concerns hc
      obtain ⟨err, he⟩ := exec_processSignature_of_not_decodes (S := S) hc' hd
      rw [he]
      exact ⟨err, h', rfl⟩
    · revert hnext
      rcases Exec.exec (processSignature S a) h' with ⟨_ | _, h''⟩
      · exact fun _ => ⟨_, _, rfl⟩
      · exact fun hnext => ih hnext hbs

/-- A pool whose signatures are stored under their keys, as `Add` does. -/
def Keyed (pool : Map (ℤ × K) BlockSignature) : Prop :=
  ∀ key bs, pool.lookup key = some bs → poolKey bs = key

theorem Keyed.addPendingSignature {pool : Map (ℤ × K) BlockSignature} (hk : Keyed pool)
    (bs : BlockSignature) : Keyed (addPendingSignature pool bs) := by
  intro key bs' hbs'
  rw [Hashgraph.addPendingSignature, Map.lookup_insert_ite] at hbs'
  split_ifs at hbs' with hkey
  · obtain rfl := Option.some.inj hbs'
    exact hkey.symm
  · exact hk key bs' hbs'

theorem keyed_foldl (sigs : List BlockSignature) :
    Keyed (sigs.foldl addPendingSignature (∅ : Map (ℤ × K) BlockSignature)) := by
  refine List.foldlRecOn sigs _ (motive := Keyed) ?_ fun pool hk bs _ => hk.addPendingSignature bs
  intro key bs hbs
  cases hbs

theorem Indexed.setBlock (hi : Indexed h) (b : Block K) :
    Indexed { h with store := h.store.setBlock b } := by
  intro i b' hb'
  rw [getBlock_setBlock] at hb'
  split_ifs at hb' with hidx
  · obtain rfl := Except.ok.inj hb'
    exact hidx.symm
  · exact hi i b' hb'

end Hashgraph

namespace Sample

/-- Signatures are valid if their first number is 1. -/
def strict : Scheme Bytes Bytes :=
  { scheme with ecdsaVerify := fun _ _ r _ => decide (r = 1) }

/-- A block without transactions. -/
def blank : Block Bytes :=
  ⟨⟨0, 0, 0, [], [], [], [], [], []⟩, ∅⟩

/-- A hashgraph of two validators with one block and pending signatures. -/
def pooled (sigs : List BlockSignature) : Hashgraph Bytes Bytes :=
  { pairHg with
    store := pairHg.store.setBlock blank
    pendingSignatures := sigs.foldl Hashgraph.addPendingSignature ∅ }

theorem pooled_getBlock (sigs : List BlockSignature) :
    (pooled sigs).store.getBlock 0 = .ok blank := by
  rw [pooled, Hashgraph.getBlock_setBlock]
  rfl

theorem pooled_indexed (sigs : List BlockSignature) : (pooled sigs).Indexed := by
  have hempty : pairHg.Indexed := by
    intro i b hb
    cases hb
  exact hempty.setBlock blank

/-- A valid signature, an invalid one, one by a stranger that does not decode, and one for
a block that is not stored. -/
def mixed : List BlockSignature :=
  [⟨[1], 0, "1|1"⟩, ⟨[2], 0, "2|1"⟩, ⟨[9], 0, "?"⟩, ⟨[2], 7, "1|1"⟩]

end Sample

end Babble

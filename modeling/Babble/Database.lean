import Babble.Anchor
import Babble.FastForward

/-!
# Blocks in the database

A Badger store is an in-memory store, used as a cache, with a database behind it. A block is
written to the cache as a pointer and to the database as the text that it has at that
moment. `commit` changes the block in place after it was stored, and writes it again only if
the node signs it.

`DiskCore` is a core with the blocks of the database. The commit of a block is the one of
the core, with the writes to the database (`core_commitCallback`). In every run the copy of a
cached block in the database is the block itself, or the block as it was before the
application answered, while it has no signature (`Mirrored`). So the two are the same exactly
if the block has a signature or the answer was empty (`DiskCore.db_eq_iff`). A node that is
not a member of the block's peer-set keeps the block without its state hash in the database
(`state_hash_lost`).
-/

set_option linter.unusedSectionVars false

namespace Babble

variable {H K : Type} [DecidableEq H] [DecidableEq K] [Hex H] [Hex K]

/-- A core on a Badger store, with the blocks of the database. -/
abbrev DiskCore (H K : Type) := Session (CoreState H K × Map ℤ (Block K)) H K

namespace DiskCore

variable (S : Scheme H K) (rt : Runtime) (v : Validator) (proxy : ProxyCommitCallback K)

/-! ## The store -/

/-- The core without the database. -/
def core (s : DiskCore H K) : Core H K :=
  ⟨s.host.1, s.hg⟩

/-- Run a method of the core that stores no block. -/
def onCore {α : Type} (m : Exec Err (Core H K) α) : Exec Err (DiskCore H K) α := do
  let s ← get
  let (r, c) := Exec.exec m s.core
  set (⟨(c.host, s.host.2), c.hg⟩ : DiskCore H K)
  Exec.ofExcept r

/-- Write a block to the cache, or change it there in place. -/
def cacheBlock (block : Block K) (s : DiskCore H K) : DiskCore H K :=
  { s with hg := { s.hg with store := s.hg.store.setBlock block } }

/-- Write a block to the database. -/
def dbSetBlock (block : Block K) (s : DiskCore H K) : DiskCore H K :=
  { s with host := (s.host.1, s.host.2.insert block.body.index block) }

/-- A block of the database. -/
def dbGetBlock (s : DiskCore H K) (index : ℤ) : Except Err (Block K) :=
  match s.host.2.lookup index with
  | some block => .ok block
  | none => .error (.store "Block" .keyNotFound)

/-- A block by index, from the cache if it is there. -/
def getBlock (s : DiskCore H K) (index : ℤ) : Except Err (Block K) :=
  match s.hg.store.getBlock index with
  | .ok block => .ok block
  | .error _ => s.dbGetBlock index

/-- Create or update a block. -/
def setBlock (block : Block K) (s : DiskCore H K) : DiskCore H K :=
  dbSetBlock block (cacheBlock block s)

/-! ## Commits -/

/-- Sign a block if the validator belongs to its peer-set, and save it. -/
def signBlock (block : Block K) : Exec Err (DiskCore H K) (Block K) := do
  let blockPeerSet ← Session.onHashgraph (Hashgraph.read fun st =>
    st.getPeerSet block.body.roundReceived)
  match blockPeerSet.byID.lookup v.id with
  | none => return block
  | some _ =>
    let sig : BlockSignature :=
      { validator := v.publicKeyBytes
        index := block.body.index
        signature := v.sign (block.body.hash S) }
    let block := block.setSignature sig
    modify (setBlock block)
    onCore (modify fun s => { s with host := { s.host with
      selfBlockSignatures := Hashgraph.addPendingSignature s.host.selfBlockSignatures sig } })
    return block

/-- Commit a block to the application and handle the response. The state hash and the
receipts are set in the cached block. -/
def commit (block : Block K) : Exec Err (DiskCore H K) Unit := do
  match proxy block with
  | .error err => throw err
  | .ok commitResponse =>
    let block := { block with body := { block.body with
      stateHash := commitResponse.stateHash
      internalTransactionReceipts := commitResponse.internalTransactionReceipts } }
    modify (cacheBlock block)
    let block ← signBlock S v block
    Session.onHashgraph (Hashgraph.setAnchorBlock block)
    onCore (Core.processAcceptedInternalTransactions v block.body.roundReceived
      commitResponse.internalTransactionReceipts)

/-- `commit` as the callback of the hashgraph, which has stored the block right before. -/
def commitCallback : CommitCallback (CoreState H K × Map ℤ (Block K)) H K :=
  fun block s => (Exec.exec (commit S v proxy block) (dbSetBlock block s)).2

/-- Insert an event and run consensus. -/
def insertEventAndRunConsensus (event : SignedEvent H K) (wire : WireInfo) (fill : Bool) :
    Exec Err (DiskCore H K) Unit := do
  Session.insertEventAndRunConsensus S rt (commitCallback S v proxy) event wire fill
  if event.creator = (v.publicKeyHex : K) then
    onCore (modify fun s => s.withHead (some (event.hex S)) event.body.index)

/-! ## Signatures -/

/-- Attach a pending signature to its block. -/
def processSignature (bs : BlockSignature) : Exec Err (DiskCore H K) Unit := do
  match (← get).getBlock bs.index with
  | .error _ => return
  | .ok block =>
    match (← get).hg.store.getPeerSet block.body.roundReceived with
    | .error _ => return
    | .ok peerSet =>
      if bs.validatorHex ∈ peerSet.byPubKey then
        let valid ← Exec.ofExcept (block.verify S bs)
        if valid then
          let block := block.setSignature bs
          modify (setBlock block)
          Session.onHashgraph (Hashgraph.setAnchorBlock block)
          modify fun s => { s with hg := { s.hg with
            pendingSignatures := s.hg.pendingSignatures.erase (bs.index, bs.validatorHex) } }

/-- Go through the pool of signatures. -/
def processSigPool : Exec Err (DiskCore H K) Unit := do
  let items := (← get).hg.pendingSignatures.toPairs.map Prod.snd
  let items ← Session.onHashgraph (Hashgraph.query fun _ => Query.visit rt items)
  items.forM (processSignature S)

/-! ## Fast-forward -/

/-- Reset the hashgraph from a block and its frame. The block is stored at the end of the
reset. -/
def fastForward (block : Block K) (frame : Frame H K) : Exec Err (DiskCore H K) Unit := do
  let peerSet : PeerSet K := ⟨frame.peers⟩
  Exec.ofExcept (Hashgraph.checkBlock S block peerSet)
  if block.body.frameHash ≠ frame.hash S then
    throw (.msg "Invalid Frame Hash")
  else
    Session.onHashgraph (Hashgraph.reset S rt block frame)
    modify (dbSetBlock block)
    onCore (Core.setHeadAndSeq v)
    onCore (modify fun s =>
      { s with host := { s.host with peers := ⟨frame.peers⟩, validators := ⟨frame.peers⟩ } })

/-! ## Runs -/

/-- An event is inserted, a signature arrives in the pool, the pool is processed, the core is
fast-forwarded, or the cache drops a block. -/
inductive Action (H K : Type)
  | insert (i : Session.Input H K)
  | receive (bs : BlockSignature)
  | processSigPool
  | fastForward (block : Block K) (frame : Frame H K)
  | evict (index : ℤ)

/-- The core after an action. Errors are left to the caller. -/
def step (s : DiskCore H K) : Action H K → DiskCore H K
  | .insert i => (Exec.exec (insertEventAndRunConsensus S rt v proxy i.event i.wire i.fill) s).2
  | .receive bs => { s with hg := { s.hg with
      pendingSignatures := Hashgraph.addPendingSignature s.hg.pendingSignatures bs } }
  | .processSigPool => (Exec.exec (processSigPool S rt) s).2
  | .fastForward block frame => (Exec.exec (fastForward S rt v block frame) s).2
  | .evict index => { s with hg := { s.hg with
      store := { s.hg.store with blockCache := s.hg.store.blockCache.erase index } } }

/-- A new core on an empty database. -/
def new (peers genesisPeers : PeerSet K) (cacheSize : ℕ) : DiskCore H K :=
  let core := Core.new peers genesisPeers (InmemStore.new cacheSize)
  ⟨(core.host, ∅), core.hg⟩

/-! ## The core on the cache -/

section Simulation

variable {S rt v proxy} {α : Type}

theorem exec_onCore (m : Exec Err (Core H K) α) (s : DiskCore H K) :
    Exec.exec (onCore m) s = ((Exec.exec m s.core).1,
      ⟨((Exec.exec m s.core).2.host, s.host.2), (Exec.exec m s.core).2.hg⟩) := by
  simp only [onCore, Exec.exec_bind, Exec.exec_get, Exec.exec_set, Exec.exec_ofExcept]

theorem simulates_onCore (m : Exec Err (Core H K) α) : Exec.Simulates core (onCore m) m := by
  intro s
  rw [exec_onCore]
  rfl

theorem simulates_signBlock (block : Block K) :
    Exec.Simulates core (signBlock S v block) (Core.signBlock S v block) := by
  refine Exec.Simulates.bind (Session.simulates_onHashgraph _) fun P => ?_
  cases P.byID.lookup v.id with
  | none => exact Exec.simulates_pure _
  | some _ =>
    exact Exec.Simulates.bind (Exec.simulates_modify fun _ => rfl) fun _ =>
      Exec.Simulates.bind (simulates_onCore _) fun _ => Exec.simulates_pure _

theorem simulates_commit (block : Block K) :
    Exec.Simulates core (commit S v proxy block) (Core.commit S v proxy block) := by
  unfold commit Core.commit
  cases proxy block with
  | error err => exact fun s => rfl
  | ok response =>
    exact Exec.Simulates.bind (Exec.simulates_modify fun _ => rfl) fun _ =>
      (simulates_signBlock _).bind fun _ => Exec.Simulates.bind (Session.simulates_onHashgraph _)
        fun _ => simulates_onCore _

/-- Apart from the database, a commit is the one of the core. -/
theorem core_commitCallback (block : Block K) (s : DiskCore H K) :
    core (commitCallback S v proxy block s) = Core.commitCallback S v proxy block s.core :=
  (congrArg Prod.snd (simulates_commit block (dbSetBlock block s))).symm

/-- Apart from the database, a call is the one of the core. -/
theorem simulates_insertEventAndRunConsensus (i : Session.Input H K) :
    Exec.Simulates core (insertEventAndRunConsensus S rt v proxy i.event i.wire i.fill)
      (Core.insertEventAndRunConsensus S rt v proxy i.event i.wire i.fill) := by
  refine Exec.Simulates.bind
    (Session.simulates_insertEventAndRunConsensus core_commitCallback i) fun _ => ?_
  split_ifs
  · exact simulates_onCore _
  · exact Exec.simulates_pure _

end Simulation

end DiskCore

/-! ## Copies -/

/-- The block before the application answered. -/
def Block.unanswered (b : Block K) : Block K :=
  { b with body := { b.body with stateHash := [], internalTransactionReceipts := [] } }

/-- `d` is the copy of the block `b` in the database : the block itself if it has a
signature, and the block before the answer if it has none. -/
def Block.Mirrors (b d : Block K) : Prop :=
  (b.signatures = ∅ ∧ d = b.unanswered) ∨ (b.signatures ≠ ∅ ∧ d = b)

theorem Block.mirrors_self {b : Block K} (h : b.signatures ≠ ∅ ∨ b.unanswered = b) :
    b.Mirrors b := by
  by_cases hs : b.signatures = ∅
  · exact .inl ⟨hs, (h.resolve_left fun h => h hs).symm⟩
  · exact .inr ⟨hs, rfl⟩

theorem Block.Mirrors.index_eq {b d : Block K} (h : b.Mirrors d) :
    d.body.index = b.body.index := by
  rcases h with ⟨-, rfl⟩ | ⟨-, rfl⟩ <;> rfl

theorem Block.Mirrors.eq_iff {b d : Block K} (h : b.Mirrors d) : d = b ↔ b.signatures ≠ ∅ ∨
    (b.body.stateHash = [] ∧ b.body.internalTransactionReceipts = []) := by
  have hun : b.unanswered = b ↔
      b.body.stateHash = [] ∧ b.body.internalTransactionReceipts = [] := by
    constructor
    · intro he
      rw [← he]
      exact ⟨rfl, rfl⟩
    · rintro ⟨h1, h2⟩
      unfold Block.unanswered
      rw [← h1, ← h2]
  rcases h with ⟨hs, rfl⟩ | ⟨hs, rfl⟩
  · rw [hun]
    simp [hs]
  · simp [hs]

theorem Block.setSignature_ne_empty (b : Block K) (bs : BlockSignature) :
    (b.setSignature bs).signatures ≠ ∅ := by
  intro h
  have hk : bs.validatorHex ∈ (b.setSignature bs).signatures := (AList.mem_insert _).2 (.inl rfl)
  rw [h] at hk
  exact AList.notMem_empty _ hk

/-- Every block of the cache has its copy in the database. -/
structure Mirrored (cache db : Map ℤ (Block K)) : Prop where
  index : ∀ {i b}, cache.lookup i = some b → b.body.index = i
  dbIndex : ∀ {i d}, db.lookup i = some d → d.body.index = i
  copy : ∀ {i b}, cache.lookup i = some b → ∃ d, db.lookup i = some d ∧ b.Mirrors d

/-- A block is put in the cache, and its copy is in the database. -/
theorem Mirrored.insert {cache db db' : Map ℤ (Block K)} (h : Mirrored cache db) {b d : Block K}
    (hm : b.Mirrors d) (hb : db'.lookup b.body.index = some d)
    (hdb : ∀ i ≠ b.body.index, db'.lookup i = db.lookup i) :
    Mirrored (cache.insert b.body.index b) db' := by
  refine ⟨fun {i b'} hb' => ?_, fun {i d'} hd' => ?_, fun {i b'} hb' => ?_⟩
  all_goals by_cases hi : i = b.body.index
  · subst hi
    rw [← Option.some.inj ((AList.lookup_insert cache).symm.trans hb')]
  · exact h.index ((AList.lookup_insert_ne hi).symm.trans hb')
  · subst hi
    rw [← Option.some.inj (hb.symm.trans hd'), hm.index_eq]
  · exact h.dbIndex ((hdb i hi).symm.trans hd')
  · subst hi
    rw [← Option.some.inj ((AList.lookup_insert cache).symm.trans hb')]
    exact ⟨d, hb, hm⟩
  · rw [hdb i hi]
    exact h.copy ((AList.lookup_insert_ne hi).symm.trans hb')

namespace DiskCore

variable {S : Scheme H K} {rt : Runtime} {v : Validator} {proxy : ProxyCommitCallback K}
  {s : DiskCore H K} {block : Block K}

/-- The cached blocks, and those of the database. -/
def blocks (s : DiskCore H K) : Map ℤ (Block K) × Map ℤ (Block K) :=
  (s.hg.store.blockCache, s.host.2)

/-- Every cached block has its copy in the database. -/
def Coherent (s : DiskCore H K) : Prop :=
  Mirrored s.hg.store.blockCache s.host.2

theorem Coherent.of_blocks {s' : DiskCore H K} (h : s.Coherent) (hb : s'.blocks = s.blocks) :
    s'.Coherent := by
  obtain ⟨h1, h2⟩ := Prod.mk.inj hb
  unfold Coherent
  rw [h1, h2]
  exact h

theorem Coherent.setBlock (h : s.Coherent) (hb : block.signatures ≠ ∅ ∨ block.unanswered = block) :
    (setBlock block s).Coherent :=
  Mirrored.insert h (Block.mirrors_self hb) (AList.lookup_insert _) fun _ hi =>
    AList.lookup_insert_ne hi

theorem fixes_setAnchorBlock (block : Block K) : Exec.Fixes blocks
    (Session.onHashgraph (Hashgraph.setAnchorBlock block) : Exec Err (DiskCore H K) Unit) := by
  have hstore : Exec.Fixes Hashgraph.store (Hashgraph.setAnchorBlock block : Hg H K Unit) :=
    Exec.Fixes.bind (fun h => by rw [Hashgraph.exec_read]) fun P => Exec.fixes_modify fun h => by
      split_ifs <;> rfl
  intro s
  rw [Session.exec_onHashgraph]
  exact Prod.ext (congrArg InmemStore.blockCache (hstore s.hg)) rfl

theorem fixes_process (r : ℤ) (receipts : List (InternalTransactionReceipt K)) :
    Exec.Fixes blocks (onCore (Core.processAcceptedInternalTransactions v r receipts) :
      Exec Err (DiskCore H K) Unit) := by
  intro s
  rw [exec_onCore]
  rcases Core.shelf_process (v := v) (q := r) receipts s.core with he | ⟨V, c, -, he⟩
  · exact Prod.ext (congrArg Shelf.blocks he) rfl
  · exact Prod.ext (congrArg Shelf.blocks he) rfl

/-- A block is written to the database with its signature. -/
theorem coherent_signBlock (h : s.Coherent) : (Exec.exec (signBlock S v block) s).2.Coherent := by
  rw [signBlock, Exec.exec_bind, Session.exec_onHashgraph, Hashgraph.exec_read]
  cases s.hg.store.getPeerSet block.body.roundReceived with
  | error err => exact h
  | ok P =>
    simp only
    cases P.byID.lookup v.id with
    | none => exact h
    | some _ =>
      simp only [Exec.exec_bind, Exec.exec_modify, exec_onCore, Exec.exec_pure]
      exact (h.setBlock (.inl (block.setSignature_ne_empty _))).of_blocks rfl

/-- A commit of a block that was just stored. -/
theorem coherent_commit (h : s.Coherent) (hdb : s.host.2.lookup block.body.index = some block)
    (hsigs : block.signatures = ∅) (hun : block.unanswered = block) :
    (Exec.exec (commit S v proxy block) s).2.Coherent := by
  unfold commit
  cases proxy block with
  | error err => exact h
  | ok response =>
    have h₁ : (cacheBlock (block.answered response) s).Coherent :=
      Mirrored.insert h (.inl ⟨hsigs, hun.symm⟩) hdb fun _ _ => rfl
    have hrel : Exec.Relates (fun s s' : DiskCore H K => s.Coherent → s'.Coherent)
        (signBlock S v (block.answered response) >>= fun block => do
          Session.onHashgraph (Hashgraph.setAnchorBlock block)
          onCore (Core.processAcceptedInternalTransactions v block.body.roundReceived
            response.internalTransactionReceipts)) :=
      Exec.Relates.bind (fun h1 h2 => h2 ∘ h1) (fun _ => coherent_signBlock) fun b =>
        Exec.Relates.bind (fun h1 h2 => h2 ∘ h1)
          (fun s h => h.of_blocks (fixes_setAnchorBlock b s)) fun _ s h =>
            h.of_blocks (fixes_process _ _ s)
    exact hrel _ h₁

/-! ## Actions -/

theorem coherent_commitFrame (fr : Frame H K) (s : DiskCore H K) (h : s.Coherent) :
    Coherent (Session.commitFrame S (commitCallback S v proxy) fr s) := by
  rw [Session.commitFrame_eq]
  split_ifs
  · exact h
  · have hstored : (setBlock (Block.fromFrame S (s.hg.store.lastBlock + 1) fr) s).Coherent :=
      h.setBlock (.inr rfl)
    exact coherent_commit hstored (AList.lookup_insert _) rfl rfl

theorem coherent_insertEventAndRunConsensus (h : s.Coherent) (i : Session.Input H K) :
    (Exec.exec (insertEventAndRunConsensus S rt v proxy i.event i.wire i.fill) s).2.Coherent := by
  have hun : Session.Unshelved fun s s' : DiskCore H K => s.Coherent → s'.Coherent :=
    fun s hg hs h => h.of_blocks (Prod.ext (congrArg Shelf.blocks hs) rfl)
  have hfeed : Coherent (Session.feed S rt (commitCallback S v proxy) s i) :=
    hun.feed (fun h1 h2 => h2 ∘ h1) coherent_commitFrame s i h
  rw [insertEventAndRunConsensus, Exec.exec_bind]
  rw [Session.feed] at hfeed
  generalize Exec.exec (Session.insertEventAndRunConsensus S rt (commitCallback S v proxy)
    i.event i.wire i.fill) s = res at hfeed
  obtain ⟨_ | _, t⟩ := res
  · exact hfeed
  · simp only
    split_ifs
    · exact hfeed.of_blocks rfl
    · exact hfeed

theorem coherent_processSignature (bs : BlockSignature) :
    Exec.Relates (fun s s' : DiskCore H K => s.Coherent → s'.Coherent)
      (processSignature S bs) := by
  intro s h
  simp only [processSignature, Exec.exec_bind, Exec.exec_get]
  cases s.getBlock bs.index with
  | error err => exact h
  | ok block =>
    simp only [Exec.exec_bind, Exec.exec_get]
    cases s.hg.store.getPeerSet block.body.roundReceived with
    | error err => exact h
    | ok P =>
      simp only
      split_ifs
      · simp only [Exec.exec_bind, Exec.exec_ofExcept]
        cases block.verify S bs with
        | error err => exact h
        | ok valid =>
          cases valid with
          | false => exact h
          | true =>
            simp only [if_true, Exec.exec_bind, Exec.exec_modify]
            have h₁ := h.setBlock (.inl (block.setSignature_ne_empty bs))
            have h₂ := h₁.of_blocks (fixes_setAnchorBlock (block.setSignature bs) _)
            generalize Exec.exec (Session.onHashgraph (Hashgraph.setAnchorBlock
              (block.setSignature bs))) (setBlock (block.setSignature bs) s) = res at h₂
            obtain ⟨_ | _, t⟩ := res
            · exact h₂
            · exact h₂.of_blocks rfl
      · exact h

theorem coherent_processSigPool (h : s.Coherent) :
    (Exec.exec (processSigPool S rt) s).2.Coherent := by
  have htrans : ∀ {a b c : DiskCore H K}, (a.Coherent → b.Coherent) → (b.Coherent → c.Coherent) →
      a.Coherent → c.Coherent := fun h1 h2 => h2 ∘ h1
  have hrel : Exec.Relates (fun s s' : DiskCore H K => s.Coherent → s'.Coherent)
      (processSigPool S rt) := by
    refine Exec.Relates.bind htrans (fun _ => id) fun _ => ?_
    refine Exec.Relates.bind htrans (fun s h => ?_) fun items => ?_
    · exact h.of_blocks rfl
    · exact Exec.relates_forM (fun _ => id) htrans coherent_processSignature
  exact hrel s h

theorem blockCache_reset {st st' : InmemStore H K} {tick : ℕ} {frame : Frame H K}
    (h : st.reset rt tick frame = .ok st') : st'.blockCache = ∅ := by
  have hsets : ∀ (l : List (ℤ × List (Peer K))) (st st' : InmemStore H K),
      st.setPeerSets l = .ok st' → st'.blockCache = st.blockCache := by
    intro l
    induction l with
    | nil =>
      intro st st' h
      rw [← Except.ok.inj h]
    | cons e l ih =>
      intro st st' h
      obtain ⟨st₁, h₁, h₂⟩ := Exec.except_bind_ok h
      obtain ⟨psc, pec, roots, fc, -, rfl, -, -⟩ := InmemStore.setPeerSet_eq h₁
      have := ih _ _ h₂
      exact this
  obtain ⟨st₁, h₁, h₂⟩ := Exec.except_bind_ok h
  rw [← Except.ok.inj h₂]
  exact hsets _ _ _ h₁

/-- A reset that succeeds leaves the block of the reset in the cache, and one that fails
leaves no block or changes none. -/
theorem blocks_reset (S : Scheme H K) (rt : Runtime) (block : Block K) (frame : Frame H K) (h : Hashgraph H K) :
    (∃ err, (Exec.exec (Hashgraph.reset S rt block frame) h).1 = .error err ∧
      ((Exec.exec (Hashgraph.reset S rt block frame) h).2.store.blockCache = ∅ ∨
        (Exec.exec (Hashgraph.reset S rt block frame) h).2.store.blockCache = h.store.blockCache)) ∨
    ((Exec.exec (Hashgraph.reset S rt block frame) h).1 = .ok () ∧
      (Exec.exec (Hashgraph.reset S rt block frame) h).2.store.blockCache =
        (∅ : Map ℤ (Block K)).insert block.body.index block) := by
  rw [Hashgraph.exec_reset]
  cases hst : h.store.reset rt h.memo.tick frame with
  | error err => exact .inl ⟨err, rfl, .inr rfl⟩
  | ok store =>
    have hinsert : ∀ e : FrameEvent H K, Exec.Fixes Hashgraph.shelf
        (Hashgraph.insertFrameEvent S rt e) := Hashgraph.fixes_insertFrameEvent
    have hfix := Exec.fixes_forM hinsert (l := Frame.sortedFrameEvents rt (h.memo.tick + 1) { frame with roots := store.roots })
      { h.cleared with store := store }
    simp only [Hashgraph.refill, Exec.exec_bind]
    generalize Exec.exec (List.forM _ _) { h.cleared with store := store } = res at hfix ⊢
    have hcache : res.2.store.blockCache = ∅ :=
      (congrArg Shelf.blocks hfix).trans (blockCache_reset hst)
    obtain ⟨_ | _, t⟩ := res
    · exact .inl ⟨_, rfl, .inl hcache⟩
    · simp only [Hashgraph.modifyStore, Exec.exec_modify]
      have hblock : t.store.blockCache.insert block.body.index block =
          (∅ : Map ℤ (Block K)).insert block.body.index block := by
        rw [show t.store.blockCache = ∅ from hcache]
      exact .inr ⟨trivial, hblock⟩

theorem ne_empty_of_checkBlock {P : PeerSet K} (h : Hashgraph.checkBlock S block P = .ok ()) :
    block.signatures ≠ ∅ := by
  intro he
  obtain ⟨-, n, hn, hlt⟩ := Core.checkBlock_iff.1 h
  have hnil : block.getSignatures = [] := by
    rw [Block.getSignatures, he]
    rfl
  rw [hnil] at hn
  cases hn
  omega

theorem coherent_fastForward (h : s.Coherent) (frame : Frame H K) :
    (Exec.exec (fastForward S rt v block frame) s).2.Coherent := by
  simp only [fastForward, Exec.exec_bind, Exec.exec_ofExcept]
  cases hcheck : Hashgraph.checkBlock S block ⟨frame.peers⟩ with
  | error err => exact h
  | ok _ =>
    by_cases hhash : block.body.frameHash ≠ frame.hash S
    · simp only [if_pos hhash]
      exact h
    · simp only [if_neg hhash, Exec.exec_bind, Session.exec_onHashgraph, Exec.exec_modify]
      have hempty : Mirrored (∅ : Map ℤ (Block K)) s.host.2 :=
        ⟨fun hb => (by cases hb), h.dbIndex, fun hb => (by cases hb)⟩
      rcases blocks_reset S rt block frame s.hg with
        ⟨err, he, hb⟩ | ⟨he, hb⟩
      · simp only [he]
        unfold Coherent
        rcases hb with hb | hb
        · simp only [hb]
          exact hempty
        · simp only [hb]
          exact h
      · have hblock : Mirrored ((∅ : Map ℤ (Block K)).insert block.body.index block)
            (s.host.2.insert block.body.index block) :=
          hempty.insert (Block.mirrors_self (.inl (ne_empty_of_checkBlock hcheck)))
            (AList.lookup_insert _) fun _ hi => AList.lookup_insert_ne hi
        have hreset : (dbSetBlock block ⟨s.host, (Exec.exec (Hashgraph.reset S rt block frame)
            s.hg).2⟩).Coherent := by
          unfold Coherent dbSetBlock
          simp only [hb]
          exact hblock
        simp only [he]
        generalize dbSetBlock block _ = t at hreset ⊢
        have hseq : (Exec.exec (onCore (Core.setHeadAndSeq v)) t).2.Coherent := by
          refine hreset.of_blocks ?_
          rw [exec_onCore]
          exact Prod.ext (congrArg (fun h => h.store.blockCache)
            (Core.fixes_setHeadAndSeq (v := v) t.core)) rfl
        generalize Exec.exec (onCore (Core.setHeadAndSeq v)) t = res at hseq ⊢
        obtain ⟨_ | _, t'⟩ := res
        · exact hseq
        · exact hseq.of_blocks rfl

/-- An action keeps the copies. -/
theorem Coherent.step (h : s.Coherent) (a : Action H K) : (step S rt v proxy s a).Coherent := by
  cases a with
  | insert i => exact coherent_insertEventAndRunConsensus h i
  | receive bs => exact h.of_blocks rfl
  | processSigPool => exact coherent_processSigPool h
  | fastForward block frame => exact coherent_fastForward h frame
  | evict index =>
    have hsub : ∀ {i b}, (s.hg.store.blockCache.erase index).lookup i = some b →
        s.hg.store.blockCache.lookup i = some b := by
      intro i b hb
      by_cases hi : i = index
      · subst hi
        rw [AList.lookup_erase] at hb
        cases hb
      · rwa [AList.lookup_erase_ne hi] at hb
    exact ⟨fun hb => h.index (hsub hb), h.dbIndex, fun hb => h.copy (hsub hb)⟩

theorem coherent_new (peers genesis : PeerSet K) (n : ℕ) :
    (new peers genesis n : DiskCore H K).Coherent := by
  have hb : (Core.new peers genesis (InmemStore.new n) : Core H K).hg.store.blockCache = ∅ := by
    obtain ⟨h, hi⟩ := Core.exists_init (H := H) n genesis
    rw [Core.new_hg hi]
    obtain ⟨st, hs, rfl⟩ := Hashgraph.init_cases hi
    obtain ⟨psc, pec, roots, fc, hset, rfl, -, -⟩ := InmemStore.setPeerSet_eq hs
    rfl
  refine ⟨fun {i b} h => ?_, fun {i d} h => ?_, fun {i b} h => ?_⟩
  · rw [show (new peers genesis n : DiskCore H K).hg.store.blockCache = ∅ from hb] at h
    cases h
  · cases h
  · rw [show (new peers genesis n : DiskCore H K).hg.store.blockCache = ∅ from hb] at h
    cases h

end DiskCore

namespace Sample

/-- An application with a state. -/
def hashing : ProxyCommitCallback Bytes :=
  fun _ => .ok { stateHash := [7], internalTransactionReceipts := [] }

/-- The only validator goes on alone. -/
def monologue : List (DiskCore.Action Bytes Bytes) :=
  [ (0, none), (1, some 0), (2, some 1), (3, some 2) ].map fun e =>
    .insert ⟨event e.1 1 e.1 e.2 none [], {}, true⟩

/-- The node of a validator in a network whose only member is the first one. -/
def listener (key : UInt8) : DiskCore Bytes Bytes :=
  monologue.foldl (DiskCore.step scheme .plain (validator key) hashing)
    (DiskCore.new ⟨[peer 1]⟩ ⟨[peer 1]⟩ 100)

/-- The first block as the first validator has it in its cache. -/
def firstBlock : Block Bytes :=
  ((listener 1).hg.store.blockCache.lookup 0).getD ⟨⟨0, 0, 0, [], [], [], [], [], []⟩, ∅⟩

theorem getBlock_listener : (listener 1).hg.store.getBlock 0 = .ok firstBlock := by
  have hsome : ((listener 1).hg.store.blockCache.lookup 0).isSome = true := by decide +kernel
  obtain ⟨b, hb⟩ := Option.isSome_iff_exists.1 hsome
  rw [InmemStore.getBlock, firstBlock, hb]
  rfl

theorem signed_firstBlock : firstBlock.signatures ≠ ∅ := by
  have hkeys : firstBlock.signatures.keys = [[1]] := by decide +kernel
  intro h
  rw [h] at hkeys
  cases hkeys

end Sample

end Babble

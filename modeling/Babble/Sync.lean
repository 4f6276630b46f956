import Babble.Anchor
import Babble.Wire

/-!
# Pools and gossip of a core

The transactions of the application and the internal transactions wait in pools of the core
until it makes its next event, and so do its block signatures. `sync` takes events from a
peer and remembers the peer's last one as a head; `recordHeads` makes an event of the core
on top of every head. `addSelfEvent` reads the pools before the insertion of the event and
trims them afterwards, by the lengths that they had. In between, the consensus may commit
blocks, and on a commit the application may submit further items (`Application`) and the
core signs the block.

The `Journal` is not part of the source. It keeps what was submitted, what was signed and
which events came in, in order, and nothing reads it.
-/

set_option linter.unusedSectionVars false

namespace Babble

variable {H K : Type} [DecidableEq H] [DecidableEq K] [Hex H] [Hex K]

/-- An event that the core has made and inserted, that it has read from the wire, or that
was loaded with a frame. -/
inductive Entry (H K : Type)
  | made (event : SignedEvent H K)
  | read (event : SignedEvent H K)
  | loaded (event : SignedEvent H K)
deriving DecidableEq

/-- The event of an entry. -/
def Entry.event : Entry H K → SignedEvent H K
  | .made event => event
  | .read event => event
  | .loaded event => event

/-- What has happened at a core. -/
structure Journal (H K : Type) where
  transactions : List (List UInt8) := []
  internalTransactions : List (InternalTransaction K) := []
  signatures : List BlockSignature := []
  entries : List (Entry H K) := []
deriving DecidableEq

/-- The events that the core has made. -/
def Journal.made (j : Journal H K) : List (SignedEvent H K) :=
  j.entries.filterMap fun
    | .made event => some event
    | _ => none

/-- The fields of `core` with its pools and the heads of its peers. A head may be nil. -/
structure PoolState (H K : Type) extends CoreState H K where
  transactionPool : List (List UInt8) := []
  internalTransactionPool : List (InternalTransaction K) := []
  heads : Map UInt32 (Option (SignedEvent H K)) := ∅
  journal : Journal H K := {}

/-- A core with its pools. -/
abbrev PoolCore (H K : Type) := Session (PoolState H K) H K

/-- An application : what it answers to a block, and what it submits to the core while it
processes the block. -/
structure Application (K : Type) where
  commit : ProxyCommitCallback K
  transactions : Block K → List (List UInt8) := fun _ => []
  internalTransactions : Block K → List (InternalTransaction K) := fun _ => []

/-- The signature that a commit adds to the pool of the core, if any. -/
def Core.commitSignatures (S : Scheme H K) (v : Validator) (proxy : ProxyCommitCallback K)
    (block : Block K) (s : Core H K) : List BlockSignature :=
  match proxy block, s.hg.store.getPeerSet block.body.roundReceived with
  | .ok response, .ok P =>
    match P.byID.lookup v.id with
    | none => []
    | some _ => [signatureOf S v (block.answered response)]
  | _, _ => []

/-- Remove signatures from a pool. -/
def removeSlice (pool : Map (ℤ × K) BlockSignature) (sigs : List BlockSignature) :
    Map (ℤ × K) BlockSignature :=
  sigs.foldl (fun pool s => pool.erase (s.index, s.validatorHex)) pool

namespace PoolCore

variable (S : Scheme H K) (rt : Runtime) (v : Validator) (app : Application K)
  (clock : ℕ → Int64)

/-- The core without the pools. -/
def core (s : PoolCore H K) : Core H K :=
  s.mapHost PoolState.toCoreState

/-- A new core with empty pools. -/
def new (peers genesisPeers : PeerSet K) (store : InmemStore H K) : PoolCore H K :=
  let c := Core.new peers genesisPeers store
  ⟨{ toCoreState := c.host }, c.hg⟩

/-! ## Submissions -/

/-- Append to the pools. -/
def submit (txs : List (List UInt8)) (itxs : List (InternalTransaction K)) (s : PoolCore H K) :
    PoolCore H K :=
  { s with host := { s.host with
      transactionPool := s.host.transactionPool ++ txs
      internalTransactionPool := s.host.internalTransactionPool ++ itxs
      journal := { s.host.journal with
        transactions := s.host.journal.transactions ++ txs
        internalTransactions := s.host.journal.internalTransactions ++ itxs } } }

/-- Append transactions to the pool. -/
def addTransactions (txs : List (List UInt8)) : Exec Err (PoolCore H K) Unit :=
  modify (submit txs [])

/-- Append an internal transaction to the pool. -/
def addInternalTransaction (tx : InternalTransaction K) : Exec Err (PoolCore H K) Unit :=
  modify (submit [] [tx])

/-- `commit` as the callback of the hashgraph. The application submits its items before the
core goes on with the answer. -/
def commitCallback : CommitCallback (PoolState H K) H K := fun block s =>
  let s := submit (app.transactions block) (app.internalTransactions block) s
  let c := Core.commitCallback S v app.commit block (core s)
  ⟨{ s.host with
      toCoreState := c.host
      journal := { s.host.journal with
        signatures := s.host.journal.signatures ++
          Core.commitSignatures S v app.commit block (core s) } }, c.hg⟩

/-- There is some unfinished work. -/
def busy (s : PoolCore H K) : Bool :=
  0 < s.hg.pendingLoadedEvents || !s.host.transactionPool.isEmpty ||
    !s.host.internalTransactionPool.isEmpty || !s.host.selfBlockSignatures.keys.isEmpty ||
    match s.hg.lastConsensusRound with
    | some r => r < s.host.targetRound
    | none => false

/-! ## Events of the core -/

/-- Insert an event and run consensus. -/
def insertEventAndRunConsensus (event : SignedEvent H K) (wire : WireInfo) (fill : Bool) :
    Exec Err (PoolCore H K) Unit := do
  Session.insertEventAndRunConsensus S rt (commitCallback S v app) event wire fill
  if event.creator = (v.publicKeyHex : K) then
    modify fun s =>
      { s with host := { s.host with head := some (event.hex S), seq := event.body.index } }

/-- The next event of the core, with the pools as its payload. -/
def selfEvent (s : PoolCore H K) (sigs : List BlockSignature) (otherHead : Option H)
    (timestamp : Int64) : SignedEvent H K :=
  let body : EventBody H K :=
    { transactions := s.host.transactionPool
      internalTransactions := s.host.internalTransactionPool
      blockSignatures := sigs
      selfParent := s.host.head
      otherParent := otherHead
      creator := v.publicKeyBytes
      index := s.host.seq + 1
      timestamp := timestamp }
  { body := body, signature := v.sign (S.sha256 (S.marshalEventBody body)) }

/-- Remove from the pools what `event` has taken : the first items of the pools, as many as
it has, and its signatures. -/
def trim (event : SignedEvent H K) (s : PoolCore H K) : PoolCore H K :=
  { s with host := { s.host with
      transactionPool := s.host.transactionPool.drop event.body.transactions.length
      internalTransactionPool :=
        s.host.internalTransactionPool.drop event.body.internalTransactions.length
      selfBlockSignatures := removeSlice s.host.selfBlockSignatures event.body.blockSignatures
      journal := { s.host.journal with entries := s.host.journal.entries ++ [.made event] } } }

/-- Make an event on top of `otherHead`, and empty the pools in its payload. The clock is
read once for every event. -/
def addSelfEvent (otherHead : Option H) : Exec Err (PoolCore H K) Unit := do
  let s ← get
  if s.hg.store.lastRound < s.host.acceptedRound then
    return
  else
    let sigs ← Session.onHashgraph (Hashgraph.query fun _ =>
      Query.visit rt (s.host.selfBlockSignatures.toPairs.map Prod.snd))
    let newHead := selfEvent S v s sigs otherHead (clock s.hg.memo.tick)
    insertEventAndRunConsensus S rt v app newHead {} true
    modify (trim newHead)

/-- The heads after the one of a peer was recorded. -/
def deleteHead (id : UInt32) (s : PoolCore H K) : PoolCore H K :=
  { s with host := { s.host with heads := s.host.heads.erase id } }

/-- Make an event on top of every head. -/
def recordHeads : Exec Err (PoolCore H K) Unit := do
  let s ← get
  let heads ← Session.onHashgraph (Hashgraph.query fun _ => Query.visit rt s.host.heads.toPairs)
  heads.forM fun h => do
    addSelfEvent S rt v app clock (h.2.map fun ev => ev.hex S)
    modify (deleteHead h.1)

/-! ## Events of others -/

/-- Note an event that was read. -/
def noteRead (event : SignedEvent H K) (s : PoolCore H K) : PoolCore H K :=
  { s with host := { s.host with
      journal := { s.host.journal with entries := s.host.journal.entries ++ [.read event] } } }

/-- Forget the head of a peer if there is a later event of the peer. -/
def passHead (id : UInt32) (index : ℤ) (s : PoolCore H K) : PoolCore H K :=
  match s.host.heads.lookup id with
  | some (some h) => if h.body.index < index then deleteHead id s else s
  | _ => s

/-- Read and insert events, and find the last inserted one of the peer `fromID`. -/
def syncEvents (fromID : UInt32) : Option (SignedEvent H K) → List (WireEvent K) →
    Exec Err (PoolCore H K) (Option (SignedEvent H K))
  | otherHead, [] => return otherHead
  | otherHead, we :: rest => do
    let (ev, wire) ← Exec.ofExcept (Hashgraph.readWireInfo (← get).hg.store we)
    modify (noteRead ev)
    match ← Exec.attempt (insertEventAndRunConsensus S rt v app ev wire false) with
    | .error err =>
      if err.isNormalSelfParentError then syncEvents fromID otherHead rest else throw err
    | .ok _ =>
      modify (passHead we.body.creatorID we.body.index)
      syncEvents fromID (if we.body.creatorID = fromID then some ev else otherHead) rest

/-- Note the head of a peer. A nil head does not replace another one. -/
def setHead (fromID : UInt32) (otherHead : Option (SignedEvent H K)) (s : PoolCore H K) :
    PoolCore H K :=
  let set : PoolCore H K :=
    { s with host := { s.host with heads := s.host.heads.insert fromID otherHead } }
  match s.host.heads.lookup fromID with
  | some (some h) =>
    match otherHead with
    | some ev => if h.body.index < ev.body.index then set else s
    | none => s
  | _ => set

/-- Insert the events of a peer, and make own events if there is work or no own event yet. -/
def sync (fromID : UInt32) (unknownEvents : List (WireEvent K)) : Exec Err (PoolCore H K) Unit := do
  let otherHead ← syncEvents S rt v app fromID none unknownEvents
  modify (setHead fromID otherHead)
  let s ← get
  if s.busy ∨ s.host.seq < 0 then
    recordHeads S rt v app clock

/-- Reset the core from a block and its frame. -/
def fastForward (block : Block K) (frame : Frame H K) : Exec Err (PoolCore H K) Unit := do
  let s ← get
  let (res, c) := Exec.exec (Core.fastForward S rt v block frame) (core s)
  let loaded : List (Entry H K) :=
    match res with
    | .ok _ => c.hg.store.eventCache.toPairs.map fun e => .loaded e.2.toSignedEvent
    | .error _ => []
  set (⟨{ s.host with
      toCoreState := c.host
      journal := { s.host.journal with entries := s.host.journal.entries ++ loaded } }, c.hg⟩ :
    PoolCore H K)
  Exec.ofExcept res

/-! ## Runs -/

/-- A call of a method of the core. -/
inductive Call (H K : Type)
  | addTransactions (txs : List (List UInt8))
  | addInternalTransaction (tx : InternalTransaction K)
  | addSelfEvent (otherHead : Option H)
  | recordHeads
  | sync (fromID : UInt32) (unknownEvents : List (WireEvent K))

/-- The method of a call. -/
def perform : Call H K → Exec Err (PoolCore H K) Unit
  | .addTransactions txs => addTransactions txs
  | .addInternalTransaction tx => addInternalTransaction tx
  | .addSelfEvent otherHead => addSelfEvent S rt v app clock otherHead
  | .recordHeads => recordHeads S rt v app clock
  | .sync fromID unknownEvents => sync S rt v app clock fromID unknownEvents

/-- The core after a call. Errors are left to the caller. -/
def step (s : PoolCore H K) (c : Call H K) : PoolCore H K :=
  (Exec.exec (perform S rt v app clock c) s).2

/-! ## What a call does -/

/-- A relation that holds across the steps of the methods : items are submitted, heads are
noted and removed, an own event with the pools as payload is inserted, after which the
pools are trimmed, and an event that was read is inserted. -/
structure Steady (r : PoolCore H K → PoolCore H K → Prop) : Prop where
  refl : ∀ s, r s s
  trans : ∀ {s s' s''}, r s s' → r s' s'' → r s s''
  tick : ∀ s n, r s { s with hg := { s.hg with memo := { s.hg.memo with tick := n } } }
  submit : ∀ s txs itxs, r s (submit txs itxs s)
  heads : ∀ s m, r s { s with host := { s.host with heads := m } }
  own : ∀ s sigs otherHead t, sigs.Perm (s.host.selfBlockSignatures.toPairs.map Prod.snd) →
    ∀ event, event = selfEvent S v s sigs otherHead t →
    r s (Exec.exec (do insertEventAndRunConsensus S rt v app event {} true; modify (trim event)) s).2
  read : ∀ s event wire,
    r s (Exec.exec (insertEventAndRunConsensus S rt v app event wire false) (noteRead event s)).2

/-- A relation that holds across the steps with own events : items are submitted, heads are
removed, and an own event with the pools as payload is inserted, after which the pools are
trimmed. -/
structure SteadyOwn (r : PoolCore H K → PoolCore H K → Prop) : Prop where
  refl : ∀ s, r s s
  trans : ∀ {s s' s''}, r s s' → r s' s'' → r s s''
  tick : ∀ s n, r s { s with hg := { s.hg with memo := { s.hg.memo with tick := n } } }
  submit : ∀ s txs itxs, r s (submit txs itxs s)
  deleteHead : ∀ s id, r s (deleteHead id s)
  own : ∀ s sigs otherHead t, sigs.Perm (s.host.selfBlockSignatures.toPairs.map Prod.snd) →
    ∀ event, event = selfEvent S v s sigs otherHead t →
    r s (Exec.exec (do insertEventAndRunConsensus S rt v app event {} true; modify (trim event)) s).2

/-- The same for all steps, with events that are read from the wire events `W`. -/
structure SteadyOn (W : Set (WireEvent K)) (r : PoolCore H K → PoolCore H K → Prop) : Prop
    extends SteadyOwn S rt v app r where
  noteHead : ∀ s id otherHead,
    r s { s with host := { s.host with heads := s.host.heads.insert id otherHead } }
  read : ∀ s event wire, (∃ w ∈ W, Hashgraph.readWireInfo s.hg.store w = .ok (event, wire)) →
    r s (Exec.exec (insertEventAndRunConsensus S rt v app event wire false) (noteRead event s)).2

/-- The same for the events that a sync takes from `W`, up to the noting of the head. -/
def LearnsOn (W : Set (WireEvent K)) (r : PoolCore H K → PoolCore H K → Prop) : Prop :=
  ∀ fromID events, (∀ w ∈ events, w ∈ W) → Exec.Relates r (do
    let otherHead ← syncEvents S rt v app fromID none events
    modify (setHead fromID otherHead))

section Calls

variable {S rt v app clock} {W : Set (WireEvent K)} {r : PoolCore H K → PoolCore H K → Prop}

theorem exec_visit {α : Type} (l : List α) (s : PoolCore H K) :
    Exec.exec (Session.onHashgraph (Hashgraph.query fun _ => Query.visit rt l)) s =
      (.ok (rt.order s.hg.memo.tick l),
        { s with hg := { s.hg with memo := { s.hg.memo with tick := s.hg.memo.tick + 1 } } }) :=
  rfl

namespace SteadyOwn

theorem addSelfEvent (h : SteadyOwn S rt v app r) (otherHead : Option H) :
    Exec.Relates r (addSelfEvent S rt v app clock otherHead) := by
  intro s
  rw [PoolCore.addSelfEvent, Exec.exec_bind, Exec.exec_get]
  by_cases hround : s.hg.store.lastRound < s.host.acceptedRound
  · simp only [if_pos hround]
    exact h.refl s
  · simp only [if_neg hround]
    rw [Exec.exec_bind, exec_visit]
    refine h.trans (h.tick s (s.hg.memo.tick + 1)) (h.own _ _ otherHead _ ?_ _ rfl)
    exact rt.order_perm _ _

theorem recordHeads (h : SteadyOwn S rt v app r) :
    Exec.Relates r (recordHeads S rt v app clock) := by
  refine Exec.Relates.bind h.trans h.refl fun s => Exec.Relates.bind h.trans
    (fun s => h.tick s (s.hg.memo.tick + 1)) fun heads => ?_
  exact Exec.relates_forM h.refl h.trans fun head => Exec.Relates.bind h.trans
    (h.addSelfEvent _) fun _ => Exec.relates_modify fun s => h.deleteHead s _

theorem passHead (h : SteadyOwn S rt v app r) (id : UInt32) (index : ℤ) (s : PoolCore H K) :
    r s (passHead id index s) := by
  unfold PoolCore.passHead
  split
  · split_ifs
    · exact h.deleteHead s _
    · exact h.refl s
  · exact h.refl s

/-- What holds across the steps holds across a call whose events are from `W`. -/
theorem perform (h : SteadyOwn S rt v app r) (hlearns : LearnsOn S rt v app W r) (c : Call H K)
    (hW : ∀ fromID events, c = .sync fromID events → ∀ w ∈ events, w ∈ W) :
    Exec.Relates r (perform S rt v app clock c) := by
  cases c with
  | addTransactions txs => exact Exec.relates_modify fun s => h.submit s _ _
  | addInternalTransaction tx => exact Exec.relates_modify fun s => h.submit s _ _
  | addSelfEvent otherHead => exact h.addSelfEvent otherHead
  | recordHeads => exact h.recordHeads
  | sync fromID events =>
    have hrest : Exec.Relates r (do
        let s ← get
        if s.busy ∨ s.host.seq < 0 then PoolCore.recordHeads S rt v app clock) := by
      refine Exec.Relates.bind h.trans h.refl fun s => ?_
      split_ifs
      · exact h.recordHeads
      · exact h.refl
    have hall := Exec.Relates.bind (r := r) (fun h₁ h₂ => h.trans h₁ h₂)
      (hlearns fromID events (hW fromID events rfl)) fun _ => hrest
    rwa [bind_assoc] at hall

end SteadyOwn

namespace SteadyOn

theorem syncEvents (h : SteadyOn S rt v app W r) (fromID : UInt32) (events : List (WireEvent K))
    (hW : ∀ w ∈ events, w ∈ W) :
    ∀ otherHead, Exec.Relates r (syncEvents S rt v app fromID otherHead events) := by
  induction events with
  | nil => exact fun _ => h.refl
  | cons we rest ih =>
    intro otherHead s
    have ih := ih fun w hw => hW w (List.mem_cons_of_mem we hw)
    simp only [PoolCore.syncEvents, Exec.exec_bind, Exec.exec_get, Exec.exec_ofExcept]
    cases hr : Hashgraph.readWireInfo s.hg.store we with
    | error err => exact h.refl s
    | ok ev =>
      have hread := h.read s ev.1 ev.2 ⟨we, hW we List.mem_cons_self, hr⟩
      simp only [Exec.exec_modify, Exec.exec_attempt]
      generalize Exec.exec (insertEventAndRunConsensus S rt v app ev.1 ev.2 false)
        (noteRead ev.1 s) = res at hread
      obtain ⟨err | _, t⟩ := res
      · simp only
        split_ifs
        · exact h.trans hread (ih _ t)
        · exact hread
      · simp only [Exec.exec_bind, Exec.exec_modify]
        exact h.trans hread (h.trans (h.passHead _ _ t) (ih _ _))

theorem setHead (h : SteadyOn S rt v app W r) (fromID : UInt32)
    (otherHead : Option (SignedEvent H K)) (s : PoolCore H K) :
    r s (setHead fromID otherHead s) := by
  unfold PoolCore.setHead
  split
  · split
    · split_ifs
      · exact h.noteHead s _ _
      · exact h.refl s
    · exact h.refl s
  · exact h.noteHead s _ _

theorem learnsOn (h : SteadyOn S rt v app W r) : LearnsOn S rt v app W r :=
  fun fromID events hW => Exec.Relates.bind h.trans (h.syncEvents fromID events hW none)
    fun otherHead => Exec.relates_modify fun s => h.setHead _ otherHead s

end SteadyOn

end Calls

variable {S rt v app} in
/-- What holds across all steps holds across those with events from `W`. -/
theorem Steady.steadyOn {r : PoolCore H K → PoolCore H K → Prop} (h : Steady S rt v app r)
    (W : Set (WireEvent K)) : SteadyOn S rt v app W r :=
  ⟨⟨h.refl, h.trans, h.tick, h.submit, fun s _ => h.heads s _, h.own⟩, fun s _ _ => h.heads s _,
    fun s event wire _ => h.read s event wire⟩

variable {S rt v app clock} in
/-- What holds across the steps holds across a call. -/
theorem Steady.perform {r : PoolCore H K → PoolCore H K → Prop} (h : Steady S rt v app r)
    (c : Call H K) : Exec.Relates r (perform S rt v app clock c) :=
  (h.steadyOn Set.univ).toSteadyOwn.perform (h.steadyOn Set.univ).learnsOn c
    fun _ _ _ _ _ => trivial

end PoolCore

end Babble

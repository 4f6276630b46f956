import Babble.Exec
import Babble.Store

/-!
# Queries on the hashgraph

The predicates on events that consensus is built from : ancestry, strong sight, round,
witness and Lamport timestamp. Each reads the store and remembers its answer in a cache,
so a query is a computation over the caches (`Memo`) for a given store.

Ancestry and strong sight go through the coordinates of events : `y` is an ancestor of
`x` if the last ancestor of `x` by the creator of `y` has at least the index of `y`.
-/

set_option linter.unusedSectionVars false

namespace Babble

variable {H K : Type} [DecidableEq H] [DecidableEq K] [Hex H] [Hex K]

/-- The caches of the queries, and the number of the next visit of a map. -/
structure Memo (H : Type) where
  ancestorCache : Map (H × H) Bool := ∅
  stronglySeeCache : Map (H × H × List UInt8) Bool := ∅
  roundCache : Map H ℤ := ∅
  timestampCache : Map H ℤ := ∅
  witnessCache : Map H Bool := ∅
  tick : ℕ := 0
deriving DecidableEq

/-- A computation over the caches. -/
abbrev Query (H α : Type) := Exec Err (Memo H) α

/-- The coin of a coin round : whether the byte in the middle of a hash is not zero. -/
def middleBit (ehex : H) : Bool :=
  let hash : List UInt8 := Hex.decodeFromString ehex
  !(decide (0 < hash.length) && hash.getD (hash.length / 2) 0 == 0)

namespace Query

/-- Answer from a cache, or compute and remember. -/
def cached {α : Type} (lookup : Memo H → Option α) (add : α → Memo H → Memo H)
    (compute : Query H α) : Query H α := do
  match lookup (← get) with
  | some c => return c
  | none =>
    let a ← compute
    modify (add a)
    return a

/-- Visit a list of map entries in the order of `rt`. -/
def visit {α : Type} (rt : Runtime) (l : List α) : Query H (List α) := do
  let m ← get
  set { m with tick := m.tick + 1 }
  return rt.order m.tick l

variable (S : Scheme H K) (rt : Runtime) (st : InmemStore H K)

/-! ## Ancestry -/

/-- `_ancestor`. -/
def ancestorUncached (x y : H) : Query H Bool := do
  if x = y then
    return true
  else
    let ex ← Exec.ofExcept (st.getEvent x)
    let ey ← Exec.ofExcept (st.getEvent y)
    match ex.lastAncestors.lookup ey.creator with
    | some entry => return decide (ey.body.index ≤ entry.index)
    | none => return false

/-- Whether `y` is an ancestor of `x`. -/
def ancestor (x y : H) : Query H Bool :=
  cached (fun m => m.ancestorCache.lookup (x, y))
    (fun a m => { m with ancestorCache := m.ancestorCache.insert (x, y) a })
    (ancestorUncached st x y)

/-- Whether `x` sees `y`. Forks are taken to be impossible. -/
def see (x y : H) : Query H Bool :=
  ancestor st x y

/-- `_stronglySee`. -/
def stronglySeeUncached (x y : H) (peers : PeerSet K) : Query H Bool := do
  let ex ← Exec.ofExcept (st.getEvent x)
  let ey ← Exec.ofExcept (st.getEvent y)
  let c := peers.byPubKey.keys.countP fun p =>
    match ex.lastAncestors.lookup p, ey.firstDescendants.lookup p with
    | some xla, some yfd => decide (yfd.index ≤ xla.index)
    | _, _ => false
  return decide (peers.superMajority ≤ c)

/-- Whether `x` strongly sees `y` based on a peer-set. The cache is keyed by the hash of
the peer-set. -/
def stronglySee (x y : H) (peers : PeerSet K) : Query H Bool :=
  cached (fun m => m.stronglySeeCache.lookup (x, y, peers.hash S.sha256))
    (fun a m =>
      { m with stronglySeeCache := m.stronglySeeCache.insert (x, y, peers.hash S.sha256) a })
    (stronglySeeUncached st x y peers)

/-! ## Rounds -/

/-- The value of the self-parent, or `-1` without one. -/
def selfParentValue (f : H → Query H ℤ) : Option H → Query H ℤ
  | some sp => f sp
  | none => return -1

/-- The value of the other-parent if it is above `v`, and `v` otherwise. -/
def raiseTo (f : H → Query H ℤ) (v : ℤ) : Option H → Query H ℤ
  | some op => do
    let w ← f op
    return if v < w then w else v
  | none => return v

/-- `_round`, where `round` is the recursive call. -/
def roundUncached (round : H → Query H ℤ) (x : H) : Query H ℤ := do
  let ex ← Exec.ofExcept (st.getEvent x)
  let spRound ← selfParentValue round ex.body.selfParent
  let parentRound ← raiseTo round spRound ex.body.otherParent
  if parentRound = -1 then
    return 0
  else
    -- the parent round's peer-set counts the strongly seen witnesses
    let parentRoundObj ← Exec.ofExcept (st.getRound parentRound)
    let parentRoundPeerSet ← Exec.ofExcept (st.getPeerSet parentRound)
    let witnesses ← visit rt parentRoundObj.witnesses
    let seen ← Exec.filter (fun w => stronglySee S st x w parentRoundPeerSet) witnesses
    return if parentRoundPeerSet.superMajority ≤ seen.length then parentRound + 1
      else parentRound

/-- The round of an event. The first argument bounds the depth of the recursion. -/
def roundRec : ℕ → H → Query H ℤ
  | 0, _ => throw (.panic "stack overflow")
  | fuel + 1, x =>
    cached (fun m => m.roundCache.lookup x)
      (fun r m => { m with roundCache := m.roundCache.insert x r })
      (roundUncached S rt st (roundRec fuel) x)

/-- The depth of a recursion over the parents of stored events. -/
def depth : ℕ :=
  st.eventCache.keys.length + 1

/-- The round of an event. -/
def round (x : H) : Query H ℤ :=
  roundRec S rt st (depth st) x

/-- `_witness`. -/
def witnessUncached (x : H) : Query H Bool := do
  let ex ← Exec.ofExcept (st.getEvent x)
  let xRound ← round S rt st x
  let peerSet ← Exec.ofExcept (st.getPeerSet xRound)
  if ex.creator ∈ peerSet.byPubKey then
    let spRound ← selfParentValue (round S rt st) ex.body.selfParent
    return decide (spRound < xRound)
  else
    return false

/-- Whether an event is the first of its creator in its round, and the creator belongs to
the round's peer-set. -/
def witness (x : H) : Query H Bool :=
  cached (fun m => m.witnessCache.lookup x)
    (fun w m => { m with witnessCache := m.witnessCache.insert x w })
    (witnessUncached S rt st x)

/-! ## Lamport timestamps -/

/-- `_lamportTimestamp`, where `timestamp` is the recursive call. -/
def lamportTimestampUncached (timestamp : H → Query H ℤ) (x : H) : Query H ℤ := do
  let ex ← Exec.ofExcept (st.getEvent x)
  let spLT ← selfParentValue timestamp ex.body.selfParent
  -- an unknown other-parent counts as the smallest number
  let otherTimestamp := fun op =>
    match st.getEvent op with
    | .ok _ => timestamp op
    | .error _ => return -2147483648
  let plt ← raiseTo otherTimestamp spLT ex.body.otherParent
  return plt + 1

/-- The Lamport timestamp with a bound on the depth of the recursion. -/
def lamportTimestampRec : ℕ → H → Query H ℤ
  | 0, _ => throw (.panic "stack overflow")
  | fuel + 1, x =>
    cached (fun m => m.timestampCache.lookup x)
      (fun r m => { m with timestampCache := m.timestampCache.insert x r })
      (lamportTimestampUncached st (lamportTimestampRec fuel) x)

/-- The Lamport timestamp of an event : one more than the highest of its parents. -/
def lamportTimestamp (x : H) : Query H ℤ :=
  lamportTimestampRec st (depth st) x

end Query

end Babble

import Babble.Hashgraph

/-!
# Rounds, fame and round-received

The three passes over the hashgraph that run after every insertion. `divideRounds` gives
the undetermined events a round and a Lamport timestamp and records them in the rounds;
`decideFame` runs the virtual votes on the witnesses of the pending rounds;
`decideRoundReceived` finds for every undetermined event the first round all of whose
famous witnesses see it.
-/

set_option linter.unusedSectionVars false

namespace Babble

namespace Hashgraph

variable {H K : Type} [DecidableEq H] [DecidableEq K] [Hex H] [Hex K]
variable (S : Scheme H K) (rt : Runtime)

/-! ## Rounds -/

/-- The stored round, or a new one. -/
def getOrNewRound (st : InmemStore H K) (r : ℤ) : Except Err (RoundInfo H) :=
  match st.getRound r with
  | .ok info => .ok info
  | .error err => if err.isStore .keyNotFound then .ok {} else .error err

/-- Whether rounds up to `r` are left to the frame that the hashgraph was reset from. -/
def belowLowerBound (h : Hashgraph H K) (r : ℤ) : Bool :=
  match h.roundLowerBound with
  | none => false
  | some lb => r ≤ lb

/-- Queue a round that is not queued, not decided and above the lower bound. -/
def queueRound (h : Hashgraph H K) (r : ℤ) (info : RoundInfo H) : Hashgraph H K :=
  if !h.pendingRounds.queued r && !info.decided && !h.belowLowerBound r then
    { h with pendingRounds := h.pendingRounds.set ⟨r, false⟩ }
  else h

/-- Give an event its round, and enter it in the round. -/
def assignRound (hash : H) : Hg H K Unit := do
  let roundNumber ← query fun st => Query.round S rt st hash
  modifyStore fun st => st.modifyEvent hash fun ev => { ev with round := some roundNumber }
  let roundInfo ← read fun st => getOrNewRound st roundNumber
  modify fun h => h.queueRound roundNumber roundInfo
  let witness ← query fun st => Query.witness S rt st hash
  modifyStore fun st => st.setRound roundNumber (roundInfo.addCreatedEvent hash witness)

/-- Give an event its Lamport timestamp. -/
def assignLamportTimestamp (hash : H) : Hg H K Unit := do
  let lamportTimestamp ← query fun st => Query.lamportTimestamp st hash
  modifyStore fun st => st.modifyEvent hash fun ev =>
    { ev with lamportTimestamp := some lamportTimestamp }

/-- Give an event the round and the timestamp it does not have yet. -/
def divideEvent (hash : H) : Hg H K Unit := do
  let ev ← read fun st => st.getEvent hash
  if ev.round = none then
    assignRound S rt hash
  if ev.lamportTimestamp = none then
    assignLamportTimestamp hash

/-- Assign rounds and Lamport timestamps to the undetermined events. -/
def divideRounds : Hg H K Unit := do
  (← get).undeterminedEvents.forM (divideEvent S rt)

/-! ## Fame -/

/-- `votes (y, x)` is the vote of `y` on `x`. -/
abbrev Votes (H : Type) := Map (H × H) Bool

/-- The number of rounds from one coin round to the next. -/
def coinRoundFreq : ℤ := 4

/-- The majority of a number of votes, which a tie leaves to the yays. -/
def majority (yays nays : ℕ) : Bool × ℕ :=
  if nays ≤ yays then (true, yays) else (false, nays)

/-- The vote that follows from a number of votes `diff` rounds after the witness, and
whether it decides. In a coin round nothing is decided, and without enough votes the coin
is the vote. -/
def cast (diff : ℤ) (superMajority yays nays : ℕ) (coin : Bool) : Bool × Bool :=
  let (v, t) := majority yays nays
  if diff % coinRoundFreq ≠ 0 then (v, decide (superMajority ≤ t))
  else if superMajority ≤ t then (v, false)
  else (coin, false)

/-- The vote of `y`, a witness of round `j`, on `x`, and whether it decides. -/
def ballot (votes : Votes H) (x : H) (roundIndex j : ℤ) (jPeerSet : PeerSet K) (y : H) :
    Hg H K (Bool × Bool) := do
  let diff := j - roundIndex
  if diff = 1 then
    let ycx ← query fun st => Query.see st y x
    return (ycx, false)
  else
    let jPrevRoundInfo ← read fun st => st.getRound (j - 1)
    let jPrevPeerSet ← read fun st => st.getPeerSet (j - 1)
    let witnesses ← query fun _ => Query.visit rt jPrevRoundInfo.witnesses
    -- the witnesses of round `j - 1` that `y` strongly sees, based on that round's peer-set
    let ssWitnesses ← query fun st =>
      Exec.filter (fun w => Query.stronglySee S st y w jPrevPeerSet) witnesses
    let yays := ssWitnesses.countP fun w => decide (votes.lookup (w, x) = some true)
    let nays := ssWitnesses.countP fun w => !decide (votes.lookup (w, x) = some true)
    return cast diff jPeerSet.superMajority yays nays (middleBit y)

/-- Let witnesses of round `j` vote on `x` one after the other, up to the first that
decides. -/
def voteRound (x : H) (roundIndex j : ℤ) (jPeerSet : PeerSet K) :
    Votes H → List H → Hg H K (Votes H × Bool)
  | votes, [] => return (votes, false)
  | votes, y :: ys => do
    let (v, decides) ← ballot S rt votes x roundIndex j jPeerSet y
    let votes := votes.insert (y, x) v
    if decides then
      modifyStore fun st => st.modifyRound roundIndex fun info => info.setFame x v
      return (votes, true)
    else
      voteRound x roundIndex j jPeerSet votes ys

/-- Let the rounds from `j` on vote on `x`, as many as the last argument says. -/
def voteLoop (x : H) (roundIndex : ℤ) : Votes H → ℤ → ℕ → Hg H K (Votes H)
  | votes, _, 0 => return votes
  | votes, j, n + 1 => do
    let jRoundInfo ← read fun st => st.getRound j
    let jPeerSet ← read fun st => st.getPeerSet j
    let ys ← query fun _ => Query.visit rt jRoundInfo.witnesses
    let (votes, done) ← voteRound S rt x roundIndex j jPeerSet votes ys
    if done then return votes else voteLoop x roundIndex votes (j + 1) n

/-- Decide the fame of the undecided witnesses in a list. -/
def decideWitnesses (roundIndex : ℤ) : Votes H → List H → Hg H K (Votes H)
  | votes, [] => return votes
  | votes, x :: xs => do
    let rRoundInfo ← read fun st => st.getRound roundIndex
    if rRoundInfo.isDecided x then
      decideWitnesses roundIndex votes xs
    else
      let n := ((← get).store.lastRound - roundIndex).toNat
      let votes ← voteLoop S rt x roundIndex votes (roundIndex + 1) n
      decideWitnesses roundIndex votes xs

/-- Decide the fame of the witnesses of the rounds in a list, and return the rounds that
are then decided. -/
def decideRounds : Votes H → List PendingRound → Hg H K (List ℤ)
  | _, [] => return []
  | votes, r :: rs => do
    let rRoundInfo ← read fun st => st.getRound r.index
    let rPeerSet ← read fun st => st.getPeerSet r.index
    let xs ← query fun _ => Query.visit rt rRoundInfo.witnesses
    let votes ← decideWitnesses S rt r.index votes xs
    let rRoundInfo ← read fun st => st.getRound r.index
    modifyStore fun st => st.setRound r.index (rRoundInfo.settle rPeerSet)
    let decidedRounds ← decideRounds votes rs
    return if rRoundInfo.witnessesDecided rPeerSet then r.index :: decidedRounds
      else decidedRounds

/-- Decide if witnesses are famous. -/
def decideFame : Hg H K Unit := do
  let decidedRounds ← decideRounds S rt ∅ (← get).pendingRounds
  modify fun h => { h with pendingRounds := h.pendingRounds.update decidedRounds }

/-! ## Round-received -/

/-- Receive `x` in round `i`. -/
def receive (x : H) (i : ℤ) : Hg H K Unit := do
  let _ ← read fun st => st.getEvent x
  modifyStore fun st => st.modifyEvent x fun ex => { ex with roundReceived := some i }
  modifyStore fun st => st.modifyRound i fun tr => tr.addReceivedEvent x

/-- Whether the famous witnesses of a round are enough and all see `x`. -/
def receivedBy (tr : RoundInfo H) (tPeers : PeerSet K) (x : H) : Hg H K Bool := do
  let fws ← query fun _ => Query.visit rt tr.famousWitnesses
  let s ← query fun st => Exec.filter (fun w => Query.see st w x) fws
  return decide (s.length = fws.length ∧ tPeers.superMajority ≤ s.length)

/-- Look for the round in which `x` is received, from round `i` on through as many rounds
as the last argument says. -/
def receiveLoop (x : H) : ℤ → ℕ → Hg H K Bool
  | _, 0 => return false
  | i, n + 1 => do
    match (← get).store.getRound i with
    | .error _ => return false
    | .ok tr =>
      let tPeers ← read fun st => st.getPeerSet i
      modifyStore fun st => st.modifyRound i fun tr => tr.settle tPeers
      if tr.witnessesDecided tPeers then
        if ← receivedBy rt tr tPeers x then
          receive x i
          return true
        else
          receiveLoop x (i + 1) n
      else if (← get).belowLowerBound i then
        -- rounds up to the lower bound are never decided here
        receiveLoop x (i + 1) n
      else
        return false

/-- Look for the round-received of the events in a list, and return those without. -/
def receiveEvents : List H → Hg H K (List H)
  | [] => return []
  | x :: xs => do
    let r ← query fun st => Query.round S rt st x
    let n := ((← get).store.lastRound - r).toNat
    let received ← receiveLoop rt x (r + 1) n
    let rest ← receiveEvents xs
    return if received then rest else x :: rest

/-- Assign a round-received to the undetermined events that have one by now. -/
def decideRoundReceived : Hg H K Unit := do
  let newUndeterminedEvents ← receiveEvents S rt (← get).undeterminedEvents
  modify fun h => { h with undeterminedEvents := newUndeterminedEvents }

end Hashgraph

end Babble

import Babble.Consensus

/-!
# Frames

`getFrame` assembles the frame of a decided round : the events received in it, in
consensus order, a root for every participant known by then, the recorded peer-sets, and
the median timestamp of the famous witnesses.
-/

set_option linter.unusedSectionVars false

namespace Babble

variable {H K : Type} [DecidableEq H] [DecidableEq K] [Hex H] [Hex K]

namespace Query

variable (S : Scheme H K) (rt : Runtime) (st : InmemStore H K)

/-- The number of events before the first of a root. -/
def rootDepth : ℕ := 10

/-- An event with its round, timestamp and witness flag. -/
def createFrameEvent (x : H) : Query H (FrameEvent H K) := do
  match st.getEvent x with
  | .error _ => throw (.msg "FrameEvent not found")
  | .ok ev =>
    let round ← Query.round S rt st x
    let roundInfo ← Exec.ofExcept (st.getRound round)
    match roundInfo.createdEvents.lookup x with
    | none => throw (.msg "CreatedEvents not found")
    | some te =>
      let lt ← lamportTimestamp st x
      return { core := ev.toSignedEvent, round := round, lamportTimestamp := lt,
               witness := te.witness }

/-- The frame events of a list of hashes. -/
def createFrameEvents : List H → Query H (List (FrameEvent H K))
  | [] => return []
  | x :: xs => do
    let e ← createFrameEvent S rt st x
    let es ← createFrameEvents xs
    return e :: es

/-- The events of a participant before `index`, the latest first, at most as many as the
last argument says. -/
def eventsBefore (participant : K) : ℤ → ℕ → Query H (List (FrameEvent H K))
  | _, 0 => return []
  | index, n + 1 =>
    if 0 ≤ index - 1 then
      match st.participantEvent participant (index - 1) with
      | .error _ => return []
      | .ok peh => do
        let rev ← createFrameEvent S rt st peh
        let rest ← eventsBefore participant (index - 1) n
        return rev :: rest
    else return []

/-- The root of a participant with `head` as its last event. -/
def createRoot (participant : K) (head : Option H) : Query H (Root H K) := do
  match head with
  | none => return {}
  | some head =>
    let headEvent ← createFrameEvent S rt st head
    let before ← eventsBefore S rt st participant headEvent.core.body.index rootDepth
    return (headEvent :: before).reverse.foldl Root.insert {}

/-- Create a root for the creator of every event in a list, under its first event. -/
def rootsOfEvents : Map K (Root H K) → List (FrameEvent H K) → Query H (Map K (Root H K))
  | roots, [] => return roots
  | roots, ev :: evs => do
    match roots.lookup ev.core.creator with
    | some _ => rootsOfEvents roots evs
    | none =>
      let r ← createRoot S rt st ev.core.creator ev.core.body.selfParent
      rootsOfEvents (roots.insert ev.core.creator r) evs

/-- Create the missing roots of the participants in a list that were added before
`roundReceived`, from their last consensus events. -/
def rootsOfOthers (roundReceived : ℤ) :
    Map K (Root H K) → List (K × Peer K) → Query H (Map K (Root H K))
  | roots, [] => return roots
  | roots, (p, peer) :: rest => do
    match st.peerSetCache.firstRound peer.id, roots.lookup p with
    | some firstRound, none =>
      if roundReceived < firstRound then
        rootsOfOthers roundReceived roots rest
      else
        let root ← createRoot S rt st p (st.lastConsensusEventFrom p)
        rootsOfOthers roundReceived (roots.insert p root) rest
    | _, _ => rootsOfOthers roundReceived roots rest

/-- The timestamps of stored events. -/
def timestamps : List H → Query H (List Int64)
  | [] => return []
  | fw :: fws => do
    let ev ← Exec.ofExcept (st.getEvent fw)
    let ts ← timestamps fws
    return ev.body.timestamp :: ts

/-- Compute the frame of a round. -/
def computeFrame (roundReceived : ℤ) : Query H (Frame H K) := do
  let round ← Exec.ofExcept (st.getRound roundReceived)
  let peerSet ← Exec.ofExcept (st.getPeerSet roundReceived)
  let received ← createFrameEvents S rt st round.receivedEvents
  let events := rt.sort FrameEvent.less received
  let roots ← rootsOfEvents S rt st ∅ events
  let repertoire ← visit rt st.peerSetCache.repertoireByPubKey.toPairs
  let roots ← rootsOfOthers S rt st roundReceived roots repertoire
  let fws ← visit rt round.famousWitnesses
  let ts ← timestamps st fws
  return {
    round := roundReceived
    peers := peerSet.peers
    roots := roots
    events := events
    peerSets := st.peerSetCache.getAll
    timestamp := median ts }

end Query

namespace Hashgraph

variable (S : Scheme H K) (rt : Runtime)

/-- The frame of a round, from the store or computed and stored. -/
def getFrame (roundReceived : ℤ) : Hg H K (Frame H K) := do
  match (← get).store.getFrame roundReceived with
  | .ok frame => return frame
  | .error err =>
    if err.isStore .keyNotFound then
      let frame ← query fun st => Query.computeFrame S rt st roundReceived
      modifyStore fun st => st.setFrame frame
      return frame
    else throw err

end Hashgraph

/-- All the events of a frame, those of the roots included, in consensus order. -/
def Frame.sortedFrameEvents (rt : Runtime) (tick : ℕ) (f : Frame H K) : List (FrameEvent H K) :=
  rt.sort FrameEvent.less
    ((rt.order tick f.roots.toPairs).flatMap (fun r => r.2.events) ++ f.events)

end Babble

import Babble.Event

/-!
# Rounds, pending rounds and the median

`RoundInfo` collects the events created in a round, with the witness flag and the fame of
each, and the events received in it. A round is decided once a super-majority of its
witnesses have their fame decided and none of the known ones is undecided; it then stays
decided (`RoundInfo.witnessesDecided`).

`PendingRounds` is the queue of rounds that are not processed yet, in increasing order.
-/

set_option linter.unusedSectionVars false

namespace Babble

variable {H K : Type} [DecidableEq H] [DecidableEq K] [Hex K]

/-! ## Rounds -/

/-- A boolean that can also be undefined. -/
inductive Trilean
  | undefined
  | true
  | false
deriving DecidableEq, Repr

/-- The defined value of a boolean. -/
def Trilean.ofBool : Bool → Trilean
  | .true => .true
  | .false => .false

/-- The witness and fame states of an event. -/
structure RoundEvent where
  witness : Bool
  famous : Trilean := .undefined
deriving DecidableEq, Repr

/-- A round : the events created in it, the events received in it, and whether its
witnesses are decided. -/
structure RoundInfo (H : Type) where
  createdEvents : Map H RoundEvent := ∅
  receivedEvents : List H := []
  decided : Bool := false
deriving DecidableEq

namespace RoundInfo

/-- Add an event to the created ones, unless it is there. -/
def addCreatedEvent (r : RoundInfo H) (x : H) (witness : Bool) : RoundInfo H :=
  match r.createdEvents.lookup x with
  | some _ => r
  | none => { r with createdEvents := r.createdEvents.insert x { witness := witness } }

theorem lookup_addCreatedEvent (r : RoundInfo H) (x y : H) (witness : Bool) :
    (r.addCreatedEvent x witness).createdEvents.lookup y =
      if y = x then some ((r.createdEvents.lookup x).getD { witness := witness })
      else r.createdEvents.lookup y := by
  unfold addCreatedEvent
  cases hx : r.createdEvents.lookup x with
  | some e =>
    split_ifs with hy
    · rw [hy, hx, Option.getD_some]
    · rfl
  | none => exact Map.lookup_insert_ite ..

@[simp] theorem addCreatedEvent_decided (r : RoundInfo H) (x : H) (witness : Bool) :
    (r.addCreatedEvent x witness).decided = r.decided := by
  unfold addCreatedEvent
  split <;> rfl

@[simp] theorem addCreatedEvent_receivedEvents (r : RoundInfo H) (x : H) (witness : Bool) :
    (r.addCreatedEvent x witness).receivedEvents = r.receivedEvents := by
  unfold addCreatedEvent
  split <;> rfl

/-- Add an event to the received ones. -/
def addReceivedEvent (r : RoundInfo H) (x : H) : RoundInfo H :=
  { r with receivedEvents := r.receivedEvents ++ [x] }

/-- Set the fame of an event. -/
def setFame (r : RoundInfo H) (x : H) (f : Bool) : RoundInfo H :=
  let e := (r.createdEvents.lookup x).getD { witness := true }
  { r with createdEvents := r.createdEvents.insert x { e with famous := Trilean.ofBool f } }

/-- Whether the witnesses are decided : no undecided one, and a super-majority of decided
ones, now or at an earlier call. -/
def witnessesDecided (r : RoundInfo H) (peerSet : PeerSet K) : Bool :=
  r.decided ||
    ((r.createdEvents.keysWith fun e => e.witness && e.famous == .undefined).isEmpty &&
      decide (peerSet.superMajority ≤
        (r.createdEvents.keysWith fun e => e.witness && e.famous != .undefined).length))

/-- The round after a call of `witnessesDecided`, which records a positive answer. -/
def settle (r : RoundInfo H) (peerSet : PeerSet K) : RoundInfo H :=
  { r with decided := r.witnessesDecided peerSet }

/-- The witnesses. -/
def witnesses (r : RoundInfo H) : List H :=
  r.createdEvents.keysWith RoundEvent.witness

/-- The famous witnesses. -/
def famousWitnesses (r : RoundInfo H) : List H :=
  r.createdEvents.keysWith fun e => e.witness && e.famous == .true

theorem mem_famousWitnesses {i : RoundInfo H} {w : H} : w ∈ i.famousWitnesses ↔
    ∃ e, i.createdEvents.lookup w = some e ∧ e.witness = true ∧ e.famous = .true := by
  simp only [famousWitnesses, Map.mem_keysWith, Bool.and_eq_true, beq_iff_eq]

theorem nodup_famousWitnesses (i : RoundInfo H) : i.famousWitnesses.Nodup :=
  Map.nodup_keysWith _ _

/-- A new event is not famous yet. -/
theorem famousWitnesses_addCreatedEvent (r : RoundInfo H) (x : H) (witness : Bool) :
    (r.addCreatedEvent x witness).famousWitnesses = r.famousWitnesses := by
  unfold addCreatedEvent
  split
  · rfl
  · next hx =>
    rw [famousWitnesses, Map.keysWith_insert (AList.lookup_eq_none.1 hx), if_neg (by simp)]
    rfl

/-- Whether `x` is a witness with its fame decided. -/
def isDecided (r : RoundInfo H) (x : H) : Bool :=
  match r.createdEvents.lookup x with
  | some e => e.witness && e.famous != .undefined
  | none => false

end RoundInfo

/-! ## Pending rounds -/

/-- A round as it goes through consensus. -/
structure PendingRound where
  index : ℤ
  decided : Bool
deriving DecidableEq, Repr

/-- The pending rounds in increasing order. The source keeps the same entries in a map
as well. -/
abbrev PendingRounds := List PendingRound

namespace PendingRounds

/-- Whether a round is queued. -/
def queued (c : PendingRounds) (round : ℤ) : Bool :=
  c.any fun p => p.index = round

/-- Sort by index. -/
def sorted (c : PendingRounds) : PendingRounds :=
  c.insertionSort fun p q => p.index ≤ q.index

/-- Queue a round. -/
def set (c : PendingRounds) (p : PendingRound) : PendingRounds :=
  sorted (c ++ [p])

/-- Mark the decided rounds. -/
def update (c : PendingRounds) (decidedRounds : List ℤ) : PendingRounds :=
  c.map fun p => if p.index ∈ decidedRounds then { p with decided := true } else p

/-- Remove the processed rounds. -/
def clean (c : PendingRounds) (processedRounds : List ℤ) : PendingRounds :=
  sorted (c.filter fun p => p.index ∉ processedRounds)

theorem queued_iff {c : PendingRounds} {r : ℤ} : c.queued r = true ↔ r ∈ c.map PendingRound.index := by
  simp [queued]

/-- A list in increasing order is sorted. -/
theorem sorted_eq {c : PendingRounds} (hc : (c.map PendingRound.index).Pairwise (· < ·)) : c.sorted = c := by
  refine List.Pairwise.insertionSort_eq ?_
  rw [List.pairwise_map] at hc
  exact hc.imp fun h => h.le

/-- A round above all others is queued at the end. -/
theorem set_eq {c : PendingRounds} (hc : (c.map PendingRound.index).Pairwise (· < ·)) {p : PendingRound}
    (hp : ∀ j ∈ c.map PendingRound.index, j < p.index) : c.set p = c ++ [p] := by
  refine sorted_eq ?_
  rw [List.map_append, List.pairwise_append]
  exact ⟨hc, by simp, by simpa using hp⟩

end PendingRounds

/-! ## Median -/

/-- `common.Median` on 64-bit integers. -/
def median (input : List Int64) : Int64 :=
  let s := input.insertionSort fun a b => a.toInt ≤ b.toInt
  if s.length = 0 then 0
  else if s.length % 2 = 0 then
    (s.getD (s.length / 2 - 1) 0 + s.getD (s.length / 2 - 1 + 1) 0) / 2
  else s.getD (s.length / 2) 0

theorem median_eq_of_perm {l l' : List Int64} (h : l.Perm l') : median l = median l' := by
  have hs : l.insertionSort (fun a b => a.toInt ≤ b.toInt) =
      l'.insertionSort fun a b => a.toInt ≤ b.toInt := by
    have : Std.Total fun a b : Int64 => a.toInt ≤ b.toInt :=
      ⟨fun a b => Int.le_total a.toInt b.toInt⟩
    have : IsTrans Int64 fun a b => a.toInt ≤ b.toInt := ⟨fun _ _ _ => Int.le_trans⟩
    refine List.Perm.eq_of_pairwise ?_
      (List.pairwise_insertionSort _ l) (List.pairwise_insertionSort _ l') ?_
    · intro a b _ _ hab hba
      exact Int64.toInt_inj.1 (Int.le_antisymm hab hba)
    · exact (List.perm_insertionSort _ l).trans (h.trans (List.perm_insertionSort _ l').symm)
  unfold median
  rw [hs]

end Babble

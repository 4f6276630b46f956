import Babble.Exactness
import Babble.Runs

/-!
# Nodes that hold a part of one universe

A hashgraph is a `Replica` if its events are from a universe without forks and everything
that it has computed about them is what the event graph of the universe says : rounds,
witnesses, heights, sight and strong sight, and the fame of witnesses. A call keeps it so
(`Replica.feed`), whatever the order of insertions and of map visits.
-/

set_option linter.unusedSectionVars false

namespace Babble

variable {C H K : Type} [DecidableEq H] [DecidableEq K] [Hex H] [Hex K]

/-! ## Fame on record -/

/-- All fame on record satisfies `V`. -/
def FameIn (V : H → Bool → Prop) (rc : Map ℤ (RoundInfo H)) : Prop :=
  ∀ ⦃r info x e v⦄, rc.lookup r = some info → info.createdEvents.lookup x = some e →
    e.famous = Trilean.ofBool v → V x v

theorem Trilean.ofBool_ne_undefined (v : Bool) : Trilean.ofBool v ≠ .undefined := by
  cases v <;> exact fun h => by cases h

namespace FameIn

variable {V : H → Bool → Prop} {rc rc' : Map ℤ (RoundInfo H)} {S : Scheme H K} {R : Reading H K}
  {ps : ℤ → PeerSet K}

theorem mono {V' : H → Bool → Prop} (hf : FameIn V rc) (h : ∀ x v, V x v → V' x v) :
    FameIn V' rc :=
  fun _ _ _ _ _ hi he hv => h _ _ (hf hi he hv)

/-- A new event has no fame. -/
theorem of_newlyDivided {A : Assignment H} {h h' : Hashgraph H K} {x : H} {e : SignedEvent H K}
    {r t : ℤ} {w : Bool} (hf : FameIn V h.store.roundCache)
    (hn : Hashgraph.NewlyDivided S R ps A h x e r w t h') : FameIn V h'.store.roundCache := by
  intro j info y re v hi he hv
  -- an entry that was in round `r` before
  have hold : ∀ {y re}, ((h.store.roundCache.lookup r).getD {}).createdEvents.lookup y = some re →
      re.famous = Trilean.ofBool v → V y v := by
    intro y re hre hv
    cases hl : h.store.roundCache.lookup r with
    | none => rw [hl] at hre; cases hre
    | some info => rw [hl] at hre; exact hf hl hre hv
  rw [hn.rounds] at hi
  split_ifs at hi with hj
  · obtain rfl := Option.some.inj hi
    rw [RoundInfo.lookup_addCreatedEvent] at he
    split_ifs at he with hy
    · obtain rfl := Option.some.inj he
      cases hx : ((h.store.roundCache.lookup r).getD {}).createdEvents.lookup x with
      | none =>
        rw [hx] at hv
        exact absurd hv.symm (Trilean.ofBool_ne_undefined v)
      | some re =>
        rw [hx] at hv
        exact hy ▸ hold hx hv
    · exact hold he hv
  · exact hf hi he hv

/-- The fame pass records decisions. -/
theorem of_passed {st : InmemStore H K} {rs : List PendingRound} {dl : List ℤ}
    (hf : FameIn V rc) (hp : Hashgraph.Passed R ps st rs rc rc' dl)
    (hV : ∀ j ∈ rs.map PendingRound.index, ∀ x v, (∃ i, rc.lookup j = some i ∧ x ∈ i.witnesses) →
      Hashgraph.Decision R ps st j x v → V x v) : FameIn V rc' := by
  intro j info x e v hi he hv
  by_cases hj : j ∈ rs.map PendingRound.index
  · obtain ⟨i, i', hold, hjudged, hnew, -⟩ := hp.judged j hj
    obtain rfl := Option.some.inj (hnew.symm.trans hi)
    have hrel := hjudged.created x
    rw [show i'.createdEvents.lookup x = some e from he] at hrel
    generalize hre : i.createdEvents.lookup x = re at hrel
    cases hrel with
    | some hre' =>
      cases hre' with
      | same => exact hf hold hre hv
      | @set v' hv' =>
        obtain rfl : v' = v := by cases v' <;> cases v <;> first | rfl | cases hv
        exact hV j hj x v' ⟨i, hold, RoundInfo.mem_witnesses.2 ⟨_, hre, rfl⟩⟩ hv'
  · rw [hp.other j hj] at hi
    exact hf hi he hv

/-- The round-received pass does not touch fame. -/
theorem of_receiving {l : ℤ → List H} (hf : FameIn V rc)
    (hr : Hashgraph.RoundsReceiving ps l rc rc') : FameIn V rc' := by
  intro j info x e v hi he hv
  have hrel := hr j
  rw [hi] at hrel
  generalize hi₀ : rc.lookup j = o at hrel
  cases hrel with
  | some hrec => exact hf hi₀ (hrec.created ▸ he) hv

end FameIn

/-! ## New events -/

theorem Assignment.set_eq_self {A : Assignment H} {x : H} {r t : ℤ} {w : Bool}
    (hr : r = A.round x) (hw : w = A.witness x) (ht : t = A.lamport x) : A.set x r w t = A := by
  subst hr hw ht
  simp only [set, Function.update_eq_self]

variable {S : Scheme H K} {U : Universe S} {ps : ℤ → PeerSet K}
  {T : Window U.graph (keysAt ps)}

/-- A new event in the window, with parents whose rounds are complete. -/
structure Window.Admits (T : Window U.graph (keysAt ps)) (x : H) : Prop where
  inside : T.Inside x
  round : T.base ≤ U.graph.round (keysAt ps) x
  base : U.graph.parentValue (U.graph.round (keysAt ps)) x = -1 ∨
    T.base ≤ U.graph.parentValue (U.graph.round (keysAt ps)) x

theorem Window.whole_admits (x : H) : (Window.whole U.graph (keysAt ps)).Admits x := by
  refine ⟨trivial, EventGraph.round_nonneg _ _ x, ?_⟩
  by_cases h : U.graph.parentValue (U.graph.round (keysAt ps)) x = -1
  · exact Or.inl h
  · obtain ⟨p, -, hp⟩ := EventGraph.exists_parent_of_parentValue h
    exact Or.inr (hp ▸ EventGraph.round_nonneg _ _ p)

/-- The fame of `x` was decided by a witness in `D`, in a round that is not left to others. -/
def Window.Decided (T : Window U.graph (keysAt ps)) (D : H → Prop) (x : H) (v : Bool) : Prop :=
  T.low < U.graph.round (keysAt ps) x ∧ DecidedIn U.graph ps D x v

theorem Window.Decided.mono {D D' : H → Prop} {x : H} {v : Bool} (h : T.Decided D x v)
    (hD : ∀ y, D y → D' y) : T.Decided D' x v :=
  ⟨h.1, h.2.mono hD⟩

namespace Hashgraph

/-- The hashgraph holds a part of the universe, and what it computed is what the event
graph says. The rounds up to `q` are processed. -/
structure Replica (T : Window U.graph (keysAt ps)) (B : SignedEvent H K → Prop) (size n : ℕ)
    (q : ℤ) (h : Hashgraph H K) : Prop where
  wellFormed : h.WellFormed S (assignment U.graph ps) (· ∈ h.store.eventCache) q q
  stocked : h.Stocked S U.bodies B size n
  coordinates : Coordinates U.graph (U.graph.Witness (keysAt ps)) T.Inside h.store.eventCache
  coherent : h.memo.Coherent S (exactAnswer U.graph ps T)
  fame : FameIn (T.Decided (· ∈ h.store.eventCache)) h.store.roundCache
  low_le : T.low ≤ q

namespace Replica

variable {B : SignedEvent H K → Prop} {size n : ℕ} {q : ℤ} {h h₁ : Hashgraph H K}
  {event : SignedEvent H K}

theorem depicts (hr : Replica T B size n q h) (ins : Insertion S h event)
    (hb : event.body ∈ U.bodies) : Depicts U.graph (event.hex S) event :=
  hr.stocked.depicts hr.wellFormed.addressed hr.coordinates.toLineage ins hb

/-- The coordinates after an insertion. -/
theorem coordinates_insertion (hr : Replica T B size n q h) (ins : Insertion S h event)
    (hb : event.body ∈ U.bodies) (hnew : event.hex S ∉ h.store.eventCache)
    (hres : ins.Result (assignment U.graph ps).witness h₁) :
    Coordinates U.graph (U.graph.Witness (keysAt ps)) T.Inside h₁.store.eventCache := by
  have hdep := hr.depicts ins hb
  have harr : Coordinates.Arrives U.graph (U.graph.Witness (keysAt ps)) T.Inside
      h.store.eventCache (event.hex S) ins.ev (assignment U.graph ps).witness := by
    refine ⟨hr.stocked.arrives hr.wellFormed.addressed hr.coordinates.toLineage ins hb T.up hnew,
      hr.stocked.lookup_firstDescendants hr.wellFormed.addressed hr.coordinates.toLineage ins hb,
      fun y _ _ => ?_⟩
    classical exact decide_eq_true_iff
  obtain ⟨ti, sigs, rfl⟩ := hres
  have hmark := Coordinates.mark hr.coordinates T.up harr ins.perm
  rw [← hdep.creator, ← hdep.index, ← ins.eventCache_eq] at hmark
  exact hmark

/-- A new event gets its values in the graph. -/
theorem assignment_eq (hr : Replica T B size n q h) (ins : Insertion S h event)
    (hb : event.body ∈ U.bodies) (hnew : event.hex S ∉ h.store.eventCache)
    (hadm : T.Admits (event.hex S)) {h₂ : Hashgraph H K} {A' : Assignment H}
    (hres : ins.Result (assignment U.graph ps).witness h₁)
    (hd : DividedTo S (exactAnswer U.graph ps T) ps (· ∈ h.store.eventCache)
      (assignment U.graph ps) A' (event.hex S) event h₁ h₂) : A' = assignment U.graph ps := by
  rcases hd with ⟨hD, -⟩ | ⟨-, r, w, t, rfl, hn⟩
  · exact absurd hD hnew
  have hdep := hr.depicts ins hb
  have hround : r = U.graph.round (keysAt ps) (event.hex S) := by
    have hro := hn.roundOf
    rw [(hr.wellFormed.of_insertion hres).divided.witnessAt_eq] at hro
    change RoundOf _ _ _ _ (parentValue (U.graph.round (keysAt ps)) _ _) r at hro
    rw [hdep.parentValue_eq] at hro
    refine hro.eq_round hr.coordinates.windowClosed hnew (fun y hy hT => ?_) hadm.base
    refine hr.coordinates.mem_of_sAnc T.up ?_ hy hT
    obtain ⟨hsp, hop⟩ := ins.parents_mem hr.wellFormed.items
    rintro p (hp | hp) -
    · exact hsp p (hdep.selfParent.trans hp)
    · exact hop p (hdep.otherParent.trans hp)
  refine Assignment.set_eq_self hround ?_ ?_
  · rw [hn.witness_eq]
    refine decide_eq_decide.2 ?_
    change event.creator ∈ (ps r).byPubKey ∧
      selfValue (U.graph.round (keysAt ps)) event.body.selfParent < r ↔
        U.graph.creator (event.hex S) ∈
          keysAt ps (U.graph.round (keysAt ps) (event.hex S)) ∧
        U.graph.selfValue (U.graph.round (keysAt ps)) (event.hex S) <
          U.graph.round (keysAt ps) (event.hex S)
    rw [hdep.selfValue_eq, hdep.creator, ← hround, keysAt, PeerSet.mem_pubKeys, PeerSet.mem_byPubKey]
  · rcases hn.lamport_eq with ht | ht
    · exact ht
    · rw [ht]
      change parentValue U.graph.height _ _ + 1 = U.graph.height (event.hex S)
      rw [hdep.parentValue_eq, ← EventGraph.height_eq]

end Replica

end Hashgraph

/-! ## Calls -/

namespace Session

open Hashgraph

variable {rt : Runtime} {cb : CommitCallback C H K} {B : SignedEvent H K → Prop} {size n : ℕ}
  {q : ℤ} {s s' : Session C H K} {i : Input H K}

section Call

variable (hcb : Hosting cb) (hr : s.hg.Replica T B size n q)
  (c : Call S rt cb (exactAnswer U.graph ps T) ps (assignment U.graph ps) q s i s')
  (hb : i.event.body ∈ U.bodies) (hadm : T.Admits (i.event.hex S)) (hn : n < size)
  (hB : ∀ e : SignedEvent H K, e.body.selfParent = none → e.body.index = 0 → B e)

include hcb hr hb hadm hn hB

theorem Call.assignment_eq : c.A' = assignment U.graph ps :=
  hr.assignment_eq c.ins hb (c.stocked hcb hr.wellFormed hr.stocked U.indexed hb hn hB).1 hadm
    c.result c.consensus.divided

theorem Call.coordinates₁ : Coordinates U.graph (U.graph.Witness (keysAt ps)) T.Inside
    c.h₁.store.eventCache :=
  hr.coordinates_insertion c.ins hb
    (c.stocked hcb hr.wellFormed hr.stocked U.indexed hb hn hB).1 c.result

/-- The fame that the passes record was decided by stored witnesses. -/
theorem Call.fame : FameIn (T.Decided (· ∈ c.h₁.store.eventCache)) c.h₃.store.roundCache ∧
    FameIn (T.Decided (· ∈ c.h₁.store.eventCache)) c.h₄.store.roundCache := by
  obtain ⟨hnew, -⟩ := c.stocked hcb hr.wellFormed hr.stocked U.indexed hb hn hB
  have hclosed := (c.coordinates₁ hcb hr hb hadm hn hB).windowClosed
  obtain ⟨-, -, hw₂, -, -⟩ := c.wellFormed_passes hr.wellFormed
  rw [c.assignment_eq hcb hr hb hadm hn hB] at hw₂
  have hf₁ : FameIn (T.Decided (· ∈ c.h₁.store.eventCache)) c.h₁.store.roundCache := by
    have hrc : c.h₁.store.roundCache = s.hg.store.roundCache := by
      obtain ⟨pec, hst, -⟩ := setEvent_eq c.ins.setEvent
      obtain ⟨ti, sigs, he⟩ := c.result
      rw [he, hst]
    rw [hrc]
    exact hr.fame.mono fun x v hv => hv.mono fun y hy => c.mem_iff₁.2 (Or.inr hy)
  have hf₂ : FameIn (T.Decided (· ∈ c.h₁.store.eventCache)) c.h₂.store.roundCache := by
    rcases c.consensus.divided with ⟨hD, -⟩ | ⟨-, r, w, t, -, hnd⟩
    exacts [absurd hD hnew, hf₁.of_newlyDivided hnd]
  have hf₃ : FameIn (T.Decided (· ∈ c.h₁.store.eventCache)) c.h₃.store.roundCache := by
    obtain ⟨rc, m, dl, he, -, hp⟩ := c.consensus.judged
    rw [he]
    refine hf₂.of_passed hp fun j hj x v hx hdec => ?_
    have hlt : T.low < j := hr.low_le.trans_lt ((hw₂.pending j).1 hj).1
    have hxj : WitnessesIn U.graph ps (· ∈ c.h₁.store.eventCache) j x := by
      rw [← hw₂.divided.witnessAt_eq]
      exact hx
    refine ⟨hxj.2.1 ▸ hlt, hdec.decidedIn hclosed hw₂.divided (T.base_le.trans (by omega)) hxj⟩
  obtain ⟨ec, rc, m, l, rest, he, hrec, -⟩ := c.consensus.received
  refine ⟨hf₃, ?_⟩
  rw [he]
  exact hf₃.of_receiving hrec.rounds

/-- A call keeps a replica. -/
theorem Call.replica : s'.hg.Replica T B size (n + 1) c.n := by
  have hund := hcb.undisturbing
  have hc₁ := c.coordinates₁ hcb hr hb hadm hn hB
  obtain ⟨hec, hrc, -, -, tick, hmemo⟩ := c.sameGraph hund
  refine ⟨?_, (c.stocked hcb hr.wellFormed hr.stocked U.indexed hb hn hB).2, ?_, ?_, ?_, ?_⟩
  · have hw := c.wellFormed
    rwa [c.assignment_eq hcb hr hb hadm hn hB] at hw
  · rw [hec]
    exact hc₁.of_like c.consensus.events
  · obtain ⟨ec, rc, m, l, rest, he, hrec, -⟩ := c.consensus.received
    rw [hmemo, he]
    exact ⟨hrec.memo.coherent.ancestor, hrec.memo.coherent.stronglySee⟩
  · rw [hrc, hec]
    refine (c.fame hcb hr hb hadm hn hB).2.mono fun x v hv => hv.mono fun y hy => ?_
    exact c.consensus.events.mem_iff.2 hy
  · exact hr.low_le.trans c.processed.le

end Call

/-- The session of a replica is sound. -/
theorem sound_of_replica (hr : s.hg.Replica T B size n q)
    (hlcr : s.hg.lastConsensusRound.getD (-1) = q) : Sound S q s :=
  ⟨⟨_, hr.wellFormed⟩, hlcr⟩

/-- A call on a replica is rejected, or it is a `Call` for the answers of the graph. -/
theorem replica_cases (rt : Runtime) (hcb : Hosting cb) (hps : HashesKeys S ps)
    (hr : s.hg.Replica T B size n q)
    (hpeers : ∀ j, j ≤ s.hg.store.lastRound + 1 → s.hg.store.getPeerSet j = .ok (ps j))
    (hb : Accepts S rt s.hg i → i.event.body ∈ U.bodies) (hn : n < size)
    (hB : ∀ e : SignedEvent H K, e.body.selfParent = none → e.body.index = 0 → B e) :
    (∃ ti, feed S rt cb s i = { s with hg := { s.hg with topologicalIndex := ti } }) ∨
      Accepts S rt s.hg i ∧ Nonempty (Call S rt cb (exactAnswer U.graph ps T) ps
        (assignment U.graph ps) q s i (feed S rt cb s i)) := by
  refine accepts_cases rt hcb.undisturbing hr.wellFormed hr.coherent hpeers (fun j => ⟨j, rfl⟩) ?_
  intro hacc ins h₁ hres
  have hnew := (hr.stocked.insertion hr.wellFormed.addressed ins U.indexed (hb hacc) hn hB).1
  exact (hr.coordinates_insertion ins (hb hacc) hnew hres).holds S hps

end Session

end Babble

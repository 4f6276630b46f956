import Babble.Consistency

/-!
# Strong sight and paths

`stronglySee y w` is meant to say that events by more than two thirds of the peers lie on
paths from `y` to `w` (`EventGraph.Joined`). It compares coordinates, and the first
descendants among them are recorded only down to the nearest witness of a creator. So a
peer counts only if it has an event between `y` and `w` that does not descend from a later
witness by the creator of `w`.

For rounds this makes no difference (`EventGraph.round_eq_defined`), but votes on fame ask
about witnesses of the round before the one of `y`, and `y` may descend from the next
witness of the same creator. `StaticRun.stronglySee_eq_joined_iff` says when the answer is
the intended one.
-/

set_option linter.unusedSectionVars false

namespace Babble

variable {C H K : Type} [DecidableEq H] [DecidableEq K] [Hex H] [Hex K]

variable {S : Scheme H K} {U : Universe S} {P : PeerSet K} {x y z w : H}

namespace StaticRun

/-- Strong sight is answered for all stored events, with truncated first descendants. -/
theorem returns_stronglySee (d : StaticRun C U P) (hy : y ∈ d.session.hg.store.eventCache)
    (hw : w ∈ d.session.hg.store.eventCache) :
    Exec.Returns (Query.stronglySee S d.session.hg.store y w P) d.session.hg.memo fun b _ =>
      (b = true ↔ U.graph.Sees (fun _ => P.pubKeys) P.pubKeys y w) := by
  obtain ⟨q, -, hr, -⟩ := d.settled
  have hholds := hr.coordinates.holds S (hashesKeys S P)
  exact (Query.returns_stronglySee hholds ⟨0, rfl⟩ hy hw
    ⟨hr.coherent, .refl d.session.hg.memo⟩).mono fun b m hb => hb.2 trivial

/-- Sight between stored events is ancestry. -/
theorem sees_iff_anc (d : StaticRun C U P) (hx : x ∈ d.session.hg.store.eventCache)
    (hy : y ∈ d.session.hg.store.eventCache) :
    d.session.hg.store.sees x y = true ↔ U.graph.Anc x y := by
  obtain ⟨q, -, hr, -⟩ := d.settled
  exact hr.coordinates.sees_iff hx hy trivial

/-- The answer to `stronglySee` is the one by paths exactly if, where more than two thirds
of the peers have an event between `y` and `w`, so many have one that does not descend from
a later witness by the creator of `w`. It is enough that `y` itself does not descend from
such a witness. -/
theorem stronglySee_eq_joined_iff (d : StaticRun C U P)
    (hy : y ∈ d.session.hg.store.eventCache) (hw : w ∈ d.session.hg.store.eventCache) :
    ∃ b, (Exec.exec (Query.stronglySee S d.session.hg.store y w P) d.session.hg.memo).1 = .ok b ∧
      ((b = true ↔ U.graph.Joined P.pubKeys y w) ↔
        (U.graph.Joined P.pubKeys y w →
          EventGraph.quorum P.pubKeys ≤ U.graph.count P.pubKeys fun z =>
            U.graph.Anc y z ∧ U.graph.Anc z w ∧ U.graph.Clear (fun _ => P.pubKeys) w z)) ∧
      (¬U.graph.Overtaken (fun _ => P.pubKeys) y w →
        (b = true ↔ U.graph.Joined P.pubKeys y w)) := by
  obtain ⟨b, m, he, hb⟩ := d.returns_stronglySee hy hw
  refine ⟨b, by rw [he], ?_, fun hov =>
    hb.trans (EventGraph.sees_iff_joined_of_not_overtaken hov)⟩
  -- what is counted lies between `y` and `w`, so only the other direction can fail
  have hjoined : U.graph.Sees (fun _ => P.pubKeys) P.pubKeys y w → U.graph.Joined P.pubKeys y w :=
    fun h => h.trans (EventGraph.count_mono fun z _ hz => ⟨hz.1, hz.2.anc⟩)
  rw [← EventGraph.sees_iff_count, hb]
  exact ⟨fun h => h.2, fun h => ⟨hjoined, h⟩⟩

/-- All peers have a stored event between `y` and `w`. -/
theorem joined_of_sees (d : StaticRun C U P) (hy : y ∈ d.session.hg.store.eventCache)
    (hw : w ∈ d.session.hg.store.eventCache) (hP : P.pubKeys.Nonempty)
    (h : ∀ k ∈ P.pubKeys, ∃ z e, d.session.hg.store.eventCache.lookup z = some e ∧
      e.creator = k ∧ d.session.hg.store.sees y z = true ∧
      d.session.hg.store.sees z w = true) : U.graph.Joined P.pubKeys y w := by
  obtain ⟨q, -, hr, -⟩ := d.settled
  have hall : U.graph.count P.pubKeys (fun z => U.graph.Anc y z ∧ U.graph.Anc z w) =
      P.pubKeys.card := by
    classical
    refine congrArg Finset.card (Finset.filter_true_of_mem fun k hk => ?_)
    obtain ⟨z, e, he, rfl, hyz, hzw⟩ := h k hk
    have hdep := hr.coordinates.event he
    have hz := Map.mem_iff_lookup.2 ⟨e, he⟩
    exact ⟨z, hdep.mem, hdep.creator.symm, (d.sees_iff_anc hy hz).1 hyz,
      (d.sees_iff_anc hz hw).1 hzw⟩
  unfold EventGraph.Joined EventGraph.quorum
  have := hP.card_pos
  omega

end StaticRun

namespace Sample

/-- The third validator reaches round 1 before the others hear of its first event, and the
fourth comes last. -/
def overtaking : List (SignedEvent Bytes Bytes) :=
  [event 0 1 0 none none [], event 1 2 0 none none [], event 2 3 0 none none [],
    event 3 4 0 none none [], event 4 1 1 (some 0) (some 3) [], event 5 2 1 (some 1) (some 4) [],
    event 6 1 2 (some 4) (some 5) [], event 7 3 1 (some 2) (some 6) [],
    event 8 1 3 (some 6) (some 7) [], event 9 2 2 (some 5) (some 8) [],
    event 10 4 1 (some 3) (some 9) []]

/-- These events. -/
def overtaken : Universe scheme :=
  .ofList scheme (overtaking.map SignedEvent.body) (by decide +kernel)
    (by decide +kernel) (by decide +kernel) (by decide +kernel)

/-- A node with these events. -/
def overtakenNode : StaticRun Unit overtaken four :=
  nodeWith four overtaking (fun _ he => List.mem_map_of_mem he) (by decide)

/-- Events between `[10]` and `[2]`, one of each validator. -/
def between (k : Bytes) : Bytes :=
  match k with
  | [1] => [8]
  | [2] => [9]
  | [3] => [2]
  | _ => [10]

/-- All validators have an event between the last event and the first of the third
validator, and the last event does not strongly see the other. -/
theorem strong_sight_missed :
    (Exec.exec (Query.round scheme overtakenNode.rt overtakenNode.session.hg.store [10])
        overtakenNode.session.hg.memo).1 = .ok 1 ∧
      (Exec.exec (Query.witness scheme overtakenNode.rt overtakenNode.session.hg.store [10])
        overtakenNode.session.hg.memo).1 = .ok true ∧
      (Exec.exec (Query.round scheme overtakenNode.rt overtakenNode.session.hg.store [2])
        overtakenNode.session.hg.memo).1 = .ok 0 ∧
      (Exec.exec (Query.witness scheme overtakenNode.rt overtakenNode.session.hg.store [2])
        overtakenNode.session.hg.memo).1 = .ok true ∧
      overtaken.graph.Joined four.pubKeys [10] [2] ∧
      (Exec.exec (Query.stronglySee scheme overtakenNode.session.hg.store [10] [2] four)
        overtakenNode.session.hg.memo).1 = .ok false := by
  have hy : [10] ∈ overtakenNode.session.hg.store.eventCache := by decide +kernel
  have hw : [2] ∈ overtakenNode.session.hg.store.eventCache := by decide +kernel
  have hall : ∀ k ∈ four.byPubKey.keys,
      (overtakenNode.session.hg.store.eventCache.lookup (between k)).map
          (fun e => e.creator) = some k ∧
        overtakenNode.session.hg.store.sees [10] (between k) = true ∧
        overtakenNode.session.hg.store.sees (between k) [2] = true := by decide +kernel
  refine ⟨by decide +kernel, by decide +kernel, by decide +kernel, by decide +kernel,
    overtakenNode.joined_of_sees hy hw (by decide +kernel) fun k hk => ?_, by decide +kernel⟩
  obtain ⟨hz, h1, h2⟩ := hall k (List.mem_toFinset.1 hk)
  obtain ⟨e, he, hek⟩ := Option.map_eq_some_iff.1 hz
  exact ⟨between k, e, he, hek, h1, h2⟩

/-- The fourth validator's first event is an ancestor of events by three validators. -/
theorem strong_sight_found : [7] ∈ overtakenNode.session.hg.store.eventCache ∧
    [3] ∈ overtakenNode.session.hg.store.eventCache ∧
    ∃ b, (Exec.exec (Query.stronglySee scheme overtakenNode.session.hg.store [7] [3] four)
        overtakenNode.session.hg.memo).1 = .ok b ∧
      ((b = true ↔ overtaken.graph.Joined four.pubKeys [7] [3]) ↔
        (overtaken.graph.Joined four.pubKeys [7] [3] →
          EventGraph.quorum four.pubKeys ≤ overtaken.graph.count four.pubKeys fun z =>
            overtaken.graph.Anc [7] z ∧ overtaken.graph.Anc z [3] ∧
              overtaken.graph.Clear (fun _ => four.pubKeys) [3] z)) ∧
      (¬overtaken.graph.Overtaken (fun _ => four.pubKeys) [7] [3] →
        (b = true ↔ overtaken.graph.Joined four.pubKeys [7] [3])) := by
  have hy : [7] ∈ overtakenNode.session.hg.store.eventCache := by decide +kernel
  have hw : [3] ∈ overtakenNode.session.hg.store.eventCache := by decide +kernel
  exact ⟨hy, hw, overtakenNode.stronglySee_eq_joined_iff hy hw⟩

end Sample

end Babble

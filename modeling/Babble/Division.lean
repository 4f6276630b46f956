import Babble.Insertion

/-!
# The division into rounds

`divideRounds` finds one event without a round : the one just inserted. Its parents went
through the division before, so their rounds and timestamps come from the caches, and the
event gets a round from the witnesses it strongly sees among those recorded (`RoundOf`).

`Divided A D h` says that the events with `D` are divided and no others : the caches and
the recorded rounds agree on the assignment `A` of rounds, witnesses and timestamps.
-/

set_option linter.unusedSectionVars false

namespace Babble

variable {H K : Type} [DecidableEq H] [DecidableEq K] [Hex H] [Hex K]

/-- Rounds, witness flags and Lamport timestamps of events. -/
structure Assignment (H : Type) where
  round : H → ℤ
  witness : H → Bool
  lamport : H → ℤ

/-- The assignment with other values for `x`. -/
def Assignment.set (A : Assignment H) (x : H) (r : ℤ) (w : Bool) (t : ℤ) : Assignment H :=
  ⟨Function.update A.round x r, Function.update A.witness x w, Function.update A.lamport x t⟩

namespace Assignment

variable {A : Assignment H} {x y : H} {r t : ℤ} {w : Bool}

@[simp] theorem round_set_self : (A.set x r w t).round x = r := Function.update_self ..

@[simp] theorem witness_set_self : (A.set x r w t).witness x = w := Function.update_self ..

@[simp] theorem lamport_set_self : (A.set x r w t).lamport x = t := Function.update_self ..

theorem round_set_of_ne (h : y ≠ x) : (A.set x r w t).round y = A.round y :=
  Function.update_of_ne h ..

theorem witness_set_of_ne (h : y ≠ x) : (A.set x r w t).witness y = A.witness y :=
  Function.update_of_ne h ..

theorem lamport_set_of_ne (h : y ≠ x) : (A.set x r w t).lamport y = A.lamport y :=
  Function.update_of_ne h ..

end Assignment

/-- The value of an optional parent, `-1` without one. -/
def selfValue (f : H → ℤ) (selfParent : Option H) : ℤ :=
  selfParent.elim (-1) f

/-- The highest value of two optional parents, `-1` without any. -/
def parentValue (f : H → ℤ) (selfParent otherParent : Option H) : ℤ :=
  otherParent.elim (selfValue f selfParent) fun p => max (selfValue f selfParent) (f p)

/-- The round of `x` under the highest round `p` of its parents : one more if `x` strongly
sees enough of the witnesses with `W`. -/
def RoundOf (R : Reading H K) (ps : ℤ → PeerSet K) (W : ℤ → H → Prop) (x : H) (p r : ℤ) : Prop :=
  (p = -1 ∧ r = 0) ∨
    (p ≠ -1 ∧ ∃ l, R.Poll (ps p) (W p) x l ∧
      r = if (ps p).superMajority ≤ l.length then p + 1 else p)

/-- The round of a new event is the parents' or the next, and is not above the one that
follows the last. -/
theorem RoundOf.le {R : Reading H K} {ps : ℤ → PeerSet K} {W : ℤ → H → Prop} {x : H} {p r last : ℤ} (h : RoundOf R ps W x p r)
    (hp : p ≤ last) (hlast : -1 ≤ last) : r ≤ last + 1 := by
  rcases h with ⟨-, rfl⟩ | ⟨-, l, -, rfl⟩
  · omega
  · split_ifs <;> omega

namespace Query

variable {S : Scheme H K} {rt : Runtime} {R : Reading H K} {st : InmemStore H K}
  {m m₀ : Memo H}

theorem returns_selfParentValue {f : H → Query H ℤ} {v : H → ℤ} {sp : Option H}
    (hf : ∀ p, sp = some p → ∀ Q : ℤ → Memo H → Prop, Q (v p) m → Exec.Returns (f p) m Q)
    {Q : ℤ → Memo H → Prop} (hQ : Q (selfValue v sp) m) :
    Exec.Returns (selfParentValue f sp) m Q := by
  cases sp with
  | none => exact Exec.returns_pure hQ
  | some p => exact hf p rfl Q hQ

theorem returns_raiseTo {f : H → Query H ℤ} {v : H → ℤ} {sp op : Option H}
    (hf : ∀ p, op = some p → ∀ Q : ℤ → Memo H → Prop, Q (v p) m → Exec.Returns (f p) m Q)
    {Q : ℤ → Memo H → Prop} (hQ : Q (parentValue v sp op) m) :
    Exec.Returns (raiseTo f (selfValue v sp) op) m Q := by
  cases op with
  | none => exact Exec.returns_pure hQ
  | some p =>
    refine Exec.Returns.bind (hf p rfl _ (Exec.returns_pure ?_))
    rw [← max_def_lt]
    exact hQ

theorem returns_roundRec_of_cached {x : H} {r : ℤ} (hr : m.roundCache.lookup x = some r)
    {n : ℕ} (hn : n ≠ 0) {Q : ℤ → Memo H → Prop} (hQ : Q r m) :
    Exec.Returns (roundRec S rt st n x) m Q := by
  obtain ⟨n, rfl⟩ := Nat.exists_eq_succ_of_ne_zero hn
  exact returns_cached_of_hit hr hQ

theorem returns_lamportRec_of_cached {x : H} {t : ℤ} (ht : m.timestampCache.lookup x = some t)
    {n : ℕ} (hn : n ≠ 0) {Q : ℤ → Memo H → Prop} (hQ : Q t m) :
    Exec.Returns (lamportTimestampRec st n x) m Q := by
  obtain ⟨n, rfl⟩ := Nat.exists_eq_succ_of_ne_zero hn
  exact returns_cached_of_hit ht hQ

theorem keys_length_ne_zero {x : H} (hx : x ∈ st.eventCache) : st.eventCache.keys.length ≠ 0 := by
  intro h
  rw [List.length_eq_zero_iff] at h
  rw [AList.mem_keys, h] at hx
  cases hx

/-- The round of an event, from the cached rounds of its parents or from the cache. -/
theorem returns_round (hR : R.Holds S st) {ps : ℤ → PeerSet K} (hin : ∀ j, R.Peers (ps j))
    {x : H} {e : Event H K} (he : st.eventCache.lookup x = some e) {ρ : H → ℤ}
    (hsp : ∀ p, e.body.selfParent = some p → m.roundCache.lookup p = some (ρ p))
    (hop : ∀ p, e.body.otherParent = some p → m.roundCache.lookup p = some (ρ p))
    (hround : parentValue ρ e.body.selfParent e.body.otherParent ≠ -1 →
      parentValue ρ e.body.selfParent e.body.otherParent ∈ st.roundCache ∧
      st.getPeerSet (parentValue ρ e.body.selfParent e.body.otherParent) =
        .ok (ps (parentValue ρ e.body.selfParent e.body.otherParent)))
    (hW : ∀ j w, st.WitnessAt j w → w ∈ st.eventCache) (hm : m.Coherent S R) :
    Exec.Returns (round S rt st x) m fun r m' =>
      (m.roundCache.lookup x = some r ∨ (m.roundCache.lookup x = none ∧
        RoundOf R ps st.WitnessAt x (parentValue ρ e.body.selfParent e.body.otherParent) r)) ∧
      m'.Coherent S R ∧ (∀ y, m'.roundCache.lookup y = if y = x then some r else
        m.roundCache.lookup y) ∧
      m'.witnessCache = m.witnessCache ∧ m'.timestampCache = m.timestampCache := by
  have hxs : x ∈ st.eventCache := Map.mem_iff_lookup.2 ⟨e, he⟩
  have hn := keys_length_ne_zero hxs
  refine returns_cached (fun a ha => ?_) fun hnone => ?_
  · refine ⟨Or.inl ha, hm, fun y => ?_, rfl, rfl⟩
    split_ifs with hy
    exacts [hy ▸ ha, rfl]
  refine Exec.Returns.bind (Exec.returns_ofExcept (a := e) (by simp [InmemStore.getEvent, he]) ?_)
  refine Exec.Returns.bind (returns_selfParentValue (v := ρ)
    (fun p hp Q hQ => returns_roundRec_of_cached (hsp p hp) hn hQ) ?_)
  refine Exec.Returns.bind (returns_raiseTo (v := ρ)
    (fun p hp Q hQ => returns_roundRec_of_cached (hop p hp) hn hQ) ?_)
  split_ifs with hpv
  · exact Exec.returns_pure ⟨Or.inr ⟨hnone, Or.inl ⟨hpv, rfl⟩⟩, ⟨hm.ancestor, hm.stronglySee⟩,
      fun y => Map.lookup_insert_ite _ _ _ _, rfl, rfl⟩
  · obtain ⟨hmem, hpeers⟩ := hround hpv
    revert hpv hmem hpeers
    generalize parentValue ρ e.body.selfParent e.body.otherParent = p
    intro hpv hmem hpeers
    obtain ⟨info, hinfo⟩ := Map.mem_iff_lookup.1 hmem
    refine Exec.Returns.bind (Exec.returns_ofExcept (a := info)
      (by simp [InmemStore.getRound, hinfo]) ?_)
    refine Exec.Returns.bind (Exec.returns_ofExcept hpeers ?_)
    refine Exec.Returns.bind (returns_visit ?_)
    have hwit : ∀ w, w ∈ rt.order m.tick info.witnesses ↔ st.WitnessAt p w := by
      intro w
      rw [rt.mem_order]
      constructor
      · exact fun hw => ⟨info, hinfo, hw⟩
      · rintro ⟨info', hinfo', hw⟩
        rw [hinfo] at hinfo'
        obtain rfl := Option.some.inj hinfo'
        exact hw
    have hnd : (rt.order m.tick info.witnesses).Nodup :=
      (rt.order_perm _ _).nodup_iff.2 (Map.nodup_keysWith _ _)
    have hm' : m.Extends S R { m with tick := m.tick + 1 } := Memo.Extends.tick ⟨hm, .refl _⟩ _
    refine Exec.Returns.bind ((returns_poll (P := ps p) hR (hin p) hxs hnd hwit (hW p) hm').mono ?_)
    rintro l m' ⟨hm', hpoll⟩
    refine Exec.returns_pure ⟨Or.inr ⟨hnone, Or.inr ⟨hpv, l, hpoll, rfl⟩⟩,
      ⟨hm'.coherent.ancestor, hm'.coherent.stronglySee⟩, fun y => ?_, hm'.same.witness,
      hm'.same.timestamp⟩
    rw [← hm'.same.round]
    exact Map.lookup_insert_ite _ _ _ _

/-- The witness flag of an event, from the cached rounds or from the cache. -/
theorem returns_witness {x : H} {e : Event H K} {P : PeerSet K} {ρ : H → ℤ} {r : ℤ}
    (he : st.eventCache.lookup x = some e) (hr : m.roundCache.lookup x = some r)
    (hsp : ∀ p, e.body.selfParent = some p → m.roundCache.lookup p = some (ρ p))
    (hpeers : st.getPeerSet r = .ok P) (hm : m.Coherent S R) :
    Exec.Returns (witness S rt st x) m fun w m' =>
      (m.witnessCache.lookup x = some w ∨ (m.witnessCache.lookup x = none ∧
        w = decide (e.creator ∈ P.byPubKey ∧ selfValue ρ e.body.selfParent < r))) ∧
      m'.Coherent S R ∧ (∀ y, m'.witnessCache.lookup y = if y = x then some w else
        m.witnessCache.lookup y) ∧
      m'.roundCache = m.roundCache ∧ m'.timestampCache = m.timestampCache := by
  refine returns_cached (fun a ha => ?_) fun hnone => ?_
  · refine ⟨Or.inl ha, hm, fun y => ?_, rfl, rfl⟩
    split_ifs with hy
    exacts [hy ▸ ha, rfl]
  refine Exec.Returns.bind (Exec.returns_ofExcept (a := e) (by simp [InmemStore.getEvent, he]) ?_)
  refine Exec.Returns.bind (returns_round_of_cached hr ?_)
  refine Exec.Returns.bind (Exec.returns_ofExcept hpeers ?_)
  split_ifs with hcr
  · refine Exec.Returns.bind (returns_selfParentValue (v := ρ)
      (fun p hp Q hQ => returns_round_of_cached (hsp p hp) hQ) (Exec.returns_pure ?_))
    exact ⟨Or.inr ⟨hnone, by simp [hcr]⟩, ⟨hm.ancestor, hm.stronglySee⟩,
      fun y => Map.lookup_insert_ite _ _ _ _, rfl, rfl⟩
  · exact Exec.returns_pure ⟨Or.inr ⟨hnone, by simp [hcr]⟩, ⟨hm.ancestor, hm.stronglySee⟩,
      fun y => Map.lookup_insert_ite _ _ _ _, rfl, rfl⟩

/-- The Lamport timestamp of an event, from those of its parents or from the cache. -/
theorem returns_lamportTimestamp {x : H} {e : Event H K} {t : H → ℤ}
    (he : st.eventCache.lookup x = some e)
    (hsp : ∀ p, e.body.selfParent = some p → m.timestampCache.lookup p = some (t p))
    (hop : ∀ p, e.body.otherParent = some p → p ∈ st.eventCache ∧
      m.timestampCache.lookup p = some (t p)) (hm : m.Coherent S R) :
    Exec.Returns (lamportTimestamp st x) m fun a m' =>
      (m.timestampCache.lookup x = some a ∨ (m.timestampCache.lookup x = none ∧
        a = parentValue t e.body.selfParent e.body.otherParent + 1)) ∧
      m'.Coherent S R ∧ (∀ y, m'.timestampCache.lookup y = if y = x then some a else
        m.timestampCache.lookup y) ∧
      m'.roundCache = m.roundCache ∧ m'.witnessCache = m.witnessCache := by
  have hn := keys_length_ne_zero (Map.mem_iff_lookup.2 ⟨e, he⟩)
  refine returns_cached (fun a ha => ?_) fun hnone => ?_
  · refine ⟨Or.inl ha, hm, fun y => ?_, rfl, rfl⟩
    split_ifs with hy
    exacts [hy ▸ ha, rfl]
  refine Exec.Returns.bind (Exec.returns_ofExcept (a := e) (by simp [InmemStore.getEvent, he]) ?_)
  refine Exec.Returns.bind (returns_selfParentValue (v := t)
    (fun p hp Q hQ => returns_lamportRec_of_cached (hsp p hp) hn hQ) ?_)
  refine Exec.Returns.bind (returns_raiseTo (v := t) (fun p hp Q hQ => ?_) (Exec.returns_pure ?_))
  · obtain ⟨hmem, ht⟩ := hop p hp
    obtain ⟨ep, hep, -⟩ := getEvent_of_mem hmem
    simp only [hep]
    exact returns_lamportRec_of_cached ht hn hQ
  · exact ⟨Or.inr ⟨hnone, rfl⟩, ⟨hm.ancestor, hm.stronglySee⟩,
      fun y => Map.lookup_insert_ite _ _ _ _, rfl, rfl⟩

end Query

/-! ## The pass -/

namespace Hashgraph

/-- The events with `D`, and no others, are divided, as `A` says. The cache of timestamps
survives a reset and may know other events. -/
structure Divided (A : Assignment H) (D : H → Prop) (h : Hashgraph H K) : Prop where
  stored : ∀ x, D x → x ∈ h.store.eventCache
  round : ∀ x, D x → h.memo.roundCache.lookup x = some (A.round x)
  round_none : ∀ x, ¬D x → h.memo.roundCache.lookup x = none
  witness : ∀ x, D x → h.memo.witnessCache.lookup x = some (A.witness x)
  witness_none : ∀ x, ¬D x → h.memo.witnessCache.lookup x = none
  lamport : ∀ x, D x → h.memo.timestampCache.lookup x = some (A.lamport x)
  lamport_cached : ∀ x t, h.memo.timestampCache.lookup x = some t → t = A.lamport x
  created : ∀ r info x e, h.store.roundCache.lookup r = some info →
    info.createdEvents.lookup x = some e → D x ∧ A.round x = r ∧ e.witness = A.witness x
  recorded : ∀ x, D x → ∃ info e, h.store.roundCache.lookup (A.round x) = some info ∧
    info.createdEvents.lookup x = some e
  le_last : ∀ r, r ∈ h.store.roundCache → r ≤ h.store.lastRound

variable {S : Scheme H K} {rt : Runtime} {R : Reading H K} {ps : ℤ → PeerSet K}
  {A : Assignment H} {D : H → Prop} {h h' : Hashgraph H K}

theorem Divided.witnessAt_iff (hd : Divided A D h) {j : ℤ} {w : H} :
    h.store.WitnessAt j w ↔ D w ∧ A.round w = j ∧ A.witness w = true := by
  constructor
  · rintro ⟨info, hi, hw⟩
    obtain ⟨e, he, hwe⟩ := RoundInfo.mem_witnesses.1 hw
    obtain ⟨hD, hr, hwit⟩ := hd.created j info w e hi he
    exact ⟨hD, hr, hwit ▸ hwe⟩
  · rintro ⟨hD, rfl, hwit⟩
    obtain ⟨info, e, hi, he⟩ := hd.recorded w hD
    obtain ⟨-, -, hwe⟩ := hd.created _ info w e hi he
    exact ⟨info, hi, RoundInfo.mem_witnesses.2 ⟨e, he, hwe.trans hwit⟩⟩

theorem Divided.mem_rounds (hd : Divided A D h) {x : H} (hx : D x) :
    A.round x ∈ h.store.roundCache := by
  obtain ⟨info, -, hi, -⟩ := hd.recorded x hx
  exact Map.mem_iff_lookup.2 ⟨info, hi⟩

theorem Divided.round_le (hd : Divided A D h) {x : H} (hx : D x) :
    A.round x ≤ h.store.lastRound :=
  hd.le_last _ (hd.mem_rounds hx)

theorem getOrNewRound_eq (st : InmemStore H K) (r : ℤ) :
    getOrNewRound st r = .ok ((st.roundCache.lookup r).getD {}) := by
  unfold getOrNewRound InmemStore.getRound
  cases st.roundCache.lookup r with
  | some info => rfl
  | none => rfl

/-- A round that is neither decided nor left to the frame of the reset is pending. -/
def UndecidedQueued (h : Hashgraph H K) : Prop :=
  ∀ r info, h.store.roundCache.lookup r = some info → info.decided = false →
    h.belowLowerBound r = false → h.pendingRounds.queued r = true

/-- The same hashgraph up to the consensus fields of events with `D` and the order in
which the store keeps its rounds. -/
def Redivided (D : H → Prop) (h h' : Hashgraph H K) : Prop :=
  ∃ ec rc, h' = { h with store := { h.store with eventCache := ec, roundCache := rc } } ∧
    EventsLike h.store.eventCache ec ∧ (∀ y, ¬D y → ec.lookup y = h.store.eventCache.lookup y) ∧
    ∀ j, rc.lookup j = h.store.roundCache.lookup j

theorem modifyEvent_of_lookup {st : InmemStore H K} {x : H} {e : Event H K}
    (he : st.eventCache.lookup x = some e) (f : Event H K → Event H K) :
    st.modifyEvent x f = { st with eventCache := st.eventCache.insert x (f e) } := by
  simp only [InmemStore.modifyEvent, he]

theorem queueRound_eq_self {r : ℤ} {info : RoundInfo H} (hq : info.decided = false →
    h.belowLowerBound r = false → h.pendingRounds.queued r = true) :
    h.queueRound r info = h := by
  unfold queueRound
  rw [if_neg]
  simp only [Bool.and_eq_true, Bool.not_eq_true', not_and, and_imp]
  intro hnq hnd hb
  rw [hq hnd hb] at hnq
  cases hnq

theorem Redivided.refl (h : Hashgraph H K) : Redivided D h h :=
  ⟨_, _, rfl, EventsLike.refl _, fun _ _ => rfl, fun _ => rfl⟩

theorem Redivided.trans {h'' : Hashgraph H K} (h1 : Redivided D h h') (h2 : Redivided D h' h'') :
    Redivided D h h'' := by
  obtain ⟨ec, rc, rfl, hec, hD, hrc⟩ := h1
  obtain ⟨ec', rc', rfl, hec', hD', hrc'⟩ := h2
  exact ⟨ec', rc', rfl, hec.trans hec', fun y hy => (hD' y hy).trans (hD y hy),
    fun j => (hrc' j).trans (hrc j)⟩

theorem Divided.of_redivided (hd : Divided A D h) (hr : Redivided D h h') : Divided A D h' := by
  obtain ⟨ec, rc, rfl, hec, -, hrc⟩ := hr
  refine ⟨fun x hx => hec.mem_iff.2 (hd.stored x hx), hd.round, hd.round_none, hd.witness,
    hd.witness_none, hd.lamport, hd.lamport_cached, fun r info x e hi => ?_, fun x hx => ?_,
    fun r hr => ?_⟩
  · exact hd.created r info x e (hrc r ▸ hi)
  · obtain ⟨info, e, hi, he⟩ := hd.recorded x hx
    exact ⟨info, e, (hrc _).trans hi, he⟩
  · obtain ⟨info, hi⟩ := Map.mem_iff_lookup.1 hr
    exact hd.le_last r (Map.mem_iff_lookup.2 ⟨info, hrc r ▸ hi⟩)

/-- To divide an event again changes nothing. -/
theorem returns_assignRound_of_divided (hd : Divided A D h) (hq : h.UndecidedQueued) {x : H}
    (hx : D x) : Exec.Returns (assignRound S rt x) h fun _ h' => Redivided D h h' := by
  obtain ⟨e, he⟩ := Map.mem_iff_lookup.1 (hd.stored x hx)
  obtain ⟨info, re, hi, hre⟩ := hd.recorded x hx
  refine Exec.Returns.bind (returns_query (Query.returns_round_of_cached (hd.round x hx) ?_))
  refine Exec.Returns.bind (returns_modifyStore ?_)
  rw [modifyEvent_of_lookup he]
  refine Exec.Returns.bind (returns_read (getOrNewRound_eq _ _) ?_)
  simp only [hi, Option.getD_some]
  refine Exec.Returns.bind (Exec.returns_modify ?_)
  rw [queueRound_eq_self (by exact fun hnd hb => hq _ info hi hnd hb)]
  refine Exec.Returns.bind (returns_query (Query.returns_witness_of_cached (hd.witness x hx) ?_))
  refine returns_modifyStore ?_
  have hlast : ¬h.store.lastRound < A.round x := not_lt.2 (hd.round_le hx)
  refine ⟨h.store.eventCache.insert x { e with round := some (A.round x) },
    h.store.roundCache.insert (A.round x) info, ?_,
    (EventsLike.refl _).insert he ⟨rfl, rfl, rfl, rfl, rfl⟩, fun y hy => ?_, fun j => ?_⟩
  · simp [InmemStore.setRound, RoundInfo.addCreatedEvent, hre, hlast]
  · exact AList.lookup_insert_ne fun heq => hy (heq ▸ hx)
  · rw [Map.lookup_insert_ite]
    split_ifs with hj
    · rw [hj, hi]
    · rfl

theorem returns_assignLamportTimestamp_of_divided (hd : Divided A D h) {x : H} (hx : D x) :
    Exec.Returns (assignLamportTimestamp x) h fun _ h' => Redivided D h h' := by
  obtain ⟨e, he⟩ := Map.mem_iff_lookup.1 (hd.stored x hx)
  refine Exec.Returns.bind (returns_query
    (Query.returns_lamportTimestamp_of_cached (hd.lamport x hx) ?_))
  refine returns_modifyStore ?_
  rw [modifyEvent_of_lookup he]
  exact ⟨_, _, rfl, (EventsLike.refl _).insert he ⟨rfl, rfl, rfl, rfl, rfl⟩,
    fun y hy => AList.lookup_insert_ne fun heq => hy (heq ▸ hx), fun _ => rfl⟩

theorem returns_divideEvent_of_divided (hd : Divided A D h) (hq : h.UndecidedQueued) {x : H}
    (hx : D x) : Exec.Returns (divideEvent S rt x) h fun _ h' => Redivided D h h' := by
  obtain ⟨e, he⟩ := Map.mem_iff_lookup.1 (hd.stored x hx)
  refine Exec.Returns.bind (returns_read (a := e) (by simp [InmemStore.getEvent, he]) ?_)
  split_ifs
  · refine Exec.Returns.bind ((returns_assignRound_of_divided hd hq hx).mono fun _ h₁ h1 => ?_)
    exact (returns_assignLamportTimestamp_of_divided (hd.of_redivided h1) hx).mono
      fun _ _ h2 => h1.trans h2
  · exact returns_assignLamportTimestamp_of_divided hd hx
  · exact Exec.Returns.bind ((returns_assignRound_of_divided hd hq hx).mono
      fun _ _ h1 => Exec.returns_pure h1)
  · exact Exec.returns_pure (.refl h)

/-- The hashgraph after the division of a new event `x`. -/
structure NewlyDivided (S : Scheme H K) (R : Reading H K) (ps : ℤ → PeerSet K)
    (A : Assignment H) (h : Hashgraph H K) (x : H) (e : SignedEvent H K) (r : ℤ) (w : Bool) (t : ℤ)
    (h' : Hashgraph H K) : Prop where
  roundOf : RoundOf R ps h.store.WitnessAt x
    (parentValue A.round e.body.selfParent e.body.otherParent) r
  witness_eq : w = decide (e.creator ∈ (ps r).byPubKey ∧ selfValue A.round e.body.selfParent < r)
  lamport_eq : t = A.lamport x ∨ t = parentValue A.lamport e.body.selfParent e.body.otherParent + 1
  eq : ∃ ec rc m, h' = { h with
    store := { h.store with
      eventCache := ec, roundCache := rc, lastRound := max h.store.lastRound r }
    memo := m
    pendingRounds := (h.queueRound r ((h.store.roundCache.lookup r).getD {})).pendingRounds }
  events : EventsLike h.store.eventCache h'.store.eventCache
  rounds : ∀ j, h'.store.roundCache.lookup j = if j = r then
    some (((h.store.roundCache.lookup r).getD {}).addCreatedEvent x w)
      else h.store.roundCache.lookup j
  coherent : h'.memo.Coherent S R
  round : ∀ y, h'.memo.roundCache.lookup y = if y = x then some r else h.memo.roundCache.lookup y
  witness : ∀ y, h'.memo.witnessCache.lookup y = if y = x then some w else
    h.memo.witnessCache.lookup y
  lamport : ∀ y, h'.memo.timestampCache.lookup y = if y = x then some t else
    h.memo.timestampCache.lookup y

theorem selfValue_mem (hd : Divided A D h) {sp : Option H} (hsp : ∀ p, sp = some p → D p) :
    selfValue A.round sp = -1 ∨ selfValue A.round sp ∈ h.store.roundCache := by
  cases sp with
  | none => exact Or.inl rfl
  | some p => exact Or.inr (hd.mem_rounds (hsp p rfl))

theorem parentValue_mem (hd : Divided A D h) {sp op : Option H} (hsp : ∀ p, sp = some p → D p)
    (hop : ∀ p, op = some p → D p) :
    parentValue A.round sp op = -1 ∨ parentValue A.round sp op ∈ h.store.roundCache := by
  cases op with
  | none => exact selfValue_mem hd hsp
  | some p =>
    rcases max_choice (selfValue A.round sp) (A.round p) with hmax | hmax
    · simp only [parentValue, Option.elim_some, hmax]
      exact selfValue_mem hd hsp
    · simp only [parentValue, Option.elim_some, hmax]
      exact Or.inr (hd.mem_rounds (hop p rfl))

/-- Queueing looks at the pending rounds and the lower bound only. -/
theorem queueRound_eq (r : ℤ) (info : RoundInfo H) (st : InmemStore H K) (m : Memo H) :
    ({ h with store := st, memo := m }).queueRound r info =
      { h with store := st, memo := m, pendingRounds := (h.queueRound r info).pendingRounds } := by
  unfold queueRound belowLowerBound
  split_ifs <;> rfl

/-- The hashgraph with a new event `x` entered in round `r`. -/
def withCreated (h : Hashgraph H K) (x : H) (e : Event H K) (r : ℤ) (w : Bool) (m : Memo H) :
    Hashgraph H K :=
  { h with
    store := { h.store with
      eventCache := h.store.eventCache.insert x { e with round := some r }
      roundCache := h.store.roundCache.insert r
        (((h.store.roundCache.lookup r).getD {}).addCreatedEvent x w)
      lastRound := max h.store.lastRound r }
    memo := m
    pendingRounds := (h.queueRound r ((h.store.roundCache.lookup r).getD {})).pendingRounds }

section New

variable {x : H} {e : Event H K}

theorem returns_assignRound_of_new (hd : Divided A D h) (hR : R.Holds S h.store)
    (hm : h.memo.Coherent S R) (he : h.store.eventCache.lookup x = some e) (hx : ¬D x)
    (hsp : ∀ p, e.body.selfParent = some p → D p) (hop : ∀ p, e.body.otherParent = some p → D p)
    (hpeers : ∀ j, j ≤ h.store.lastRound + 1 → h.store.getPeerSet j = .ok (ps j))
    (hin : ∀ j, R.Peers (ps j)) (hlast : -1 ≤ h.store.lastRound) :
    Exec.Returns (assignRound S rt x) h fun _ h' => ∃ r w m,
      RoundOf R ps h.store.WitnessAt x
        (parentValue A.round e.body.selfParent e.body.otherParent) r ∧
      w = decide (e.creator ∈ (ps r).byPubKey ∧ selfValue A.round e.body.selfParent < r) ∧
      h' = h.withCreated x e r w m ∧ m.Coherent S R ∧
      (∀ y, m.roundCache.lookup y = if y = x then some r else h.memo.roundCache.lookup y) ∧
      (∀ y, m.witnessCache.lookup y = if y = x then some w else h.memo.witnessCache.lookup y) ∧
      m.timestampCache = h.memo.timestampCache := by
  have hpv := parentValue_mem hd hsp hop
  have hple : parentValue A.round e.body.selfParent e.body.otherParent ≤ h.store.lastRound := by
    rcases hpv with hpv | hpv
    · rw [hpv]; exact hlast
    · exact hd.le_last _ hpv
  have hWs : ∀ j w, h.store.WitnessAt j w → w ∈ h.store.eventCache :=
    fun j w hw => hd.stored w (hd.witnessAt_iff.1 hw).1
  refine Exec.Returns.bind (returns_query ?_)
  refine (Query.returns_round hR hin he
    (fun p hp => hd.round p (hsp p hp)) (fun p hp => hd.round p (hop p hp))
    (fun hne => ⟨hpv.resolve_left hne, hpeers _ (by omega)⟩) hWs hm).mono ?_
  rintro r m₁ ⟨hr, hm₁, hround₁, hwit₁, htime₁⟩
  have hroundOf := (hr.resolve_left (by rw [hd.round_none x hx]; simp)).2
  refine Exec.Returns.bind (returns_modifyStore ?_)
  rw [modifyEvent_of_lookup he]
  refine Exec.Returns.bind (returns_read (getOrNewRound_eq _ _) ?_)
  refine Exec.Returns.bind (Exec.returns_modify ?_)
  rw [queueRound_eq (h := h)]
  generalize hst : ({ h.store with
    eventCache := h.store.eventCache.insert x { e with round := some r } } : InmemStore H K) = st₁
  have he₁ : st₁.eventCache.lookup x = some { e with round := some r } := by
    rw [← hst]; exact AList.lookup_insert _
  have hpeers₁ : st₁.getPeerSet r = .ok (ps r) := by
    rw [← hst]; exact hpeers r (RoundOf.le hroundOf hple hlast)
  have hr₁ : m₁.roundCache.lookup x = some r := by rw [hround₁, if_pos rfl]
  have hsp₁ : ∀ p, e.body.selfParent = some p → m₁.roundCache.lookup p = some (A.round p) := by
    intro p hp
    have hne : p ≠ x := fun heq => hx (heq ▸ hsp p hp)
    rw [hround₁, if_neg hne]
    exact hd.round p (hsp p hp)
  refine Exec.Returns.bind (returns_query
    ((Query.returns_witness he₁ hr₁ hsp₁ hpeers₁ hm₁).mono ?_))
  rintro w m₂ ⟨hw, hm₂, hwit₂, hround₂, htime₂⟩
  have hwit := (hw.resolve_left (by rw [hwit₁, hd.witness_none x hx]; simp)).2
  refine returns_modifyStore ⟨r, w, m₂, hroundOf, hwit, ?_, hm₂, fun y => ?_, fun y => ?_, ?_⟩
  · subst hst
    simp only [withCreated, InmemStore.setRound, max_def_lt]
  · rw [hround₂]
    exact hround₁ y
  · rw [hwit₂, hwit₁]
  · rw [htime₂, htime₁]

/-- The division of a new event. -/
theorem returns_divideEvent_of_new (hd : Divided A D h) (hR : R.Holds S h.store)
    (hm : h.memo.Coherent S R) (he : h.store.eventCache.lookup x = some e) (hx : ¬D x)
    (hround : e.round = none) (hlam : e.lamportTimestamp = none)
    (hsp : ∀ p, e.body.selfParent = some p → D p) (hop : ∀ p, e.body.otherParent = some p → D p)
    (hpeers : ∀ j, j ≤ h.store.lastRound + 1 → h.store.getPeerSet j = .ok (ps j))
    (hin : ∀ j, R.Peers (ps j)) (hlast : -1 ≤ h.store.lastRound) :
    Exec.Returns (divideEvent S rt x) h fun _ h' =>
      ∃ r w t, NewlyDivided S R ps A h x e.toSignedEvent r w t h' := by
  refine Exec.Returns.bind (returns_read (a := e) (by simp [InmemStore.getEvent, he]) ?_)
  rw [if_pos hround, if_pos hlam]
  refine Exec.Returns.bind ((returns_assignRound_of_new hd hR hm he hx hsp hop hpeers hin
    hlast).mono ?_)
  rintro _ _ ⟨r, w, m, hroundOf, hwit, rfl, hm, hround, hwitness, htime⟩
  have he' : (h.withCreated x e r w m).store.eventCache.lookup x = some { e with round := some r } :=
    AList.lookup_insert _
  refine Exec.Returns.bind (returns_query ((Query.returns_lamportTimestamp (t := A.lamport)
    he' (fun p hp => ?_) (fun p hp => ⟨?_, ?_⟩) hm).mono ?_))
  · rw [← hd.lamport p (hsp p hp)]
    exact congrArg (AList.lookup p) htime
  · exact AList.mem_insert _ |>.2 (Or.inr (hd.stored p (hop p hp)))
  · rw [← hd.lamport p (hop p hp)]
    exact congrArg (AList.lookup p) htime
  rintro t m₃ ⟨ht, hm₃, htime₃, hround₃, hwit₃⟩
  have hlamport := ht.imp (fun h => hd.lamport_cached x t (htime ▸ h)) And.right
  refine returns_modifyStore ⟨r, w, t, hroundOf, hwit, hlamport, ?_, ?_, ?_, hm₃, ?_, ?_, ?_⟩
  · rw [modifyEvent_of_lookup he']
    exact ⟨_, _, m₃, rfl⟩
  · rw [modifyEvent_of_lookup he']
    have hlike : EventsLike h.store.eventCache (h.withCreated x e r w m).store.eventCache :=
      (EventsLike.refl _).insert he ⟨rfl, rfl, rfl, rfl, rfl⟩
    exact hlike.insert he' ⟨rfl, rfl, rfl, rfl, rfl⟩
  · intro j
    rw [modifyEvent_of_lookup he']
    exact Map.lookup_insert_ite _ _ _ _
  · intro y
    rw [hround₃]
    exact hround y
  · intro y
    rw [hwit₃]
    exact hwitness y
  · intro y
    rw [htime₃, ← htime]

/-- The new event is divided, with the others. -/
theorem NewlyDivided.divided {e : SignedEvent H K} {r t : ℤ} {w : Bool} (hd : Divided A D h)
    (hxs : x ∈ h.store.eventCache) (hx : ¬D x) (hn : NewlyDivided S R ps A h x e r w t h') :
    Divided (A.set x r w t) (fun y => D y ∨ y = x) h' := by
  have hne : ∀ y, D y → y ≠ x := fun y hy heq => hx (heq ▸ hy)
  have hnot : ∀ {y}, ¬(D y ∨ y = x) → ¬D y ∧ y ≠ x := fun hy => not_or.1 hy
  have hcreated : ((h.store.roundCache.lookup r).getD {}).createdEvents.lookup x = none := by
    cases hl : h.store.roundCache.lookup r with
    | none => rfl
    | some info =>
      refine Option.eq_none_iff_forall_ne_some.2 fun re hre => hx ?_
      exact (hd.created r info x re hl hre).1
  have hadd : ((h.store.roundCache.lookup r).getD {}).addCreatedEvent x w =
      { (h.store.roundCache.lookup r).getD {} with createdEvents :=
        ((h.store.roundCache.lookup r).getD {}).createdEvents.insert x { witness := w } } := by
    simp only [RoundInfo.addCreatedEvent, hcreated]
  -- what the new state has recorded in a round
  have hold : ∀ y re, ((h.store.roundCache.lookup r).getD {}).createdEvents.lookup y = some re →
      D y ∧ A.round y = r ∧ re.witness = A.witness y := by
    intro y re hre
    cases hl : h.store.roundCache.lookup r with
    | none => rw [hl] at hre; simp at hre
    | some info => rw [hl] at hre; exact hd.created r info y re hl hre
  have hlast : h'.store.lastRound = max h.store.lastRound r := by
    obtain ⟨ec, rc, m, rfl⟩ := hn.eq
    rfl
  refine ⟨?_, ?_, ?_, ?_, ?_, ?_, ?_, ?_, ?_, ?_⟩
  · rintro y (hy | rfl)
    · exact hn.events.mem_iff.2 (hd.stored y hy)
    · exact hn.events.mem_iff.2 hxs
  · rintro y (hy | rfl)
    · rw [hn.round, if_neg (hne y hy), hd.round y hy, Assignment.round_set_of_ne (hne y hy)]
    · rw [hn.round, if_pos rfl, Assignment.round_set_self]
  · intro y hy
    rw [hn.round, if_neg (hnot hy).2, hd.round_none y (hnot hy).1]
  · rintro y (hy | rfl)
    · rw [hn.witness, if_neg (hne y hy), hd.witness y hy, Assignment.witness_set_of_ne (hne y hy)]
    · rw [hn.witness, if_pos rfl, Assignment.witness_set_self]
  · intro y hy
    rw [hn.witness, if_neg (hnot hy).2, hd.witness_none y (hnot hy).1]
  · rintro y (hy | rfl)
    · rw [hn.lamport, if_neg (hne y hy), hd.lamport y hy, Assignment.lamport_set_of_ne (hne y hy)]
    · rw [hn.lamport, if_pos rfl, Assignment.lamport_set_self]
  · intro y t' hy
    rw [hn.lamport] at hy
    split_ifs at hy with hyx
    · rw [hyx, Assignment.lamport_set_self]
      exact (Option.some.inj hy).symm
    · rw [Assignment.lamport_set_of_ne hyx]
      exact hd.lamport_cached y t' hy
  · intro j info y re hinfo hre
    have hkeep : D y ∧ A.round y = j ∧ re.witness = A.witness y →
        (D y ∨ y = x) ∧ (A.set x r w t).round y = j ∧ re.witness = (A.set x r w t).witness y := by
      rintro ⟨hy, hr, hw⟩
      rw [Assignment.round_set_of_ne (hne y hy), Assignment.witness_set_of_ne (hne y hy)]
      exact ⟨Or.inl hy, hr, hw⟩
    rw [hn.rounds] at hinfo
    split_ifs at hinfo with hj
    · obtain rfl := Option.some.inj hinfo
      subst hj
      rw [hadd, Map.lookup_insert_ite] at hre
      split_ifs at hre with hyx
      · obtain rfl := Option.some.inj hre
        subst hyx
        exact ⟨Or.inr rfl, Assignment.round_set_self, Assignment.witness_set_self.symm⟩
      · exact hkeep (hold y re hre)
    · exact hkeep (hd.created j info y re hinfo hre)
  · rintro y (hy | rfl)
    · rw [Assignment.round_set_of_ne (hne y hy)]
      obtain ⟨info, re, hi, hre⟩ := hd.recorded y hy
      rw [hn.rounds]
      split_ifs with hj
      · refine ⟨_, re, rfl, ?_⟩
        rw [hadd, AList.lookup_insert_ne (hne y hy), ← hj, hi]
        exact hre
      · exact ⟨info, re, hi, hre⟩
    · rw [Assignment.round_set_self, hn.rounds, if_pos rfl]
      exact ⟨_, _, rfl, by rw [hadd]; exact AList.lookup_insert _⟩
  · intro j hj
    rw [hlast]
    obtain ⟨info, hi⟩ := Map.mem_iff_lookup.1 hj
    rw [hn.rounds] at hi
    split_ifs at hi with hjr
    · exact hjr ▸ le_max_right _ _
    · exact (hd.le_last j (Map.mem_iff_lookup.2 ⟨info, hi⟩)).trans (le_max_left _ _)

theorem NewlyDivided.of_redivided {h₁ : Hashgraph H K} {e : SignedEvent H K} {r t : ℤ} {w : Bool}
    (hr : Redivided D h h₁) (hn : NewlyDivided S R ps A h₁ x e r w t h') :
    NewlyDivided S R ps A h x e r w t h' := by
  obtain ⟨ec, rc, rfl, hec, -, hrc⟩ := hr
  have hW : ({ h with store := { h.store with eventCache := ec, roundCache := rc } } :
      Hashgraph H K).store.WitnessAt = h.store.WitnessAt := by
    funext j v
    simp only [InmemStore.WitnessAt, hrc]
  obtain ⟨hround, hwit, hlam, heq, hev, hrd, hm, h1, h2, h3⟩ := hn
  simp only [hrc] at hrd heq
  rw [hW] at hround
  refine ⟨hround, hwit, hlam, ?_, hec.trans hev, hrd, hm, h1, h2, h3⟩
  obtain ⟨ec', rc', m', rfl⟩ := heq
  refine ⟨ec', rc', m', ?_⟩
  rw [queueRound_eq]

end New

/-- Events that are all divided are divided again. -/
theorem returns_forM_divideEvent (hd : Divided A D h) (hq : h.UndecidedQueued) (us : List H)
    (hus : ∀ y ∈ us, D y) :
    Exec.Returns (us.forM (divideEvent S rt)) h fun _ h' => Redivided D h h' := by
  refine (Exec.returns_forM (fun _ h' => Redivided D h h') (.refl h)
    fun l y rest hl h₁ h1 => ?_).mono fun _ _ hh => hh
  have hq₁ : h₁.UndecidedQueued := by
    obtain ⟨ec, rc, rfl, -, -, hrc⟩ := h1
    exact fun r info hi => hq r info (hrc r ▸ hi)
  exact (returns_divideEvent_of_divided (hd.of_redivided h1) hq₁
    (hus y (by rw [hl]; simp))).mono fun _ _ h2 => h1.trans h2

/-- The division after an insertion, where the inserted event is new. -/
theorem returns_divideRounds_of_new {us : List H} {x : H} {e : Event H K}
    (hu : h.undeterminedEvents = us ++ [x]) (hus : ∀ y ∈ us, D y) (hd : Divided A D h)
    (hq : h.UndecidedQueued) (hR : R.Holds S h.store) (hm : h.memo.Coherent S R)
    (he : h.store.eventCache.lookup x = some e) (hx : ¬D x) (hround : e.round = none)
    (hlam : e.lamportTimestamp = none) (hsp : ∀ p, e.body.selfParent = some p → D p)
    (hop : ∀ p, e.body.otherParent = some p → D p)
    (hpeers : ∀ j, j ≤ h.store.lastRound + 1 → h.store.getPeerSet j = .ok (ps j))
    (hin : ∀ j, R.Peers (ps j)) (hlast : -1 ≤ h.store.lastRound) :
    Exec.Returns (divideRounds S rt) h fun _ h' =>
      ∃ r w t, NewlyDivided S R ps A h x e.toSignedEvent r w t h' := by
  refine Exec.Returns.bind (Exec.returns_get ?_)
  rw [hu]
  refine Exec.returns_forM_append ((returns_forM_divideEvent hd hq us hus).mono fun _ h₁ h1 => ?_)
  have hnew : Exec.Returns (divideEvent S rt x) h₁ fun _ h' =>
      ∃ r w t, NewlyDivided S R ps A h₁ x e.toSignedEvent r w t h' := by
    have hd₁ := hd.of_redivided h1
    obtain ⟨ec, rc, rfl, hec, hD, -⟩ := h1
    exact returns_divideEvent_of_new hd₁ (hR.of_like hec) hm ((hD x hx).trans he) hx hround hlam hsp
      hop hpeers hin hlast
  refine Exec.Returns.bind (hnew.mono fun _ h' hn => Exec.returns_pure ?_)
  obtain ⟨r, w, t, hn⟩ := hn
  exact ⟨r, w, t, hn.of_redivided h1⟩

/-- The division after an insertion, where the inserted event was known. -/
theorem returns_divideRounds_of_divided (hus : ∀ y ∈ h.undeterminedEvents, D y)
    (hd : Divided A D h) (hq : h.UndecidedQueued) :
    Exec.Returns (divideRounds S rt) h fun _ h' => Redivided D h h' :=
  Exec.Returns.bind (Exec.returns_get (returns_forM_divideEvent hd hq _ hus))

end Hashgraph

end Babble

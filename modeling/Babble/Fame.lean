import Babble.Answers

/-!
# The fame pass

`decideFame` changes nothing but the fame of witnesses, from undefined to a value that
some witness decided (`Voted`), and the `decided` flags of the pending rounds. It does not
fail if the rounds above the pending ones are there and their witnesses are stored. It
misses nothing : a witness of a pending round whose fame is undefined afterwards is one
that no stored witness decides (`Undecided`).

`Voted` is the virtual vote relative to a reading : what the votes of the round before,
polled among the witnesses that the answers on strong sight select, amount to.
-/

set_option linter.unusedSectionVars false

namespace Babble

variable {H K : Type} [DecidableEq H] [DecidableEq K] [Hex H] [Hex K]

/-- `w` is recorded as a witness of round `j`. -/
def InmemStore.WitnessAt (st : InmemStore H K) (j : ℤ) (w : H) : Prop :=
  ∃ info, st.roundCache.lookup j = some info ∧ w ∈ info.witnesses

/-- A witness `y` of round `j` votes on `x`, a witness of round `r`, and may decide. -/
inductive Voted (R : Reading H K) (ps : ℤ → PeerSet K) (W : ℤ → H → Prop) (r : ℤ) (x : H) :
    ℤ → H → Bool → Bool → Prop
  | sight {y : H} {b : Bool} (h : R.Sees y x b) : Voted R ps W r x (r + 1) y b false
  | count {j : ℤ} {y : H} {l : List H} (votes decides : H → Bool) (hj : r + 1 < j)
      (hpoll : R.Poll (ps (j - 1)) (W (j - 1)) y l)
      (hvotes : ∀ w ∈ l, Voted R ps W r x (j - 1) w (votes w) (decides w)) :
      Voted R ps W r x j y
        (Hashgraph.cast (j - r) (ps j).superMajority (l.countP votes)
          (l.countP fun w => !votes w) (middleBit y)).1
        (Hashgraph.cast (j - r) (ps j).superMajority (l.countP votes)
          (l.countP fun w => !votes w) (middleBit y)).2

/-- The state of an event in a round, with its fame possibly set to a value in `V`. -/
inductive RoundEvent.Judged (V : Bool → Prop) : RoundEvent → RoundEvent → Prop
  | same (e : RoundEvent) : Judged V e e
  | set {v : Bool} (hv : V v) : Judged V ⟨true, .undefined⟩ ⟨true, Trilean.ofBool v⟩

/-- A round with the fame of some witnesses set to values in `V`. -/
structure RoundInfo.Judged (V : H → Bool → Prop) (i i' : RoundInfo H) : Prop where
  created : ∀ x, Option.Rel (RoundEvent.Judged (V x)) (i.createdEvents.lookup x)
    (i'.createdEvents.lookup x)
  received : i'.receivedEvents = i.receivedEvents
  decided : i'.decided = i.decided

theorem RoundEvent.Judged.witness {V : Bool → Prop} {e e' : RoundEvent} (h : Judged V e e') :
    e'.witness = e.witness := by
  cases h <;> rfl

theorem RoundEvent.Judged.trans {V : Bool → Prop} {e e' e'' : RoundEvent} (h : Judged V e e')
    (h' : Judged V e' e'') : Judged V e e'' := by
  cases h with
  | same => exact h'
  | @set v hv =>
    generalize hw : (⟨true, Trilean.ofBool v⟩ : RoundEvent) = e' at h'
    cases h' with
    | same => subst hw; exact .set hv
    | set => cases v <;> simp [Trilean.ofBool] at hw

namespace RoundInfo

variable {V : H → Bool → Prop} {i i' i'' : RoundInfo H}

theorem Judged.refl (i : RoundInfo H) : i.Judged V i where
  created x := by
    cases i.createdEvents.lookup x with
    | none => exact .none
    | some e => exact .some (.same e)
  received := rfl
  decided := rfl

theorem Judged.trans (h : i.Judged V i') (h' : i'.Judged V i'') : i.Judged V i'' where
  created x := by
    have h1 := h.created x
    have h2 := h'.created x
    revert h1 h2
    generalize i.createdEvents.lookup x = a
    generalize i'.createdEvents.lookup x = b
    generalize i''.createdEvents.lookup x = c
    rintro (h1 | _) (h2 | _)
    · exact .some (h1.trans h2)
    · exact .none
  received := h'.received.trans h.received
  decided := h'.decided.trans h.decided

/-- Fame that is on record stays. -/
theorem Judged.mem_famousWitnesses (h : i.Judged V i') {w : H} (hw : w ∈ i.famousWitnesses) :
    w ∈ i'.famousWitnesses := by
  obtain ⟨e, he, hwit, hfam⟩ := RoundInfo.mem_famousWitnesses.1 hw
  have hrel := h.created w
  rw [he] at hrel
  generalize ho : i'.createdEvents.lookup w = o at hrel
  cases hrel with
  | some hje =>
    cases hje with
    | same => exact RoundInfo.mem_famousWitnesses.2 ⟨e, ho, hwit, hfam⟩
    | set => cases hfam

/-- A decision that is on record stays. -/
theorem Judged.isDecided_mono (h : i.Judged V i') {w : H} (hw : i.isDecided w = true) :
    i'.isDecided w = true := by
  have hrel := h.created w
  revert hw hrel
  unfold RoundInfo.isDecided
  generalize i.createdEvents.lookup w = a
  generalize i'.createdEvents.lookup w = b
  rintro hw (hrel | _)
  · cases hrel with
    | same => exact hw
    | set => cases hw
  · exact hw

theorem isDecided_setFame {x : H} {v : Bool} (hx : x ∈ i.witnesses) :
    (i.setFame x v).isDecided x = true := by
  obtain ⟨e, he, hw⟩ := Map.mem_keysWith.1 hx
  simp only [RoundInfo.isDecided, RoundInfo.setFame, AList.lookup_insert, he, Option.getD_some, hw]
  cases v <;> rfl

theorem mem_witnesses {w : H} :
    w ∈ i.witnesses ↔ ∃ e, i.createdEvents.lookup w = some e ∧ e.witness = true :=
  Map.mem_keysWith

theorem Judged.mem_witnesses_iff (h : i.Judged V i') {w : H} :
    w ∈ i'.witnesses ↔ w ∈ i.witnesses := by
  have hc := h.created w
  rw [mem_witnesses, mem_witnesses]
  revert hc
  generalize i.createdEvents.lookup w = a
  generalize i'.createdEvents.lookup w = b
  rintro (hc | _)
  · simp [hc.witness]
  · rfl

/-- Deciding the fame of an undecided witness. -/
theorem Judged.setFame {x : H} {v : Bool} (hx : x ∈ i.witnesses) (hd : i.isDecided x = false)
    (hv : V x v) : i.Judged V (i.setFame x v) where
  created y := by
    obtain ⟨e, he, hw⟩ := mem_witnesses.1 hx
    simp only [isDecided, he, hw, Bool.true_and, bne_eq_false_iff_eq] at hd
    simp only [RoundInfo.setFame, he, Option.getD_some, Map.lookup_insert_ite]
    split_ifs with hyx
    · subst hyx
      obtain ⟨w, f⟩ := e
      simp only at hw hd
      subst hw hd
      rw [he]
      exact .some (.set hv)
    · cases i.createdEvents.lookup y with
      | none => exact .none
      | some e' => exact .some (.same e')
  received := rfl
  decided := rfl

end RoundInfo

/-- Rounds with the same witnesses. -/
def RoundsLike (rc rc' : Map ℤ (RoundInfo H)) : Prop :=
  ∀ j, Option.Rel (fun i i' => ∀ w, w ∈ i'.witnesses ↔ w ∈ i.witnesses) (rc.lookup j)
    (rc'.lookup j)

theorem RoundsLike.refl (rc : Map ℤ (RoundInfo H)) : RoundsLike rc rc := by
  intro j
  cases rc.lookup j with
  | none => exact .none
  | some i => exact .some fun _ => Iff.rfl

theorem RoundsLike.lookup {rc rc' : Map ℤ (RoundInfo H)} (h : RoundsLike rc rc') {j : ℤ}
    {i : RoundInfo H} (hi : rc.lookup j = some i) :
    ∃ i', rc'.lookup j = some i' ∧ ∀ w, w ∈ i'.witnesses ↔ w ∈ i.witnesses := by
  have hj := h j
  rw [hi] at hj
  cases hr : rc'.lookup j with
  | none => rw [hr] at hj; cases hj
  | some i' => rw [hr] at hj; cases hj with | some hj => exact ⟨i', rfl, hj⟩

/-- Replacing a round by one with the same witnesses. -/
theorem RoundsLike.insert {rc rc' : Map ℤ (RoundInfo H)} (h : RoundsLike rc rc') {j : ℤ}
    {i i' : RoundInfo H} (hi : rc'.lookup j = some i)
    (hw : ∀ w, w ∈ i'.witnesses ↔ w ∈ i.witnesses) : RoundsLike rc (rc'.insert j i') := by
  intro k
  rw [Map.lookup_insert_ite]
  split_ifs with hk
  · subst hk
    have hj := h k
    rw [hi] at hj
    revert hj
    generalize rc.lookup k = a
    rintro (hj | _)
    exact .some fun w => (hw w).trans (hj w)
  · exact h k

namespace Hashgraph

/-- The hashgraph with other rounds and caches. -/
def withRounds (h : Hashgraph H K) (rc : Map ℤ (RoundInfo H)) (m : Memo H) : Hashgraph H K :=
  { h with store := { h.store with roundCache := rc }, memo := m }

theorem withRounds_setRound {h : Hashgraph H K} {rc : Map ℤ (RoundInfo H)} {m : Memo H} {r : ℤ}
    {i : RoundInfo H} (hr : r ≤ h.store.lastRound) :
    { h.withRounds rc m with store := (h.withRounds rc m).store.setRound r i } =
      h.withRounds (rc.insert r i) m := by
  have hlast : ¬h.store.lastRound < r := not_lt.2 hr
  simp [withRounds, InmemStore.setRound, hlast]

variable {S : Scheme H K} {rt : Runtime} {R : Reading H K} {ps : ℤ → PeerSet K}

/-- The rounds from `lo` on are there and can vote. -/
structure CanVote (S : Scheme H K) (R : Reading H K) (ps : ℤ → PeerSet K) (lo : ℤ)
    (st : InmemStore H K) : Prop where
  holds : R.Holds S st
  rounds : ∀ j, lo ≤ j → j ≤ st.lastRound → j ∈ st.roundCache
  stored : ∀ j w, st.WitnessAt j w → w ∈ st.eventCache
  once : ∀ j j' w, st.WitnessAt j w → st.WitnessAt j' w → j = j'
  peers : ∀ j, lo ≤ j → j ≤ st.lastRound → st.getPeerSet j = .ok (ps j)
  inUse : ∀ j, R.Peers (ps j)

/-- The votes of the witnesses of round `j` on `x` are in. -/
def VotesIn (R : Reading H K) (ps : ℤ → PeerSet K) (W : ℤ → H → Prop) (r : ℤ) (x : H)
    (votes : Votes H) (j : ℤ) (ys : List H) : Prop :=
  ∀ y, W j y → y ∈ ys ∨ ∃ v d, votes.lookup (y, x) = some v ∧ Voted R ps W r x j y v d

section Pass

variable {h : Hashgraph H K} {lo : ℤ} {rc : Map ℤ (RoundInfo H)} {m m₀ : Memo H}

/-- A round of the current state has the witnesses it had at the start. -/
theorem getRound_withRounds (hr : RoundsLike h.store.roundCache rc) (m : Memo H) {j : ℤ}
    (hj : j ∈ h.store.roundCache) : ∃ i, rc.lookup j = some i ∧
      (h.withRounds rc m).store.getRound j = .ok i ∧
      ∀ w, w ∈ i.witnesses ↔ h.store.WitnessAt j w := by
  obtain ⟨i₀, hi₀⟩ := Map.mem_iff_lookup.1 hj
  obtain ⟨i, hi, hw⟩ := hr.lookup hi₀
  refine ⟨i, hi, by simp [withRounds, InmemStore.getRound, hi], fun w => ?_⟩
  rw [hw]
  constructor
  · exact fun hw => ⟨i₀, hi₀, hw⟩
  · rintro ⟨i', hi', hw⟩
    rw [hi₀] at hi'
    obtain rfl := Option.some.inj hi'
    exact hw

theorem returns_ballot (hc : CanVote S R ps lo h.store)
    (hr : RoundsLike h.store.roundCache rc) (hm : m₀.Extends S R m) {votes : Votes H}
    {x y : H} {r j : ℤ} (hlo : lo ≤ r) (hrj : r < j) (hjl : j ≤ h.store.lastRound)
    (hx : x ∈ h.store.eventCache) (hy : h.store.WitnessAt j y)
    (hv : r + 1 < j → VotesIn R ps h.store.WitnessAt r x votes (j - 1) []) :
    Exec.Returns (ballot S rt votes x r j (ps j) y) (h.withRounds rc m) fun res h' =>
      ∃ m', h' = h.withRounds rc m' ∧ m₀.Extends S R m' ∧
        Voted R ps h.store.WitnessAt r x j y res.1 res.2 := by
  have hys := hc.stored j y hy
  unfold ballot
  extract_lets diff
  split_ifs with hdiff
  · obtain rfl : j = r + 1 := by simp only [diff] at hdiff; omega
    refine Exec.Returns.bind (returns_query ?_)
    refine (Query.returns_ancestor hc.holds hys hx hm).mono ?_
    rintro b m' ⟨hm', hb⟩
    exact Exec.returns_pure ⟨m', rfl, hm', .sight hb⟩
  · have hj1 : r + 1 < j := by simp only [diff] at hdiff; omega
    obtain ⟨i', -, hget, hwit⟩ :=
      getRound_withRounds hr m (hc.rounds (j - 1) (by omega) (by omega))
    refine Exec.Returns.bind (returns_read hget ?_)
    refine Exec.Returns.bind (returns_read (hc.peers (j - 1) (by omega) (by omega)) ?_)
    refine Exec.Returns.bind (returns_query (Query.returns_visit ?_))
    have hnd : (rt.order m.tick i'.witnesses).Nodup :=
      (rt.order_perm _ _).nodup_iff.2 (Map.nodup_keysWith _ _)
    have hm' : m₀.Extends S R { m with tick := m.tick + 1 } := hm.tick _
    refine Exec.Returns.bind (returns_query ?_)
    refine (Query.returns_poll (P := ps (j - 1)) hc.holds (hc.inUse _) hys hnd
      (fun w => rt.mem_order _) (fun w hw => hc.stored (j - 1) w ((hwit w).1 hw)) hm').mono ?_
    rintro l m'' ⟨hm'', hpoll⟩
    have hpoll' : R.Poll (ps (j - 1)) (h.store.WitnessAt (j - 1)) y l :=
      ⟨hpoll.nodup, fun w hw => (hwit w).1 (hpoll.sub w hw),
        fun w hw => hpoll.answer w ((hwit w).2 hw)⟩
    -- the votes of the round before are in the table
    have hvoted : ∀ w ∈ l, ∃ d, Voted R ps h.store.WitnessAt r x (j - 1) w
        (decide (votes.lookup (w, x) = some true)) d := by
      intro w hw
      obtain hmem | ⟨v, d, hlook, hvw⟩ := hv hj1 w (hpoll'.sub w hw)
      · cases hmem
      · refine ⟨d, ?_⟩
        rw [hlook]
        cases v <;> simpa using hvw
    choose! d hd using hvoted
    exact Exec.returns_pure ⟨m'', rfl, hm'', .count _ d hj1 hpoll' hd⟩

/-- A witness of the round `j` decides the fame of `x`. -/
def Decision (R : Reading H K) (ps : ℤ → PeerSet K) (st : InmemStore H K) (r : ℤ) (x : H)
    (v : Bool) : Prop :=
  ∃ j y, j ≤ st.lastRound ∧ st.WitnessAt j y ∧ Voted R ps st.WitnessAt r x j y v true

/-- No witness up to the last round decides the fame of `x`. -/
def Undecided (R : Reading H K) (ps : ℤ → PeerSet K) (st : InmemStore H K) (r : ℤ) (x : H) :
    Prop :=
  ∀ j y, r < j → j ≤ st.lastRound → st.WitnessAt j y →
    ∃ v, Voted R ps st.WitnessAt r x j y v false

theorem returns_voteRound (hc : CanVote S R ps lo h.store)
    (hr : RoundsLike h.store.roundCache rc) {x : H} {r j : ℤ} {i : RoundInfo H}
    (hlo : lo ≤ r) (hrj : r < j) (hjl : j ≤ h.store.lastRound) (hx : x ∈ h.store.eventCache)
    (hi : rc.lookup r = some i) (ys : List H) :
    ∀ {votes : Votes H} {m : Memo H}, m₀.Extends S R m →
      (∀ y ∈ ys, h.store.WitnessAt j y) →
      (r + 1 < j → VotesIn R ps h.store.WitnessAt r x votes (j - 1) []) →
      VotesIn R ps h.store.WitnessAt r x votes j ys →
      Exec.Returns (voteRound S rt x r j (ps j) votes ys) (h.withRounds rc m) fun res h' =>
        ∃ m', m₀.Extends S R m' ∧
          ((res.2 = false ∧ h' = h.withRounds rc m' ∧
              VotesIn R ps h.store.WitnessAt r x res.1 j [] ∧
              ∀ y ∈ ys, ∃ v, Voted R ps h.store.WitnessAt r x j y v false) ∨
            (res.2 = true ∧ ∃ v, Decision R ps h.store r x v ∧
              h' = h.withRounds (rc.insert r (i.setFame x v)) m')) := by
  induction ys with
  | nil =>
    intro votes m hm _ _ hin
    exact Exec.returns_pure ⟨m, hm, Or.inl ⟨rfl, rfl, hin, by simp⟩⟩
  | cons y ys ih =>
    intro votes m hm hys hprev hin
    have hy := hys y List.mem_cons_self
    refine Exec.Returns.bind ((returns_ballot hc hr hm hlo hrj hjl hx hy hprev).mono ?_)
    rintro ⟨v, decides⟩ _ ⟨m', rfl, hm', hv⟩
    simp only at hv ⊢
    split_ifs with hd
    · subst hd
      refine Exec.Returns.bind (returns_modifyStore (Exec.returns_pure ?_))
      refine ⟨m', hm', Or.inr ⟨rfl, v, ⟨j, y, hjl, hy, hv⟩, ?_⟩⟩
      simp only [withRounds, InmemStore.modifyRound, hi]
    · have hd' : decides = false := by simpa using hd
      refine (ih hm' (fun z hz => hys z (List.mem_cons_of_mem y hz)) (fun hj w hw => ?_) ?_).mono ?_
      · -- the votes of the round before stay : `y` is not one of its witnesses
        obtain hmem | ⟨v', d, hlook, hvw⟩ := hprev hj w hw
        · cases hmem
        · refine Or.inr ⟨v', d, ?_, hvw⟩
          rw [Map.lookup_insert_ite, if_neg]
          · exact hlook
          · intro heq
            obtain ⟨rfl, -⟩ := Prod.mk.inj heq
            have := hc.once _ _ _ hw hy
            omega
      · intro z hz
        by_cases hzy : z = y
        · subst hzy
          exact Or.inr ⟨v, decides, by rw [AList.lookup_insert], hv⟩
        · rcases hin z hz with hmem | ⟨v', d, hlook, hvw⟩
          · exact Or.inl ((List.mem_cons.1 hmem).resolve_left hzy)
          · refine Or.inr ⟨v', d, ?_, hvw⟩
            rw [AList.lookup_insert_ne fun heq => hzy (Prod.mk.inj heq).1]
            exact hlook
      · rintro res h' ⟨m'', hm'', ⟨hres, rfl, hin', hall⟩ | hres⟩
        · refine ⟨m'', hm'', Or.inl ⟨hres, rfl, hin', fun z hz => ?_⟩⟩
          rcases List.mem_cons.1 hz with rfl | hz
          · exact ⟨v, hd' ▸ hv⟩
          · exact hall z hz
        · exact ⟨m'', hm'', Or.inr hres⟩

theorem returns_voteLoop (hc : CanVote S R ps lo h.store)
    (hr : RoundsLike h.store.roundCache rc) {x : H} {r : ℤ} {i : RoundInfo H}
    (hlo : lo ≤ r) (hx : x ∈ h.store.eventCache) (hi : rc.lookup r = some i) (n : ℕ) :
    ∀ {votes : Votes H} {j : ℤ} {m : Memo H}, m₀.Extends S R m → r < j →
      j + n ≤ h.store.lastRound + 1 →
      (r + 1 < j → VotesIn R ps h.store.WitnessAt r x votes (j - 1) []) →
      Exec.Returns (voteLoop S rt x r votes j n) (h.withRounds rc m) fun _ h' =>
        ∃ m', m₀.Extends S R m' ∧
          ((h' = h.withRounds rc m' ∧ ∀ k y, j ≤ k → k < j + n → h.store.WitnessAt k y →
              ∃ v, Voted R ps h.store.WitnessAt r x k y v false) ∨
            ∃ v, Decision R ps h.store r x v ∧
              h' = h.withRounds (rc.insert r (i.setFame x v)) m') := by
  induction n with
  | zero => exact fun hm _ _ _ => Exec.returns_pure ⟨_, hm, Or.inl ⟨rfl, fun k y _ _ => by omega⟩⟩
  | succ n ih =>
    intro votes j m hm hrj hjn hprev
    have hjl : j ≤ h.store.lastRound := by omega
    obtain ⟨i', -, hget, hwit⟩ := getRound_withRounds hr m (hc.rounds j (by omega) hjl)
    refine Exec.Returns.bind (returns_read hget ?_)
    refine Exec.Returns.bind (returns_read (hc.peers j (by omega) hjl) ?_)
    refine Exec.Returns.bind (returns_query (Query.returns_visit ?_))
    have hm' : m₀.Extends S R { m with tick := m.tick + 1 } := hm.tick _
    have hys : ∀ y, y ∈ rt.order m.tick i'.witnesses ↔ h.store.WitnessAt j y :=
      fun y => (rt.mem_order _).trans (hwit y)
    refine Exec.Returns.bind ((returns_voteRound hc hr hlo hrj hjl hx hi _ hm'
      (fun y hy => (hys y).1 hy) hprev fun y hy => Or.inl ((hys y).2 hy)).mono ?_)
    rintro ⟨votes', done⟩ h' ⟨m', hm', hres⟩
    rcases hres with ⟨hd, rfl, hin, hall⟩ | ⟨hd, v, hv, rfl⟩
    · simp only at hd hin
      subst hd
      refine (ih hm' (by omega) (by push_cast at hjn; omega) fun _ => ?_).mono ?_
      · rwa [add_sub_cancel_right]
      · rintro _ h' ⟨m'', hm'', ⟨rfl, hlater⟩ | hres⟩
        · refine ⟨m'', hm'', Or.inl ⟨rfl, fun k y hjk hkn hy => ?_⟩⟩
          rcases eq_or_lt_of_le hjk with rfl | hlt
          · exact hall y ((hys y).2 hy)
          · exact hlater k y (by omega) (by push_cast at hkn; omega) hy
        · exact ⟨m'', hm'', Or.inr hres⟩
    · simp only at hd
      subst hd
      exact Exec.returns_pure ⟨m', hm', Or.inr ⟨v, hv, rfl⟩⟩

theorem returns_decideWitnesses (hc : CanVote S R ps lo h.store) {r : ℤ} (hlo : lo ≤ r)
    (xs : List H) :
    ∀ {votes : Votes H} {rc : Map ℤ (RoundInfo H)} {m : Memo H} {i : RoundInfo H},
      RoundsLike h.store.roundCache rc → m₀.Extends S R m → rc.lookup r = some i →
      r ≤ h.store.lastRound → (∀ x ∈ xs, h.store.WitnessAt r x) →
      Exec.Returns (decideWitnesses S rt r votes xs) (h.withRounds rc m) fun _ h' =>
        ∃ rc' m' i', h' = h.withRounds rc' m' ∧ m₀.Extends S R m' ∧
          RoundsLike h.store.roundCache rc' ∧ rc'.lookup r = some i' ∧
          i.Judged (Decision R ps h.store r) i' ∧
          (∀ j, j ≠ r → rc'.lookup j = rc.lookup j) ∧
          ∀ x ∈ xs, i'.isDecided x = true ∨ Undecided R ps h.store r x := by
  induction xs with
  | nil =>
    intro votes rc m i hr hm hi _ _
    exact Exec.returns_pure ⟨rc, m, i, rfl, hm, hr, hi, .refl i, fun _ _ => rfl, by simp⟩
  | cons x xs ih =>
    intro votes rc m i hr hm hi hrl hxs
    have hx := hxs x List.mem_cons_self
    obtain ⟨i₀, hi₀, hget, hwit⟩ := getRound_withRounds hr m (hc.rounds r hlo hrl)
    rw [hi] at hi₀
    obtain rfl := Option.some.inj hi₀
    refine Exec.Returns.bind (returns_read hget ?_)
    split_ifs with hd
    · refine (ih hr hm hi hrl fun z hz => hxs z (List.mem_cons_of_mem x hz)).mono ?_
      rintro _ _ ⟨rc', m', i', rfl, hm', hr', hi', hj', hother, hall⟩
      exact ⟨rc', m', i', rfl, hm', hr', hi', hj', hother,
        List.forall_mem_cons.2 ⟨Or.inl (hj'.isDecided_mono hd), hall⟩⟩
    · refine Exec.Returns.bind (Exec.returns_get ?_)
      refine Exec.Returns.bind ((returns_voteLoop hc hr hlo (hc.stored r x hx) hi _ hm (by omega)
        (by simp only [withRounds]; omega) fun h => absurd h (by omega)).mono ?_)
      rintro votes' h' ⟨m', hm', ⟨rfl, hopen⟩ | ⟨v, hv, rfl⟩⟩
      · refine (ih hr hm' hi hrl fun z hz => hxs z (List.mem_cons_of_mem x hz)).mono ?_
        rintro _ _ ⟨rc', m'', i', rfl, hm'', hr', hi', hj', hother, hall⟩
        refine ⟨rc', m'', i', rfl, hm'', hr', hi', hj', hother,
          List.forall_mem_cons.2 ⟨Or.inr fun j y hrj hjl hy => ?_, hall⟩⟩
        exact hopen j y (by omega) (by simp only [withRounds]; omega) hy
      · have hj : i.Judged (Decision R ps h.store r) (i.setFame x v) :=
          .setFame ((hwit x).2 hx) (by simpa using hd) hv
        refine (ih (hr.insert hi fun w => hj.mem_witnesses_iff) hm' (AList.lookup_insert _) hrl
          fun z hz => hxs z (List.mem_cons_of_mem x hz)).mono ?_
        rintro _ _ ⟨rc', m'', i', rfl, hm'', hr', hi', hj', hother, hall⟩
        refine ⟨rc', m'', i', rfl, hm'', hr', hi', hj.trans hj', fun j hne => ?_,
          List.forall_mem_cons.2
            ⟨Or.inl (hj'.isDecided_mono (RoundInfo.isDecided_setFame ((hwit x).2 hx))), hall⟩⟩
        rw [hother j hne, AList.lookup_insert_ne hne]

/-- The rounds after a pass over the pending rounds `rs` : each judged, and then flagged if
its witnesses are decided. -/
structure Passed (R : Reading H K) (ps : ℤ → PeerSet K) (st : InmemStore H K)
    (rs : List PendingRound) (rc rc' : Map ℤ (RoundInfo H)) (decidedRounds : List ℤ) : Prop where
  like : RoundsLike st.roundCache rc'
  other : ∀ j, j ∉ rs.map PendingRound.index → rc'.lookup j = rc.lookup j
  judged : ∀ j ∈ rs.map PendingRound.index, ∃ i i', rc.lookup j = some i ∧
    i.Judged (Decision R ps st j) i' ∧ rc'.lookup j = some (i'.settle (ps j)) ∧
    (j ∈ decidedRounds ↔ i'.witnessesDecided (ps j) = true)
  sub : ∀ j ∈ decidedRounds, j ∈ rs.map PendingRound.index
  prompt : ∀ j ∈ rs.map PendingRound.index, ∀ i, rc'.lookup j = some i → ∀ x ∈ i.witnesses,
    i.isDecided x = true ∨ Undecided R ps st j x

theorem returns_decideRounds (hc : CanVote S R ps lo h.store) (rs : List PendingRound) :
    ∀ {votes : Votes H} {rc : Map ℤ (RoundInfo H)} {m : Memo H},
      RoundsLike h.store.roundCache rc → m₀.Extends S R m →
      (rs.map PendingRound.index).Nodup →
      (∀ r ∈ rs, lo ≤ r.index ∧ r.index ≤ h.store.lastRound) →
      Exec.Returns (decideRounds S rt votes rs) (h.withRounds rc m) fun dl h' =>
        ∃ rc' m', h' = h.withRounds rc' m' ∧ m₀.Extends S R m' ∧
          Passed R ps h.store rs rc rc' dl := by
  induction rs with
  | nil =>
    intro votes rc m hr hm _ _
    exact Exec.returns_pure ⟨rc, m, rfl, hm, hr, fun _ _ => rfl, by simp, by simp, by simp⟩
  | cons r rs ih =>
    intro votes rc m hr hm hnd hrs
    obtain ⟨hlo, hrl⟩ := hrs r List.mem_cons_self
    simp only [List.map_cons, List.nodup_cons] at hnd
    obtain ⟨i, hi, hget, hwit⟩ := getRound_withRounds hr m (hc.rounds r.index hlo hrl)
    refine Exec.Returns.bind (returns_read hget ?_)
    refine Exec.Returns.bind (returns_read (hc.peers r.index hlo hrl) ?_)
    refine Exec.Returns.bind (returns_query (Query.returns_visit ?_))
    have hm' : m₀.Extends S R { m with tick := m.tick + 1 } := hm.tick _
    refine Exec.Returns.bind ((returns_decideWitnesses hc hlo _ hr hm' hi hrl
      fun x hx => (hwit x).1 ((rt.mem_order _).1 hx)).mono ?_)
    rintro votes' _ ⟨rc₁, m₁, i₁, rfl, hm₁, hr₁, hi₁, hj₁, hother₁, hall₁⟩
    refine Exec.Returns.bind (returns_read (a := i₁)
      (by simp [withRounds, InmemStore.getRound, hi₁]) ?_)
    refine Exec.Returns.bind (returns_modifyStore ?_)
    rw [withRounds_setRound hrl]
    have hr₂ : RoundsLike h.store.roundCache (rc₁.insert r.index (i₁.settle (ps r.index))) :=
      hr₁.insert hi₁ fun w => Iff.rfl
    refine Exec.Returns.bind ((ih hr₂ hm₁ hnd.2
      fun r' hr' => hrs r' (List.mem_cons_of_mem r hr')).mono ?_)
    rintro dl _ ⟨rc', m', rfl, hm', hpass⟩
    refine Exec.returns_pure ⟨rc', m', rfl, hm', hpass.like, ?_, ?_, ?_, ?_⟩
    · intro j hj
      simp only [List.map_cons, List.mem_cons, not_or] at hj
      rw [hpass.other j hj.2, AList.lookup_insert_ne hj.1, hother₁ j hj.1]
    · have hdl : r.index ∉ dl := fun hmem => hnd.1 (hpass.sub _ hmem)
      intro j hj
      simp only [List.map_cons, List.mem_cons] at hj
      by_cases hjr : j = r.index
      · -- the rest of the list leaves this round alone
        subst hjr
        refine ⟨i, i₁, hi, hj₁, ?_, ?_⟩
        · rw [hpass.other _ hnd.1, AList.lookup_insert]
        · split_ifs with hd
          · simp [hd]
          · simp [hd, hdl]
      · obtain ⟨i', i'', hi', hj', hset, hmem⟩ := hpass.judged j (hj.resolve_left hjr)
        rw [AList.lookup_insert_ne hjr, hother₁ j hjr] at hi'
        refine ⟨i', i'', hi', hj', hset, ?_⟩
        rw [← hmem]
        split_ifs <;> simp [hjr]
    · intro j hj
      simp only [List.map_cons, List.mem_cons]
      by_cases hjr : j = r.index
      · exact Or.inl hjr
      · refine Or.inr (hpass.sub j ?_)
        split_ifs at hj with hd
        · exact (List.mem_cons.1 hj).resolve_left hjr
        · exact hj
    · intro j hj i' hi' x hx
      simp only [List.map_cons, List.mem_cons] at hj
      by_cases hjr : j = r.index
      · subst hjr
        rw [hpass.other _ hnd.1, AList.lookup_insert] at hi'
        obtain rfl := Option.some.inj hi'
        exact hall₁ x ((rt.mem_order _).2 (hj₁.mem_witnesses_iff.1 hx))
      · exact hpass.prompt j (hj.resolve_left hjr) i' hi' x hx

/-- The fame pass. -/
theorem returns_decideFame (hc : CanVote S R ps lo h.store) (hm : h.memo.Coherent S R)
    (hnd : (h.pendingRounds.map PendingRound.index).Nodup)
    (hpr : ∀ r ∈ h.pendingRounds, lo ≤ r.index ∧ r.index ≤ h.store.lastRound) :
    Exec.Returns (decideFame S rt) h fun _ h' =>
      ∃ rc m dl, h' = { h.withRounds rc m with pendingRounds := h.pendingRounds.update dl } ∧
        h.memo.Extends S R m ∧
        Passed R ps h.store h.pendingRounds h.store.roundCache rc dl := by
  refine Exec.Returns.bind (Exec.returns_get (Exec.Returns.bind ?_))
  change Exec.Returns _ (h.withRounds h.store.roundCache h.memo) _
  refine (returns_decideRounds hc h.pendingRounds
    (RoundsLike.refl _) ⟨hm, .refl _⟩ hnd hpr).mono ?_
  rintro dl _ ⟨rc, m, rfl, hm', hpass⟩
  exact Exec.returns_modify ⟨rc, m, dl, rfl, hm', hpass⟩

end Pass

end Hashgraph

end Babble

import Babble.EventGraph
import Mathlib.Algebra.Order.Group.Nat
import Mathlib.Tactic.Ring

/-!
# Rounds and virtual voting on an event graph

Over an event graph and a set of peers for every round, an event gets a round : the
highest round of its parents, and one more if it strongly sees enough witnesses of that
round. A witness is the first event of a peer in a round. Witnesses vote on the fame of
earlier witnesses, those of the next round by what they see and the later ones by the
majority of the votes they strongly see, with a coin in every fourth round.

The set of peers may change from round to round. Two witnesses that decide the fame of
`x` agree (`Decides.eq`) if the peers change slowly enough (`Fair`), in particular if they
do not change (`fair_const`). A witness that some event two rounds later does not see is
never famous (`not_famous_of_not_anc`).

`Received i x` says that `i` is the first round all of whose famous witnesses see `x`.
-/

namespace EventGraph

variable {E K : Type} (G : EventGraph E K)

/-- More than two thirds of a set of peers. -/
def quorum (P : Finset K) : ℕ :=
  2 * P.card / 3 + 1

open Classical in
/-- The number of peers in `P` that have an event with `f`. -/
noncomputable def count (P : Finset K) (f : E → Prop) : ℕ :=
  (P.filter fun k => ∃ w, G.Mem w ∧ G.creator w = k ∧ f w).card

/-- `x` descends from first descendants of `w` by more than two thirds of `P`. -/
def StronglySees (stop : E → Prop) (P : Finset K) (x w : E) : Prop :=
  quorum P ≤ G.count P fun z => G.Anc x z ∧ G.FirstDesc stop w z

/-! ## Counting -/

section Counting

variable {G} {P : Finset K} {f g : E → Prop}

theorem quorum_pos (P : Finset K) : 0 < quorum P :=
  Nat.succ_pos _

theorem count_mono (h : ∀ w, G.Mem w → f w → g w) : G.count P f ≤ G.count P g := by
  refine Finset.card_le_card fun k hk => ?_
  simp only [Finset.mem_filter] at hk ⊢
  obtain ⟨hP, w, hm, hc, hf⟩ := hk
  exact ⟨hP, w, hm, hc, h w hm hf⟩

theorem count_congr (h : ∀ w, G.Mem w → (f w ↔ g w)) : G.count P f = G.count P g :=
  le_antisymm (count_mono fun w hm => (h w hm).1) (count_mono fun w hm => (h w hm).2)

open Classical in
theorem count_le_card : G.count P f ≤ P.card :=
  Finset.card_filter_le _ _

theorem exists_of_count_pos (h : 0 < G.count P f) : ∃ w, G.Mem w ∧ G.creator w ∈ P ∧ f w := by
  obtain ⟨k, hk⟩ := Finset.card_pos.1 h
  simp only [Finset.mem_filter] at hk
  obtain ⟨hP, w, hm, rfl, hf⟩ := hk
  exact ⟨w, hm, hP, hf⟩

/-- Two properties that no creator meets with two of its events count distinct peers. -/
theorem count_add_le (h : ∀ w w', G.Mem w → G.Mem w' → G.creator w = G.creator w' →
    f w → ¬g w') : G.count P f + G.count P g ≤ P.card := by
  classical
  unfold count
  rw [← Finset.card_union_of_disjoint]
  · refine Finset.card_le_card fun k hk => ?_
    rw [Finset.mem_union, Finset.mem_filter, Finset.mem_filter] at hk
    exact hk.elim And.left And.left
  · rw [Finset.disjoint_left]
    intro k hk hk'
    rw [Finset.mem_filter] at hk hk'
    obtain ⟨-, w, hm, hc, hf⟩ := hk
    obtain ⟨-, w', hm', hc', hg⟩ := hk'
    exact h w w' hm hm' (hc.trans hc'.symm) hf hg

theorem count_le_add (g : E → Prop) : G.count P f ≤
    G.count P (fun w => f w ∧ g w) + G.count P fun w => f w ∧ ¬g w := by
  classical
  unfold count
  refine le_trans (Finset.card_le_card fun k hk => ?_) (Finset.card_union_le _ _)
  rw [Finset.mem_filter] at hk
  obtain ⟨hP, w, hm, hc, hf⟩ := hk
  rw [Finset.mem_union, Finset.mem_filter, Finset.mem_filter]
  by_cases hg : g w
  · exact Or.inl ⟨hP, w, hm, hc, hf, hg⟩
  · exact Or.inr ⟨hP, w, hm, hc, hf, hg⟩

/-- A list with one event of every peer that has one with `f` counts them. -/
theorem count_eq_length {l : List E} (hnd : l.Nodup)
    (hl : ∀ w ∈ l, G.Mem w ∧ G.creator w ∈ P ∧ f w)
    (hall : ∀ w, G.Mem w → G.creator w ∈ P → f w → w ∈ l)
    (hone : ∀ w ∈ l, ∀ w' ∈ l, G.creator w = G.creator w' → w = w') :
    G.count P f = l.length := by
  classical
  have hmap : (l.map G.creator).Nodup := hnd.map_on hone
  rw [← List.length_map G.creator, ← List.toFinset_card_of_nodup hmap, count]
  congr 1
  ext k
  simp only [Finset.mem_filter, List.mem_toFinset, List.mem_map]
  constructor
  · rintro ⟨hk, w, hm, rfl, hf⟩
    exact ⟨w, hall w hm hk hf, rfl⟩
  · rintro ⟨w, hw, rfl⟩
    obtain ⟨hm, hk, hf⟩ := hl w hw
    exact ⟨hk, w, hm, rfl, hf⟩

end Counting

/-! ## Rounds -/

section Rounds

variable (peers : ℤ → Finset K) (r : E → ℤ)

/-- The value of the self-parent, `-1` without one. -/
def selfValue (x : E) : ℤ :=
  match G.selfParent x with
  | none => -1
  | some p => r p

/-- The highest value of a parent, `-1` without one. -/
def parentValue (x : E) : ℤ :=
  match G.otherParent x with
  | none => G.selfValue r x
  | some p => max (G.selfValue r x) (r p)

/-- The first event of a peer in its round, for a given assignment of rounds. -/
def WitnessFor (x : E) : Prop :=
  G.creator x ∈ peers (r x) ∧ G.selfValue r x < r x

open Classical in
/-- The round of `x`, for given rounds of its ancestors. -/
noncomputable def roundFrom (x : E) : ℤ :=
  if G.parentValue r x = -1 then 0
  else if quorum (peers (G.parentValue r x)) ≤
      G.count (peers (G.parentValue r x)) fun w =>
        G.SAnc x w ∧ r w = G.parentValue r x ∧ G.WitnessFor peers r w ∧
          G.StronglySees (fun e => G.SAnc x e ∧ G.WitnessFor peers r e)
            (peers (G.parentValue r x)) x w
  then G.parentValue r x + 1
  else G.parentValue r x

open Classical in
/-- The round of an event. -/
noncomputable def round : E → ℤ :=
  G.sAnc_wf.fix fun x rec =>
    G.roundFrom peers (fun y => if h : G.SAnc x y then rec y h else 0) x

open Classical in
/-- One more than the highest height of a parent. -/
noncomputable def height : E → ℤ :=
  G.sAnc_wf.fix fun x rec =>
    G.parentValue (fun y => if h : G.SAnc x y then rec y h else 0) x + 1

/-- The first event of a peer in its round. -/
def Witness (x : E) : Prop :=
  G.WitnessFor peers (G.round peers) x

/-- `x` strongly sees `w`, with witnesses truncating the descent. -/
def Sees (P : Finset K) (x w : E) : Prop :=
  G.StronglySees (G.Witness peers) P x w

end Rounds

variable {G} {peers : ℤ → Finset K} {r r' : E → ℤ} {x y z w : E}

theorem selfValue_congr (h : ∀ y, G.SAnc x y → r y = r' y) : G.selfValue r x = G.selfValue r' x := by
  unfold selfValue
  cases hs : G.selfParent x with
  | none => rfl
  | some p => exact h p (Relation.TransGen.single (Or.inl hs))

theorem parentValue_congr (h : ∀ y, G.SAnc x y → r y = r' y) :
    G.parentValue r x = G.parentValue r' x := by
  unfold parentValue
  rw [selfValue_congr h]
  cases hs : G.otherParent x with
  | none => rfl
  | some p => simp only [h p (Relation.TransGen.single (Or.inr hs))]

theorem witnessFor_congr (hw : r w = r' w) (h : ∀ y, G.SAnc w y → r y = r' y) :
    G.WitnessFor peers r w ↔ G.WitnessFor peers r' w := by
  unfold WitnessFor
  rw [hw, selfValue_congr h]

theorem stronglySees_congr {stop stop' : E → Prop} {P : Finset K}
    (h : ∀ e, G.SAnc x e → (stop e ↔ stop' e)) :
    G.StronglySees stop P x w ↔ G.StronglySees stop' P x w := by
  unfold StronglySees
  rw [count_congr fun z hz => and_congr_right fun hxz => ⟨fun hf => ?_, fun hf => ?_⟩]
  · exact hf.congr hz fun e he => (h e (hxz.trans_sAnc he)).2
  · exact hf.congr hz fun e he => (h e (hxz.trans_sAnc he)).1

theorem roundFrom_congr (h : ∀ y, G.SAnc x y → r y = r' y) :
    G.roundFrom peers r x = G.roundFrom peers r' x := by
  have hw : ∀ w, G.SAnc x w → (G.WitnessFor peers r w ↔ G.WitnessFor peers r' w) :=
    fun w hxw => witnessFor_congr (h w hxw) fun y hy => h y (hxw.anc.trans_sAnc hy)
  unfold roundFrom
  rw [parentValue_congr h]
  have hc : ∀ p : ℤ, (G.count (peers p) fun w => G.SAnc x w ∧ r w = p ∧
        G.WitnessFor peers r w ∧
          G.StronglySees (fun e => G.SAnc x e ∧ G.WitnessFor peers r e) (peers p) x w) =
      G.count (peers p) fun w => G.SAnc x w ∧ r' w = p ∧ G.WitnessFor peers r' w ∧
          G.StronglySees (fun e => G.SAnc x e ∧ G.WitnessFor peers r' e) (peers p) x w := by
    intro p
    refine count_congr fun w _ => and_congr_right fun hxw => ?_
    rw [h w hxw, hw w hxw, stronglySees_congr fun e he => and_congr_right fun _ => hw e he]
  rw [hc]

theorem round_eq_roundFrom (x : E) : G.round peers x = G.roundFrom peers (G.round peers) x := by
  rw [round, WellFounded.fix_eq]
  refine roundFrom_congr fun y hy => ?_
  rw [dif_pos hy]

theorem height_eq (x : E) : G.height x = G.parentValue G.height x + 1 := by
  rw [height, WellFounded.fix_eq]
  congr 1
  refine parentValue_congr fun y hy => ?_
  rw [dif_pos hy]

/-- The round of an event from the rounds of its parents and the witnesses it strongly
sees. -/
theorem round_eq (x : E) : G.round peers x =
    if G.parentValue (G.round peers) x = -1 then 0
    else if quorum (peers (G.parentValue (G.round peers) x)) ≤
        G.count (peers (G.parentValue (G.round peers) x)) fun w =>
          G.SAnc x w ∧ G.round peers w = G.parentValue (G.round peers) x ∧ G.Witness peers w ∧
            G.Sees peers (peers (G.parentValue (G.round peers) x)) x w
    then G.parentValue (G.round peers) x + 1
    else G.parentValue (G.round peers) x := by
  classical
  rw [round_eq_roundFrom, roundFrom]
  have hc : ∀ p : ℤ, (G.count (peers p) fun w => G.SAnc x w ∧ G.round peers w = p ∧
        G.WitnessFor peers (G.round peers) w ∧ G.StronglySees
          (fun e => G.SAnc x e ∧ G.WitnessFor peers (G.round peers) e) (peers p) x w) =
      G.count (peers p) fun w => G.SAnc x w ∧ G.round peers w = p ∧ G.Witness peers w ∧
          G.Sees peers (peers p) x w := by
    intro p
    refine count_congr fun w _ => and_congr_right fun _ => ?_
    rw [Sees, stronglySees_congr fun e he => and_iff_right he]
    rfl
  rw [hc]

/-! ## Rounds along ancestry -/

theorem round_nonneg (G : EventGraph E K) (peers : ℤ → Finset K) (x : E) : 0 ≤ G.round peers x := by
  induction x using G.wf.induction with
  | _ x ih =>
    have hp : -1 ≤ G.parentValue (G.round peers) x := by
      have hs : -1 ≤ G.selfValue (G.round peers) x := by
        unfold selfValue
        cases hs : G.selfParent x with
        | none => exact le_rfl
        | some p => exact le_trans (by omega) (ih p (Or.inl hs))
      unfold parentValue
      cases G.otherParent x with
      | none => exact hs
      | some p => exact le_trans hs (le_max_left _ _)
    rw [round_eq]
    split_ifs <;> omega

theorem parentValue_le_round (x : E) : G.parentValue (G.round peers) x ≤ G.round peers x := by
  rw [round_eq]
  split_ifs <;> omega

theorem round_le_parentValue_add_one (G : EventGraph E K) (peers : ℤ → Finset K) (x : E) :
    G.round peers x ≤ G.parentValue (G.round peers) x + 1 := by
  rw [round_eq]
  split_ifs <;> omega

theorem le_parentValue {p : E} (h : G.Parent p x) : r p ≤ G.parentValue r x := by
  unfold parentValue
  rcases h with h | h
  · have hs : G.selfValue r x = r p := by simp [selfValue, h]
    cases G.otherParent x with
    | none => exact hs.ge
    | some q => exact hs.ge.trans (le_max_left _ _)
  · rw [h]
    exact le_max_right _ _

theorem SAnc.height_lt (h : G.SAnc x y) : G.height y < G.height x := by
  have hp : ∀ {p x : E}, G.Parent p x → G.height p < G.height x := by
    intro p x hp
    rw [height_eq x]
    exact Int.lt_add_one_of_le (le_parentValue hp)
  induction h with
  | single h => exact hp h
  | tail _ h ih => exact ih.trans (hp h)

theorem exists_parent_of_parentValue (h : G.parentValue r x ≠ -1) :
    ∃ p, G.Parent p x ∧ r p = G.parentValue r x := by
  unfold parentValue at h ⊢
  cases ho : G.otherParent x with
  | none =>
    simp only [ho, selfValue] at h ⊢
    cases hs : G.selfParent x with
    | none => simp [hs] at h
    | some p => exact ⟨p, Or.inl hs, rfl⟩
  | some q =>
    simp only [ho] at h ⊢
    rcases le_total (G.selfValue r x) (r q) with hle | hle
    · exact ⟨q, Or.inr ho, (max_eq_right hle).symm⟩
    · rw [max_eq_left hle] at h ⊢
      unfold selfValue at h ⊢
      cases hs : G.selfParent x with
      | none => simp [hs] at h
      | some p => exact ⟨p, Or.inl hs, rfl⟩

theorem Anc.round_le (peers : ℤ → Finset K) (h : G.Anc x y) : G.round peers y ≤ G.round peers x := by
  induction h with
  | refl => exact le_rfl
  | tail _ hp ih => exact ih.trans ((le_parentValue hp).trans (parentValue_le_round _))

/-- Rounds go up by one at a time. -/
theorem exists_anc_round_eq {j : ℤ} (hj : 0 ≤ j) (h : j ≤ G.round peers x) :
    ∃ y, G.Anc x y ∧ G.round peers y = j := by
  induction x using G.wf.induction with
  | _ x ih =>
    rcases h.lt_or_eq with hlt | heq
    · have hne : G.parentValue (G.round peers) x ≠ -1 := by
        intro hp
        have := G.round_le_parentValue_add_one peers x
        omega
      obtain ⟨p, hp, hpr⟩ := exists_parent_of_parentValue hne
      have := G.round_le_parentValue_add_one peers x
      obtain ⟨y, hy, hyr⟩ := ih p hp (by omega)
      exact ⟨y, hp.anc.trans hy, hyr⟩
    · exact ⟨x, Anc.refl x, heq.symm⟩

theorem Sees.mono {P : Finset K} (h : G.Sees peers P y w) (hxy : G.Anc x y) :
    G.Sees peers P x w :=
  le_trans h (count_mono fun _ _ hz => ⟨hxy.trans hz.1, hz.2⟩)

theorem Sees.anc {P : Finset K} (h : G.Sees peers P x w) : G.Anc x w := by
  obtain ⟨z, -, -, hxz, hz⟩ := exists_of_count_pos ((quorum_pos P).trans_le h)
  exact hxz.trans hz.anc

/-- A peer has one witness per round. -/
theorem Witness.unique (hx : G.Mem x) (hy : G.Mem y) (hwx : G.Witness peers x)
    (hwy : G.Witness peers y) (hc : G.creator x = G.creator y)
    (hr : G.round peers x = G.round peers y) : x = y := by
  -- the later of two is not the first of its round
  have key : ∀ {x y}, G.Mem x → G.Mem y → G.Witness peers y → G.creator x = G.creator y →
      G.round peers x = G.round peers y → ¬G.index x < G.index y := by
    intro x y hx hy hwy hc hr hi
    obtain ⟨p, hs, -, -, hpx⟩ := anc_selfParent_of_index_lt hy hx hc.symm hi
    have hlt := hwy.2
    simp only [selfValue, hs] at hlt
    have := hpx.round_le peers
    omega
  refine G.unique hx hy hc (le_antisymm ?_ ?_)
  · exact not_lt.1 (key hy hx hwx hc.symm hr.symm)
  · exact not_lt.1 (key hx hy hwy hc hr)

/-- The first event of a peer in the round of `y` is a witness. -/
theorem exists_witness_of_round {j : ℤ} (hy : G.round peers y = j) (hc : G.creator y ∈ peers j) :
    ∃ w, G.Anc y w ∧ G.round peers w = j ∧ G.Witness peers w := by
  induction y using G.wf.induction with
  | _ y ih =>
    by_cases hlt : G.selfValue (G.round peers) y < j
    · exact ⟨y, .refl y, hy, hy ▸ hc, hy ▸ hlt⟩
    · -- the self-parent is of the same round
      cases hp : G.selfParent y with
      | none =>
        have hself : G.selfValue (G.round peers) y = -1 := by rw [selfValue, hp]
        have := G.round_nonneg peers y
        omega
      | some p =>
        have hself : G.selfValue (G.round peers) y = G.round peers p := by rw [selfValue, hp]
        have hle := (anc_of_selfParent hp).round_le peers
        obtain ⟨w, hpw, hw⟩ := ih p (Or.inl hp) (by omega) (G.creator_selfParent hp ▸ hc)
        exact ⟨w, (anc_of_selfParent hp).trans hpw, hw⟩

/-! ## Votes -/

/-- `w` is a witness of round `j` that `y` strongly sees. -/
structure SeenWitness (G : EventGraph E K) (peers : ℤ → Finset K) (j : ℤ) (y w : E) : Prop where
  round_eq : G.round peers w = j
  witness : G.Witness peers w
  sees : G.Sees peers (peers j) y w

variable (G peers) in
/-- The number of witnesses of round `j` with `f` that `y` strongly sees. -/
noncomputable def poll (j : ℤ) (y : E) (f : E → Prop) : ℕ :=
  G.count (peers j) fun w => G.SeenWitness peers j y w ∧ f w

/-- An event strongly sees a quorum of the witnesses of every round before its own. -/
theorem quorum_le_poll {j : ℤ} (hj : 0 ≤ j) (h : j + 1 ≤ G.round peers x) :
    quorum (peers j) ≤ G.poll peers j x fun _ => True := by
  -- an ancestor of the next round does, by induction on ancestry
  have key : ∀ y, G.round peers y = j + 1 → quorum (peers j) ≤ G.poll peers j y fun _ => True := by
    intro y
    induction y using G.wf.induction with
    | _ y ih =>
      intro hy
      rw [round_eq] at hy
      split_ifs at hy with h1 h2
      · omega
      · obtain rfl : j = G.parentValue (G.round peers) y := by omega
        exact h2.trans (count_mono fun w _ hw => ⟨⟨hw.2.1, hw.2.2.1, hw.2.2.2⟩, trivial⟩)
      · obtain ⟨p, hp, hpr⟩ := exists_parent_of_parentValue h1
        exact (ih p hp (hpr.trans hy)).trans (count_mono fun w _ hw =>
          ⟨⟨hw.1.round_eq, hw.1.witness, hw.1.sees.mono hp.anc⟩, trivial⟩)
  obtain ⟨y, hxy, hy⟩ := exists_anc_round_eq (by omega) h
  exact (key y hy).trans (count_mono fun w _ hw =>
    ⟨⟨hw.1.round_eq, hw.1.witness, hw.1.sees.mono hxy⟩, trivial⟩)

theorem poll_mono {j : ℤ} {f g : E → Prop}
    (h : ∀ w, G.Mem w → G.SeenWitness peers j y w → f w → g w) :
    G.poll peers j y f ≤ G.poll peers j y g :=
  count_mono fun w hm hw => ⟨hw.1, h w hm hw.1 hw.2⟩

/-- Polls for two exclusive properties, by whatever events, count distinct peers. -/
theorem poll_add_poll_le {j : ℤ} {f g : E → Prop} (h : ∀ w, f w → ¬g w) :
    G.poll peers j y f + G.poll peers j z g ≤ (peers j).card := by
  refine count_add_le fun w w' hm hm' hc hw hw' => h w hw.2 ?_
  rw [Witness.unique hm hm' hw.1.witness hw'.1.witness hc
    (hw.1.round_eq.trans hw'.1.round_eq.symm)]
  exact hw'.2

theorem poll_le_add {j : ℤ} (v : E → Bool) (b : Bool) :
    (G.poll peers j y fun _ => True) ≤
      (G.poll peers j y fun w => v w = b) + G.poll peers j y fun w => v w = !b := by
  refine (count_le_add fun w => v w = b).trans (Nat.add_le_add ?_ ?_)
  · exact count_mono fun w _ hw => ⟨hw.1.1, hw.2⟩
  · refine count_mono fun w _ hw => ⟨hw.1.1, ?_⟩
    have hne := hw.2
    cases b <;> simpa using hne

section Votes

variable (G peers) (coin : E → Bool) (x : E)

/-- The round of the witnesses at distance `d` from `x`. -/
noncomputable def roundAt (d : ℕ) : ℤ :=
  G.round peers x + d

open Classical in
/-- The vote on `x` of a witness `d` rounds after it. -/
noncomputable def vote : ℕ → E → Bool
  | 0 => fun _ => false
  | 1 => fun y => decide (G.Anc y x)
  | d + 2 => fun y =>
    let yays := G.poll peers (G.roundAt peers x (d + 1)) y fun w => vote (d + 1) w = true
    let nays := G.poll peers (G.roundAt peers x (d + 1)) y fun w => vote (d + 1) w = false
    if (d + 2) % 4 ≠ 0 ∨ quorum (peers (G.roundAt peers x (d + 2))) ≤ max yays nays then
      decide (nays ≤ yays)
    else coin y

/-- The number of votes `b` of witnesses `d` rounds after `x` that `y` strongly sees. -/
noncomputable def ballots (d : ℕ) (y : E) (b : Bool) : ℕ :=
  G.poll peers (G.roundAt peers x d) y fun w => G.vote peers coin x d w = b

/-- `y`, a witness `d + 1` rounds after `x`, decides the fame of `x` to be `b`. -/
structure Decides (d : ℕ) (y : E) (b : Bool) : Prop where
  distance : 1 ≤ d
  normal : (d + 1) % 4 ≠ 0
  enough : quorum (peers (G.roundAt peers x (d + 1))) ≤
    max (G.ballots peers coin x d y true) (G.ballots peers coin x d y false)
  vote_eq : G.vote peers coin x (d + 1) y = b

/-- `y` is a witness `d` rounds after `x`. -/
structure VoterAt (d : ℕ) (y : E) : Prop where
  mem : G.Mem y
  witness : G.Witness peers y
  round_eq : G.round peers y = G.roundAt peers x d

/-- All witnesses `d` rounds after `x` vote `b`. -/
def Unanimous (d : ℕ) (b : Bool) : Prop :=
  ∀ y, G.VoterAt peers x d y → G.vote peers coin x d y = b

/-- Some witness decides `x` to be famous. -/
def Famous : Prop :=
  ∃ d y, G.VoterAt peers x (d + 1) y ∧ G.Decides peers coin x d y true

end Votes

/-- The peers change so slowly after round `r` that a decision binds all later votes :
in a normal round the threshold of the round leaves the voters of the previous one no
other majority, and in a coin round a quorum of the previous round meets the threshold. -/
def Fair (peers : ℤ → Finset K) (r : ℤ) : Prop :=
  ∀ d : ℕ, 1 ≤ d →
    ((d + 1) % 4 ≠ 0 → 2 * (peers (r + d)).card <
      2 * quorum (peers (r + d + 1)) + quorum (peers (r + d))) ∧
    ((d + 1) % 4 = 0 → quorum (peers (r + d + 1)) ≤ quorum (peers (r + d)))

theorem fair_const (P : Finset K) (r : ℤ) : Fair (fun _ => P) r := by
  intro d _
  constructor
  · intro _
    simp only [quorum]
    omega
  · exact fun _ => le_rfl

variable {coin : E → Bool}

theorem roundAt_nonneg (G : EventGraph E K) (peers : ℤ → Finset K) (x : E) (d : ℕ) : 0 ≤ G.roundAt peers x d := by
  have := G.round_nonneg peers x
  unfold roundAt
  omega

theorem roundAt_succ (d : ℕ) : G.roundAt peers x (d + 1) = G.roundAt peers x d + 1 := by
  unfold roundAt
  push_cast
  ring

theorem vote_succ {d : ℕ} (hd : 1 ≤ d) (y : E) :
    G.vote peers coin x (d + 1) y =
      if (d + 1) % 4 ≠ 0 ∨ quorum (peers (G.roundAt peers x (d + 1))) ≤
          max (G.ballots peers coin x d y true) (G.ballots peers coin x d y false) then
        decide (G.ballots peers coin x d y false ≤ G.ballots peers coin x d y true)
      else coin y := by
  obtain ⟨d, rfl⟩ := Nat.exists_eq_add_of_le' hd
  rfl

/-- A voter polls a quorum of the witnesses of the round before its own. -/
theorem VoterAt.quorum_le {d : ℕ} (h : G.VoterAt peers x (d + 1) y) :
    quorum (peers (G.roundAt peers x d)) ≤ G.poll peers (G.roundAt peers x d) y fun _ => True :=
  quorum_le_poll (G.roundAt_nonneg peers x d) (by rw [h.round_eq, roundAt_succ])

/-- The votes on one side are at least what the quorum leaves to it. -/
theorem VoterAt.quorum_le_ballots {d : ℕ} (h : G.VoterAt peers x (d + 1) y) (coin : E → Bool)
    (b : Bool) :
    quorum (peers (G.roundAt peers x d)) ≤
      G.ballots peers coin x d y b + G.ballots peers coin x d y !b :=
  h.quorum_le.trans (poll_le_add _ b)

/-- More votes for `b` than against, in a round where that counts, are a vote for `b`. -/
theorem vote_eq_of_lt {d : ℕ} {b : Bool} (hd : 1 ≤ d)
    (hlt : G.ballots peers coin x d y (!b) < G.ballots peers coin x d y b)
    (hc : (d + 1) % 4 = 0 → quorum (peers (G.roundAt peers x (d + 1))) ≤
      G.ballots peers coin x d y b) : G.vote peers coin x (d + 1) y = b := by
  rw [vote_succ hd, if_pos]
  · cases b with
    | true => exact decide_eq_true hlt.le
    | false => exact decide_eq_false (not_le.2 hlt)
  · by_cases h4 : (d + 1) % 4 = 0
    · refine Or.inr ((hc h4).trans ?_)
      cases b
      exacts [le_max_right _ _, le_max_left _ _]
    · exact Or.inl h4

/-- A unanimous round makes the next one unanimous. -/
theorem Unanimous.succ {d : ℕ} {b : Bool} (hd : 1 ≤ d) (h : G.Unanimous peers coin x d b)
    (hcoin : (d + 1) % 4 = 0 →
      quorum (peers (G.roundAt peers x (d + 1))) ≤ quorum (peers (G.roundAt peers x d))) :
    G.Unanimous peers coin x (d + 1) b := by
  intro y hy
  -- whoever `y` strongly sees voted `b`
  have hnone : G.ballots peers coin x d y (!b) = 0 := by
    by_contra hne
    obtain ⟨w, hm, -, hw, hv⟩ := exists_of_count_pos (Nat.pos_of_ne_zero hne)
    rw [h w ⟨hm, hw.witness, hw.round_eq⟩] at hv
    cases b <;> simp at hv
  have hq := hy.quorum_le_ballots coin b
  have hpos := quorum_pos (peers (G.roundAt peers x d))
  exact vote_eq_of_lt hd (by omega) fun h4 => (hcoin h4).trans (by omega)

theorem Unanimous.add {d : ℕ} {b : Bool} (hd : 1 ≤ d) (h : G.Unanimous peers coin x d b)
    (hfair : Fair peers (G.round peers x)) (n : ℕ) : G.Unanimous peers coin x (d + n) b := by
  induction n with
  | zero => exact h
  | succ n ih =>
    refine Unanimous.succ (d := d + n) (by omega) ih fun h4 => ?_
    have := (hfair (d + n) (by omega)).2 h4
    rwa [roundAt_succ]

/-- A decision for `b` has the threshold of votes for `b`. -/
theorem Decides.le_ballots {d : ℕ} {b : Bool} (h : G.Decides peers coin x d y b) :
    quorum (peers (G.roundAt peers x (d + 1))) ≤ G.ballots peers coin x d y b := by
  have henough := h.enough
  have hv := h.vote_eq
  rw [vote_succ h.distance, if_pos (Or.inl h.normal)] at hv
  cases b with
  | true => rwa [max_eq_left (of_decide_eq_true hv)] at henough
  | false => rwa [max_eq_right (not_le.1 (of_decide_eq_false hv)).le] at henough

/-- A decision makes its round unanimous. -/
theorem Decides.unanimous {d : ℕ} {b : Bool} (h : G.Decides peers coin x d y b)
    (hfair : Fair peers (G.round peers x)) : G.Unanimous peers coin x (d + 1) b := by
  intro z hz
  have hd := h.le_ballots
  have hf := (hfair d h.distance).1 h.normal
  -- the votes for `b` that decided leave few votes against it, whoever polls
  have hcap : G.ballots peers coin x d y b + G.ballots peers coin x d z (!b) ≤
      (peers (G.roundAt peers x d)).card :=
    poll_add_poll_le fun w hw hw' => by rw [hw] at hw'; cases b <;> simp at hw'
  have hq := hz.quorum_le_ballots coin b
  rw [roundAt_succ] at hd
  unfold roundAt at hd hq hcap
  exact vote_eq_of_lt h.distance (by omega) fun h4 => absurd h4 h.normal

/-- Two decisions on one witness agree. -/
theorem Decides.eq {d d' : ℕ} {b b' : Bool} {y' : E} (h : G.Decides peers coin x d y b)
    (hy : G.VoterAt peers x (d + 1) y) (h' : G.Decides peers coin x d' y' b')
    (hy' : G.VoterAt peers x (d' + 1) y') (hfair : Fair peers (G.round peers x)) : b = b' := by
  -- the earlier decision binds the later witness
  have key : ∀ {d d' : ℕ} {b b' : Bool} {y y' : E}, d ≤ d' → G.Decides peers coin x d y b →
      G.Decides peers coin x d' y' b' → G.VoterAt peers x (d' + 1) y' → b = b' := by
    intro d d' b b' y y' hle h h' hy'
    have hu := (h.unanimous hfair).add (by omega) hfair (d' - d)
    rw [show d + 1 + (d' - d) = d' + 1 by omega] at hu
    exact (hu y' hy').symm.trans h'.vote_eq
  rcases le_total d d' with hle | hle
  · exact key hle h h' hy'
  · exact (key hle h' h hy).symm

/-! ## Late witnesses -/

/-- If an event two rounds after `x` does not descend from `x`, all witnesses two rounds
after `x` vote against it. -/
theorem unanimous_false_of_not_anc (coin : E → Bool) (hy : G.roundAt peers x 2 ≤ G.round peers y)
    (hn : ¬G.Anc y x) : G.Unanimous peers coin x 2 false := by
  intro z hz
  -- the witnesses that `y` strongly sees do not see `x`
  have hno : quorum (peers (G.roundAt peers x 1)) ≤ G.ballots peers coin x 1 y false := by
    have hj : G.roundAt peers x 1 + 1 ≤ G.round peers y := by rwa [← roundAt_succ]
    refine (quorum_le_poll (G.roundAt_nonneg peers x 1) hj).trans (poll_mono fun w _ hw _ => ?_)
    simpa [vote] using fun hwx => hn (hw.sees.anc.trans hwx)
  have hcap : G.ballots peers coin x 1 y false + G.ballots peers coin x 1 z true ≤
      (peers (G.roundAt peers x 1)).card :=
    poll_add_poll_le fun w hw hw' => by rw [hw] at hw'; simp at hw'
  have hq := hz.quorum_le_ballots coin false
  simp only [Bool.not_false] at hq
  refine vote_eq_of_lt le_rfl ?_ (by simp)
  simp only [Bool.not_false]
  have : 2 * (peers (G.roundAt peers x 1)).card < 3 * quorum (peers (G.roundAt peers x 1)) := by
    unfold quorum
    omega
  omega

/-- A witness that some event two rounds later does not descend from is never famous. -/
theorem not_famous_of_not_anc (hy : G.roundAt peers x 2 ≤ G.round peers y)
    (hn : ¬G.Anc y x) (hfair : Fair peers (G.round peers x)) : ¬G.Famous peers coin x := by
  rintro ⟨d, z, hz, hdec⟩
  have hd := hdec.distance
  have hu := (unanimous_false_of_not_anc coin hy hn).add (by omega) hfair (d - 1)
  rw [show 2 + (d - 1) = d + 1 by omega] at hu
  have := (hu z hz).symm.trans hdec.vote_eq
  simp at this

/-! ## Round-received -/

section Received

variable (G peers coin)

/-- `w` is a famous witness of round `i`. -/
structure FamousIn (i : ℤ) (w : E) : Prop where
  mem : G.Mem w
  witness : G.Witness peers w
  round_eq : G.round peers w = i
  famous : G.Famous peers coin w

/-- The famous witnesses of round `i` are a quorum and all descend from `x`. -/
structure Receives (i : ℤ) (x : E) : Prop where
  enough : quorum (peers i) ≤ G.count (peers i) (G.FamousIn peers coin i)
  anc : ∀ w, G.FamousIn peers coin i w → G.Anc w x

/-- `i` is the first round after that of `x` that receives `x`. -/
structure Received (i : ℤ) (x : E) : Prop where
  mem : G.Mem x
  round_lt : G.round peers x < i
  receives : G.Receives peers coin i x
  first : ∀ j, G.round peers x < j → j < i → ¬G.Receives peers coin j x

end Received

theorem Received.unique {i j : ℤ} (h : G.Received peers coin i x)
    (h' : G.Received peers coin j x) : i = j := by
  refine le_antisymm ?_ ?_
  · exact not_lt.1 fun hlt => h.first j h'.round_lt hlt h'.receives
  · exact not_lt.1 fun hlt => h'.first i h.round_lt hlt h.receives

theorem Receives.mono {i : ℤ} (h : G.Receives peers coin i x) (hxy : G.Anc x y) :
    G.Receives peers coin i y :=
  ⟨h.enough, fun w hw => (h.anc w hw).trans hxy⟩

/-- A famous witness of the receiving round. -/
theorem Receives.exists_famousIn {i : ℤ} (h : G.Receives peers coin i x) :
    ∃ w, G.FamousIn peers coin i w := by
  obtain ⟨w, -, -, hw⟩ := exists_of_count_pos ((quorum_pos _).trans_le h.enough)
  exact ⟨w, hw⟩

/-- Ancestors are received no later. -/
theorem Received.anc {i : ℤ} (h : G.Received peers coin i x) (hxy : G.Anc x y) :
    ∃ j ≤ i, G.Received peers coin j y := by
  classical
  have hlt : G.round peers y < i := (hxy.round_le peers).trans_lt h.round_lt
  have hex : ∃ n : ℕ, G.Receives peers coin (G.round peers y + 1 + n) y :=
    ⟨(i - (G.round peers y + 1)).toNat, by
      rw [show G.round peers y + 1 + ((i - (G.round peers y + 1)).toNat : ℤ) = i by omega]
      exact h.receives.mono hxy⟩
  have hmin : Nat.find hex ≤ (i - (G.round peers y + 1)).toNat := by
    refine Nat.find_min' hex ?_
    rw [show G.round peers y + 1 + ((i - (G.round peers y + 1)).toNat : ℤ) = i by omega]
    exact h.receives.mono hxy
  refine ⟨G.round peers y + 1 + Nat.find hex, by omega,
    hxy.mem h.mem, by omega, Nat.find_spec hex, ?_⟩
  intro j hj hji hrec
  refine Nat.find_min hex (m := (j - (G.round peers y + 1)).toNat) (by omega) ?_
  rw [show G.round peers y + 1 + ((j - (G.round peers y + 1)).toNat : ℤ) = j by omega]
  exact hrec

end EventGraph

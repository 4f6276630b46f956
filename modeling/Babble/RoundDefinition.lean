import Babble.Voting

/-!
# Rounds by paths

The round of an event is defined in terms of paths : `x` strongly sees `w` if events by
more than two thirds of the peers lie on paths from `x` to `w` (`Joined`), and a witness
is the first event of a peer in a round. `EventGraph.round` uses first descendants whose
descent stops at witnesses instead. The two agree (`round_eq_defined`) : where the
round of `x` is computed from the round `m` of its parents, a witness above `w`, of a later
round than `m`, cannot be an ancestor of `x`.
-/

namespace EventGraph

variable {E K : Type} (G : EventGraph E K) (peers : ℤ → Finset K) (r : E → ℤ)

/-- Events by more than two thirds of `P` lie on paths from `x` to `w`. -/
def Joined (P : Finset K) (x w : E) : Prop :=
  quorum P ≤ G.count P fun z => G.Anc x z ∧ G.Anc z w

/-- No later witness by the creator of `w` is `z` or an ancestor of `z`. -/
def Clear (w z : E) : Prop :=
  ∀ e, G.Mem e → G.Witness peers e → G.creator e = G.creator w → G.index w < G.index e →
    ¬G.Anc z e

/-- `x` descends from a later witness by the creator of `w`. -/
def Overtaken (x w : E) : Prop :=
  ∃ e, G.Witness peers e ∧ G.SAnc x e ∧ G.creator e = G.creator w ∧ G.index w < G.index e

/-- `w` is the first event of a peer in its round. -/
def FirstInRound (w : E) : Prop :=
  G.creator w ∈ peers (r w) ∧ ∀ y, G.SAnc w y → G.creator y = G.creator w → r y ≠ r w

open Classical in
/-- The round of `x` for given rounds of its ancestors : 0 without parents, otherwise the
highest round `m` of a parent, and one more if `x` strongly sees enough witnesses of round
`m`. -/
noncomputable def definedFrom (x : E) : ℤ :=
  if ∀ p, ¬G.Parent p x then 0
  else if quorum (peers (G.parentValue r x)) ≤
      G.count (peers (G.parentValue r x)) fun w => G.SAnc x w ∧ r w = G.parentValue r x ∧
        G.FirstInRound peers r w ∧ G.Joined (peers (G.parentValue r x)) x w
  then G.parentValue r x + 1
  else G.parentValue r x

open Classical in
/-- The round of an event by its definition. -/
noncomputable def definedRound : E → ℤ :=
  G.sAnc_wf.fix fun x rec =>
    G.definedFrom peers (fun y => if h : G.SAnc x y then rec y h else 0) x

variable {G peers r} {r' : E → ℤ} {x y z w : E}

theorem firstInRound_congr (hw : r w = r' w) (h : ∀ y, G.SAnc w y → r y = r' y) :
    G.FirstInRound peers r w ↔ G.FirstInRound peers r' w := by
  unfold FirstInRound
  rw [hw]
  refine and_congr_right fun _ => forall_congr' fun y => forall_congr' fun hy => ?_
  rw [h y hy]

theorem definedFrom_congr (h : ∀ y, G.SAnc x y → r y = r' y) :
    G.definedFrom peers r x = G.definedFrom peers r' x := by
  have hc : ∀ p : ℤ, (G.count (peers p) fun w => G.SAnc x w ∧ r w = p ∧
        G.FirstInRound peers r w ∧ G.Joined (peers p) x w) =
      G.count (peers p) fun w => G.SAnc x w ∧ r' w = p ∧ G.FirstInRound peers r' w ∧
        G.Joined (peers p) x w := by
    intro p
    refine count_congr fun w _ => and_congr_right fun hxw => ?_
    rw [h w hxw, firstInRound_congr (h w hxw) fun y hy => h y (hxw.anc.trans_sAnc hy)]
  unfold definedFrom
  rw [parentValue_congr h, hc]

/-- The definition, with the rounds that it defines. -/
theorem definedRound_eq (x : E) :
    G.definedRound peers x = G.definedFrom peers (G.definedRound peers) x := by
  have hfix : G.definedRound peers x = _ := G.sAnc_wf.fix_eq _ x
  rw [hfix]
  exact definedFrom_congr fun y hy => dif_pos hy

/-! ## The two agree -/

theorem SAnc.mem (h : G.SAnc x y) : G.Mem x := by
  obtain ⟨p, -, hs | ho⟩ := Relation.TransGen.tail'_iff.1 h
  · exact (G.selfParent_mem hs).1
  · exact (G.otherParent_mem ho).1

theorem SAnc.round_le (h : G.SAnc x y) : G.round peers y ≤ G.parentValue (G.round peers) x := by
  obtain ⟨p, hyp, hp⟩ := Relation.TransGen.tail'_iff.1 h
  exact (Anc.round_le peers hyp).trans (le_parentValue hp)

theorem parentValue_eq_iff : G.parentValue (G.round peers) x = -1 ↔ ∀ p, ¬G.Parent p x := by
  constructor
  · intro h p hp
    have h1 := le_parentValue (r := G.round peers) hp
    have h2 := round_nonneg G peers p
    omega
  · intro h
    by_contra hne
    obtain ⟨p, hp, -⟩ := exists_parent_of_parentValue hne
    exact h p hp

/-- The self-parent of a witness is of an earlier round, and so are all earlier events of
the creator. -/
theorem witness_iff_firstInRound (hw : G.Mem w) :
    G.Witness peers w ↔ G.FirstInRound peers (G.round peers) w := by
  refine and_congr_right fun _ => ⟨fun hlt y hy hc heq => ?_, fun hfirst => ?_⟩
  · have hi : G.index y < G.index w := by
      refine lt_of_le_of_ne (hy.anc.index_le hw hc.symm) fun hi => ?_
      rw [G.unique (hy.anc.mem hw) hw hc hi] at hy
      exact SAnc.irrefl w hy
    obtain ⟨p, hs, -, -, hpy⟩ := anc_selfParent_of_index_lt hw (hy.anc.mem hw) hc.symm hi
    have hle := Anc.round_le peers hpy
    unfold selfValue at hlt
    rw [hs] at hlt
    simp only at hlt
    omega
  · unfold selfValue
    cases hs : G.selfParent w with
    | none =>
      have := round_nonneg G peers w
      simp only
      omega
    | some p =>
      have hp : G.Parent p w := Or.inl hs
      exact lt_of_le_of_ne (Anc.round_le peers hp.anc)
        (hfirst p (Relation.TransGen.single hp) (G.creator_selfParent hs))

theorem count_le_count {P : Finset K} {f g : E → Prop} (h : ∀ z, G.Mem z → f z →
    ∃ z', G.Mem z' ∧ G.creator z' = G.creator z ∧ g z') : G.count P f ≤ G.count P g := by
  classical
  refine Finset.card_le_card (Finset.monotone_filter_right P ?_)
  rintro k - ⟨z, hz, rfl, hf⟩
  exact h z hz hf

/-- Strong sight counts the peers with an event between `x` and `w` from which no later
witness by the creator of `w` can be reached. -/
theorem sees_iff_count {P : Finset K} : G.Sees peers P x w ↔
    quorum P ≤ G.count P fun z => G.Anc x z ∧ G.Anc z w ∧ G.Clear peers w z := by
  constructor
  · exact fun h => h.trans (count_mono fun z _ hz =>
      ⟨hz.1, hz.2.anc, fun e he hwit => hz.2.clear e hwit he⟩)
  · refine fun h => h.trans (count_le_count fun z hz hxzw => ?_)
    obtain ⟨hxz, hzw, hclear⟩ := hxzw
    -- the first descendant of `w` by the same peer is an ancestor of `z`
    obtain ⟨z₀, hz₀, hc₀, hzz₀, hz₀w, hfirst⟩ := exists_first hz hzw
    exact ⟨z₀, hz₀, hc₀, hxz.trans hzz₀, hz₀w, fun z' h1 h2 => hfirst z' h1 (h2.trans hc₀),
      fun e hwit he hc hlt hz₀e => hclear e he hwit hc hlt (hzz₀.trans hz₀e)⟩

theorem clear_self (hw : G.Mem w) : G.Clear peers w w :=
  fun _ _ _ hc hlt hwe => absurd (hwe.index_le hw hc.symm) (by omega)

/-- The truncation makes no difference if `x` does not descend from a later witness by the
creator of `w`. -/
theorem sees_iff_joined_of_not_overtaken {P : Finset K}
    (h : ¬G.Overtaken peers x w) : G.Sees peers P x w ↔ G.Joined P x w := by
  rw [sees_iff_count]
  refine ⟨fun hs => hs.trans (count_mono fun z _ hz => ⟨hz.1, hz.2.1⟩),
    fun hj => hj.trans (count_le_count fun z hz hxzw => ?_)⟩
  obtain ⟨hxz, hzw⟩ := hxzw
  by_cases hc : G.creator z = G.creator w
  · -- the creator of `w` counts with `w` itself
    have hw := hzw.mem hz
    exact ⟨w, hw, hc.symm, hxz.trans hzw, Anc.refl w, clear_self hw⟩
  · refine ⟨z, hz, rfl, hxz, hzw, fun e he hwit hec hlt hze => h ⟨e, hwit, ?_, hec, hlt⟩⟩
    refine (hxz.trans hze).sAnc fun hex => hc ?_
    subst hex
    rw [hze.antisymm hxz, hec]

/-- For a witness of the round of the parents, the truncation makes no difference. -/
theorem sees_iff_joined {P : Finset K} (hxw : G.SAnc x w)
    (hround : G.round peers w = G.parentValue (G.round peers) x) :
    G.Sees peers P x w ↔ G.Joined P x w := by
  refine sees_iff_joined_of_not_overtaken fun hov => ?_
  -- a witness above `w` would be of a later round than the parents of `x`
  obtain ⟨e, hwit, hxe, hec, hlt⟩ := hov
  have hx := hxw.mem
  obtain ⟨p, hs, -, -, hpw⟩ :=
    anc_selfParent_of_index_lt (hxe.anc.mem hx) (hxw.anc.mem hx) hec hlt
  have hrp := Anc.round_le peers hpw
  have hre : G.round peers p < G.round peers e := by
    have := hwit.2
    unfold selfValue at this
    rwa [hs] at this
  have hrx : G.round peers e ≤ G.parentValue (G.round peers) x := hxe.round_le
  omega

/-- The round that is computed is the one that is defined. -/
theorem round_eq_defined (x : E) : G.round peers x = G.definedRound peers x := by
  induction x using G.sAnc_wf.induction with
  | _ x ih =>
    have hc : ∀ p : ℤ, p = G.parentValue (G.round peers) x →
        (G.count (peers p) fun w => G.SAnc x w ∧ G.round peers w = p ∧ G.Witness peers w ∧
          G.Sees peers (peers p) x w) =
        G.count (peers p) fun w => G.SAnc x w ∧ G.round peers w = p ∧
          G.FirstInRound peers (G.round peers) w ∧ G.Joined (peers p) x w := by
      rintro p rfl
      refine count_congr fun w hw => and_congr_right fun hxw => and_congr_right fun hround => ?_
      rw [witness_iff_firstInRound hw, sees_iff_joined hxw hround]
    rw [definedRound_eq, ← definedFrom_congr fun y hy => ih y hy, round_eq, hc _ rfl]
    unfold definedFrom
    by_cases hx : ∀ p, ¬G.Parent p x
    · rw [if_pos hx, if_pos (parentValue_eq_iff.2 hx)]
    · rw [if_neg hx, if_neg (mt parentValue_eq_iff.1 hx)]

end EventGraph

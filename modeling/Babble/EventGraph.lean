import Mathlib.Logic.Relation
import Mathlib.Data.Finset.Card
import Mathlib.Order.WellFounded

/-!
# Event graphs

An event graph is a set of events, each with a creator, an index among the creator's
events, and at most two parents : the creator's previous event and one other. The events
of a creator form one chain (`unique`), and parents are well-founded.

`Anc x y` says that `y` is `x` or an ancestor of `x`. On one creator's events it is the
order of indexes (`anc_iff_index_le`).

`FirstDesc stop y z` is a truncated notion of first descendant : `z` is the first event
of its creator to descend from `y`, and no event marked by `stop` lies above `y` on the
chain of `y` and below `z`.
-/

/-- Events with creators, indexes and parents, where no creator has two events with one
index. -/
structure EventGraph (E K : Type) where
  Mem : E → Prop
  creator : E → K
  index : E → ℤ
  selfParent : E → Option E
  otherParent : E → Option E
  selfParent_mem : ∀ {x p}, selfParent x = some p → Mem x ∧ Mem p
  otherParent_mem : ∀ {x p}, otherParent x = some p → Mem x ∧ Mem p
  wf : WellFounded fun p x => selfParent x = some p ∨ otherParent x = some p
  creator_selfParent : ∀ {x p}, selfParent x = some p → creator p = creator x
  index_first : ∀ {x}, Mem x → selfParent x = none → index x = 0
  index_next : ∀ {x p}, selfParent x = some p → index x = index p + 1
  unique : ∀ {x y}, Mem x → Mem y → creator x = creator y → index x = index y → x = y

namespace EventGraph

variable {E K : Type} (G : EventGraph E K)

/-- `p` is a parent of `x`. -/
def Parent (p x : E) : Prop :=
  G.selfParent x = some p ∨ G.otherParent x = some p

/-- `y` is `x` or an ancestor of `x`. -/
def Anc (x y : E) : Prop :=
  Relation.ReflTransGen G.Parent y x

/-- `y` is a proper ancestor of `x`. -/
def SAnc (x y : E) : Prop :=
  Relation.TransGen G.Parent y x

variable {G} {x y z p : E}

/-! ## Ancestry -/

theorem Anc.refl (x : E) : G.Anc x x :=
  Relation.ReflTransGen.refl

theorem Anc.trans (h : G.Anc x y) (h' : G.Anc y z) : G.Anc x z :=
  Relation.ReflTransGen.trans h' h

theorem Parent.anc (h : G.Parent p x) : G.Anc x p :=
  Relation.ReflTransGen.single h

theorem anc_of_selfParent (h : G.selfParent x = some p) : G.Anc x p :=
  Parent.anc (Or.inl h)

theorem Parent.mem (h : G.Parent p x) : G.Mem p :=
  h.elim (fun h => (G.selfParent_mem h).2) fun h => (G.otherParent_mem h).2

theorem SAnc.anc (h : G.SAnc x y) : G.Anc x y :=
  Relation.TransGen.to_reflTransGen h

/-- An ancestor is the event itself or an ancestor of a parent. -/
theorem anc_iff : G.Anc x y ↔ y = x ∨ ∃ p, G.Parent p x ∧ G.Anc p y := by
  constructor
  · intro h
    rcases Relation.ReflTransGen.cases_tail h with h | ⟨p, hp, hpx⟩
    · exact Or.inl h.symm
    · exact Or.inr ⟨p, hpx, hp⟩
  · rintro (rfl | ⟨p, hp, h⟩)
    · exact Anc.refl y
    · exact hp.anc.trans h

theorem anc_iff_sAnc : G.Anc x y ↔ y = x ∨ G.SAnc x y := by
  rw [Anc, Relation.reflTransGen_iff_eq_or_transGen, SAnc, eq_comm]

theorem Anc.sAnc (h : G.Anc x y) (hne : y ≠ x) : G.SAnc x y :=
  (anc_iff_sAnc.1 h).resolve_left hne

theorem SAnc.trans_anc (h : G.SAnc x y) (h' : G.Anc y z) : G.SAnc x z :=
  Relation.TransGen.trans_right h' h

theorem Anc.trans_sAnc (h : G.Anc x y) (h' : G.SAnc y z) : G.SAnc x z :=
  Relation.TransGen.trans_left h' h

theorem sAnc_wf : WellFounded fun y x => G.SAnc x y :=
  G.wf.transGen

theorem SAnc.irrefl (x : E) : ¬G.SAnc x x := by
  intro h
  exact G.sAnc_wf.irrefl.irrefl x h

theorem Anc.antisymm (h : G.Anc x y) (h' : G.Anc y x) : x = y := by
  by_contra hne
  exact SAnc.irrefl x ((h.sAnc fun e => hne e.symm).trans_anc h')

theorem Anc.mem (h : G.Anc x y) (hx : G.Mem x) : G.Mem y := by
  rcases Relation.ReflTransGen.cases_head h with rfl | ⟨z, hz, -⟩
  · exact hx
  · exact Parent.mem hz

/-! ## The chain of a creator -/

theorem index_nonneg (hx : G.Mem x) : 0 ≤ G.index x := by
  induction x using G.wf.induction with
  | _ x ih =>
    cases hs : G.selfParent x with
    | none => exact (G.index_first hx hs).ge
    | some p =>
      have := ih p (Or.inl hs) (G.selfParent_mem hs).2
      have := G.index_next hs
      omega

/-- On the chain of a creator, a lower index means an ancestor. -/
theorem anc_of_index_le (hx : G.Mem x) (hy : G.Mem y) (hc : G.creator x = G.creator y)
    (hi : G.index y ≤ G.index x) : G.Anc x y := by
  induction x using G.wf.induction with
  | _ x ih =>
    rcases hi.lt_or_eq with hlt | heq
    · cases hs : G.selfParent x with
      | none =>
        have := G.index_first hx hs
        have := index_nonneg hy
        omega
      | some p =>
        have hip := G.index_next hs
        refine (anc_of_selfParent hs).trans (ih p (Or.inl hs) (G.selfParent_mem hs).2 ?_ ?_)
        · rw [G.creator_selfParent hs, hc]
        · omega
    · rw [G.unique hy hx hc.symm heq]
      exact Anc.refl x

theorem Anc.index_le (h : G.Anc x y) (hx : G.Mem x) (hc : G.creator x = G.creator y) :
    G.index y ≤ G.index x := by
  by_contra hlt
  have h' := anc_of_index_le (h.mem hx) hx hc.symm (by omega)
  rw [h.antisymm h'] at hlt
  exact hlt le_rfl

/-- On the chain of a creator, ancestry is the order of indexes. -/
theorem anc_iff_index_le (hx : G.Mem x) (hy : G.Mem y) (hc : G.creator x = G.creator y) :
    G.Anc x y ↔ G.index y ≤ G.index x :=
  ⟨fun h => h.index_le hx hc, anc_of_index_le hx hy hc⟩

/-- An event above `y` on its chain is `y` or descends from `y` through its self-parent. -/
theorem anc_selfParent_of_index_lt (hx : G.Mem x) (hy : G.Mem y)
    (hc : G.creator x = G.creator y) (hi : G.index y < G.index x) :
    ∃ p, G.selfParent x = some p ∧ G.creator p = G.creator y ∧ G.index x = G.index p + 1 ∧
      G.Anc p y := by
  cases hs : G.selfParent x with
  | none =>
    have := G.index_first hx hs
    have := index_nonneg hy
    omega
  | some p =>
    have hip := G.index_next hs
    have hcp : G.creator p = G.creator y := by rw [G.creator_selfParent hs, hc]
    exact ⟨p, rfl, hcp, hip, anc_of_index_le (G.selfParent_mem hs).2 hy hcp (by omega)⟩

/-! ## First descendants -/

/-- `z` is the first event of its creator to descend from `y`, and no `stop` event of the
creator of `y` after `y` is an ancestor of `z`. -/
structure FirstDesc (G : EventGraph E K) (stop : E → Prop) (y z : E) : Prop where
  anc : G.Anc z y
  first : ∀ z', G.Mem z' → G.creator z' = G.creator z → G.Anc z' y → G.index z ≤ G.index z'
  clear : ∀ e, stop e → G.Mem e → G.creator e = G.creator y → G.index y < G.index e → ¬G.Anc z e

variable {stop stop' : E → Prop}

/-- The first descendant of an event by its own creator is the event itself. -/
theorem FirstDesc.eq_of_creator (h : G.FirstDesc stop y z) (hz : G.Mem z)
    (hc : G.creator z = G.creator y) : z = y := by
  have hy := h.anc.mem hz
  exact G.unique hz hy hc (le_antisymm (h.first y hy hc.symm (Anc.refl y)) (h.anc.index_le hz hc))

theorem FirstDesc.unique (h : G.FirstDesc stop y z) (hz : G.Mem z) {z' : E}
    (h' : G.FirstDesc stop y z') (hz' : G.Mem z') (hc : G.creator z = G.creator z') : z = z' :=
  G.unique hz hz' hc (le_antisymm (h.first z' hz' hc.symm h'.anc) (h'.first z hz hc h.anc))

theorem firstDesc_self (hy : G.Mem y) : G.FirstDesc stop y y where
  anc := Anc.refl y
  first z' hz' hc h := h.index_le hz' hc
  clear e _ _ hc hi h := by
    have := h.index_le hy hc.symm
    omega

/-- Below an event that descends from `y` there is a first one of its creator. -/
theorem exists_first (hz : G.Mem z) (h : G.Anc z y) : ∃ z₀, G.Mem z₀ ∧ G.creator z₀ = G.creator z ∧
    G.Anc z z₀ ∧ G.Anc z₀ y ∧
    ∀ z', G.Mem z' → G.creator z' = G.creator z → G.Anc z' y → G.index z₀ ≤ G.index z' := by
  induction z using G.wf.induction with
  | _ z ih =>
    by_cases hlow : ∃ z', G.Mem z' ∧ G.creator z' = G.creator z ∧ G.Anc z' y ∧
        G.index z' < G.index z
    · obtain ⟨z', hz', hc, hzy, hlt⟩ := hlow
      -- the self-parent of `z` is above `z'`
      obtain ⟨p, hs, hcp, -, hpz⟩ := anc_selfParent_of_index_lt hz hz' hc.symm hlt
      obtain ⟨z₀, hm, hc₀, hpz₀, hy, hfirst⟩ :=
        ih p (Or.inl hs) (G.selfParent_mem hs).2 (hpz.trans hzy)
      rw [hcp, hc] at hc₀ hfirst
      exact ⟨z₀, hm, hc₀, (anc_of_selfParent hs).trans hpz₀, hy, hfirst⟩
    · push Not at hlow
      exact ⟨z, hz, rfl, Anc.refl z, h, hlow⟩

/-- Only the proper ancestors of `z` matter to `stop`. -/
theorem FirstDesc.congr (h : G.FirstDesc stop y z) (hz : G.Mem z)
    (hs : ∀ e, G.SAnc z e → stop' e → stop e) : G.FirstDesc stop' y z where
  anc := h.anc
  first := h.first
  clear e he hm hc hi ha := by
    refine h.clear e (hs e (ha.sAnc ?_) he) hm hc hi ha
    rintro rfl
    -- an event of the creator of `y` is the first descendant of `y` only if it is `y`
    rw [h.eq_of_creator hz hc] at hi
    exact lt_irrefl _ hi

end EventGraph

import Mathlib.Data.List.Sort
import Mathlib.Order.Basic

/-!
# Positions in a sorted list

In a list that is sorted by the values of `f`, the element at a position lies between `lo`
and `hi` if the values outside are too few to reach the position from either end
(`between_of_countP`). The elements in the middle are such if fewer than half of the values
lie outside.
-/

namespace OrderStatistics

variable {α β : Type*} [LinearOrder β] {f : α → β} {lo hi : β} {l : List α} {i : ℕ}

/-- Up to an element with a property that passes to smaller ones, all have it. -/
theorem lt_countP_of_getElem {p : α → Bool} (hs : l.Pairwise (f · ≤ f ·))
    (hp : ∀ a b, f a ≤ f b → p b = true → p a = true) (hi : i < l.length)
    (h : p l[i] = true) : i < l.countP p := by
  have hall : ∀ a ∈ l.take (i + 1), p a = true := by
    intro a ha
    obtain ⟨j, hj, rfl⟩ := List.mem_iff_getElem.1 ha
    rw [List.getElem_take]
    rw [List.length_take] at hj
    rcases Nat.lt_or_ge j i with hji | hji
    · exact hp _ _ (List.pairwise_iff_getElem.1 hs j i (by omega) hi hji) h
    · obtain rfl : j = i := by omega
      exact h
  calc i < (l.take (i + 1)).length := by rw [List.length_take]; omega
    _ = (l.take (i + 1)).countP p := (List.countP_eq_length.2 hall).symm
    _ ≤ l.countP p := (List.take_sublist _ _).countP_le

/-- From an element with a property that passes to greater ones on, all have it. -/
theorem length_le_add_countP_of_getElem {p : α → Bool} (hs : l.Pairwise (f · ≤ f ·))
    (hp : ∀ a b, f a ≤ f b → p a = true → p b = true) (hi : i < l.length)
    (h : p l[i] = true) : l.length ≤ i + l.countP p := by
  have hall : ∀ a ∈ l.drop i, p a = true := by
    intro a ha
    obtain ⟨j, hj, rfl⟩ := List.mem_iff_getElem.1 ha
    rw [List.getElem_drop]
    rw [List.length_drop] at hj
    rcases Nat.eq_zero_or_pos j with rfl | hpos
    · exact h
    · exact hp _ _ (List.pairwise_iff_getElem.1 hs i (i + j) hi (by omega) (by omega)) h
  calc l.length = i + (l.drop i).length := by rw [List.length_drop]; omega
    _ = i + (l.drop i).countP p := by rw [List.countP_eq_length.2 hall]
    _ ≤ i + l.countP p := by
      have := (List.drop_sublist i l).countP_le (p := p)
      omega

/-- The value is below `lo` or above `hi`. -/
def outlying (f : α → β) (lo hi : β) (a : α) : Bool :=
  decide (f a < lo ∨ hi < f a)

theorem outlying_eq_false {a : α} : outlying f lo hi a = false ↔ lo ≤ f a ∧ f a ≤ hi := by
  rw [outlying, decide_eq_false_iff_not, not_or, not_lt, not_lt]

/-- An element that the outlying values cannot reach from either end is between the
bounds. -/
theorem between_of_countP (hs : l.Pairwise (f · ≤ f ·)) (hi' : i < l.length)
    (hlow : l.countP (outlying f lo hi) ≤ i)
    (hhigh : i + l.countP (outlying f lo hi) < l.length) : lo ≤ f l[i] ∧ f l[i] ≤ hi := by
  constructor
  · by_contra h
    have hlt := lt_countP_of_getElem (p := fun a => decide (f a < lo)) hs
      (fun a b hab hb => decide_eq_true (hab.trans_lt (of_decide_eq_true hb))) hi'
      (decide_eq_true (not_le.1 h))
    have hle : l.countP (fun a => decide (f a < lo)) ≤ l.countP (outlying f lo hi) :=
      List.countP_mono_left fun a _ ha => decide_eq_true (Or.inl (of_decide_eq_true ha))
    omega
  · by_contra h
    have hlt := length_le_add_countP_of_getElem (p := fun a => decide (hi < f a)) hs
      (fun a b hab ha => decide_eq_true ((of_decide_eq_true ha).trans_le hab)) hi'
      (decide_eq_true (not_le.1 h))
    have hle : l.countP (fun a => decide (hi < f a)) ≤ l.countP (outlying f lo hi) :=
      List.countP_mono_left fun a _ ha => decide_eq_true (Or.inr (of_decide_eq_true ha))
    omega

end OrderStatistics

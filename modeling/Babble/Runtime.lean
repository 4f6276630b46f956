import Mathlib.Data.List.Sort

/-!
# What the language leaves open

The order in which a loop visits a map, and the order in which `sort.Sort` leaves
elements that neither precedes, are not fixed by the language. `Runtime` is one way to
settle both. Every visit of a map gets its own number, so the same map may be visited in
another order each time; what holds for every `Runtime` holds for every run of the
program.
-/

namespace Babble

/-- A choice of map orders, one per visit, and of a sorting function. -/
structure Runtime where
  /-- The order of the `k`-th visit. -/
  order : ℕ → {α : Type} → List α → List α
  order_perm : ∀ (k : ℕ) {α : Type} (l : List α), (order k l).Perm l
  /-- `sort.Sort` with `Less`. -/
  sort : {α : Type} → (α → α → Bool) → List α → List α
  sort_perm : ∀ {α : Type} (less : α → α → Bool) (l : List α), (sort less l).Perm l
  sort_pairwise : ∀ {α : Type} (less : α → α → Bool) (l : List α),
    (∀ a b, less a b = true → less b a = false) →
    (∀ a b c, less b a = false → less c b = false → less c a = false) →
    (sort less l).Pairwise fun a b => less b a = false

namespace Runtime

theorem mem_order (rt : Runtime) (k : ℕ) {α : Type} {l : List α} {a : α} :
    a ∈ rt.order k l ↔ a ∈ l :=
  (rt.order_perm k l).mem_iff

theorem mem_sort (rt : Runtime) {α : Type} {less : α → α → Bool} {l : List α} {a : α} :
    a ∈ rt.sort less l ↔ a ∈ l :=
  (rt.sort_perm less l).mem_iff

/-- Two runtimes sort the same elements alike, if no two of them are left incomparable. -/
theorem sort_eq_of_perm (rt rt' : Runtime) {α : Type} (less : α → α → Bool) {l l' : List α}
    (hl : l.Perm l') (hasymm : ∀ a b, less a b = true → less b a = false)
    (htrans : ∀ a b c, less b a = false → less c b = false → less c a = false)
    (htotal : ∀ a ∈ l, ∀ b ∈ l, less a b = false → less b a = false → a = b) :
    rt.sort less l = rt'.sort less l' := by
  have hperm : (rt.sort less l).Perm (rt'.sort less l') :=
    (rt.sort_perm less l).trans (hl.trans (rt'.sort_perm less l').symm)
  refine List.Perm.eq_of_pairwise ?_
    (rt.sort_pairwise less l hasymm htrans) (rt'.sort_pairwise less l' hasymm htrans) hperm
  intro a b ha hb h h'
  have hb' : b ∈ l := hl.mem_iff.2 (rt'.mem_sort.1 hb)
  exact htotal a (rt.mem_sort.1 ha) b hb' h' h

/-- Maps in the order of their entries, and a stable sort. -/
def plain : Runtime where
  order := fun _ {_} l => l
  order_perm := fun _ {_} l => List.Perm.refl l
  sort := fun {_} less l => l.insertionSort fun a b => less b a = false
  sort_perm := fun {_} _ l => List.perm_insertionSort _ l
  sort_pairwise := fun {α} less l hasymm htrans => by
    have : Std.Total fun a b : α => less b a = false := by
      refine ⟨fun a b => ?_⟩
      cases h : less b a with
      | false => exact Or.inl rfl
      | true => exact Or.inr (hasymm b a h)
    have : IsTrans α fun a b => less b a = false := ⟨fun a b c h h' => htrans a b c h h'⟩
    exact List.pairwise_insertionSort _ l

end Runtime

end Babble

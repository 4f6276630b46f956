import Mathlib.Data.Int.Range
import Babble.Rolling

/-!
# A rolling index as a window of a log

The log of a rolling index is the last item that was accepted for each index. Whatever is
set, the items of the rolling index are the stretch of the log that ends at the highest
index, and its methods answer for that stretch (`RollingIndex.window_logged`).
-/

set_option linter.unusedSectionVars false

namespace Babble

variable {α : Type}

/-! ## Stretches of a log -/

/-- The items are the entries of the log at `lo`, `lo + 1` and so on. -/
def Stretch (log : ℤ → Option α) (lo : ℤ) (items : List α) : Prop :=
  ∀ (k : ℕ) x, items[k]? = some x → log (lo + k) = some x

namespace Stretch

variable {log : ℤ → Option α} {lo : ℤ} {items : List α}

theorem drop (h : Stretch log lo items) (d : ℕ) : Stretch log (lo + d) (items.drop d) := by
  intro k x hx
  rw [List.getElem?_drop] at hx
  have := h (d + k) x hx
  rwa [Int.natCast_add, ← add_assoc] at this

/-- The entry after the last one. -/
theorem snoc (h : Stretch log lo items) (x : α) :
    Stretch (Function.update log (lo + items.length) (some x)) lo (items ++ [x]) := by
  intro k y hy
  rcases lt_trichotomy k items.length with hk | rfl | hk
  · rw [List.getElem?_append_left hk] at hy
    rw [Function.update_of_ne (by omega)]
    exact h k y hy
  · rw [List.getElem?_append_right le_rfl, Nat.sub_self] at hy
    rw [Function.update_self]
    exact hy
  · rw [List.getElem?_eq_none (by simp; omega)] at hy
    cases hy

/-- Another entry at an index of the stretch. -/
theorem set (h : Stretch log lo items) (j : ℕ) (x : α) :
    Stretch (Function.update log (lo + j) (some x)) lo (items.set j x) := by
  intro k y hy
  rw [List.getElem?_set] at hy
  split_ifs at hy with hjk hlt
  · rw [← hjk, Function.update_self]
    exact hy
  · rw [Function.update_of_ne (by omega)]
    exact h k y hy

theorem map_some_eq (h : Stretch log lo items) {hi : ℤ} (hlen : lo + items.length = hi + 1) :
    items.map some = (Int.range lo (hi + 1)).map log := by
  have hn : (hi + 1 - lo).toNat = items.length := by omega
  refine List.ext_getElem? fun k => ?_
  rw [Int.range, hn, List.map_map, List.getElem?_map, List.getElem?_map]
  rcases Nat.lt_or_ge k items.length with hk | hk
  · rw [List.getElem?_range hk, List.getElem?_eq_getElem hk, Option.map_some, Option.map_some,
      Function.comp, h k _ (List.getElem?_eq_getElem hk)]
  · rw [List.getElem?_eq_none hk, List.getElem?_eq_none (by simpa using hk)]
    rfl

end Stretch

/-! ## Logs of rolling indexes -/

namespace RollingIndex

/-- A rolling index with its log. -/
structure Logged (α : Type) where
  window : RollingIndex α
  log : ℤ → Option α

/-- `Set`, and an entry in the log if the item is accepted. -/
def Logged.set (s : Logged α) (item : α) (index : ℤ) : Logged α :=
  match s.window.set item index with
  | .ok window => ⟨window, Function.update s.log index (some item)⟩
  | .error _ => s

/-- A new rolling index after a sequence of calls of `Set`. -/
def logged (name : String) (size : ℕ) (calls : List (α × ℤ)) : Logged α :=
  calls.foldl (fun s c => s.set c.1 c.2) ⟨new name size, fun _ => none⟩

/-- The rolling index holds the stretch of the log that ends at the highest index, and none
of the indexes is negative. -/
structure WindowOf (log : ℤ → Option α) (r : RollingIndex α) : Prop where
  empty : r.items = [] → r.lastIndex = -1
  oldest : 0 ≤ r.oldestCachedIndex
  stretch : Stretch log r.oldestCachedIndex r.items
  bounds : ∀ i x, log i = some x → 0 ≤ i ∧ i ≤ r.lastIndex

namespace WindowOf

variable {log : ℤ → Option α} {r r' : RollingIndex α} {x : α} {i : ℤ}

theorem new (name : String) (size : ℕ) :
    WindowOf (fun _ => none : ℤ → Option α) (new name size) where
  empty _ := rfl
  oldest := le_rfl
  stretch _ _ h := by simp [RollingIndex.new] at h
  bounds _ _ h := by cases h

/-- The window is empty exactly as long as the last index is the one of the start. -/
theorem items_eq_nil_iff (h : WindowOf log r) : r.items = [] ↔ r.lastIndex < 0 := by
  refine ⟨fun hnil => by rw [h.empty hnil]; decide, fun hlt => ?_⟩
  have hold := h.oldest
  unfold oldestCachedIndex at hold
  exact List.length_eq_zero_iff.1 (by omega)

/-- An item that is accepted goes to the end of the stretch or to its place in it. -/
theorem set (h : WindowOf log r) (hi : 0 ≤ i) (hset : r.set x i = .ok r') :
    WindowOf (Function.update log i (some x)) r' := by
  have hold := h.oldest
  have hlen : r.oldestCachedIndex + r.items.length = r.lastIndex + 1 := by
    unfold oldestCachedIndex
    omega
  unfold RollingIndex.set at hset
  split_ifs at hset with h1 h2 h3
  · obtain rfl := Except.ok.inj hset
    obtain ⟨d, hd, he⟩ := r.append_drop x i
    have hlast : (r.append x i).lastIndex = i := by rw [he]
    have hitems : (r.append x i).items = r.items.drop d ++ [x] := by rw [he]
    have hlo : (r.append x i).oldestCachedIndex + (r.items.drop d).length = i := by
      unfold oldestCachedIndex
      rw [hlast, hitems, List.length_append, List.length_singleton]
      push_cast
      omega
    -- the stretch before the item : what stays of it, nothing at the start
    have hstretch : Stretch log (r.append x i).oldestCachedIndex (r.items.drop d) := by
      by_cases hlt : r.lastIndex < 0
      · rw [h.items_eq_nil_iff.2 hlt, List.drop_nil]
        exact fun k y hy => by simp at hy
      · have hi' : i = r.lastIndex + 1 := by omega
        have hlo' : (r.append x i).oldestCachedIndex = r.oldestCachedIndex + d := by
          rw [List.length_drop] at hlo
          omega
        rw [hlo']
        exact h.stretch.drop d
    refine ⟨fun hnil => ?_, ?_, ?_, fun j y hj => ?_⟩
    · simp [hitems] at hnil
    · rw [List.length_drop] at hlo
      have : r.lastIndex < 0 → r.items.length = 0 := fun hlt => by
        rw [h.items_eq_nil_iff.2 hlt, List.length_nil]
      omega
    · have hsnoc := hstretch.snoc x
      rw [hlo] at hsnoc
      rw [hitems]
      exact hsnoc
    · rw [hlast]
      rw [Function.update_apply] at hj
      split_ifs at hj with hji
      · omega
      · have := h.bounds j y hj
        omega
  · obtain rfl := Except.ok.inj hset
    obtain ⟨j, hj⟩ : ∃ j : ℕ, i = r.oldestCachedIndex + j :=
      ⟨(i - r.oldestCachedIndex).toNat, by omega⟩
    have hpos : (i - r.oldestCachedIndex).toNat = j := by omega
    have holdest : ({ r with items := r.items.set j x } : RollingIndex α).oldestCachedIndex =
        r.oldestCachedIndex := by
      simp only [oldestCachedIndex, List.length_set]
    rw [hpos]
    refine ⟨fun hnil => h.empty ?_, ?_, ?_, fun k y hk => ?_⟩
    · simpa using hnil
    · rw [holdest]
      exact hold
    · rw [holdest, hj]
      exact h.stretch.set j x
    · rw [Function.update_apply] at hk
      split_ifs at hk with hki
      · exact ⟨by omega, show k ≤ r.lastIndex by omega⟩
      · exact h.bounds k y hk

/-- A call keeps the window in step with the log. -/
theorem logged_set {s : Logged α} (h : WindowOf s.log s.window) (hi : 0 ≤ i) :
    WindowOf (s.set x i).log (s.set x i).window := by
  unfold Logged.set
  cases hset : s.window.set x i with
  | ok r => exact h.set hi hset
  | error err => exact h

theorem logged (name : String) (size : ℕ) {calls : List (α × ℤ)} (hcalls : ∀ c ∈ calls, 0 ≤ c.2) :
    WindowOf (logged name size calls).log (logged name size calls).window := by
  induction calls using List.reverseRecOn with
  | nil => exact new name size
  | append_singleton calls c ih =>
    rw [RollingIndex.logged, List.foldl_append]
    exact logged_set (ih fun c' hc' => hcalls c' (List.mem_append_left _ hc')) (hcalls c (by simp))

theorem items_ne_nil_iff (h : WindowOf log r) : r.items ≠ [] ↔ 0 ≤ r.lastIndex := by
  rw [Ne, h.items_eq_nil_iff, not_lt]

end WindowOf

/-! ## The methods -/

/-- The rolling index is a sliding window of the log : it holds the entries of a range of
indexes that ends at the highest one, takes the indexes of the range and the next one, and
answers for the range. -/
structure SlidingWindow (log : ℤ → Option α) (r : RollingIndex α) : Prop where
  items : r.items.map some = (Int.range r.oldestCachedIndex (r.lastIndex + 1)).map log
  highest : ∀ i x, log i = some x → i ≤ r.lastIndex
  set_skippedIndex : ∀ x i, 0 ≤ i →
    (r.set x i = .error (.store r.name .skippedIndex) ↔ r.items ≠ [] ∧ r.lastIndex + 1 < i)
  set_tooLate : ∀ x i, 0 ≤ i →
    (r.set x i = .error (.store r.name .tooLate) ↔ i < r.oldestCachedIndex)
  set_ok : ∀ x i, 0 ≤ i → ((∃ r', r.set x i = .ok r') ↔
    ¬(r.items ≠ [] ∧ r.lastIndex + 1 < i) ∧ ¬i < r.oldestCachedIndex)
  getItem_tooLate : ∀ i,
    r.getItem i = .error (.store r.name .tooLate) ↔ i < r.oldestCachedIndex
  getItem_keyNotFound : ∀ i,
    r.getItem i = .error (.store r.name .keyNotFound) ↔ r.lastIndex < i
  getItem_ok : ∀ i, r.oldestCachedIndex ≤ i → i ≤ r.lastIndex →
    ∃ x, log i = some x ∧ r.getItem i = .ok x
  get_tooLate : ∀ skip,
    r.get skip = .error (.store r.name .tooLate) ↔ skip + 1 < r.oldestCachedIndex
  get_ok : ∀ skip, r.oldestCachedIndex ≤ skip + 1 →
    ∃ l, r.get skip = .ok l ∧ l.map some = (Int.range (skip + 1) (r.lastIndex + 1)).map log

/-- What `Set` does with an index that is not negative. -/
theorem WindowOf.set_cases {log : ℤ → Option α} {r : RollingIndex α} (h : WindowOf log r) (x : α)
    {i : ℤ} (hi : 0 ≤ i) :
    (r.items ≠ [] ∧ r.lastIndex + 1 < i ∧ r.set x i = .error (.store r.name .skippedIndex)) ∨
    (i < r.oldestCachedIndex ∧ r.set x i = .error (.store r.name .tooLate)) ∨
    ¬(r.items ≠ [] ∧ r.lastIndex + 1 < i) ∧ ¬i < r.oldestCachedIndex ∧
      ∃ r', r.set x i = .ok r' := by
  have hle := r.oldestCachedIndex_le
  have hempty : r.lastIndex < 0 → r.oldestCachedIndex = 0 := fun hlt => by
    rw [oldestCachedIndex, h.items_eq_nil_iff.2 hlt, h.empty (h.items_eq_nil_iff.2 hlt)]
    rfl
  rw [h.items_ne_nil_iff]
  unfold RollingIndex.set
  split_ifs with h1 h2 h3
  · exact Or.inl ⟨h1.1, h1.2, rfl⟩
  · exact Or.inr (Or.inr ⟨h1, by omega, _, rfl⟩)
  · exact Or.inr (Or.inl ⟨h3, rfl⟩)
  · exact Or.inr (Or.inr ⟨h1, h3, _, rfl⟩)

theorem WindowOf.slidingWindow {log : ℤ → Option α} {r : RollingIndex α} (h : WindowOf log r) :
    SlidingWindow log r := by
  have hlen : r.oldestCachedIndex + r.items.length = r.lastIndex + 1 := by
    unfold oldestCachedIndex
    omega
  have hitem : ∀ i, r.oldestCachedIndex ≤ i → i ≤ r.lastIndex →
      ∃ x, log i = some x ∧ r.getItem i = .ok x := by
    intro i hlo hhi
    have hpos : (i - r.oldestCachedIndex).toNat < r.items.length := by omega
    have hx := List.getElem?_eq_getElem hpos
    refine ⟨_, ?_, getItem_eq_ok_iff.2 ⟨hlo, hx⟩⟩
    have := h.stretch _ _ hx
    rwa [show r.oldestCachedIndex + ((i - r.oldestCachedIndex).toNat : ℤ) = i by omega] at this
  refine
    { items := h.stretch.map_some_eq hlen
      highest := fun i x hx => (h.bounds i x hx).2
      set_skippedIndex := fun x i hi => ?_
      set_tooLate := fun x i hi => ?_
      set_ok := fun x i hi => ?_
      getItem_tooLate := fun i => ?_
      getItem_keyNotFound := fun i => ?_
      getItem_ok := hitem
      get_tooLate := fun skip => ?_
      get_ok := fun skip hskip => ?_ }
  · rcases h.set_cases x hi with ⟨h1, h2, he⟩ | ⟨h1, he⟩ | ⟨h1, -, r', he⟩
    · exact iff_of_true he ⟨h1, h2⟩
    · exact iff_of_false (by simp [he]) fun h2 => by omega
    · exact iff_of_false (by simp [he]) h1
  · rcases h.set_cases x hi with ⟨-, h2, he⟩ | ⟨h1, he⟩ | ⟨-, h2, r', he⟩
    · exact iff_of_false (by simp [he]) (by omega)
    · exact iff_of_true he h1
    · exact iff_of_false (by simp [he]) h2
  · rcases h.set_cases x hi with ⟨h1, h2, he⟩ | ⟨h1, he⟩ | ⟨h1, h2, hr'⟩
    · exact iff_of_false (by simp [he]) fun h3 => h3.1 ⟨h1, h2⟩
    · exact iff_of_false (by simp [he]) fun h3 => h3.2 h1
    · exact iff_of_true hr' ⟨h1, h2⟩
  · unfold getItem
    split_ifs with hlt
    · exact iff_of_true rfl hlt
    · refine iff_of_false ?_ hlt
      split <;> simp
  · rcases lt_or_ge i r.oldestCachedIndex with hlt | hge
    · refine iff_of_false ?_ (by omega)
      rw [getItem, if_pos hlt]
      simp
    · rcases le_or_gt i r.lastIndex with hle | hgt
      · obtain ⟨x, -, hx⟩ := hitem i hge hle
        exact iff_of_false (by simp [hx]) (not_lt.2 hle)
      · refine iff_of_true ?_ hgt
        rw [getItem, if_neg (not_lt.2 hge), List.getElem?_eq_none (by omega)]
  · unfold get
    split_ifs with h1 h2
    · exact iff_of_false (by simp) (by omega)
    · exact iff_of_true rfl h2
    · exact iff_of_false (by simp) h2
  · unfold get
    split_ifs with h1 h2
    · refine ⟨[], rfl, ?_⟩
      have hzero : (r.lastIndex + 1 - (skip + 1)).toNat = 0 := by omega
      rw [Int.range, hzero]
      rfl
    · omega
    · -- what is left of the stretch after the indexes up to `skip`
      refine ⟨_, rfl, ?_⟩
      have hdrop := h.stretch.drop (skip - r.oldestCachedIndex + 1).toNat
      rw [show r.oldestCachedIndex + ((skip - r.oldestCachedIndex + 1).toNat : ℤ) = skip + 1 by
        omega] at hdrop
      refine hdrop.map_some_eq ?_
      rw [List.length_drop]
      omega

end RollingIndex

end Babble

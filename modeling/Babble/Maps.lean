import Mathlib.Data.Finmap

/-!
# Finite maps with a list of entries

A map of the program is an association list with distinct keys (`AList`). Reading and
writing go through `lookup` and `insert`; a loop over the map goes through the list of
its keys or entries, in an order the caller chooses.
-/

set_option linter.unusedSectionVars false

namespace Babble

/-- A finite map from `α` to `β`. -/
abbrev Map (α β : Type) := AList (fun _ : α => β)

namespace Map

variable {α β γ : Type} [DecidableEq α]

theorem lookup_insert_ite (m : Map α β) (a c : α) (b : β) :
    (m.insert a b).lookup c = if c = a then some b else m.lookup c := by
  split
  · next h => rw [h, AList.lookup_insert]
  · next h => rw [AList.lookup_insert_ne h]

theorem mem_iff_lookup {m : Map α β} {a : α} : a ∈ m ↔ ∃ b, m.lookup a = some b := by
  rw [← AList.lookup_isSome, Option.isSome_iff_exists]

theorem lookup_of_mem_entries {m : Map α β} {e : (_ : α) × β} (h : e ∈ m.entries) :
    m.lookup e.1 = some e.2 :=
  AList.mem_lookup_iff.2 h

/-- The entries as pairs. -/
def toPairs (m : Map α β) : List (α × β) :=
  m.entries.map fun e => (e.1, e.2)

theorem mem_toPairs {m : Map α β} {a : α} {b : β} :
    (a, b) ∈ m.toPairs ↔ m.lookup a = some b := by
  unfold toPairs
  rw [List.mem_map]
  constructor
  · rintro ⟨⟨a', b'⟩, h, he⟩
    obtain ⟨rfl, rfl⟩ := Prod.mk.inj he
    exact lookup_of_mem_entries h
  · intro h
    exact ⟨⟨a, b⟩, AList.mem_lookup_iff.1 h, rfl⟩

theorem map_fst_toPairs (m : Map α β) : m.toPairs.map Prod.fst = m.keys := by
  simp [toPairs, AList.keys, List.keys, Function.comp_def]

theorem nodup_toPairs (m : Map α β) : m.toPairs.Nodup :=
  List.Nodup.of_map Prod.fst (by rw [map_fst_toPairs]; exact m.keys_nodup)

/-- The keys whose values satisfy `p`. -/
def keysWith (p : β → Bool) (m : Map α β) : List α :=
  (m.toPairs.filter fun e => p e.2).map Prod.fst

theorem mem_keysWith {p : β → Bool} {m : Map α β} {a : α} :
    a ∈ m.keysWith p ↔ ∃ b, m.lookup a = some b ∧ p b = true := by
  unfold keysWith
  simp only [List.mem_map, List.mem_filter, Prod.exists, mem_toPairs]
  constructor
  · rintro ⟨a', b, ⟨h, hp⟩, rfl⟩
    exact ⟨b, h, hp⟩
  · rintro ⟨b, h, hp⟩
    exact ⟨a, b, ⟨h, hp⟩, rfl⟩

theorem nodup_keysWith (p : β → Bool) (m : Map α β) : (m.keysWith p).Nodup := by
  have h : (m.toPairs.map Prod.fst).Nodup := by
    rw [map_fst_toPairs]
    exact m.keys_nodup
  exact (List.filter_sublist.map Prod.fst).nodup h

theorem keysWith_insert {p : β → Bool} {m : Map α β} {a : α} (ha : a ∉ m) (b : β) :
    Map.keysWith p (m.insert a b) = if p b then a :: m.keysWith p else m.keysWith p := by
  unfold keysWith toPairs
  rw [AList.entries_insert_of_notMem ha, List.map_cons, List.filter_cons]
  split_ifs <;> rfl

section Fold

variable (key : β → α)

/-- The keys of a map into which the elements of a list are entered one by one. -/
theorem mem_foldl_insert (l : List β) (m : Map α β) (a : α) :
    a ∈ l.foldl (fun m b => m.insert (key b) b) m ↔ a ∈ m ∨ ∃ b ∈ l, key b = a := by
  induction l generalizing m with
  | nil => simp
  | cons b l ih =>
    rw [List.foldl_cons, ih, AList.mem_insert]
    simp only [List.mem_cons, exists_eq_or_imp]
    constructor
    · rintro ((h | h) | h)
      exacts [.inr (.inl h.symm), .inl h, .inr (.inr h)]
    · rintro (h | h | h)
      exacts [.inl (.inr h), .inl (.inl h.symm), .inr h]

theorem lookup_foldl_insert {l : List β} {m : Map α β} {a : α} {b : β}
    (h : (l.foldl (fun m b => m.insert (key b) b) m).lookup a = some b) :
    m.lookup a = some b ∨ b ∈ l ∧ key b = a := by
  induction l generalizing m with
  | nil => exact Or.inl h
  | cons c l ih =>
    rcases ih h with h | ⟨h, ha⟩
    · rw [lookup_insert_ite] at h
      split_ifs at h with hc
      · obtain rfl := Option.some.inj h
        exact Or.inr ⟨List.mem_cons_self, hc.symm⟩
      · exact Or.inl h
    · exact Or.inr ⟨List.mem_cons_of_mem c h, ha⟩

end Fold

/-- Maps with the same lookups are the same finite map. -/
theorem toFinmap_eq {m m' : Map α β} (h : ∀ a, m.lookup a = m'.lookup a) :
    m.toFinmap = m'.toFinmap := by
  refine Finmap.ext_lookup fun a => ?_
  rw [Finmap.lookup_toFinmap, Finmap.lookup_toFinmap]
  exact h a

end Map

end Babble

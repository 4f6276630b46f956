import Babble.Maps

/-!
# Least-recently-used caches

A cache is a finite map whose list of entries is in the order of use, the most recent one
first. Looking up a key moves its entry to the front, and so does adding one. If there are
then more entries than the cache may hold, the last one is evicted.

A cache keeps what it holds when an entry is looked up or replaced, and loses one entry at
most when a new one is added. As long as there is room it does what a map does.
-/

set_option linter.unusedSectionVars false

namespace Babble

/-- A cache of at most `size` entries, in the order of use. -/
structure Lru (α β : Type) where
  size : ℕ
  items : Map α β

namespace Lru

variable {α β : Type} [DecidableEq α] {c : Lru α β} {a k : α} {v w : β}

/-- An empty cache. -/
def new (size : ℕ) : Lru α β :=
  { size := size, items := ∅ }

/-- Look up a key, and move its entry to the front. -/
def get (c : Lru α β) (k : α) : Option β × Lru α β :=
  match c.items.lookup k with
  | some v => (some v, { c with items := c.items.insert k v })
  | none => (none, c)

/-- Remove the entry that was used least recently. -/
def removeOldest (c : Lru α β) : Lru α β :=
  match c.items.keys.getLast? with
  | some k => { c with items := c.items.erase k }
  | none => c

/-- Add or replace an entry, and evict one if there are too many. -/
def add (c : Lru α β) (k : α) (v : β) : Lru α β :=
  if k ∈ c.items then { c with items := c.items.insert k v }
  else
    let c := { c with items := c.items.insert k v }
    if c.size < c.items.keys.length then c.removeOldest else c

/-! ## What a cache holds -/

theorem lookup_get (c : Lru α β) (k a : α) : (c.get k).2.items.lookup a = c.items.lookup a := by
  unfold get
  cases hv : c.items.lookup k with
  | none => rfl
  | some v =>
    simp only [Map.lookup_insert_ite]
    split_ifs with ha
    · rw [ha, hv]
    · rfl

theorem lookup_removeOldest (h : c.removeOldest.items.lookup a = some v) :
    c.items.lookup a = some v := by
  unfold removeOldest at h
  split at h
  · next k _ =>
    by_cases ha : a = k
    · subst ha
      simp at h
    · rwa [AList.lookup_erase_ne ha] at h
  · exact h

/-- What is found after an addition was there before or is the new entry. -/
theorem lookup_add (h : (c.add k v).items.lookup a = some w) :
    a = k ∧ w = v ∨ c.items.lookup a = some w := by
  have hinsert : ∀ {w}, (c.items.insert k v).lookup a = some w →
      a = k ∧ w = v ∨ c.items.lookup a = some w := by
    intro w hw
    rw [Map.lookup_insert_ite] at hw
    split_ifs at hw with ha
    · exact .inl ⟨ha, (Option.some.inj hw).symm⟩
    · exact .inr hw
  unfold add at h
  by_cases hk : k ∈ c.items
  · rw [if_pos hk] at h
    exact hinsert h
  · rw [if_neg hk] at h
    simp only at h
    split_ifs at h
    · exact hinsert (lookup_removeOldest h)
    · exact hinsert h

/-- An entry that is there is replaced. -/
theorem lookup_add_of_mem (hk : k ∈ c.items) (v : β) (a : α) :
    (c.add k v).items.lookup a = if a = k then some v else c.items.lookup a := by
  rw [add, if_pos hk, Map.lookup_insert_ite]

/-- As long as there is room, nothing is evicted. -/
theorem lookup_add_of_room (h : c.items.keys.length < c.size) (k : α) (v : β) (a : α) :
    (c.add k v).items.lookup a = if a = k then some v else c.items.lookup a := by
  by_cases hk : k ∈ c.items
  · exact lookup_add_of_mem hk v a
  · have hlen : ¬c.size < (c.items.insert k v).keys.length := by
      rw [AList.keys_insert, List.length_cons, List.erase_of_not_mem (mt AList.mem_keys.2 hk)]
      omega
    rw [add, if_neg hk]
    simp only [if_neg hlen, Map.lookup_insert_ite]

end Lru

end Babble

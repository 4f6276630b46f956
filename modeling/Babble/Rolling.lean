import Babble.Maps

/-!
# Rolling indexes

`RollingIndex` keeps a window of items with consecutive indexes and drops the older half
when the window is full. `RollingIndexMap` holds one per participant, under the
participant's `uint32` identifier.

`Err` is the error type of the development : the coded errors of the store, the
self-parent errors that `IsNormalSelfParentError` tells apart, plain messages, an error
under a prefix, and a run-time panic.
-/

namespace Babble

/-! ## Errors -/

/-- The nature of a store error. -/
inductive StoreErrType
  | keyNotFound
  | tooLate
  | skippedIndex
  | unknownParticipant
  | empty
  | keyAlreadyExists
deriving DecidableEq, Repr

/-- Errors. A store error carries its data type and its code; the key that the message
also shows is left out. -/
inductive Err
  | store (dataType : String) (errType : StoreErrType)
  | selfParent (text : String) (normal : Bool)
  | msg (text : String)
  | wrap (context : String) (err : Err)
  | panic (text : String)
deriving DecidableEq, Repr

/-- The text of a kind of store error. -/
def StoreErrType.text : StoreErrType → String
  | .keyNotFound => "Not Found"
  | .tooLate => "Too Late"
  | .skippedIndex => "Skipped Index"
  | .unknownParticipant => "Unknown Participant"
  | .empty => "Empty"
  | .keyAlreadyExists => "Key Already Exists"

/-- The text of an error. -/
def Err.text : Err → String
  | .store dataType errType => dataType ++ ", " ++ errType.text
  | .selfParent text _ => text
  | .msg text => text
  | .wrap context err => context ++ ": " ++ err.text
  | .panic text => text

/-- `common.IsStore`. -/
def Err.isStore (err : Err) (t : StoreErrType) : Bool :=
  match err with
  | .store _ errType => errType == t
  | _ => false

/-- `IsNormalSelfParentError`. -/
def Err.isNormalSelfParentError : Err → Bool
  | .selfParent _ normal => normal
  | _ => false

/-! ## One index -/

/-- A window of items : `lastIndex` is the index of the last one, `-1` at the start. -/
structure RollingIndex (α : Type) where
  name : String
  size : ℕ
  lastIndex : ℤ
  items : List α
deriving DecidableEq

namespace RollingIndex

variable {α : Type}

/-- An empty window of `size` items. -/
def new (name : String) (size : ℕ) : RollingIndex α :=
  { name := name, size := size, lastIndex := -1, items := [] }

/-- The index of the oldest cached item, if there are no gaps. -/
def oldestCachedIndex (r : RollingIndex α) : ℤ :=
  r.lastIndex - r.items.length + 1

/-- The items with index greater than `skipIndex`, or `TooLate` if some were evicted. -/
def get (r : RollingIndex α) (skipIndex : ℤ) : Except Err (List α) :=
  if r.lastIndex < skipIndex then .ok []
  else if skipIndex + 1 < r.oldestCachedIndex then .error (.store r.name .tooLate)
  else .ok (r.items.drop (skipIndex - r.oldestCachedIndex + 1).toNat)

/-- The item at `index`. -/
def getItem (r : RollingIndex α) (index : ℤ) : Except Err α :=
  if index < r.oldestCachedIndex then .error (.store r.name .tooLate)
  else
    match r.items[(index - r.oldestCachedIndex).toNat]? with
    | some item => .ok item
    | none => .error (.store r.name .keyNotFound)

/-- Evict the earlier half of the window. -/
def roll (r : RollingIndex α) : RollingIndex α :=
  { r with items := r.items.drop (r.size / 2) }

/-- Insert `item` at the end, after a roll if the window is full. -/
def append (r : RollingIndex α) (item : α) (index : ℤ) : RollingIndex α :=
  let r := if r.size ≤ r.items.length then r.roll else r
  { r with items := r.items ++ [item], lastIndex := index }

/-- Insert `item` at `index` : at the end, or in place of an item of the window. The
first item may come with any index. -/
def set (r : RollingIndex α) (item : α) (index : ℤ) : Except Err (RollingIndex α) :=
  if 0 ≤ r.lastIndex ∧ r.lastIndex + 1 < index then .error (.store r.name .skippedIndex)
  else if r.lastIndex < 0 ∨ index = r.lastIndex + 1 then .ok (r.append item index)
  else if index < r.oldestCachedIndex then .error (.store r.name .tooLate)
  else .ok { r with items := r.items.set (index - r.oldestCachedIndex).toNat item }

theorem oldestCachedIndex_le (r : RollingIndex α) : r.oldestCachedIndex ≤ r.lastIndex + 1 := by
  unfold oldestCachedIndex
  omega

/-- A window takes the next index, and those it holds. -/
theorem exists_set_iff {r : RollingIndex α} {x : α} {i : ℤ} :
    (∃ r', r.set x i = .ok r') ↔
      r.lastIndex < 0 ∨ r.oldestCachedIndex ≤ i ∧ i ≤ r.lastIndex + 1 := by
  have hold := r.oldestCachedIndex_le
  unfold set
  split_ifs with h1 h2 h3
  · exact ⟨nofun, by omega⟩
  · exact ⟨fun _ => by omega, fun _ => ⟨_, rfl⟩⟩
  · exact ⟨nofun, by omega⟩
  · exact ⟨fun _ => by omega, fun _ => ⟨_, rfl⟩⟩

/-- A window that is not full takes the next index at its end. -/
theorem set_next {r : RollingIndex α} (item : α) (hsize : r.items.length < r.size) :
    r.set item (r.lastIndex + 1) =
      .ok { r with items := r.items ++ [item], lastIndex := r.lastIndex + 1 } := by
  simp [set, append, Nat.not_le.2 hsize]

/-- A window that starts at index 0 holds its items at their positions. -/
theorem getItem_eq {r : RollingIndex α} (hlast : r.lastIndex = r.items.length - 1) (i : ℕ) :
    r.getItem i =
      match r.items[i]? with
      | some item => .ok item
      | none => .error (.store r.name .keyNotFound) := by
  have h0 : r.oldestCachedIndex = 0 := by
    rw [oldestCachedIndex, hlast]
    omega
  rw [getItem, if_neg (by omega), h0]
  simp

/-- The last item is found at the last index. -/
theorem getItem_lastIndex {r : RollingIndex α} {x : α} (h : r.items.getLast? = some x) :
    r.getItem r.lastIndex = .ok x := by
  have hpos : 0 < r.items.length := by
    cases hi : r.items with
    | nil => rw [hi] at h; cases h
    | cons a l => simp
  have hold : r.lastIndex - r.oldestCachedIndex = (r.items.length - 1 : ℕ) := by
    unfold oldestCachedIndex
    omega
  rw [getItem, if_neg (by omega), hold, Int.toNat_natCast, ← List.getLast?_eq_getElem?, h]

variable {r : RollingIndex α} {x : α} {i j : ℤ}

theorem getItem_eq_ok_iff : r.getItem i = .ok x ↔
    r.oldestCachedIndex ≤ i ∧ r.items[(i - r.oldestCachedIndex).toNat]? = some x := by
  unfold getItem
  split_ifs with h
  · exact ⟨nofun, fun h' => absurd h'.1 (by omega)⟩
  · split
    · next y hy => simp [hy, Int.not_lt.1 h]
    · next hnone => simp [hnone]

/-- Items are found from the oldest index to the last. -/
theorem bounds_of_getItem (h : r.getItem i = .ok x) :
    r.oldestCachedIndex ≤ i ∧ i ≤ r.lastIndex := by
  obtain ⟨hold, hx⟩ := getItem_eq_ok_iff.1 h
  obtain ⟨hlt, -⟩ := List.getElem?_eq_some_iff.1 hx
  refine ⟨hold, ?_⟩
  unfold oldestCachedIndex at hold hlt
  omega

/-- A window is cut at a place inside of it. -/
theorem get_start {skipIndex : ℤ} (hlast : skipIndex ≤ r.lastIndex)
    (hold : r.oldestCachedIndex ≤ skipIndex + 1) :
    0 ≤ skipIndex - r.oldestCachedIndex + 1 ∧
      skipIndex - r.oldestCachedIndex + 1 ≤ r.items.length := by
  unfold oldestCachedIndex at hold ⊢
  omega

/-- The items after a known index. -/
theorem mem_get_iff {skipIndex : ℤ} {l : List α} (h : r.get skipIndex = .ok l) :
    x ∈ l ↔ ∃ i, skipIndex < i ∧ r.getItem i = .ok x := by
  unfold get at h
  split_ifs at h with hlast hold
  · obtain rfl := Except.ok.inj h
    refine iff_of_false List.not_mem_nil ?_
    rintro ⟨i, hi, hx⟩
    have := (bounds_of_getItem hx).2
    omega
  · obtain rfl := Except.ok.inj h
    rw [List.mem_iff_getElem?]
    constructor
    · rintro ⟨j, hj⟩
      rw [List.getElem?_drop] at hj
      refine ⟨skipIndex + 1 + j, by omega, getItem_eq_ok_iff.2 ⟨by omega, ?_⟩⟩
      convert hj using 2
      omega
    · rintro ⟨i, hi, hx⟩
      obtain ⟨hge, hx⟩ := getItem_eq_ok_iff.1 hx
      refine ⟨(i - (skipIndex + 1)).toNat, ?_⟩
      rw [List.getElem?_drop]
      convert hx using 2
      omega

/-- An addition drops some of the oldest items. -/
theorem append_drop (r : RollingIndex α) (x : α) (i : ℤ) : ∃ d ≤ r.items.length,
    r.append x i = { r with items := r.items.drop d ++ [x], lastIndex := i } := by
  unfold append
  split_ifs with hfull
  · exact ⟨r.size / 2, by omega, rfl⟩
  · exact ⟨0, Nat.zero_le _, rfl⟩

/-- The items that stay are found as before. -/
theorem getItem_append (hi : i = r.lastIndex + 1) (hj : j ≤ r.lastIndex)
    (hold : (r.append x i).oldestCachedIndex ≤ j) :
    r.oldestCachedIndex ≤ j ∧ (r.append x i).getItem j = r.getItem j := by
  obtain ⟨d, hd, he⟩ := r.append_drop x i
  have hlen : (r.items.drop d ++ [x]).length = r.items.length - d + 1 := by simp
  have holdest : (r.append x i).oldestCachedIndex = r.oldestCachedIndex + d := by
    simp only [he, oldestCachedIndex, hlen]
    omega
  have hlast : r.lastIndex = r.oldestCachedIndex + r.items.length - 1 := by
    rw [oldestCachedIndex]
    omega
  rw [holdest] at hold
  refine ⟨by omega, ?_⟩
  rw [getItem, getItem, holdest, if_neg (by omega), if_neg (by omega), he]
  have hpos : (j - r.oldestCachedIndex).toNat = d + (j - (r.oldestCachedIndex + d)).toNat := by
    omega
  have hlt : (j - (r.oldestCachedIndex + d)).toNat < (r.items.drop d).length := by
    rw [List.length_drop]
    omega
  simp only [List.getElem?_append_left hlt, List.getElem?_drop, hpos]

/-- The new item is the last. -/
theorem getItem_append_self : (r.append x i).getItem i = .ok x := by
  obtain ⟨d, -, he⟩ := r.append_drop x i
  have hlast : (r.append x i).items.getLast? = some x := by simp [he]
  have := getItem_lastIndex hlast
  rwa [show (r.append x i).lastIndex = i by rw [he]] at this

/-- An item that is set again at its place changes nothing. -/
theorem set_again (h0 : 0 ≤ r.lastIndex) (hi : i ≤ r.lastIndex) (hold : r.oldestCachedIndex ≤ i)
    (hx : r.getItem i = .ok x) : r.set x i = .ok r := by
  unfold getItem at hx
  rw [if_neg (by omega)] at hx
  split at hx
  · next y hy =>
    obtain rfl := Except.ok.inj hx
    have hitems : r.items.set (i - r.oldestCachedIndex).toNat y = r.items := by
      obtain ⟨hpos, rfl⟩ := List.getElem?_eq_some_iff.1 hy
      exact List.set_getElem_self hpos
    rw [RollingIndex.set, if_neg (by omega), if_neg (by omega), if_neg (by omega), hitems]
  · cases hx

/-- An item that has left the window cannot be set again. -/
theorem set_too_late (h0 : 0 ≤ r.lastIndex) (hold : i < r.oldestCachedIndex) :
    ¬∃ r', r.set x i = .ok r' := by
  rw [exists_set_iff]
  omega

end RollingIndex

/-! ## One index per participant -/

/-- A collection of rolling indexes under `uint32` keys. -/
structure RollingIndexMap (α : Type) where
  name : String
  size : ℕ
  mapping : Map UInt32 (RollingIndex α)
deriving DecidableEq

namespace RollingIndexMap

variable {α : Type}

/-- No rolling index yet. -/
def new (name : String) (size : ℕ) : RollingIndexMap α :=
  { name := name, size := size, mapping := ∅ }

/-- Add a rolling index for `key`. -/
def addKey (rim : RollingIndexMap α) (key : UInt32) : Except Err (RollingIndexMap α) :=
  match rim.mapping.lookup key with
  | some _ => .error (.store rim.name .keyAlreadyExists)
  | none => .ok { rim with mapping := rim.mapping.insert key (RollingIndex.new rim.name rim.size) }

/-- The items of `key` with index greater than `skipIndex`. -/
def get (rim : RollingIndexMap α) (key : UInt32) (skipIndex : ℤ) : Except Err (List α) :=
  match rim.mapping.lookup key with
  | none => .error (.store rim.name .keyNotFound)
  | some items => items.get skipIndex

/-- The item of `key` at `index`. A missing key is a nil pointer in the source. -/
def getItem (rim : RollingIndexMap α) (key : UInt32) (index : ℤ) : Except Err α :=
  match rim.mapping.lookup key with
  | none => .error (.panic "nil RollingIndex")
  | some items => items.getItem index

/-- The last item of `key`. -/
def getLast (rim : RollingIndexMap α) (key : UInt32) : Except Err α :=
  match rim.mapping.lookup key with
  | none => .error (.store rim.name .keyNotFound)
  | some pe =>
    match pe.items.getLast? with
    | none => .error (.store rim.name .empty)
    | some last => .ok last

/-- The last item is found at some index. -/
theorem getItem_of_getLast {rim : RollingIndexMap α} {key : UInt32} {x : α}
    (h : rim.getLast key = .ok x) : ∃ i, rim.getItem key i = .ok x := by
  unfold getLast at h
  unfold getItem
  split at h
  · cases h
  · next ri _ =>
    split at h
    · cases h
    · next last hlast =>
      obtain rfl := Except.ok.inj h
      exact ⟨ri.lastIndex, RollingIndex.getItem_lastIndex hlast⟩

/-- Insert or replace an item of `key`. -/
def set (rim : RollingIndexMap α) (key : UInt32) (item : α) (index : ℤ) :
    Except Err (RollingIndexMap α) := do
  let items := (rim.mapping.lookup key).getD (RollingIndex.new rim.name rim.size)
  let items ← items.set item index
  return { rim with mapping := rim.mapping.insert key items }

/-- The last index of every key. -/
def known (rim : RollingIndexMap α) : List (UInt32 × ℤ) :=
  rim.mapping.toPairs.map fun e => (e.1, e.2.lastIndex)

end RollingIndexMap

end Babble

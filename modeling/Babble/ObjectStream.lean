import Mathlib.Data.List.Basic
import Mathlib.Data.List.TakeWhile

/-!
# Objects in a stream of bytes

A decoder takes JSON objects from a stream. It reads the stream in chunks of any size, keeps
what it has read in a buffer of its own, and returns as soon as the buffer holds a complete
object; bytes after the object stay in the buffer. Another reader of the same stream only
gets what the decoder has not read.

`readValue` looks for an object in the buffer, after white space. `decode` is the loop of
reads, where a list gives the sizes of the chunks. If the stream holds an object and one
more byte, then that byte ends up in the buffer, except if a chunk ends with the object
(`decode_eq`).
-/

namespace Babble.ObjectStream

/-! ## Scanning -/

/-- Where a scan of an object is : the number of open braces and brackets, and whether it is
inside a string, right after a backslash. -/
structure Scan where
  depth : ℕ := 0
  inString : Bool := false
  escaped : Bool := false

/-- The scan after one more byte. -/
def Scan.next (s : Scan) (b : UInt8) : Scan :=
  if s.inString then
    if s.escaped then { s with escaped := false }
    else if b = 92 then { s with escaped := true }
    else if b = 34 then { s with inString := false }
    else s
  else if b = 34 then { s with inString := true }
  else if b = 123 ∨ b = 91 then { s with depth := s.depth + 1 }
  else if b = 125 ∨ b = 93 then { s with depth := s.depth - 1 }
  else s

/-- The bytes up to the end of the object and the bytes after it. -/
def scanFrom (s : Scan) : List UInt8 → Option (List UInt8 × List UInt8)
  | [] => none
  | b :: bs =>
    let s := s.next b
    if s.depth = 0 ∧ s.inString = false then some ([b], bs)
    else (scanFrom s bs).map fun r => (b :: r.1, r.2)

/-- Space, tab, new line and carriage return. -/
def isSpace (b : UInt8) : Bool :=
  b = 32 || b = 9 || b = 10 || b = 13

/-- What a buffer holds : an object and the rest, the beginning of one, or something else. -/
inductive Read
  | value (object rest : List UInt8)
  | more
  | invalid
deriving DecidableEq

/-- Look for an object after white space. -/
def readValue (buf : List UInt8) : Read :=
  match buf.dropWhile isSpace with
  | [] => .more
  | b :: bs =>
    if b = 123 then
      match scanFrom {} (b :: bs) with
      | some (object, rest) => .value object rest
      | none => .more
    else .invalid

theorem scanFrom_append {s : Scan} {l o r : List UInt8} (h : scanFrom s l = some (o, r))
    (t : List UInt8) : scanFrom s (l ++ t) = some (o, r ++ t) := by
  induction l generalizing s o with
  | nil => cases h
  | cons b l ih =>
    simp only [scanFrom, List.cons_append] at h ⊢
    split_ifs at h ⊢
    · obtain ⟨rfl, rfl⟩ := Prod.mk.inj (Option.some.inj h)
      rfl
    · obtain ⟨⟨o', r'⟩, ho, he⟩ := Option.map_eq_some_iff.1 h
      obtain ⟨rfl, rfl⟩ := Prod.mk.inj he
      rw [ih ho]
      rfl

/-- An object is not complete before its end. -/
theorem scanFrom_eq_none {s : Scan} {p q : List UInt8} (h : scanFrom s (p ++ q) = some (p ++ q, []))
    (hq : q ≠ []) : scanFrom s p = none := by
  induction p generalizing s with
  | nil => rfl
  | cons b p ih =>
    simp only [scanFrom, List.cons_append] at h ⊢
    split_ifs at h ⊢
    · -- the scan would end before `q`
      have := (List.cons.inj (Prod.mk.inj (Option.some.inj h)).1).2
      exact absurd (List.append_eq_nil_iff.1 this.symm).2 hq
    · obtain ⟨⟨o, r⟩, ho, he⟩ := Option.map_eq_some_iff.1 h
      obtain ⟨ho', rfl⟩ := Prod.mk.inj he
      obtain rfl : o = p ++ q := (List.cons.inj ho').2
      rw [ih ho]
      rfl

/-- Bytes that are an object and nothing else. -/
def IsObject (o : List UInt8) : Prop :=
  o.head? = some 123 ∧ scanFrom {} o = some (o, [])

instance (o : List UInt8) : Decidable (IsObject o) :=
  inferInstanceAs (Decidable (_ ∧ _))

section Object

variable {o w : List UInt8}

theorem dropWhile_append_object (ho : o.head? = some 123) (hw : ∀ b ∈ w, isSpace b = true)
    (t : List UInt8) : (w ++ o ++ t).dropWhile isSpace = o ++ t := by
  rw [List.append_assoc, List.dropWhile_append_of_pos hw]
  cases o with
  | nil => cases ho
  | cons b o =>
    obtain rfl := Option.some.inj ho
    rfl

/-- A complete object is found, with the bytes after it. -/
theorem IsObject.readValue_eq (h : IsObject o) (hw : ∀ b ∈ w, isSpace b = true)
    (t : List UInt8) : readValue (w ++ o ++ t) = .value o t := by
  unfold readValue
  rw [dropWhile_append_object h.1 hw]
  cases o with
  | nil => cases h.1
  | cons b o =>
    obtain rfl := Option.some.inj h.1
    have := scanFrom_append h.2 t
    simp only [List.cons_append, List.nil_append] at this ⊢
    simp [this]

/-- Nothing is found in a part of an object. -/
theorem IsObject.readValue_part {p q : List UInt8} (h : IsObject (p ++ q)) (hq : q ≠ [])
    (hw : ∀ b ∈ w, isSpace b = true) : readValue (w ++ p) = .more := by
  unfold readValue
  cases p with
  | nil =>
    rw [List.append_nil, List.dropWhile_eq_nil_iff.2 hw]
  | cons b p =>
    have hb : (b :: p).head? = some 123 := h.1
    have hd := dropWhile_append_object hb hw []
    rw [List.append_nil, List.append_nil] at hd
    rw [hd]
    obtain rfl := Option.some.inj hb
    simp [scanFrom_eq_none h.2 hq]

end Object

/-! ## Reading in chunks -/

/-- The end of a decoding : an object, with what is left in the buffer and in the stream, or
a wait for more bytes, or an error. -/
inductive Decoded
  | object (o buf input : List UInt8)
  | waiting (buf : List UInt8)
  | error
deriving DecidableEq

/-- Take an object from the buffer and the stream. While the buffer holds none, a chunk is
read : of the next size from a list, or all there is. -/
def decode : List ℕ → List UInt8 → List UInt8 → Decoded
  | sizes, input, buf =>
    match readValue buf with
    | .value o rest => .object o rest input
    | .invalid => .error
    | .more =>
      match sizes with
      | [] =>
        match readValue (buf ++ input) with
        | .value o rest => .object o rest []
        | .invalid => .error
        | .more => .waiting (buf ++ input)
      | n :: sizes => decode sizes (input.drop (n + 1)) (buf ++ input.take (n + 1))

theorem decode_of_value {buf o rest : List UInt8} (h : readValue buf = .value o rest)
    (sizes : List ℕ) (input : List UInt8) : decode sizes input buf = .object o rest input := by
  cases sizes <;> simp [decode, h]

/-- Where the chunks of given sizes end, each of one byte more than the number in the
list. -/
def ends : List ℕ → List ℕ
  | [] => []
  | n :: sizes => (n + 1) :: (ends sizes).map (· + (n + 1))

theorem mem_ends_cons {m n : ℕ} {sizes : List ℕ} :
    m ∈ ends (n :: sizes) ↔ m = n + 1 ∨ n + 1 ≤ m ∧ m - (n + 1) ∈ ends sizes := by
  simp only [ends, List.mem_cons, List.mem_map]
  constructor
  · rintro (rfl | ⟨k, hk, rfl⟩)
    · exact .inl rfl
    · exact .inr ⟨by omega, by rwa [Nat.add_sub_cancel]⟩
  · rintro (rfl | ⟨hle, hk⟩)
    · exact .inl rfl
    · exact .inr ⟨_, hk, by omega⟩

theorem zero_notMem_ends (sizes : List ℕ) : 0 ∉ ends sizes := by
  cases sizes with
  | nil => simp [ends]
  | cons n sizes => simp [mem_ends_cons]

/-- A stream with an object and one byte more, of which a part of the object was read : the
last byte stays in the stream if and only if a chunk ends with the object. -/
theorem decode_part {w p q : List UInt8} {c : UInt8} (h : IsObject (p ++ q)) (hq : q ≠ [])
    (hw : ∀ b ∈ w, isSpace b = true) (sizes : List ℕ) :
    decode sizes (q ++ [c]) (w ++ p) =
      if q.length ∈ ends sizes then .object (p ++ q) [] [c] else .object (p ++ q) [c] [] := by
  induction sizes generalizing p q with
  | nil =>
    have hall : w ++ p ++ (q ++ [c]) = w ++ (p ++ q) ++ [c] := by simp
    simp only [decode, h.readValue_part hq hw, hall, h.readValue_eq hw]
    simp [ends]
  | cons n sizes ih =>
    rw [decode, h.readValue_part hq hw]
    simp only [mem_ends_cons]
    rcases Nat.lt_trichotomy (n + 1) q.length with hlt | heq | hgt
    · -- the chunk ends inside of the object
      have hsplit : p ++ q.take (n + 1) ++ q.drop (n + 1) = p ++ q := by
        rw [List.append_assoc, List.take_append_drop]
      have hdrop : q.drop (n + 1) ≠ [] := by
        rw [Ne, List.drop_eq_nil_iff]
        omega
      rw [List.drop_append_of_le_length (Nat.le_of_lt hlt), List.take_append_of_le_length (Nat.le_of_lt hlt),
        List.append_assoc, ih (by rwa [hsplit]) hdrop, hsplit, List.length_drop]
      have hmem : (q.length = n + 1 ∨ n + 1 ≤ q.length ∧ q.length - (n + 1) ∈ ends sizes) ↔
          q.length - (n + 1) ∈ ends sizes :=
        ⟨fun hm => hm.elim (fun he => absurd he (by omega)) And.right, fun hm => .inr ⟨(Nat.le_of_lt hlt), hm⟩⟩
      simp only [hmem]
    · -- the chunk ends with the object
      have hread := h.readValue_eq hw []
      rw [List.append_nil] at hread
      rw [heq, List.drop_left, List.take_left, List.append_assoc, decode_of_value hread,
        if_pos (.inl rfl)]
    · -- the chunk takes the last byte too
      have hlen : (q ++ [c]).length ≤ n + 1 := by
        rw [List.length_append, List.length_singleton]
        omega
      have hall : w ++ p ++ (q ++ [c]) = w ++ (p ++ q) ++ [c] := by simp
      rw [List.drop_eq_nil_of_le hlen, List.take_of_length_le hlen, hall,
        decode_of_value (h.readValue_eq hw [c]), if_neg (by omega)]

/-- The decoding of an object that is followed by one byte. -/
theorem decode_eq {w o : List UInt8} {c : UInt8} (h : IsObject o)
    (hw : ∀ b ∈ w, isSpace b = true) (sizes : List ℕ) :
    decode sizes (o ++ [c]) w =
      if o.length ∈ ends sizes then .object o [] [c] else .object o [c] [] := by
  have ho : o ≠ [] := by
    rintro rfl
    cases h.1
  have := decode_part (p := []) (q := o) (c := c) h ho hw sizes
  rwa [List.append_nil, List.nil_append] at this

end Babble.ObjectStream

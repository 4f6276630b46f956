import Mathlib.Data.List.Basic

/-!
# Hexadecimal strings

Babble keeps hashes and public keys as strings : `EncodeToString` writes bytes in
upper case after a `0X` prefix, `DecodeFromString` drops the first two characters and
reads the rest. The strings serve as map keys and as input of the FNV hash that gives a
peer its `uint32` identifier.

`Hex` is what the rest of the development asks of a type of such strings. `String` is
the instance the program runs with (`instHexString`); the consensus code never looks
inside a string except through these operations.
-/

namespace Babble

/-- Strings that hold hexadecimal text : `common.EncodeToString`,
`common.DecodeFromString` with its error dropped, whether it reports none, and
`strings.ToUpper`. -/
class Hex (α : Type) where
  encodeToString : List UInt8 → α
  decodeFromString : α → List UInt8
  wellFormed : α → Bool
  toUpper : α → α
  decode_encode : ∀ b, decodeFromString (encodeToString b) = b
  wellFormed_encode : ∀ b, wellFormed (encodeToString b) = true
  toUpper_encode : ∀ b, toUpper (encodeToString b) = encodeToString b
  decode_toUpper : ∀ s, decodeFromString (toUpper s) = decodeFromString s
  toUpper_toUpper : ∀ s, toUpper (toUpper s) = toUpper s

theorem Hex.encode_injective {α : Type} [Hex α] {b c : List UInt8}
    (h : (Hex.encodeToString b : α) = Hex.encodeToString c) : b = c := by
  rw [← Hex.decode_encode (α := α) b, h, Hex.decode_encode]

/-- The 32-bit FNV-1a hash of `data`. -/
def fnv32a (data : List UInt8) : UInt32 :=
  data.foldl (fun h b => (h ^^^ b.toUInt32) * 16777619) 2166136261

/-! ## The codec on characters -/

/-- The upper-case digit of a nibble. -/
def hexDigit (n : ℕ) : Char :=
  if n < 10 then Char.ofNat (48 + n) else Char.ofNat (55 + n)

/-- The value of a hexadecimal digit of either case. -/
def hexValue (c : Char) : Option ℕ :=
  if 48 ≤ c.toNat ∧ c.toNat ≤ 57 then some (c.toNat - 48)
  else if 65 ≤ c.toNat ∧ c.toNat ≤ 70 then some (c.toNat - 55)
  else if 97 ≤ c.toNat ∧ c.toNat ≤ 102 then some (c.toNat - 87)
  else none

/-- Two digits per byte, the high one first. -/
def encodeHex : List UInt8 → List Char
  | [] => []
  | b :: bs => hexDigit (b.toNat / 16) :: hexDigit (b.toNat % 16) :: encodeHex bs

/-- `hex.DecodeString` : the bytes before the first malformed pair. -/
def decodeHex : List Char → List UInt8
  | c :: d :: cs =>
    match hexValue c, hexValue d with
    | some m, some n => UInt8.ofNat (16 * m + n) :: decodeHex cs
    | _, _ => []
  | _ => []

/-- `hex.DecodeString` reports no error. -/
def isHex : List Char → Bool
  | [] => true
  | c :: d :: cs => (hexValue c).isSome && (hexValue d).isSome && isHex cs
  | [_] => false

theorem hexValue_hexDigit : ∀ n < 16, hexValue (hexDigit n) = some n := by decide

theorem toUpper_hexDigit : ∀ n < 16, (hexDigit n).toUpper = hexDigit n := by decide

theorem decodeHex_encodeHex (bs : List UInt8) : decodeHex (encodeHex bs) = bs := by
  induction bs with
  | nil => rfl
  | cons b bs ih =>
    have hb := b.toNat_lt
    have hn : 16 * (b.toNat / 16) + b.toNat % 16 = b.toNat := Nat.div_add_mod _ _
    simp only [encodeHex, decodeHex, hexValue_hexDigit _ (by omega : b.toNat / 16 < 16),
      hexValue_hexDigit _ (by omega : b.toNat % 16 < 16), hn, ih, UInt8.ofNat_toNat]

theorem isHex_encodeHex (bs : List UInt8) : isHex (encodeHex bs) = true := by
  induction bs with
  | nil => rfl
  | cons b bs ih =>
    have hb := b.toNat_lt
    simp only [encodeHex, isHex, hexValue_hexDigit _ (by omega : b.toNat / 16 < 16),
      hexValue_hexDigit _ (by omega : b.toNat % 16 < 16), ih, Option.isSome_some, Bool.and_self]

theorem map_toUpper_encodeHex (bs : List UInt8) :
    (encodeHex bs).map Char.toUpper = encodeHex bs := by
  induction bs with
  | nil => rfl
  | cons b bs ih =>
    have hb := b.toNat_lt
    simp only [encodeHex, List.map_cons, toUpper_hexDigit _ (by omega : b.toNat / 16 < 16),
      toUpper_hexDigit _ (by omega : b.toNat % 16 < 16), ih]

theorem toNat_toUpper (c : Char) :
    c.toUpper.toNat = if 97 ≤ c.toNat ∧ c.toNat ≤ 122 then c.toNat - 32 else c.toNat := by
  have ha : ('a'.val ≤ c.val ∧ c.val ≤ 'z'.val) ↔ 97 ≤ c.toNat ∧ c.toNat ≤ 122 := by
    simp only [UInt32.le_iff_toNat_le]
    rfl
  unfold Char.toUpper
  split_ifs with h1 h2 h2
  · have : (c.val + ('A'.val - 'a'.val)).toNat = (c.toNat + 4294967264) % 4294967296 := by simp
    change (c.val + ('A'.val - 'a'.val)).toNat = _
    omega
  · exact absurd (ha.1 h1) h2
  · exact absurd (ha.2 h2) h1
  · rfl

theorem toUpper_toUpper (c : Char) : c.toUpper.toUpper = c.toUpper := by
  refine Char.toNat_inj.1 ?_
  rw [toNat_toUpper c.toUpper, toNat_toUpper c]
  grind

theorem hexValue_toUpper (c : Char) : hexValue c.toUpper = hexValue c := by
  unfold hexValue
  rw [toNat_toUpper]
  grind

theorem decodeHex_map_toUpper : ∀ cs : List Char, decodeHex (cs.map Char.toUpper) = decodeHex cs
  | [] => rfl
  | [_] => rfl
  | c :: d :: cs => by
    simp only [List.map_cons, decodeHex, hexValue_toUpper, decodeHex_map_toUpper cs]

/-! ## Strings -/

/-- The strings of the program. -/
instance instHexString : Hex String where
  encodeToString bs := String.ofList ('0' :: 'X' :: encodeHex bs)
  decodeFromString s := decodeHex (s.toList.drop 2)
  wellFormed s := isHex (s.toList.drop 2)
  toUpper s := String.ofList (s.toList.map Char.toUpper)
  decode_encode bs := by simp [decodeHex_encodeHex]
  wellFormed_encode bs := by simp [isHex_encodeHex]
  toUpper_encode bs := by
    simp only [String.toList_ofList, List.map_cons, map_toUpper_encodeHex]
    rfl
  decode_toUpper s := by
    rw [String.toList_ofList, ← List.map_drop, decodeHex_map_toUpper]
  toUpper_toUpper s := by
    rw [String.toList_ofList, List.map_map]
    exact congrArg String.ofList (List.map_congr_left fun c _ => toUpper_toUpper c)

end Babble

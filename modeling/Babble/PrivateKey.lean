import Babble.BigEndian
import Babble.Hex
import Babble.Maps
import Mathlib.Data.List.DropRight
import Mathlib.Data.Nat.Size

/-!
# Private keys

A private key is a number below the order of the curve. `DumpPrivateKey` writes it as 32
big-endian bytes, `ParsePrivateKey` reads them back, and a keyfile has them in hexadecimal.

The dump goes one of two ways. If the bit length, divided by eight and rounded down, reaches
32, it is what `big.Int` gives; otherwise `readBits` writes the machine words of the number into
a buffer, byte by byte from its end. Both give the same bytes, for words of either size
(`paddedBigBytes_eq`).

The curve's scalar multiplication is outside of the repository : `mult` gives the point of a
scalar, or nothing.
-/

namespace Babble.Keys

open BigEndian

/-! ## Big integers -/

/-- The sizes of a `big.Word`. -/
inductive WordSize
  | word32
  | word64
deriving DecidableEq, Repr

/-- The greatest word, `^big.Word(0)`. -/
def WordSize.maxWord : WordSize → ℕ
  | .word32 => 2 ^ 32 - 1
  | .word64 => 2 ^ 64 - 1

/-- The number of bits in a `big.Word`. -/
def wordBits (s : WordSize) : ℕ :=
  32 <<< (s.maxWord >>> 63)

/-- The number of bytes in a `big.Word`. -/
def wordBytes (s : WordSize) : ℕ :=
  wordBits s / 8

/-- `big.Int.Bits` : the words of the absolute value, the lowest first. -/
def bits (s : WordSize) (x : ℤ) : List ℕ :=
  Nat.digits (2 ^ wordBits s) x.natAbs

/-- `big.Int.BitLen`. -/
def bitLen (x : ℤ) : ℕ :=
  x.natAbs.size

/-- `big.Int.Bytes` : the absolute value as big-endian bytes, with no zero in front. -/
def bytes (x : ℤ) : List UInt8 :=
  ((Nat.digits 256 x.natAbs).map UInt8.ofNat).reverse

/-- `big.Int.SetBytes` : the number that big-endian bytes stand for. -/
def setBytes (b : List UInt8) : ℤ :=
  value b.reverse

/-! ## Dump and parse -/

/-- The inner loop of `readBits` : at most `k` bytes of a word. -/
def readWord : ℕ → ℕ → ℕ × List UInt8 → ℕ × List UInt8
  | 0, _, s => s
  | _ + 1, _, (0, buf) => (0, buf)
  | k + 1, d, (i + 1, buf) => readWord k (d >>> 8) (i, buf.set i (UInt8.ofNat d))

/-- Encode the absolute value as big-endian bytes. -/
def readBits (s : WordSize) (x : ℤ) (buf : List UInt8) : List UInt8 :=
  ((bits s x).foldl (fun st d => readWord (wordBytes s) d st) (buf.length, buf)).2

/-- Encode a big integer as big-endian bytes, at least `n` of them. -/
def paddedBigBytes (s : WordSize) (x : ℤ) (n : ℕ) : List UInt8 :=
  if bitLen x / 8 ≥ n then bytes x else readBits s x (List.replicate n 0)

/-- The order of the curve. -/
def secp256k1N : ℤ :=
  0xfffffffffffffffffffffffffffffffebaaedce6af48a03bbfd25e8cd0364141

/-- The bit size of the curve and the multiplication of its base point. -/
structure Curve where
  bitSize : ℕ
  scalarBaseMult : List UInt8 → Option (ℤ × ℤ)

/-- The curve that the package uses. -/
def curve (mult : List UInt8 → Option (ℤ × ℤ)) : Curve :=
  ⟨256, mult⟩

/-- A private key with its public key. -/
structure PrivateKey where
  curve : Curve
  D : ℤ
  X : ℤ
  Y : ℤ

/-- Export a private key. -/
def dumpPrivateKey (s : WordSize) : Option PrivateKey → List UInt8
  | none => []
  | some priv => paddedBigBytes s priv.D (priv.curve.bitSize / 8)

/-- Create a private key with the given `D` value. -/
def parsePrivateKey (mult : List UInt8 → Option (ℤ × ℤ)) (d : List UInt8) :
    Except String PrivateKey :=
  let c := curve mult
  let bitSize := c.bitSize
  if 8 * d.length ≠ bitSize then .error s!"invalid length, need {bitSize} bits"
  else
    let D := setBytes d
    if D ≥ secp256k1N then .error "invalid private key, >=N"
    else if D ≤ 0 then .error "invalid private key, zero or negative"
    else
      match c.scalarBaseMult d with
      | none => .error "invalid private key"
      | some (x, y) => .ok ⟨c, D, x, y⟩

/-! ## Keyfiles -/

/-- The digits of `hex.EncodeToString`. -/
def lowerDigit (n : ℕ) : Char :=
  if n < 10 then Char.ofNat (48 + n) else Char.ofNat (87 + n)

/-- `hex.EncodeToString`. -/
def encodeToString : List UInt8 → List Char
  | [] => []
  | b :: bs => lowerDigit (b.toNat / 16) :: lowerDigit (b.toNat % 16) :: encodeToString bs

/-- The errors of `hex.DecodeString`. -/
inductive HexError
  | invalidByte (c : Char)
  | length
deriving DecidableEq, Repr

/-- `hex.DecodeString`. -/
def decodeString : List Char → Except HexError (List UInt8)
  | [] => .ok []
  | [c] => if (hexValue c).isSome then .error .length else .error (.invalidByte c)
  | c :: d :: cs =>
    match hexValue c, hexValue d with
    | none, _ => .error (.invalidByte c)
    | some _, none => .error (.invalidByte d)
    | some m, some n => (decodeString cs).map (UInt8.ofNat (16 * m + n) :: ·)

/-- `unicode.IsSpace`. -/
def isSpace (c : Char) : Bool :=
  let n := c.toNat
  (0x09 ≤ n && n ≤ 0x0d) || n == 0x20 || n == 0x85 || n == 0xa0 || n == 0x1680 ||
    (0x2000 ≤ n && n ≤ 0x200a) || n == 0x2028 || n == 0x2029 || n == 0x202f || n == 0x205f ||
    n == 0x3000

/-- `strings.TrimSpace`. -/
def trimSpace (cs : List Char) : List Char :=
  (cs.dropWhile isSpace).rdropWhile isSpace

/-- The files, and the errors of creating the directory of a path and of writing to it. -/
structure Disk where
  files : Map String (List Char)
  mkdirAll : String → Option String
  writeFile : String → Option String

/-- The errors of `ReadKey` : the file cannot be read, is not hexadecimal, or has no key. -/
inductive ReadKeyError
  | readFile (keyfile : String)
  | decode (e : HexError)
  | parse (msg : String)
deriving DecidableEq, Repr

/-- Read the key of a file. -/
def readKey (mult : List UInt8 → Option (ℤ × ℤ)) (disk : Disk) (keyfile : String) :
    Except ReadKeyError PrivateKey :=
  match disk.files.lookup keyfile with
  | none => .error (.readFile keyfile)
  | some buf =>
    match decodeString (trimSpace buf) with
    | .error e => .error (.decode e)
    | .ok key => (parsePrivateKey mult key).mapError .parse

/-- Write the raw hex dump of a key to a file. -/
def writeKey (s : WordSize) (disk : Disk) (keyfile : String) (key : Option PrivateKey) :
    Except String Disk :=
  let rawKey := encodeToString (dumpPrivateKey s key)
  match disk.mkdirAll keyfile with
  | some err => .error err
  | none =>
    match disk.writeFile keyfile with
    | some err => .error err
    | none => .ok { disk with files := disk.files.insert keyfile rawKey }

/-! ## The bytes of a number -/

theorem two_pow_wordBits (s : WordSize) : 2 ^ wordBits s = 256 ^ wordBytes s ∧ 1 < 2 ^ wordBits s := by
  cases s <;> decide

theorem readWord_eq (k d : ℕ) (st : ℕ × List UInt8) :
    readWord k d st = fill (littleEndian k d) st := by
  obtain ⟨i, buf⟩ := st
  induction k generalizing d i buf with
  | zero => rfl
  | succ k ih =>
    cases i with
    | zero => rfl
    | succ i =>
      rw [readWord, ih, Nat.shiftRight_eq_div_pow]
      rfl

theorem foldl_readWord (k : ℕ) (ws : List ℕ) (st : ℕ × List UInt8) :
    ws.foldl (fun st d => readWord k d st) st = fill (ws.flatMap (littleEndian k)) st := by
  induction ws generalizing st with
  | nil => rfl
  | cons w ws ih => rw [List.foldl_cons, ih, readWord_eq, List.flatMap_cons, fill_append]

/-- `readBits` fills a buffer of zeros with the low bytes of the number. -/
theorem readBits_replicate_zero (s : WordSize) (x : ℤ) (n : ℕ) :
    readBits s x (List.replicate n 0) = bigEndian n x.natAbs := by
  obtain ⟨hpow, hone⟩ := two_pow_wordBits s
  have hvalue : value ((bits s x).flatMap (littleEndian (wordBytes s))) = x.natAbs := by
    rw [value_flatMap_littleEndian, ← hpow, bits, Nat.ofDigits_digits]
    intro w hw
    rw [← hpow]
    exact Nat.digits_lt_base hone hw
  rw [readBits, foldl_readWord, List.length_replicate, fill_replicate_zero, hvalue]

/-- The number of bytes of a number. -/
def byteLen (x : ℤ) : ℕ :=
  (Nat.digits 256 x.natAbs).length

theorem bytes_eq (x : ℤ) : bytes x = bigEndian (byteLen x) x.natAbs := by
  have hvalue : value ((Nat.digits 256 x.natAbs).map UInt8.ofNat) = x.natAbs := by
    rw [value, List.map_map, List.map_congr_left (g := id), List.map_id, Nat.ofDigits_digits]
    intro d hd
    exact (UInt8.toNat_ofNat').trans (Nat.mod_eq_of_lt (Nat.digits_lt_base (by decide) hd))
  have hbytes := littleEndian_length_value ((Nat.digits 256 x.natAbs).map UInt8.ofNat)
  rw [hvalue, List.length_map] at hbytes
  rw [bytes, bigEndian, byteLen, hbytes]

theorem byteLen_le_iff (x : ℤ) (n : ℕ) : byteLen x ≤ n ↔ bitLen x ≤ 8 * n := by
  rw [byteLen, Nat.digits_length_le_iff (by decide), bitLen, Nat.size_le, pow_mul]
  rfl

/-- Both ways give the big-endian bytes of the number, at least `n` of them. -/
theorem paddedBigBytes_eq (s : WordSize) (x : ℤ) (n : ℕ) :
    paddedBigBytes s x n = bigEndian (max n (byteLen x)) x.natAbs := by
  unfold paddedBigBytes
  split_ifs with hlong
  · rw [bytes_eq, max_eq_right]
    by_contra hlt
    have := (byteLen_le_iff x (n - 1)).mp (by omega)
    omega
  · rw [readBits_replicate_zero, max_eq_left]
    rw [byteLen_le_iff]
    omega

/-! ## Keys -/

theorem setBytes_bigEndian (n x : ℕ) : setBytes (bigEndian n x) = (x % 256 ^ n : ℕ) := by
  rw [setBytes, bigEndian, List.reverse_reverse, value_littleEndian]

theorem bigEndian_setBytes (b : List UInt8) : bigEndian b.length (setBytes b).natAbs = b := by
  rw [setBytes, Int.natAbs_natCast, bigEndian, ← List.length_reverse, littleEndian_length_value,
    List.reverse_reverse]

theorem dumpPrivateKey_eq (s : WordSize) {mult : List UInt8 → Option (ℤ × ℤ)} {key : PrivateKey}
    (hcurve : key.curve = curve mult) (hlt : key.D.natAbs < 256 ^ 32) :
    dumpPrivateKey s (some key) = bigEndian 32 key.D.natAbs := by
  have hbits : key.curve.bitSize / 8 = 32 := by simp [hcurve, curve]
  have hlen : byteLen key.D ≤ 32 := (Nat.digits_length_le_iff (by decide) _).mpr hlt
  rw [dumpPrivateKey, paddedBigBytes_eq, hbits, max_eq_left hlen]

/-- What is accepted, and the key that is returned. -/
theorem parsePrivateKey_eq_ok {mult : List UInt8 → Option (ℤ × ℤ)} {d : List UInt8}
    {key : PrivateKey} :
    parsePrivateKey mult d = .ok key ↔
      d.length = 32 ∧ 0 < setBytes d ∧ setBytes d < secp256k1N ∧
        ∃ p, mult d = some p ∧ key = ⟨curve mult, setBytes d, p.1, p.2⟩ := by
  have hbits : 8 * d.length ≠ (curve mult).bitSize ↔ d.length ≠ 32 := by
    show 8 * d.length ≠ 256 ↔ _
    omega
  have hmult : (curve mult).scalarBaseMult d = mult d := rfl
  unfold parsePrivateKey
  simp only [hbits, hmult]
  split_ifs with hlen hN hzero
  · simp [hlen]
  · simp [hN]
  · simp [hzero]
  · cases hp : mult d with
    | none => simp
    | some p =>
      simp only [not_not] at hlen
      simp only [ge_iff_le, not_le] at hN hzero
      simp [hlen, hN, hzero, eq_comm]

/-- A number with all its bytes in the dump is read back. -/
theorem setBytes_dumpPrivateKey (s : WordSize) {mult : List UInt8 → Option (ℤ × ℤ)}
    {key : PrivateKey} (hcurve : key.curve = curve mult) (hpos : 0 < key.D)
    (hlt : key.D < secp256k1N) :
    (dumpPrivateKey s (some key)).length = 32 ∧ setBytes (dumpPrivateKey s (some key)) = key.D := by
  have hN : secp256k1N < 256 ^ 32 := by decide
  have hfits : key.D.natAbs < 256 ^ 32 := by omega
  rw [dumpPrivateKey_eq s hcurve hfits, setBytes_bigEndian, Nat.mod_eq_of_lt hfits]
  exact ⟨length_bigEndian _ _, Int.natAbs_of_nonneg hpos.le⟩

theorem parsePrivateKey_dumpPrivateKey (s : WordSize) {mult : List UInt8 → Option (ℤ × ℤ)}
    (hmult : ∀ d, (mult d).isSome) {key : PrivateKey} (hcurve : key.curve = curve mult)
    (hpos : 0 < key.D) (hlt : key.D < secp256k1N) :
    ∃ k, parsePrivateKey mult (dumpPrivateKey s (some key)) = .ok k ∧ k.D = key.D := by
  obtain ⟨hlen, hD⟩ := setBytes_dumpPrivateKey s hcurve hpos hlt
  obtain ⟨p, hp⟩ := Option.isSome_iff_exists.mp (hmult (dumpPrivateKey s (some key)))
  refine ⟨⟨curve mult, key.D, p.1, p.2⟩, ?_, rfl⟩
  rw [parsePrivateKey_eq_ok, hD]
  exact ⟨hlen, hpos, hlt, p, hp, rfl⟩

theorem dumpPrivateKey_of_parse (s : WordSize) {mult : List UInt8 → Option (ℤ × ℤ)}
    {d : List UInt8} {key : PrivateKey} (h : parsePrivateKey mult d = .ok key) :
    dumpPrivateKey s (some key) = d := by
  obtain ⟨hlen, hpos, hlt, p, -, rfl⟩ := parsePrivateKey_eq_ok.mp h
  have hN : secp256k1N < 256 ^ 32 := by decide
  rw [dumpPrivateKey_eq s (rfl : _ = curve mult) (by simp only; omega), ← hlen]
  exact bigEndian_setBytes d

/-! ## Files -/

theorem hexValue_lowerDigit : ∀ n < 16, hexValue (lowerDigit n) = some n := by
  decide

theorem isSpace_lowerDigit : ∀ n < 16, isSpace (lowerDigit n) = false := by
  decide

theorem decodeString_encodeToString (bs : List UInt8) :
    decodeString (encodeToString bs) = .ok bs := by
  induction bs with
  | nil => rfl
  | cons b bs ih =>
    have hb := b.toNat_lt
    rw [encodeToString, decodeString, hexValue_lowerDigit _ (by omega),
      hexValue_lowerDigit _ (by omega), ih]
    show Except.ok (UInt8.ofNat (16 * (b.toNat / 16) + b.toNat % 16) :: bs) = .ok (b :: bs)
    rw [Nat.div_add_mod, UInt8.ofNat_toNat]

theorem isSpace_of_mem_encodeToString {bs : List UInt8} {c : Char}
    (hc : c ∈ encodeToString bs) : isSpace c = false := by
  induction bs with
  | nil => exact (List.not_mem_nil hc).elim
  | cons b bs ih =>
    have hb := b.toNat_lt
    rw [encodeToString, List.mem_cons, List.mem_cons] at hc
    rcases hc with rfl | rfl | hc
    · exact isSpace_lowerDigit _ (by omega)
    · exact isSpace_lowerDigit _ (by omega)
    · exact ih hc

theorem trimSpace_eq_self {cs : List Char} (h : ∀ c ∈ cs, isSpace c = false) :
    trimSpace cs = cs := by
  have hfront : cs.dropWhile isSpace = cs := by
    rw [List.dropWhile_eq_self_iff]
    intro hl
    simp [h _ (List.getElem_mem hl)]
  rw [trimSpace, hfront, List.rdropWhile_eq_self_iff]
  intro hne
  simp [h _ (List.getLast_mem hne)]

/-- `ReadKey` parses the bytes that `WriteKey` dumps. -/
theorem readKey_of_writeKey {s : WordSize} {mult : List UInt8 → Option (ℤ × ℤ)}
    {disk disk' : Disk} {keyfile : String} {key : Option PrivateKey}
    (h : writeKey s disk keyfile key = .ok disk') :
    readKey mult disk' keyfile =
      (parsePrivateKey mult (dumpPrivateKey s key)).mapError .parse := by
  unfold writeKey at h
  split at h
  · cases h
  · split at h
    · cases h
    · cases h
      rw [readKey]
      simp only [AList.lookup_insert]
      rw [trimSpace_eq_self fun c hc => isSpace_of_mem_encodeToString hc,
        decodeString_encodeToString]

/-! ## Round trips -/

/-- Private keys survive a dump and a keyfile, and what is accepted is a dump. -/
theorem privateKey_roundTrip (s : WordSize) (mult : List UInt8 → Option (ℤ × ℤ))
    (hmult : ∀ d, (mult d).isSome) :
    (∀ key : PrivateKey, key.curve = curve mult → 0 < key.D → key.D < secp256k1N →
      ((dumpPrivateKey s (some key)).length = 32 ∧
        setBytes (dumpPrivateKey s (some key)) = key.D) ∧
      (∃ k, parsePrivateKey mult (dumpPrivateKey s (some key)) = .ok k ∧ k.D = key.D) ∧
      ∀ disk disk' keyfile, writeKey s disk keyfile (some key) = .ok disk' →
        ∃ k, readKey mult disk' keyfile = .ok k ∧ k.D = key.D) ∧
    ∀ d key, parsePrivateKey mult d = .ok key → d = dumpPrivateKey s (some key) := by
  refine ⟨fun key hcurve hpos hlt => ?_, fun d key h => (dumpPrivateKey_of_parse s h).symm⟩
  obtain ⟨k, hk, hD⟩ := parsePrivateKey_dumpPrivateKey s hmult hcurve hpos hlt
  refine ⟨setBytes_dumpPrivateKey s hcurve hpos hlt, ⟨k, hk, hD⟩, ?_⟩
  intro disk disk' keyfile hw
  refine ⟨k, ?_, hD⟩
  rw [readKey_of_writeKey hw, hk]
  rfl

/-- A key with leading zeros, written to a new file. -/
theorem privateKey_roundTrip_one :
    let key : PrivateKey := ⟨curve fun _ => some (0, 0), 1, 0, 0⟩
    ∃ disk, writeKey .word64 ⟨∅, fun _ => none, fun _ => none⟩ "priv_key" (some key) = .ok disk ∧
      ∃ k, readKey (fun _ => some (0, 0)) disk "priv_key" = .ok k ∧ k.D = 1 := by
  intro key
  refine ⟨_, rfl, ?_⟩
  have hkey := (privateKey_roundTrip .word64 (fun _ => some (0, 0)) fun _ => rfl).1 key rfl
    (by decide) (by decide)
  exact hkey.2.2 ⟨∅, fun _ => none, fun _ => none⟩ _ _ rfl

end Babble.Keys

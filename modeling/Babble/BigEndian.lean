import Mathlib.Data.Nat.Digits.Lemmas

/-!
# Numbers as bytes

`littleEndian n x` has the low `n` bytes of `x`, the lowest first; `bigEndian` is its
reverse, and `value` reads little-endian bytes back. The two determine each other, up to
the bytes that are cut off (`value_littleEndian`, `littleEndian_value`).

A number may come as words of `k` bytes each : the bytes of the words, in order, have the same
value (`value_flatMap_littleEndian`). `fill` writes bytes into a buffer from its end. Into a
buffer of zeros it writes the big-endian number, cut to the length of the buffer
(`fill_replicate_zero`).
-/

namespace Babble.BigEndian

/-- The low `n` bytes of a number, the lowest first. -/
def littleEndian : ℕ → ℕ → List UInt8
  | 0, _ => []
  | n + 1, x => UInt8.ofNat x :: littleEndian n (x / 256)

/-- The low `n` bytes of a number, the highest first. -/
def bigEndian (n x : ℕ) : List UInt8 :=
  (littleEndian n x).reverse

/-- The number that little-endian bytes stand for. -/
def value (bs : List UInt8) : ℕ :=
  Nat.ofDigits 256 (bs.map UInt8.toNat)

@[simp]
theorem value_nil : value [] = 0 :=
  rfl

@[simp]
theorem value_cons (b : UInt8) (bs : List UInt8) : value (b :: bs) = b.toNat + 256 * value bs :=
  Nat.ofDigits_cons

theorem value_append (bs cs : List UInt8) :
    value (bs ++ cs) = value bs + 256 ^ bs.length * value cs := by
  simp only [value, List.map_append, Nat.ofDigits_append, List.length_map]

theorem value_lt (bs : List UInt8) : value bs < 256 ^ bs.length := by
  induction bs with
  | nil => decide
  | cons b bs ih =>
    have hb := b.toNat_lt
    rw [value_cons, List.length_cons, pow_succ']
    omega

@[simp]
theorem length_littleEndian (n x : ℕ) : (littleEndian n x).length = n := by
  induction n generalizing x with
  | zero => rfl
  | succ n ih => simp [littleEndian, ih]

@[simp]
theorem length_bigEndian (n x : ℕ) : (bigEndian n x).length = n := by
  simp [bigEndian]

theorem value_littleEndian (n x : ℕ) : value (littleEndian n x) = x % 256 ^ n := by
  induction n generalizing x with
  | zero => simp [littleEndian, Nat.mod_one]
  | succ n ih =>
    rw [littleEndian, value_cons, ih, pow_succ', Nat.mod_mul, UInt8.toNat_ofNat']

/-- The low bytes of a value are the first bytes, with zeros after the last one. -/
theorem littleEndian_value (n : ℕ) (bs : List UInt8) :
    littleEndian n (value bs) = bs.take n ++ List.replicate (n - bs.length) 0 := by
  induction n generalizing bs with
  | zero => simp [littleEndian]
  | succ n ih =>
    cases bs with
    | nil => simpa [littleEndian, List.replicate_succ] using ih []
    | cons b bs =>
      have hb := b.toNat_lt
      have hlow : UInt8.ofNat (value (b :: bs)) = b := by
        apply UInt8.toNat_inj.mp
        rw [UInt8.toNat_ofNat', value_cons]
        omega
      have hhigh : value (b :: bs) / 256 = value bs := by
        rw [value_cons]
        omega
      rw [littleEndian, hlow, hhigh, ih]
      simp

theorem littleEndian_length_value (bs : List UInt8) : littleEndian bs.length (value bs) = bs := by
  simp [littleEndian_value]

/-! ## Words -/

/-- The bytes of words of `k` bytes each. -/
theorem value_flatMap_littleEndian (k : ℕ) (ws : List ℕ) (h : ∀ w ∈ ws, w < 256 ^ k) :
    value (ws.flatMap (littleEndian k)) = Nat.ofDigits (256 ^ k) ws := by
  induction ws with
  | nil => rfl
  | cons w ws ih =>
    rw [List.flatMap_cons, value_append, length_littleEndian, value_littleEndian,
      Nat.mod_eq_of_lt (h w List.mem_cons_self), ih fun v hv => h v (List.mem_cons_of_mem w hv),
      Nat.ofDigits_cons]

/-! ## Filling a buffer -/

/-- Write bytes into a buffer, from the position `i` down. -/
def fill : List UInt8 → ℕ × List UInt8 → ℕ × List UInt8
  | [], s => s
  | _ :: _, (0, buf) => (0, buf)
  | b :: bs, (i + 1, buf) => fill bs (i, buf.set i b)

@[simp]
theorem fill_zero (bs buf : List UInt8) : fill bs (0, buf) = (0, buf) := by
  cases bs <;> rfl

theorem fill_append (bs cs : List UInt8) (s : ℕ × List UInt8) :
    fill (bs ++ cs) s = fill cs (fill bs s) := by
  obtain ⟨i, buf⟩ := s
  induction bs generalizing i buf with
  | nil => rfl
  | cons b bs ih =>
    cases i with
    | zero => simp
    | succ i => exact ih i (buf.set i b)

theorem fill_snd (bs : List UInt8) {i : ℕ} {buf : List UInt8} (hi : i ≤ buf.length) :
    (fill bs (i, buf)).2 =
      buf.take (i - bs.length) ++ ((bs.take i).reverse ++ buf.drop i) := by
  induction bs generalizing i buf with
  | nil => simp [fill]
  | cons b bs ih =>
    cases i with
    | zero => simp
    | succ i =>
      have hlt : i < buf.length := hi
      rw [fill, ih (by rw [List.length_set]; exact hlt.le)]
      have hlen : (buf.take i).length = i := List.length_take_of_le hlt.le
      have hset : buf.set i b = buf.take i ++ b :: buf.drop (i + 1) := by
        rw [List.set_eq_take_append_cons_drop, if_pos hlt]
      have hdrop : (buf.set i b).drop i = b :: buf.drop (i + 1) := by
        rw [hset, List.drop_left' hlen]
      have htake : (buf.set i b).take (i - bs.length) = buf.take (i - bs.length) := by
        rw [hset, List.take_append_of_le_length (by omega), List.take_take,
          min_eq_left (by omega)]
      simp [hdrop, htake]

/-- A buffer of zeros, filled from its end. -/
theorem fill_replicate_zero (n : ℕ) (bs : List UInt8) :
    (fill bs (n, List.replicate n 0)).2 = bigEndian n (value bs) := by
  rw [fill_snd bs (by simp), bigEndian, littleEndian_value, List.reverse_append,
    List.reverse_replicate]
  simp

end Babble.BigEndian

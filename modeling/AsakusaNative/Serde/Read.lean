import AsakusaNative.Math.MpIntBytes

/-!
# Reading serialized values

`serde.hpp`: the cursor primitives `read_value<T>`, `read_compact_int` and `compact_int_size`.
A cursor `int8_t*&` is the list of bytes from its position on; advancing it drops bytes. Values
are read little-endian, as on the x86-64 hosts the runtime is built for.

* `CompactInt`: a compact integer as a producer writes it, its value with the width of its
  payload; `CompactInt.encode` writes it.
* `readCompactInt_encode`: `read_compact_int` reads back the value of every compact integer,
  followed by any bytes, and stops right after it.
* `compactIntSize_encode`: `compact_int_size` of the head byte is the length of the encoding.
-/

namespace Asakusafw.Serde

/-! ### Fixed-width values -/

/-- The number a list of bytes denotes, least significant first. -/
def leValue : List UInt8 → ℕ
  | [] => 0
  | b :: bs => b.toNat + 256 * leValue bs

/-- The two's complement reading of a `width`-byte unsigned value. -/
def toSigned (width u : ℕ) : ℤ :=
  if u < 2 ^ (8 * width - 1) then u else (u : ℤ) - 2 ^ (8 * width)

@[simp] lemma toSigned_zero (width : ℕ) : toSigned width 0 = 0 := by simp [toSigned]

/-- `read_value<T>` for a `width`-byte type: the bits of the value, and the advanced cursor. -/
def readValue (width : ℕ) (p : List UInt8) : ℕ × List UInt8 :=
  (leValue (p.take width), p.drop width)

/-- `read_value<T>` at a signed integer type of `width` bytes. -/
def readInt (width : ℕ) (p : List UInt8) : ℤ × List UInt8 :=
  (toSigned width (readValue width p).1, (readValue width p).2)

/-- The `width` bytes of `v`, least significant first. -/
def leBytes : ℕ → ℕ → List UInt8
  | 0, _ => []
  | n + 1, v => UInt8.ofNat (v % 256) :: leBytes n (v / 256)

@[simp] lemma length_leBytes (n v : ℕ) : (leBytes n v).length = n := by
  induction n generalizing v <;> simp [leBytes, *]

lemma leValue_lt : ∀ p : List UInt8, leValue p < 256 ^ p.length
  | [] => Nat.one_pos
  | b :: bs => by
      have := b.toNat_lt
      have := leValue_lt bs
      rw [leValue, List.length_cons, pow_succ]
      omega

lemma leValue_leBytes (n v : ℕ) : leValue (leBytes n v) = v % 256 ^ n := by
  induction n generalizing v with
  | zero => simp [leBytes, leValue, Nat.mod_one]
  | succ n ih =>
      rw [leBytes, leValue, ih, Math.toNat_uint8OfNat, show (2 : ℕ) ^ 8 = 256 from rfl,
        Nat.mod_mod, pow_succ', Nat.mod_mul]

/-- The bytes of the `width`-byte two's complement representation of `v`. -/
def intBytes (width : ℕ) (v : ℤ) : List UInt8 := leBytes width (v % 2 ^ (8 * width)).toNat

/-- The range of a `width`-byte signed integer. -/
def Fits (width : ℕ) (v : ℤ) : Prop := -2 ^ (8 * width - 1) ≤ v ∧ v < 2 ^ (8 * width - 1)

lemma toSigned_intBytes {width : ℕ} (hw : 0 < width) {v : ℤ} (hv : Fits width v) :
    toSigned width (leValue (intBytes width v)) = v := by
  have hpow : (2 : ℤ) ^ (8 * width) = 2 * 2 ^ (8 * width - 1) := by
    rw [← pow_succ']; congr 1; omega
  have hnat : (256 : ℤ) ^ width = 2 ^ (8 * width) := by rw [pow_mul]; norm_num
  obtain ⟨h1, h2⟩ := hv
  have hr : v % 2 ^ (8 * width) = if 0 ≤ v then v else v + 2 ^ (8 * width) := by
    split_ifs with h
    · exact Int.emod_eq_of_lt h (by omega)
    · rw [← Int.add_emod_self, Int.emod_eq_of_lt (by omega) (by omega)]
  have hu := Int.toNat_of_nonneg (Int.emod_nonneg v (by positivity : (2 : ℤ) ^ (8 * width) ≠ 0))
  rw [intBytes, leValue_leBytes]
  generalize (v % 2 ^ (8 * width)).toNat = u at hu
  rw [Nat.mod_eq_of_lt (by zify; rw [hnat, hu, hr]; split_ifs <;> omega), toSigned]
  split_ifs with h <;> zify at h <;> rw [hu, hr] at * <;> split_ifs at * <;> omega

lemma readValue_append_of_length {bs : List UInt8} {width : ℕ} (h : bs.length = width)
    (rest : List UInt8) : readValue width (bs ++ rest) = (leValue bs, rest) := by
  subst h; simp [readValue]

lemma readInt_intBytes {width : ℕ} (hw : 0 < width) {v : ℤ} (hv : Fits width v)
    (rest : List UInt8) : readInt width (intBytes width v ++ rest) = (v, rest) := by
  rw [readInt, readValue_append_of_length (by simp [intBytes]), toSigned_intBytes hw hv]

/-! ### Compact integers -/

/-- `COMPACT_INT_HEAD_MIN`, `INT8_MIN + 4`. -/
def compactIntHeadMin : ℤ := -124

/-- `compact_int_size(head)`: the length of the compact integer that starts with `head`. -/
def compactIntSize (head : ℤ) : ℕ :=
  if head ≥ compactIntHeadMin then 1
  else 2 ^ ((compactIntHeadMin - head).toNat - 1) + 1

/-- `read_compact_int`: a head byte, the value itself from `-124` up, and otherwise the
selector of an `int8_t`, `int16_t`, `int32_t` or `int64_t` payload. -/
def readCompactInt (p : List UInt8) : ℤ × List UInt8 :=
  let b0 := readInt 1 p
  if b0.1 ≥ compactIntHeadMin then b0
  else
    let scale := compactIntHeadMin - b0.1
    if scale = 1 then readInt 1 b0.2
    else if scale = 2 then readInt 2 b0.2
    else if scale = 3 then readInt 4 b0.2
    else if scale = 4 then readInt 8 b0.2
    else (0, b0.2)

/-- The payload width that the head `-124 - scale` selects. -/
def payloadWidth (scale : ℕ) : ℕ := 2 ^ (scale - 1)

/-- A compact integer as a producer writes it: its value, and the width it chose, `scale = 0`
for a value in the head byte and `1 … 4` for a payload of `payloadWidth scale` bytes. -/
structure CompactInt where
  value : ℤ
  scale : ℕ
  scale_le : scale ≤ 4
  fits_head : scale = 0 → compactIntHeadMin ≤ value ∧ value < 2 ^ 7
  fits_payload : scale ≠ 0 → Fits (payloadWidth scale) value

/-- The bytes of a compact integer. -/
def CompactInt.encode (c : CompactInt) : List UInt8 :=
  if c.scale = 0 then intBytes 1 c.value
  else intBytes 1 (compactIntHeadMin - c.scale) ++ intBytes (payloadWidth c.scale) c.value

lemma CompactInt.length_encode (c : CompactInt) :
    c.encode.length = if c.scale = 0 then 1 else payloadWidth c.scale + 1 := by
  unfold encode; split_ifs <;> simp [intBytes, add_comm]

/-- The head byte of a compact integer, read as `int8_t`. -/
lemma CompactInt.readInt_encode (c : CompactInt) (rest : List UInt8) :
    readInt 1 (c.encode ++ rest) = if c.scale = 0 then (c.value, rest)
      else (compactIntHeadMin - c.scale, intBytes (payloadWidth c.scale) c.value ++ rest) := by
  unfold encode
  have hs := c.scale_le
  split_ifs with h0
  · have := c.fits_head h0
    simp only [compactIntHeadMin] at this
    exact readInt_intBytes one_pos ⟨by norm_num; omega, by norm_num; omega⟩ rest
  · rw [List.append_assoc]
    exact readInt_intBytes one_pos
      ⟨by simp only [compactIntHeadMin]; norm_num; omega,
        by simp only [compactIntHeadMin]; omega⟩ _

/-- **Reading back.** `read_compact_int` returns the value of every compact integer, followed by
any bytes, and leaves the cursor right after it. -/
theorem readCompactInt_encode (c : CompactInt) (rest : List UInt8) :
    readCompactInt (c.encode ++ rest) = (c.value, rest) := by
  unfold readCompactInt
  rw [c.readInt_encode]
  have hs := c.scale_le
  by_cases h0 : c.scale = 0
  · rw [if_pos h0, if_pos (c.fits_head h0).1]
  · have hw := c.fits_payload h0
    simp only [if_neg h0, compactIntHeadMin, sub_sub_cancel]
    rw [if_neg (by omega)]
    interval_cases h : c.scale <;> simp_all [payloadWidth, readInt_intBytes]

/-- **The size of a compact integer** is read off its head byte. -/
theorem compactIntSize_encode (c : CompactInt) (rest : List UInt8) :
    compactIntSize (readInt 1 (c.encode ++ rest)).1 = c.encode.length := by
  rw [CompactInt.length_encode, c.readInt_encode, compactIntSize]
  by_cases h0 : c.scale = 0
  · rw [if_pos h0, if_pos h0, if_pos (c.fits_head h0).1]
  · simp only [if_neg h0, compactIntHeadMin, sub_sub_cancel, payloadWidth]
    rw [if_neg (by omega)]
    simp

end Asakusafw.Serde

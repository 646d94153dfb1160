import AsakusaNative.Math.MpInt

/-!
# `MpInt` and big-endian bytes

`mpdecimal.cpp`: the constructor `MpInt(const uint8_t *bytes, std::size_t length)`, which reads
an unsigned magnitude in network byte order, and `data()`, which writes one back.

* `beValue`: the number a byte string denotes, read big-endian; `getUint_toNat` for the helper
  `get_uint`.
* `ofBytesLoop`, `ofBytes`: the grouping loop and the constructor; `val_ofBytes` (the value is
  the big-endian reading of the bytes) and `canonical_ofBytes`.
* `dataLoop`, `data`: `beValue_data`, `length_data` and `head_data` say that `data()` is a
  big-endian encoding of the value, of `⌈bits/8⌉` bytes with a non-zero first byte.
* `eq_of_beValue_eq`: byte strings without a leading zero are determined by their value; hence
  the round trips `data_ofBytes` and `ofBytes_data`.
-/

namespace Asakusafw.Math

/-! ### Big-endian byte strings -/

/-- The number a byte string denotes, read big-endian (network byte order). -/
def beValue (bytes : List UInt8) : ℕ :=
  bytes.foldl (fun acc b => 256 * acc + b.toNat) 0

@[simp] lemma toNat_uint8OfNat (n : ℕ) : (UInt8.ofNat n).toNat = n % 2 ^ 8 := by
  simp [UInt8.ofNat, UInt8.toNat, Fin.ofNat]

lemma foldl_beValue (bytes : List UInt8) (acc : ℕ) :
    bytes.foldl (fun acc b => 256 * acc + b.toNat) acc =
      256 ^ bytes.length * acc + beValue bytes := by
  induction bytes generalizing acc with
  | nil => simp [beValue]
  | cons b bs ih =>
      unfold beValue
      rw [List.foldl_cons, List.foldl_cons, ih, ih, List.length_cons]
      ring

@[simp] lemma beValue_nil : beValue [] = 0 := rfl

lemma beValue_cons (b : UInt8) (bs : List UInt8) :
    beValue (b :: bs) = 256 ^ bs.length * b.toNat + beValue bs := by
  rw [beValue, List.foldl_cons, foldl_beValue, Nat.mul_zero, Nat.zero_add]

lemma beValue_append (xs ys : List UInt8) :
    beValue (xs ++ ys) = 256 ^ ys.length * beValue xs + beValue ys := by
  rw [beValue, List.foldl_append, foldl_beValue]
  rfl

lemma beValue_lt (bytes : List UInt8) : beValue bytes < 256 ^ bytes.length := by
  induction bytes with
  | nil => simp
  | cons b bs ih =>
      have := b.toNat_lt
      rw [beValue_cons, List.length_cons, Nat.pow_succ]
      calc 256 ^ bs.length * b.toNat + beValue bs < 256 ^ bs.length * (b.toNat + 1) := by
            rw [Nat.mul_succ]; omega
        _ ≤ 256 ^ bs.length * 256 := Nat.mul_le_mul_left _ (by omega)

/-- A string whose first byte is not zero is worth at least `256` to the power of its length
less one. -/
lemma pow_le_beValue {b : UInt8} {bs : List UInt8} (hb : b ≠ 0) :
    256 ^ bs.length ≤ beValue (b :: bs) := by
  have : 1 ≤ b.toNat := Nat.pos_of_ne_zero fun h => hb (UInt8.ext h)
  rw [beValue_cons]
  exact le_trans (by simpa using Nat.mul_le_mul_left (256 ^ bs.length) this) (Nat.le_add_right _ _)

@[simp] lemma beValue_replicate_zero (n : ℕ) : beValue (List.replicate n 0) = 0 := by
  induction n with
  | zero => rfl
  | succ n ih => simp [List.replicate_succ, beValue_cons, ih]

/-- The byte `0x40` followed by `n` zero bytes reads as `2^{8n+6}`. -/
lemma beValue_sixtyFour_replicate (n : ℕ) :
    beValue (64 :: List.replicate n 0) = 2 ^ (8 * n + 6) := by
  rw [beValue_cons, beValue_replicate_zero, List.length_replicate, add_zero, pow_add, pow_mul]
  rfl

/-- Leading zero bytes do not count. -/
lemma beValue_dropWhile (bytes : List UInt8) :
    beValue (bytes.dropWhile (· == 0)) = beValue bytes := by
  induction bytes with
  | nil => rfl
  | cons b bs ih =>
      by_cases hb : b = 0
      · simp [hb, ih, beValue_cons]
      · simp [List.dropWhile_cons, hb]

/-! ### `get_uint` and the byte constructor -/

/-- Appending a byte below a shifted word is adding it. -/
lemma shiftLeft_or_eq_add {r b k : ℕ} (hb : b < 2 ^ k) : r <<< k ||| b = 2 ^ k * r + b := by
  refine Nat.eq_of_testBit_eq fun j => ?_
  rw [Nat.testBit_or, Nat.testBit_shiftLeft, Nat.testBit_mul_pow_two_add r hb]
  split_ifs with h
  · simp [show ¬ j ≥ k by omega]
  · simp [show j ≥ k by omega, Nat.testBit_lt_two_pow
      (lt_of_lt_of_le hb (Nat.pow_le_pow_right (by norm_num) (by omega : k ≤ j)))]

/-- `get_uint<uint32_t>(bytes, count)`: `result = result << 8 | bytes[i]` over the first `count`
bytes; the code asserts `count <= 4`, so the word never overflows. -/
def getUint (bytes : List UInt8) (count : ℕ) : UInt32 :=
  UInt32.ofNat ((bytes.take count).foldl (fun result b => result <<< 8 ||| b.toNat) 0)

lemma getUint_toNat {bytes : List UInt8} {count : ℕ} (h : count ≤ 4) :
    (getUint bytes count).toNat = beValue (bytes.take count) := by
  have hfold : ∀ (l : List UInt8) (acc : ℕ),
      l.foldl (fun result b => result <<< 8 ||| b.toNat) acc =
        l.foldl (fun acc b => 256 * acc + b.toNat) acc := by
    intro l
    induction l with
    | nil => intro; rfl
    | cons b bs ih => intro acc; simp [List.foldl_cons, ih, shiftLeft_or_eq_add b.toNat_lt]
  have hlt := beValue_lt (bytes.take count)
  have hlen : (bytes.take count).length ≤ 4 := by simp; omega
  have : 256 ^ (bytes.take count).length ≤ 2 ^ 32 :=
    le_trans (Nat.pow_le_pow_right (by norm_num) hlen) (by norm_num)
  rw [getUint, toNat_uint32OfNat, hfold, ← beValue, Nat.mod_eq_of_lt (by omega)]

/-- The grouping loop of the byte constructor on the first `len` bytes of `buf`: while at least
four are left, the last four form the next limb; a shorter non-empty rest forms the top limb. -/
def ofBytesLoop (buf : List UInt8) : ℕ → List UInt32
  | len + 4 => getUint (buf.drop len) 4 :: ofBytesLoop buf len
  | len => if len ≠ 0 then [getUint buf len] else []

/-- The constructor `MpInt(const uint8_t *bytes, std::size_t size_in_bytes)`: the leading zero
bytes are skipped and the rest is cut into limbs from the least significant end. -/
def MpInt.ofBytes (bytes : List UInt8) : MpInt :=
  let buf := bytes.dropWhile (· == 0)
  ⟨ofBytesLoop buf buf.length⟩

lemma limbsValue_ofBytesLoop (buf : List UInt8) :
    ∀ len, len ≤ buf.length → limbsValue (ofBytesLoop buf len) = beValue (buf.take len)
  | len + 4, h => by
      rw [ofBytesLoop, limbsValue_cons, getUint_toNat le_rfl,
        limbsValue_ofBytesLoop buf len (by omega), List.take_add, beValue_append,
        show (List.take 4 (List.drop len buf)).length = 4 by simp; omega]
      ring
  | 0, _ => rfl
  | 1, _ => by simp [ofBytesLoop, getUint_toNat]
  | 2, _ => by simp [ofBytesLoop, getUint_toNat]
  | 3, _ => by simp [ofBytesLoop, getUint_toNat]

lemma length_ofBytesLoop (buf : List UInt8) : ∀ len, (ofBytesLoop buf len).length = (len + 3) / 4
  | len + 4 => by rw [ofBytesLoop, List.length_cons, length_ofBytesLoop buf len]; omega
  | 0 => rfl
  | 1 => rfl
  | 2 => rfl
  | 3 => rfl

namespace MpInt

/-- **The byte constructor reads its bytes big-endian.** -/
theorem val_ofBytes (bytes : List UInt8) : (ofBytes bytes).val = beValue bytes := by
  rw [ofBytes, val, limbsValue_ofBytesLoop _ _ le_rfl, List.take_length, beValue_dropWhile]

/-- A non-empty vector whose value needs all its limbs is canonical. -/
lemma canonical_of_pow_le {m : MpInt} (hne : m.members ≠ [])
    (h : 2 ^ (32 * (m.members.length - 1)) ≤ m.val) : m.Canonical := by
  obtain ⟨init, w, hw⟩ := List.eq_nil_or_concat m.members |>.resolve_left hne
  simp only [List.concat_eq_append] at hw
  intro hc
  have hw0 : w = 0 := by simpa [Canonical, hw] using hc
  have := limbsValue_lt init
  simp [val, hw, hw0, limbsValue_concat] at h
  omega

/-- The leading zero bytes are gone, so the top limb is not zero. -/
theorem canonical_ofBytes (bytes : List UInt8) : (ofBytes bytes).Canonical := by
  have hhead := List.head?_dropWhile_not (· == 0) bytes
  rw [ofBytes]
  generalize bytes.dropWhile (· == 0) = buf at hhead
  match buf, hhead with
  | [], _ => simp [Canonical, ofBytesLoop]
  | b :: bs, hb =>
      have hb : b ≠ 0 := by simpa using hb
      have hv := @pow_le_beValue b bs hb
      apply canonical_of_pow_le
      · rw [← List.length_pos, length_ofBytesLoop]; simp only [List.length_cons]; omega
      · rw [val, limbsValue_ofBytesLoop _ _ le_rfl, List.take_length, length_ofBytesLoop]
        refine le_trans ?_ hv
        rw [show (256 : ℕ) = 2 ^ 8 by norm_num, ← Nat.pow_mul]
        exact Nat.pow_le_pow_right (by norm_num) (by simp; omega)

end MpInt

/-! ### `data()` -/

/-- The low `count` bytes of a limb, most significant first:
`static_cast<uint8_t>(value >> (i * 8))` for `i` from `count - 1` down to `0`. -/
def limbBytes (count : ℕ) (value : UInt32) : List UInt8 :=
  (List.range count).reverse.map fun i => UInt8.ofNat (value.toNat >>> (i * 8))

/-- The loop of `data()` over the limbs from the most significant; `first` says that the next
limb is the top one, written with its `firstSize` low bytes only. -/
def dataLoop (firstSize : ℕ) : Bool → List UInt32 → List UInt8
  | _, [] => []
  | first, value :: rest =>
      (if first then limbBytes firstSize value
       else [UInt8.ofNat (value.toNat >>> 24), UInt8.ofNat (value.toNat >>> 16),
         UInt8.ofNat (value.toNat >>> 8), UInt8.ofNat (value.toNat >>> 0)]) ++
        dataLoop firstSize false rest

/-- `data()`: the value in `(bits() + 7) / 8` bytes, network byte order. -/
def MpInt.data (m : MpInt) : List UInt8 :=
  let size := (m.bits + 7) / 8
  if size = 0 then [] else dataLoop (size % 4) (size % 4 ≠ 0) m.members.reverse

lemma limbBytes_four (value : UInt32) :
    [UInt8.ofNat (value.toNat >>> 24), UInt8.ofNat (value.toNat >>> 16),
      UInt8.ofNat (value.toNat >>> 8), UInt8.ofNat (value.toNat >>> 0)] = limbBytes 4 value := by
  simp [limbBytes, List.range_succ]

@[simp] lemma length_limbBytes (count : ℕ) (value : UInt32) :
    (limbBytes count value).length = count := by
  simp [limbBytes]

lemma beValue_limbBytes (count : ℕ) (value : UInt32) :
    beValue (limbBytes count value) = value.toNat % 256 ^ count := by
  induction count with
  | zero => simp [limbBytes, Nat.mod_one]
  | succ c ih =>
      rw [limbBytes, List.range_succ, List.reverse_append, List.reverse_singleton,
        List.singleton_append, List.map_cons, beValue_cons, List.length_map, ← limbBytes, ih,
        List.length_reverse, List.length_range, toNat_uint8OfNat, Nat.shiftRight_eq_div_pow,
        show 2 ^ (c * 8) = 256 ^ c by rw [Nat.mul_comm, Nat.pow_mul],
        show (2 : ℕ) ^ 8 = 256 from rfl, Nat.pow_succ, Nat.mod_mul]
      ring

/-- Each limb is written as its low bytes: `firstSize` of them for the top limb, four for the
others. -/
lemma dataLoop_cons (firstSize : ℕ) (first : Bool) (value : UInt32) (rest : List UInt32) :
    dataLoop firstSize first (value :: rest) =
      limbBytes (if first then firstSize else 4) value ++ dataLoop firstSize false rest := by
  cases first
  · rw [dataLoop, if_neg Bool.false_ne_true, if_neg Bool.false_ne_true, limbBytes_four]
  · rw [dataLoop, if_pos rfl, if_pos rfl]

lemma dataLoop_false (firstSize : ℕ) (ws : List UInt32) :
    beValue (dataLoop firstSize false ws) = limbsValue ws.reverse ∧
      (dataLoop firstSize false ws).length = 4 * ws.length := by
  induction ws with
  | nil => simp [dataLoop]
  | cons w ws ih =>
      rw [dataLoop_cons, if_neg Bool.false_ne_true, beValue_append, ih.1,
        List.length_append, ih.2, List.reverse_cons, limbsValue_concat, List.length_reverse,
        beValue_limbBytes, Nat.mod_eq_of_lt (by simpa using w.toNat_lt),
        show 256 ^ (4 * ws.length) = 2 ^ (32 * ws.length) by rw [Nat.pow_mul, Nat.pow_mul]]
      simp only [length_limbBytes, List.length_cons]
      constructor <;> ring

namespace MpInt

/-- `data()` of a canonical `MpInt` is its value in `⌈bits/8⌉` big-endian bytes. -/
theorem beValue_data {m : MpInt} (h : m.Canonical) :
    beValue m.data = m.val ∧ m.data.length = (m.bits + 7) / 8 := by
  by_cases hne : m.members = []
  · simp [data, bits, hne, val]
  obtain ⟨init, top, hm, htop⟩ := eq_concat_of_canonical h hne
  have hs : 0 < top.toNat.size := Nat.size_pos.2 (Nat.pos_of_ne_zero fun h' => htop (UInt32.ext h'))
  have hs32 : top.toNat.size ≤ 32 := Nat.size_le.2 top.toNat_lt
  have hbits : m.bits = 32 * init.length + top.toNat.size := by
    rw [bits_of_concat hm, countLeadingZeroBits_eq htop]; omega
  have hfirst : (if decide ((m.bits + 7) / 8 % 4 ≠ 0) = true then (m.bits + 7) / 8 % 4 else 4) =
      (top.toNat.size + 7) / 8 := by
    rw [hbits]; split_ifs with hk <;> simp only [decide_eq_true_eq, not_not] at hk <;> omega
  have htop_lt : top.toNat < 256 ^ ((top.toNat.size + 7) / 8) :=
    lt_of_lt_of_le (Nat.lt_size_self _) (by
      rw [show (256 : ℕ) = 2 ^ 8 by norm_num, ← Nat.pow_mul]
      exact Nat.pow_le_pow_right (by norm_num) (by omega))
  have hloop := dataLoop_false ((m.bits + 7) / 8 % 4) init.reverse
  rw [List.reverse_reverse, List.length_reverse] at hloop
  rw [data, if_neg (by omega), hm, List.reverse_append, List.reverse_singleton,
    List.singleton_append, dataLoop_cons, hfirst, beValue_append, List.length_append, hloop.1, hloop.2,
    beValue_limbBytes, Nat.mod_eq_of_lt htop_lt, length_limbBytes, val, hm, limbsValue_concat,
    show 256 ^ (4 * init.length) = 2 ^ (32 * init.length) by rw [Nat.pow_mul, Nat.pow_mul]]
  exact ⟨by ring, by rw [hbits]; omega⟩

end MpInt

/-! ### Round trips -/

/-- A string worth at least `256` to the power of its length less one does not start with a
zero byte. -/
lemma head_ne_zero_of_pow_le : ∀ {bs : List UInt8}, 256 ^ (bs.length - 1) ≤ beValue bs →
    bs.head? ≠ some 0
  | [], _ => by simp
  | b :: bs, h => by
      intro hb
      simp only [List.head?_cons, Option.some.injEq] at hb
      subst hb
      have := beValue_lt bs
      simp [beValue_cons] at h
      omega

lemma eq_of_beValue_eq_of_length_eq : ∀ {xs ys : List UInt8}, xs.length = ys.length →
    beValue xs = beValue ys → xs = ys
  | [], [], _, _ => rfl
  | x :: xs, y :: ys, hl, h => by
      simp only [List.length_cons, Nat.add_right_cancel_iff] at hl
      rw [beValue_cons, beValue_cons, hl] at h
      have ha := beValue_lt xs
      have hb := beValue_lt ys
      rw [hl] at ha
      generalize 256 ^ ys.length = B at h ha hb
      have hxy : x.toNat = y.toNat := by
        have := congrArg (· / B) h
        simp only [Nat.mul_add_div (by omega : 0 < B), Nat.div_eq_of_lt ha,
          Nat.div_eq_of_lt hb] at this
        omega
      rw [UInt8.ext hxy, eq_of_beValue_eq_of_length_eq hl (by rw [hxy] at h; omega)]

/-- Byte strings without a leading zero are determined by their value. -/
lemma eq_of_beValue_eq {xs ys : List UInt8} (hx : xs.head? ≠ some 0) (hy : ys.head? ≠ some 0)
    (h : beValue xs = beValue ys) : xs = ys := by
  -- without a leading zero, a value below `256^n` has at most `n` bytes
  have length_le : ∀ {bs : List UInt8} {n : ℕ}, bs.head? ≠ some 0 → beValue bs < 256 ^ n →
      bs.length ≤ n := by
    intro bs n hb hlt
    cases bs with
    | nil => exact Nat.zero_le _
    | cons b bs =>
        have := (@pow_le_beValue b bs (by simpa using hb)).trans_lt hlt
        exact (Nat.pow_lt_pow_iff_right (by norm_num)).1 this
  refine eq_of_beValue_eq_of_length_eq (le_antisymm ?_ ?_) h
  · exact length_le hx (h ▸ beValue_lt ys)
  · exact length_le hy (h.symm ▸ beValue_lt xs)

namespace MpInt

/-- `data()` of a canonical `MpInt` does not start with a zero byte. -/
lemma head_data {m : MpInt} (h : m.Canonical) : m.data.head? ≠ some 0 := by
  obtain ⟨hv, hl⟩ := beValue_data h
  by_cases h0 : m.val = 0
  · have : m.bits = 0 := by rw [bits_eq_size h, h0, Nat.size_zero]
    have hd : m.data = [] := List.eq_nil_of_length_eq_zero (by rw [hl, this])
    simp [hd]
  apply head_ne_zero_of_pow_le
  rw [hv, hl]
  have hb := bits_eq_size h
  have hpos : 0 < m.val.size := Nat.size_pos.2 (Nat.pos_of_ne_zero h0)
  refine le_trans ?_ (Nat.lt_size.1 (show m.val.size - 1 < m.val.size by omega))
  rw [show (256 : ℕ) = 2 ^ 8 by norm_num, ← Nat.pow_mul]
  exact Nat.pow_le_pow_right (by norm_num) (by omega)

lemma ofBytes_data {m : MpInt} (h : m.Canonical) : ofBytes m.data = m := by
  have hv : (ofBytes m.data).val = m.val := by rw [val_ofBytes, (beValue_data h).1]
  exact MpInt.ext (members_injective (canonical_ofBytes m.data) h hv)

lemma data_ofBytes (bytes : List UInt8) : (ofBytes bytes).data = bytes.dropWhile (· == 0) := by
  have hd := List.head?_dropWhile_not (· == 0) bytes
  refine eq_of_beValue_eq (head_data (canonical_ofBytes bytes)) ?_ ?_
  · revert hd; cases bytes.dropWhile (· == 0) <;> simp
  · rw [(beValue_data (canonical_ofBytes bytes)).1, val_ofBytes, beValue_dropWhile]

/-- **The byte constructor and `data()` undo each other.** The constructor reads its bytes
big-endian and `data()` gives them back without their leading zeros; on a canonical `MpInt`,
`data()` has `⌈bits/8⌉` bytes, the first of them non-zero, none for zero, and the constructor
gives the same `MpInt` back. -/
theorem ofBytes_data_roundTrip :
    (∀ bytes : List UInt8, (ofBytes bytes).val = beValue bytes ∧
        (ofBytes bytes).data = bytes.dropWhile (· == 0)) ∧
    (∀ m : MpInt, m.Canonical →
        m.data.length = (m.bits + 7) / 8 ∧ m.data.head? ≠ some 0 ∧
          (m.data = [] ↔ m.val = 0) ∧ ofBytes m.data = m) :=
  ⟨fun bytes => ⟨val_ofBytes bytes, data_ofBytes bytes⟩, fun m h =>
    ⟨(beValue_data h).2, head_data h,
      by
        rw [← List.length_eq_zero, (beValue_data h).2, bits_eq_size h]
        have := Nat.size_eq_zero (n := m.val)
        omega,
      ofBytes_data h⟩⟩

end MpInt

end Asakusafw.Math

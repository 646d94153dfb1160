import AsakusaNative.Serde.Compare
import AsakusaNative.Math.Decimal

/-!
# Serialized decimals

`serde.cpp`: `compare_decimal`, which reads a header, a compact scale and either a compact
unscaled value or a compact length followed by big-endian magnitude bytes, and hands the
magnitudes with the exponents `-scale` to the `compare_decimal` entry points of
`mpdecimal.cpp`; and `skip_decimal` of `serde.hpp`.

* `DecimalValue`, `DecimalField`: the well-formed fields, with the PLUS bit set exactly for
  non-negative values and the COMPACT bit selecting the body; `DecimalField.value` is the
  rational number `±magnitude · 10^{-scale}`, `⊥` for null.
* `compareDecimal_null_null`, …, `compareDecimal_same_plus`: `compare_decimal` on well-formed
  fields, case by case; two decimals of the same sign go to `compareBodies`, the dispatch on the
  bodies, with the exponents `DecimalValue.exponent`.
* `skipDecimal_encode`, `compareDecimal_cursors`: `skip_decimal` passes exactly one field, and
  `compare_decimal` leaves its cursors within the fields, past both after a tie.
* `compareDecimal_eq_of_comparable`: the order is exact, and the table of powers kept, whenever
  no scale is `INT32_MIN` and, when a magnitude is written as bytes, the scales differ by less
  than `429496730` and the magnitudes are shorter than `2^28` bytes.
* `compareDecimal_scale_min`: at the scale `INT32_MIN`, `-scale` wraps, and a decimal
  `10^{2^31}` compares below `1`.
-/

namespace Asakusafw.Serde

open Math (Sign MpInt Int32)

/-! ### Headers -/

/-- `DECIMAL_NULL`. -/
def decimalNull : ℤ := 0

/-- `DECIMAL_PLUS_MASK`. -/
def decimalPlusMask : ℕ := 2

/-- `DECIMAL_COMPACT_MASK`. -/
def decimalCompactMask : ℕ := 4

/-- `(head & mask) != 0` on an `int8_t` header. -/
def hasBit (head : ℤ) (mask : ℕ) : Bool := (head % 256).toNat &&& mask ≠ 0

/-- `static_cast<uint64_t>` of an `int64_t`. -/
def uint64OfInt (v : ℤ) : UInt64 := UInt64.ofNat (v % 2 ^ 64).toNat

/-- `static_cast<std::size_t>` of an `int64_t`. -/
def sizeOfInt (v : ℤ) : ℕ := (v % 2 ^ 64).toNat

/-! ### The comparator and the skipper -/

/-- `compare_decimal(a, b)`, on the table of powers `table` that the comparison of magnitudes
may extend. The negation `-scale` is that of `int32_t`, which wraps at `INT32_MIN` (undefined in
C++, the two's complement result on the hosts the runtime targets). -/
def compareDecimal (table : List MpInt) (a b : List UInt8) : Compared × List MpInt :=
  let headA := readInt 1 a
  let headB := readInt 1 b
  if headA.1 = decimalNull then
    ((if headB.1 = decimalNull then ⟨0, headA.2, headB.2⟩ else ⟨-1, headA.2, headB.2⟩),
      table)
  else if headB.1 = decimalNull then (⟨1, headA.2, headB.2⟩, table)
  else
    let plusA := hasBit headA.1 decimalPlusMask
    let plusB := hasBit headB.1 decimalPlusMask
    if plusA ≠ plusB then (⟨if plusA then 1 else -1, headA.2, headB.2⟩, table)
    else
      let compactA := hasBit headA.1 decimalCompactMask
      let compactB := hasBit headB.1 decimalCompactMask
      let scaleA := readCompactInt headA.2
      let scaleB := readCompactInt headB.2
      let unscaledA := readCompactInt scaleA.2
      let unscaledB := readCompactInt scaleB.2
      let exponentA := Int32.ofInt (-(Int32.ofInt scaleA.1).val)
      let exponentB := Int32.ofInt (-(Int32.ofInt scaleB.1).val)
      let r : Sign × List UInt8 × List UInt8 × List MpInt :=
        if compactA ∧ compactB then
          (Math.compareDecimalU64 (uint64OfInt unscaledA.1) exponentA (uint64OfInt unscaledB.1)
            exponentB, unscaledA.2, unscaledB.2, table)
        else if compactA then
          let bLength := sizeOfInt unscaledB.1
          let s := Math.compareDecimalU64Bytes table (uint64OfInt unscaledA.1) exponentA
            (unscaledB.2.take bLength) exponentB
          (s.1, unscaledA.2, unscaledB.2.drop bLength, s.2)
        else if compactB then
          let aLength := sizeOfInt unscaledA.1
          let s := Math.compareDecimalBytesU64 table (unscaledA.2.take aLength) exponentA
            (uint64OfInt unscaledB.1) exponentB
          (s.1, unscaledA.2.drop aLength, unscaledB.2, s.2)
        else
          let aLength := sizeOfInt unscaledA.1
          let bLength := sizeOfInt unscaledB.1
          let s := Math.compareDecimalBytes table (unscaledA.2.take aLength) exponentA
            (unscaledB.2.take bLength) exponentB
          (s.1, unscaledA.2.drop aLength, unscaledB.2.drop bLength, s.2)
      (⟨(if plusA then r.1 else r.1.negate).toInt, r.2.1, r.2.2.1⟩, r.2.2.2)

/-- `skip_decimal`: the header, then the scale and the compact body by `compact_int_size` of
their head bytes, or the length and that many bytes. -/
def skipDecimal (p : List UInt8) : List UInt8 :=
  let head := readInt 1 p
  if head.1 = decimalNull then head.2
  else
    let compact := hasBit head.1 decimalCompactMask
    let p := head.2.drop (compactIntSize (readInt 1 head.2).1)
    if compact then p.drop (compactIntSize (readInt 1 p).1)
    else
      let len := readCompactInt p
      len.2.drop len.1.toNat

/-- On every two byte strings, `compare_decimal` runs `power_of_10` at most once and answers
the same on every table of powers that keeps the invariant. -/
lemma compareDecimal_transparent (a b : List UInt8) :
    Math.MpInt.Transparent (compareDecimal · a b) :=
  ⟨fun table => by
    simp only [compareDecimal, apply_ite Prod.snd, apply_ite (Math.MpInt.TableStep table),
      Math.MpInt.tableStep_refl,
      (Math.compareDecimalU64Bytes_transparent _ _ _ _).step,
      (Math.compareDecimalBytesU64_transparent _ _ _ _).step,
      (Math.compareDecimalBytes_transparent _ _ _ _).step, ite_self],
   fun ht ht' => by
    simp only [compareDecimal, apply_ite Prod.fst, apply_ite Prod.snd,
      (Math.compareDecimalU64Bytes_transparent _ _ _ _).answer ht ht',
      (Math.compareDecimalBytesU64_transparent _ _ _ _).answer ht ht',
      (Math.compareDecimalBytes_transparent _ _ _ _).answer ht ht']⟩

/-! ### Well-formed fields -/

/-- The body of a non-null decimal: a compact non-negative unscaled value, or a compact length
and that many big-endian magnitude bytes. -/
inductive DecimalBody
  | compact (unscaled : CompactInt) (nonneg : 0 ≤ unscaled.value)
  | bytes (length : CompactInt) (magnitude : List UInt8)
      (length_magnitude : length.value = magnitude.length)

namespace DecimalBody

/-- Whether the body is compact. -/
def isCompact : DecimalBody → Bool
  | compact .. => true
  | bytes .. => false

/-- The bytes of a body. -/
def encode : DecimalBody → List UInt8
  | compact unscaled _ => unscaled.encode
  | bytes length magnitude _ => length.encode ++ magnitude

/-- The magnitude a body denotes. -/
def magnitude : DecimalBody → ℕ
  | compact unscaled _ => unscaled.value.toNat
  | bytes _ magnitude _ => Math.beValue magnitude

end DecimalBody

/-- A non-null decimal field: a header whose COMPACT bit selects the body and whose PLUS bit is
clear only for a negative value, an `int32_t` scale, and the body. -/
structure DecimalValue where
  header : UInt8
  scale : CompactInt
  body : DecimalBody
  header_ne : header ≠ 0
  compact_bit : decide (header.toNat &&& decimalCompactMask ≠ 0) = body.isCompact
  plus_bit : header.toNat &&& decimalPlusMask = 0 → 0 < body.magnitude
  scale_range : -2 ^ 31 ≤ scale.value ∧ scale.value < 2 ^ 31

namespace DecimalValue

/-- Whether the PLUS bit is set. -/
def plus (d : DecimalValue) : Bool := d.header.toNat &&& decimalPlusMask ≠ 0

/-- The number a decimal denotes, `±magnitude · 10^{-scale}`. -/
def value (d : DecimalValue) : ℚ :=
  (if d.plus then 1 else -1) * d.body.magnitude * 10 ^ (-d.scale.value)

/-- The bytes of a non-null decimal. -/
def encode (d : DecimalValue) : List UInt8 := d.header :: (d.scale.encode ++ d.body.encode)

end DecimalValue

/-- A decimal field: null, or a non-null decimal. -/
abbrev DecimalField := Option DecimalValue

namespace DecimalField

/-- The bytes of a decimal field. -/
def encode : DecimalField → List UInt8
  | none => [0]
  | some d => d.encode

/-- The number a decimal field denotes, `⊥` for null. -/
def value : DecimalField → WithBot ℚ
  | none => ⊥
  | some d => (d.value : WithBot ℚ)

end DecimalField

/-! ### Reading a well-formed field -/

lemma hasBit_toSigned (h : UInt8) (mask : ℕ) :
    hasBit (toSigned 1 h.toNat) mask = decide (h.toNat &&& mask ≠ 0) := by
  have hlt := h.toNat_lt
  have : toSigned 1 h.toNat % 256 = h.toNat := by unfold toSigned; split_ifs <;> omega
  rw [hasBit, this, Int.toNat_natCast]

/-- A compact integer fits in an `int64_t`. -/
lemma CompactInt.value_range (c : CompactInt) : -2 ^ 63 ≤ c.value ∧ c.value < 2 ^ 63 := by
  have hs := c.scale_le
  by_cases h0 : c.scale = 0
  · have := c.fits_head h0; simp only [compactIntHeadMin] at this; omega
  · have := c.fits_payload h0
    simp only [Fits, payloadWidth] at this
    interval_cases h : c.scale <;> norm_num at this ⊢ <;> omega

lemma sizeOfInt_of_nonneg {c : CompactInt} (h : 0 ≤ c.value) :
    sizeOfInt c.value = c.value.toNat := by
  rw [sizeOfInt, Int.emod_eq_of_lt h (by have := c.value_range.2; omega)]

lemma uint64OfInt_toNat {c : CompactInt} (h : 0 ≤ c.value) :
    (uint64OfInt c.value).toNat = c.value.toNat := by
  rw [uint64OfInt, Math.toNat_uint64OfNat, ← sizeOfInt, sizeOfInt_of_nonneg h,
    Nat.mod_eq_of_lt (by have := c.value_range.2; omega)]

namespace DecimalValue

variable (d : DecimalValue) (r : List UInt8)

lemma readInt_encode :
    readInt 1 (d.encode ++ r) =
      (toSigned 1 d.header.toNat, d.scale.encode ++ (d.body.encode ++ r)) := by
  simp [encode, readInt_cons]

lemma head_ne : toSigned 1 d.header.toNat ≠ decimalNull := by
  rw [decimalNull, Ne, toSigned_one_eq_zero_iff]; exact d.header_ne

lemma hasBit_plus : hasBit (toSigned 1 d.header.toNat) decimalPlusMask = d.plus := by
  rw [hasBit_toSigned]; rfl

lemma hasBit_compact :
    hasBit (toSigned 1 d.header.toNat) decimalCompactMask = d.body.isCompact := by
  rw [hasBit_toSigned, d.compact_bit]

lemma readCompactInt_scale :
    readCompactInt (d.scale.encode ++ (d.body.encode ++ r)) = (d.scale.value, d.body.encode ++ r) :=
  readCompactInt_encode _ _

end DecimalValue

/-- **`skip_decimal` passes exactly one field.** -/
theorem skipDecimal_encode (x : DecimalField) (r : List UInt8) :
    skipDecimal (x.encode ++ r) = r := by
  cases x with
  | none => simp [skipDecimal, DecimalField.encode, readInt_cons, decimalNull]
  | some d =>
      simp only [skipDecimal, DecimalField.encode, d.readInt_encode, d.head_ne, if_false,
        d.hasBit_compact, compactIntSize_encode, List.drop_left]
      cases hb : d.body with
      | compact u hu => simp [DecimalBody.isCompact, DecimalBody.encode, compactIntSize_encode]
      | bytes l m hl =>
          simp only [DecimalBody.isCompact, DecimalBody.encode, List.append_assoc,
            readCompactInt_encode, hl, Int.toNat_natCast, List.drop_left]
          rfl

/-- After its header, a decimal's cursor is within the field. -/
lemma DecimalValue.tail_within (d : DecimalValue) (r : List UInt8) :
    r <:+ d.scale.encode ++ (d.body.encode ++ r) ∧
      d.scale.encode ++ (d.body.encode ++ r) <:+ d.encode ++ r := by
  rw [DecimalValue.encode, List.cons_append, ← List.append_assoc]
  exact ⟨List.suffix_append _ _, List.suffix_cons _ _⟩

lemma sizeOfInt_length {l : CompactInt} {m : List UInt8} (hl : l.value = m.length) :
    sizeOfInt l.value = m.length := by
  rw [sizeOfInt_of_nonneg (by omega), hl, Int.toNat_natCast]

/-! ### `compare_decimal`, case by case -/

/-- The exponent `compare_decimal` hands on for a decimal: `-scale` as an `int32_t`. -/
def DecimalValue.exponent (d : DecimalValue) : Int32 :=
  Int32.ofInt (-(Int32.ofInt d.scale.value).val)

/-- The dispatch of `compare_decimal` on the bodies of two decimals and the exponents it hands
on: the `uint64_t` entry point for two compact bodies, an entry point on bytes otherwise. -/
def compareBodies (table : List MpInt) (ex ey : Int32) :
    DecimalBody → DecimalBody → Sign × List MpInt
  | .compact u _, .compact v _ =>
      (Math.compareDecimalU64 (uint64OfInt u.value) ex (uint64OfInt v.value) ey, table)
  | .compact u _, .bytes _ m _ => Math.compareDecimalU64Bytes table (uint64OfInt u.value) ex m ey
  | .bytes _ m _, .compact v _ => Math.compareDecimalBytesU64 table m ex (uint64OfInt v.value) ey
  | .bytes _ m _, .bytes _ m' _ => Math.compareDecimalBytes table m ex m' ey

section Cases

variable (table : List MpInt) (ra rb : List UInt8)

lemma readInt_null (r : List UInt8) : readInt 1 ([0] ++ r) = (decimalNull, r) := by
  simp [readInt_cons, decimalNull]

lemma compareDecimal_null_null :
    compareDecimal table ([0] ++ ra) ([0] ++ rb) = (⟨0, ra, rb⟩, table) := by
  simp only [compareDecimal, readInt_null, if_true]

lemma compareDecimal_null_value (dy : DecimalValue) :
    compareDecimal table ([0] ++ ra) (dy.encode ++ rb) =
      (⟨-1, ra, dy.scale.encode ++ (dy.body.encode ++ rb)⟩, table) := by
  simp only [compareDecimal, readInt_null, dy.readInt_encode, dy.head_ne, if_true, if_false]

lemma compareDecimal_value_null (dx : DecimalValue) :
    compareDecimal table (dx.encode ++ ra) ([0] ++ rb) =
      (⟨1, dx.scale.encode ++ (dx.body.encode ++ ra), rb⟩, table) := by
  simp only [compareDecimal, readInt_null, dx.readInt_encode, dx.head_ne, if_true, if_false]

/-- Two decimals of different signs: the one with the PLUS bit is the greater, and the cursors
stay after the headers. -/
lemma compareDecimal_plus_ne {dx dy : DecimalValue} (hp : dx.plus ≠ dy.plus) :
    compareDecimal table (dx.encode ++ ra) (dy.encode ++ rb) =
      (⟨if dx.plus then 1 else -1, dx.scale.encode ++ (dx.body.encode ++ ra),
        dy.scale.encode ++ (dy.body.encode ++ rb)⟩, table) := by
  simp only [compareDecimal, dx.readInt_encode, dy.readInt_encode, dx.head_ne, dy.head_ne,
    if_false, dx.hasBit_plus, dy.hasBit_plus, ne_eq, hp, not_false_eq_true, if_true]

/-- Two decimals of the same sign: `compare_decimal` compares the bodies, negates the order of two
negative decimals, and passes both fields. -/
lemma compareDecimal_same_plus {dx dy : DecimalValue} (hp : dx.plus = dy.plus) :
    compareDecimal table (dx.encode ++ ra) (dy.encode ++ rb) =
      let r := compareBodies table dx.exponent dy.exponent dx.body dy.body
      (⟨(if dx.plus then r.1 else r.1.negate).toInt, ra, rb⟩, r.2) := by
  simp only [compareDecimal, dx.readInt_encode, dy.readInt_encode, dx.head_ne, dy.head_ne,
    if_false, dx.hasBit_plus, dy.hasBit_plus, hp, ne_eq, not_true_eq_false, dx.hasBit_compact,
    dy.hasBit_compact, dx.readCompactInt_scale, dy.readCompactInt_scale, DecimalValue.exponent]
  cases dx.body with
  | compact u hu =>
      cases dy.body with
      | compact v hv =>
          simp only [DecimalBody.isCompact, DecimalBody.encode, readCompactInt_encode, and_self,
            if_true, compareBodies]
      | bytes l m hl =>
          simp only [DecimalBody.isCompact, DecimalBody.encode, List.append_assoc,
            readCompactInt_encode, sizeOfInt_length hl, List.take_left, List.drop_left,
            Bool.false_eq_true, and_false, if_false, if_true, compareBodies]
  | bytes l m hl =>
      cases dy.body with
      | compact v hv =>
          simp only [DecimalBody.isCompact, DecimalBody.encode, List.append_assoc,
            readCompactInt_encode, sizeOfInt_length hl, List.take_left, List.drop_left,
            Bool.false_eq_true, false_and, if_false, if_true, compareBodies]
      | bytes l' m' hl' =>
          simp only [DecimalBody.isCompact, DecimalBody.encode, List.append_assoc,
            readCompactInt_encode, sizeOfInt_length hl, sizeOfInt_length hl', List.take_left,
            List.drop_left, Bool.false_eq_true, and_false, if_false, compareBodies]

/-- Two decimals that are both null, or both numbers of the same sign: `compare_decimal` passes
both. -/
lemma compareDecimal_passes {x y : DecimalField} (h : ¬Xor' (x = none) (y = none))
    (hp : ∀ dx dy, x = some dx → y = some dy → dx.plus = dy.plus) :
    (compareDecimal table (x.encode ++ ra) (y.encode ++ rb)).1.a = ra ∧
      (compareDecimal table (x.encode ++ ra) (y.encode ++ rb)).1.b = rb := by
  cases x <;> cases y <;> simp only [DecimalField.encode]
  case none.none => rw [compareDecimal_null_null]; exact ⟨rfl, rfl⟩
  case none.some => simp [Xor'] at h
  case some.none => simp [Xor'] at h
  case some.some dx dy =>
    rw [compareDecimal_same_plus table ra rb (hp dx dy rfl rfl)]; exact ⟨rfl, rfl⟩

end Cases

/-- **The cursors of `compare_decimal`**: within the fields, and past both when they are null,
or of the same sign; a null against a number, or two signs, leave them after the headers. -/
theorem compareDecimal_cursors (table : List MpInt) (x y : DecimalField) (ra rb : List UInt8) :
    CursorsWithin (compareDecimal table (x.encode ++ ra) (y.encode ++ rb)).1 x.encode ra
      y.encode rb := by
  cases x <;> cases y <;> simp only [DecimalField.encode]
  case none.none => rw [compareDecimal_null_null]; exact .of_eq rfl rfl
  case none.some dy =>
    rw [compareDecimal_null_value]
    exact .of_ne (by simp) ⟨List.suffix_refl _, List.suffix_append _ _⟩ (dy.tail_within rb)
  case some.none dx =>
    rw [compareDecimal_value_null]
    exact .of_ne (by simp) (dx.tail_within ra) ⟨List.suffix_refl _, List.suffix_append _ _⟩
  case some.some dx dy =>
    by_cases hp : dx.plus = dy.plus
    · rw [compareDecimal_same_plus table ra rb hp]; exact .of_eq rfl rfl
    · rw [compareDecimal_plus_ne table ra rb hp]
      exact .of_ne (by split_ifs <;> simp) (dx.tail_within ra) (dy.tail_within rb)

/-! ### The order of two decimals -/

lemma compare_neg_neg (a b : ℚ) : compare (-a) (-b) = compare b a := by
  rcases lt_trichotomy a b with h | rfl | h
  · rw [compare_gt_iff_gt.2 (neg_lt_neg h), compare_gt_iff_gt.2 h]
  · rw [compare_eq_iff_eq.2 rfl, compare_eq_iff_eq.2 rfl]
  · rw [compare_lt_iff_lt.2 (neg_lt_neg h), compare_lt_iff_lt.2 h]

/-- Two decimals of the same sign are ordered as their magnitudes `m·10^{-scale}`, or the other
way round when both are negative. -/
lemma DecimalValue.ofOrdering_compare_value {dx dy : DecimalValue} (hp : dx.plus = dy.plus) :
    Sign.ofOrdering (compare dx.value dy.value) =
      if dx.plus then Math.decimalSign dx.body.magnitude (-dx.scale.value) dy.body.magnitude
          (-dy.scale.value)
      else (Math.decimalSign dx.body.magnitude (-dx.scale.value) dy.body.magnitude
          (-dy.scale.value)).negate := by
  simp only [DecimalValue.value, Math.decimalSign, ← hp]
  cases dx.plus
  · simp only [Bool.false_eq_true, if_false, neg_mul, one_mul, compare_neg_neg,
      Sign.negate_ofOrdering_compare]
  · simp only [if_true, one_mul]

lemma DecimalValue.value_nonneg {d : DecimalValue} (h : d.plus = true) : 0 ≤ d.value := by
  rw [DecimalValue.value, if_pos h, one_mul]; positivity

lemma DecimalValue.value_neg {d : DecimalValue} (h : d.plus = false) : d.value < 0 := by
  have hm : 0 < d.body.magnitude := d.plus_bit (by simpa [DecimalValue.plus] using h)
  rw [DecimalValue.value, if_neg (by simp [h]), neg_one_mul, neg_mul, neg_lt_zero]
  positivity

/-- A body that the byte-string entry points compare exactly: compact, or shorter than `2^28`
bytes. -/
def DecimalBody.Short : DecimalBody → Prop
  | compact .. => True
  | bytes _ magnitude _ => magnitude.length < 2 ^ 28

/-- Two decimals that `compare_decimal` orders exactly: no scale is `INT32_MIN`, and when a
magnitude is written as bytes the scales differ by less than `429496730` and the magnitudes are
shorter than `2^28` bytes. -/
structure DecimalValue.Comparable (dx dy : DecimalValue) : Prop where
  scale_ne_left : dx.scale.value ≠ -2 ^ 31
  scale_ne_right : dy.scale.value ≠ -2 ^ 31
  bodies : dx.body.isCompact ∧ dy.body.isCompact ∨
    |dx.scale.value - dy.scale.value| < 429496730 ∧ dx.body.Short ∧ dy.body.Short

/-- Away from `INT32_MIN`, `-scale` is exact. -/
lemma DecimalValue.val_exponent (d : DecimalValue) (h : d.scale.value ≠ -2 ^ 31) :
    d.exponent.val = -d.scale.value := by
  rw [DecimalValue.exponent, Int32.val_ofInt_neg, Int32.val_ofInt d.scale_range, if_neg h]

/-- On comparable decimals the dispatch on the bodies is exact, and keeps the table of powers. -/
lemma compareBodies_eq {table : List MpInt} (ht : Math.MpInt.TableInv table) {dx dy : DecimalValue}
    (h : dx.Comparable dy) :
    (compareBodies table dx.exponent dy.exponent dx.body dy.body).1 =
        Math.decimalSign dx.body.magnitude (-dx.scale.value) dy.body.magnitude (-dy.scale.value) ∧
      Math.MpInt.TableInv (compareBodies table dx.exponent dy.exponent dx.body dy.body).2 := by
  have hx := dx.val_exponent h.scale_ne_left
  have hy := dy.val_exponent h.scale_ne_right
  have hgap := Math.compareDecimal_eq_of_gap ht dx.exponent dy.exponent
  rw [hx, hy, neg_sub_neg, abs_sub_comm] at hgap
  obtain ⟨-, -, hbodies⟩ := h
  revert hbodies
  cases dx.body with
  | compact u hu =>
      cases dy.body with
      | compact v hv =>
          intro _
          refine ⟨?_, ht⟩
          rw [compareBodies, Math.compareDecimalU64_eq, uint64OfInt_toNat hu, uint64OfInt_toNat hv,
            hx, hy]
          rfl
      | bytes l m hl =>
          rintro (⟨-, ⟨⟩⟩ | ⟨hg, -, hm⟩)
          obtain ⟨h1, h2⟩ := (hgap hg).2.2 (uint64OfInt u.value) m hm
          rw [uint64OfInt_toNat hu] at h1
          exact ⟨h1, h2⟩
  | bytes l m hl =>
      cases dy.body with
      | compact v hv =>
          rintro (⟨⟨⟩, -⟩ | ⟨hg, hm, -⟩)
          obtain ⟨h1, h2⟩ := (hgap hg).2.1 m (uint64OfInt v.value) hm
          rw [uint64OfInt_toNat hv] at h1
          exact ⟨h1, h2⟩
      | bytes l' m' hl' =>
          rintro (⟨⟨⟩, -⟩ | ⟨hg, hm, hm'⟩)
          exact (hgap hg).1 m m' hm hm'

/-- Two decimal fields that `compare_decimal` orders exactly: a null, or two decimals of
`DecimalValue.Comparable`. -/
def DecimalField.Comparable : DecimalField → DecimalField → Prop
  | some dx, some dy => dx.Comparable dy
  | _, _ => True

/-- **`compare_decimal` is exact** on comparable fields: it returns the order of their values,
null below every number, and keeps the table of powers. -/
theorem compareDecimal_eq_of_comparable (table : List MpInt) (ht : Math.MpInt.TableInv table)
    (x y : DecimalField) (h : x.Comparable y) (ra rb : List UInt8) :
    (compareDecimal table (x.encode ++ ra) (y.encode ++ rb)).1.result =
        (Sign.ofOrdering (compare x.value y.value)).toInt ∧
      Math.MpInt.TableInv (compareDecimal table (x.encode ++ ra) (y.encode ++ rb)).2 := by
  cases x <;> cases y <;> simp only [DecimalField.encode, DecimalField.value]
  case none.none =>
    rw [compareDecimal_null_null, Sign.ofOrdering_compare_of_eq rfl]
    exact ⟨rfl, ht⟩
  case none.some dy =>
    rw [compareDecimal_null_value, Sign.ofOrdering_compare_of_lt (WithBot.bot_lt_coe dy.value)]
    exact ⟨rfl, ht⟩
  case some.none dx =>
    rw [compareDecimal_value_null, Sign.ofOrdering_compare_of_gt (WithBot.bot_lt_coe dx.value)]
    exact ⟨rfl, ht⟩
  case some.some dx dy =>
    rw [compare_coe_withBot]
    by_cases hp : dx.plus = dy.plus
    · obtain ⟨h1, h2⟩ := compareBodies_eq ht h
      rw [compareDecimal_same_plus table ra rb hp]
      dsimp only
      rw [DecimalValue.ofOrdering_compare_value hp, h1]
      exact ⟨rfl, h2⟩
    · rw [compareDecimal_plus_ne table ra rb hp]
      refine ⟨?_, ht⟩
      cases hx : dx.plus
      · have hy : dy.plus = true := by simpa [hx] using Ne.symm hp
        rw [Sign.ofOrdering_compare_of_lt ((DecimalValue.value_neg hx).trans_le
          (DecimalValue.value_nonneg hy))]
        rfl
      · have hy : dy.plus = false := by simpa [hx] using Ne.symm hp
        rw [Sign.ofOrdering_compare_of_gt ((DecimalValue.value_neg hy).trans_le
          (DecimalValue.value_nonneg hx))]
        rfl

/-- The decimal field of `v`, `0 < v < 128`, as a producer writes it: header `PLUS | COMPACT`,
scale `0`, and the unscaled value in the head byte of its compact integer. -/
def DecimalField.ofSmall (v : ℕ) (hv : 0 < v ∧ v < 2 ^ 7) : DecimalField :=
  some
    { header := 6
      scale := ⟨0, 0, Nat.zero_le 4, fun _ => ⟨by decide, by decide⟩, fun h => absurd rfl h⟩
      body := .compact ⟨v, 0, Nat.zero_le 4,
          fun _ => ⟨by unfold compactIntHeadMin; omega, by have := hv.2; omega⟩,
          fun h => absurd rfl h⟩ (Int.natCast_nonneg v)
      header_ne := by decide
      compact_bit := rfl
      plus_bit := fun h => absurd h (by decide)
      scale_range := by decide }

/-- The decimals `1` and `2` are comparable; `compare_decimal` orders them on a fresh table. -/
theorem compareDecimal_one_two :
    (DecimalField.ofSmall 1 (by norm_num)).Comparable (DecimalField.ofSmall 2 (by norm_num)) ∧
      (compareDecimal [] ((DecimalField.ofSmall 1 (by norm_num)).encode ++ [])
          ((DecimalField.ofSmall 2 (by norm_num)).encode ++ [])).1.result =
        (Sign.ofOrdering (compare (DecimalField.ofSmall 1 (by norm_num)).value
          (DecimalField.ofSmall 2 (by norm_num)).value)).toInt :=
  have h : (DecimalField.ofSmall 1 (by norm_num)).Comparable
      (DecimalField.ofSmall 2 (by norm_num)) :=
    ⟨by decide, by decide, .inl ⟨rfl, rfl⟩⟩
  ⟨h, (compareDecimal_eq_of_comparable [] Math.MpInt.tableInv_nil _ _ h [] []).1⟩

/-- At the scale `INT32_MIN` the negation `-scale` of `int32_t` wraps to `INT32_MIN`: the decimal
`10^{2^31}`, header `PLUS | COMPACT`, scale `-2^31` and unscaled value `1`, is handed on as
`1 · 10^{-2^31}`, and compares below the decimal `1`. -/
theorem compareDecimal_scale_min (table : List MpInt) :
    ∃ x y : DecimalField, x.encode = [6, 129, 0, 0, 0, 128, 1] ∧ y.encode = [6, 0, 1] ∧
      y.value < x.value ∧ (compareDecimal table x.encode y.encode).1.result = -1 := by
  let one : CompactInt :=
    ⟨1, 0, by norm_num, fun _ => by norm_num [compactIntHeadMin], by simp⟩
  let zero : CompactInt :=
    ⟨0, 0, by norm_num, fun _ => by norm_num [compactIntHeadMin], by simp⟩
  let scaleMin : CompactInt :=
    ⟨-2 ^ 31, 3, by norm_num, by simp, fun _ => by norm_num [Fits, payloadWidth]⟩
  let x : DecimalValue :=
    ⟨6, scaleMin, .compact one (by norm_num), by decide, rfl, fun h => absurd h (by decide),
      by norm_num⟩
  let y : DecimalValue :=
    ⟨6, zero, .compact one (by norm_num), by decide, rfl, fun h => absurd h (by decide),
      by norm_num⟩
  have hx : x.plus = true := by decide
  have hy : y.plus = true := by decide
  refine ⟨some x, some y, by decide, by decide, ?_, ?_⟩
  · rw [DecimalField.value, DecimalField.value, WithBot.coe_lt_coe, DecimalValue.value,
      DecimalValue.value, hx, hy]
    simp only [if_true, x, y, one, zero, scaleMin, DecimalBody.magnitude, Int.toNat_one,
      Nat.cast_one, one_mul, neg_zero, zpow_zero, neg_neg]
    exact one_lt_zpow₀ (by norm_num) (by norm_num)
  · rw [DecimalField.encode, DecimalField.encode, ← List.append_nil x.encode,
      ← List.append_nil y.encode, compareDecimal_same_plus table [] [] (hx.trans hy.symm)]
    dsimp only [compareBodies, x, y]
    decide

end Asakusafw.Serde

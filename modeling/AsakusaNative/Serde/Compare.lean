import AsakusaNative.Serde.Read

/-!
# The comparators and skippers of fixed-layout fields

`serde.hpp`: `compare_boolean`, `compare_numeric<T>` (`byte` … `double`), `compare_unsigned<T>`
(`date`, `date_time`) and `compare_string`, each comparing the fields under two cursors and
advancing them, and the matching `skip_*`, which advance one cursor past a field.

* `Compared`: a comparator's result and the cursors it leaves; `CursorsWithin` says that both
  cursors stay within their fields and are past them after a tie.
* `OrdersBy`: a comparator orders encoded fields as their decoded values are ordered, hence is
  antisymmetric and transitive (`OrdersBy.of_sign_eq`).
* `NumericField`, `UnsignedField`, `StringField`: the well-formed fields, with `encode` and
  `decode`; one lemma per comparator gives its order (`compareNumeric_sign`, …), its cursors
  (`compareNumeric_cursors`, …) and the skipper (`skipNumeric_encode`, …).
* `memcmp_then_length`: `memcmp` over the common prefix, then the lengths, is the
  lexicographic order of the unsigned bytes.
-/

namespace Asakusafw.Serde

open Math (Sign)

/-! ### Results, and the properties of comparators -/

/-- What a `compare_T` returns, and where it leaves the two cursors. -/
structure Compared where
  result : ℤ
  a : List UInt8
  b : List UInt8

/-- Where a comparator leaves the cursors on the fields `fa` and `fb`, followed by `ra` and `rb`:
within the fields, and past both of them after a tie. -/
structure CursorsWithin (r : Compared) (fa ra fb rb : List UInt8) : Prop where
  a_within : ra <:+ r.a ∧ r.a <:+ fa ++ ra
  b_within : rb <:+ r.b ∧ r.b <:+ fb ++ rb
  tie : r.result = 0 → r.a = ra ∧ r.b = rb

lemma CursorsWithin.of_eq {r : Compared} {fa ra fb rb : List UInt8} (ha : r.a = ra)
    (hb : r.b = rb) : CursorsWithin r fa ra fb rb :=
  ⟨⟨ha ▸ List.suffix_refl _, ha ▸ List.suffix_append _ _⟩,
    ⟨hb ▸ List.suffix_refl _, hb ▸ List.suffix_append _ _⟩, fun _ => ⟨ha, hb⟩⟩

section OrdersBy

variable {F D : Type*} [LinearOrder D]

/-- `cmp` orders the encoded fields of `F`, each followed by any bytes, as `decode` orders
their values; so it is antisymmetric and transitive. -/
structure OrdersBy (encode : F → List UInt8) (decode : F → D)
    (cmp : List UInt8 → List UInt8 → Compared) : Prop where
  sign_eq : ∀ x y ra rb, (cmp (encode x ++ ra) (encode y ++ rb)).result.sign =
    (Sign.ofOrdering (compare (decode x) (decode y))).toInt
  antisymm : ∀ x y ra rb, (cmp (encode x ++ ra) (encode y ++ rb)).result.sign =
    -(cmp (encode y ++ rb) (encode x ++ ra)).result.sign
  trans_le : ∀ x y z ra rb rc, (cmp (encode x ++ ra) (encode y ++ rb)).result ≤ 0 →
    (cmp (encode y ++ rb) (encode z ++ rc)).result ≤ 0 →
    (cmp (encode x ++ ra) (encode z ++ rc)).result ≤ 0
  trans_lt : ∀ x y z ra rb rc, (cmp (encode x ++ ra) (encode y ++ rb)).result < 0 →
    (cmp (encode y ++ rb) (encode z ++ rc)).result < 0 →
    (cmp (encode x ++ ra) (encode z ++ rc)).result < 0

lemma toInt_ofOrdering_compare_nonpos {x y : D} :
    (Sign.ofOrdering (compare x y)).toInt ≤ 0 ↔ x ≤ y := by
  rcases lt_trichotomy x y with h | rfl | h
  · simp [Sign.ofOrdering_compare_of_lt h, Sign.toInt, h.le]
  · simp [Sign.ofOrdering_compare_of_eq, Sign.toInt]
  · simp [Sign.ofOrdering_compare_of_gt h, Sign.toInt, h]

lemma toInt_ofOrdering_compare_neg {x y : D} :
    (Sign.ofOrdering (compare x y)).toInt < 0 ↔ x < y := by
  rcases lt_trichotomy x y with h | rfl | h
  · simp [Sign.ofOrdering_compare_of_lt h, Sign.toInt, h]
  · simp [Sign.ofOrdering_compare_of_eq, Sign.toInt]
  · simp [Sign.ofOrdering_compare_of_gt h, Sign.toInt, h.le]

lemma int_sign_nonpos_iff (r : ℤ) : r.sign ≤ 0 ↔ r ≤ 0 := by
  rcases lt_trichotomy r 0 with h | rfl | h
  · simp [Int.sign_eq_neg_one_iff_neg.2 h, h.le]
  · simp
  · simp [Int.sign_eq_one_iff_pos.2 h, not_le.2 h]

lemma int_sign_neg_iff (r : ℤ) : r.sign < 0 ↔ r < 0 := by
  rcases lt_trichotomy r 0 with h | rfl | h
  · simp [Int.sign_eq_neg_one_iff_neg.2 h, h]
  · simp
  · simp [Int.sign_eq_one_iff_pos.2 h, not_lt.2 h.le]

/-- **The order law gives the rest**: antisymmetry and transitivity follow from the sign. -/
lemma OrdersBy.of_sign_eq {encode : F → List UInt8} {decode : F → D}
    {cmp : List UInt8 → List UInt8 → Compared}
    (h : ∀ x y ra rb, (cmp (encode x ++ ra) (encode y ++ rb)).result.sign =
      (Sign.ofOrdering (compare (decode x) (decode y))).toInt) :
    OrdersBy encode decode cmp := by
  have hle : ∀ x y ra rb, (cmp (encode x ++ ra) (encode y ++ rb)).result ≤ 0 ↔
      decode x ≤ decode y := fun x y ra rb => by
    rw [← int_sign_nonpos_iff, h, toInt_ofOrdering_compare_nonpos]
  have hlt : ∀ x y ra rb, (cmp (encode x ++ ra) (encode y ++ rb)).result < 0 ↔
      decode x < decode y := fun x y ra rb => by
    rw [← int_sign_neg_iff, h, toInt_ofOrdering_compare_neg]
  refine ⟨h, fun x y ra rb => ?_, fun x y z ra rb rc h1 h2 => ?_,
    fun x y z ra rb rc h1 h2 => ?_⟩
  · rw [h, h, ← Sign.negate_ofOrdering_compare, Sign.toInt_negate]
  · exact (hle x z ra rc).2 (((hle x y ra rb).1 h1).trans ((hle y z rb rc).1 h2))
  · exact (hlt x z ra rc).2 (((hlt x y ra rb).1 h1).trans ((hlt y z rb rc).1 h2))

end OrdersBy

/-! ### Values -/

/-- `NULL_HEADER`. -/
def nullHeader : ℤ := 0

/-- `compare_value` at an integer type. -/
def compareValue (a b : ℤ) : ℤ := if a = b then 0 else if a < b then -1 else 1

lemma compareValue_eq (a b : ℤ) : compareValue a b = (Sign.ofOrdering (compare a b)).toInt := by
  rcases lt_trichotomy a b with h | rfl | h
  · simp [compareValue, h, h.ne, Sign.ofOrdering_compare_of_lt h, Sign.toInt]
  · simp [compareValue, Sign.ofOrdering_compare_of_eq, Sign.toInt]
  · simp [compareValue, h.ne', not_lt.2 h.le, Sign.ofOrdering_compare_of_gt h, Sign.toInt]

/-- `compare_value<T>` at a signed integer type of `width` bytes, on the bits of the values. -/
def compareIntValue (width : ℕ) (a b : ℕ) : ℤ :=
  compareValue (toSigned width a) (toSigned width b)

/-- The order key of a binary floating-point value with `expBits` exponent and `fracBits`
fraction bits: none for a NaN; otherwise the magnitude bits, negated below zero, so that `+0`
and `-0` share the key `0`. -/
def floatKey (expBits fracBits bits : ℕ) : Option ℤ :=
  let magnitude := bits % 2 ^ (expBits + fracBits)
  if (2 ^ expBits - 1) * 2 ^ fracBits < magnitude then none
  else if bits / 2 ^ (expBits + fracBits) = 0 then some magnitude else some (-(magnitude : ℤ))

/-- `compare_value<T>` at `float` or `double`: `==` and `<` are false when a NaN is involved,
so the result is then `+1`. -/
def compareFloatValue (expBits fracBits : ℕ) (a b : ℕ) : ℤ :=
  match floatKey expBits fracBits a, floatKey expBits fracBits b with
  | some x, some y => compareValue x y
  | _, _ => 1

/-! ### The comparators -/

/-- `compare_boolean`. -/
def compareBoolean (a b : List UInt8) : Compared :=
  let va := readInt 1 a
  let vb := readInt 1 b
  ⟨compareValue va.1 vb.1, va.2, vb.2⟩

/-- `compare_numeric<T>` for a `width`-byte `T` whose values `compare_value` orders as `cmp`
orders their bits. -/
def compareNumeric (width : ℕ) (cmp : ℕ → ℕ → ℤ) (a b : List UInt8) : Compared :=
  let na := readInt 1 a
  let nb := readInt 1 b
  if na.1 = nullHeader then
    (if nb.1 = nullHeader then ⟨0, na.2, nb.2⟩ else ⟨-1, na.2, nb.2⟩)
  else if nb.1 = nullHeader then ⟨1, na.2, nb.2⟩
  else
    let va := readValue width na.2
    let vb := readValue width nb.2
    ⟨cmp va.1 vb.1, va.2, vb.2⟩

/-- `compare_byte`. -/
def compareByte : List UInt8 → List UInt8 → Compared := compareNumeric 1 (compareIntValue 1)

/-- `compare_short`. -/
def compareShort : List UInt8 → List UInt8 → Compared := compareNumeric 2 (compareIntValue 2)

/-- `compare_int`. -/
def compareInt : List UInt8 → List UInt8 → Compared := compareNumeric 4 (compareIntValue 4)

/-- `compare_long`. -/
def compareLong : List UInt8 → List UInt8 → Compared := compareNumeric 8 (compareIntValue 8)

/-- `compare_float`. -/
def compareFloat : List UInt8 → List UInt8 → Compared :=
  compareNumeric 4 (compareFloatValue 8 23)

/-- `compare_double`. -/
def compareDouble : List UInt8 → List UInt8 → Compared :=
  compareNumeric 8 (compareFloatValue 11 52)

/-- `compare_unsigned<T>` for a `width`-byte `T`: a negative value is null. -/
def compareUnsigned (width : ℕ) (a b : List UInt8) : Compared :=
  let va := readInt width a
  let vb := readInt width b
  if va.1 < 0 then (if vb.1 < 0 then ⟨0, va.2, vb.2⟩ else ⟨-1, va.2, vb.2⟩)
  else if vb.1 < 0 then ⟨1, va.2, vb.2⟩
  else ⟨compareValue va.1 vb.1, va.2, vb.2⟩

/-- `compare_date`. -/
def compareDate : List UInt8 → List UInt8 → Compared := compareUnsigned 4

/-- `compare_date_time`. -/
def compareDateTime : List UInt8 → List UInt8 → Compared := compareUnsigned 8

/-- `memcmp(a, b, n)`. The C standard fixes the sign of its result, the order of the first `n`
bytes as `unsigned char`; the model returns the difference of the first bytes that differ. -/
def memcmp : List UInt8 → List UInt8 → ℕ → ℤ
  | x :: xs, y :: ys, n + 1 => if x = y then memcmp xs ys n else (x.toNat : ℤ) - y.toNat
  | _, _, _ => 0

/-- `compare_string`: a negative length is null; the cursors pass the bytes only after a tie of
the common prefix. -/
def compareString (a b : List UInt8) : Compared :=
  let la := readCompactInt a
  let lb := readCompactInt b
  if la.1 < 0 then (if lb.1 < 0 then ⟨0, la.2, lb.2⟩ else ⟨-1, la.2, lb.2⟩)
  else if lb.1 < 0 then ⟨1, la.2, lb.2⟩
  else
    let diff := memcmp la.2 lb.2 (min la.1 lb.1).toNat
    if diff ≠ 0 then ⟨diff, la.2, lb.2⟩
    else ⟨compareValue la.1 lb.1, la.2.drop la.1.toNat, lb.2.drop lb.1.toNat⟩

/-! ### The skippers -/

/-- `skip_value<T>` for a `width`-byte `T`. -/
def skipValue (width : ℕ) (p : List UInt8) : List UInt8 := p.drop width

/-- `skip_numeric<T>` for a `width`-byte `T`. -/
def skipNumeric (width : ℕ) (p : List UInt8) : List UInt8 :=
  let n := readInt 1 p
  if n.1 ≠ nullHeader then skipValue width n.2 else n.2

/-- `skip_boolean`. -/
def skipBoolean : List UInt8 → List UInt8 := skipValue 1

/-- `skip_byte`. -/
def skipByte : List UInt8 → List UInt8 := skipNumeric 1

/-- `skip_short`. -/
def skipShort : List UInt8 → List UInt8 := skipNumeric 2

/-- `skip_int`. -/
def skipInt : List UInt8 → List UInt8 := skipNumeric 4

/-- `skip_long`. -/
def skipLong : List UInt8 → List UInt8 := skipNumeric 8

/-- `skip_float`. -/
def skipFloat : List UInt8 → List UInt8 := skipNumeric 4

/-- `skip_double`. -/
def skipDouble : List UInt8 → List UInt8 := skipNumeric 8

/-- `skip_date`. -/
def skipDate (p : List UInt8) : List UInt8 := p.drop 4

/-- `skip_date_time`. -/
def skipDateTime (p : List UInt8) : List UInt8 := p.drop 8

/-- `skip_string`: the length, and the bytes of a positive length. -/
def skipString (p : List UInt8) : List UInt8 :=
  let len := readCompactInt p
  if len.1 > 0 then len.2.drop len.1.toNat else len.2

/-! ### Headers -/

lemma readInt_cons (h : UInt8) (rest : List UInt8) :
    readInt 1 (h :: rest) = (toSigned 1 h.toNat, rest) := by
  simp [readInt, readValue, leValue]

lemma toSigned_one_eq_zero_iff (h : UInt8) : toSigned 1 h.toNat = 0 ↔ h = 0 := by
  have hlt := h.toNat_lt
  have : h = 0 ↔ h.toNat = 0 := ⟨fun e => e ▸ rfl, fun e => UInt8.ext e⟩
  rw [this, toSigned]; split_ifs <;> omega

lemma CursorsWithin.of_ne {r : Compared} {fa ra fb rb : List UInt8} (hr : r.result ≠ 0)
    (ha : ra <:+ r.a ∧ r.a <:+ fa ++ ra) (hb : rb <:+ r.b ∧ r.b <:+ fb ++ rb) :
    CursorsWithin r fa ra fb rb :=
  ⟨ha, hb, fun h => absurd h hr⟩

lemma compare_coe_withBot {α : Type*} [LinearOrder α] (x y : α) :
    compare (x : WithBot α) (y : WithBot α) = compare x y :=
  Sign.compare_strictMono WithBot.coe_strictMono x y

/-! ### Booleans -/

/-- A boolean field is one byte, compared as `int8_t`. -/
def booleanDecode (b : UInt8) : ℤ := toSigned 1 b.toNat

lemma compareBoolean_encode (x y : UInt8) (ra rb : List UInt8) :
    compareBoolean ([x] ++ ra) ([y] ++ rb) =
      ⟨compareValue (booleanDecode x) (booleanDecode y), ra, rb⟩ := by
  simp [compareBoolean, readInt_cons, booleanDecode]

lemma skipBoolean_encode (x : UInt8) (r : List UInt8) : skipBoolean ([x] ++ r) = r := rfl

/-! ### Numeric fields -/

/-- A field of `compare_numeric<T>` for a `width`-byte `T`: the null header `0`, or a non-zero
header followed by the bytes of the value. -/
inductive NumericField (width : ℕ)
  | null
  | value (header : UInt8) (header_ne : header ≠ 0) (payload : List UInt8)
      (length_payload : payload.length = width)

namespace NumericField

variable {width : ℕ}

/-- The bytes of a numeric field. -/
def encode : NumericField width → List UInt8
  | null => [0]
  | value header _ payload _ => header :: payload

/-- The integer a numeric field holds, `⊥` for null. -/
def decode : NumericField width → WithBot ℤ
  | null => ⊥
  | value _ _ payload _ => (toSigned width (leValue payload) : ℤ)

end NumericField

section Numeric

variable {width : ℕ} (cmp : ℕ → ℕ → ℤ) (ra rb : List UInt8)

lemma compareNumeric_null_null :
    compareNumeric width cmp ((NumericField.null : NumericField width).encode ++ ra)
      ((NumericField.null : NumericField width).encode ++ rb) = ⟨0, ra, rb⟩ := by
  simp [compareNumeric, NumericField.encode, readInt_cons, toSigned, nullHeader]

/-- Both headers non-null: the payloads are compared and both cursors pass them. -/
lemma compareNumeric_value_value {h h' : UInt8} (hh : h ≠ 0) (hh' : h' ≠ 0) {p p' : List UInt8}
    (hp : p.length = width) (hp' : p'.length = width) :
    compareNumeric width cmp ((NumericField.value h hh p hp).encode ++ ra)
      ((NumericField.value h' hh' p' hp').encode ++ rb) =
        ⟨cmp (leValue p) (leValue p'), ra, rb⟩ := by
  simp [compareNumeric, NumericField.encode, readInt_cons, nullHeader, toSigned_one_eq_zero_iff,
    hh, hh', readValue_append_of_length hp, readValue_append_of_length hp']

lemma compareNumeric_null_value {h : UInt8} (hh : h ≠ 0) {p : List UInt8}
    (hp : p.length = width) :
    compareNumeric width cmp ((NumericField.null : NumericField width).encode ++ ra)
      ((NumericField.value h hh p hp).encode ++ rb) = ⟨-1, ra, p ++ rb⟩ := by
  simp [compareNumeric, NumericField.encode, readInt_cons, nullHeader, toSigned_one_eq_zero_iff,
    hh]

lemma compareNumeric_value_null {h : UInt8} (hh : h ≠ 0) {p : List UInt8}
    (hp : p.length = width) :
    compareNumeric width cmp ((NumericField.value h hh p hp).encode ++ ra)
      ((NumericField.null : NumericField width).encode ++ rb) = ⟨1, p ++ ra, rb⟩ := by
  simp [compareNumeric, NumericField.encode, readInt_cons, nullHeader, toSigned_one_eq_zero_iff,
    hh]

/-- **The cursors of `compare_numeric`**, for every value comparison `cmp`. -/
theorem compareNumeric_cursors (x y : NumericField width) :
    CursorsWithin (compareNumeric width cmp (x.encode ++ ra) (y.encode ++ rb)) x.encode ra
      y.encode rb := by
  cases x with
  | null =>
      cases y with
      | null => exact .of_eq (by rw [compareNumeric_null_null]) (by rw [compareNumeric_null_null])
      | value h hh p hp =>
          rw [compareNumeric_null_value _ _ _ hh hp]
          exact .of_ne (r := ⟨-1, ra, p ++ rb⟩) (by simp)
            ⟨List.suffix_refl _, List.suffix_append _ _⟩
            ⟨List.suffix_append _ _, List.suffix_cons _ _⟩
  | value h hh p hp =>
      cases y with
      | null =>
          rw [compareNumeric_value_null _ _ _ hh hp]
          exact .of_ne (r := ⟨1, p ++ ra, rb⟩) (by simp)
            ⟨List.suffix_append _ _, List.suffix_cons _ _⟩
            ⟨List.suffix_refl _, List.suffix_append _ _⟩
      | value h' hh' p' hp' =>
          rw [compareNumeric_value_value _ _ _ hh hh' hp hp']
          exact .of_eq rfl rfl

/-- Two numeric fields that are both null or both not: `compare_numeric` passes both. -/
lemma compareNumeric_passes {x y : NumericField width} (h : ¬Xor' (x = .null) (y = .null)) :
    (compareNumeric width cmp (x.encode ++ ra) (y.encode ++ rb)).a = ra ∧
      (compareNumeric width cmp (x.encode ++ ra) (y.encode ++ rb)).b = rb := by
  cases x with
  | null =>
      cases y with
      | null => rw [compareNumeric_null_null]; exact ⟨rfl, rfl⟩
      | value => simp [Xor'] at h
  | value h hh p hp =>
      cases y with
      | null => simp [Xor'] at h
      | value h' hh' p' hp' => rw [compareNumeric_value_value _ _ _ hh hh' hp hp']; exact ⟨rfl, rfl⟩

end Numeric

lemma skipNumeric_encode {width : ℕ} (x : NumericField width) (r : List UInt8) :
    skipNumeric width (x.encode ++ r) = r := by
  cases x with
  | null => simp [skipNumeric, NumericField.encode, readInt_cons, toSigned, nullHeader]
  | value h hh p hp =>
      simp [skipNumeric, skipValue, NumericField.encode, readInt_cons, nullHeader,
        toSigned_one_eq_zero_iff, hh, ← hp]

/-- **`compare_numeric` at an integer type** orders numeric fields by their values, null first. -/
theorem compareNumeric_sign {width : ℕ} (x y : NumericField width) (ra rb : List UInt8) :
    (compareNumeric width (compareIntValue width) (x.encode ++ ra) (y.encode ++ rb)).result.sign =
      (Sign.ofOrdering (compare x.decode y.decode)).toInt := by
  cases x with
  | null =>
      cases y with
      | null => rw [compareNumeric_null_null]; rfl
      | value h hh p hp =>
          rw [compareNumeric_null_value _ _ _ hh hp, NumericField.decode, NumericField.decode,
            Sign.ofOrdering_compare_of_lt (WithBot.bot_lt_coe _)]; rfl
  | value h hh p hp =>
      cases y with
      | null =>
          rw [compareNumeric_value_null _ _ _ hh hp, NumericField.decode, NumericField.decode,
            Sign.ofOrdering_compare_of_gt (WithBot.bot_lt_coe _)]; rfl
      | value h' hh' p' hp' =>
          rw [compareNumeric_value_value _ _ _ hh hh' hp hp', NumericField.decode,
            NumericField.decode, compare_coe_withBot, compareIntValue, compareValue_eq,
            Sign.sign_toInt]

/-! ### `date` and `date_time` -/

/-- A field of `compare_unsigned<T>` for a `width`-byte `T`: the bytes of a value, null when
negative. -/
structure UnsignedField (width : ℕ) where
  payload : List UInt8
  length_payload : payload.length = width

/-- The value of an unsigned field, `⊥` for a negative one. -/
def UnsignedField.decode {width : ℕ} (x : UnsignedField width) : WithBot ℤ :=
  if toSigned width (leValue x.payload) < 0 then ⊥ else (toSigned width (leValue x.payload) : ℤ)

/-- `compare_unsigned` reads both values whatever they are. -/
lemma compareUnsigned_encode {width : ℕ} (x y : UnsignedField width) (ra rb : List UInt8) :
    (compareUnsigned width (x.payload ++ ra) (y.payload ++ rb)).a = ra ∧
      (compareUnsigned width (x.payload ++ ra) (y.payload ++ rb)).b = rb := by
  simp only [compareUnsigned, readInt, readValue_append_of_length x.length_payload,
    readValue_append_of_length y.length_payload]
  split_ifs <;> exact ⟨rfl, rfl⟩

/-- **`compare_unsigned`** orders the values, negative ones as null below the rest. -/
theorem compareUnsigned_sign {width : ℕ} (x y : UnsignedField width) (ra rb : List UInt8) :
    (compareUnsigned width (x.payload ++ ra) (y.payload ++ rb)).result.sign =
      (Sign.ofOrdering (compare x.decode y.decode)).toInt := by
  simp only [compareUnsigned, readInt, readValue_append_of_length x.length_payload,
    readValue_append_of_length y.length_payload, UnsignedField.decode]
  generalize toSigned width (leValue x.payload) = u
  generalize toSigned width (leValue y.payload) = v
  by_cases hu : u < 0 <;> by_cases hv : v < 0 <;> simp only [hu, hv, if_true, if_false]
  · rfl
  · exact (congrArg Sign.toInt (Sign.ofOrdering_compare_of_lt (WithBot.bot_lt_coe v))).symm
  · exact (congrArg Sign.toInt (Sign.ofOrdering_compare_of_gt (WithBot.bot_lt_coe u))).symm
  · rw [compare_coe_withBot, compareValue_eq, Sign.sign_toInt]

lemma skipUnsigned_encode {width : ℕ} (x : UnsignedField width) (r : List UInt8) :
    (x.payload ++ r).drop width = r := by
  have := List.drop_left x.payload r
  rwa [x.length_payload] at this

/-! ### Strings -/

lemma memcmp_zero (xs ys : List UInt8) : memcmp xs ys 0 = 0 := by
  cases xs <;> cases ys <;> rfl

/-- `memcmp` reads only the first `n` bytes. -/
lemma memcmp_append :
    ∀ (n : ℕ) (xs ys ra rb : List UInt8), n ≤ xs.length → n ≤ ys.length →
    memcmp (xs ++ ra) (ys ++ rb) n = memcmp xs ys n
  | 0, _, _, _, _, _, _ => by rw [memcmp_zero, memcmp_zero]
  | n + 1, x :: xs, y :: ys, ra, rb, hx, hy => by
      rw [List.cons_append, List.cons_append, memcmp, memcmp,
        memcmp_append n xs ys ra rb (by simpa using hx) (by simpa using hy)]

/-- `memcmp` is `0` over `n` bytes on which both sides agree. -/
lemma memcmp_eq_zero_of_take : ∀ (n : ℕ) (xs ys : List UInt8), xs.take n = ys.take n →
    memcmp xs ys n = 0
  | 0, _, _, _ => memcmp_zero _ _
  | _ + 1, [], _, _ => rfl
  | _ + 1, _ :: _, [], _ => rfl
  | n + 1, x :: xs, y :: ys, h => by
      simp only [List.take_succ_cons, List.cons.injEq] at h
      rw [memcmp, if_pos h.1, memcmp_eq_zero_of_take n xs ys h.2]

/-- One byte string a prefix of the other: they agree over their common length. -/
lemma memcmp_eq_zero_of_prefixes {xs ys : List UInt8} (h : xs <+: ys ∨ ys <+: xs) :
    memcmp xs ys (min xs.length ys.length) = 0 := by
  apply memcmp_eq_zero_of_take
  rcases h with h | h
  · rw [min_eq_left h.length_le, List.take_length, ← List.prefix_iff_eq_take.1 h]
  · rw [min_eq_right h.length_le, List.take_length, ← List.prefix_iff_eq_take.1 h]

lemma compare_cons_same (a : ℕ) (l l' : List ℕ) :
    compare (a :: l) (a :: l') = compare l l' := by
  rcases lt_trichotomy l l' with h | rfl | h
  · rw [compare_lt_iff_lt.2 h, compare_lt_iff_lt]; exact List.Lex.cons h
  · rw [compare_eq_iff_eq.2 rfl, compare_eq_iff_eq.2 rfl]
  · rw [compare_gt_iff_gt.2 h, compare_gt_iff_gt]; exact List.Lex.cons h

lemma compare_cons_ne {a b : ℕ} (h : a ≠ b) (l l' : List ℕ) :
    compare (a :: l) (b :: l') = compare a b := by
  rcases lt_or_gt_of_ne h with h | h
  · rw [compare_lt_iff_lt.2 h, compare_lt_iff_lt]; exact List.Lex.rel h
  · rw [compare_gt_iff_gt.2 h, compare_gt_iff_gt]; exact List.Lex.rel h

lemma compareValue_succ (a b : ℕ) :
    compareValue ((a + 1 : ℕ) : ℤ) ((b + 1 : ℕ) : ℤ) = compareValue a b := by
  simp only [compareValue]; push_cast; split_ifs <;> omega

/-- **`memcmp` over the common prefix, then the lengths**, is the lexicographic order of the
bytes as unsigned numbers, a proper prefix first. -/
theorem memcmp_then_length : ∀ xs ys : List UInt8,
    (if memcmp xs ys (min xs.length ys.length) ≠ 0 then memcmp xs ys (min xs.length ys.length)
      else compareValue xs.length ys.length).sign =
      (Sign.ofOrdering (compare (xs.map UInt8.toNat) (ys.map UInt8.toNat))).toInt
  | [], [] => by simp [memcmp_zero, compareValue, Sign.ofOrdering_compare_of_eq, Sign.toInt]
  | [], y :: ys => by
      simp only [List.length_nil, List.length_cons, Nat.zero_min, memcmp_zero, ne_eq,
        not_true_eq_false, if_false, compareValue, List.map_nil, List.map_cons,
        Sign.ofOrdering_compare_of_lt (show ([] : List ℕ) < _ from List.nil_lt_cons _ _)]
      rw [if_neg (by omega), if_pos (by omega)]; rfl
  | x :: xs, [] => by
      simp only [List.length_nil, List.length_cons, Nat.min_zero, memcmp_zero, ne_eq,
        not_true_eq_false, if_false, compareValue, List.map_nil, List.map_cons,
        Sign.ofOrdering_compare_of_gt (show ([] : List ℕ) < _ from List.nil_lt_cons _ _)]
      rw [if_neg (by omega), if_neg (by omega)]; rfl
  | x :: xs, y :: ys => by
      simp only [List.length_cons, Nat.add_min_add_right, memcmp, List.map_cons]
      by_cases hxy : x = y
      · subst hxy
        rw [if_pos rfl, compareValue_succ, compare_cons_same]
        exact memcmp_then_length xs ys
      · have hne : x.toNat ≠ y.toNat := fun h => hxy (UInt8.ext h)
        rw [if_neg hxy, if_pos (by omega), compare_cons_ne hne]
        rcases lt_or_gt_of_ne hne with h | h
        · rw [Sign.ofOrdering_compare_of_lt h, Int.sign_eq_neg_one_of_neg (by omega)]; rfl
        · rw [Sign.ofOrdering_compare_of_gt h, Int.sign_eq_one_of_pos (by omega)]; rfl

/-- A field of `compare_string`: a compact length, null when negative, and that many bytes. -/
structure StringField where
  length : CompactInt
  payload : List UInt8
  length_payload : payload.length = length.value.toNat

namespace StringField

/-- The bytes of a string field. -/
def encode (x : StringField) : List UInt8 := x.length.encode ++ x.payload

/-- The bytes of a string field as unsigned numbers, `⊥` for null. -/
def decode (x : StringField) : WithBot (List ℕ) :=
  if x.length.value < 0 then ⊥ else (x.payload.map UInt8.toNat : List ℕ)

lemma readCompactInt_encode (x : StringField) (r : List UInt8) :
    readCompactInt (x.encode ++ r) = (x.length.value, x.payload ++ r) := by
  rw [encode, List.append_assoc, Serde.readCompactInt_encode]

lemma payload_eq_nil (x : StringField) (h : x.length.value < 0) : x.payload = [] :=
  List.length_eq_zero.1 (by rw [x.length_payload]; omega)

lemma length_eq (x : StringField) (h : ¬x.length.value < 0) :
    x.length.value = x.payload.length := by
  rw [x.length_payload]; omega

end StringField

/-- `compare_string` on two non-null strings: `memcmp` over the common prefix, and on a tie the
lengths, with both cursors past the bytes. -/
lemma compareString_value {x y : StringField} (hx : ¬x.length.value < 0)
    (hy : ¬y.length.value < 0) (ra rb : List UInt8) :
    compareString (x.encode ++ ra) (y.encode ++ rb) =
      let diff := memcmp x.payload y.payload (min x.payload.length y.payload.length)
      if diff ≠ 0 then ⟨diff, x.payload ++ ra, y.payload ++ rb⟩
      else ⟨compareValue x.payload.length y.payload.length, ra, rb⟩ := by
  have h0 : ∀ n : ℕ, ¬((n : ℤ) < 0) := fun n => not_lt.2 (Nat.cast_nonneg n)
  simp only [compareString, StringField.readCompactInt_encode, x.length_eq hx, y.length_eq hy,
    h0, if_false, Int.toNat_natCast, ← Nat.cast_min,
    memcmp_append _ _ _ _ _ (Nat.min_le_left _ _) (Nat.min_le_right _ _), List.drop_left]

/-- **The cursors of `compare_string`.** -/
theorem compareString_cursors (x y : StringField) (ra rb : List UInt8) :
    CursorsWithin (compareString (x.encode ++ ra) (y.encode ++ rb)) x.encode ra y.encode rb := by
  have hpa : x.payload ++ ra <:+ x.encode ++ ra := by
    rw [StringField.encode, List.append_assoc]; exact List.suffix_append _ _
  have hpb : y.payload ++ rb <:+ y.encode ++ rb := by
    rw [StringField.encode, List.append_assoc]; exact List.suffix_append _ _
  by_cases hx : x.length.value < 0 <;> by_cases hy : y.length.value < 0
  · simp only [compareString, StringField.readCompactInt_encode, if_pos hx, if_pos hy,
      x.payload_eq_nil hx, y.payload_eq_nil hy, List.nil_append]
    exact .of_eq rfl rfl
  · simp only [compareString, StringField.readCompactInt_encode, if_pos hx, if_neg hy,
      x.payload_eq_nil hx, List.nil_append]
    exact .of_ne (by simp) ⟨List.suffix_refl _, List.suffix_append _ _⟩
      ⟨List.suffix_append _ _, hpb⟩
  · simp only [compareString, StringField.readCompactInt_encode, if_neg hx, if_pos hy,
      y.payload_eq_nil hy, List.nil_append]
    exact .of_ne (by simp) ⟨List.suffix_append _ _, hpa⟩
      ⟨List.suffix_refl _, List.suffix_append _ _⟩
  · rw [compareString_value hx hy]
    dsimp only
    split_ifs with hd
    · exact .of_ne hd ⟨List.suffix_append _ _, hpa⟩ ⟨List.suffix_append _ _, hpb⟩
    · exact .of_eq rfl rfl

/-- Two strings that are both null, or both not with one a prefix of the other:
`compare_string` passes both. -/
lemma compareString_passes {x y : StringField} (ra rb : List UInt8)
    (h : (x.length.value < 0 ↔ y.length.value < 0))
    (hp : ¬x.length.value < 0 → x.payload <+: y.payload ∨ y.payload <+: x.payload) :
    (compareString (x.encode ++ ra) (y.encode ++ rb)).a = ra ∧
      (compareString (x.encode ++ ra) (y.encode ++ rb)).b = rb := by
  by_cases hx : x.length.value < 0
  · have hy := h.1 hx
    simp only [compareString, StringField.readCompactInt_encode, if_pos hx, if_pos hy,
      x.payload_eq_nil hx, y.payload_eq_nil hy, List.nil_append, and_self]
  · have hy : ¬y.length.value < 0 := fun hy => hx (h.2 hy)
    rw [compareString_value hx hy]
    dsimp only
    rw [if_neg (not_not.2 (memcmp_eq_zero_of_prefixes (hp hx)))]
    exact ⟨rfl, rfl⟩

/-- **`compare_string`** orders strings lexicographically on unsigned bytes, null first. -/
theorem compareString_sign (x y : StringField) (ra rb : List UInt8) :
    (compareString (x.encode ++ ra) (y.encode ++ rb)).result.sign =
      (Sign.ofOrdering (compare x.decode y.decode)).toInt := by
  by_cases hx : x.length.value < 0 <;> by_cases hy : y.length.value < 0 <;>
    simp only [StringField.decode, hx, hy, if_true, if_false]
  · simp only [compareString, StringField.readCompactInt_encode, hx, hy, if_true]; rfl
  · simp only [compareString, StringField.readCompactInt_encode, hx, hy, if_true, if_false]
    rw [Sign.ofOrdering_compare_of_lt (WithBot.bot_lt_coe _)]; rfl
  · simp only [compareString, StringField.readCompactInt_encode, hx, hy, if_true, if_false]
    rw [Sign.ofOrdering_compare_of_gt (WithBot.bot_lt_coe _)]; rfl
  · rw [compareString_value hx hy, compare_coe_withBot, ← memcmp_then_length]
    dsimp only
    split_ifs <;> rfl

lemma skipString_encode (x : StringField) (r : List UInt8) : skipString (x.encode ++ r) = r := by
  simp only [skipString, StringField.readCompactInt_encode]
  split_ifs with h
  · rw [x.length_eq (by omega), Int.toNat_natCast, List.drop_left]
  · rw [List.length_eq_zero.1 (show x.payload.length = 0 by rw [x.length_payload]; omega),
      List.nil_append]

end Asakusafw.Serde

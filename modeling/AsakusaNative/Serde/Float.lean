import Mathlib.Algebra.Order.Field.Power
import AsakusaNative.Serde.Compare

/-!
# The IEEE-754 values of `float` and `double` fields

`serde.hpp`: `compare_float` and `compare_double` are `compare_numeric<float>` and
`compare_numeric<double>`, and `compare_value<T>` there is `a == b ? 0 : a < b ? -1 : +1` with the
built-in floating-point `==` and `<`. The comparators read `==` and `<` through the order key
`floatKey`; here the bits are read as IEEE 754 reads them, and the key is checked against that
reading.

* `floatValue`: the IEEE-754 value of a pattern of sign, exponent and fraction bits, none for a
  NaN.
* `scaledSignificand_strictMono`: the significand, scaled to the exponent, grows with the
  magnitude bits, across binades and from the subnormals into the normals.
* `floatValue_eq_map`: away from the NaNs the value is a strictly monotone function of the key
  (`keyValue_strictMonoOn`).
* `compareFloat_ieee_order`: `compare_float` and `compare_double` order the fields that are not
  NaN (`NumericField.NonNaN`) by their IEEE-754 values, null first, hence are antisymmetric and
  transitive there.
-/

namespace Asakusafw.Serde

open Math (Sign)

/-! ### IEEE-754 values -/

/-- The IEEE-754 value of the pattern `bits` of a sign bit, `expBits` exponent bits and
`fracBits` fraction bits: none for a NaN, `⊥` and `⊤` for the infinities,
`±(1 + F/2^f)·2^{E-bias}` for a biased exponent `E ≥ 1` and `±F/2^f·2^{1-bias}` for
`E = 0`. -/
def floatValue (expBits fracBits bits : ℕ) : Option (WithBot (WithTop ℚ)) :=
  let negative := bits / 2 ^ (expBits + fracBits) % 2 == 1
  let biased := bits / 2 ^ fracBits % 2 ^ expBits
  let fraction := bits % 2 ^ fracBits
  let bias : ℤ := 2 ^ (expBits - 1) - 1
  if biased = 2 ^ expBits - 1 then
    if fraction = 0 then some (if negative then ⊥ else ⊤) else none
  else
    let magnitude : ℚ :=
      if biased = 0 then fraction / 2 ^ fracBits * 2 ^ (1 - bias)
      else (1 + fraction / 2 ^ fracBits) * 2 ^ ((biased : ℤ) - bias)
    some (((if negative then -magnitude else magnitude : ℚ) : WithTop ℚ) :
      WithBot (WithTop ℚ))

example :
    floatValue 8 23 0xC0400000 = some (((-3 : ℚ) : WithTop ℚ) : WithBot (WithTop ℚ)) := by
  norm_num [floatValue]

example : floatValue 8 23 0x7FC00000 = none := by decide

/-! ### The order key against the value -/

/-- The significand of the magnitude bits `m`, scaled to their exponent: the fraction `F` for a
zero biased exponent, `(2^f + F)·2^{E-1}` for a biased exponent `E ≥ 1`. A finite value is this
times `2^{1-bias-f}`. -/
def scaledSignificand (fracBits m : ℕ) : ℕ :=
  if m / 2 ^ fracBits = 0 then m % 2 ^ fracBits
  else (2 ^ fracBits + m % 2 ^ fracBits) * 2 ^ (m / 2 ^ fracBits - 1)

lemma scaledSignificand_lt (f m : ℕ) : scaledSignificand f m < 2 ^ f * 2 ^ (m / 2 ^ f) := by
  have hF := Nat.mod_lt m (show 0 < 2 ^ f by positivity)
  unfold scaledSignificand
  split_ifs with hE
  · rwa [hE, pow_zero, mul_one]
  · obtain ⟨k, hk⟩ := Nat.exists_eq_succ_of_ne_zero hE
    calc (2 ^ f + m % 2 ^ f) * 2 ^ (m / 2 ^ f - 1) < (2 ^ f + 2 ^ f) * 2 ^ k := by
          rw [hk, Nat.succ_sub_one]; exact Nat.mul_lt_mul_of_pos_right (by omega) (by positivity)
      _ = 2 ^ f * 2 ^ (m / 2 ^ f) := by rw [hk, pow_succ]; ring

lemma le_scaledSignificand {f m : ℕ} (hE : m / 2 ^ f ≠ 0) :
    2 ^ f * 2 ^ (m / 2 ^ f - 1) ≤ scaledSignificand f m := by
  rw [scaledSignificand, if_neg hE]
  exact Nat.mul_le_mul_right _ (Nat.le_add_right _ _)

/-- The scaled significand grows with the magnitude bits, from one binade into the next and from
the subnormals into the normals. -/
lemma scaledSignificand_strictMono (f : ℕ) : StrictMono (scaledSignificand f) := by
  intro m n hmn
  rcases (Nat.div_le_div_right (c := 2 ^ f) hmn.le).lt_or_eq with hE | hE
  · -- a larger exponent
    calc scaledSignificand f m < 2 ^ f * 2 ^ (m / 2 ^ f) := scaledSignificand_lt f m
      _ ≤ 2 ^ f * 2 ^ (n / 2 ^ f - 1) :=
          Nat.mul_le_mul_left _ (Nat.pow_le_pow_right two_pos (by omega))
      _ ≤ scaledSignificand f n := le_scaledSignificand ((Nat.zero_le _).trans_lt hE).ne'
  · -- the same exponent, a larger fraction
    have hF : m % 2 ^ f < n % 2 ^ f := by
      have hm := Nat.div_add_mod m (2 ^ f)
      have hn := Nat.div_add_mod n (2 ^ f)
      rw [hE] at hm
      generalize 2 ^ f * (n / 2 ^ f) = q at hm hn
      omega
    unfold scaledSignificand
    rw [hE]
    split_ifs
    · exact hF
    · exact Nat.mul_lt_mul_of_pos_right (by omega) (by positivity)

lemma scaledSignificand_mul_add (f E F : ℕ) (hF : F < 2 ^ f) :
    scaledSignificand f (2 ^ f * E + F) =
      if E = 0 then F else (2 ^ f + F) * 2 ^ (E - 1) := by
  rw [scaledSignificand, Nat.mul_add_div (by positivity), Nat.div_eq_of_lt hF, add_zero,
    Nat.mul_add_mod, Nat.mod_eq_of_lt hF]

/-- The magnitude `floatValue` computes is the scaled significand times `2^{1-bias-f}`. -/
lemma magnitude_eq (bias : ℤ) (f E F : ℕ) (hF : F < 2 ^ f) :
    (if E = 0 then (F : ℚ) / 2 ^ f * 2 ^ (1 - bias)
      else (1 + (F : ℚ) / 2 ^ f) * 2 ^ ((E : ℤ) - bias)) =
      scaledSignificand f (2 ^ f * E + F) * (2 : ℚ) ^ (1 - bias - f) := by
  have hscale : (2 : ℚ) ^ (1 - bias - f) = 2 ^ (1 - bias) / 2 ^ f := by
    rw [zpow_sub₀ two_ne_zero, zpow_natCast]
  rw [scaledSignificand_mul_add f E F hF, hscale]
  by_cases hE : E = 0
  · rw [if_pos hE, if_pos hE]; ring
  · rw [if_neg hE, if_neg hE]
    have hexp : (2 : ℚ) ^ ((E : ℤ) - bias) = 2 ^ (E - 1) * 2 ^ (1 - bias) := by
      rw [← zpow_natCast, ← zpow_add₀ two_ne_zero, Nat.cast_sub (Nat.one_le_iff_ne_zero.2 hE)]
      ring_nf
    have hone : 1 + (F : ℚ) / 2 ^ f = (2 ^ f + F) / 2 ^ f := by
      rw [add_div, div_self (by positivity)]
    rw [hexp, hone]; push_cast; ring

lemma scaledSignificand_zero (f : ℕ) : scaledSignificand f 0 = 0 := by
  simp [scaledSignificand]

/-- The magnitude bits of the infinities, an all-ones exponent over a zero fraction; the
magnitudes above are NaNs. -/
def infinityBits (expBits fracBits : ℕ) : ℕ := (2 ^ expBits - 1) * 2 ^ fracBits

lemma infinityBits_pos {e : ℕ} (he : 1 ≤ e) (f : ℕ) : 0 < infinityBits e f :=
  Nat.mul_pos (Nat.sub_pos_of_lt (Nat.one_lt_two_pow_iff.2 (by omega))) (by positivity)

/-- The scaled significand of an order key, negated below zero. -/
def signedSignificand (fracBits : ℕ) (k : ℤ) : ℤ :=
  if 0 ≤ k then scaledSignificand fracBits k.toNat
  else -(scaledSignificand fracBits (-k).toNat : ℤ)

lemma signedSignificand_natCast (f m : ℕ) : signedSignificand f m = scaledSignificand f m := by
  simp [signedSignificand]

lemma signedSignificand_neg_natCast (f m : ℕ) :
    signedSignificand f (-(m : ℤ)) = -(scaledSignificand f m : ℤ) := by
  rcases Nat.eq_zero_or_pos m with rfl | hm
  · simp [signedSignificand, scaledSignificand_zero]
  · simp [signedSignificand, show ¬0 ≤ -(m : ℤ) by omega]

lemma signedSignificand_strictMono (f : ℕ) : StrictMono (signedSignificand f) := by
  refine strictMono_int_of_lt_succ fun n => ?_
  have hG := scaledSignificand_strictMono f
  rcases lt_trichotomy n (-1) with hn | rfl | hn
  · have : (-(n + 1)).toNat < (-n).toNat := by omega
    simp only [signedSignificand, if_neg (show ¬0 ≤ n by omega),
      if_neg (show ¬0 ≤ n + 1 by omega)]
    exact Int.neg_lt_neg (Int.ofNat_lt.2 (hG this))
  · -- from `-1` to `0`
    have h1 := hG (show 0 < 1 by omega)
    rw [scaledSignificand_zero] at h1
    rw [show (-1 : ℤ) + 1 = ((0 : ℕ) : ℤ) from rfl, signedSignificand_natCast,
      scaledSignificand_zero, show (-1 : ℤ) = -((1 : ℕ) : ℤ) from rfl,
      signedSignificand_neg_natCast]
    omega
  · have : n.toNat < (n + 1).toNat := by omega
    simp only [signedSignificand, if_pos (show 0 ≤ n by omega),
      if_pos (show 0 ≤ n + 1 by omega)]
    exact Int.ofNat_lt.2 (hG this)

/-- The value an order key `floatKey` stands for. -/
def keyValue (expBits fracBits : ℕ) (k : ℤ) : WithBot (WithTop ℚ) :=
  let scale : ℚ := 2 ^ (1 - (2 ^ (expBits - 1) - 1 : ℤ) - fracBits)
  if k = infinityBits expBits fracBits then ⊤
  else if k = -(infinityBits expBits fracBits : ℤ) then ⊥
  else (((signedSignificand fracBits k * scale : ℚ) : WithTop ℚ) : WithBot (WithTop ℚ))

section KeyValue

variable {e : ℕ} (f : ℕ)

lemma keyValue_infinity : keyValue e f (infinityBits e f) = ⊤ := by
  simp [keyValue]

lemma keyValue_neg_infinity (he : 1 ≤ e) : keyValue e f (-(infinityBits e f : ℤ)) = ⊥ := by
  have := infinityBits_pos he f
  simp only [keyValue, if_neg (show -(infinityBits e f : ℤ) ≠ infinityBits e f by omega),
    if_true]

lemma keyValue_finite {k : ℤ} (h : k ≠ infinityBits e f)
    (h' : k ≠ -(infinityBits e f : ℤ)) :
    keyValue e f k = (((signedSignificand f k * (2 : ℚ) ^ (1 - (2 ^ (e - 1) - 1 : ℤ) - f) : ℚ)
      : WithTop ℚ) : WithBot (WithTop ℚ)) := by
  simp only [keyValue, if_neg h, if_neg h']

/-- Away from the NaNs, the order of the keys is the order of the values. -/
lemma keyValue_strictMonoOn (he : 1 ≤ e) :
    StrictMonoOn (keyValue e f) (Set.Icc (-(infinityBits e f : ℤ)) (infinityBits e f)) := by
  intro x ⟨hx, hx'⟩ y ⟨hy, hy'⟩ hxy
  have hI := infinityBits_pos he f
  by_cases hyI : y = infinityBits e f
  · -- `y` is `+∞`
    rw [hyI, keyValue_infinity]
    by_cases hxI : x = -(infinityBits e f : ℤ)
    · rw [hxI, keyValue_neg_infinity f he]; exact WithBot.bot_lt_coe _
    · rw [keyValue_finite f (by omega) hxI]; exact WithBot.coe_lt_coe.2 (WithTop.coe_lt_top _)
  by_cases hxI : x = -(infinityBits e f : ℤ)
  · -- `x` is `-∞`
    rw [hxI, keyValue_neg_infinity f he, keyValue_finite f hyI (by omega)]
    exact WithBot.bot_lt_coe _
  · -- both finite
    rw [keyValue_finite f (by omega) hxI, keyValue_finite f hyI (by omega)]
    refine WithBot.coe_lt_coe.2 (WithTop.coe_lt_coe.2 ?_)
    exact mul_lt_mul_of_pos_right (Int.cast_lt.2 (signedSignificand_strictMono f hxy))
      (zpow_pos two_pos _)

/-- The exponent and fraction fields of a pattern, read off its magnitude bits. -/
lemma fields_of_magnitude {bits : ℕ} :
    bits / 2 ^ f % 2 ^ e = bits % 2 ^ (e + f) / 2 ^ f ∧
      bits % 2 ^ f = bits % 2 ^ (e + f) % 2 ^ f :=
  ⟨by rw [pow_add, mul_comm, Nat.mod_mul_right_div_self],
    (Nat.mod_mod_of_dvd bits (pow_dvd_pow 2 (Nat.le_add_left f e))).symm⟩

/-- **The key is the value**: on the patterns of `1 + e + f` bits, `floatKey` is none exactly at
the NaNs, and elsewhere stands for the IEEE-754 value. -/
lemma floatValue_eq_map (he : 1 ≤ e) {bits : ℕ} (hbits : bits < 2 ^ (1 + e + f)) :
    floatValue e f bits = (floatKey e f bits).map (keyValue e f) := by
  have hI := infinityBits_pos he f
  have hs : bits / 2 ^ (e + f) = 0 ∨ bits / 2 ^ (e + f) = 1 := by
    have : bits / 2 ^ (e + f) < 2 :=
      Nat.div_lt_of_lt_mul (by rwa [add_assoc, pow_add, pow_one, mul_comm] at hbits)
    generalize bits / 2 ^ (e + f) = s at this ⊢
    omega
  obtain ⟨hbiased, hfraction⟩ := @fields_of_magnitude e f bits
  have hm : bits % 2 ^ (e + f) < 2 ^ (e + f) := Nat.mod_lt _ (by positivity)
  simp only [floatValue, floatKey, hbiased, hfraction]
  generalize bits % 2 ^ (e + f) = m at *
  have hdm := Nat.div_add_mod m (2 ^ f)
  rw [magnitude_eq _ f _ _ (Nat.mod_lt _ (by positivity)), hdm,
    show (2 ^ e - 1) * 2 ^ f = infinityBits e f from rfl]
  rcases lt_trichotomy m (infinityBits e f) with hlt | rfl | hgt
  · -- a finite value
    have hE : m / 2 ^ f ≠ 2 ^ e - 1 := ((Nat.div_lt_iff_lt_mul (by positivity)).2 hlt).ne
    rw [if_neg hE, if_neg hlt.not_lt]
    rcases hs with hs | hs <;> simp only [hs, Nat.reduceMod, Nat.reduceBEq, if_true, if_false,
      Bool.false_eq_true, Nat.one_ne_zero, Option.map_some']
    · rw [keyValue_finite f (by omega) (by omega), signedSignificand_natCast, Int.cast_natCast]
    · rw [keyValue_finite f (by omega) (by omega), signedSignificand_neg_natCast, Int.cast_neg,
        Int.cast_natCast, neg_mul]
  · -- an infinity
    have hE : infinityBits e f / 2 ^ f = 2 ^ e - 1 := Nat.mul_div_cancel _ (by positivity)
    have hF : infinityBits e f % 2 ^ f = 0 := Nat.mul_mod_left _ _
    rw [hE, hF, if_pos rfl, if_pos rfl, if_neg (lt_irrefl _)]
    rcases hs with hs | hs <;> simp only [hs, Nat.reduceMod, Nat.reduceBEq, if_true, if_false,
      Bool.false_eq_true, Nat.one_ne_zero, Option.map_some']
    · exact congrArg some (keyValue_infinity f).symm
    · exact congrArg some (keyValue_neg_infinity f he).symm
  · -- a NaN
    have hE : m / 2 ^ f = 2 ^ e - 1 := by
      have hle : 2 ^ e - 1 ≤ m / 2 ^ f := (Nat.le_div_iff_mul_le (by positivity)).2 hgt.le
      have hlt : m / 2 ^ f < 2 ^ e := Nat.div_lt_of_lt_mul (by rwa [← pow_add, add_comm])
      omega
    have hF : m % 2 ^ f ≠ 0 := fun h => by
      rw [hE, h, add_zero, mul_comm] at hdm
      exact hgt.ne hdm
    rw [if_pos hE, if_neg hF, if_pos hgt]
    rfl

lemma floatKey_mem {bits : ℕ} {k : ℤ} (h : floatKey e f bits = some k) :
    k ∈ Set.Icc (-(infinityBits e f : ℤ)) (infinityBits e f) := by
  simp only [floatKey] at h
  split_ifs at h with hnan <;> cases h <;>
  · have hle : ((bits % 2 ^ (e + f) : ℕ) : ℤ) ≤ infinityBits e f := by
      exact_mod_cast not_lt.1 hnan
    constructor <;> omega

/-- **`compare_value<T>` at `float` and `double`** orders two non-NaN patterns by their IEEE-754
values, `-0 = +0` and the infinities at the ends, and answers `+1` when a NaN is involved. -/
lemma compareFloatValue_ieee (he : 1 ≤ e) {a b : ℕ} (ha : a < 2 ^ (1 + e + f))
    (hb : b < 2 ^ (1 + e + f)) :
    compareFloatValue e f a b =
      match floatValue e f a, floatValue e f b with
      | some x, some y => (Sign.ofOrdering (compare x y)).toInt
      | _, _ => 1 := by
  rw [floatValue_eq_map f he ha, floatValue_eq_map f he hb, compareFloatValue]
  rcases hka : floatKey e f a with _ | x <;> rcases hkb : floatKey e f b with _ | y
  all_goals try rfl
  dsimp only [Option.map_some']
  rw [compareValue_eq, ← cmp_eq_compare, ← cmp_eq_compare,
    (keyValue_strictMonoOn f he).cmp_map_eq (floatKey_mem f hka) (floatKey_mem f hkb)]

end KeyValue

/-! ### `float` and `double` fields -/

namespace NumericField

variable {width : ℕ}

/-- The IEEE-754 value of a `float` or `double` field with `e` exponent and `f` fraction bits:
`⊥` for null, none for a NaN. -/
def ieeeValue (e f : ℕ) : NumericField width → Option (WithBot (WithBot (WithTop ℚ)))
  | null => some ⊥
  | value _ _ p _ => (floatValue e f (leValue p)).map (↑)

/-- The `float` or `double` fields that are not NaN: null, a number or an infinity. -/
abbrev NonNaN (width e f : ℕ) := {x : NumericField width // (x.ieeeValue e f).isSome}

/-- The IEEE-754 value of a field that is not NaN, `⊥` for null. -/
def NonNaN.ieee {e f : ℕ} (x : NonNaN width e f) : WithBot (WithBot (WithTop ℚ)) :=
  (x.1.ieeeValue e f).get x.2

end NumericField

/-- A payload of `width` bytes holds a pattern of `1 + e + f` bits. -/
lemma leValue_lt_ieee {width e f : ℕ} (hw : 256 ^ width = 2 ^ (1 + e + f)) {p : List UInt8}
    (hp : p.length = width) : leValue p < 2 ^ (1 + e + f) :=
  hw ▸ hp ▸ leValue_lt p

section Ieee

variable {width e f : ℕ} (he : 1 ≤ e) (hw : 256 ^ width = 2 ^ (1 + e + f)) (ra rb : List UInt8)
include he hw

lemma compareNumeric_ieee {x y : NumericField width} {u v : WithBot (WithBot (WithTop ℚ))}
    (hu : x.ieeeValue e f = some u) (hv : y.ieeeValue e f = some v) :
    (compareNumeric width (compareFloatValue e f) (x.encode ++ ra) (y.encode ++ rb)).result =
      (Sign.ofOrdering (compare u v)).toInt := by
  cases x with
  | null =>
      cases hu
      cases y with
      | null => cases hv; rw [compareNumeric_null_null]; rfl
      | value h hh p hp =>
          obtain ⟨w, -, rfl⟩ := Option.map_eq_some'.1 hv
          rw [compareNumeric_null_value _ _ _ hh hp,
            Sign.ofOrdering_compare_of_lt (WithBot.bot_lt_coe _)]; rfl
  | value h hh p hp =>
      obtain ⟨w, hfw, rfl⟩ := Option.map_eq_some'.1 hu
      cases y with
      | null =>
          cases hv
          rw [compareNumeric_value_null _ _ _ hh hp,
            Sign.ofOrdering_compare_of_gt (WithBot.bot_lt_coe _)]; rfl
      | value h' hh' p' hp' =>
          obtain ⟨w', hfw', rfl⟩ := Option.map_eq_some'.1 hv
          rw [compareNumeric_value_value _ _ _ hh hh' hp hp',
            compareFloatValue_ieee f he (leValue_lt_ieee hw hp) (leValue_lt_ieee hw hp'), hfw, hfw',
            compare_coe_withBot]

lemma ordersBy_ieee :
    OrdersBy (fun x : NumericField.NonNaN width e f => x.1.encode) NumericField.NonNaN.ieee
      (compareNumeric width (compareFloatValue e f)) :=
  .of_sign_eq fun x y ra rb => by
    rw [compareNumeric_ieee he hw ra rb (Option.some_get x.2).symm (Option.some_get y.2).symm,
      Sign.sign_toInt]
    rfl

end Ieee

/-- **`compare_float` and `compare_double`** order the fields that are not NaN as their IEEE-754
values, null first; hence on those fields each is antisymmetric and transitive. -/
theorem compareFloat_ieee_order :
    OrdersBy (fun x : NumericField.NonNaN 4 8 23 => x.1.encode) NumericField.NonNaN.ieee
        compareFloat ∧
      OrdersBy (fun x : NumericField.NonNaN 8 11 52 => x.1.encode) NumericField.NonNaN.ieee
        compareDouble :=
  ⟨ordersBy_ieee (by norm_num) (by norm_num), ordersBy_ieee (by norm_num) (by norm_num)⟩

end Asakusafw.Serde

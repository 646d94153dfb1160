import AsakusaNative.Math.PowerTable

/-!
# `compare_with_exponent`: `a <=> b * 10^exponent`

`mpdecimal.cpp`: the four overloads of `compare_with_exponent`, one for each pairing of
`uint64_t` and `MpInt` operands, and the bit-length pre-filter `predicate_product_bits` of the
`MpInt` one. The pre-filter is computed with a `double` product and `uint32_t` sums, which the
model keeps: `floorTimes33` rounds `exponent * 3.3` as binary64 does, and every `uint32_t`
quantity is taken modulo `2^32`.

* `floorTimes33_le`: the rounded product never exceeds `⌊33·e/10⌋` for a `uint32_t` exponent.
* `two_pow_le_pow_ten`, `pow_ten_lt_two_pow`: `2^⌊33e/10⌋ ≤ 10^e < 2^⌊(10e+2)/3⌋`, the
  bounds the comments of `predicate_product_bits` state.
* `compareWithExponentU64_eq`, `compareWithExponentU64Mp_eq`: the overloads with a `uint64_t`
  left operand are exact for every exponent.
* `predicateProductBits_fst_le`, `size_le_predicateProductBits_snd`: the range of
  `predicate_product_bits` holds the bit length of `b·10^e`; the lower end for every `uint32_t`
  exponent, the upper end while `e·10 + 2` and the sum stay within `uint32_t`.
* `predicateProductBits_wraps`: from `e = 429496730` on, `e·10 + 2` wraps, the upper end falls
  below the bit length of `b·10^e`, and the early `greater_than` can be wrong.
* `compareWithExponentMp_eq`, `compareWithExponentMpU64_eq`: the `MpInt` overloads are exact, and
  keep the table of powers, whenever the pre-filter's `uint32_t` arithmetic does not wrap
  (`PrefilterFits`).
-/

namespace Asakusafw.Math

open MpInt

/-! ### The `double` product `exponent * 3.3` -/

/-- The bit length of `n`, halving at most `fuel` times. -/
def bitLength : ℕ → ℕ → ℕ
  | 0, _ => 0
  | fuel + 1, n => if n = 0 then 0 else bitLength fuel (n / 2) + 1

/-- Rounding of a natural number to 53 significant bits, to nearest with ties to even: the
binary64 value nearest to `p` (for `p < 2^128`). -/
def roundBinary64 (p : ℕ) : ℕ :=
  let shift := bitLength 128 p - 53
  let q := p / 2 ^ shift
  let r := p % 2 ^ shift
  if shift = 0 then p
  else if 2 ^ (shift - 1) < r ∨ (r = 2 ^ (shift - 1) ∧ q % 2 = 1) then (q + 1) * 2 ^ shift
  else q * 2 ^ shift

/-- `std::floor(exponent * 3.3)`. The literal `3.3` is the double `7430939385161318 / 2^51`; the
`uint32_t` exponent converts exactly, and the product is rounded to binary64. -/
def floorTimes33 (exponent : ℕ) : ℕ :=
  roundBinary64 (exponent * 7430939385161318) / 2 ^ 51

example : floorTimes33 1 = 3 ∧ floorTimes33 10 = 33 ∧ floorTimes33 1301505241 = 4294967295 := by
  decide

lemma bitLength_eq_size : ∀ (fuel n : ℕ), n < 2 ^ fuel → bitLength fuel n = n.size
  | 0, n, h => by simp [Nat.lt_one_iff.1 h, bitLength]
  | fuel + 1, n, h => by
      by_cases hn : n = 0
      · simp [bitLength, hn]
      rw [bitLength, if_neg hn, bitLength_eq_size fuel (n / 2) (by rw [pow_succ] at h; omega)]
      rcases Nat.lt_or_ge n 2 with h2 | h2
      · simp [show n = 1 by omega]
      · have := size_div_two_pow (k := 1) (by simpa using h2)
        have := Nat.lt_size.2 (show 2 ^ 1 ≤ n by simpa using h2)
        simp only [pow_one] at *
        omega

/-- Rounding to 53 bits moves a number up by at most one unit in the last place, which is at
most `p / 2^52`. -/
lemma roundBinary64_le {p : ℕ} (hp : p < 2 ^ 128) : roundBinary64 p ≤ p + p / 2 ^ 52 := by
  unfold roundBinary64
  dsimp only
  rw [bitLength_eq_size 128 p hp]
  split_ifs with h0 hup
  · omega
  all_goals
    have hulp : 2 ^ (p.size - 53) * 2 ^ 52 ≤ p := by
      rw [← pow_add]; exact Nat.lt_size.1 (by omega)
    have hdiv := Nat.div_mul_le_self p (2 ^ (p.size - 53))
    have : 2 ^ (p.size - 53) ≤ p / 2 ^ 52 := (Nat.le_div_iff_mul_le (by positivity)).2 hulp
  · rw [add_mul, one_mul]; omega
  · omega

/-- **The `double` lower bound** never exceeds `⌊33·e/10⌋`: the double `3.3` lies below `33/10`
by more than the rounding of the product can add, for every `uint32_t` exponent. -/
lemma floorTimes33_le {e : ℕ} (he : e < 2 ^ 32) : floorTimes33 e ≤ 33 * e / 10 := by
  have hr := roundBinary64_le (p := e * 7430939385161318) (by omega)
  unfold floorTimes33
  rw [Nat.div_le_iff_le_mul_add_pred (by positivity)]
  omega

/-- `2^{3.3n} < 10^{n}`, the comment's lower bound, in integers. -/
lemma two_pow_le_pow_ten (e : ℕ) : 2 ^ (33 * e / 10) ≤ 10 ^ e := by
  rw [← Nat.pow_le_pow_iff_left (n := 10) (by norm_num)]
  calc (2 ^ (33 * e / 10)) ^ 10 = 2 ^ (10 * (33 * e / 10)) := by rw [← pow_mul, mul_comm]
    _ ≤ 2 ^ (33 * e) := Nat.pow_le_pow_right (by norm_num) (Nat.mul_div_le _ _)
    _ = (2 ^ 33) ^ e := pow_mul _ _ _
    _ ≤ (10 ^ 10) ^ e := Nat.pow_le_pow_left (by norm_num) _
    _ = (10 ^ e) ^ 10 := by rw [← pow_mul, ← pow_mul, mul_comm]

/-- `10^{n} < 2^{10n/3}`, the comment's upper bound, with the code's rounding `(10n + 2)/3`. -/
lemma pow_ten_lt_two_pow {e : ℕ} (he : 0 < e) : 10 ^ e < 2 ^ ((e * 10 + 2) / 3) := by
  rw [← Nat.pow_lt_pow_iff_left (n := 3) (by norm_num)]
  calc (10 ^ e) ^ 3 = 1000 ^ e := by rw [← pow_mul, mul_comm, pow_mul]; norm_num
    _ < 1024 ^ e := Nat.pow_lt_pow_left (by norm_num) he.ne'
    _ = 2 ^ (e * 10) := by rw [mul_comm, pow_mul]; norm_num
    _ ≤ 2 ^ ((e * 10 + 2) / 3 * 3) := Nat.pow_le_pow_right (by norm_num) (by omega)
    _ = (2 ^ ((e * 10 + 2) / 3)) ^ 3 := pow_mul _ _ _

lemma two_pow_lt_two_mul_ten_pow {m n : ℕ} (h : m < n) : 2 ^ m < 2 * 10 ^ n :=
  calc 2 ^ m < 2 ^ n := Nat.pow_lt_pow_right (by norm_num) h
    _ ≤ 10 ^ n := Nat.pow_le_pow_left (by norm_num) _
    _ ≤ 2 * 10 ^ n := Nat.le_mul_of_pos_left _ (by norm_num)

/-! ### The pre-filter -/

/-- `predicate_product_bits(significand, exponent)`: the range `[lo, hi]` of bit lengths that
`significand * 10^exponent` may have, in `uint32_t` arithmetic. The conversion of the `double`
to `uint32_t` is undefined above `2^32 - 1`; the model keeps the low 32 bits there, as the
x86-64 conversion through a 64-bit integer does. -/
def predicateProductBits (significand : MpInt) (exponent : ℕ) : ℕ × ℕ :=
  if significand.eqU64 0 then (0, 0)
  else
    let aBits := significand.bits % 2 ^ 32
    let bBitsMin := floorTimes33 exponent % 2 ^ 32
    let bBitsMax := ((exponent * 10 + 2) % 2 ^ 32) / 3
    ((aBits + bBitsMin + (2 ^ 32 - 1)) % 2 ^ 32, (aBits + bBitsMax) % 2 ^ 32)

/-! ### The four overloads -/

/-- `compare_with_exponent(uint64_t a, uint64_t b, uint32_t exponent)`. -/
def compareWithExponentU64 (a b : UInt64) (exponent : ℕ) : Sign :=
  if a = 0 ∨ b = 0 then compareValue a.toNat b.toNat
  else if exponent < sCompactExponents.length then
    let s := sCompactExponents.getD exponent 0
    let div := a / s
    let mod := a % s
    returnIfDifferent (compareValue div.toNat b.toNat) (compareValue mod.toNat 0)
  else .lessThan

/-- `compare_with_exponent(uint64_t a, const MpInt& b, uint32_t exponent)`. -/
def compareWithExponentU64Mp (a : UInt64) (b : MpInt) (exponent : ℕ) : Sign :=
  if a = 0 then (if b.eqU64 0 then .equalTo else .lessThan)
  else if b.eqU64 0 then .greaterThan
  else if exponent < sCompactExponents.length then
    let s := sCompactExponents.getD exponent 0
    let div := a / s
    let mod := a % s
    returnIfDifferent (b.compareToU64 div).negate (compareValue mod.toNat 0)
  else .lessThan

/-- `compare_with_exponent(const MpInt& a, const MpInt& b, uint32_t exponent)`, on the table of
powers of ten `table`; the second component is the table after the call. -/
def compareWithExponentMp (table : List MpInt) (a b : MpInt) (exponent : ℕ) :
    Sign × List MpInt :=
  if exponent = 0 then (a.compareTo b, table)
  else if a.eqU64 0 then ((if b.eqU64 0 then .equalTo else .lessThan), table)
  else if b.eqU64 0 then (.greaterThan, table)
  else
    let aBits := a.bits % 2 ^ 32
    let range := predicateProductBits b exponent
    if aBits < range.1 then (.lessThan, table)
    else if aBits > range.2 then (.greaterThan, table)
    else if exponent ≤ 9 then
      (a.compareTo (mulWord b (UInt32.ofNat (sCompactExponents.getD exponent 0).toNat)), table)
    else
      let power := powerOf10 table exponent
      (a.compareTo (mul b power.1), power.2)

/-- `compare_with_exponent(const MpInt& a, uint64_t b, uint32_t exponent)`. -/
def compareWithExponentMpU64 (table : List MpInt) (a : MpInt) (b : UInt64) (exponent : ℕ) :
    Sign × List MpInt :=
  if a.eqU64 0 then (compareValue 0 b.toNat, table)
  else if b = 0 then (.greaterThan, table)
  else compareWithExponentMp table a (ofUInt64 b) exponent

/-! ### The table of powers is a transparent cache -/

/-- `compare_with_exponent(const MpInt&, const MpInt&)` runs `power_of_10` at most once, and
answers the same on every table that keeps the invariant: the entry it reads is the canonical
`10^e` whatever calls came before. -/
lemma compareWithExponentMp_transparent (a b : MpInt) (e : ℕ) :
    Transparent (compareWithExponentMp · a b e) :=
  ⟨fun table => by
    simp only [compareWithExponentMp, apply_ite Prod.snd, apply_ite (TableStep table),
      tableStep_refl, tableStep_powerOf10, ite_self],
   fun ht ht' => by simp only [compareWithExponentMp, apply_ite Prod.fst, powerOf10_fst_eq ht ht']⟩

lemma compareWithExponentMpU64_transparent (a : MpInt) (b : UInt64) (e : ℕ) :
    Transparent (compareWithExponentMpU64 · a b e) :=
  ⟨fun table => by
    simp only [compareWithExponentMpU64, apply_ite Prod.snd, apply_ite (TableStep table),
      tableStep_refl, (compareWithExponentMp_transparent a (ofUInt64 b) e).step, ite_self],
   fun ht ht' => by
    simp only [compareWithExponentMpU64, apply_ite Prod.fst,
      (compareWithExponentMp_transparent a (ofUInt64 b) e).answer ht ht']⟩

/-! ### The `uint64_t` overloads -/

lemma eqU64_zero_iff {m : MpInt} (h : m.Canonical) : m.eqU64 0 = true ↔ m.val = 0 :=
  eqU64_iff h 0

lemma eqU64_zero_eq_false {m : MpInt} (h : m.Canonical) (hm : m.bits ≠ 0) : m.eqU64 0 = false := by
  rwa [Bool.eq_false_iff, ne_eq, eqU64_zero_iff h, ← Nat.size_eq_zero, ← bits_eq_size h]

/-- The shortcut `a <=> b·10^e` as `(a / 10^e <=> b)` then `(a % 10^e <=> 0)`. -/
lemma compare_div_mod (a b s : ℕ) (hs : 0 < s) :
    compare a (b * s) = (compare (a / s) b).then (compare (a % s) 0) := by
  have := @compare_add_mul s (a % s) (a / s) 0 b (Nat.mod_lt a hs) hs
  rwa [Nat.mod_add_div, zero_add, mul_comm] at this

/-- Past the `uint64_t` powers, a non-zero `b * 10^e` exceeds every `uint64_t`. -/
lemma uint64_lt_mul_pow_ten {a b e : ℕ} (ha : a < 2 ^ 64) (hb : b ≠ 0) (he : 20 ≤ e) :
    a < b * 10 ^ e :=
  calc a < 10 ^ 20 := by omega
    _ ≤ 10 ^ e := Nat.pow_le_pow_right (by norm_num) he
    _ ≤ b * 10 ^ e := Nat.le_mul_of_pos_left _ (Nat.pos_of_ne_zero hb)

theorem compareWithExponentU64_eq (a b : UInt64) (e : ℕ) :
    compareWithExponentU64 a b e = Sign.ofOrdering (compare a.toNat (b.toNat * 10 ^ e)) := by
  unfold compareWithExponentU64
  simp only [uint64_eq_zero_iff, compareValue_eq]
  split_ifs with h0 he
  · rcases h0 with h0 | h0 <;> rw [h0]
    · rcases Nat.eq_zero_or_pos b.toNat with hb | hb
      · simp [hb]
      · rw [Sign.ofOrdering_compare_of_lt hb, Sign.ofOrdering_compare_of_lt (by positivity)]
    · simp
  · have hs : (sCompactExponents.getD e 0).toNat = 10 ^ e := sCompactExponents_toNat e he
    simp only [UInt64.toNat_div, UInt64.toNat_mod, hs, returnIfDifferent_ofOrdering]
    rw [compare_div_mod _ _ _ (by positivity)]
  · exact (Sign.ofOrdering_compare_of_lt (uint64_lt_mul_pow_ten a.toNat_lt (by omega)
      (by simpa [sCompactExponents] using he))).symm

theorem compareWithExponentU64Mp_eq (a : UInt64) {b : MpInt} (hb : b.Canonical) (e : ℕ) :
    compareWithExponentU64Mp a b e = Sign.ofOrdering (compare a.toNat (b.val * 10 ^ e)) := by
  unfold compareWithExponentU64Mp
  simp only [uint64_eq_zero_iff, eqU64_zero_iff hb]
  split_ifs with ha hb0 hb0 he
  · rw [ha, hb0, zero_mul]; exact (Sign.ofOrdering_compare_of_eq rfl).symm
  · exact (Sign.ofOrdering_compare_of_lt (by rw [ha]; positivity)).symm
  · exact (Sign.ofOrdering_compare_of_gt (by rw [hb0, zero_mul]; omega)).symm
  · have hs : (sCompactExponents.getD e 0).toNat = 10 ^ e := sCompactExponents_toNat e he
    rw [compareToU64_eq hb, Sign.negate_ofOrdering_compare, compareValue_eq]
    simp only [UInt64.toNat_div, UInt64.toNat_mod, hs, returnIfDifferent_ofOrdering]
    rw [compare_div_mod _ _ _ (by positivity)]
  · exact (Sign.ofOrdering_compare_of_lt (uint64_lt_mul_pow_ten a.toNat_lt hb0
      (by simpa [sCompactExponents] using he))).symm

/-! ### The range of `predicate_product_bits` -/

lemma lt_of_size_lt {m n : ℕ} (h : m.size < n.size) : m < n :=
  lt_of_not_le fun h' => (Nat.size_le_size h').not_lt h

section Range

variable {b : MpInt} {e : ℕ} (hb : b.Canonical) (hb0 : b.val ≠ 0)
include hb hb0

/-- `b·10^e` has more than `bits(b) - 1 + ⌊33e/10⌋` bits. -/
lemma lt_size_mul_pow_ten : b.bits - 1 + 33 * e / 10 < (b.val * 10 ^ e).size :=
  Nat.lt_size.2 <| by
    rw [pow_add]; exact Nat.mul_le_mul (two_pow_bits_le_val hb hb0) (two_pow_le_pow_ten e)

/-- **The lower end** is at most the bit length of `b·10^e` for every `uint32_t` exponent: the
`double` product never exceeds `⌊33e/10⌋`, and a wrapped sum is only smaller. -/
lemma predicateProductBits_fst_le (hb32 : b.bits < 2 ^ 32) (he : e < 2 ^ 32) :
    (predicateProductBits b e).1 ≤ (b.val * 10 ^ e).size := by
  have hF := floorTimes33_le he
  have hbits : 0 < b.bits := by rw [bits_eq_size hb]; exact Nat.size_pos.2 (Nat.pos_of_ne_zero hb0)
  have hlo : (predicateProductBits b e).1 ≤ b.bits + 33 * e / 10 - 1 := by
    simp only [predicateProductBits, (eqU64_zero_iff hb).not.2 hb0, if_false, Bool.false_eq_true]
    rw [Nat.mod_eq_of_lt hb32]
    have := Nat.mod_le (floorTimes33 e) (2 ^ 32)
    rw [show b.bits + floorTimes33 e % 2 ^ 32 + (2 ^ 32 - 1) =
      b.bits + floorTimes33 e % 2 ^ 32 - 1 + 2 ^ 32 by omega, Nat.add_mod_right]
    exact (Nat.mod_le _ _).trans (by omega)
  have hsize := lt_size_mul_pow_ten hb hb0 (e := e)
  omega

/-- Below the lower end, `a < b·10^e`, for every `uint32_t` exponent. -/
lemma lt_of_bits_lt_fst {a : MpInt} (ha : a.Canonical) (hb32 : b.bits < 2 ^ 32) (he : e < 2 ^ 32)
    (h : a.bits < (predicateProductBits b e).1) : a.val < b.val * 10 ^ e := by
  have := predicateProductBits_fst_le hb hb0 hb32 he
  rw [bits_eq_size ha] at h
  exact lt_of_size_lt (by omega)

/-- **The upper end** is at least the bit length of `b·10^e`, as long as `e·10 + 2` and the sum
stay within `uint32_t`. -/
lemma size_le_predicateProductBits_snd (he : 0 < e) (hexp : e * 10 + 2 < 2 ^ 32)
    (hbits : b.bits + (e * 10 + 2) / 3 < 2 ^ 32) :
    (b.val * 10 ^ e).size ≤ (predicateProductBits b e).2 := by
  have hhi : (predicateProductBits b e).2 = b.bits + (e * 10 + 2) / 3 := by
    simp only [predicateProductBits, (eqU64_zero_iff hb).not.2 hb0, if_false, Bool.false_eq_true]
    rw [Nat.mod_eq_of_lt (by omega : b.bits < 2 ^ 32), Nat.mod_eq_of_lt hexp,
      Nat.mod_eq_of_lt hbits]
  rw [hhi, Nat.size_le, pow_add]
  exact Nat.mul_lt_mul'' (val_lt_two_pow_bits hb) (pow_ten_lt_two_pow he)

end Range

/-! ### Past `e = 429496729`: the upper end wraps -/

/-- At the gap `1301505241`, `⌊e·3.3⌋ = 2^32 - 1` still converts, but `bits(2) + 2^32 - 1 - 1`
wraps to `0` and `(e·10 + 2) / 3` to `43383508`: an `MpInt` of `43383511` bits passes the lower
end and exceeds the upper one. -/
lemma compareWithExponentMp_of_bits (table : List MpInt) {a : MpInt} (ha : a.Canonical)
    (hbits : a.bits = 43383511) :
    (compareWithExponentMp table a (ofUInt64 2) 1301505241).1 = .greaterThan := by
  have hb : (ofUInt64 2).eqU64 0 = false := by decide
  have hrange : predicateProductBits (ofUInt64 2) 1301505241 = (0, 43383510) := by decide
  simp [compareWithExponentMp, eqU64_zero_eq_false ha (by omega), hb, hbits, hrange]

/-- **The upper end wraps.** At `e = 429496730`, the first exponent at which `e·10 + 2` leaves
`uint32_t`, the upper end for `b = 1` is `bits(1) + 6/3 = 3`, below the bit length of `10^e`.
At `e = 1301505241` the early `greater_than` is wrong: for `b = 2` and the `MpInt` read from
`0x40` and `5422938` zero bytes, `2^43383510`, `compare_with_exponent` answers `greater_than`,
although `2^43383510 < 2·10^1301505241`. -/
theorem predicateProductBits_wraps (table : List MpInt) :
    (predicateProductBits (ofUInt64 1) 429496730).2 < ((ofUInt64 1).val * 10 ^ 429496730).size ∧
      (compareWithExponentMp table (ofBytes (64 :: List.replicate 5422938 0)) (ofUInt64 2)
          1301505241).1 = .greaterThan ∧
      (ofBytes (64 :: List.replicate 5422938 0)).val < (ofUInt64 2).val * 10 ^ 1301505241 := by
  have hval : (ofBytes (64 :: List.replicate 5422938 0)).val = 2 ^ 43383510 := by
    rw [val_ofBytes, beValue_sixtyFour_replicate]
  have hhi : (predicateProductBits (ofUInt64 1) 429496730).2 = 3 := by decide
  refine ⟨?_, compareWithExponentMp_of_bits table (canonical_ofBytes _)
    (by rw [bits_eq_size (canonical_ofBytes _), hval, Nat.size_pow]), ?_⟩
  · have := lt_size_mul_pow_ten (canonical_ofUInt64 1) (by decide) (e := 429496730)
    omega
  · rw [hval, val_ofUInt64, show (2 : UInt64).toNat = 2 from rfl]
    exact two_pow_lt_two_mul_ten_pow (by norm_num)

/-! ### The `MpInt` overloads -/

/-- The pre-filter's `uint32_t` arithmetic does not wrap for `a <=> b·10^exponent`. -/
structure PrefilterFits (a b : MpInt) (exponent : ℕ) : Prop where
  aBits_lt : a.bits < 2 ^ 32
  exponent_lt : exponent * 10 + 2 < 2 ^ 32
  bBits_lt : b.bits + (exponent * 10 + 2) / 3 < 2 ^ 32

section Prefilter

variable {a b : MpInt} {e : ℕ} (ha : a.Canonical) (hb : b.Canonical) (hb0 : b.val ≠ 0)
  (hfits : PrefilterFits a b e)
include ha hb hb0 hfits

/-- **The early `less_than`** is right: below the lower end, `a < b·10^e`. -/
lemma lt_of_bits_lt_lo (h : a.bits % 2 ^ 32 < (predicateProductBits b e).1) :
    a.val < b.val * 10 ^ e := by
  rw [Nat.mod_eq_of_lt hfits.aBits_lt] at h
  exact lt_of_bits_lt_fst hb hb0 ha (by have := hfits.bBits_lt; omega)
    (by have := hfits.exponent_lt; omega) h

/-- **The early `greater_than`** is right: above the upper end, `b·10^e < a`. -/
lemma gt_of_hi_lt_bits (he : 0 < e) (h : (predicateProductBits b e).2 < a.bits % 2 ^ 32) :
    b.val * 10 ^ e < a.val := by
  have hhi := size_le_predicateProductBits_snd hb hb0 he hfits.exponent_lt hfits.bBits_lt
  rw [Nat.mod_eq_of_lt hfits.aBits_lt, bits_eq_size ha] at h
  exact lt_of_size_lt (by omega)

end Prefilter

/-- Exponent gaps below `429496730` and significands below `2^(2^31)` keep the pre-filter's
arithmetic in range. -/
lemma prefilterFits_of_lt {a b : MpInt} {e : ℕ} (ha : a.bits < 2 ^ 31) (hb : b.bits < 2 ^ 31)
    (he : e < 429496730) : PrefilterFits a b e :=
  ⟨by omega, by omega, by omega⟩

/-- The 32-bit multiplier `s_compact_exponents[e]` of the fast path is `10^e` for `e ≤ 9`. -/
lemma toNat_compactMultiplier {e : ℕ} (h9 : e ≤ 9) :
    (UInt32.ofNat (sCompactExponents.getD e 0).toNat).toNat = 10 ^ e := by
  rw [toNat_uint32OfNat, sCompactExponents_toNat e (by omega)]
  exact Nat.mod_eq_of_lt ((Nat.pow_le_pow_right (by norm_num) h9).trans_lt (by norm_num))

/-- The entry `10^e` of the table has at most `(10 e + 2) / 3 + 1` bits. -/
lemma bits_powerOf10_le {table : List MpInt} (ht : TableInv table) (e : ℕ) :
    (powerOf10 table e).1.bits ≤ (e * 10 + 2) / 3 + 1 := by
  obtain ⟨-, -, -, hval, hcan⟩ := powerOf10_spec ht e
  rw [bits_eq_size hcan, hval, Nat.size_le]
  rcases Nat.eq_zero_or_pos e with rfl | he
  · norm_num
  · exact (pow_ten_lt_two_pow he).trans (Nat.pow_lt_pow_right (by norm_num) (by omega))

/-- The early returns on a zero exponent or a zero operand are `a <=> b·10^e`. -/
lemma compareWithExponentMp_of_zero (table : List MpInt) {a b : MpInt} (ha : a.Canonical)
    (hb : b.Canonical) {e : ℕ} (h : e = 0 ∨ a.val = 0 ∨ b.val = 0) :
    (compareWithExponentMp table a b e).1 = Sign.ofOrdering (compare a.val (b.val * 10 ^ e)) := by
  unfold compareWithExponentMp
  simp only [eqU64_zero_iff ha, eqU64_zero_iff hb]
  by_cases he : e = 0
  · rw [if_pos he, compareTo_eq ha hb, he, pow_zero, mul_one]
  rw [if_neg he]
  by_cases ha0 : a.val = 0
  · rw [if_pos ha0]
    by_cases hb0 : b.val = 0
    · rw [if_pos hb0, ha0, hb0, zero_mul]; exact (Sign.ofOrdering_compare_of_eq rfl).symm
    · rw [if_neg hb0, ha0]; exact (Sign.ofOrdering_compare_of_lt
        (Nat.mul_pos (Nat.pos_of_ne_zero hb0) (by positivity))).symm
  have hb0 : b.val = 0 := by tauto
  rw [if_neg ha0, if_pos hb0]
  exact (Sign.ofOrdering_compare_of_gt (by rw [hb0, zero_mul]; omega)).symm

/-- **What `compare_with_exponent(const MpInt&, const MpInt&)` can answer** when `b·10^e` fits in
`2^31` limbs: `a <=> b·10^e`, or the early `less_than` below the lower end of the pre-filter, or
the early `greater_than` above its upper end. -/
lemma compareWithExponentMp_cases {table : List MpInt} (ht : TableInv table) {a b : MpInt}
    (ha : a.Canonical) (hb : b.Canonical) (e : ℕ) (hsize : b.bits + (e * 10 + 2) / 3 < 2 ^ 36) :
    (compareWithExponentMp table a b e).1 = Sign.ofOrdering (compare a.val (b.val * 10 ^ e)) ∨
      b.val ≠ 0 ∧ 0 < e ∧ a.bits % 2 ^ 32 < (predicateProductBits b e).1 ∧
        (compareWithExponentMp table a b e).1 = .lessThan ∨
      b.val ≠ 0 ∧ 0 < e ∧ (predicateProductBits b e).2 < a.bits % 2 ^ 32 ∧
        (compareWithExponentMp table a b e).1 = .greaterThan := by
  by_cases h0 : e = 0 ∨ a.val = 0 ∨ b.val = 0
  · exact .inl (compareWithExponentMp_of_zero table ha hb h0)
  obtain ⟨he, ha0, hb0⟩ : e ≠ 0 ∧ a.val ≠ 0 ∧ b.val ≠ 0 := by tauto
  unfold compareWithExponentMp
  simp only [eqU64_zero_iff ha, eqU64_zero_iff hb]
  rw [if_neg he, if_neg ha0, if_neg hb0]
  split_ifs with hlo hhi h9
  · exact .inr (.inl ⟨hb0, Nat.pos_of_ne_zero he, hlo, rfl⟩)
  · exact .inr (.inr ⟨hb0, Nat.pos_of_ne_zero he, hhi, rfl⟩)
  · -- the 32-bit multiplier `10^e`, `e ≤ 9`
    exact .inl (by rw [compareTo_eq ha (canonical_mulWord hb _), val_mulWord hb,
      toNat_compactMultiplier h9])
  · -- the product with the table's `10^e`, of at most `2^31` limbs
    obtain ⟨-, -, -, hval, hcan⟩ := powerOf10_spec ht e
    have := bits_powerOf10_le ht e
    exact .inl (by rw [compareTo_eq ha (canonical_mul hb hcan), val_mul hb hcan (by omega), hval])

/-- **`compare_with_exponent(const MpInt&, const MpInt&)`** is `a <=> b·10^e` whenever the
pre-filter does not wrap; the table of powers keeps its invariant and its entries. -/
theorem compareWithExponentMp_eq {table : List MpInt} (ht : TableInv table) {a b : MpInt}
    (ha : a.Canonical) (hb : b.Canonical) {e : ℕ} (hfits : PrefilterFits a b e) :
    (compareWithExponentMp table a b e).1 = Sign.ofOrdering (compare a.val (b.val * 10 ^ e)) ∧
      TableInv (compareWithExponentMp table a b e).2 ∧
      table <+: (compareWithExponentMp table a b e).2 := by
  refine ⟨?_, ht.step ((compareWithExponentMp_transparent a b e).step table)⟩
  rcases compareWithExponentMp_cases ht ha hb e
      (by have := hfits.bBits_lt; have := hfits.exponent_lt; omega) with
    h | ⟨hb0, -, hlo, h⟩ | ⟨hb0, he, hhi, h⟩
  · exact h
  · rw [h]; exact (Sign.ofOrdering_compare_of_lt (lt_of_bits_lt_lo ha hb hb0 hfits hlo)).symm
  · rw [h]; exact (Sign.ofOrdering_compare_of_gt (gt_of_hi_lt_bits ha hb hb0 hfits he hhi)).symm

/-- **Only the early `greater_than` can be wrong.** For every `uint32_t` exponent and operands
of fewer than `2^32` bits, whatever `compare_with_exponent(const MpInt&, const MpInt&)` answers
other than `greater_than` is `a <=> b·10^e`: the lower end of the pre-filter holds for every
exponent, and only the upper end wraps. -/
theorem compareWithExponentMp_exact_unless_greater {table : List MpInt} (ht : TableInv table)
    {a b : MpInt} (ha : a.Canonical) (hb : b.Canonical) {e : ℕ} (he : e < 2 ^ 32)
    (ha32 : a.bits < 2 ^ 32) (hb32 : b.bits < 2 ^ 32)
    (hne : (compareWithExponentMp table a b e).1 ≠ .greaterThan) :
    (compareWithExponentMp table a b e).1 = Sign.ofOrdering (compare a.val (b.val * 10 ^ e)) := by
  rcases compareWithExponentMp_cases ht ha hb e (by omega) with h | ⟨hb0, -, hlo, h⟩ | ⟨-, -, -, h⟩
  · exact h
  · rw [Nat.mod_eq_of_lt ha32] at hlo
    rw [h]; exact (Sign.ofOrdering_compare_of_lt (lt_of_bits_lt_fst hb hb0 ha hb32 he hlo)).symm
  · exact absurd h hne

/-- `1 <=> 1·10^5` on a fresh table: the early `less_than`, which is right. -/
theorem compareWithExponentMp_one_pow_five :
    (compareWithExponentMp [] (ofUInt64 1) (ofUInt64 1) 5).1 =
      Sign.ofOrdering (compare (ofUInt64 1).val ((ofUInt64 1).val * 10 ^ 5)) :=
  compareWithExponentMp_exact_unless_greater tableInv_nil (canonical_ofUInt64 1)
    (canonical_ofUInt64 1) (by norm_num) (by decide) (by decide) (by decide)

/-- **`compare_with_exponent(const MpInt&, uint64_t)`**, through `MpInt(b)`. -/
theorem compareWithExponentMpU64_eq {table : List MpInt} (ht : TableInv table) {a : MpInt}
    (ha : a.Canonical) (b : UInt64) {e : ℕ} (hfits : PrefilterFits a (ofUInt64 b) e) :
    (compareWithExponentMpU64 table a b e).1 =
        Sign.ofOrdering (compare a.val (b.toNat * 10 ^ e)) ∧
      TableInv (compareWithExponentMpU64 table a b e).2 ∧
      table <+: (compareWithExponentMpU64 table a b e).2 := by
  unfold compareWithExponentMpU64
  simp only [eqU64_zero_iff ha, uint64_eq_zero_iff]
  split_ifs with ha0 hb0
  all_goals try refine ⟨?_, ht, List.prefix_refl _⟩
  · rw [ha0, compareValue_eq]
    rcases Nat.eq_zero_or_pos b.toNat with hb | hb
    · simp [hb]
    · rw [Sign.ofOrdering_compare_of_lt hb, Sign.ofOrdering_compare_of_lt (by positivity)]
  · exact (Sign.ofOrdering_compare_of_gt (by rw [hb0, zero_mul]; omega)).symm
  · simpa using compareWithExponentMp_eq ht ha (canonical_ofUInt64 b) hfits

/-! ### The specialised paths -/

/-- For `e ≤ 9` the product by the compact multiplier `s_compact_exponents[e]` is the product by
the table's `10^e`, limb for limb, for `b` of fewer than `2^31` limbs. -/
lemma mulWord_compactMultiplier {table : List MpInt} (ht : TableInv table) {b : MpInt}
    (hb : b.Canonical) (hb31 : b.members.length < 2 ^ 31) {e : ℕ} (h9 : e ≤ 9) :
    mulWord b (UInt32.ofNat (sCompactExponents.getD e 0).toNat) = mul b (powerOf10 table e).1 := by
  obtain ⟨-, -, -, hval, hcan⟩ := powerOf10_spec ht e
  have hlb := length_eq_of_canonical hb
  have := bits_powerOf10_le ht e
  exact eq_of_val_eq (canonical_mulWord hb _) (canonical_mul hb hcan)
    (by rw [val_mulWord hb, toNat_compactMultiplier h9, val_mul hb hcan (by omega), hval])

/-- `compare_with_exponent(const MpInt&, uint64_t)` answers as the general overload on `MpInt(b)`
for every exponent: its own tests for zero answer as the general one's. -/
lemma compareWithExponentMpU64_fst (table : List MpInt) {a : MpInt} (ha : a.Canonical) (b : UInt64)
    (e : ℕ) :
    (compareWithExponentMpU64 table a b e).1 =
      (compareWithExponentMp table a (ofUInt64 b) e).1 := by
  have hb := canonical_ofUInt64 b
  unfold compareWithExponentMpU64
  simp only [eqU64_zero_iff ha, uint64_eq_zero_iff]
  split_ifs with ha0 hb0
  · -- `a = 0`: the sign of `0 <=> b`, which is that of `0 <=> b·10^e`
    rw [compareWithExponentMp_of_zero table ha hb (.inr (.inl ha0)), ha0, val_ofUInt64,
      compareValue_eq]
    rcases Nat.eq_zero_or_pos b.toNat with hb' | hb'
    · simp [hb']
    · rw [Sign.ofOrdering_compare_of_lt hb', Sign.ofOrdering_compare_of_lt (by positivity)]
  · -- `b = 0`: `greater_than`
    rw [compareWithExponentMp_of_zero table ha hb (.inr (.inr (by rw [val_ofUInt64, hb0]))),
      val_ofUInt64, hb0, zero_mul]
    exact (Sign.ofOrdering_compare_of_gt (Nat.pos_of_ne_zero ha0)).symm
  · rfl

/-- Where neither early return of the pre-filter fires and `b·10^e` fits in `2^31` limbs, the
general overload is `a <=> b·10^e`, whether or not the pre-filter's arithmetic wrapped. -/
lemma compareWithExponentMp_of_passes {table : List MpInt} (ht : TableInv table) {a b : MpInt}
    (ha : a.Canonical) (hb : b.Canonical) {e : ℕ} (hsize : b.bits + (e * 10 + 2) / 3 < 2 ^ 36)
    (hlo : ¬a.bits % 2 ^ 32 < (predicateProductBits b e).1)
    (hhi : ¬(predicateProductBits b e).2 < a.bits % 2 ^ 32) :
    (compareWithExponentMp table a b e).1 = Sign.ofOrdering (compare a.val (b.val * 10 ^ e)) := by
  rcases compareWithExponentMp_cases ht ha hb e hsize with h | ⟨-, -, h, -⟩ | ⟨-, -, h, -⟩
  exacts [h, absurd h hlo, absurd h hhi]

lemma bits_ofUInt64_le (v : UInt64) : (ofUInt64 v).bits ≤ 64 := by
  rw [bits_eq_size (canonical_ofUInt64 v), val_ofUInt64]
  exact Nat.size_le.2 v.toNat_lt

end Asakusafw.Math

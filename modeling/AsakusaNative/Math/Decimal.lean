import Mathlib.Algebra.Order.Field.Power
import Mathlib.Algebra.Order.Field.Rat
import AsakusaNative.Math.CompareWithExponent

/-!
# Decimals and their comparison

`mpdecimal.hpp`, `mpdecimal.cpp`: `CompactDecimal` (a `uint64_t` significand) and `MpDecimal`
(an `MpInt` significand), each with an `int32_t` exponent, denoting `significand · 10^exponent`;
their four `compare_to` pairings, and the `compare_decimal` entry points on byte strings and
`uint64_t` significands. The calls that reach `power_of_10` thread its table.

* `decimalSign`: the specification, the sign of `s₁·10^{e₁} - s₂·10^{e₂}` over `ℚ`;
  `decimalSign_of_lt` reduces it to `s₁ <=> s₂·10^{e₂-e₁}`.
* `CompactDecimal.compareTo_eq`, `compareDecimalU64_eq`: the `uint64_t` paths are exact for all
  exponents.
* `compareDecimal_eq_of_gap`: every entry point is exact, and keeps the table of powers,
  whenever the exponents differ by less than `429496730` and every `MpInt` significand has fewer
  than `2^31` bits.
* `compareDecimal_prefilter_wraps`: beyond that gap the `uint32_t` pre-filter wraps, and
  `compare_decimal` answers `greater_than` for a decimal that is smaller.
-/

namespace Asakusafw.Math

open MpInt

/-! ### `int32_t` exponents -/

/-- An `int32_t`. -/
structure Int32 where
  val : ℤ
  range : -2 ^ 31 ≤ val ∧ val < 2 ^ 31

/-- Truncation to `int32_t`: two's complement wrap-around. -/
def Int32.ofInt (z : ℤ) : Int32 :=
  ⟨(z + 2 ^ 31) % 2 ^ 32 - 2 ^ 31, by omega⟩

lemma Int32.val_ofInt {z : ℤ} (h : -2 ^ 31 ≤ z ∧ z < 2 ^ 31) : (Int32.ofInt z).val = z := by
  simp only [Int32.ofInt]; omega

/-- `-x` on an `int32_t` is exact except at `INT32_MIN`, which it leaves in place. -/
lemma Int32.val_ofInt_neg (x : Int32) :
    (Int32.ofInt (-x.val)).val = if x.val = -2 ^ 31 then -2 ^ 31 else -x.val := by
  have := x.range
  simp only [Int32.ofInt]; split_ifs <;> omega

/-- `static_cast<uint32_t>(b - a)`: the gap between two exponents, as a `uint32_t`. -/
def exponentGap (a b : Int32) : ℕ := ((b.val - a.val) % 2 ^ 32).toNat

lemma exponentGap_eq {a b : Int32} (h : a.val < b.val) :
    exponentGap a b = (b.val - a.val).toNat := by
  have := a.range; have := b.range
  rw [exponentGap, Int.emod_eq_of_lt (by omega) (by omega)]

/-! ### The specification -/

/-- The order of `s₁·10^{e₁}` and `s₂·10^{e₂}` as rational numbers. -/
def decimalSign (s₁ : ℕ) (e₁ : ℤ) (s₂ : ℕ) (e₂ : ℤ) : Sign :=
  Sign.ofOrdering (compare ((s₁ : ℚ) * 10 ^ e₁) ((s₂ : ℚ) * 10 ^ e₂))

/-- Dividing both sides by `10^{e₁}`: the comparison `compare_with_exponent` performs. -/
lemma decimalSign_of_lt {s₁ s₂ : ℕ} {e₁ e₂ : ℤ} (h : e₁ < e₂) :
    decimalSign s₁ e₁ s₂ e₂ =
      Sign.ofOrdering (compare s₁ (s₂ * 10 ^ (e₂ - e₁).toNat)) := by
  have hd : ((e₂ - e₁).toNat : ℤ) = e₂ - e₁ := Int.toNat_of_nonneg (by omega)
  have hscale :
      (s₂ : ℚ) * 10 ^ e₂ = ((s₂ * 10 ^ (e₂ - e₁).toNat : ℕ) : ℚ) * 10 ^ e₁ := by
    push_cast
    rw [mul_assoc, ← zpow_natCast, hd, ← zpow_add₀ (by norm_num), sub_add_cancel]
  rw [decimalSign, hscale,
    Sign.compare_strictMono (f := fun x : ℚ => x * 10 ^ e₁)
      (strictMono_mul_right_of_pos (by positivity)),
    Sign.compare_strictMono (f := fun x : ℕ => (x : ℚ)) Nat.strictMono_cast]

lemma decimalSign_of_eq (s₁ s₂ : ℕ) (e : ℤ) :
    decimalSign s₁ e s₂ e = Sign.ofOrdering (compare s₁ s₂) := by
  rw [decimalSign, Sign.compare_strictMono (f := fun x : ℚ => x * 10 ^ e)
    (strictMono_mul_right_of_pos (by positivity)),
    Sign.compare_strictMono (f := fun x : ℕ => (x : ℚ)) Nat.strictMono_cast]

lemma decimalSign_swap (s₁ : ℕ) (e₁ : ℤ) (s₂ : ℕ) (e₂ : ℤ) :
    decimalSign s₁ e₁ s₂ e₂ = (decimalSign s₂ e₂ s₁ e₁).negate := by
  rw [decimalSign, decimalSign, Sign.negate_ofOrdering_compare]

/-! ### The two decimal classes -/

/-- `CompactDecimal`. -/
structure CompactDecimal where
  significand : UInt64
  exponent : Int32

/-- `MpDecimal`; its significand is canonical, as every `MpInt` the library builds. -/
structure MpDecimal where
  significand : MpInt
  exponent : Int32
  canonical : significand.Canonical

/-- `CompactDecimal::compare_to(const CompactDecimal&)`. -/
def CompactDecimal.compareTo (a b : CompactDecimal) : Sign :=
  if a.exponent.val = b.exponent.val then compareValue a.significand.toNat b.significand.toNat
  else if a.exponent.val < b.exponent.val then
    compareWithExponentU64 a.significand b.significand (exponentGap a.exponent b.exponent)
  else
    (compareWithExponentU64 b.significand a.significand
      (exponentGap b.exponent a.exponent)).negate

/-- `MpDecimal::compare_to(const CompactDecimal&)`, on the table of powers `table`. -/
def MpDecimal.compareToCompact (table : List MpInt) (a : MpDecimal) (b : CompactDecimal) :
    Sign × List MpInt :=
  if a.exponent.val = b.exponent.val then (a.significand.compareToU64 b.significand, table)
  else if a.exponent.val < b.exponent.val then
    compareWithExponentMpU64 table a.significand b.significand (exponentGap a.exponent b.exponent)
  else
    ((compareWithExponentU64Mp b.significand a.significand
      (exponentGap b.exponent a.exponent)).negate, table)

/-- `MpDecimal::compare_to(const MpDecimal&)`. -/
def MpDecimal.compareTo (table : List MpInt) (a b : MpDecimal) : Sign × List MpInt :=
  if a.exponent.val = b.exponent.val then (a.significand.compareTo b.significand, table)
  else if a.exponent.val < b.exponent.val then
    compareWithExponentMp table a.significand b.significand (exponentGap a.exponent b.exponent)
  else
    let r := compareWithExponentMp table b.significand a.significand
      (exponentGap b.exponent a.exponent)
    (r.1.negate, r.2)

/-- `CompactDecimal::compare_to(const MpDecimal&)`. -/
def CompactDecimal.compareToMp (table : List MpInt) (a : CompactDecimal) (b : MpDecimal) :
    Sign × List MpInt :=
  let r := b.compareToCompact table a
  (r.1.negate, r.2)

/-! ### Correctness of `compare_to` -/

lemma bits_ofUInt64_lt (v : UInt64) : (ofUInt64 v).bits < 2 ^ 31 := by
  rw [bits_eq_size (canonical_ofUInt64 v), val_ofUInt64]
  exact (Nat.size_le.2 v.toNat_lt).trans_lt (by norm_num)

/-- **`CompactDecimal::compare_to(const CompactDecimal&)`** is exact for all exponents. -/
theorem CompactDecimal.compareTo_eq (a b : CompactDecimal) :
    a.compareTo b = decimalSign a.significand.toNat a.exponent.val b.significand.toNat
      b.exponent.val := by
  unfold compareTo
  split_ifs with heq hlt
  · rw [compareValue_eq, heq, decimalSign_of_eq]
  · rw [compareWithExponentU64_eq, exponentGap_eq hlt, decimalSign_of_lt hlt]
  · rw [compareWithExponentU64_eq, exponentGap_eq (by omega), decimalSign_swap,
      decimalSign_of_lt (by omega)]

section Gap

variable {table : List MpInt} (ht : TableInv table)
include ht

/-- **`MpDecimal::compare_to(const CompactDecimal&)`** is exact when the pre-filter fits. -/
theorem MpDecimal.compareToCompact_eq (a : MpDecimal) (b : CompactDecimal)
    (hgap : |a.exponent.val - b.exponent.val| < 429496730) (ha : a.significand.bits < 2 ^ 31) :
    (a.compareToCompact table b).1 =
        decimalSign a.significand.val a.exponent.val b.significand.toNat b.exponent.val ∧
      TableInv (a.compareToCompact table b).2 ∧ table <+: (a.compareToCompact table b).2 := by
  obtain ⟨hgap₁, hgap₂⟩ := abs_sub_lt_iff.1 hgap
  unfold compareToCompact
  split_ifs with heq hlt
  · exact ⟨by rw [compareToU64_eq a.canonical, heq, decimalSign_of_eq], ht, List.prefix_refl _⟩
  · rw [decimalSign_of_lt hlt, ← exponentGap_eq hlt]
    exact compareWithExponentMpU64_eq ht a.canonical _
      (prefilterFits_of_lt ha (bits_ofUInt64_lt _) (by rw [exponentGap_eq hlt]; omega))
  · refine ⟨?_, ht, List.prefix_refl _⟩
    rw [compareWithExponentU64Mp_eq _ a.canonical, exponentGap_eq (by omega), decimalSign_swap,
      decimalSign_of_lt (by omega)]

/-- **`MpDecimal::compare_to(const MpDecimal&)`** is exact when the pre-filter fits. -/
theorem MpDecimal.compareTo_eq (a b : MpDecimal)
    (hgap : |a.exponent.val - b.exponent.val| < 429496730) (ha : a.significand.bits < 2 ^ 31)
    (hb : b.significand.bits < 2 ^ 31) :
    (a.compareTo table b).1 =
        decimalSign a.significand.val a.exponent.val b.significand.val b.exponent.val ∧
      TableInv (a.compareTo table b).2 ∧ table <+: (a.compareTo table b).2 := by
  obtain ⟨hgap₁, hgap₂⟩ := abs_sub_lt_iff.1 hgap
  unfold compareTo
  split_ifs with heq hlt
  · exact ⟨by rw [MpInt.compareTo_eq a.canonical b.canonical, heq, decimalSign_of_eq], ht,
      List.prefix_refl _⟩
  · rw [decimalSign_of_lt hlt, ← exponentGap_eq hlt]
    exact compareWithExponentMp_eq ht a.canonical b.canonical
      (prefilterFits_of_lt ha hb (by rw [exponentGap_eq hlt]; omega))
  · obtain ⟨h1, h2, h3⟩ := compareWithExponentMp_eq ht b.canonical a.canonical
      (e := exponentGap b.exponent a.exponent)
      (prefilterFits_of_lt hb ha (by rw [exponentGap_eq (by omega)]; omega))
    refine ⟨?_, h2, h3⟩
    dsimp only
    rw [h1, exponentGap_eq (by omega), decimalSign_swap, decimalSign_of_lt (by omega)]

/-- **`CompactDecimal::compare_to(const MpDecimal&)`** is exact when the pre-filter fits. -/
theorem CompactDecimal.compareToMp_eq (a : CompactDecimal) (b : MpDecimal)
    (hgap : |a.exponent.val - b.exponent.val| < 429496730) (hb : b.significand.bits < 2 ^ 31) :
    (a.compareToMp table b).1 =
        decimalSign a.significand.toNat a.exponent.val b.significand.val b.exponent.val ∧
      TableInv (a.compareToMp table b).2 ∧ table <+: (a.compareToMp table b).2 := by
  obtain ⟨h1, h2, h3⟩ := b.compareToCompact_eq ht a (by rwa [abs_sub_comm]) hb
  exact ⟨by dsimp only [compareToMp]; rw [h1, decimalSign_swap, Sign.negate_negate], h2, h3⟩

end Gap

/-! ### The entry points -/

/-- `compare_decimal(a_buf, a_length, a_exponent, b_buf, b_length, b_exponent)`. -/
def compareDecimalBytes (table : List MpInt) (aBuf : List UInt8) (aExponent : Int32)
    (bBuf : List UInt8) (bExponent : Int32) : Sign × List MpInt :=
  MpDecimal.compareTo table ⟨ofBytes aBuf, aExponent, canonical_ofBytes aBuf⟩
    ⟨ofBytes bBuf, bExponent, canonical_ofBytes bBuf⟩

/-- `compare_decimal(a_buf, a_length, a_exponent, b_significand, b_exponent)`. -/
def compareDecimalBytesU64 (table : List MpInt) (aBuf : List UInt8) (aExponent : Int32)
    (bSignificand : UInt64) (bExponent : Int32) : Sign × List MpInt :=
  MpDecimal.compareToCompact table ⟨ofBytes aBuf, aExponent, canonical_ofBytes aBuf⟩
    ⟨bSignificand, bExponent⟩

/-- The inline `compare_decimal(a_significand, a_exponent, b_buf, b_length, b_exponent)`. -/
def compareDecimalU64Bytes (table : List MpInt) (aSignificand : UInt64) (aExponent : Int32)
    (bBuf : List UInt8) (bExponent : Int32) : Sign × List MpInt :=
  let r := compareDecimalBytesU64 table bBuf bExponent aSignificand aExponent
  (r.1.negate, r.2)

/-- `compare_decimal(a_significand, a_exponent, b_significand, b_exponent)`. -/
def compareDecimalU64 (aSignificand : UInt64) (aExponent : Int32) (bSignificand : UInt64)
    (bExponent : Int32) : Sign :=
  if aExponent.val = bExponent.val then compareValue aSignificand.toNat bSignificand.toNat
  else CompactDecimal.compareTo ⟨aSignificand, aExponent⟩ ⟨bSignificand, bExponent⟩

/-! ### The table of powers is a transparent cache -/

lemma MpDecimal.compareToCompact_transparent (a : MpDecimal) (b : CompactDecimal) :
    Transparent (MpDecimal.compareToCompact · a b) :=
  ⟨fun table => by
    simp only [MpDecimal.compareToCompact, apply_ite Prod.snd, apply_ite (TableStep table),
      tableStep_refl, (compareWithExponentMpU64_transparent _ _ _).step, ite_self],
   fun ht ht' => by
    simp only [MpDecimal.compareToCompact, apply_ite Prod.fst,
      (compareWithExponentMpU64_transparent _ _ _).answer ht ht']⟩

lemma MpDecimal.compareTo_transparent (a b : MpDecimal) :
    Transparent (MpDecimal.compareTo · a b) :=
  ⟨fun table => by
    simp only [MpDecimal.compareTo, apply_ite Prod.snd, apply_ite (TableStep table),
      tableStep_refl, (compareWithExponentMp_transparent _ _ _).step, ite_self],
   fun ht ht' => by
    simp only [MpDecimal.compareTo, apply_ite Prod.fst,
      (compareWithExponentMp_transparent _ _ _).answer ht ht']⟩

lemma CompactDecimal.compareToMp_transparent (a : CompactDecimal) (b : MpDecimal) :
    Transparent (a.compareToMp · b) :=
  ⟨fun table => (b.compareToCompact_transparent a).step table,
   fun ht ht' => by
    simp only [CompactDecimal.compareToMp, (b.compareToCompact_transparent a).answer ht ht']⟩

lemma compareDecimalBytes_transparent (aBuf : List UInt8) (aExponent : Int32)
    (bBuf : List UInt8) (bExponent : Int32) :
    Transparent (compareDecimalBytes · aBuf aExponent bBuf bExponent) :=
  MpDecimal.compareTo_transparent _ _

lemma compareDecimalBytesU64_transparent (aBuf : List UInt8) (aExponent : Int32)
    (bSignificand : UInt64) (bExponent : Int32) :
    Transparent (compareDecimalBytesU64 · aBuf aExponent bSignificand bExponent) :=
  MpDecimal.compareToCompact_transparent _ _

lemma compareDecimalU64Bytes_transparent (aSignificand : UInt64) (aExponent : Int32)
    (bBuf : List UInt8) (bExponent : Int32) :
    Transparent (compareDecimalU64Bytes · aSignificand aExponent bBuf bExponent) :=
  ⟨fun table => (compareDecimalBytesU64_transparent _ _ _ _).step table,
   fun ht ht' => by
    simp only [compareDecimalU64Bytes, (compareDecimalBytesU64_transparent _ _ _ _).answer ht ht']⟩

/-! ### Correctness of the entry points -/

lemma bits_ofBytes_le (buf : List UInt8) : (ofBytes buf).bits ≤ 8 * buf.length := by
  rw [bits_eq_size (canonical_ofBytes buf), val_ofBytes]
  exact Nat.size_le.2 ((beValue_lt buf).trans_le (le_of_eq (by rw [pow_mul]; norm_num)))

/-- **The `uint64_t` entry point** is exact for all exponents. -/
theorem compareDecimalU64_eq (a : UInt64) (aExponent : Int32) (b : UInt64) (bExponent : Int32) :
    compareDecimalU64 a aExponent b bExponent =
      decimalSign a.toNat aExponent.val b.toNat bExponent.val := by
  unfold compareDecimalU64
  split_ifs with h
  · rw [compareValue_eq, h, decimalSign_of_eq]
  · exact CompactDecimal.compareTo_eq _ _

/-- **The entry points on byte strings** are exact, and keep the table of powers, whenever the
exponents differ by less than `429496730` and the byte strings are shorter than `2^28` bytes. -/
theorem compareDecimal_eq_of_gap {table : List MpInt} (ht : TableInv table)
    (aExponent bExponent : Int32) (hgap : |aExponent.val - bExponent.val| < 429496730) :
    (∀ aBuf bBuf : List UInt8, aBuf.length < 2 ^ 28 → bBuf.length < 2 ^ 28 →
        (compareDecimalBytes table aBuf aExponent bBuf bExponent).1 =
            decimalSign (beValue aBuf) aExponent.val (beValue bBuf) bExponent.val ∧
          TableInv (compareDecimalBytes table aBuf aExponent bBuf bExponent).2) ∧
      (∀ (aBuf : List UInt8) (b : UInt64), aBuf.length < 2 ^ 28 →
        (compareDecimalBytesU64 table aBuf aExponent b bExponent).1 =
            decimalSign (beValue aBuf) aExponent.val b.toNat bExponent.val ∧
          TableInv (compareDecimalBytesU64 table aBuf aExponent b bExponent).2) ∧
      (∀ (a : UInt64) (bBuf : List UInt8), bBuf.length < 2 ^ 28 →
        (compareDecimalU64Bytes table a aExponent bBuf bExponent).1 =
            decimalSign a.toNat aExponent.val (beValue bBuf) bExponent.val ∧
          TableInv (compareDecimalU64Bytes table a aExponent bBuf bExponent).2) := by
  have hbits : ∀ buf : List UInt8, buf.length < 2 ^ 28 → (ofBytes buf).bits < 2 ^ 31 :=
    fun buf h => (bits_ofBytes_le buf).trans_lt (by omega)
  refine ⟨fun aBuf bBuf ha hb => ?_, fun aBuf b ha => ?_, fun a bBuf hb => ?_⟩
  · obtain ⟨h1, h2, -⟩ := MpDecimal.compareTo_eq ht
      ⟨ofBytes aBuf, aExponent, canonical_ofBytes aBuf⟩
      ⟨ofBytes bBuf, bExponent, canonical_ofBytes bBuf⟩ hgap (hbits aBuf ha) (hbits bBuf hb)
    simp only [val_ofBytes] at h1
    exact ⟨h1, h2⟩
  · obtain ⟨h1, h2, -⟩ := MpDecimal.compareToCompact_eq ht
      ⟨ofBytes aBuf, aExponent, canonical_ofBytes aBuf⟩ ⟨b, bExponent⟩ hgap (hbits aBuf ha)
    simp only [val_ofBytes] at h1
    exact ⟨h1, h2⟩
  · obtain ⟨h1, h2, -⟩ := MpDecimal.compareToCompact_eq ht
      ⟨ofBytes bBuf, bExponent, canonical_ofBytes bBuf⟩ ⟨a, aExponent⟩
      (by rwa [abs_sub_comm]) (hbits bBuf hb)
    simp only [val_ofBytes] at h1
    exact ⟨by rw [compareDecimalU64Bytes, compareDecimalBytesU64, h1, decimalSign_swap a.toNat],
      h2⟩

/-! ### Past the gap: the pre-filter wraps -/

/-- At the gap `1301505241`, an `MpInt` of `43383511` bits is past the wrapped upper end for
`b = 2` (`compareWithExponentMp_of_bits`). -/
lemma compareDecimalBytesU64_of_bits (table : List MpInt) (buf : List UInt8)
    (hbits : (ofBytes buf).bits = 43383511) :
    (compareDecimalBytesU64 table buf ⟨0, by norm_num⟩ 2 ⟨1301505241, by norm_num⟩).1 =
      .greaterThan := by
  have hgap : exponentGap ⟨0, by norm_num⟩ ⟨1301505241, by norm_num⟩ = 1301505241 := by
    decide
  simp [compareDecimalBytesU64, MpDecimal.compareToCompact, compareWithExponentMpU64, hgap,
    eqU64_zero_eq_false (canonical_ofBytes buf) (by omega),
    compareWithExponentMp_of_bits table (canonical_ofBytes buf) hbits]

/-- **The pre-filter wraps.** `compare_decimal` on the byte string of `2^43383510`
(`0x40` and `5422938` zero bytes) with exponent `0`, against `2` with exponent `1301505241`,
answers `greater_than`, although the first decimal is the smaller. -/
theorem compareDecimal_prefilter_wraps (table : List MpInt) :
    (compareDecimalBytesU64 table (64 :: List.replicate 5422938 0) ⟨0, by norm_num⟩ 2
        ⟨1301505241, by norm_num⟩).1 = .greaterThan ∧
      decimalSign (beValue (64 :: List.replicate 5422938 0)) 0 2 1301505241 = .lessThan := by
  have hval : beValue (64 :: List.replicate 5422938 0) = 2 ^ 43383510 := by
    rw [beValue_sixtyFour_replicate]
  refine ⟨compareDecimalBytesU64_of_bits table _
    (by rw [bits_eq_size (canonical_ofBytes _), val_ofBytes, hval, Nat.size_pow]), ?_⟩
  rw [decimalSign_of_lt (by norm_num), hval]
  exact Sign.ofOrdering_compare_of_lt (two_pow_lt_two_mul_ten_pow (by norm_num))

end Asakusafw.Math

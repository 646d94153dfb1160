import Mathlib.Data.Nat.Size
import Mathlib.Data.String.Basic
import Mathlib.Data.List.DropRight
import Mathlib.Order.Compare
import Mathlib.Tactic.Ring
import Mathlib.Tactic.Linarith
import Mathlib.Tactic.Positivity
import Mathlib.Tactic.NormNum
import Mathlib.Tactic.IntervalCases

/-!
# `MpInt`: limb vectors, bit length and comparison

`mpdecimal.hpp`, `mpdecimal.cpp`: the multi-precision unsigned integer `MpInt`, a vector
`m_members` of 32-bit limbs, least significant first, and the three-valued `Sign` its
comparisons return.

* `Sign`, `compareValue`, `returnIfDifferent`: the ordering type, the template
  `compare_value` and the macro `RETURN_IF_DIFFERENT`; `compareValue_eq` says that
  `compare_value` is `compare`.
* `limbsValue`, `MpInt.val`: the number a limb vector denotes, and `MpInt.Canonical`, the class
  invariant that the vector is empty or ends in a non-zero limb.
* `shrinkVector`, `MpInt.ofMembers`, `MpInt.ofUInt64`: the private vector constructors and the
  `uint64_t` constructor, their values and their canonical forms.
* `countLeadingZeroBits_eq`: the binary search counts the leading zeros of every non-zero word,
  hence `bits_eq_size`: `bits()` of a canonical `MpInt` is the bit length `Nat.size` of its value;
  `bits_is_bit_length` gathers the brackets `2^{bits-1} ≤ val < 2^bits` of both.
* `compareTo_eq`, `compareToU64_eq`, `eqU64_iff`, `beq_iff`: on canonical operands the
  comparisons and equalities agree with the values; `compare_agrees_with_val` gathers them.
-/

namespace Asakusafw.Math

/-! ### Signs -/

/-- `Sign`: the result of comparing two values. -/
inductive Sign where
  | lessThan
  | equalTo
  | greaterThan
  deriving DecidableEq, Repr

namespace Sign

/-- `negate`, which exchanges `less_than` and `greater_than`. -/
def negate : Sign → Sign
  | lessThan => greaterThan
  | equalTo => equalTo
  | greaterThan => lessThan

/-- `static_cast<int>(sign)`. -/
def toInt : Sign → ℤ
  | lessThan => -1
  | equalTo => 0
  | greaterThan => 1

/-- The sign of an `Ordering`: what every comparison of this file is specified by. -/
def ofOrdering : Ordering → Sign
  | .lt => lessThan
  | .eq => equalTo
  | .gt => greaterThan

@[simp] lemma negate_negate (s : Sign) : s.negate.negate = s := by cases s <;> rfl

@[simp] lemma toInt_negate (s : Sign) : s.negate.toInt = -s.toInt := by cases s <;> rfl

@[simp] lemma negate_ofOrdering (o : Ordering) : (ofOrdering o).negate = ofOrdering o.swap := by
  cases o <;> rfl

section Compare

variable {α : Type*} [LinearOrder α] {x y : α}

lemma ofOrdering_compare_of_lt (h : x < y) : ofOrdering (compare x y) = lessThan := by
  rw [compare_lt_iff_lt.2 h]; rfl

lemma ofOrdering_compare_of_eq (h : x = y) : ofOrdering (compare x y) = equalTo := by
  rw [compare_eq_iff_eq.2 h]; rfl

lemma ofOrdering_compare_of_gt (h : y < x) : ofOrdering (compare x y) = greaterThan := by
  rw [compare_gt_iff_gt.2 h]; rfl

lemma compare_strictMono {β : Type*} [LinearOrder β] {f : α → β} (hf : StrictMono f)
    (x y : α) : compare (f x) (f y) = compare x y := by
  rw [← cmp_eq_compare, ← cmp_eq_compare]; exact (hf.compares.2 (cmp_compares x y)).cmp_eq

lemma sign_toInt (s : Sign) : s.toInt.sign = s.toInt := by cases s <;> rfl

lemma negate_ofOrdering_compare (x y : α) :
    (ofOrdering (compare x y)).negate = ofOrdering (compare y x) := by
  rcases lt_trichotomy x y with h | rfl | h
  · rw [ofOrdering_compare_of_lt h, ofOrdering_compare_of_gt h]; rfl
  · rw [ofOrdering_compare_of_eq rfl]; rfl
  · rw [ofOrdering_compare_of_gt h, ofOrdering_compare_of_lt h]; rfl

end Compare

end Sign

/-- `compare_value`, at the unsigned types it is instantiated with. -/
def compareValue (a b : ℕ) : Sign :=
  if a = b then .equalTo else if a < b then .lessThan else .greaterThan

/-- `RETURN_IF_DIFFERENT(diff)`, followed by the rest `rest` of the comparison. -/
def returnIfDifferent (diff rest : Sign) : Sign :=
  if diff ≠ .equalTo then diff else rest

lemma compareValue_eq (a b : ℕ) : compareValue a b = Sign.ofOrdering (compare a b) := by
  rcases lt_trichotomy a b with h | rfl | h
  · simp [compareValue, h, h.ne, Nat.compare_eq_lt.2 h, Sign.ofOrdering]
  · simp [compareValue, Nat.compare_eq_eq.2 rfl, Sign.ofOrdering]
  · simp [compareValue, h.ne', not_lt.2 h.le, Nat.compare_eq_gt.2 h, Sign.ofOrdering]

@[simp] lemma returnIfDifferent_equalTo (d : Sign) : returnIfDifferent d .equalTo = d := by
  cases d <;> rfl

@[simp] lemma returnIfDifferent_ofOrdering (o o' : Ordering) :
    returnIfDifferent (Sign.ofOrdering o) (Sign.ofOrdering o') = Sign.ofOrdering (o.then o') := by
  cases o <;> rfl

/-! ### Limb vectors -/

@[simp] lemma toNat_uint32OfNat (n : ℕ) : (UInt32.ofNat n).toNat = n % 2 ^ 32 := by
  simp [UInt32.ofNat, UInt32.toNat, Fin.ofNat]

@[simp] lemma toNat_uint64OfNat (n : ℕ) : (UInt64.ofNat n).toNat = n % 2 ^ 64 := by
  simp [UInt64.ofNat, UInt64.toNat, Fin.ofNat]

lemma uint32_eq_zero_iff (w : UInt32) : w = 0 ↔ w.toNat = 0 :=
  ⟨fun h => h ▸ rfl, fun h => UInt32.ext h⟩

lemma uint64_eq_zero_iff (v : UInt64) : v = 0 ↔ v.toNat = 0 :=
  ⟨fun h => h ▸ rfl, fun h => UInt64.ext h⟩

/-- The number a limb vector denotes, read little-endian in base `2^32`. -/
def limbsValue : List UInt32 → ℕ
  | [] => 0
  | w :: ws => w.toNat + 2 ^ 32 * limbsValue ws

@[simp] lemma limbsValue_nil : limbsValue [] = 0 := rfl

@[simp] lemma limbsValue_cons (w : UInt32) (ws : List UInt32) :
    limbsValue (w :: ws) = w.toNat + 2 ^ 32 * limbsValue ws := rfl

lemma limbsValue_append (xs ys : List UInt32) :
    limbsValue (xs ++ ys) = limbsValue xs + 2 ^ (32 * xs.length) * limbsValue ys := by
  induction xs with
  | nil => simp
  | cons x xs ih =>
      simp only [List.cons_append, limbsValue_cons, ih, List.length_cons]
      rw [show 32 * (xs.length + 1) = 32 + 32 * xs.length by ring, Nat.pow_add]
      ring

lemma limbsValue_lt (xs : List UInt32) : limbsValue xs < 2 ^ (32 * xs.length) := by
  induction xs with
  | nil => simp
  | cons x xs ih =>
      have hx := x.toNat_lt
      calc limbsValue (x :: xs) = x.toNat + 2 ^ 32 * limbsValue xs := rfl
        _ < 2 ^ 32 * (limbsValue xs + 1) := by omega
        _ ≤ 2 ^ 32 * 2 ^ (32 * xs.length) := Nat.mul_le_mul_left _ ih
        _ = 2 ^ (32 * (x :: xs).length) := by
          rw [← Nat.pow_add, List.length_cons]; ring_nf

lemma limbsValue_concat (xs : List UInt32) (w : UInt32) :
    limbsValue (xs ++ [w]) = limbsValue xs + 2 ^ (32 * xs.length) * w.toNat := by
  simp [limbsValue_append]

/-! ### Bit lengths and `count_leading_zero_bits` -/

/-- The bit length through its defining bounds. -/
lemma size_eq_iff {x n : ℕ} (hn : 0 < n) : x.size = n ↔ 2 ^ (n - 1) ≤ x ∧ x < 2 ^ n :=
  ⟨fun h => ⟨Nat.lt_size.1 (by omega), h ▸ Nat.lt_size_self x⟩,
    fun ⟨h1, h2⟩ => le_antisymm (Nat.size_le.2 h2) (by have := Nat.lt_size.2 h1; omega)⟩

/-- Putting `w ≠ 0` above `k` low bits adds `k` to its bit length. -/
lemma size_add_two_pow_mul {a k w : ℕ} (ha : a < 2 ^ k) (hw : 0 < w) :
    (a + 2 ^ k * w).size = k + w.size := by
  have hs : 0 < w.size := Nat.size_pos.2 hw
  have hlo : 2 ^ (w.size - 1) ≤ w := Nat.lt_size.1 (by omega)
  have hhi : w + 1 ≤ 2 ^ w.size := Nat.lt_size_self w
  refine (size_eq_iff (by omega)).2 ⟨?_, ?_⟩
  · calc 2 ^ (k + w.size - 1) = 2 ^ k * 2 ^ (w.size - 1) := by
          rw [← Nat.pow_add]; congr 1; omega
      _ ≤ 2 ^ k * w := Nat.mul_le_mul_left _ hlo
      _ ≤ a + 2 ^ k * w := Nat.le_add_left _ _
  · calc a + 2 ^ k * w < 2 ^ k * (w + 1) := by rw [Nat.mul_succ]; omega
      _ ≤ 2 ^ k * 2 ^ w.size := Nat.mul_le_mul_left _ hhi
      _ = 2 ^ (k + w.size) := (Nat.pow_add _ _ _).symm

/-- Dropping the `k` low bits of a number of at least `k + 1` bits. -/
lemma size_div_two_pow {v k : ℕ} (hv : 2 ^ k ≤ v) : (v / 2 ^ k).size = v.size - k := by
  have hk : k < v.size := Nat.lt_size.2 hv
  have := (size_eq_iff (x := v) (by omega)).1 rfl
  refine (size_eq_iff (by omega)).2 ⟨?_, ?_⟩
  · rw [Nat.le_div_iff_mul_le (Nat.two_pow_pos k), ← Nat.pow_add]
    exact le_trans (Nat.pow_le_pow_right (by norm_num) (by omega)) this.1
  · rw [Nat.div_lt_iff_lt_mul (Nat.two_pow_pos k), ← Nat.pow_add]
    exact lt_of_lt_of_le this.2 (Nat.pow_le_pow_right (by norm_num) (by omega))

/-- A mask of the upper half of a `2k`-bit window leaves nothing exactly when the value lies in
the lower half. -/
lemma land_upperHalf_eq_zero_iff {v k : ℕ} (hv : v < 2 ^ (2 * k)) :
    v &&& 2 ^ k * (2 ^ k - 1) = 0 ↔ v < 2 ^ k := by
  constructor
  · intro h
    refine Nat.lt_pow_two_of_testBit v fun i hi => ?_
    by_cases hi2 : i < 2 * k
    · have := congrArg (Nat.testBit · i) h
      simp only [Nat.testBit_and, Nat.testBit_mul_pow_two, Nat.testBit_two_pow_sub_one,
        Nat.zero_testBit] at this
      simpa [hi, show i - k < k by omega] using this
    · exact Nat.testBit_lt_two_pow
        (lt_of_lt_of_le hv (Nat.pow_le_pow_right (by norm_num) (by omega)))
  · intro h
    refine Nat.eq_of_testBit_eq fun i => ?_
    simp only [Nat.testBit_and, Nat.testBit_mul_pow_two, Nat.testBit_two_pow_sub_one,
      Nat.zero_testBit]
    by_cases hi : i < k
    · simp [hi]
    · simp [Nat.testBit_lt_two_pow
        (lt_of_lt_of_le h (Nat.pow_le_pow_right (by norm_num) (by omega : k ≤ i)))]

/-- One halving step of `count_leading_zero_bits` on the pair `(v, result)`: when the upper half
of the window, selected by `mask`, is clear, `shift` more leading zeros are counted; otherwise
the search moves to that upper half. -/
def clzStep (mask shift : ℕ) (s : ℕ × ℕ) : ℕ × ℕ :=
  if s.1 &&& mask = 0 then (s.1, s.2 + shift) else (s.1 >>> shift, s.2)

/-- `count_leading_zero_bits`: `32` for zero, otherwise a binary search over windows of
`32, 16, 8, 4, 2` bits. -/
def countLeadingZeroBits (value : UInt32) : ℕ :=
  if value = 0 then 32
  else
    let s := clzStep 0xc 2 <| clzStep 0xf0 4 <| clzStep 0xff00 8 <|
      clzStep 0xffff0000 16 (value.toNat, 0)
    if s.1 &&& 0x2 = 0 then s.2 + 1 else s.2

/-- The invariant of the search for the leading zeros of `v₀`, with a window of `k` bits left:
the window is a positive number of `k` bits, and `result` plus its leading zeros is the answer. -/
def ClzInv (v₀ k : ℕ) (s : ℕ × ℕ) : Prop :=
  0 < s.1 ∧ s.1 < 2 ^ k ∧ s.2 + (k - s.1.size) = 32 - v₀.size

/-- A step halves the window and keeps the invariant. -/
lemma clzStep_inv {m k v₀ : ℕ} {s : ℕ × ℕ} (hm : m = 2 ^ k * (2 ^ k - 1))
    (h : ClzInv v₀ (2 * k) s) : ClzInv v₀ k (clzStep m k s) := by
  obtain ⟨h0, hv, hr⟩ := h
  subst hm
  unfold clzStep
  split_ifs with h
  · have hlt := (land_upperHalf_eq_zero_iff hv).1 h
    have := Nat.size_le.2 hlt
    exact ⟨h0, hlt, by dsimp only; omega⟩
  · have hge : 2 ^ k ≤ s.1 := not_lt.1 fun h' => h ((land_upperHalf_eq_zero_iff hv).2 h')
    have hs := size_div_two_pow hge
    have h1 := Nat.lt_size.2 hge
    have h2 := Nat.size_le.2 hv
    rw [Nat.shiftRight_eq_div_pow]
    refine ⟨Nat.div_pos hge (Nat.two_pow_pos k), ?_, by dsimp only; omega⟩
    rw [Nat.div_lt_iff_lt_mul (Nat.two_pow_pos k), ← Nat.pow_add]
    simpa [two_mul] using hv

/-- `count_leading_zero_bits` counts the leading zeros of every non-zero 32-bit word. -/
theorem countLeadingZeroBits_eq {w : UInt32} (hw : w ≠ 0) :
    countLeadingZeroBits w = 32 - w.toNat.size := by
  have h0 : ClzInv w.toNat 32 (w.toNat, 0) :=
    ⟨Nat.pos_of_ne_zero fun h => hw (UInt32.ext h), w.toNat_lt, by
      have := Nat.size_le.2 w.toNat_lt; dsimp only; omega⟩
  have h := clzStep_inv (m := 0xc) (k := 2) (by norm_num) <|
    clzStep_inv (m := 0xf0) (k := 4) (by norm_num) <|
    clzStep_inv (m := 0xff00) (k := 8) (by norm_num) <|
    clzStep_inv (m := 0xffff0000) (k := 16) (by norm_num) h0
  simp only [countLeadingZeroBits, hw, if_false]
  generalize clzStep 0xc 2 _ = s at h ⊢
  obtain ⟨hpos, hlt, hr⟩ := h
  have h5 := land_upperHalf_eq_zero_iff (k := 1) hlt
  have hle := Nat.size_le.2 hlt
  have hsz := Nat.size_pos.2 hpos
  split_ifs with h
  · have := Nat.size_le.2 (h5.1 h)
    omega
  · have := Nat.lt_size.2 (not_lt.1 fun h' => h (h5.2 h'))
    omega

/-- A non-zero word lies between the powers of two its leading-zero count names. -/
lemma countLeadingZeroBits_bracket {w : UInt32} (hw : w ≠ 0) :
    2 ^ (31 - countLeadingZeroBits w) ≤ w.toNat ∧ w.toNat < 2 ^ (32 - countLeadingZeroBits w) := by
  have hpos := Nat.size_pos.2 (Nat.pos_of_ne_zero fun h => hw (UInt32.ext h))
  have hle := Nat.size_le.2 w.toNat_lt
  rw [countLeadingZeroBits_eq hw]
  exact ⟨Nat.lt_size.1 (by omega), Nat.size_le.1 (by omega)⟩

/-! ### The class and its invariant -/

/-- `MpInt`: the limb vector `m_members`, least significant limb first. -/
@[ext] structure MpInt where
  members : List UInt32
  deriving DecidableEq, Repr

namespace MpInt

/-- The default constructor `MpInt()`, zero. -/
def zero : MpInt := ⟨[]⟩

/-- The value of an `MpInt`. -/
def val (m : MpInt) : ℕ := limbsValue m.members

/-- The invariant `m_members.empty() || m_members.back() != 0` that `mpdecimal.cpp` asserts. -/
def Canonical (m : MpInt) : Prop := m.members.getLast? ≠ some 0

instance : DecidablePred Canonical :=
  fun m => inferInstanceAs (Decidable (m.members.getLast? ≠ some 0))

@[simp] lemma val_zero : zero.val = 0 := rfl

lemma canonical_zero : zero.Canonical := by simp [Canonical, zero]

/-- `shrink_vector`: pops zero limbs off the back of the vector. -/
def shrinkVector (v : List UInt32) : List UInt32 := v.rdropWhile (· == 0)

/-- The private constructors `MpInt(std::vector<uint32_t>)`, which shrink their argument. -/
def ofMembers (v : List UInt32) : MpInt := ⟨shrinkVector v⟩

lemma canonical_ofMembers (v : List UInt32) : (ofMembers v).Canonical := by
  unfold Canonical ofMembers shrinkVector
  by_cases h : v.rdropWhile (· == 0) = []
  · simp [h]
  · have := List.rdropWhile_last_not (· == 0) v h
    rw [List.getLast?_eq_getLast _ h]
    simpa using this

@[simp] lemma val_ofMembers (v : List UInt32) : (ofMembers v).val = limbsValue v := by
  unfold val ofMembers shrinkVector
  induction v using List.reverseRecOn with
  | nil => rfl
  | append_singleton v w ih =>
      rw [List.rdropWhile_concat]
      split <;> simp_all [limbsValue_concat]

/-- The constructor `MpInt(uint64_t value)`: no limb for zero, otherwise the low word and,
when it is not zero, the high word `value >> 32`. -/
def ofUInt64 (value : UInt64) : MpInt :=
  if value = 0 then zero
  else
    let hi : UInt32 := UInt32.ofNat (value.toNat >>> 32)
    if hi ≠ 0 then ⟨[value.toUInt32, hi]⟩ else ⟨[value.toUInt32]⟩

@[simp] lemma val_ofUInt64 (value : UInt64) : (ofUInt64 value).val = value.toNat := by
  have hlt := value.toNat_lt
  have hhi : (value.toNat >>> 32) % 2 ^ 32 = value.toNat / 2 ^ 32 := by
    rw [Nat.shiftRight_eq_div_pow, Nat.mod_eq_of_lt (by omega)]
  unfold ofUInt64
  dsimp only
  split_ifs with h0 h1
  · simp [h0]
  · simp only [ne_eq, uint32_eq_zero_iff, toNat_uint32OfNat, hhi] at h1
    simp [val, hhi, UInt64.toUInt32_toNat]
    omega
  · simp only [ne_eq, uint32_eq_zero_iff, toNat_uint32OfNat, hhi, not_not] at h1
    simp [val, UInt64.toUInt32_toNat]
    omega

lemma canonical_ofUInt64 (value : UInt64) : (ofUInt64 value).Canonical := by
  have hhi : (value.toNat >>> 32) % 2 ^ 32 = value.toNat / 2 ^ 32 := by
    rw [Nat.shiftRight_eq_div_pow, Nat.mod_eq_of_lt (by have := value.toNat_lt; omega)]
  unfold ofUInt64 Canonical
  dsimp only
  split_ifs with h0 h1
  · simp [zero]
  · simpa using h1
  · simp only [ne_eq, uint32_eq_zero_iff, toNat_uint32OfNat, hhi, not_not] at h1
    simp only [uint64_eq_zero_iff] at h0
    simp [uint32_eq_zero_iff, UInt64.toUInt32_toNat]
    omega

/-! ### `bits()` -/

/-- `bits()`: `m_members.size() * 32 - count_leading_zero_bits(m_members.back())`, and `0` for
the empty vector. -/
def bits (m : MpInt) : ℕ :=
  match m.members.getLast? with
  | none => 0
  | some w => m.members.length * 32 - countLeadingZeroBits w

/-- A canonical limb vector is its limbs below the top one, and a non-zero top limb. -/
lemma eq_concat_of_canonical {m : MpInt} (h : m.Canonical) (hne : m.members ≠ []) :
    ∃ init w, m.members = init ++ [w] ∧ w ≠ 0 := by
  obtain ⟨init, w, hw⟩ := List.eq_nil_or_concat m.members |>.resolve_left hne
  refine ⟨init, w, by simpa using hw, fun h0 => h ?_⟩
  simp [hw, h0]

lemma bits_of_concat {m : MpInt} {init : List UInt32} {w : UInt32} (hm : m.members = init ++ [w]) :
    m.bits = (init.length + 1) * 32 - countLeadingZeroBits w := by
  simp [bits, hm]

/-- **`bits()` is the bit length** of the value of every canonical `MpInt`. -/
theorem bits_eq_size {m : MpInt} (h : m.Canonical) : m.bits = m.val.size := by
  by_cases hne : m.members = []
  · simp [bits, val, hne]
  obtain ⟨init, w, hm, hw⟩ := eq_concat_of_canonical h hne
  have hpos : 0 < w.toNat := Nat.pos_of_ne_zero fun h' => hw (UInt32.ext h')
  have hsz := Nat.size_le.2 w.toNat_lt
  rw [bits_of_concat hm, val, hm, limbsValue_concat,
    size_add_two_pow_mul (limbsValue_lt init) hpos, countLeadingZeroBits_eq hw]
  omega

lemma bits_pos {m : MpInt} (h : m.Canonical) (hne : m.members ≠ []) : 0 < m.bits := by
  obtain ⟨init, w, hm, hw⟩ := eq_concat_of_canonical h hne
  rw [bits_of_concat hm, countLeadingZeroBits_eq hw]
  have := Nat.size_pos.2 (Nat.pos_of_ne_zero fun h' => hw (UInt32.ext h'))
  omega

/-- The number of limbs of a canonical `MpInt` is determined by its bit length. -/
lemma length_eq_of_canonical {m : MpInt} (h : m.Canonical) :
    m.members.length = (m.bits + 31) / 32 := by
  by_cases hne : m.members = []
  · simp [bits, hne]
  obtain ⟨init, w, hm, hw⟩ := eq_concat_of_canonical h hne
  rw [bits_of_concat hm, countLeadingZeroBits_eq hw, hm, List.length_append,
    List.length_singleton]
  have := Nat.size_pos.2 (Nat.pos_of_ne_zero fun h' => hw (UInt32.ext h'))
  have := Nat.size_le.2 w.toNat_lt
  omega

lemma val_pos_of_canonical {m : MpInt} (h : m.Canonical) (hne : m.members ≠ []) : 0 < m.val :=
  Nat.size_pos.1 (bits_eq_size h ▸ bits_pos h hne)

lemma val_eq_one_of_bits {m : MpInt} (h : m.Canonical) (h1 : m.bits = 1) : m.val = 1 := by
  rw [bits_eq_size h] at h1
  have := (size_eq_iff (x := m.val) one_pos).1 h1
  simp at this
  omega

lemma members_eq_nil_iff {m : MpInt} (h : m.Canonical) : m.members = [] ↔ m.val = 0 :=
  ⟨fun hm => by simp [val, hm],
    fun hv => by_contra fun hne => (val_pos_of_canonical h hne).ne' hv⟩

lemma val_lt_two_pow_bits {m : MpInt} (h : m.Canonical) : m.val < 2 ^ m.bits :=
  bits_eq_size h ▸ Nat.lt_size_self _

lemma two_pow_bits_le_val {m : MpInt} (h : m.Canonical) (h0 : m.val ≠ 0) :
    2 ^ (m.bits - 1) ≤ m.val :=
  Nat.lt_size.1 (by
    have := Nat.size_pos.2 (Nat.pos_of_ne_zero h0)
    rw [← bits_eq_size h] at this ⊢; omega)

/-- **`bits()` is the bit length.** For every canonical `MpInt`, `bits()` is the bit length of
its value: `0` exactly for zero, and otherwise `2^{bits-1} ≤ val < 2^bits`. It rests on
`count_leading_zero_bits` counting the leading zeros of every non-zero word exactly. -/
theorem bits_is_bit_length :
    (∀ m : MpInt, m.Canonical → m.bits = m.val.size ∧ (m.bits = 0 ↔ m.val = 0) ∧
        (m.val ≠ 0 → 2 ^ (m.bits - 1) ≤ m.val ∧ m.val < 2 ^ m.bits)) ∧
      ∀ w : UInt32, w ≠ 0 → countLeadingZeroBits w = 32 - w.toNat.size ∧
        2 ^ (31 - countLeadingZeroBits w) ≤ w.toNat ∧ w.toNat < 2 ^ (32 - countLeadingZeroBits w) :=
  ⟨fun _ h => ⟨bits_eq_size h, by rw [bits_eq_size h, Nat.size_eq_zero],
      fun h0 => ⟨two_pow_bits_le_val h h0, val_lt_two_pow_bits h⟩⟩,
    fun _ hw => ⟨countLeadingZeroBits_eq hw, countLeadingZeroBits_bracket hw⟩⟩

/-! ### Comparison and equality -/

/-- Two-digit numbers compare by their high digits, then by their low digits. -/
lemma compare_add_mul {B a0 a1 b0 b1 : ℕ} (ha : a0 < B) (hb : b0 < B) :
    compare (a0 + B * a1) (b0 + B * b1) = (compare a1 b1).then (compare a0 b0) := by
  rcases lt_trichotomy a1 b1 with h | rfl | h
  · have := Nat.mul_le_mul_left B (Nat.succ_le_of_lt h)
    rw [Nat.mul_succ] at this
    simp [Nat.compare_eq_lt.2 h, Nat.compare_eq_lt.2 (by omega : a0 + B * a1 < b0 + B * b1),
      Ordering.then]
  · rw [Nat.compare_eq_eq.2 rfl]
    rcases lt_trichotomy a0 b0 with h | rfl | h
    · simp [Nat.compare_eq_lt.2 h, Nat.compare_eq_lt.2 (by omega : a0 + B * a1 < b0 + B * a1),
        Ordering.then]
    · simp [Nat.compare_eq_eq.2 rfl, Ordering.then]
    · simp [Nat.compare_eq_gt.2 h, Nat.compare_eq_gt.2 (by omega : a0 + B * a1 > b0 + B * a1),
        Ordering.then]
  · have := Nat.mul_le_mul_left B (Nat.succ_le_of_lt h)
    rw [Nat.mul_succ] at this
    simp [Nat.compare_eq_gt.2 h, Nat.compare_eq_gt.2 (by omega : a0 + B * a1 > b0 + B * b1),
      Ordering.then]

/-- `compare_to(uint64_t other)`, by the number of limbs: none, one (then the high word of
`other` must be zero), two, or more (then always greater). -/
def compareToU64 (m : MpInt) (other : UInt64) : Sign :=
  let hi := (other.toNat >>> 32) % 2 ^ 32
  let lo := other.toNat % 2 ^ 32
  match m.members with
  | [] => compareValue 0 other.toNat
  | [w0] =>
      returnIfDifferent (compareValue 0 hi)
        (returnIfDifferent (compareValue w0.toNat lo) .equalTo)
  | [w0, w1] =>
      returnIfDifferent (compareValue w1.toNat hi)
        (returnIfDifferent (compareValue w0.toNat lo) .equalTo)
  | _ => .greaterThan

lemma uint64_split (v : UInt64) :
    v.toNat = v.toNat % 2 ^ 32 + 2 ^ 32 * ((v.toNat >>> 32) % 2 ^ 32) := by
  have := v.toNat_lt
  rw [Nat.shiftRight_eq_div_pow, Nat.mod_eq_of_lt (by omega : v.toNat / 2 ^ 32 < 2 ^ 32)]
  omega

/-- A canonical `MpInt` of three limbs or more exceeds every `uint64_t`. -/
lemma two_pow_64_le_val {m : MpInt} (h : m.Canonical) (hlen : 3 ≤ m.members.length) :
    2 ^ 64 ≤ m.val := by
  have hl := length_eq_of_canonical h
  exact Nat.lt_size.1 (by rw [← bits_eq_size h]; omega)

theorem compareToU64_eq {m : MpInt} (h : m.Canonical) (other : UInt64) :
    m.compareToU64 other = Sign.ofOrdering (compare m.val other.toNat) := by
  have hsplit := uint64_split other
  unfold compareToU64
  generalize (other.toNat >>> 32) % 2 ^ 32 = hi at hsplit ⊢
  have hlo : other.toNat % 2 ^ 32 < 2 ^ 32 := Nat.mod_lt _ (by norm_num)
  generalize other.toNat % 2 ^ 32 = lo at hsplit hlo ⊢
  match hm : m.members with
  | [] => simp [val, hm, compareValue_eq]
  | [w0] =>
      have hv : m.val = w0.toNat + 2 ^ 32 * 0 := by simp [val, hm]
      simp only [compareValue_eq, returnIfDifferent_equalTo, returnIfDifferent_ofOrdering]
      rw [hv, hsplit, compare_add_mul w0.toNat_lt hlo]
  | [w0, w1] =>
      have hv : m.val = w0.toNat + 2 ^ 32 * w1.toNat := by simp [val, hm]
      simp only [compareValue_eq, returnIfDifferent_equalTo, returnIfDifferent_ofOrdering]
      rw [hv, hsplit, compare_add_mul w0.toNat_lt hlo]
  | _ :: _ :: _ :: _ =>
      have := two_pow_64_le_val h (by simp [hm])
      have := other.toNat_lt
      simp [Nat.compare_eq_gt.2 (by omega : m.val > other.toNat), Sign.ofOrdering]

/-- The limb loop of `compare_to(const MpInt&)`, over both vectors from the most significant
limb down (the code has asserted that the two vectors have the same size). -/
def compareFromTop : List UInt32 → List UInt32 → Sign
  | a :: as, b :: bs => returnIfDifferent (compareValue a.toNat b.toNat) (compareFromTop as bs)
  | _, _ => .equalTo

/-- `compare_to(const MpInt&)`: the bit lengths first, then the limbs from the top. -/
def compareTo (a b : MpInt) : Sign :=
  returnIfDifferent (compareValue a.bits b.bits)
    (compareFromTop a.members.reverse b.members.reverse)

lemma compareFromTop_eq : ∀ (as bs : List UInt32), as.length = bs.length →
    compareFromTop as bs = Sign.ofOrdering (compare (limbsValue as.reverse) (limbsValue bs.reverse))
  | [], [], _ => by simp [compareFromTop, Nat.compare_eq_eq.2 rfl, Sign.ofOrdering]
  | a :: as, b :: bs, h => by
      have hl : as.length = bs.length := by simpa using h
      rw [compareFromTop, compareFromTop_eq as bs hl, compareValue_eq, returnIfDifferent_ofOrdering,
        List.reverse_cons, List.reverse_cons, limbsValue_concat, limbsValue_concat,
        List.length_reverse, List.length_reverse, hl]
      rw [compare_add_mul (B := 2 ^ (32 * bs.length)) (by simpa [hl] using limbsValue_lt as.reverse)
        (by simpa using limbsValue_lt bs.reverse)]

theorem compareTo_eq {a b : MpInt} (ha : a.Canonical) (hb : b.Canonical) :
    a.compareTo b = Sign.ofOrdering (compare a.val b.val) := by
  unfold compareTo
  rw [compareValue_eq, bits_eq_size ha, bits_eq_size hb]
  rcases lt_trichotomy a.val.size b.val.size with h | h | h
  · have hv : a.val < b.val := lt_of_not_le fun h' => (Nat.size_le_size h').not_lt h
    simp [Nat.compare_eq_lt.2 h, Nat.compare_eq_lt.2 hv, returnIfDifferent, Sign.ofOrdering]
  · have hl : a.members.reverse.length = b.members.reverse.length := by
      simp [length_eq_of_canonical ha, length_eq_of_canonical hb, bits_eq_size ha,
        bits_eq_size hb, h]
    rw [h, Nat.compare_eq_eq.2 rfl, compareFromTop_eq _ _ hl]
    simp [returnIfDifferent, Sign.ofOrdering, val]
  · have hv : a.val > b.val := lt_of_not_le fun h' => (Nat.size_le_size h').not_lt h
    simp [Nat.compare_eq_gt.2 h, Nat.compare_eq_gt.2 hv, returnIfDifferent, Sign.ofOrdering]

/-- `operator==(uint64_t other)`. -/
def eqU64 (m : MpInt) (other : UInt64) : Bool :=
  if m.members = [] then other.toNat = 0
  else if other.toNat = 0 then false
  else match m.members with
    | [w0] => w0.toNat = other.toNat
    | [w0, w1] => w0.toNat = other.toNat % 2 ^ 32 && w1.toNat = (other.toNat >>> 32) % 2 ^ 32
    | _ => false

theorem eqU64_iff {m : MpInt} (h : m.Canonical) (other : UInt64) :
    m.eqU64 other = true ↔ m.val = other.toNat := by
  have hsplit := uint64_split other
  unfold eqU64
  by_cases he : m.members = []
  · simp [he, val, eq_comm]
  have hpos := val_pos_of_canonical h he
  by_cases h0 : other.toNat = 0
  · simp [he, h0, hpos.ne']
  simp only [he, h0, if_false]
  generalize (other.toNat >>> 32) % 2 ^ 32 = hi at hsplit ⊢
  have hlo : other.toNat % 2 ^ 32 < 2 ^ 32 := Nat.mod_lt _ (by norm_num)
  generalize other.toNat % 2 ^ 32 = lo at hsplit hlo ⊢
  match hm : m.members with
  | [] => exact absurd hm he
  | [w0] => simp [val, hm]
  | [w0, w1] =>
      have := w0.toNat_lt
      simp only [val, hm, limbsValue_cons, limbsValue_nil, Bool.and_eq_true, decide_eq_true_eq]
      omega
  | _ :: _ :: _ :: _ =>
      have := two_pow_64_le_val h (by simp [hm])
      have := other.toNat_lt
      simp only [Bool.false_eq_true, false_iff]
      omega

/-- `operator==(const MpInt&)`: the limb vectors are equal. -/
def beq (a b : MpInt) : Bool := a.members == b.members

lemma canonical_of_cons {x : UInt32} {xs : List UInt32} (h : (⟨x :: xs⟩ : MpInt).Canonical) :
    (⟨xs⟩ : MpInt).Canonical := by
  cases xs with
  | nil => simp [Canonical]
  | cons y ys => simpa [Canonical, List.getLast?_cons_cons] using h

/-- A canonical limb vector is determined by its value. -/
lemma members_injective : ∀ {xs ys : List UInt32}, (⟨xs⟩ : MpInt).Canonical →
    (⟨ys⟩ : MpInt).Canonical → limbsValue xs = limbsValue ys → xs = ys
  | [], ys, _, hy, h => ((members_eq_nil_iff hy).2 (by simpa [val] using h.symm)).symm
  | x :: xs, [], hx, _, h => (members_eq_nil_iff hx).2 (by simpa [val] using h)
  | x :: xs, y :: ys, hx, hy, h => by
      have := x.toNat_lt
      have := y.toNat_lt
      simp only [limbsValue_cons] at h
      have hxy : x = y := UInt32.ext (by omega)
      rw [hxy, members_injective (canonical_of_cons hx) (canonical_of_cons hy) (by omega)]

/-- A canonical `MpInt` is determined by its value. -/
lemma eq_of_val_eq {a b : MpInt} (ha : a.Canonical) (hb : b.Canonical) (h : a.val = b.val) :
    a = b :=
  MpInt.ext (members_injective ha hb h)

theorem beq_iff {a b : MpInt} (ha : a.Canonical) (hb : b.Canonical) :
    a.beq b = true ↔ a.val = b.val := by
  simp only [beq, beq_iff_eq]
  exact ⟨fun h => by simp [val, h], members_injective ha hb⟩

/-- **The comparisons read the values.** On canonical operands `compare_to` and `operator==`,
against an `MpInt` or a `uint64_t`, are the order and the equality of the values; so the
limb-count paths of the `uint64_t` overloads agree with comparing against `MpInt(x)`. -/
theorem compare_agrees_with_val :
    (∀ a b : MpInt, a.Canonical → b.Canonical →
        a.compareTo b = Sign.ofOrdering (compare a.val b.val) ∧
          (a.beq b = true ↔ a.val = b.val)) ∧
      ∀ (a : MpInt) (x : UInt64), a.Canonical →
        a.compareToU64 x = Sign.ofOrdering (compare a.val x.toNat) ∧
          (a.eqU64 x = true ↔ a.val = x.toNat) ∧
          a.compareToU64 x = a.compareTo (ofUInt64 x) ∧ a.eqU64 x = a.beq (ofUInt64 x) := by
  refine ⟨fun a b ha hb => ⟨compareTo_eq ha hb, beq_iff ha hb⟩, fun a x ha => ?_⟩
  have hx := canonical_ofUInt64 x
  refine ⟨compareToU64_eq ha x, eqU64_iff ha x, ?_, ?_⟩
  · rw [compareToU64_eq ha, compareTo_eq ha hx, val_ofUInt64]
  · rw [Bool.eq_iff_iff, eqU64_iff ha, beq_iff ha hx, val_ofUInt64]

end MpInt

end Asakusafw.Math

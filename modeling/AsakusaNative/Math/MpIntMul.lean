import Mathlib.Tactic.LinearCombination
import AsakusaNative.Math.MpInt

/-!
# `MpInt` multiplication

`mpdecimal.cpp`: `MpInt::operator*(uint32_t)` and `MpInt::operator*(const MpInt&)`. The 64-bit
accumulator `work` is a natural number taken `% 2^64`; each loop also carries a ghost flag that
records the bounds the code relies on but does not check: a carry of at most `2^32 - 1` (the
asserted `work <= 0xffffffff`), an index below the size of `results`, a sum that does not wrap,
and the asserted `work == 0` at the end of every row.

* `mulStep`, `mulInner`, `mulCarry`, `mulRow`, `mulRows`, `schoolbook`: the schoolbook loop,
  step by step; `mulStep_spec` is the one fact about a step (the value `results + work·2^{32k}`
  grows by the addend, the carry stays below `2^32`), from which `mulInner_spec`,
  `mulCarry_spec` (the carry dies out before the end of `results`), `mulRow_spec`,
  `mulRows_spec` and `schoolbook_spec` follow.
* `intIndex`: the index is the code's `int k = i + j`, so it wraps past `2^31 - 1`; the specs
  above hold while `results` has at most `2^31` limbs, i.e. `bits(a) + bits(b) ≤ 2^36`.
* `mulWordLoop`, `mulWord`: `operator*(uint32_t)`; `mulWordLoop_spec`.
* `val_mul`, `val_mulWord`, `canonical_mul`, `canonical_mulWord`: both products are exact and
  canonical on canonical operands, `operator*(const MpInt&)` within that bound.
* `mulStep_of_le`, `schoolbook_replicate_max`: past the bound, the product of `2^32` and `2^31`
  limbs `0xffffffff` addresses an element outside `results` and loses its top limb.
-/

namespace Asakusafw.Math

namespace MpInt

/-! ### The schoolbook loop of `operator*(const MpInt&)` -/

/-- The state of the schoolbook loop: the vector `results`, the accumulator `work`, and a ghost
flag that records whether every step so far stayed within the bounds the code relies on. -/
structure MulState where
  results : List UInt32
  work : ℕ
  ok : Bool

/-- The element `results[k]` addresses for `int k = i + j`: the `size_t` sum converted to a
32-bit `int` (two's complement, as GCC converts it), then back to the `size_t` of `operator[]`,
so that a negative `k` addresses the element `2^64 + k`, far past the end. -/
def intIndex (n : ℕ) : ℕ :=
  if n % 2 ^ 32 < 2 ^ 31 then n % 2 ^ 32 else n % 2 ^ 32 + (2 ^ 64 - 2 ^ 32)

lemma intIndex_of_lt {n : ℕ} (h : n < 2 ^ 31) : intIndex n = n := by
  rw [intIndex, Nat.mod_eq_of_lt (by omega), if_pos h]

/-- One step of either inner loop at `int k = i + j`, adding `addend` (`a * b`, or nothing in
the carry loop): `work += addend + results[k]; results[k] = static_cast<uint32_t>(work);
work >>= 32`. An element past the end of `results` reads as zero and the write to it is lost:
the code's access there is undefined. The flag records the asserted `work <= 0xffffffff`, an
element inside `results` and a 64-bit sum that does not wrap. -/
def mulStep (k addend : ℕ) (s : MulState) : MulState :=
  let idx := intIndex k
  let sum := s.work + addend + (s.results.getD idx 0).toNat
  let work := sum % 2 ^ 64
  { results := s.results.set idx (UInt32.ofNat work)
    work := work >>> 32
    ok := s.ok && decide (s.work ≤ 0xffffffff) && decide (idx < s.results.length) &&
      decide (sum < 2 ^ 64) }

/-- The first inner loop of a row, `for (j = 0; j < b_size; j++)`, from index `k = i`. -/
def mulInner (a k : ℕ) : List UInt32 → MulState → MulState
  | [], s => s
  | b :: bs, s => mulInner a (k + 1) bs (mulStep k (a * b.toNat) s)

/-- The carry loop of a row, `for (j = b_size; j < c_size; j++)`, left as soon as the carry is
zero; `fuel` is the number of iterations left and `k = i + j`. -/
def mulCarry (k : ℕ) : ℕ → MulState → MulState
  | 0, s => s
  | fuel + 1, s => if s.work = 0 then s else mulCarry (k + 1) fuel (mulStep k 0 s)

/-- Row `i` of the loop, for the limb `a = m_members[i]`: a fresh `work = 0`, the two inner
loops, and the asserted `work == 0`. -/
def mulRow (bs : List UInt32) (cSize i : ℕ) (a : UInt32) (s : MulState) : MulState :=
  let s := mulInner a.toNat i bs { s with work := 0 }
  let s := mulCarry (i + bs.length) (cSize - bs.length) s
  { s with ok := s.ok && decide (s.work = 0) }

/-- The outer loop, `for (i = 0; i < a_size; i++)`. -/
def mulRows (bs : List UInt32) (cSize : ℕ) : ℕ → List UInt32 → MulState → MulState
  | _, [], s => s
  | i, a :: as, s => mulRows bs cSize (i + 1) as (mulRow bs cSize i a s)

/-- The schoolbook loop of `operator*(const MpInt&)` over `c_size` zero limbs. -/
def schoolbook (as bs : List UInt32) (cSize : ℕ) : MulState :=
  mulRows bs cSize 0 as ⟨List.replicate cSize 0, 0, true⟩

/-- `operator*(const MpInt& multiplier)` once the operands are in order (`a_size <= b_size`):
the shortcuts for a one-bit operand, then the loop into
`c_size = (bits() + multiplier.bits() + 31) / 32` limbs, shrunk. -/
def mulBody (a b : MpInt) : MpInt :=
  if a.bits = 1 then b
  else if b.bits = 1 then a
  else ofMembers (schoolbook a.members b.members ((a.bits + b.bits + 31) / 32)).results

/-- `operator*(const MpInt& multiplier)`: zero if either operand is zero; otherwise the shorter
operand drives the outer loop (the code returns `multiplier * *this`, which goes straight to
the body). -/
def mul (a b : MpInt) : MpInt :=
  if a.members = [] ∨ b.members = [] then zero
  else if b.members.length < a.members.length then mulBody b a
  else mulBody a b

/-! ### `operator*(uint32_t)` -/

/-- The loop of `operator*(uint32_t multiplier)`: `work += limb * multiplier`, the low word is
pushed and the high word carried. It returns the limbs, the last carry, and a ghost flag that
records that the 64-bit accumulator never wrapped. -/
def mulWordLoop (multiplier : ℕ) : List UInt32 → ℕ → List UInt32 × ℕ × Bool
  | [], work => ([], work, true)
  | m :: ms, work =>
      let sum := work + m.toNat * multiplier
      let r := mulWordLoop multiplier ms ((sum % 2 ^ 64) >>> 32)
      (UInt32.ofNat (sum % 2 ^ 64) :: r.1, r.2.1, decide (sum < 2 ^ 64) && r.2.2)

lemma mulWordLoop_length (multiplier : ℕ) :
    ∀ (ms : List UInt32) (work : ℕ), (mulWordLoop multiplier ms work).1.length = ms.length
  | [], _ => rfl
  | _ :: ms, _ => by simp [mulWordLoop, mulWordLoop_length multiplier ms]

/-- `operator*(uint32_t multiplier)`: the shortcuts for a multiplier `0` or `1` and for a value
of no bits or one bit, then the loop, and the last carry pushed when it is not zero. -/
def mulWord (m : MpInt) (multiplier : UInt32) : MpInt :=
  if multiplier = 0 then zero
  else if multiplier = 1 then m
  else if m.bits = 0 then zero
  else if m.bits = 1 then ofUInt64 (UInt64.ofNat multiplier.toNat)
  else
    let r := mulWordLoop multiplier.toNat m.members 0
    ofMembers (if r.2.1 ≠ 0 then r.1 ++ [UInt32.ofNat r.2.1] else r.1)

/-! ### The loop keeps the product's value and its bounds -/

/-- Writing limb `k` changes the value by the difference of the limbs, at weight `2^{32k}`. -/
lemma limbsValue_set : ∀ (R : List UInt32) (k : ℕ) (x : UInt32), k < R.length →
    limbsValue (R.set k x) + 2 ^ (32 * k) * (R.getD k 0).toNat =
      limbsValue R + 2 ^ (32 * k) * x.toNat
  | r :: R, 0, x, _ => by simp; ring
  | r :: R, k + 1, x, h => by
      have := limbsValue_set R k x (by simpa using h)
      simp only [List.set_cons_succ, limbsValue_cons, List.getD_cons_succ]
      rw [show 32 * (k + 1) = 32 + 32 * k by ring, Nat.pow_add]
      linear_combination 2 ^ 32 * this

@[simp] lemma limbsValue_replicate_zero (n : ℕ) : limbsValue (List.replicate n 0) = 0 := by
  induction n with
  | zero => rfl
  | succ n ih => simp [List.replicate_succ, ih]

/-- The value of a loop state at index `k`: the result vector, and the carry waiting to be added
at limb `k`. -/
def MulState.value (s : MulState) (k : ℕ) : ℕ := limbsValue s.results + 2 ^ (32 * k) * s.work

/-- **One step**: with a carry below `2^32`, an index inside `results` that fits in an `int`, and
an addend that is a product of two limbs, the step passes every check, keeps the carry below
`2^32`, and adds the addend at weight `2^{32k}` to the value. -/
lemma mulStep_spec {k addend : ℕ} {s : MulState} (hw : s.work < 2 ^ 32)
    (hk : k < s.results.length) (h31 : k < 2 ^ 31) (ha : addend ≤ (2 ^ 32 - 1) * (2 ^ 32 - 1)) :
    (mulStep k addend s).ok = s.ok ∧ (mulStep k addend s).results.length = s.results.length ∧
      (mulStep k addend s).work < 2 ^ 32 ∧
      (mulStep k addend s).value (k + 1) = s.value k + 2 ^ (32 * k) * addend := by
  unfold mulStep MulState.value
  dsimp only
  rw [intIndex_of_lt h31]
  have hc := (s.results.getD k 0).toNat_lt
  have hset := limbsValue_set s.results k
    (UInt32.ofNat (s.work + addend + (s.results.getD k 0).toNat)) hk
  generalize (s.results.getD k 0).toNat = c at hc hset ⊢
  have hsum : s.work + addend + c < 2 ^ 64 := by omega
  simp only [Nat.mod_eq_of_lt hsum, hk, hsum, decide_True, Bool.and_true, List.length_set,
    Nat.shiftRight_eq_div_pow, toNat_uint32OfNat] at hset ⊢
  refine ⟨by simp [show s.work ≤ 0xffffffff by omega], by simp, by omega, ?_⟩
  have hdm := Nat.mod_add_div (s.work + addend + c) (2 ^ 32)
  rw [show 32 * (k + 1) = 32 * k + 32 by ring, Nat.pow_add]
  generalize 2 ^ (32 * k) = P at hset ⊢
  linear_combination hset + P * hdm

lemma limb_mul_limb_le (a b : ℕ) (ha : a < 2 ^ 32) (hb : b < 2 ^ 32) :
    a * b ≤ (2 ^ 32 - 1) * (2 ^ 32 - 1) :=
  Nat.mul_le_mul (by omega) (by omega)

/-- **The first inner loop** adds `a · b` at weight `2^{32k}`, as long as its indices stay inside
`results` and below `2^31`. -/
lemma mulInner_spec {a : ℕ} (ha : a < 2 ^ 32) : ∀ (bs : List UInt32) (k : ℕ) (s : MulState),
    s.work < 2 ^ 32 → k + bs.length ≤ s.results.length → k + bs.length ≤ 2 ^ 31 →
    (mulInner a k bs s).ok = s.ok ∧ (mulInner a k bs s).results.length = s.results.length ∧
      (mulInner a k bs s).work < 2 ^ 32 ∧
      (mulInner a k bs s).value (k + bs.length) = s.value k + 2 ^ (32 * k) * (a * limbsValue bs)
  | [], k, s, hw, _, _ => ⟨rfl, rfl, hw, by simp [mulInner]⟩
  | b :: bs, k, s, hw, hk, h31 => by
      simp only [List.length_cons] at hk h31
      obtain ⟨h1, h2, h3, h4⟩ := @mulStep_spec k (a * b.toNat) s hw (by omega) (by omega)
        (limb_mul_limb_le _ _ ha b.toNat_lt)
      obtain ⟨i1, i2, i3, i4⟩ := mulInner_spec ha bs (k + 1) _ h3 (by omega) (by omega)
      refine ⟨i1.trans h1, i2.trans h2, i3, ?_⟩
      rw [mulInner, List.length_cons, show k + (bs.length + 1) = k + 1 + bs.length by ring, i4, h4,
        limbsValue_cons, show 32 * (k + 1) = 32 * k + 32 by ring, Nat.pow_add]
      ring

/-- A value that fits in `results` leaves no carry waiting at or past the end of `results`. -/
lemma work_eq_zero_of_value_lt {s : MulState} {k : ℕ}
    (hv : s.value k < 2 ^ (32 * s.results.length)) (hk : s.results.length ≤ k) : s.work = 0 := by
  by_contra h0
  have := Nat.pow_le_pow_right (show 0 < 2 by norm_num)
    (show 32 * s.results.length ≤ 32 * k by omega)
  have := Nat.mul_le_mul_left (2 ^ (32 * k)) (Nat.one_le_iff_ne_zero.2 h0)
  unfold MulState.value at hv
  omega

/-- **The carry loop**: as long as the value fits in `results`, of at most `2^31` limbs, the
carry dies out before the end of `results`, and the value is then all in `results`. -/
lemma mulCarry_spec : ∀ (fuel k : ℕ) (s : MulState), s.work < 2 ^ 32 →
    s.value k < 2 ^ (32 * s.results.length) → s.results.length ≤ k + fuel →
    s.results.length ≤ 2 ^ 31 →
    (mulCarry k fuel s).ok = s.ok ∧ (mulCarry k fuel s).results.length = s.results.length ∧
      (mulCarry k fuel s).work = 0 ∧ limbsValue (mulCarry k fuel s).results = s.value k
  | 0, k, s, _, hv, hk, _ => by
      simp [mulCarry, work_eq_zero_of_value_lt hv hk, MulState.value]
  | fuel + 1, k, s, hw, hv, hk, h31 => by
      rw [mulCarry]
      split_ifs with h0
      · simp [h0, MulState.value]
      have hkl : k < s.results.length :=
        lt_of_not_le fun hge => h0 (work_eq_zero_of_value_lt hv hge)
      obtain ⟨h1, h2, h3, h4⟩ := @mulStep_spec k 0 s hw hkl (by omega) (by norm_num)
      obtain ⟨i1, i2, i3, i4⟩ :=
        mulCarry_spec fuel (k + 1) _ h3 (by rw [h4, h2]; simpa using hv) (by omega) (by omega)
      exact ⟨i1.trans h1, i2.trans h2, i3, by rw [i4, h4]; simp⟩

/-- **A row** adds `a · B` at weight `2^{32i}`, passes its checks and ends with a zero carry, as
long as the sum still fits in `c_size` limbs, at most `2^31`. -/
lemma mulRow_spec {bs : List UInt32} {cSize i : ℕ} {a : UInt32} {s : MulState}
    (hlen : s.results.length = cSize) (h31 : cSize ≤ 2 ^ 31) (hk : i + bs.length ≤ cSize)
    (hfit : limbsValue s.results + 2 ^ (32 * i) * (a.toNat * limbsValue bs) < 2 ^ (32 * cSize)) :
    (mulRow bs cSize i a s).ok = s.ok ∧ (mulRow bs cSize i a s).results.length = cSize ∧
      limbsValue (mulRow bs cSize i a s).results =
        limbsValue s.results + 2 ^ (32 * i) * (a.toNat * limbsValue bs) := by
  obtain ⟨h1, h2, h3, h4⟩ := mulInner_spec a.toNat_lt bs i { s with work := 0 } (by simp)
    (by simpa [hlen] using hk) (by omega)
  simp only [MulState.value, mul_zero, add_zero] at h1 h2 h4 ⊢
  obtain ⟨i1, i2, i3, i4⟩ := mulCarry_spec (cSize - bs.length) (i + bs.length) _ h3
    (by rw [MulState.value, h2, h4]; simpa [hlen] using hfit) (by rw [h2, hlen]; omega)
    (by rw [h2, hlen]; exact h31)
  simp only [mulRow, i3, decide_True, Bool.and_true]
  exact ⟨i1.trans h1, by rw [i2, h2, hlen], by rw [i4, MulState.value, h4]⟩

/-- **The outer loop** adds `A · B` at weight `2^{32i}`, every row passing its checks, as long
as every row's inner loop ends inside `results` and the sum fits in `c_size` limbs, at most
`2^31`. -/
lemma mulRows_spec {bs : List UInt32} {cSize : ℕ} (h31 : cSize ≤ 2 ^ 31) :
    ∀ (as : List UInt32) (i : ℕ) (s : MulState), s.results.length = cSize →
    (as ≠ [] → i + as.length - 1 + bs.length ≤ cSize) →
    limbsValue s.results + 2 ^ (32 * i) * (limbsValue as * limbsValue bs) < 2 ^ (32 * cSize) →
    (mulRows bs cSize i as s).ok = s.ok ∧
      limbsValue (mulRows bs cSize i as s).results =
        limbsValue s.results + 2 ^ (32 * i) * (limbsValue as * limbsValue bs)
  | [], i, s, _, _, _ => by simp [mulRows]
  | a :: as, i, s, hlen, hk, hfit => by
      have hsplit : 2 ^ (32 * i) * (limbsValue (a :: as) * limbsValue bs) =
          2 ^ (32 * i) * (a.toNat * limbsValue bs) +
            2 ^ (32 * (i + 1)) * (limbsValue as * limbsValue bs) := by
        rw [limbsValue_cons, show 32 * (i + 1) = 32 * i + 32 by ring, Nat.pow_add]; ring
      obtain ⟨h1, h2, h3⟩ := @mulRow_spec bs cSize i a s hlen h31 (by simp at hk; omega) (by omega)
      have hk' : as ≠ [] → i + 1 + as.length - 1 + bs.length ≤ cSize := fun hne => by
        have := List.length_pos.2 hne
        simp only [ne_eq, reduceCtorEq, not_false_eq_true, List.length_cons, forall_const] at hk
        omega
      obtain ⟨i1, i2⟩ := mulRows_spec h31 as (i + 1) (mulRow bs cSize i a s) h2 hk' (by omega)
      exact ⟨i1.trans h1, by rw [mulRows, i2, h3, hsplit]; ring⟩

/-- **The schoolbook loop of two canonical operands** whose product has at most `2^31` limbs
(`bits(a) + bits(b) ≤ 2^36`) computes their product and passes every check: each carry below
`2^32`, each index below `c_size` and inside `int`, no 64-bit sum wrapping, a zero carry at the
end of every row. -/
theorem schoolbook_spec {a b : MpInt} (ha : a.Canonical) (hb : b.Canonical)
    (hsize : a.bits + b.bits ≤ 2 ^ 36) :
    (schoolbook a.members b.members ((a.bits + b.bits + 31) / 32)).ok = true ∧
      limbsValue (schoolbook a.members b.members ((a.bits + b.bits + 31) / 32)).results =
        a.val * b.val := by
  have hla := length_eq_of_canonical ha
  have hlb := length_eq_of_canonical hb
  have hfit : a.val * b.val < 2 ^ (32 * ((a.bits + b.bits + 31) / 32)) := by
    have h1 := Nat.lt_size_self a.val
    have h2 := Nat.lt_size_self b.val
    rw [← bits_eq_size ha] at h1
    rw [← bits_eq_size hb] at h2
    calc a.val * b.val < 2 ^ a.bits * 2 ^ b.bits := Nat.mul_lt_mul'' h1 h2
      _ = 2 ^ (a.bits + b.bits) := (Nat.pow_add _ _ _).symm
      _ ≤ 2 ^ (32 * ((a.bits + b.bits + 31) / 32)) :=
        Nat.pow_le_pow_right (by norm_num) (by omega)
  obtain ⟨h1, h2⟩ := @mulRows_spec b.members ((a.bits + b.bits + 31) / 32) (by omega) a.members 0
    ⟨List.replicate ((a.bits + b.bits + 31) / 32) 0, 0, true⟩ (by simp) (fun hne => by
      have := bits_pos ha hne
      have := List.length_pos.2 hne
      omega) (by simpa [val] using hfit)
  refine ⟨h1, ?_⟩
  rw [schoolbook, h2]
  simp [val]

/-! ### Both products are exact and canonical -/

lemma val_mulBody {a b : MpInt} (ha : a.Canonical) (hb : b.Canonical)
    (hsize : a.bits + b.bits ≤ 2 ^ 36) : (mulBody a b).val = a.val * b.val := by
  unfold mulBody
  split_ifs with h1 h2
  · rw [val_eq_one_of_bits ha h1, one_mul]
  · rw [val_eq_one_of_bits hb h2, mul_one]
  · rw [val_ofMembers, (schoolbook_spec ha hb hsize).2]

lemma canonical_mulBody {a b : MpInt} (ha : a.Canonical) (hb : b.Canonical) :
    (mulBody a b).Canonical := by
  unfold mulBody
  split_ifs
  exacts [hb, ha, canonical_ofMembers _]

/-- **`operator*(const MpInt&)` is exact** on canonical operands whose product has at most
`2^31` limbs. -/
theorem val_mul {a b : MpInt} (ha : a.Canonical) (hb : b.Canonical)
    (hsize : a.bits + b.bits ≤ 2 ^ 36) : (mul a b).val = a.val * b.val := by
  unfold mul
  split_ifs with h0
  · rcases h0 with h | h
    · simp [(members_eq_nil_iff ha).1 h]
    · simp [(members_eq_nil_iff hb).1 h]
  · rw [val_mulBody hb ha (by omega), Nat.mul_comm]
  · exact val_mulBody ha hb hsize

theorem canonical_mul {a b : MpInt} (ha : a.Canonical) (hb : b.Canonical) :
    (mul a b).Canonical := by
  unfold mul
  split_ifs
  exacts [canonical_zero, canonical_mulBody hb ha, canonical_mulBody ha hb]

/-- **The loop of `operator*(uint32_t)`** adds `multiplier · ms` to the incoming carry, keeps the
carry below `2^32`, and never wraps its 64-bit accumulator. -/
lemma mulWordLoop_spec {multiplier : ℕ} (hm : multiplier < 2 ^ 32) :
    ∀ (ms : List UInt32) (work : ℕ), work < 2 ^ 32 →
    (mulWordLoop multiplier ms work).2.2 = true ∧
      (mulWordLoop multiplier ms work).2.1 < 2 ^ 32 ∧
      limbsValue (mulWordLoop multiplier ms work).1 +
          2 ^ (32 * ms.length) * (mulWordLoop multiplier ms work).2.1 =
        work + multiplier * limbsValue ms
  | [], work, hw => ⟨rfl, hw, by simp [mulWordLoop]⟩
  | m :: ms, work, hw => by
      have hmm := limb_mul_limb_le m.toNat multiplier m.toNat_lt hm
      have hsum : work + m.toNat * multiplier < 2 ^ 64 := by omega
      obtain ⟨h1, h2, h3⟩ :=
        mulWordLoop_spec hm ms ((work + m.toNat * multiplier) / 2 ^ 32) (by omega)
      simp only [mulWordLoop, Nat.mod_eq_of_lt hsum, Nat.shiftRight_eq_div_pow, hsum,
        decide_True, Bool.true_and, h1, h2, true_and, limbsValue_cons, toNat_uint32OfNat,
        List.length_cons]
      have hdm := Nat.mod_add_div (work + m.toNat * multiplier) (2 ^ 32)
      rw [show 32 * (ms.length + 1) = 32 + 32 * ms.length by ring, Nat.pow_add]
      linear_combination hdm + 2 ^ 32 * h3

/-- **`operator*(uint32_t)` is exact** on a canonical operand. -/
theorem val_mulWord {m : MpInt} (h : m.Canonical) (multiplier : UInt32) :
    (mulWord m multiplier).val = m.val * multiplier.toNat := by
  obtain ⟨-, h2, h3⟩ := mulWordLoop_spec multiplier.toNat_lt m.members 0 (by norm_num)
  unfold mulWord
  by_cases h0 : multiplier = 0
  · simp [h0]
  by_cases h1 : multiplier = 1
  · simp [h1]
  rw [if_neg h0, if_neg h1]
  split_ifs with hb0 hb1
  · rw [bits_eq_size h, Nat.size_eq_zero] at hb0
    simp [hb0]
  · rw [val_ofUInt64, val_eq_one_of_bits h hb1, toNat_uint64OfNat,
      Nat.mod_eq_of_lt (by have := multiplier.toNat_lt; omega), one_mul]
  · rw [val_ofMembers]
    split_ifs with hc
    · rw [limbsValue_concat, toNat_uint32OfNat, Nat.mod_eq_of_lt h2, mulWordLoop_length, h3, val]
      ring
    · simp only [ne_eq, not_not] at hc
      simpa [hc, val, Nat.mul_comm] using h3

theorem canonical_mulWord {m : MpInt} (h : m.Canonical) (multiplier : UInt32) :
    (mulWord m multiplier).Canonical := by
  unfold mulWord
  by_cases h0 : multiplier = 0
  · rw [if_pos h0]; exact canonical_zero
  by_cases h1 : multiplier = 1
  · rw [if_neg h0, if_pos h1]; exact h
  rw [if_neg h0, if_neg h1]
  split_ifs
  exacts [canonical_zero, canonical_ofUInt64 _, canonical_ofMembers _]

/-- The product's bit length is at most the sum of the operands'. -/
lemma bits_mul_le {a b : MpInt} (ha : a.Canonical) (hb : b.Canonical)
    (hsize : a.bits + b.bits ≤ 2 ^ 36) : (mul a b).bits ≤ a.bits + b.bits := by
  rw [bits_eq_size (canonical_mul ha hb), val_mul ha hb hsize, Nat.size_le, Nat.pow_add]
  exact Nat.mul_lt_mul'' (val_lt_two_pow_bits ha) (val_lt_two_pow_bits hb)

/-- **The products agree on limb vectors.** On canonical operands whose products have at most
`2^31` limbs, `operator*` builds the same vector whichever operand it is called on (its swap of
the operands is invisible), associates, and has `MpInt(1)` as unit; `operator*(uint32_t m)`
builds the vector of `operator*(MpInt(m))`. -/
theorem mul_limbs_agree :
    (∀ a b : MpInt, a.Canonical → b.Canonical → a.bits + b.bits ≤ 2 ^ 36 →
        mul a b = mul b a) ∧
      (∀ a b c : MpInt, a.Canonical → b.Canonical → c.Canonical →
        a.bits + b.bits + c.bits ≤ 2 ^ 36 → mul (mul a b) c = mul a (mul b c)) ∧
      (∀ a : MpInt, a.Canonical → a.bits + 1 ≤ 2 ^ 36 → mul a (ofUInt64 1) = a) ∧
      (∀ (a : MpInt) (m : UInt32), a.Canonical → a.bits + 32 ≤ 2 ^ 36 →
        mulWord a m = mul a (ofUInt64 (UInt64.ofNat m.toNat))) := by
  refine ⟨fun a b ha hb hs => ?_, fun a b c ha hb hc hs => ?_, fun a ha hs => ?_,
    fun a m ha hs => ?_⟩
  · exact eq_of_val_eq (canonical_mul ha hb) (canonical_mul hb ha)
      (by rw [val_mul ha hb hs, val_mul hb ha (by omega), Nat.mul_comm])
  · have hab := canonical_mul ha hb
    have hbc := canonical_mul hb hc
    have h1 := bits_mul_le ha hb (by omega)
    have h2 := bits_mul_le hb hc (by omega)
    exact eq_of_val_eq (canonical_mul hab hc) (canonical_mul ha hbc)
      (by rw [val_mul hab hc (by omega), val_mul ha hb (by omega), val_mul ha hbc (by omega),
        val_mul hb hc (by omega), Nat.mul_assoc])
  · have h1 := canonical_ofUInt64 1
    have hb1 : (ofUInt64 1).bits = 1 := by decide
    exact eq_of_val_eq (canonical_mul ha h1) ha
      (by rw [val_mul ha h1 (by omega), val_ofUInt64, show (1 : UInt64).toNat = 1 from rfl,
        Nat.mul_one])
  · have hm := m.toNat_lt
    have hc := canonical_ofUInt64 (UInt64.ofNat m.toNat)
    have hcm : (ofUInt64 (UInt64.ofNat m.toNat)).val = m.toNat := by
      rw [val_ofUInt64, toNat_uint64OfNat, Nat.mod_eq_of_lt (by omega)]
    have hcb : (ofUInt64 (UInt64.ofNat m.toNat)).bits ≤ 32 := by
      rw [bits_eq_size hc, hcm, Nat.size_le]; exact hm
    exact eq_of_val_eq (canonical_mulWord ha m) (canonical_mul ha hc)
      (by rw [val_mulWord ha, val_mul ha hc (by omega), hcm])

/-! ### Past `2^31` limbs the index wraps -/

/-- A step whose element lies past the end of `results`: the flag drops, the write is lost, and
the carry takes the sum with that limb read as zero. -/
lemma mulStep_of_le {k addend : ℕ} {s : MulState} (h : s.results.length ≤ intIndex k) :
    (mulStep k addend s).ok = false ∧ (mulStep k addend s).results = s.results ∧
      (mulStep k addend s).work = ((s.work + addend) % 2 ^ 64) >>> 32 := by
  simp [mulStep, List.getElem?_eq_none h, List.set_eq_of_length_le h, not_lt.2 h]

lemma mulInner_append (a : ℕ) : ∀ (xs ys : List UInt32) (k : ℕ) (s : MulState),
    mulInner a k (xs ++ ys) s = mulInner a (k + xs.length) ys (mulInner a k xs s)
  | [], _, _, _ => rfl
  | x :: xs, ys, k, s => by
      rw [List.cons_append, mulInner, mulInner, mulInner_append a xs ys (k + 1),
        List.length_cons, Nat.add_right_comm, Nat.add_assoc]

@[simp] lemma limbsValue_replicate_max (n : ℕ) :
    limbsValue (List.replicate n 0xffffffff) = 2 ^ (32 * n) - 1 := by
  induction n with
  | zero => rfl
  | succ n ih =>
      rw [List.replicate_succ, limbsValue_cons, ih, Nat.mul_succ, Nat.pow_add,
        Nat.mul_comm (2 ^ (32 * n))]
      have := Nat.one_le_two_pow (n := 32 * n)
      change 4294967295 + 2 ^ 32 * (2 ^ (32 * n) - 1) = 2 ^ 32 * 2 ^ (32 * n) - 1
      omega

/-- A carry below the next weight: the value at `k` is below `2^{32k}`, so nothing waits. -/
lemma work_eq_zero_of_value_lt_pow {s : MulState} {k : ℕ} (hv : s.value k < 2 ^ (32 * k)) :
    s.work = 0 := by
  by_contra h0
  have := Nat.mul_le_mul_left (2 ^ (32 * k)) (Nat.one_le_iff_ne_zero.2 h0)
  unfold MulState.value at hv
  omega

lemma mulCarry_of_work_zero {s : MulState} (h : s.work = 0) (k fuel : ℕ) : mulCarry k fuel s = s := by
  cases fuel <;> simp [mulCarry, h]

/-- A row entered with no carry, whose first inner loop leaves none, is that loop. -/
lemma mulRow_of_work_zero {bs : List UInt32} {cSize i : ℕ} {a : UInt32} {s : MulState}
    (hs : s.work = 0) (h : (mulInner a.toNat i bs s).work = 0) :
    mulRow bs cSize i a s = mulInner a.toNat i bs s := by
  have hs' : { s with work := 0 } = s := by rw [← hs]
  simp only [mulRow, hs', mulCarry_of_work_zero h, h, decide_True, Bool.and_true]
  rw [← h]

/-- The limbs `0xffffffff`, `n` of them: a canonical value of `32 n` bits. -/
lemma canonical_replicate_max (n : ℕ) : (⟨List.replicate n 0xffffffff⟩ : MpInt).Canonical := by
  cases n <;> simp [Canonical, List.getLast?_replicate]

lemma bits_replicate_max {n : ℕ} (hn : 1 ≤ n) :
    (⟨List.replicate n 0xffffffff⟩ : MpInt).bits = 32 * n := by
  obtain ⟨m, rfl⟩ : ∃ m, n = m + 1 := ⟨n - 1, by omega⟩
  have hm : (⟨List.replicate (m + 1) 0xffffffff⟩ : MpInt).members =
      List.replicate m 0xffffffff ++ [0xffffffff] := List.replicate_succ' _ _
  rw [bits_of_concat hm, List.length_replicate, show countLeadingZeroBits 0xffffffff = 0 by decide]
  omega

/-- **The schoolbook loop of `MpInt(2^32)` by `2^31` limbs `0xffffffff`.** Row 0 adds nothing.
Row 1 writes `0xffffffff` at the indices `1 … 2^31 - 1`; its last step, at `int k = 2^31`, that
is `-2^31`, addresses the element `2^64 - 2^31`, past the `2^31 + 2` limbs of `results`: the
flag drops and the top limb is lost. -/
lemma schoolbook_replicate_max {n : ℕ} (hn : n = 2 ^ 31) :
    (schoolbook [0, 1] (List.replicate n 0xffffffff) (n + 2)).ok = false ∧
      limbsValue (schoolbook [0, 1] (List.replicate n 0xffffffff) (n + 2)).results =
        2 ^ 32 * (2 ^ (32 * (n - 1)) - 1) := by
  obtain ⟨m, rfl⟩ : ∃ m, n = m + 1 := ⟨n - 1, by omega⟩
  have hidx : m + 1 + 2 ≤ intIndex (1 + m) := by
    rw [show 1 + m = 2 ^ 31 by omega, show m + 1 + 2 = 2 ^ 31 + 2 by omega]; decide
  -- row 0 adds `0 · B` and leaves no carry
  obtain ⟨r1, l1, -, v1⟩ := mulInner_spec (a := 0) (by norm_num) (List.replicate (m + 1) 0xffffffff)
    0 ⟨List.replicate (m + 1 + 2) 0, 0, true⟩ (by norm_num) (by simp) (by simp; omega)
  simp only [MulState.value, limbsValue_replicate_zero, zero_mul, mul_zero, add_zero,
    List.length_replicate] at r1 l1 v1
  have hw1 := Nat.eq_zero_of_add_eq_zero v1
  rw [Nat.mul_eq_zero] at hw1
  generalize ht0 : mulInner 0 0 (List.replicate (m + 1) 0xffffffff)
    ⟨List.replicate (m + 1 + 2) 0, 0, true⟩ = t0 at r1 l1 hw1
  obtain ⟨hv0, hw0⟩ : limbsValue t0.results = 0 ∧ t0.work = 0 :=
    ⟨hw1.1, hw1.2.resolve_left (by positivity)⟩
  -- row 1 writes `0xffffffff` up to index `2^31 - 1`, with no carry left
  obtain ⟨r2, l2, -, v2⟩ := mulInner_spec (a := 1) (by norm_num)
    (List.replicate m 0xffffffff) 1 t0 (by omega) (by simp; omega) (by simp; omega)
  simp only [MulState.value, hv0, hw0, limbsValue_replicate_max, List.length_replicate,
    mul_zero, zero_add, one_mul, mul_one] at r2 l2 v2
  generalize ht1 : mulInner 1 1 (List.replicate m 0xffffffff) t0 = t1 at r2 l2 v2
  have hw2 : t1.work = 0 := work_eq_zero_of_value_lt_pow (k := 1 + m) (by
    rw [MulState.value, v2, show 32 * (1 + m) = 32 + 32 * m by ring, Nat.pow_add]
    exact Nat.mul_lt_mul_of_pos_left (Nat.sub_lt (by positivity) one_pos) (by positivity))
  -- and its last step, at `int k = -2^31`, is lost
  obtain ⟨o3, r3, w3⟩ := @mulStep_of_le (1 + m) (1 * (0xffffffff : UInt32).toNat) t1
    (by rw [l2, l1]; exact hidx)
  have hrow1 : mulInner 1 1 (List.replicate (m + 1) 0xffffffff) t0 =
      mulStep (1 + m) (1 * (0xffffffff : UInt32).toNat) t1 := by
    rw [List.replicate_succ', mulInner_append, ht1, List.length_replicate, mulInner, mulInner]
  have hrow0 : (mulInner (0 : UInt32).toNat 0 (List.replicate (m + 1) 0xffffffff)
      ⟨List.replicate (m + 1 + 2) 0, 0, true⟩).work = 0 := by rw [UInt32.toNat_zero, ht0, hw0]
  rw [schoolbook, mulRows, mulRows, mulRows, mulRow_of_work_zero rfl hrow0, UInt32.toNat_zero, ht0,
    mulRow_of_work_zero hw0 (by change (mulInner 1 1 _ t0).work = 0; rw [hrow1, w3, hw2]; decide)]
  change (mulInner 1 1 _ t0).ok = false ∧ limbsValue (mulInner 1 1 _ t0).results = _
  rw [hrow1, o3, r3, Nat.add_sub_cancel]
  rw [hw2, mul_zero, add_zero] at v2
  exact ⟨rfl, v2⟩

/-- `MpInt(2^32) * (2^31` limbs `0xffffffff)` loses the top limb of the product. -/
lemma mul_replicate_max {n : ℕ} (hn : n = 2 ^ 31) :
    (mul ⟨[0, 1]⟩ ⟨List.replicate n 0xffffffff⟩).val ≠
      (⟨[0, 1]⟩ : MpInt).val * (⟨List.replicate n 0xffffffff⟩ : MpInt).val := by
  have hb := bits_replicate_max (n := n) (by omega)
  have ha : (⟨[0, 1]⟩ : MpInt).bits = 33 := by decide
  have hc : ((⟨[0, 1]⟩ : MpInt).bits + (⟨List.replicate n 0xffffffff⟩ : MpInt).bits + 31) / 32 =
      n + 2 := by rw [ha, hb]; omega
  have hlt : 2 ^ (32 * (n - 1)) < 2 ^ (32 * n) := Nat.pow_lt_pow_right (by norm_num) (by omega)
  have hpos := Nat.one_le_two_pow (n := 32 * (n - 1))
  rw [mul, if_neg (by simp; omega), if_neg (by simp; omega), mulBody, if_neg (by omega),
    if_neg (by omega), val_ofMembers, hc, (schoolbook_replicate_max hn).2, val, val,
    limbsValue_replicate_max]
  change 2 ^ 32 * (2 ^ (32 * (n - 1)) - 1) ≠ 4294967296 * (2 ^ (32 * n) - 1)
  omega

end MpInt

end Asakusafw.Math

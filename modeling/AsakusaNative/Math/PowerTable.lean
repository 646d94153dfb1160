import Mathlib.Data.List.GetD
import AsakusaNative.Math.MpIntBytes
import AsakusaNative.Math.MpIntMul

/-!
# The table of powers of ten

`mpdecimal.cpp`: `MpInt::power_of_10`, which keeps the process-wide table
`s_exponents_table` of the powers of ten computed so far. The table starts empty; the first call
seeds it with the twenty powers `s_compact_exponents` that fit in 64 bits, and a call for an
exponent beyond its end extends it by repeated multiplication of the last entry by ten. The
mutex serialises the calls, so the table is a state threaded through them.

* `TableInv`: the table is empty or holds at least the seeds, and entry `k` is a canonical
  `10^k`; `tableInv_runPowerOf10`: every history of calls keeps it.
* `powerOf10_spec`: one call keeps it, grows the table to `max(size, 20, e + 1)` entries, leaves
  the entries already there alone, and returns `10^e`.
* `powerOf10_history`: the same for the call that follows any history of calls.
* `canonical_everywhere`: every `MpInt` the library builds is canonical.
-/

namespace Asakusafw.Math

namespace MpInt

/-- `s_compact_exponents`: the powers of ten that fit in 64 bits. -/
def sCompactExponents : List UInt64 :=
  [1, 10, 100, 1000, 10000, 100000, 1000000, 10000000, 100000000, 1000000000, 10000000000,
    100000000000, 1000000000000, 10000000000000, 100000000000000, 1000000000000000,
    10000000000000000, 100000000000000000, 1000000000000000000, 10000000000000000000]

/-- The loop that extends the table: `next = *last * 10` is pushed `n` times. -/
def extendTable (last : MpInt) : ℕ → List MpInt → List MpInt
  | 0, table => table
  | n + 1, table =>
      let next := mulWord last 10
      extendTable next n (table ++ [next])

/-- `MpInt::power_of_10(exponent)` on the table `table`: the entry for `exponent`, and the table
after the call. A call for an exponent past the end seeds an empty table and then runs the
loop `for (i = size; i <= exponent; i++)`. -/
def powerOf10 (table : List MpInt) (exponent : ℕ) : MpInt × List MpInt :=
  let table :=
    if exponent ≥ table.length then
      let seeded := if table = [] then sCompactExponents.map ofUInt64 else table
      extendTable (seeded.getLastD zero) (exponent + 1 - seeded.length) seeded
    else table
  (table.getD exponent zero, table)

/-- The table after a history of calls. -/
def runPowerOf10 (table : List MpInt) : List ℕ → List MpInt
  | [] => table
  | e :: es => runPowerOf10 (powerOf10 table e).2 es

/-- The invariant of the table: empty, or holding at least the twenty seeds; entry `k` is a
canonical `10^k`. -/
structure TableInv (table : List MpInt) : Prop where
  seeded : table = [] ∨ 20 ≤ table.length
  entry : ∀ k < table.length, (table.getD k zero).val = 10 ^ k ∧ (table.getD k zero).Canonical

lemma sCompactExponents_toNat : ∀ k < 20, ((sCompactExponents.getD k 0).toNat = 10 ^ k) := by
  decide

lemma tableInv_seeds : TableInv (sCompactExponents.map ofUInt64) := by
  refine ⟨Or.inr (by simp [sCompactExponents]), fun k hk => ?_⟩
  have hk20 : k < 20 := by simpa [sCompactExponents] using hk
  rw [List.getD_eq_getElem _ _ hk, List.getElem_map, ← List.getD_eq_getElem _ 0]
  exact ⟨by rw [val_ofUInt64, sCompactExponents_toNat k hk20], canonical_ofUInt64 _⟩

/-- **The extension loop** appends `10^{|t|}, 10^{|t|+1}, …` after a table whose last entry is a
canonical `10^{|t|-1}`. -/
lemma extendTable_spec : ∀ (n : ℕ) (last : MpInt) (table : List MpInt), table ≠ [] →
    last.val = 10 ^ (table.length - 1) → last.Canonical →
    (∀ k < table.length, (table.getD k zero).val = 10 ^ k ∧ (table.getD k zero).Canonical) →
    table <+: extendTable last n table ∧ (extendTable last n table).length = table.length + n ∧
      ∀ k < (extendTable last n table).length,
        ((extendTable last n table).getD k zero).val = 10 ^ k ∧
          ((extendTable last n table).getD k zero).Canonical
  | 0, _, table, _, _, _, h => ⟨List.prefix_refl _, rfl, h⟩
  | n + 1, last, table, hne, hlast, hcan, h => by
      have hnext : (mulWord last 10).val = 10 ^ table.length := by
        rw [val_mulWord hcan, hlast]
        have := List.length_pos.2 hne
        rw [show (10 : UInt32).toNat = 10 from rfl, ← Nat.pow_succ]
        congr 1; omega
      have hentries : ∀ k < (table ++ [mulWord last 10]).length,
          ((table ++ [mulWord last 10]).getD k zero).val = 10 ^ k ∧
            ((table ++ [mulWord last 10]).getD k zero).Canonical := by
        intro k hk
        rw [List.length_append, List.length_singleton] at hk
        rcases Nat.lt_or_ge k table.length with hk' | hk'
        · rw [List.getD_append _ _ _ _ hk']; exact h k hk'
        · rw [show k = table.length by omega, List.getD_append_right _ _ _ _ le_rfl, Nat.sub_self]
          exact ⟨hnext, canonical_mulWord hcan 10⟩
      obtain ⟨h1, h2, h3⟩ := extendTable_spec n (mulWord last 10) (table ++ [mulWord last 10])
        (by simp) (by simpa using hnext) (canonical_mulWord hcan 10) hentries
      refine ⟨(List.prefix_append _ _).trans h1, ?_, h3⟩
      rw [extendTable, h2, List.length_append, List.length_singleton]; ring

lemma getLastD_eq_getD (l : List MpInt) (d : MpInt) : l.getLastD d = l.getD (l.length - 1) d := by
  simp [List.getLastD_eq_getLast?, List.getLast?_eq_getElem?, List.getD_eq_getElem?_getD]

lemma tableInv_nil : TableInv [] := ⟨Or.inl rfl, fun _ hk => absurd hk (Nat.not_lt_zero _)⟩

/-- Seeding keeps the invariant: the seeded table is nonempty, extends the table, and has
`max(size, 20)` entries. -/
lemma seeded_spec {table : List MpInt} (hinv : TableInv table) :
    let seeded := if table = [] then sCompactExponents.map ofUInt64 else table
    seeded ≠ [] ∧ TableInv seeded ∧ table <+: seeded ∧
      seeded.length = max table.length 20 := by
  by_cases h0 : table = []
  · subst h0
    exact ⟨by simp [sCompactExponents], tableInv_seeds, List.nil_prefix,
      by simp [sCompactExponents]⟩
  · have := hinv.seeded.resolve_left h0
    simp only [if_neg h0]
    exact ⟨h0, hinv, List.prefix_refl _, by omega⟩

/-- **One call** on a table that keeps the invariant: the table grows to `max(size, 20, e + 1)`
entries, keeps the entries it had and the invariant, and the call returns a canonical `10^e`. -/
theorem powerOf10_spec {table : List MpInt} (hinv : TableInv table) (e : ℕ) :
    (powerOf10 table e).2.length = max table.length (max 20 (e + 1)) ∧
      table <+: (powerOf10 table e).2 ∧ TableInv (powerOf10 table e).2 ∧
      (powerOf10 table e).1.val = 10 ^ e ∧ (powerOf10 table e).1.Canonical := by
  by_cases he : e ≥ table.length
  · -- the seeds, when the table is empty, then the extension loop
    obtain ⟨hsne, hsinv, hspre, hslen⟩ := seeded_spec hinv
    simp only [powerOf10, if_pos he]
    generalize (if table = [] then sCompactExponents.map ofUInt64 else table) = seeded
      at hsne hsinv hspre hslen ⊢
    have hlast := hsinv.entry (seeded.length - 1) (by have := List.length_pos.2 hsne; omega)
    rw [← getLastD_eq_getD] at hlast
    obtain ⟨h1, h2, h3⟩ :=
      extendTable_spec (e + 1 - seeded.length) _ seeded hsne hlast.1 hlast.2 hsinv.entry
    exact ⟨by rw [h2]; omega, hspre.trans h1, ⟨Or.inr (by omega), h3⟩, h3 e (by omega)⟩
  · -- the table already holds the entry
    have h20 := hinv.seeded.resolve_left (by rintro rfl; simp at he)
    simp only [powerOf10, if_neg he]
    exact ⟨by omega, List.prefix_refl _, hinv, hinv.entry e (by omega)⟩

/-! ### The table as a transparent cache -/

/-- What one call of the library may do to the table of powers: leave it, or run `power_of_10`
once. -/
def TableStep (table table' : List MpInt) : Prop :=
  table' = table ∨ ∃ e, table' = (powerOf10 table e).2

@[simp] lemma tableStep_refl (table : List MpInt) : TableStep table table := .inl rfl

@[simp] lemma tableStep_powerOf10 (table : List MpInt) (e : ℕ) :
    TableStep table (powerOf10 table e).2 :=
  .inr ⟨e, rfl⟩

/-- A step keeps the invariant and only appends to the table. -/
lemma TableInv.step {table table' : List MpInt} (ht : TableInv table)
    (h : TableStep table table') : TableInv table' ∧ table <+: table' := by
  rcases h with rfl | ⟨e, rfl⟩
  · exact ⟨ht, List.prefix_refl _⟩
  · obtain ⟨-, hpre, hinv, -⟩ := powerOf10_spec ht e
    exact ⟨hinv, hpre⟩

/-- A computation that reads the table of powers, as a function of the table: it changes the
table by one step at most, and its answer is the same on every table that keeps the invariant. -/
structure Transparent {α : Type} (f : List MpInt → α × List MpInt) : Prop where
  step : ∀ table, TableStep table (f table).2
  answer : ∀ {table table'}, TableInv table → TableInv table' → (f table).1 = (f table').1

/-- The entry `power_of_10` returns is the same on every table that keeps the invariant: the
canonical `10^e`. -/
lemma powerOf10_fst_eq {table table' : List MpInt} (ht : TableInv table) (ht' : TableInv table')
    (e : ℕ) : (powerOf10 table e).1 = (powerOf10 table' e).1 := by
  obtain ⟨-, -, -, hv, hc⟩ := powerOf10_spec ht e
  obtain ⟨-, -, -, hv', hc'⟩ := powerOf10_spec ht' e
  exact eq_of_val_eq hc hc' (hv.trans hv'.symm)

/-- **Every history of calls** from a table that keeps the invariant keeps it. -/
theorem tableInv_runPowerOf10 : ∀ (es : List ℕ) {table : List MpInt}, TableInv table →
    TableInv (runPowerOf10 table es)
  | [], _, h => h
  | e :: es, _, h => tableInv_runPowerOf10 es (powerOf10_spec h e).2.2.1

/-- **The table after any history of calls.** Starting from the empty table, whatever the
exponents requested before, the next call `power_of_10(e)` grows the table to
`max(size, 20, e + 1)` entries, leaves the entries already present unchanged, keeps every entry
`k` equal to `10^k`, and returns `10^e`. -/
theorem powerOf10_history (es : List ℕ) (e : ℕ) :
    (powerOf10 (runPowerOf10 [] es) e).2.length =
        max (runPowerOf10 [] es).length (max 20 (e + 1)) ∧
      runPowerOf10 [] es <+: (powerOf10 (runPowerOf10 [] es) e).2 ∧
      (∀ k < (powerOf10 (runPowerOf10 [] es) e).2.length,
        ((powerOf10 (runPowerOf10 [] es) e).2.getD k zero).val = 10 ^ k) ∧
      (powerOf10 (runPowerOf10 [] es) e).1.val = 10 ^ e := by
  obtain ⟨h1, h2, h3, h4, -⟩ := powerOf10_spec (tableInv_runPowerOf10 es tableInv_nil) e
  exact ⟨h1, h2, fun k hk => (h3.entry k hk).1, h4⟩

/-- **Every `MpInt` the library builds is canonical**: `MpInt()`, the `uint64_t` and byte
constructors, the private vector constructors through `shrink_vector`, both products of
canonical operands on every branch, and every entry of the table of powers of ten after any
history of calls. -/
theorem canonical_everywhere :
    zero.Canonical ∧ (∀ v : UInt64, (ofUInt64 v).Canonical) ∧
      (∀ bytes : List UInt8, (ofBytes bytes).Canonical) ∧
      (∀ v : List UInt32, (ofMembers v).Canonical) ∧
      (∀ a b : MpInt, a.Canonical → b.Canonical → (mul a b).Canonical) ∧
      (∀ (a : MpInt) (m : UInt32), a.Canonical → (mulWord a m).Canonical) ∧
      (∀ es : List ℕ, ∀ k < (runPowerOf10 [] es).length,
        ((runPowerOf10 [] es).getD k zero).Canonical) :=
  ⟨canonical_zero, canonical_ofUInt64, canonical_ofBytes, canonical_ofMembers,
    fun _ _ => canonical_mul, fun _ m h => canonical_mulWord h m,
    fun es k hk => ((tableInv_runPowerOf10 es tableInv_nil).entry k hk).2⟩

end MpInt

end Asakusafw.Math

import AsakusaNative.Serde.Decimal

/-!
# Fields of every type

`serde.hpp`: the comparator `compare_T` and the skipper `skip_T` of each field type, gathered
over the type; `compare_decimal` threads the table of powers, the others leave it alone.

* `FieldType.Field`, `FieldType.encode`: the well-formed fields of each type and their bytes.
* `FieldType.skip_encode`: `skip_T` passes exactly one field.
* `compareField_cursors`: `compare_T` leaves each cursor within its own field, and where `skip_T`
  leaves it whatever it returns, except on the early returns `StopsEarly`: after a null against
  a value, two decimals of different signs or two strings that differ in a byte of their common
  prefix, the cursors may stop inside the fields (`compareInt_null_cursor`).
* `compare_orders_fields`: the comparators of the integer, date and string types order the
  fields as their decoded values, null first, hence are antisymmetric and transitive.
-/

namespace Asakusafw.Serde

open Math (MpInt Sign)

/-- The field types of a serialized row. -/
inductive FieldType
  | boolean | byte | short | int | long | float | double | date | dateTime | string | decimal
  deriving DecidableEq, Repr

namespace FieldType

/-- The well-formed fields of each type. -/
abbrev Field : FieldType → Type
  | boolean => UInt8
  | byte => NumericField 1
  | short => NumericField 2
  | int => NumericField 4
  | long => NumericField 8
  | float => NumericField 4
  | double => NumericField 8
  | date => UnsignedField 4
  | dateTime => UnsignedField 8
  | string => StringField
  | decimal => DecimalField

/-- The bytes of a field. -/
def encode : (t : FieldType) → t.Field → List UInt8
  | boolean, x => [x]
  | byte, x => NumericField.encode x
  | short, x => NumericField.encode x
  | int, x => NumericField.encode x
  | long, x => NumericField.encode x
  | float, x => NumericField.encode x
  | double, x => NumericField.encode x
  | date, x => UnsignedField.payload x
  | dateTime, x => UnsignedField.payload x
  | string, x => StringField.encode x
  | decimal, x => DecimalField.encode x

/-- `compare_T`, on the table of powers that `compare_decimal` may extend. -/
def compareField (table : List MpInt) :
    FieldType → List UInt8 → List UInt8 → Compared × List MpInt
  | boolean, a, b => (compareBoolean a b, table)
  | byte, a, b => (compareByte a b, table)
  | short, a, b => (compareShort a b, table)
  | int, a, b => (compareInt a b, table)
  | long, a, b => (compareLong a b, table)
  | float, a, b => (compareFloat a b, table)
  | double, a, b => (compareDouble a b, table)
  | date, a, b => (compareDate a b, table)
  | dateTime, a, b => (compareDateTime a b, table)
  | string, a, b => (compareString a b, table)
  | decimal, a, b => compareDecimal table a b

/-- `skip_T`. -/
def skip : FieldType → List UInt8 → List UInt8
  | boolean => skipBoolean
  | byte => skipByte
  | short => skipShort
  | int => skipInt
  | long => skipLong
  | float => skipFloat
  | double => skipDouble
  | date => skipDate
  | dateTime => skipDateTime
  | string => skipString
  | decimal => skipDecimal

/-- The types of a fixed size, with no null header. -/
def FixedSize (t : FieldType) : Prop := t = boolean ∨ t = date ∨ t = dateTime

/-- **`skip_T` passes exactly one field.** -/
lemma skip_encode (t : FieldType) (x : t.Field) (r : List UInt8) :
    t.skip (t.encode x ++ r) = r := by
  cases t with
  | boolean => exact skipBoolean_encode x r
  | byte | short | int | long | float | double => exact skipNumeric_encode x r
  | date | dateTime => exact skipUnsigned_encode x r
  | string => exact skipString_encode x r
  | decimal => exact skipDecimal_encode x r

/-- A fixed-size field: `compare_T` passes both fields. -/
lemma compareField_fixedSize (table : List MpInt) {t : FieldType} (ht : t.FixedSize)
    (x y : t.Field) (ra rb : List UInt8) :
    (t.compareField table (t.encode x ++ ra) (t.encode y ++ rb)).1.a = ra ∧
      (t.compareField table (t.encode x ++ ra) (t.encode y ++ rb)).1.b = rb := by
  rcases ht with rfl | rfl | rfl
  · rw [compareField, encode, encode, compareBoolean_encode]; exact ⟨rfl, rfl⟩
  · exact compareUnsigned_encode x y ra rb
  · exact compareUnsigned_encode x y ra rb

/-- Where `compare_T` may return before passing both fields: a null against a value, two
decimals of different signs, or two strings that differ in a byte of their common prefix. -/
def StopsEarly : (t : FieldType) → t.Field → t.Field → Prop
  | byte, x, y | short, x, y | int, x, y | long, x, y | float, x, y | double, x, y =>
      Xor' (x = .null) (y = .null)
  | string, x, y =>
      Xor' (x.length.value < 0) (y.length.value < 0) ∨
        ¬x.length.value < 0 ∧ ¬y.length.value < 0 ∧
          ¬(x.payload <+: y.payload ∨ y.payload <+: x.payload)
  | decimal, x, y =>
      Xor' (x = none) (y = none) ∨ ∃ dx dy, x = some dx ∧ y = some dy ∧ dx.plus ≠ dy.plus
  | boolean, _, _ | date, _, _ | dateTime, _, _ => False

/-- Away from the early returns, `compare_T` passes both fields, whatever it returns. -/
lemma compareField_passes (table : List MpInt) {t : FieldType} {x y : t.Field}
    (h : ¬t.StopsEarly x y) (ra rb : List UInt8) :
    (t.compareField table (t.encode x ++ ra) (t.encode y ++ rb)).1.a = ra ∧
      (t.compareField table (t.encode x ++ ra) (t.encode y ++ rb)).1.b = rb := by
  cases t with
  | boolean | date | dateTime => exact compareField_fixedSize table (by simp [FixedSize]) x y ra rb
  | byte | short | int | long | float | double => exact compareNumeric_passes _ ra rb h
  | string =>
      simp only [StopsEarly, xor_iff_not_iff, not_or, not_and, not_not] at h
      exact compareString_passes ra rb h.1 fun hx =>
        or_iff_not_imp_left.2 (h.2 hx fun hy => hx (h.1.2 hy))
  | decimal =>
      simp only [StopsEarly, not_or, not_exists, not_and] at h
      exact compareDecimal_passes table ra rb h.1 fun dx dy hx hy => not_not.1 (h.2 dx dy hx hy)

/-- Only `compare_decimal` reads the table of powers; every `compare_T` is transparent. -/
lemma compareField_transparent (t : FieldType) (a b : List UInt8) :
    Math.MpInt.Transparent (t.compareField · a b) := by
  cases t
  case decimal => exact compareDecimal_transparent a b
  all_goals exact ⟨fun table => Math.MpInt.tableStep_refl table, fun _ _ => rfl⟩

end FieldType

open FieldType

/-- **The cursors of `compare_T`.** For every field type, `skip_T` passes exactly one field;
`compare_T` leaves each cursor within its own field, and exactly where `skip_T` leaves it
whatever it returns, except on its early returns (`StopsEarly`): a null against a value, two
decimals of different signs, two strings that differ in a byte of their common prefix. -/
theorem compareField_cursors (table : List MpInt) (t : FieldType) (x y : t.Field)
    (ra rb : List UInt8) :
    t.skip (t.encode x ++ ra) = ra ∧ t.skip (t.encode y ++ rb) = rb ∧
      CursorsWithin (t.compareField table (t.encode x ++ ra) (t.encode y ++ rb)).1 (t.encode x) ra
        (t.encode y) rb ∧
      (¬t.StopsEarly x y → (t.compareField table (t.encode x ++ ra) (t.encode y ++ rb)).1.a = ra ∧
        (t.compareField table (t.encode x ++ ra) (t.encode y ++ rb)).1.b = rb) := by
  refine ⟨skip_encode t x ra, skip_encode t y rb, ?_, fun h => compareField_passes table h ra rb⟩
  cases t with
  | boolean | date | dateTime =>
      obtain ⟨ha, hb⟩ := compareField_fixedSize table (by simp [FixedSize]) x y ra rb
      exact .of_eq ha hb
  | byte | short | int | long | float | double => exact compareNumeric_cursors _ ra rb x y
  | string => exact compareString_cursors x y ra rb
  | decimal => exact compareDecimal_cursors table x y ra rb

/-- A null `int` against the `int` `5`: `compare_int` returns `-1` with the cursor of the value
after its header, four bytes short of where `skip_int` leaves it. -/
theorem compareInt_null_cursor :
    ∃ x y : NumericField 4, x.encode = [0] ∧ y.encode = [1, 5, 0, 0, 0] ∧
      (compareInt x.encode y.encode).result = -1 ∧
      (compareInt x.encode y.encode).b = [5, 0, 0, 0] ∧ skipInt y.encode = [] :=
  ⟨.null, .value 1 (by decide) [5, 0, 0, 0] rfl, rfl, rfl, by decide, by decide, by decide⟩

/-- **The order of the integer, date and string comparators.** `compare_boolean`, `compare_byte`,
`compare_short`, `compare_int`, `compare_long`, `compare_date`, `compare_date_time` and
`compare_string` order well-formed fields as their decoded values, null first; hence each is
antisymmetric and transitive. -/
theorem compare_orders_fields :
    OrdersBy (fun x : UInt8 => [x]) booleanDecode compareBoolean ∧
      OrdersBy (NumericField.encode : NumericField 1 → _) NumericField.decode compareByte ∧
      OrdersBy (NumericField.encode : NumericField 2 → _) NumericField.decode compareShort ∧
      OrdersBy (NumericField.encode : NumericField 4 → _) NumericField.decode compareInt ∧
      OrdersBy (NumericField.encode : NumericField 8 → _) NumericField.decode compareLong ∧
      OrdersBy (UnsignedField.payload : UnsignedField 4 → _) UnsignedField.decode compareDate ∧
      OrdersBy (UnsignedField.payload : UnsignedField 8 → _) UnsignedField.decode
        compareDateTime ∧
      OrdersBy StringField.encode StringField.decode compareString := by
  refine ⟨.of_sign_eq fun x y ra rb => ?_, .of_sign_eq (compareNumeric_sign · ·),
    .of_sign_eq (compareNumeric_sign · ·), .of_sign_eq (compareNumeric_sign · ·),
    .of_sign_eq (compareNumeric_sign · ·), .of_sign_eq (compareUnsigned_sign · ·),
    .of_sign_eq (compareUnsigned_sign · ·), .of_sign_eq (compareString_sign · ·)⟩
  rw [compareBoolean_encode, compareValue_eq, Sign.sign_toInt]

/-! ### Runs of comparisons -/

/-- A run of comparisons: calls of `compare_T` on pairs of cursors, one after another, with the
table of powers threaded from each call to the next as the static `s_exponents_table` is. The
lock of `power_of_10` serialises its calls, so concurrent comparisons make such a run. -/
def runCompare (table : List MpInt) :
    List (FieldType × List UInt8 × List UInt8) → List Compared × List MpInt
  | [] => ([], table)
  | (t, a, b) :: calls =>
      let r := t.compareField table a b
      let rs := runCompare r.2 calls
      (r.1 :: rs.1, rs.2)

/-- From any table that keeps the invariant, each call of a run answers as on the empty table,
and the table keeps the invariant and only grows. -/
lemma runCompare_spec : ∀ (calls : List (FieldType × List UInt8 × List UInt8))
    {table : List MpInt}, Math.MpInt.TableInv table →
    (runCompare table calls).1 = calls.map (fun c => (c.1.compareField [] c.2.1 c.2.2).1) ∧
      Math.MpInt.TableInv (runCompare table calls).2 ∧ table <+: (runCompare table calls).2
  | [], _, ht => ⟨rfl, ht, List.prefix_refl _⟩
  | (t, a, b) :: calls, table, ht => by
      obtain ⟨hinv, hpre⟩ := ht.step ((compareField_transparent t a b).step table)
      obtain ⟨h1, h2, h3⟩ := runCompare_spec calls hinv
      refine ⟨?_, h2, hpre.trans h3⟩
      rw [runCompare, List.map_cons, h1,
        (compareField_transparent t a b).answer ht Math.MpInt.tableInv_nil]

/-- **The table of powers is a transparent cache.** After any history of comparisons from
the library's start, on any byte strings and in any order, each later call answers what it
answers on a fresh library; every table reached keeps the invariant (entry `k` is a canonical
`10^k`) and only grows, so the entries read before are never changed. -/
theorem runCompare_history_independent (pre post : List (FieldType × List UInt8 × List UInt8)) :
    (runCompare (runCompare [] pre).2 post).1 =
        post.map (fun c => (c.1.compareField [] c.2.1 c.2.2).1) ∧
      Math.MpInt.TableInv (runCompare (runCompare [] pre).2 post).2 ∧
      (runCompare [] pre).2 <+: (runCompare (runCompare [] pre).2 post).2 :=
  runCompare_spec post (runCompare_spec pre Math.MpInt.tableInv_nil).2.1

end Asakusafw.Serde

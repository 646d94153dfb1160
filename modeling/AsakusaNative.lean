import AsakusaNative.Math.MpInt
import AsakusaNative.Math.MpIntBytes
import AsakusaNative.Math.MpIntMul
import AsakusaNative.Math.PowerTable
import AsakusaNative.Math.CompareWithExponent
import AsakusaNative.Math.Decimal
import AsakusaNative.Serde.Read
import AsakusaNative.Serde.Compare
import AsakusaNative.Serde.Float
import AsakusaNative.Serde.Decimal
import AsakusaNative.Serde.Field

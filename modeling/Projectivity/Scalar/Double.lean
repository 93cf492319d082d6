import Projectivity.Scalar
import Projectivity.Scalar.Double.Logarithm
import Projectivity.Scalar.Double.Power

/-!
# Doubles as scalars

The instance of `Scalar` for binary floating-point numbers.
-/

set_option autoImplicit false

namespace Projectivity.Double

/-- Doubles are scalars. -/
instance : Scalar Float where
  zero := 0.0
  one := 1.0
  natCast := Float.ofNat
  leDecidable := Float.decLe
  ltDecidable := Float.decLt
  abs := Float.abs
  sqrt := Float.sqrt
  log1p := log1p
  pow := pow
  ceil := ceil
  roundEven := roundEven
  decimal m k := Float.ofScientific m true k
  isFinite := Float.isFinite
  isAbove x := x == infinity

end Projectivity.Double

/-
Numerals of bounded types.

A numeral of `Fin n` rests on the fact that `n` is not zero.  For the bounds in use that fact
has a name, so that a numeral is the same term wherever it is written.
-/
import Mathlib.Algebra.GroupWithZero.Nat

namespace Lib

instance neZero_one : NeZero 1 := inferInstance

instance neZero_two : NeZero 2 := inferInstance

instance neZero_eight : NeZero 8 := inferInstance

instance neZero_ten : NeZero 10 := inferInstance

instance neZero_sixtyFour : NeZero 64 := inferInstance

instance neZero_oneHundredTwentyEight : NeZero 128 := inferInstance

end Lib

import BJvm.Memory.MultiArrays

/-!
# Failures while arrays of several dimensions are built

What `CreateArray` returns is all of the array or nothing, but the handler does not look at it: an
allocation that fails is never reported.
-/

namespace BJvm.Arrays

variable {fails : Nat → Bool} {s s' : BuildState} {obj : MultiArray}

/-! ### What is returned is whole -/

end BJvm.Arrays

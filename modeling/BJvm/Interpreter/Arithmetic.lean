import BJvm.Interpreter.StackValue
import Mathlib.Data.Rat.Floor

/-!
# Arithmetic of the handlers

The expressions that the handlers of `interpreter2.c` evaluate, on 64-bit registers and slots.  What
a float or a double stands for is read off its bits; what the operations on them round to is left to
the machine.
-/

namespace BJvm.Interpreter

open StackValue

/-! ### Integers

`INTEGER_BIN_OP` and `INTEGER_UN_OP`.  `a` comes from the stack and `b` from the register. -/

def iadd (a b : BitVec 64) : BitVec 64 := (low a + low b).signExtend 64
def ladd (a b : BitVec 64) : BitVec 64 := a + b
def isub (a b : BitVec 64) : BitVec 64 := (low a - low b).signExtend 64
def lsub (a b : BitVec 64) : BitVec 64 := a - b
def imul (a b : BitVec 64) : BitVec 64 := (low a * low b).signExtend 64
def lmul (a b : BitVec 64) : BitVec 64 := a * b
def iand (a b : BitVec 64) : BitVec 64 := (low a &&& low b).signExtend 64
def land (a b : BitVec 64) : BitVec 64 := a &&& b
def ior (a b : BitVec 64) : BitVec 64 := (low a ||| low b).signExtend 64
def lor (a b : BitVec 64) : BitVec 64 := a ||| b
def ixor (a b : BitVec 64) : BitVec 64 := (low a ^^^ low b).signExtend 64
def lxor (a b : BitVec 64) : BitVec 64 := a ^^^ b
def ishl (a b : BitVec 64) : BitVec 64 := (low a <<< (b &&& 0x1f).toNat).signExtend 64
def lshl (a b : BitVec 64) : BitVec 64 := a <<< (b &&& 0x3f).toNat

/-- The result is cast to `u32`, and so widened with zeros. -/
def ishr (a b : BitVec 64) : BitVec 64 := ((low a).sshiftRight (b &&& 0x1f).toNat).setWidth 64

def lshr (a b : BitVec 64) : BitVec 64 := a.sshiftRight (b &&& 0x3f).toNat
def iushr (a b : BitVec 64) : BitVec 64 := (low a >>> (b &&& 0x1f).toNat).signExtend 64
def lushr (a b : BitVec 64) : BitVec 64 := a >>> (b &&& 0x3f).toNat

def ineg (a : BitVec 64) : BitVec 64 := (-low a).signExtend 64
def lneg (a : BitVec 64) : BitVec 64 := -a
def i2l (a : BitVec 64) : BitVec 64 := a
def i2s (a : BitVec 64) : BitVec 64 := (a.setWidth 16).signExtend 64
def i2b (a : BitVec 64) : BitVec 64 := (a.setWidth 8).signExtend 64
def i2c (a : BitVec 64) : BitVec 64 := (a.setWidth 16).setWidth 64
def l2i (a : BitVec 64) : BitVec 64 := (low a).signExtend 64

/-- `java_idiv` and `java_ldiv`. -/
def javaDiv {w : Nat} (a b : BitVec w) : BitVec w :=
  if a = BitVec.intMin w ∧ b = -1#w then BitVec.intMin w else a.sdiv b

/-- `java_irem` and `java_lrem`. -/
def javaRem {w : Nat} (a b : BitVec w) : BitVec w :=
  if a = BitVec.intMin w ∧ b = -1#w then 0#w else a.srem b

/-- `a > b ? 1 : (a < b ? -1 : 0)`. -/
def lcmp (a b : BitVec 64) : BitVec 64 := if b.slt a then 1 else if a.slt b then -1 else 0

/-! ### Floats -/

/-- What a float or a double stands for. -/
inductive FloatValue
  | nan
  | infinite (negative : Bool)
  | finite (q : ℚ)
  deriving DecidableEq

/-- Reads sign, exponent and fraction, the last of `p` bits. -/
def FloatValue.ofParts (negative : Bool) (exponent fraction p expBits : Nat) : FloatValue :=
  let bias : Int := 2 ^ (expBits - 1) - 1
  let sign : ℚ := if negative then -1 else 1
  if exponent = 2 ^ expBits - 1 then if fraction = 0 then .infinite negative else .nan
  else if exponent = 0 then .finite (sign * fraction * 2 ^ (1 - bias - p))
  else .finite (sign * (2 ^ p + fraction : Nat) * 2 ^ (exponent - bias - p))

def floatValue (x : BitVec 32) : FloatValue :=
  .ofParts x.msb ((x >>> 23).toNat % 2 ^ 8) (x.toNat % 2 ^ 23) 23 8

def doubleValue (x : BitVec 64) : FloatValue :=
  .ofParts x.msb ((x >>> 52).toNat % 2 ^ 11) (x.toNat % 2 ^ 52) 52 11

namespace FloatValue

/-- `a < b`. -/
def lt : FloatValue → FloatValue → Bool
  | nan, _ | _, nan => false
  | infinite true, infinite true => false
  | infinite true, _ => true
  | _, infinite true => false
  | infinite false, _ => false
  | _, infinite false => true
  | finite p, finite q => p < q

/-- `a == b`. -/
def eq : FloatValue → FloatValue → Bool
  | finite p, finite q => p = q
  | infinite n, infinite n' => n == n'
  | _, _ => false

/-- Cuts off the digits behind the point. -/
def truncate (q : ℚ) : Int := if 0 ≤ q then ⌊q⌋ else ⌈q⌉

end FloatValue

/-- `a > b ? 1 : (a < b ? -1 : (a == b ? 0 : unordered))`, as an `int`. -/
def floatCmp (unordered : BitVec 64) (a b : FloatValue) : BitVec 64 :=
  if b.lt a then 1 else if a.lt b then -1 else if a.eq b then 0 else unordered

def cmpg (a b : FloatValue) : BitVec 64 := floatCmp 1 a b
def cmpl (a b : FloatValue) : BitVec 64 := floatCmp (-1) a b

/-- `(int)x` or `(s64)x`, of a value in range. -/
def castInt (w : Nat) : FloatValue → BitVec w
  | .finite q => BitVec.ofInt w (FloatValue.truncate q)
  | _ => 0

/-- `double_to_int`; `float_to_int` calls it on the same value. -/
def doubleToInt (x : FloatValue) : BitVec 32 :=
  if (FloatValue.finite (2 ^ 31 - 1)).lt x then BitVec.intMax 32
  else if x.lt (.finite (-2 ^ 31)) then BitVec.intMin 32
  else if x = .nan then 0
  else castInt 32 x

/-- `double_to_long`; `float_to_long` calls it on the same value.  As a double, `ULLONG_MAX / 2` is
`2 ^ 63`. -/
def doubleToLong (x : FloatValue) : BitVec 64 :=
  if (FloatValue.finite (2 ^ 63)).lt x ∨ (FloatValue.finite (2 ^ 63)).eq x then BitVec.intMax 64
  else if x.lt (.finite (-2 ^ 63)) then BitVec.intMin 64
  else if x = .nan then 0
  else castInt 64 x

end BJvm.Interpreter

import BJvm.Interpreter.Handlers

/-!
# Division on each target

`java_idiv`, `java_irem`, `java_ldiv` and `java_lrem` keep the one overflow of a division from C by a
comparison with `INT_MIN` or `LONG_MIN`.  What the second is depends on the width of a `long`.
-/

namespace BJvm.Interpreter

open StackValue

/-- What the sources are compiled for.  With Emscripten a `long` has 32 bits. -/
inductive Target
  | wasm32 | lp64
  deriving DecidableEq, Repr

/-- `LONG_MIN`, widened to an `s64`. -/
def Target.longMin : Target → BitVec 64
  | wasm32 => BitVec.ofInt 64 (-2 ^ 31)
  | lp64 => BitVec.intMin 64

/-- C leaves `a / b` and `a % b` undefined. -/
def Undefined {w : Nat} (a b : BitVec w) : Prop := b = 0#w ∨ a = BitVec.intMin w ∧ b = -1#w

instance {w : Nat} (a b : BitVec w) : Decidable (Undefined a b) := instDecidableOr

/-- `a / b` in C. -/
def cDiv {w : Nat} (a b : BitVec w) : Option (BitVec w) :=
  if Undefined a b then none else some (a.sdiv b)

/-- `a % b` in C. -/
def cRem {w : Nat} (a b : BitVec w) : Option (BitVec w) :=
  if Undefined a b then none else some (a.srem b)

def javaIdiv (a b : BitVec 32) : Option (BitVec 32) :=
  if a = BitVec.intMin 32 ∧ b = -1#32 then some (BitVec.intMin 32) else cDiv a b

def javaIrem (a b : BitVec 32) : Option (BitVec 32) :=
  if a = BitVec.intMin 32 ∧ b = -1#32 then some 0#32 else cRem a b

def javaLdiv (t : Target) (a b : BitVec 64) : Option (BitVec 64) :=
  if a = t.longMin ∧ b = -1#64 then some t.longMin else cDiv a b

def javaLrem (t : Target) (a b : BitVec 64) : Option (BitVec 64) :=
  if a = t.longMin ∧ b = -1#64 then some 0#64 else cRem a b

/-! ### The handlers -/

inductive DivisionInsn
  | idiv | irem | ldiv | lrem
  deriving DecidableEq, Repr

/-- How a handler ends: with an `ArithmeticException`, with a register, or behind an undefined
operation. -/
inductive Divided
  | throws
  | result (tos : BitVec 64)
  | undefined
  deriving DecidableEq, Repr

def Divided.of : Option (BitVec 64) → Divided
  | some tos => result tos
  | none => undefined

/-- `idiv_impl_int` and `irem_impl_int`. -/
def divideInts (eval : BitVec 32 → BitVec 32 → Option (BitVec 32)) (a tos : BitVec 64) : Divided :=
  if low tos = 0 then .throws else .of ((eval (low a) (low tos)).map (·.signExtend 64))

/-- `ldiv_impl_int` and `lrem_impl_int`. -/
def divideLongs (eval : BitVec 64 → BitVec 64 → Option (BitVec 64)) (a tos : BitVec 64) : Divided :=
  if tos = 0 then .throws else .of (eval a tos)

/-- A handler on the slot `a` and the register `tos`. -/
def divide (t : Target) : DivisionInsn → BitVec 64 → BitVec 64 → Divided
  | .idiv => divideInts javaIdiv
  | .irem => divideInts javaIrem
  | .ldiv => divideLongs (javaLdiv t)
  | .lrem => divideLongs (javaLrem t)

section

variable {W : Type} (vm : Vm W)

def DivisionInsn.handler : DivisionInsn → IntHandler W
  | idiv => idivImplInt vm
  | irem => iremImplInt vm
  | ldiv => ldivImplInt vm
  | lrem => lremImplInt vm

/-- What the machine does next; nothing is known behind an undefined operation. -/
def Divided.next (m : Machine W) (tos : BitVec 64) : Divided → Option (Next W)
  | throws => some (throwExn vm .divisionByZero (m.spillInt tos))
  | result tos' => some (nextInt { m with sp := m.sp - 1 } tos')
  | undefined => none

end

/-! ### The JVM specification -/

/-- The quotient, rounded towards zero, and of the type of the operands again. -/
def quotient {w : Nat} (a b : BitVec w) : BitVec w := BitVec.ofInt w (a.toInt.tdiv b.toInt)

/-- The remainder, which has the sign of the dividend. -/
def remainder {w : Nat} (a b : BitVec w) : BitVec w := BitVec.ofInt w (a.toInt.tmod b.toInt)

/-- An `ArithmeticException` for a divisor of zero, and the quotient or remainder for any other. -/
def specifiedDivision (insn : DivisionInsn) (a b : BitVec 64) : Divided :=
  match insn with
  | .idiv => if low b = 0 then .throws else .result ((quotient (low a) (low b)).signExtend 64)
  | .irem => if low b = 0 then .throws else .result ((remainder (low a) (low b)).signExtend 64)
  | .ldiv => if b = 0 then .throws else .result (quotient a b)
  | .lrem => if b = 0 then .throws else .result (remainder a b)

example : quotient (BitVec.intMin 64) (-1) = BitVec.intMin 64 ∧
    remainder (BitVec.intMin 64) (-1) = 0 := by decide

/-- The least long overflows, or another is taken for it. -/
def MissesLongMin : DivisionInsn → BitVec 64 → BitVec 64 → Prop
  | .ldiv, a, b => b = -1 ∧ (a = BitVec.intMin 64 ∨ a = Target.wasm32.longMin)
  | .lrem, a, b => b = -1 ∧ a = BitVec.intMin 64
  | _, _, _ => False

end BJvm.Interpreter

import BJvm.Insn
import Mathlib.Algebra.Order.Ring.Int
import Mathlib.Data.Nat.Cast.Order.Ring

/-!
# Stack values and registers

The union `stack_value` is the 64 bits that its members share: `l`, `d` and `obj` are all of them,
`i` and `f` the low half.  Between two handlers the value on top of the stack is in a register, of
the kind that the table of the next handler is for, or in memory with the rest.
-/

namespace BJvm.Interpreter

abbrev StackValue := BitVec 64

namespace StackValue

/-- `.i` and `.f`. -/
def low (v : StackValue) : BitVec 32 := v.setWidth 32

/-- Writes `.i` or `.f`. -/
def setLow (v : StackValue) (x : BitVec 32) : StackValue := v.extractLsb' 32 32 ++ x

/-- `(stack_value){.f = x}`; the other half, which C leaves open, is zero. -/
def ofFloat (x : BitVec 32) : StackValue := x.setWidth 64

/-- An int as the handlers keep it in a stack slot. -/
def ofInt (x : BitVec 32) : StackValue := x.signExtend 64

@[simp] theorem low_ofFloat (x : BitVec 32) : low (ofFloat x) = x := by
  simp [low, ofFloat]

@[simp] theorem low_ofInt (x : BitVec 32) : low (ofInt x) = x := by
  ext i hi
  simp only [low, ofInt, BitVec.getElem_setWidth, BitVec.getLsbD_signExtend, hi, if_true]
  rw [BitVec.getLsbD_eq_getElem hi]
  simp only [show i < 64 by omega, decide_true, Bool.true_and]

@[simp] theorem low_setLow (v : StackValue) (x : BitVec 32) : low (v.setLow x) = x := by
  ext i hi
  simp only [low, setLow, BitVec.getElem_setWidth, BitVec.getLsbD_append, hi, if_true]
  exact BitVec.getLsbD_eq_getElem hi

end StackValue

/-- The value on top of the stack, as the next handler is given it. -/
inductive Tos
  | void
  | int (x : BitVec 64)
  | float (x : BitVec 32)
  | double (x : BitVec 64)
  deriving DecidableEq, Repr

namespace Tos

def kind : Tos → ReducedTosKind
  | void => .void
  | int _ => .int
  | float _ => .float
  | double _ => .double

/-- Loads a slot into the register of a kind. -/
def fill : ReducedTosKind → StackValue → Tos
  | .void, _ => void
  | .int, v => int v
  | .float, v => float v.low
  | .double, v => double v

/-- `SPILL(tos)`: what is in the slot on top of the stack, which held `v`. -/
def spill (v : StackValue) : Tos → StackValue
  | void => v
  | int x => x
  | float x => .ofFloat x
  | double x => x

@[simp] theorem kind_fill (k : ReducedTosKind) (v : StackValue) : (fill k v).kind = k := by
  cases k <;> rfl

end Tos

end BJvm.Interpreter

import BJvm.Interpreter.TypedCode

/-!
# Ints in 64 bits

An int on the stack is to be the sign extension of its low half: `i2l`, `i2d` and `i2f` take all of
the slot.  Two instructions may leave one that is not, `ishr`, which casts its result to `u32`, and
the call of a native method, whose result is taken as it comes.
-/

namespace BJvm.Interpreter

open ClassFile StackValue

variable {W : Type}

/-- The value is the sign extension of its low half. -/
def IsExtended (x : StackValue) : Prop := x = .ofInt x.low

instance (x : StackValue) : Decidable (IsExtended x) := inferInstanceAs (Decidable (_ = _))

/-- All ints on the stack are. -/
def Plain.Extended (s : Plain W) : Prop := ∀ v ∈ s.stack, v.kind = .int → IsExtended v.word

/-- The instruction is a call that takes place, with the operands `ops`. -/
def Calls (vm : Vm W) (s : Plain W) (ops : List StackValue) : Prop :=
  let receiver := operand ops (ops.length - 1)
  match s.insn.code with
  | .resolved .invokestatic | .resolved .invokecallsite => True
  | .resolved .invokespecial | .resolved .invokesigpoly | .resolved .invokevtablePolymorphic =>
    receiver ≠ 0
  | .resolved .invokevtableMonomorphic | .resolved .invokeitableMonomorphic =>
    receiver ≠ 0 ∧ vm.descriptor s.heap receiver = s.insn.ic2
  | .resolved .invokeitablePolymorphic =>
    receiver ≠ 0 ∧ vm.itableLookup s.heap (vm.descriptor s.heap receiver) s.insn.ic s.insn.ic2 ≠ 0
  | _ => False

/-- A native method answers the call with a word that is not extended. -/
def AnsweredRaw (vm : Vm W) (s : Plain W) (ops : List StackValue) : Prop :=
  let args := List.zipWith canonical (argKinds s.insn) ops.reverse
  Calls vm s ops ∧ vm.isNative s.heap s.pc args = true ∧
    ∃ heap v, vm.request (.call s.pc args) s.heap = (heap, .ok v) ∧ ¬ IsExtended v

/-- The next instruction shifts a negative int to the right, or is such a call of a method that
returns an int. -/
def Spoils (vm : Vm W) (s : Plain W) : Prop :=
  ∃ pops pushes, operandKinds s.insn.toBytecodeInsn = some (pops, pushes) ∧ .int ∈ pushes ∧
    let ops := (s.stack.take pops.length).map (·.word)
    s.insn.code = .parsed .ishr ∧ (operand ops 1).low.msb = true ∨ AnsweredRaw vm s ops

/-- The constants are such as the parser reads them, of 32 bits. -/
def TypedCode.ConstantsFit (P : TypedCode) : Prop :=
  ∀ pc < P.size, (P.code pc).kind = .iconst →
    -2 ^ 31 ≤ (P.code pc).integerImm ∧ (P.code pc).integerImm < 2 ^ 31

/-- The slots from the bottom on hold extended ints where the kinds say so. -/
def SlotsExtended (stack : Nat → StackValue) : List TypeKind → Prop
  | [] => True
  | k :: ks => (k = .int → IsExtended (stack ks.length)) ∧ SlotsExtended stack ks

/-- All ints on the stack are, the one in the register too. -/
def Machine.Extended (P : TypedCode) (m : Machine W) : Tos → Prop
  | .void => SlotsExtended m.stack (P.kindsAt m.pc)
  | .int x => SlotsExtended m.stack (P.kindsAt m.pc).tail ∧
      ((P.kindsAt m.pc).head? = some .int → IsExtended x)
  | .float _ | .double _ => SlotsExtended m.stack (P.kindsAt m.pc).tail

end BJvm.Interpreter

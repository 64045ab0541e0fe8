import BJvm.Analysis.MethodAnalysis
import BJvm.Interpreter.TypedCode

/-!
# Analysed code

The typed code that `analyze_method_code` leaves behind, and what it takes on trust of the class
file: a verifier would check it, the analysis does not.
-/

namespace BJvm

/-- The kinds recorded at an instruction, the top first. -/
def MethodAnalysis.kindsAt (a : MethodAnalysis) (p : Nat) : List TypeKind :=
  (a.stackStates.getD p default).stack.reverse

/-- A frame that the iterator comes to. -/
def IsFrame (m : CpMethod) (it : StackMapFrameIterator) : Prop :=
  ∃ first, StackMapFrameIterator.init m = .ok first ∧
    Relation.ReflTransGen (fun it it' => it.hasNext = true ∧ it.next m.code = .ok it') first it

/-- There is a frame for the instruction. -/
def HasFrame (m : CpMethod) (p : Nat) : Prop :=
  ∃ it, IsFrame m it ∧ (m.code.code.getD p default).originalPc = it.pc

end BJvm

namespace BJvm.Interpreter

open ClassFile

/-- The code behind the analysis, with the kinds that it has recorded. -/
def TypedCode.ofAnalysis (a : MethodAnalysis) (code : Nat → ParsedInsn) : TypedCode :=
  ⟨a.code.length, code, a.kindsAt⟩

/-- The frame of an analysed method. -/
def FrameMethod.ofAnalysis (m : CpMethod) (a : MethodAnalysis) (exceptionTable : List ParsedException) :
    FrameMethod :=
  ⟨m.code.maxLocals, fun p => a.insnIndexToSd.getD p 0, exceptionTable⟩

/-- What the operands of the parsed instructions keep to. -/
structure Parsed (a : MethodAnalysis) (code : Nat → ParsedInsn) : Prop where
  insn : ∀ p < a.code.length, (code p).toBytecodeInsn = a.code.getD p default
  field : ∀ p < a.code.length, (code p).kind ∈ [.getfield, .putfield, .getstatic, .putstatic] →
    (code p).field.baseKind ≠ .void
  tableswitch : ∀ p < a.code.length, (code p).kind = .tableswitch →
    ((code p).tableswitch.targets.length : Int) = (code p).high - (code p).low + 1
  multianewarray : ∀ p < a.code.length, (code p).kind = .multianewarray → 0 < (code p).dimensions
  subroutine : ∀ p < a.code.length, (code p).kind ≠ .jsr ∧ (code p).kind ≠ .ret

/-- What is taken on trust: the frames give the kinds that control comes with, and those of the
operand stored in a field are never looked at.  A `dup2` of a float is left out. -/
structure Trusted (m : CpMethod) (a : MethodAnalysis) (code : Nat → ParsedInsn)
    (exceptionTable : List ParsedException) : Prop where
  entry : (m.code.code.getD 0 default).originalPc = 0
  noVoid : ∀ p < a.code.length, .void ∉ a.kindsAt p
  flows : ∀ p < a.code.length, ∀ q ∈ flowsTo (code p).toBytecodeInsn p, q < a.code.length ∧
    (q ≠ p + 1 ∨ HasFrame m q ∨ (code p).kind.terminates = true →
      kindsAfter (code p).toBytecodeInsn (a.kindsAt p) = some (a.kindsAt q))
  handlers : ∀ ent ∈ exceptionTable,
    ent.handlerInsn < a.code.length ∧ a.kindsAt ent.handlerInsn = [.reference]
  stored : ∀ p < a.code.length, (code p).kind ∈ [.putfield, .putstatic] →
    (a.kindsAt p).head? = some (code p).field.reprKind
  dup2 : ∀ p < a.code.length, (code p).kind = .dup2 → (a.kindsAt p).head? ≠ some .float

end BJvm.Interpreter

import BJvm.Analysis.ControlFlow
import BJvm.Analysis.ValueOrigins
import BJvm.Interpreter.PlainInterpreter
import Mathlib.Logic.Relation

/-!
# Typed code

Code with the kinds on the stack at each instruction, as far as the interpreter relies on them, and
the forms that the instructions are rewritten to while they run.
-/

namespace BJvm.Interpreter

open ClassFile

/-- The code of a method behind its analysis, with the kinds on the stack, the top first. -/
structure TypedCode where
  size : Nat
  code : Nat → ParsedInsn
  kindsAt : Nat → List TypeKind

/-- The kinds behind an instruction. -/
def kindsAfter (insn : BytecodeInsn) (kinds : List TypeKind) : Option (List TypeKind) :=
  match operandKinds insn with
  | some (pops, pushes) =>
    if pops = kinds.take pops.length then
      some (pushes.filter (· ≠ .void) ++ kinds.drop pops.length)
    else none
  | none => shuffleSlots insn.kind kinds

/-- Where an instruction leads without an exception. -/
def flowsTo (insn : BytecodeInsn) (pc : Nat) : List Nat :=
  match insn.kind.controlFlow with
  | .next => [pc + 1]
  | .goto => [insn.index]
  | .conditional => [insn.index, pc + 1]
  | .tableswitch => insn.tableswitch.successors
  | .lookupswitch => insn.lookupswitch.successors
  | .jsr | .stop | .ret => []

/-- The register that the top of the stack is cached in. -/
def topRegister : List TypeKind → ReducedTosKind
  | [] => .void
  | k :: _ => reduced k

/-- The operands of an instruction are such as the parser and the analysis leave them. -/
structure OperandsOk (fm : FrameMethod) (pc : Nat) (insn : ParsedInsn) : Prop where
  branch : insn.kind.isBranch → insn.delta = ((insn.index : Int) - pc) * sizeofBytecodeInsn
  local_ : localKind insn.kind ≠ none →
    insn.index ≤ fm.maxLocals ∧ insn.delta = fm.maxLocals - insn.index
  field : insn.kind ∈ [.getfield, .putfield, .getstatic, .putstatic] → insn.field.baseKind ≠ .void
  tableswitch : insn.kind = .tableswitch →
    (insn.tableswitch.targets.length : Int) = insn.high - insn.low + 1
  multianewarray : insn.kind = .multianewarray → 0 < insn.dimensions
  subroutine : insn.kind ≠ .jsr ∧ insn.kind ≠ .ret

/-- The kinds are such as the instructions take and leave, and the depths and registers that the
analysis has recorded are theirs.  A `dup2` of a float is left out: `dup2_impl_float` ends in
`NEXT_INT`. -/
structure TypedCode.WellTyped (P : TypedCode) (fm : FrameMethod) : Prop where
  depth : ∀ pc < P.size, fm.insnIndexToSd pc = (P.kindsAt pc).length
  tosBefore : ∀ pc < P.size, (P.code pc).tosBefore = topRegister (P.kindsAt pc)
  operands : ∀ pc < P.size, OperandsOk fm pc (P.code pc)
  flows : ∀ pc < P.size, ∃ kinds,
    kindsAfter (P.code pc).toBytecodeInsn (P.kindsAt pc) = some kinds ∧
      ∀ q ∈ flowsTo (P.code pc).toBytecodeInsn pc, q < P.size ∧ P.kindsAt q = kinds
  dup2 : ∀ pc < P.size, (P.code pc).kind = .dup2 → (P.code pc).tosBefore = .int
  handlers : ∀ ent ∈ fm.exceptionTable,
    ent.handlerInsn < P.size ∧ P.kindsAt ent.handlerInsn = [.reference]

/-! ### Rewriting -/

/-- The slots that the arguments of a call take; a call site has a method handle behind them. -/
def Insn.arity (insn : Insn) : Nat :=
  if insn.kind = .invokestatic then insn.descriptor.args.length
  else insn.descriptor.args.length + 1

/-- The methods of `java/lang/Math` that have intrinsics. -/
def IsDoubles (n : Nat) (d : MethodDescriptor) : Prop :=
  d.args.map (·.reprKind) = List.replicate n .double ∧ d.returnType.reprKind = .double

/-- The methods that an intrinsic may stand for. -/
def intrinsicOf (d : MethodDescriptor) : ResolvedCode → Prop
  | .pow => IsDoubles 2 d
  | .math _ => IsDoubles 1 d
  | _ => False

/-- A constructor with nothing to do and no arguments. -/
def IsEmptyInit (d : MethodDescriptor) : Prop := d.args = [] ∧ d.returnType.baseKind = .void

/-- The kinds that an instruction may have been rewritten to. -/
def Insn.WellFormed (insn : Insn) : Prop :=
  match insn.code with
  | .parsed code =>
    code = insn.kind ∨ code = .invokevirtual ∧ insn.kind = .invokeinterface ∨
      code = .invokeinterface ∧ insn.kind = .invokevirtual ∨
      code = .pop ∧ insn.kind = .invokespecial ∧ IsEmptyInit insn.descriptor
  | .resolved .anewarray => insn.kind = .anewarray
  | .resolved .checkcast => insn.kind = .checkcast
  | .resolved .instanceof => insn.kind = .instanceof
  | .resolved .new => insn.kind = .new
  | .resolved .invokestatic => insn.kind = .invokestatic ∧ insn.argc = insn.arity
  | .resolved .invokecallsite => insn.kind = .invokedynamic ∧ insn.argc = insn.arity
  | .resolved .invokespecial =>
    insn.kind ∈ [.invokespecial, .invokevirtual, .invokeinterface] ∧ insn.argc = insn.arity
  | .resolved .invokevtableMonomorphic | .resolved .invokevtablePolymorphic
  | .resolved .invokeitableMonomorphic | .resolved .invokeitablePolymorphic
  | .resolved .invokesigpoly =>
    insn.kind ∈ [.invokevirtual, .invokeinterface] ∧ insn.argc = insn.arity
  | .resolved (.getfield k) => insn.kind = .getfield ∧ k = resolvedKind insn.field.reprKind
  | .resolved (.putfield k) => insn.kind = .putfield ∧ k = resolvedKind insn.field.reprKind
  | .resolved (.getstatic k) => insn.kind = .getstatic ∧ k = resolvedKind insn.field.reprKind
  | .resolved (.putstatic k) => insn.kind = .putstatic ∧ k = resolvedKind insn.field.reprKind
  | .resolved code => insn.kind = .invokestatic ∧ intrinsicOf insn.descriptor code

/-- What another frame of the method may make of an instruction. -/
structure Insn.RewrittenTo (insn insn' : Insn) : Prop where
  parsed : insn'.toParsedInsn = insn.toParsedInsn
  wellFormed : insn.WellFormed → insn'.WellFormed
  argc : insn'.argc = insn.argc ∨ insn'.argc = insn.arity

/-- The instructions are those of the typed code, some of them rewritten. -/
def TypedCode.Runs (P : TypedCode) (code : Nat → Insn) : Prop :=
  ∀ pc < P.size, (code pc).toParsedInsn = P.code pc ∧ (code pc).WellFormed

variable {W : Type}

/-- What a method relies on the rest of the VM for.  While the class of a `putstatic` is initialized,
or that of a `new` is loaded, no other frame resolves the same instruction. -/
structure Vm.Respects (vm : Vm W) (P : TypedCode) : Prop where
  request : ∀ (r : Request) (heap : Heap W), ∀ pc < P.size,
    (heap.code pc).RewrittenTo ((vm.request r heap).1.code pc)
  raise : ∀ (e : Exn) (heap : Heap W), ∀ pc < P.size,
    (heap.code pc).RewrittenTo ((vm.raise e heap).1.code pc)
  putstatic : ∀ (heap : Heap W), ∀ pc < P.size, (heap.code pc).code = .parsed .putstatic →
    ((vm.request (.resolveStatic pc) heap).1.code pc).code = .parsed .putstatic
  new : ∀ (heap : Heap W), ∀ pc < P.size, (heap.code pc).code = .parsed .new →
    ((vm.request (.resolveClass pc) heap).1.code pc).code = .parsed .new
  monitorRelease : ∀ obj heap e, (vm.request (.monitorRelease obj) heap).2 ≠ .error e
  objectInit : ∀ pc < P.size, (P.code pc).kind = .invokespecial → ∀ method heap heap' candidate,
    vm.request (.selectSpecial pc method) heap = (heap', .ok candidate) →
    (vm.methodInfo heap' candidate).isObjectInit = true → IsEmptyInit (P.code pc).descriptor
  intrinsic : ∀ pc < P.size, (P.code pc).kind = .invokestatic → ∀ heap heap' method code intrinsic,
    vm.request (.resolveMethodref pc) heap = (heap', .ok method) →
    (vm.methodInfo { heap' with code } method).intrinsic = some intrinsic →
    intrinsicOf (P.code pc).descriptor intrinsic
  arity : ∀ pc < P.size, (P.code pc).kind = .invokedynamic → ∀ heap heap' callSite,
    vm.request (.resolveIndy pc) heap = (heap', .ok callSite) →
    vm.arity heap' callSite = (P.code pc).descriptor.args.length + 1

/-- A state of the plain interpreter in which the stack holds the kinds found for it. -/
structure Typed (P : TypedCode) (s : Plain W) : Prop where
  pc : s.pc < P.size
  kinds : s.stack.map (·.kind) = P.kindsAt s.pc
  runs : P.Runs s.heap.code

/-- One step of the plain interpreter; there is none behind the end of a run. -/
def PlainConfig.step (vm : Vm W) (fm : FrameMethod) : PlainConfig W → Option (PlainConfig W)
  | .running s => s.step vm fm
  | .returned .. | .thrown .. => none

/-- A state that is typed while the frame runs. -/
def PlainConfig.Typed (P : TypedCode) : PlainConfig W → Prop
  | .running s => Interpreter.Typed P s
  | .returned .. | .thrown .. => True

/-- The runs of the two interpreters. -/
def Config.Reaches (vm : Vm W) (fm : FrameMethod) : Config W → Config W → Prop :=
  Relation.ReflTransGen fun c c' => c.step vm fm = some c'

def PlainConfig.Reaches (vm : Vm W) (fm : FrameMethod) : PlainConfig W → PlainConfig W → Prop :=
  Relation.ReflTransGen fun p p' => p.step vm fm = some p'

/-- The run has come to its end. -/
def Config.Ended : Config W → Prop
  | .running .. => False
  | .returned .. | .thrown .. => True

def PlainConfig.Ended : PlainConfig W → Prop
  | .running _ => False
  | .returned .. | .thrown .. => True

end BJvm.Interpreter

import BJvm.Interpreter.JumpTables

/-!
# Suspended instructions

`TryResolve` when `resolve_insn` is not ready, and `async_resume_impl_void` when the frame is
resumed.  Only the instructions suspend that initialize a class or look a static method up.  A
resolution goes on where it was, as far as it had come, so it has one answer however often the frame
is resumed before.
-/

namespace BJvm.Interpreter

open ClassFile StackValue Function

variable {W : Type}

/-- What `resolve_insn` waits for. -/
def Request.suspends : Request → Bool
  | .resolveStatic _ | .initializeNew _ | .resolveMethodref _ => true
  | _ => false

/-- The VM in which resolutions are ready at once, with this answer, and leave this heap. -/
def Vm.answering (vm : Vm W) (heap : Heap W) (answer : Except StackValue StackValue) : Vm W :=
  { vm with request := fun r h => if r.suspends then (heap, answer) else vm.request r h }

/-- A future of `resolve_insn`. -/
inductive Poll (W : Type)
  | notReady
  | ready (heap : Heap W) (answer : Except StackValue StackValue)

/-- A frame that has been suspended, with `CONT_RESOLVE` on the stack of continuations, or what an
instruction ends in. -/
inductive Progress (W : Type)
  | suspended (m : Machine W)
  | next (n : Next W)

def Progress.next? : Progress W → Option (Next W)
  | suspended _ => none
  | next n => some n

/-- `FORWARD_TO_NULLARY`. -/
def Machine.forward (m : Machine W) : Tos → Machine W
  | .void => m
  | .int tos | .double tos => m.setTop tos
  | .float tos => m.setTop (.ofFloat tos)

variable (vm : Vm W) (fm : FrameMethod)

/-- The machine in which the handler of an instruction calls `resolve_insn`, when that can be
suspended. -/
def reachResolution (m : Machine W) (tos : Tos) : Option (Machine W) :=
  let spilled := (m.forward tos).spillVoid
  match m.insn.code with
  | .parsed .getstatic | .parsed .putstatic | .parsed .invokestatic => some spilled
  | .parsed .new =>
    match vm.request (.resolveClass spilled.pc) spilled.heap with
    | (heap, .ok _) =>
      let m := { spilled with heap }
      if m.insn.code = .parsed .new then some m else none
    | (_, .error _) => none
  | _ => none

/-- `async_resume_impl_void` of `CONT_RESOLVE`; `fuel` is that of the thread. -/
def asyncResumeImplVoid (fuel : BitVec 32) (m : Machine W) : Poll W → Progress W
  | .notReady => .suspended m
  | .ready heap answer =>
    let sp := fm.insnIndexToSd m.programCounter
    match resolveInsn (vm.answering heap answer) { m with pc := m.programCounter, sp, fuel } with
    | none => .next .abort
    | some (m, some e) => .next (.exceptionThrown m e)
    | some (m, none) =>
      -- `resolve_invokestatic` has replaced this kind by now
      match if m.insn.code = .parsed .invokestatic then intrinsify vm m else none with
      | some m => .next (stackPolymorphicJmp m)
      | none => .next (jmpVoid m)

/-- The frame is resumed, with the fuel of the thread each time, for as long as it is suspended. -/
def resume (m : Machine W) : List (BitVec 32 × Poll W) → Progress W
  | [] => .suspended m
  | (fuel, poll) :: polls =>
    match asyncResumeImplVoid vm fm fuel m poll with
    | .suspended m => resume m polls
    | .next n => .next n

/-- The register and the depth of the stack are the recorded ones, and a `putstatic` finds its
operand. -/
structure Entered (fm : FrameMethod) (m : Machine W) (tos : Tos) : Prop where
  depth : fm.insnIndexToSd m.pc = m.sp
  tosBefore : m.insn.tosBefore = tos.kind
  operand : m.insn.code = .parsed .putstatic → tos.kind ≠ .void

end BJvm.Interpreter

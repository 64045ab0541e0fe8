import BJvm.Gc.Roots
import Mathlib.Logic.Function.Basic

/-!
# The frames of a thread

How frames come onto the stack of a thread and leave it, in `bjvm.c`, as far as the collector's scan
depends on it: where a frame lies, which slots it shares with its caller, and the handles of the
arguments of a native method.  Addresses are those of `Roots`.
-/

namespace BJvm.Gc

open Function (update)

/-- `cp_method` with its code and its analysis, of which a native method has none.  A method without
`code`, or a native one without `native_handle`, has no body. -/
structure Callee where
  isNative : Bool
  hasBody : Bool := true
  method : BJvm.CpMethod
  analysis : MethodAnalysis := default
  analyzed : isNative = false → ∃ fuel, analyzeMethodCode fuel method = .ok (some analysis)

/-- The number of arguments of a method with the given descriptor, as in `method_argc`. -/
def Callee.argc (callee : Callee) (shape : MethodDescriptor) : Nat :=
  shape.args.length + if callee.method.isStatic then 0 else 1

/-- The kinds of the arguments, of which the first is the receiver. -/
def Callee.argumentKinds (callee : Callee) (shape : MethodDescriptor) : List TypeKind :=
  (if callee.method.isStatic then [] else [.reference]) ++ shape.args.map (·.reprKind)

/-- `stack_frame`, with the values of its locals if it is native. -/
structure PushedFrame extends StackFrame where
  maxStack : Nat
  callee : Callee
  /-- `method_shape` -/
  shape : MethodDescriptor
  args : List Nat := []

namespace PushedFrame

open StackFrame

/-- `frame_beginning`. -/
def beginning (frame : PushedFrame) : Nat :=
  if frame.isNative then frame.addr - 2 * frame.numLocals * sizeofStackValue
  else frame.locals

/-- Where the operand stack ends, by the analysis. -/
def sp (frame : PushedFrame) : Nat :=
  frame.stack + frame.stackSummary.stack.length * sizeofStackValue

end PushedFrame

/-- The memory and the frames of a thread, the innermost first. -/
structure ThreadStack where
  mem : Nat → Nat
  frames : List PushedFrame := []

namespace VmThread

open StackFrame

variable (thr : VmThread)

/-- The thread with the given frames on its stack. -/
def withFrames (frames : List PushedFrame) : VmThread :=
  { thr with frames := frames.map (·.toStackFrame) }

/-- `make_handle_impl`; `none` when there are no more handles. -/
def makeHandle (mem : Nat → Nat) (obj : Nat) : Option (Nat × (Nat → Nat)) :=
  if obj = 0 then some (thr.nullHandle, mem)
  else (thr.handles.find? fun h => mem h = 0).map fun h => (h, update mem h obj)

/-- `drop_handle`. -/
def dropHandle (mem : Nat → Nat) (handle : Nat) : Nat → Nat :=
  if handle = 0 ∨ handle = thr.nullHandle then mem else update mem handle 0

/-- The value of a local of a native frame, for the argument in the slot `arg`. -/
def argumentValue (kind : TypeKind) (arg : Nat) (mem : Nat → Nat) : Option (Nat × (Nat → Nat)) :=
  if kind = .reference then thr.makeHandle mem (mem arg) else some (mem arg, mem)

/-- `make_handles_array`, for the arguments from the slot `arg` on: the values of the locals. -/
def makeHandlesArray : List TypeKind → Nat → (Nat → Nat) → Option (List Nat × (Nat → Nat))
  | [], _, mem => some ([], mem)
  | kind :: kinds, arg, mem => do
    let (value, mem) ← thr.argumentValue kind arg mem
    let (values, mem) ← makeHandlesArray kinds (arg + sizeofStackValue) mem
    return (value :: values, mem)

/-- `drop_handles_array`. -/
def dropHandlesArray (kinds : List TypeKind) (values : List Nat) (mem : Nat → Nat) : Nat → Nat :=
  (kinds.zip values).foldl (fun mem p => if p.1 = .reference then thr.dropHandle mem p.2 else mem) mem

/-- `push_native_frame`; `none` when it throws. -/
def pushNativeFrame (s : ThreadStack) (callee : Callee) (shape : MethodDescriptor) (args : Nat) :
    Option ThreadStack :=
  let argc := callee.argc shape
  let locals := args + argc * sizeofStackValue
  let addr := locals + argc * sizeofStackValue
  if callee.hasBody && addr + sizeofStackFrame ≤ thr.frameBufferEnd then
    (thr.makeHandlesArray (callee.argumentKinds shape) args s.mem).map fun (values, mem) =>
      { mem
        frames :=
          { isNative := true, addr, numLocals := argc, programCounter := 0, stackStates := []
            maxStack := 8, callee, shape, args := values } :: s.frames }
  else none

/-- `push_plain_frame`; `none` when it throws. -/
def pushPlainFrame (s : ThreadStack) (callee : Callee) (args : Nat) : Option ThreadStack :=
  let code := callee.method.code
  let addr := args + code.maxLocals * sizeofStackValue
  let frameSize := sizeofStackFrame + code.maxStack * sizeofStackValue
  if callee.hasBody && addr + frameSize ≤ thr.frameBufferEnd then
    some
      { s with
        frames :=
          { isNative := false, addr, numLocals := code.maxLocals, programCounter := 0
            stackStates := callee.analysis.stackStates, maxStack := code.maxStack, callee
            shape := callee.method.descriptor } :: s.frames }
  else none

/-- `push_frame`, and `push_native_frame` for a method that is signature polymorphic. -/
def pushFrame (s : ThreadStack) (callee : Callee) (shape : MethodDescriptor) (args : Nat) :
    Option ThreadStack :=
  if callee.isNative then thr.pushNativeFrame s callee shape args
  else thr.pushPlainFrame s callee args

/-- `get_next_frame_start`. -/
def nextFrameStart : List PushedFrame → Nat
  | [] => thr.frameBuffer
  | top :: _ => top.addr + sizeofStackFrame + top.maxStack * sizeofStackValue

/-- The copy of the arguments in `initialize_interpreter_call`. -/
def storeArgs (mem : Nat → Nat) (start : Nat) (args : List Nat) : Nat → Nat :=
  args.zipIdx.foldl (fun mem p => update mem (start + p.2 * sizeofStackValue) p.1) mem

end VmThread

/-- What happens to the stack of a thread. -/
inductive StackOp
  /-- An instruction of the top frame calls a method, with `extra` arguments besides the operands
  that it pops: `invokecallsite` and the methods of `VarHandle` put a method handle before them. -/
  | invoke (callee : Callee) (shape : MethodDescriptor) (extra : Nat)
  /-- `call_interpreter`. -/
  | callInterpreter (callee : Callee) (args : List Nat)
  /-- The top frame goes on to another instruction. -/
  | goto (pc : Nat)
  /-- Whatever else is done to the memory. -/
  | write (mem : Nat → Nat)
  /-- `pop_frame`. -/
  | pop

namespace ThreadStack

open StackFrame

/-- The stack behind an operation; `none` when no frame is pushed, or there is none. -/
def apply (thr : VmThread) (s : ThreadStack) : StackOp → Option ThreadStack
  | .invoke callee shape extra =>
    match s.frames with
    | [] => none
    | top :: _ =>
      if top.isNative then none
      else thr.pushFrame s callee shape (top.sp - (callee.argc shape - extra) * sizeofStackValue)
  | .callInterpreter callee args =>
    let start := thr.nextFrameStart s.frames
    if start + args.length * sizeofStackValue ≤ thr.frameBufferEnd then
      thr.pushFrame { s with mem := VmThread.storeArgs s.mem start args } callee
        callee.method.descriptor start
    else none
  | .goto pc =>
    match s.frames with
    | [] => none
    | top :: frames =>
      if top.isNative then none
      else some { s with frames := { top with programCounter := pc } :: frames }
  | .write mem => some { s with mem }
  | .pop =>
    match s.frames with
    | [] => none
    | top :: frames =>
      some
        { mem :=
            if top.isNative then
              thr.dropHandlesArray (top.callee.argumentKinds top.shape) top.args s.mem
            else s.mem
          frames }

end ThreadStack

end BJvm.Gc

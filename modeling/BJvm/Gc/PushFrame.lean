import BJvm.Gc.CallStack
import Mathlib.Order.Interval.Set.Basic

/-!
# Pushing a frame

`push_frame` and its callers, with the exceptions that they raise and with the `u8` in which they
count arguments.  Raising an exception may run its constructor, on frames that are gone again behind
it.
-/

namespace BJvm.Gc

open StackFrame

inductive PushError
  | stackOverflowError
  /-- `raise_abstract_method_error` -/
  | abstractMethodError
  /-- `raise_unsatisfied_link_error` -/
  | unsatisfiedLinkError
  deriving DecidableEq, Repr

/-- The stack behind a push, and the exception. -/
structure PushResult where
  stack : ThreadStack
  raised : Option PushError := none

/-- A number in a `u8`. -/
def u8 (n : Nat) : Nat := n % 2 ^ 8

/-- `sizeof(native_frame_data)`. -/
def sizeofNativeFrameData : Nat := 8

/-- The kinds of the arguments that `make_handles_array` goes through: it counts those of the
descriptor in a `u8`. -/
def Callee.countedKinds (callee : Callee) (shape : MethodDescriptor) : List TypeKind :=
  (if callee.method.isStatic then [] else [.reference]) ++
    (shape.args.take (u8 shape.args.length)).map (·.reprKind)

namespace VmThread

-- `raise exc s` is the memory behind raising an exception
variable (thr : VmThread) (raise : PushError → ThreadStack → Nat → Nat)

def raised (s : ThreadStack) (exc : PushError) : PushResult :=
  { stack := { s with mem := raise exc s }, raised := some exc }

/-- `push_native_frame`.  Without a handle for an argument the program ends. -/
def raisingPushNative (s : ThreadStack) (callee : Callee) (shape : MethodDescriptor)
    (args argc : Nat) : Option PushResult :=
  let locals := args + argc * sizeofStackValue
  let addr := locals + argc * sizeofStackValue
  if ¬ callee.hasBody then some (raised raise s .unsatisfiedLinkError)
  else if addr + sizeofStackFrame > thr.frameBufferEnd then
    some (raised raise s .stackOverflowError)
  else
    (thr.makeHandlesArray (callee.countedKinds shape) args s.mem).map fun (values, mem) =>
      { stack :=
          { mem
            frames :=
              { isNative := true, addr, numLocals := argc, programCounter := 0, stackStates := []
                maxStack := 8, callee, shape, args := values } :: s.frames } }

/-- `push_plain_frame`. -/
def raisingPushPlain (s : ThreadStack) (callee : Callee) (args : Nat) : PushResult :=
  let code := callee.method.code
  let addr := args + code.maxLocals * sizeofStackValue
  let frameSize := sizeofStackFrame + code.maxStack * sizeofStackValue
  if ¬ callee.hasBody then raised raise s .abstractMethodError
  else if addr + frameSize > thr.frameBufferEnd then raised raise s .stackOverflowError
  else
    { stack :=
        { s with
          frames :=
            { isNative := false, addr, numLocals := code.maxLocals, programCounter := 0
              stackStates := callee.analysis.stackStates, maxStack := code.maxStack, callee
              shape := callee.method.descriptor } :: s.frames } }

/-- `push_frame`, and `push_native_frame` for a method that is signature polymorphic. -/
def raisingPush (s : ThreadStack) (callee : Callee) (shape : MethodDescriptor) (args argc : Nat) :
    Option PushResult :=
  if callee.isNative then thr.raisingPushNative raise s callee shape args argc
  else some (thr.raisingPushPlain raise s callee args)

end VmThread

namespace StackOp

/-- The method that is called, and the descriptor it is called with. -/
def call : StackOp → Option (Callee × MethodDescriptor)
  | .invoke callee shape _ => some (callee, shape)
  | .callInterpreter callee _ => some (callee, callee.method.descriptor)
  | _ => none

/-- Where the arguments are: on the operand stack of the top frame, or behind all frames. -/
def args (thr : VmThread) (s : ThreadStack) : StackOp → Nat
  | .invoke callee shape extra =>
    ((s.frames.head?.map (·.sp)).getD 0 + extra * sizeofStackValue) -
      u8 (callee.argc shape) * sizeofStackValue
  | _ => thr.nextFrameStart s.frames

end StackOp

/-- An instruction of the top frame that calls a method, or `initialize_interpreter_call`; no result
for any other operation. -/
def ThreadStack.push (thr : VmThread) (raise : PushError → ThreadStack → Nat → Nat)
    (s : ThreadStack) (op : StackOp) : Option PushResult :=
  match op with
  | .invoke callee shape _ =>
    match s.frames with
    | [] => none
    | top :: _ =>
      if top.isNative then none
      else thr.raisingPush raise s callee shape (op.args thr s) (u8 (callee.argc shape))
  | .callInterpreter callee args =>
    let argc := u8 (callee.argc callee.method.descriptor)
    let start := op.args thr s
    if start + argc * sizeofStackValue > thr.frameBufferEnd then
      some (VmThread.raised raise s .stackOverflowError)
    else
      thr.raisingPush raise { s with mem := VmThread.storeArgs s.mem start (args.take argc) } callee
        callee.method.descriptor start argc
  | _ => none

/-! ### What a frame takes up -/

namespace PushedFrame

variable (f : PushedFrame)

/-- The end of the operand stack. -/
def stackEnd : Nat := f.stack + f.maxStack * sizeofStackValue

/-- Locals, header and operand stack; of a native frame locals and header. -/
def extent : Set Nat := Set.Ico f.locals (if f.isNative then f.stack else f.stackEnd)

/-- The `native_frame_data` behind the header. -/
def nativeData : Set Nat :=
  if f.isNative then Set.Ico f.stack (f.stack + sizeofNativeFrameData) else ∅

/-- What a frame holds while it is running: its operand stack only as far as it is filled. -/
def held : Set Nat :=
  (Set.Ico f.locals (if f.isNative then f.stack else min f.sp f.stackEnd)) ∪ f.nativeData

end PushedFrame

/-- The slots in which the arguments of a call are passed. -/
def argumentBytes (args argc : Nat) : Set Nat := Set.Ico args (args + argc * sizeofStackValue)

/-- A push either raises an exception and leaves the frames as they were, or puts a frame into the
buffer that has nothing of the frame below but the arguments.  The locals of a native frame are its
arguments, as far as a `u8` can count them. -/
structure PushSafe (thr : VmThread) (s : ThreadStack) (op : StackOp) (callee : Callee)
    (shape : MethodDescriptor) (result : PushResult) : Prop where
  raised : ∀ exc, result.raised = some exc → result.stack.frames = s.frames ∧
    (exc = .stackOverflowError ∨ callee.hasBody = false ∧
      exc = if callee.isNative then .unsatisfiedLinkError else .abstractMethodError)
  pushed : result.raised = none → ∃ f, result.stack.frames = f :: s.frames ∧ f.callee = callee ∧
    f.extent ⊆ Set.Ico thr.frameBuffer thr.frameBufferEnd ∧
    (∀ below ∈ s.frames.head?,
      f.extent ∩ below.held ⊆ argumentBytes (op.args thr s) (callee.argc shape)) ∧
    (f.isNative = true → callee.argc shape < 2 ^ 8 → f.args.length = f.numLocals)

/-- All of the frame lies in the buffer, the data of a native one too, and overlaps all of the frame
below in the arguments only; no exception but for want of space. -/
structure PushSafeInFull (thr : VmThread) (s : ThreadStack) (op : StackOp) (callee : Callee)
    (shape : MethodDescriptor) (result : PushResult) : Prop where
  raised : ∀ exc, result.raised = some exc → result.stack.frames = s.frames ∧
    exc = .stackOverflowError
  pushed : result.raised = none → ∃ f, result.stack.frames = f :: s.frames ∧
    f.extent ∪ f.nativeData ⊆ Set.Ico thr.frameBuffer thr.frameBufferEnd ∧
    ∀ below ∈ s.frames.head?, (f.extent ∪ f.nativeData) ∩ (below.extent ∪ below.nativeData) ⊆
      argumentBytes (op.args thr s) (callee.argc shape)

end BJvm.Gc

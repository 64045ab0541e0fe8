import BJvm.Analysis.MethodAnalysis
import Mathlib.Algebra.Order.Ring.Nat
import Mathlib.Data.List.Dedup

/-!
# The roots of a collection

`major_gc_enumerate_gc_roots` of `gc.c`.  The structures of the VM hold the addresses of their
fields of object type, and `mem` what is stored there; fields that hold no object are left out.
-/

namespace BJvm.Gc

/-- `cp_entry`, by its kind, with the field of the kinds that keep a resolved object. -/
inductive CpEntry
  | methodHandle (resolvedMt : Nat)
  | invokeDynamic (resolvedMt : Nat)
  | methodType (resolvedMt : Nat)
  | string (interned : Nat)
  | class_ (vmObject : Nat)
  | other
  deriving DecidableEq, Repr

/-- `cp_method`.  `reflection_ctor` and `reflection_method` are members of one union. -/
structure CpMethod where
  reflection : Nat
  deriving DecidableEq, Repr

def CpMethod.reflectionCtor (m : CpMethod) : Nat := m.reflection
def CpMethod.reflectionMethod (m : CpMethod) : Nat := m.reflection

/-- The inline caches of a `bytecode_insn`. -/
structure InsnCaches where
  ic : Nat
  ic2 : Nat
  deriving DecidableEq, Repr

/-- The `classdesc` of an array class. -/
structure ArrayClassdesc where
  mirror : Nat
  cpMirror : Nat
  linkageError : Nat
  deriving DecidableEq, Repr

/-- `classdesc`, with the chain of its `array_type`s. -/
structure Classdesc where
  classloader : Nat
  linkageError : Nat
  mirror : Nat
  cpMirror : Nat
  arrayTypes : List ArrayClassdesc := []
  methods : List CpMethod := []
  /-- `fields[i].reflection_field` -/
  reflectionFields : List Nat := []
  pool : List CpEntry := []
  indyInsns : List InsnCaches := []
  sigpolyInsns : List InsnCaches := []
  staticFields : Nat := 0
  /-- `static_references->slots_unscaled` -/
  staticReferences : List Nat := []
  deriving DecidableEq, Repr

/-- `classloader`.  `displaced` are the classes it has defined that are no longer in `loaded`:
`define_class` looks its name up before it resolves the superclass, and replaces what was defined
under that name meanwhile. -/
structure Classloader where
  javaMirror : Nat
  loaded : List Classdesc := []
  displaced : List Classdesc := []
  deriving DecidableEq, Repr

/-- `stack_frame`, with the `stack_states` of its method's analysis. -/
structure StackFrame where
  isNative : Bool
  addr : Nat
  numLocals : Nat
  programCounter : Nat
  stackStates : List StackSummary
  deriving DecidableEq, Repr

/-- `vm_thread`.  The frames begin with the innermost. -/
structure VmThread where
  frameBuffer : Nat
  frameBufferEnd : Nat
  frames : List StackFrame := []
  outOfMemError : Nat
  stackOverflowError : Nat
  currentException : Nat
  threadObj : Nat
  putativeSystemCl : Nat
  handles : List Nat := []
  nullHandle : Nat
  deriving DecidableEq, Repr

/-- `pending_call`: what its method tells about the arguments, and the copies of these. -/
structure PendingCall where
  isStatic : Bool
  descriptor : MethodDescriptor
  args : List Nat
  deriving DecidableEq, Repr

/-- `vm`.  There are no primitive classes before they are initialised. -/
structure Vm where
  mem : Nat → Nat
  heap : Nat
  heapCapacity : Nat
  primitiveClasses : List Classdesc := []
  jsHandles : List Nat := []
  referencePendingList : Nat
  activeClassloaders : List Classloader := []
  mainThreadGroup : Nat
  /-- `reflection_object` of each module -/
  modules : List Nat := []
  activeThreads : List VmThread := []
  internedStrings : List Nat := []
  /-- The call queues of the threads. -/
  scheduler : Option (List (List PendingCall)) := none

/-! ### The vector -/

/-- A vector of `stb_ds.h`; the null pointer is the empty vector of capacity 0. -/
structure StbVec where
  elems : List Nat := []
  capacity : Nat := 0
  deriving DecidableEq, Repr

/-- `stbds_arrgrowf` for one more element: the capacity. -/
def arrgrow (length capacity : Nat) : Nat :=
  if length + 1 ≤ capacity then capacity
  else if length + 1 < 2 * capacity then 2 * capacity
  else if length + 1 < 4 then 4
  else length + 1

def StbVec.arrput (v : StbVec) (a : Nat) : StbVec :=
  { elems := v.elems ++ [a], capacity := arrgrow v.elems.length v.capacity }

/-! ### Enumeration -/

namespace StackFrame

def sizeofStackFrame : Nat := 40
def sizeofStackValue : Nat := 8

/-- `frame_locals`. -/
def locals (frame : StackFrame) : Nat := frame.addr - frame.numLocals * sizeofStackValue

/-- `frame->stack`. -/
def stack (frame : StackFrame) : Nat := frame.addr + sizeofStackFrame

def stackSummary (frame : StackFrame) : StackSummary :=
  frame.stackStates.getD frame.programCounter default

/-- The slots from `base` on whose kind is a reference. -/
def references (base : Nat) (kinds : List TypeKind) : List Nat :=
  (kinds.zipIdx.filter fun p => p.1 = .reference).map fun p => base + p.2 * sizeofStackValue

end StackFrame

def uintptrMax : Nat := 2 ^ 64 - 1

namespace Vm

variable (vm : Vm)

/-- `in_heap`. -/
def inHeap (field : Nat) : Bool := vm.heap ≤ field && field < vm.heap + vm.heapCapacity

/-- The slot holds a reference into the heap. -/
def live (a : Nat) : Bool := vm.mem a ≠ 0 && vm.inHeap (vm.mem a)

/-- `PUSH_ROOT`. -/
def pushRoot (roots : StbVec) (a : Nat) : StbVec := if vm.live a then roots.arrput a else roots

def pushRoots (roots : StbVec) (l : List Nat) : StbVec := l.foldl vm.pushRoot roots

def pushCpEntry (roots : StbVec) : CpEntry → StbVec
  | .methodHandle resolvedMt => vm.pushRoot roots resolvedMt
  | .invokeDynamic resolvedMt => vm.pushRoot roots resolvedMt
  | .methodType resolvedMt => vm.pushRoot roots resolvedMt
  | .string interned => vm.pushRoot roots interned
  | .class_ vmObject => vm.pushRoot roots vmObject
  | .other => roots

/-- `enumerate_reflection_roots`. -/
def enumerateReflectionRoots (roots : StbVec) (desc : Classdesc) : StbVec :=
  let roots := vm.pushRoots roots [desc.classloader, desc.linkageError]
  let roots := vm.pushRoots roots [desc.mirror, desc.cpMirror]
  let roots := desc.arrayTypes.foldl
    (fun roots array => vm.pushRoots roots [array.mirror, array.cpMirror]) roots
  let roots := desc.methods.foldl
    (fun roots m => vm.pushRoots roots [m.reflectionMethod, m.reflectionCtor]) roots
  let roots := vm.pushRoots roots desc.reflectionFields
  let roots := desc.pool.foldl vm.pushCpEntry roots
  let roots := vm.pushRoots roots (desc.indyInsns.map (·.ic))
  vm.pushRoots roots (desc.sigpolyInsns.map (·.ic2))

/-- The loop over the frames of `push_thread_roots`. -/
def pushFrames : Nat → List StackFrame → StbVec → StbVec
  | _, [], roots => roots
  | minFrameAddrScanned, frame :: frames, roots =>
    if frame.isNative then pushFrames minFrameAddrScanned frames roots
    else
      let ss := frame.stackSummary
      let roots := (StackFrame.references frame.stack ss.stack).foldl
        (fun roots val => if minFrameAddrScanned ≤ val then roots else vm.pushRoot roots val) roots
      let roots := vm.pushRoots roots (StackFrame.references frame.locals ss.locals)
      pushFrames frame.locals frames roots

/-- `push_thread_roots`. -/
def pushThreadRoots (roots : StbVec) (thr : VmThread) : StbVec :=
  let roots := vm.pushRoots roots [thr.threadObj, thr.currentException]
  let roots := vm.pushFrames uintptrMax thr.frames roots
  let roots := vm.pushRoots roots thr.handles
  vm.pushRoots roots [thr.outOfMemError, thr.stackOverflowError]

end Vm

/-- The slots of the static fields of reference type. -/
def Classdesc.staticSlots (desc : Classdesc) : List Nat :=
  desc.staticReferences.map fun offs => desc.staticFields + offs * 8

/-- `method_argc`. -/
def PendingCall.argc (call : PendingCall) : Nat :=
  call.descriptor.args.length + if call.isStatic then 0 else 1

/-- `is_nth_arg_reference`. -/
def PendingCall.isNthArgReference (call : PendingCall) (i : Nat) : Bool :=
  if call.isStatic then (call.descriptor.args.getD i default).reprKind = .reference
  else i = 0 || (call.descriptor.args.getD (i - 1) default).reprKind = .reference

/-- The slots that `rr_scheduler_enumerate_gc_roots` pushes for a call. -/
def PendingCall.slots (call : PendingCall) : List Nat :=
  ((List.range call.argc).filter call.isNthArgReference).map fun k => call.args.getD k 0

/-- `rr_scheduler_enumerate_gc_roots`. -/
def rrSchedulerEnumerateGcRoots (queues : List (List PendingCall)) (roots : StbVec) : StbVec :=
  queues.foldl (fun roots queue =>
    queue.foldl (fun roots call => call.slots.foldl StbVec.arrput roots) roots) roots

namespace Vm

variable (vm : Vm)

/-- `major_gc_enumerate_gc_roots` up to the scheduler's roots. -/
def enumerateRoots : StbVec :=
  let roots := vm.primitiveClasses.foldl vm.enumerateReflectionRoots {}
  let roots := vm.pushRoots roots vm.jsHandles
  let roots := vm.pushRoot roots vm.referencePendingList
  let roots := vm.activeClassloaders.foldl (fun roots cl =>
    cl.loaded.foldl (fun roots desc =>
      vm.enumerateReflectionRoots (vm.pushRoots roots desc.staticSlots) desc)
      (vm.pushRoot roots cl.javaMirror)) roots
  let roots := vm.pushRoot roots vm.mainThreadGroup
  let roots := vm.pushRoots roots vm.modules
  let roots := vm.activeThreads.foldl vm.pushThreadRoots roots
  vm.pushRoots roots vm.internedStrings

/-- `major_gc_enumerate_gc_roots`: the root list, or `none` where `ctx->roots` is left pointing to
freed memory.  The scheduler gets the vector by value, so when the vector grows there, the caller
keeps the old pointer, and a null pointer remains null. -/
def majorGcEnumerateGcRoots : Option (List Nat) :=
  let roots := vm.enumerateRoots
  match vm.scheduler with
  | none => some roots.elems
  | some queues =>
    let grown := rrSchedulerEnumerateGcRoots queues roots
    if grown.capacity = roots.capacity then some grown.elems
    else if roots.capacity = 0 then some roots.elems
    else none

end Vm

end BJvm.Gc

import BJvm.Analysis.Analyzer
import BJvm.ClassFile.Attributes
import BJvm.Gc.Collector
import BJvm.Interpreter.Arithmetic

/-!
# The machine of the interpreter

What the handlers of `interpreter2.c` are given and what they leave: the frame of one method, the
memory of the VM and the registers.  Classes, threads, allocation and the frames of callees are a
world that answers requests.
-/

namespace BJvm.Interpreter

open ClassFile StackValue Function

/-! ### Instructions -/

/-- The suffixes of the resolved field instructions. -/
inductive FieldKind
  | b | c | s | i | j | f | d | z | l
  deriving DecidableEq, Repr

/-- The intrinsics of one argument. -/
inductive MathFn
  | sin | cos | tan | sqrt
  deriving DecidableEq, Repr

/-- The kinds of `insn_code_kind` that the interpreter rewrites instructions to. -/
inductive ResolvedCode
  | anewarray | checkcast | instanceof | new
  | invokevtableMonomorphic | invokevtablePolymorphic | invokeitableMonomorphic
  | invokeitablePolymorphic | invokespecial | invokestatic | invokecallsite | invokesigpoly
  | getfield (k : FieldKind) | putfield (k : FieldKind)
  | getstatic (k : FieldKind) | putstatic (k : FieldKind)
  | pow | math (f : MathFn)
  deriving DecidableEq, Repr

/-- `insn_code_kind`. -/
inductive InsnCodeKind
  | parsed (k : InsnCode)
  | resolved (k : ResolvedCode)
  deriving DecidableEq, Repr

/-- `bytecode_insn`: what the parser and the analysis leave, the kind it has been rewritten to, and
the inline cache. -/
structure Insn extends ParsedInsn where
  code : InsnCodeKind := .parsed kind
  argc : Nat := 0
  returns : Bool := false
  classdesc : BitVec 64 := 0
  /-- `cp->methodref.resolved` -/
  resolved : BitVec 64 := 0
  ic : BitVec 64 := 0
  ic2 : BitVec 64 := 0
  deriving DecidableEq

/-- `getstatic_putstatic_resolved_kind` and `getfield_putfield_resolved_kind`. -/
def resolvedKind : TypeKind → FieldKind
  | .boolean => .b
  | .char => .c
  | .float => .f
  | .double => .d
  | .byte => .b
  | .short => .s
  | .int => .i
  | .long => .j
  | _ => .l

/-! ### Memory -/

abbrev Memory := BitVec 64 → BitVec 8

namespace Memory

def load16 (m : Memory) (a : BitVec 64) : BitVec 16 := m (a + 1) ++ m a
def load32 (m : Memory) (a : BitVec 64) : BitVec 32 := m.load16 (a + 2) ++ m.load16 a
def load64 (m : Memory) (a : BitVec 64) : BitVec 64 := m.load32 (a + 4) ++ m.load32 a

def store8 (m : Memory) (a : BitVec 64) (v : BitVec 8) : Memory := update m a v

def store16 (m : Memory) (a : BitVec 64) (v : BitVec 16) : Memory :=
  (m.store8 a (v.setWidth 8)).store8 (a + 1) (v.extractLsb' 8 8)

def store32 (m : Memory) (a : BitVec 64) (v : BitVec 32) : Memory :=
  (m.store16 a (v.setWidth 16)).store16 (a + 2) (v.extractLsb' 16 16)

def store64 (m : Memory) (a : BitVec 64) (v : BitVec 64) : Memory :=
  (m.store32 a (v.setWidth 32)).store32 (a + 4) (v.extractLsb' 32 32)

/-- `ArrayLength`. -/
def arrayLength (m : Memory) (array : BitVec 64) : BitVec 32 :=
  m.load32 (array + BitVec.ofNat 64 Collector.kArrayLengthOffset)

/-- The address of an element of an array whose elements take `size` bytes. -/
def element (array : BitVec 64) (index : BitVec 32) (size : Nat) : BitVec 64 :=
  array + BitVec.ofNat 64 Collector.kArrayDataOffset + index.signExtend 64 * BitVec.ofNat 64 size

end Memory

/-! ### The world -/

/-- What a frame shares with the rest of the VM.  The instructions of its method are shared with
all frames of the method. -/
structure Heap (W : Type) where
  world : W
  mem : Memory
  code : Nat → Insn

/-- The exceptions that handlers raise themselves. -/
inductive Exn
  | nullPointer
  | divisionByZero
  | arrayIndexOutOfBounds (index length : BitVec 32)
  | arrayStore (value : BitVec 64)
  | negativeArraySize (count : BitVec 32)
  | illegalMonitorState
  | abstractMethod (method : BitVec 64)
  | classCast (obj classdesc : BitVec 64)
  deriving DecidableEq

/-- What handlers call upon other parts of the VM for.  `pc` names the instruction whose constant
pool entry is meant. -/
inductive Request
  | resolveStatic (pc : Nat)
  | resolveField (pc : Nat)
  | initializeNew (pc : Nat)
  | resolveClass (pc : Nat)
  | resolveCatchType (cp : Nat)
  | resolveMethodref (pc : Nat)
  | resolveMethodType (pc : Nat)
  | resolveIndy (pc : Nat)
  | selectSpecial (pc : Nat) (method : BitVec 64)
  | ldc (pc : Nat)
  | newObject (classdesc : BitVec 64)
  | newPrimitiveArray (type : TypeKind) (count : BitVec 32)
  | newObjectArray (classdesc : BitVec 64) (count : BitVec 32)
  | multianewarray (pc : Nat) (dims : List (BitVec 32))
  | monitorAcquire (obj : BitVec 64)
  | monitorRelease (obj : BitVec 64)
  | call (pc : Nat) (args : List StackValue)

/-- The flags that handlers read of a `cp_method`. -/
structure MethodInfo where
  isSignaturePolymorphic : Bool
  /-- `my_class->access_flags & ACCESS_INTERFACE` -/
  isInterface : Bool
  isFinal : Bool
  /-- `<init>` of `java/lang/Object` -/
  isObjectInit : Bool
  /-- the intrinsic of a method of `java/lang/Math` -/
  intrinsic : Option ResolvedCode

/-- The operations on floats and doubles, on their bits. -/
structure FloatOps where
  fadd : BitVec 32 → BitVec 32 → BitVec 32
  fsub : BitVec 32 → BitVec 32 → BitVec 32
  fmul : BitVec 32 → BitVec 32 → BitVec 32
  fdiv : BitVec 32 → BitVec 32 → BitVec 32
  fmodf : BitVec 32 → BitVec 32 → BitVec 32
  fneg : BitVec 32 → BitVec 32
  dadd : BitVec 64 → BitVec 64 → BitVec 64
  dsub : BitVec 64 → BitVec 64 → BitVec 64
  dmul : BitVec 64 → BitVec 64 → BitVec 64
  ddiv : BitVec 64 → BitVec 64 → BitVec 64
  fmod : BitVec 64 → BitVec 64 → BitVec 64
  dneg : BitVec 64 → BitVec 64
  /-- `(float)` and `(double)` of an `s64` -/
  s64ToFloat : BitVec 64 → BitVec 32
  s64ToDouble : BitVec 64 → BitVec 64
  floatToDouble : BitVec 32 → BitVec 64
  doubleToFloat : BitVec 64 → BitVec 32
  math : MathFn → BitVec 64 → BitVec 64
  /-- `sinf` and its like -/
  mathf : MathFn → BitVec 32 → BitVec 32
  pow : BitVec 64 → BitVec 64 → BitVec 64
  powf : BitVec 32 → BitVec 32 → BitVec 32

/-- The parts of the VM that the interpreter calls upon.  An answer to a request is a value or an
exception. -/
structure Vm (W : Type) where
  ops : FloatOps
  request : Request → Heap W → Heap W × Except StackValue StackValue
  raise : Exn → Heap W → Heap W × StackValue
  /-- `obj->descriptor` -/
  descriptor : Heap W → BitVec 64 → BitVec 64
  /-- `instanceof`, of descriptors -/
  instanceof : Heap W → BitVec 64 → BitVec 64 → Bool
  /-- `array->descriptor->one_fewer_dim` -/
  oneFewerDim : Heap W → BitVec 64 → BitVec 64
  methodInfo : Heap W → BitVec 64 → MethodInfo
  vtableLookup : Heap W → BitVec 64 → BitVec 64 → BitVec 64
  /-- zero where there is no such method -/
  itableLookup : Heap W → BitVec 64 → BitVec 64 → BitVec 64 → BitVec 64
  vtableIndex : Heap W → BitVec 64 → BitVec 64
  itableIndex : Heap W → BitVec 64 → BitVec 64
  methodClass : Heap W → BitVec 64 → BitVec 64
  /-- `form->arity` of a call site -/
  arity : Heap W → BitVec 64 → Nat
  /-- the frame that a call pushes is a native one -/
  isNative : Heap W → Nat → List StackValue → Bool

/-- What a frame has of its method. -/
structure FrameMethod where
  maxLocals : Nat
  insnIndexToSd : Nat → Nat
  exceptionTable : List ParsedException

/-! ### The machine -/

/-- The memory of the VM and of the frame, and the registers but for the top of the stack. -/
structure Machine (W : Type) where
  heap : Heap W
  locals : Nat → StackValue
  stack : Nat → StackValue
  /-- `frame->program_counter` -/
  programCounter : Nat
  pc : Nat
  sp : Nat
  fuel : BitVec 32

namespace Machine

variable {W : Type} (m : Machine W)

/-- The current instruction. -/
def insn : Insn := m.heap.code m.pc

/-- `SPILL_VOID`. -/
def spillVoid : Machine W := { m with programCounter := m.pc }

def write (i : Nat) (v : StackValue) : Machine W := { m with stack := update m.stack i v }

/-- `*(sp - 1) = v`. -/
def setTop (v : StackValue) : Machine W := m.write (m.sp - 1) v

/-- `SPILL(tos)`, of an integer or a reference. -/
def spillInt (tos : BitVec 64) : Machine W := (m.setTop tos).spillVoid

/-- Rewrites the current instruction. -/
def rewrite (f : Insn → Insn) : Machine W :=
  { m with heap := { m.heap with code := update m.heap.code m.pc (f m.insn) } }

/-- `insns += n`, with the 1 that `NEXT` adds: only behind both is `insns` at an instruction. -/
def advanceNext (n : Int) : Machine W := { m with pc := (m.pc + n + 1).toNat }

/-- `insns = (bytecode_insn *)((char *)insns + offset)`. -/
def jumpBy (offset : Int) : Machine W :=
  { m with pc := ((m.pc * sizeofBytecodeInsn + offset) / sizeofBytecodeInsn).toNat }

def setMem (mem : Memory) : Machine W := { m with heap := { m.heap with mem } }

def setLocal (index : Nat) (v : StackValue) : Machine W :=
  { m with locals := update m.locals index v }

end Machine

/-- What a handler ends in: the handler of an instruction, or one of the ways back to the
interpreter loop. -/
inductive Next (W : Type)
  | jump (m : Machine W) (tos : Tos)
  | exceptionThrown (m : Machine W) (e : StackValue)
  | fuelCheck (m : Machine W)
  /-- a frame was pushed for that many arguments -/
  | invoke (m : Machine W) (argc : Nat)
  | done (m : Machine W) (result : BitVec 64)
  /-- an `UNREACHABLE` -/
  | abort

section

variable {W : Type}

/-! ### The macros -/

def nextVoid (m : Machine W) : Next W := .jump { m with pc := m.pc + 1 } .void
def nextInt (m : Machine W) (tos : BitVec 64) : Next W := .jump { m with pc := m.pc + 1 } (.int tos)

def nextFloat (m : Machine W) (tos : BitVec 32) : Next W :=
  .jump { m with pc := m.pc + 1 } (.float tos)

def nextDouble (m : Machine W) (tos : BitVec 64) : Next W :=
  .jump { m with pc := m.pc + 1 } (.double tos)

def jmpVoid (m : Machine W) : Next W := .jump m .void
def jmpInt (m : Machine W) (tos : BitVec 64) : Next W := .jump m (.int tos)
def jmpFloat (m : Machine W) (tos : BitVec 32) : Next W := .jump m (.float tos)
def jmpDouble (m : Machine W) (tos : BitVec 64) : Next W := .jump m (.double tos)

/-- `STACK_POLYMORPHIC_JMP`. -/
def stackPolymorphicJmp (m : Machine W) : Next W :=
  .jump m (.fill m.insn.tosBefore (m.stack (m.sp - 1)))

/-- `STACK_POLYMORPHIC_NEXT`. -/
def stackPolymorphicNext (m : Machine W) : Next W := stackPolymorphicJmp { m with pc := m.pc + 1 }

abbrev VoidHandler (W : Type) := Machine W → Next W
abbrev IntHandler (W : Type) := Machine W → BitVec 64 → Next W
abbrev FloatHandler (W : Type) := Machine W → BitVec 32 → Next W
abbrev DoubleHandler (W : Type) := Machine W → BitVec 64 → Next W

/-! `FORWARD_TO_NULLARY`. -/

def forwardInt (which : VoidHandler W) : IntHandler W := fun m tos => which (m.setTop tos)
def forwardFloat (which : VoidHandler W) : FloatHandler W :=
  fun m tos => which (m.setTop (.ofFloat tos))
def forwardDouble (which : VoidHandler W) : DoubleHandler W := fun m tos => which (m.setTop tos)

/-- `FUEL_CHECK`: whether the fuel is used up, and what is left of it. -/
def takeFuel (m : Machine W) (spill : Machine W → Machine W) (k : Machine W → Next W) : Next W :=
  if m.fuel = 0 then .fuelCheck (spill { m with fuel := m.fuel - 1 }).spillVoid
  else k { m with fuel := m.fuel - 1 }

variable (vm : Vm W)

/-- Raises an exception of the VM. -/
def throwExn (e : Exn) (m : Machine W) : Next W :=
  let (heap, ex) := vm.raise e m.heap
  .exceptionThrown { m with heap } ex

/-- `NPE_ON_NULL`. -/
def npeOnNull (obj : BitVec 64) (m : Machine W) (k : Next W) : Next W :=
  if obj = 0 then throwExn vm .nullPointer m.spillVoid else k

/-- Calls upon another part of the VM, which may end in an exception. -/
def perform (r : Request) (m : Machine W) (k : Machine W → StackValue → Next W) : Next W :=
  match vm.request r m.heap with
  | (heap, .ok v) => k { m with heap } v
  | (heap, .error e) => .exceptionThrown { m with heap } e

end

end BJvm.Interpreter

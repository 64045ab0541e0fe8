import BJvm.Interpreter.Machine

/-!
# Handlers

The handlers of `interpreter2.c`.  Those of one macro, or of one shape, are one definition applied
to what they differ in.
-/

namespace BJvm.Interpreter

open ClassFile StackValue Function

variable {W : Type} (vm : Vm W) (fm : FrameMethod)

/-! ### Shapes

What a handler does with the register and `sp` around its computation. -/

def pushInt (value : Machine W → BitVec 64) : VoidHandler W :=
  fun m => nextInt { m with sp := m.sp + 1 } (value m)

def pushFloat (value : Machine W → BitVec 32) : VoidHandler W :=
  fun m => nextFloat { m with sp := m.sp + 1 } (value m)

def pushDouble (value : Machine W → BitVec 64) : VoidHandler W :=
  fun m => nextDouble { m with sp := m.sp + 1 } (value m)

/-- Takes the register off the stack. -/
def popInt (effect : Machine W → BitVec 64 → Machine W) : IntHandler W :=
  fun m tos => stackPolymorphicNext { effect m tos with sp := m.sp - 1 }

def popFloat (effect : Machine W → BitVec 32 → Machine W) : FloatHandler W :=
  fun m tos => stackPolymorphicNext { effect m tos with sp := m.sp - 1 }

def popDouble (effect : Machine W → BitVec 64 → Machine W) : DoubleHandler W :=
  fun m tos => stackPolymorphicNext { effect m tos with sp := m.sp - 1 }

/-- `INTEGER_BIN_OP`. -/
def integerBinOp (eval : BitVec 64 → BitVec 64 → BitVec 64) : IntHandler W :=
  fun m tos => nextInt { m with sp := m.sp - 1 } (eval (m.stack (m.sp - 2)) tos)

/-- `INTEGER_UN_OP`. -/
def integerUnOp (eval : BitVec 64 → BitVec 64) : IntHandler W := fun m tos => nextInt m (eval tos)
def integerToFloat (eval : BitVec 64 → BitVec 32) : IntHandler W :=
  fun m tos => nextFloat m (eval tos)
def integerToDouble (eval : BitVec 64 → BitVec 64) : IntHandler W :=
  fun m tos => nextDouble m (eval tos)

/-- `FLOAT_BIN_OP`, of a float and of a double, and for `cmpg` and `cmpl`. -/
def floatBinOp (eval : BitVec 32 → BitVec 32 → BitVec 32) : FloatHandler W :=
  fun m tos => nextFloat { m with sp := m.sp - 1 } (eval (low (m.stack (m.sp - 2))) tos)

def doubleBinOp (eval : BitVec 64 → BitVec 64 → BitVec 64) : DoubleHandler W :=
  fun m tos => nextDouble { m with sp := m.sp - 1 } (eval (m.stack (m.sp - 2)) tos)

def floatCmpOp (eval : FloatValue → FloatValue → BitVec 64) : FloatHandler W :=
  fun m tos => nextInt { m with sp := m.sp - 1 }
    (eval (floatValue (low (m.stack (m.sp - 2)))) (floatValue tos))

def doubleCmpOp (eval : FloatValue → FloatValue → BitVec 64) : DoubleHandler W :=
  fun m tos => nextInt { m with sp := m.sp - 1 }
    (eval (doubleValue (m.stack (m.sp - 2))) (doubleValue tos))

/-- `FLOAT_UN_OP` and `DOUBLE_UN_OP`. -/
def floatUnOp (eval : BitVec 32 → BitVec 32) : FloatHandler W := fun m tos => nextFloat m (eval tos)
def floatToInteger (eval : BitVec 32 → BitVec 64) : FloatHandler W :=
  fun m tos => nextInt m (eval tos)
def floatToDoubleOp (eval : BitVec 32 → BitVec 64) : FloatHandler W :=
  fun m tos => nextDouble m (eval tos)
def doubleUnOp (eval : BitVec 64 → BitVec 64) : DoubleHandler W :=
  fun m tos => nextDouble m (eval tos)
def doubleToInteger (eval : BitVec 64 → BitVec 64) : DoubleHandler W :=
  fun m tos => nextInt m (eval tos)
def doubleToFloatOp (eval : BitVec 64 → BitVec 32) : DoubleHandler W :=
  fun m tos => nextFloat m (eval tos)

/-! ### Resolution -/

/-- The end of `resolve_getstatic_putstatic`, when the class is initialized.  Whether the
instruction stores is read off its kind only now. -/
def Machine.finishStatic (m : Machine W) (address : BitVec 64) : Machine W :=
  let putstatic := m.insn.code = .parsed .putstatic
  m.rewrite fun insn =>
    let kind := resolvedKind insn.field.reprKind
    { insn with
      code := .resolved (if putstatic then .putstatic kind else .getstatic kind)
      ic := address }

/-- The end of `resolve_getfield_putfield`. -/
def Machine.finishField (m : Machine W) (putfield : Bool) (offset : BitVec 64) : Machine W :=
  m.rewrite fun insn =>
    let kind := resolvedKind insn.field.reprKind
    { insn with
      code := .resolved (if putfield then .putfield kind else .getfield kind)
      ic2 := offset }

/-- The end of `resolve_new_inst`. -/
def Machine.finishNew (m : Machine W) (classdesc : BitVec 64) : Machine W :=
  m.rewrite fun insn => { insn with code := .resolved .new, classdesc }

/-- The end of `resolve_invokestatic`. -/
def Machine.finishInvokestatic (m : Machine W) (method : BitVec 64) : Machine W :=
  m.rewrite fun insn =>
    { insn with
      code := .resolved .invokestatic
      resolved := method
      ic := method
      argc := insn.descriptor.args.length
      returns := insn.descriptor.returnType.baseKind ≠ .void }

/-- `resolve_insn`: the machine behind it and the exception that it ends in, if any. -/
def resolveInsn (m : Machine W) : Option (Machine W × Option StackValue) :=
  let await (r : Request) (finish : Machine W → StackValue → Machine W) :=
    match vm.request r m.heap with
    | (heap, .ok v) => some (finish { m with heap } v, none)
    | (heap, .error e) => some ({ m with heap }, some e)
  let field (putfield : Bool) (obj : StackValue) :=
    if obj = 0 then
      let (heap, e) := vm.raise .nullPointer m.heap
      some ({ m with heap }, some e)
    else await (.resolveField m.pc) fun m offset => m.finishField putfield offset
  match m.insn.code with
  | .parsed .getstatic | .parsed .putstatic => await (.resolveStatic m.pc) .finishStatic
  | .parsed .getfield => field false (m.stack (m.sp - 1))
  | .parsed .putfield => field true (m.stack (m.sp - 2))
  | .parsed .new => await (.initializeNew m.pc) .finishNew
  | .parsed .invokestatic => await (.resolveMethodref m.pc) .finishInvokestatic
  | _ => none

/-- `TryResolve`. -/
def tryResolve (m : Machine W) (k : Machine W → Next W) : Next W :=
  match resolveInsn vm m with
  | some (m, none) => k m
  | some (m, some e) => .exceptionThrown m e
  | none => .abort

/-! ### Fields -/

def getstaticImplVoid : VoidHandler W := fun m => tryResolve vm m.spillVoid jmpVoid
def putstaticImplVoid : VoidHandler W := fun m => tryResolve vm m.spillVoid stackPolymorphicJmp

/-- The value of a field, or of an element of an array, as a register holds it. -/
def loadB (mem : Memory) (a : BitVec 64) : BitVec 64 := (mem a).signExtend 64
def loadC (mem : Memory) (a : BitVec 64) : BitVec 64 := (mem.load16 a).setWidth 64
def loadS (mem : Memory) (a : BitVec 64) : BitVec 64 := (mem.load16 a).signExtend 64
def loadI (mem : Memory) (a : BitVec 64) : BitVec 64 := (mem.load32 a).signExtend 64

def getstaticLImplVoid : VoidHandler W := pushInt fun m => m.heap.mem.load64 m.insn.ic
def getstaticFImplVoid : VoidHandler W := pushFloat fun m => m.heap.mem.load32 m.insn.ic
def getstaticDImplVoid : VoidHandler W := pushDouble fun m => m.heap.mem.load64 m.insn.ic
def getstaticJImplVoid : VoidHandler W := pushInt fun m => m.heap.mem.load64 m.insn.ic
def getstaticIImplVoid : VoidHandler W := pushInt fun m => loadI m.heap.mem m.insn.ic
def getstaticSImplVoid : VoidHandler W := pushInt fun m => loadS m.heap.mem m.insn.ic
def getstaticCImplVoid : VoidHandler W := pushInt fun m => loadC m.heap.mem m.insn.ic
def getstaticBImplVoid : VoidHandler W := pushInt fun m => loadB m.heap.mem m.insn.ic
def getstaticZImplVoid : VoidHandler W := pushInt fun m => loadB m.heap.mem m.insn.ic

/-- Stores the register, cast to the type of the field or of the elements. -/
def storeB (mem : Memory) (a tos : BitVec 64) : Memory := mem.store8 a (tos.setWidth 8)
def storeC (mem : Memory) (a tos : BitVec 64) : Memory := mem.store16 a (tos.setWidth 16)
def storeI (mem : Memory) (a tos : BitVec 64) : Memory := mem.store32 a (low tos)

def putstaticInt (store : Memory → BitVec 64 → BitVec 64 → Memory) : IntHandler W :=
  popInt fun m tos => m.setMem (store m.heap.mem m.insn.ic tos)

def putstaticBImplInt : IntHandler W := putstaticInt storeB
def putstaticCImplInt : IntHandler W := putstaticInt storeC
def putstaticSImplInt : IntHandler W := putstaticInt storeC
def putstaticIImplInt : IntHandler W := putstaticInt storeI
def putstaticJImplInt : IntHandler W := putstaticInt Memory.store64
def putstaticFImplFloat : FloatHandler W :=
  popFloat fun m tos => m.setMem (m.heap.mem.store32 m.insn.ic tos)
def putstaticDImplDouble : DoubleHandler W :=
  popDouble fun m tos => m.setMem (m.heap.mem.store64 m.insn.ic tos)
def putstaticLImplInt : IntHandler W := putstaticInt Memory.store64
def putstaticZImplInt : IntHandler W := putstaticInt storeB

def getfieldImplInt : IntHandler W := fun m tos =>
  tryResolve vm (m.spillInt tos) fun m => jmpInt m (m.stack (m.sp - 1))

def putfieldImplVoid : VoidHandler W := fun m => tryResolve vm m.spillVoid stackPolymorphicJmp

def getfieldInt (load : Memory → BitVec 64 → BitVec 64) : IntHandler W := fun m tos =>
  npeOnNull vm tos m (nextInt m (load m.heap.mem (tos + m.insn.ic2)))

def getfieldBImplInt : IntHandler W := getfieldInt vm loadB
def getfieldCImplInt : IntHandler W := getfieldInt vm loadC
def getfieldSImplInt : IntHandler W := getfieldInt vm loadS
def getfieldIImplInt : IntHandler W := getfieldInt vm loadI
def getfieldJImplInt : IntHandler W := getfieldInt vm Memory.load64
def getfieldFImplInt : IntHandler W := fun m tos =>
  npeOnNull vm tos m (nextFloat m (m.heap.mem.load32 (tos + m.insn.ic2)))
def getfieldDImplInt : IntHandler W := fun m tos =>
  npeOnNull vm tos m (nextDouble m (m.heap.mem.load64 (tos + m.insn.ic2)))
def getfieldLImplInt : IntHandler W := getfieldInt vm Memory.load64
def getfieldZImplInt : IntHandler W := getfieldInt vm loadB

/-- The store of a `putfield`, of the kind given. -/
def putfieldOp (m : Machine W) (store : Memory → BitVec 64 → Memory) : Next W :=
  let obj := m.stack (m.sp - 2)
  npeOnNull vm obj m
    (stackPolymorphicNext { m.setMem (store m.heap.mem (obj + m.insn.ic2)) with sp := m.sp - 2 })

def putfieldBImplInt : IntHandler W := fun m tos => putfieldOp vm m (storeB · · tos)
def putfieldCImplInt : IntHandler W := fun m tos => putfieldOp vm m (storeC · · tos)
def putfieldSImplInt : IntHandler W := fun m tos => putfieldOp vm m (storeC · · tos)
def putfieldIImplInt : IntHandler W := fun m tos => putfieldOp vm m (storeI · · tos)
def putfieldJImplInt : IntHandler W := fun m tos => putfieldOp vm m (Memory.store64 · · tos)
def putfieldLImplInt : IntHandler W := fun m tos => putfieldOp vm m (Memory.store64 · · tos)
def putfieldZImplInt : IntHandler W := fun m tos => putfieldOp vm m (storeB · · tos)
def putfieldFImplFloat : FloatHandler W := fun m tos => putfieldOp vm m (Memory.store32 · · tos)
def putfieldDImplDouble : DoubleHandler W := fun m tos => putfieldOp vm m (Memory.store64 · · tos)

/-! ### Arithmetic -/

def iaddImplInt : IntHandler W := integerBinOp iadd
def laddImplInt : IntHandler W := integerBinOp ladd
def isubImplInt : IntHandler W := integerBinOp isub
def lsubImplInt : IntHandler W := integerBinOp lsub
def imulImplInt : IntHandler W := integerBinOp imul
def lmulImplInt : IntHandler W := integerBinOp lmul
def iandImplInt : IntHandler W := integerBinOp iand
def landImplInt : IntHandler W := integerBinOp land
def iorImplInt : IntHandler W := integerBinOp ior
def lorImplInt : IntHandler W := integerBinOp lor
def ixorImplInt : IntHandler W := integerBinOp ixor
def lxorImplInt : IntHandler W := integerBinOp lxor
def ishlImplInt : IntHandler W := integerBinOp ishl
def lshlImplInt : IntHandler W := integerBinOp lshl
def ishrImplInt : IntHandler W := integerBinOp ishr
def lshrImplInt : IntHandler W := integerBinOp lshr
def iushrImplInt : IntHandler W := integerBinOp iushr
def lushrImplInt : IntHandler W := integerBinOp lushr

def inegImplInt : IntHandler W := integerUnOp ineg
def lnegImplInt : IntHandler W := integerUnOp lneg
def i2lImplInt : IntHandler W := integerUnOp i2l
def i2sImplInt : IntHandler W := integerUnOp i2s
def i2bImplInt : IntHandler W := integerUnOp i2b
def i2cImplInt : IntHandler W := integerUnOp i2c
def i2fImplInt : IntHandler W := integerToFloat vm.ops.s64ToFloat
def i2dImplInt : IntHandler W := integerToDouble vm.ops.s64ToDouble
def l2iImplInt : IntHandler W := integerUnOp l2i
def l2fImplInt : IntHandler W := integerToFloat vm.ops.s64ToFloat
def l2dImplInt : IntHandler W := integerToDouble vm.ops.s64ToDouble

def faddImplFloat : FloatHandler W := floatBinOp vm.ops.fadd
def daddImplDouble : DoubleHandler W := doubleBinOp vm.ops.dadd
def fsubImplFloat : FloatHandler W := floatBinOp vm.ops.fsub
def dsubImplDouble : DoubleHandler W := doubleBinOp vm.ops.dsub
def fmulImplFloat : FloatHandler W := floatBinOp vm.ops.fmul
def dmulImplDouble : DoubleHandler W := doubleBinOp vm.ops.dmul
def fdivImplFloat : FloatHandler W := floatBinOp vm.ops.fdiv
def ddivImplDouble : DoubleHandler W := doubleBinOp vm.ops.ddiv
def fcmpgImplFloat : FloatHandler W := floatCmpOp cmpg
def dcmpgImplDouble : DoubleHandler W := doubleCmpOp cmpg
def fcmplImplFloat : FloatHandler W := floatCmpOp cmpl
def dcmplImplDouble : DoubleHandler W := doubleCmpOp cmpl

def fnegImplFloat : FloatHandler W := floatUnOp vm.ops.fneg
def f2iImplFloat : FloatHandler W :=
  floatToInteger fun a => (doubleToInt (floatValue a)).signExtend 64
def f2lImplFloat : FloatHandler W := floatToInteger fun a => doubleToLong (floatValue a)
def f2dImplFloat : FloatHandler W := floatToDoubleOp vm.ops.floatToDouble
def dnegImplDouble : DoubleHandler W := doubleUnOp vm.ops.dneg
def d2iImplDouble : DoubleHandler W :=
  doubleToInteger fun a => (doubleToInt (doubleValue a)).signExtend 64
def d2lImplDouble : DoubleHandler W := doubleToInteger fun a => doubleToLong (doubleValue a)
def d2fImplDouble : DoubleHandler W := doubleToFloatOp vm.ops.doubleToFloat

/-- `idiv` and `irem`. -/
def intDivision (eval : BitVec 32 → BitVec 32 → BitVec 32) : IntHandler W := fun m tos =>
  let a := low (m.stack (m.sp - 2))
  let b := low tos
  if b = 0 then throwExn vm .divisionByZero (m.spillInt tos)
  else nextInt { m with sp := m.sp - 1 } ((eval a b).signExtend 64)

/-- `ldiv` and `lrem`. -/
def longDivision (eval : BitVec 64 → BitVec 64 → BitVec 64) : IntHandler W := fun m tos =>
  let a := m.stack (m.sp - 2)
  if tos = 0 then throwExn vm .divisionByZero (m.spillInt tos)
  else nextInt { m with sp := m.sp - 1 } (eval a tos)

def idivImplInt : IntHandler W := intDivision vm javaDiv
def ldivImplInt : IntHandler W := longDivision vm javaDiv
def lcmpImplInt : IntHandler W := integerBinOp lcmp
def iremImplInt : IntHandler W := intDivision vm javaRem
def lremImplInt : IntHandler W := longDivision vm javaRem

def sinImplDouble : DoubleHandler W := doubleUnOp (vm.ops.math .sin)
def sinImplFloat : FloatHandler W :=
  floatToDoubleOp fun a => vm.ops.floatToDouble (vm.ops.mathf .sin a)
def cosImplDouble : DoubleHandler W := doubleUnOp (vm.ops.math .cos)
def cosImplFloat : FloatHandler W :=
  floatToDoubleOp fun a => vm.ops.floatToDouble (vm.ops.mathf .cos a)
def tanImplDouble : DoubleHandler W := doubleUnOp (vm.ops.math .tan)
def tanImplFloat : FloatHandler W :=
  floatToDoubleOp fun a => vm.ops.floatToDouble (vm.ops.mathf .tan a)
def sqrtImplDouble : DoubleHandler W := doubleUnOp (vm.ops.math .sqrt)
def sqrtImplFloat : FloatHandler W := floatUnOp (vm.ops.mathf .sqrt)
def powImplDouble : DoubleHandler W := doubleBinOp vm.ops.pow
def powImplFloat : FloatHandler W := fun m tos =>
  nextDouble { m with sp := m.sp - 1 }
    (vm.ops.floatToDouble (vm.ops.powf (low (m.stack (m.sp - 2))) tos))
def fremImplFloat : FloatHandler W := floatBinOp vm.ops.fmodf
def dremImplDouble : DoubleHandler W := doubleBinOp vm.ops.fmod

/-! ### Arrays -/

def arraylengthImplInt : IntHandler W := fun m tos =>
  npeOnNull vm tos m (nextInt m ((m.heap.mem.arrayLength tos).signExtend 64))

/-- The checks of an access to an element: the array is there and the index is in range.  Behind
them is what the access does. -/
def checkElement (m : Machine W) (array : BitVec 64) (index : BitVec 32) (spill : Machine W)
    (access : Next W) : Next W :=
  npeOnNull vm array m
    (let length := m.heap.mem.arrayLength array
     if index.slt 0 ∨ length.sle index then
       throwExn vm (.arrayIndexOutOfBounds index length) spill.spillVoid
     else access)

/-- `ARRAY_LOAD`, of elements of `size` bytes. -/
def arrayLoad (size : Nat) (next : Machine W → BitVec 64 → Next W) : IntHandler W := fun m tos =>
  let array := m.stack (m.sp - 2)
  checkElement vm m array (low tos) m
    (next { m with sp := m.sp - 1 } (Memory.element array (low tos) size))

def arrayLoadInt (size : Nat) (load : Memory → BitVec 64 → BitVec 64) : IntHandler W :=
  arrayLoad vm size fun m a => nextInt m (load m.heap.mem a)

def ialoadImplInt : IntHandler W := arrayLoadInt vm 4 loadI
def laloadImplInt : IntHandler W := arrayLoadInt vm 8 Memory.load64
def faloadImplInt : IntHandler W := arrayLoad vm 4 fun m a => nextFloat m (m.heap.mem.load32 a)
def daloadImplInt : IntHandler W := arrayLoad vm 8 fun m a => nextDouble m (m.heap.mem.load64 a)
def aaloadImplInt : IntHandler W := arrayLoadInt vm 8 Memory.load64
def baloadImplInt : IntHandler W := arrayLoadInt vm 1 loadB
def saloadImplInt : IntHandler W := arrayLoadInt vm 2 loadS
def caloadImplInt : IntHandler W := arrayLoadInt vm 2 loadC

/-- `ARRAY_STORE`. -/
def arrayStore (m : Machine W) (size : Nat) (store : Memory → BitVec 64 → Memory) : Next W :=
  let array := m.stack (m.sp - 3)
  let index := low (m.stack (m.sp - 2))
  checkElement vm m array index m
    (stackPolymorphicNext
      { m.setMem (store m.heap.mem (Memory.element array index size)) with sp := m.sp - 3 })

def iastoreImplInt : IntHandler W := fun m tos => arrayStore vm m 4 (storeI · · tos)
def lastoreImplInt : IntHandler W := fun m tos => arrayStore vm m 8 (Memory.store64 · · tos)
def fastoreImplFloat : FloatHandler W := fun m tos => arrayStore vm m 4 (Memory.store32 · · tos)
def dastoreImplDouble : DoubleHandler W := fun m tos => arrayStore vm m 8 (Memory.store64 · · tos)
def bastoreImplInt : IntHandler W := fun m tos => arrayStore vm m 1 (storeB · · tos)
def sastoreImplInt : IntHandler W := fun m tos => arrayStore vm m 2 (storeC · · tos)
def castoreImplInt : IntHandler W := fun m tos => arrayStore vm m 2 (storeC · · tos)

def aastoreImplInt : IntHandler W := fun m tos =>
  let array := m.stack (m.sp - 3)
  let index := low (m.stack (m.sp - 2))
  checkElement vm m array index (m.setTop tos)
    (if tos ≠ 0 ∧ vm.instanceof m.heap (vm.descriptor m.heap tos)
        (vm.oneFewerDim m.heap (vm.descriptor m.heap array)) = false then
      throwExn vm (.arrayStore tos) (m.spillInt tos)
    else
      stackPolymorphicNext
        { m.setMem (m.heap.mem.store64 (Memory.element array index 8) tos) with sp := m.sp - 3 })

/-! ### Control flow -/

def returnImplVoid : VoidHandler W := fun m => .done m.spillVoid 0
def areturnImplInt : IntHandler W := fun m tos => .done (m.spillInt tos) tos
def ireturnImplInt : IntHandler W := fun m tos => .done (m.spillInt tos) ((low tos).signExtend 64)
def lreturnImplInt : IntHandler W := fun m tos => .done (m.spillInt tos) tos
def freturnImplFloat : FloatHandler W :=
  fun m tos => .done (m.setTop (.ofFloat tos)).spillVoid (tos.setWidth 64)
def dreturnImplDouble : DoubleHandler W := fun m tos => .done (m.spillInt tos) tos

def gotoImplVoid : VoidHandler W :=
  fun m => takeFuel m id fun m => jmpVoid (m.jumpBy m.insn.delta)
def gotoImplDouble : DoubleHandler W :=
  fun m tos => takeFuel m (·.setTop tos) fun m => jmpDouble (m.jumpBy m.insn.delta) tos
def gotoImplFloat : FloatHandler W :=
  fun m tos => takeFuel m (·.setTop (.ofFloat tos)) fun m => jmpFloat (m.jumpBy m.insn.delta) tos
def gotoImplInt : IntHandler W :=
  fun m tos => takeFuel m (·.setTop tos) fun m => jmpInt (m.jumpBy m.insn.delta) tos

/-- The entry of a table that a key selects. -/
def lookupTarget (key : Int) : List Int → List Nat → Option Nat
  | k :: keys, target :: targets => if k = key then some target else lookupTarget key keys targets
  | _, _ => none

def tableswitchImplInt : IntHandler W := fun m tos =>
  let index := (low tos).toInt
  let target :=
    if index < m.insn.low ∨ m.insn.high < index then m.insn.tableswitch.defaultTarget
    else m.insn.tableswitch.targets.getD (index - m.insn.low).toNat 0
  stackPolymorphicJmp { m.advanceNext ((target : Int) - 1 - m.pc) with sp := m.sp - 1 }

def lookupswitchImplInt : IntHandler W := fun m tos =>
  let target := (lookupTarget (low tos).toInt m.insn.keys m.insn.lookupswitch.targets).getD
    m.insn.lookupswitch.defaultTarget
  stackPolymorphicJmp { m.advanceNext ((target : Int) - 1 - m.pc) with sp := m.sp - 1 }

/-- The branches that compare the register, and take `pops` values off the stack. -/
def branchIf (cond : Machine W → BitVec 64 → Bool) (pops : Nat) : IntHandler W := fun m tos =>
  takeFuel m (·.setTop tos) fun m =>
    let offset := if cond m tos then m.insn.delta else sizeofBytecodeInsn
    stackPolymorphicJmp { m.jumpBy offset with sp := m.sp - pops }

/-- `MAKE_INT_BRANCH_AGAINST_0`. -/
def intBranchAgainst0 (op : BitVec 32 → Bool) : IntHandler W :=
  branchIf (fun _ tos => op (low tos)) 1

/-- `MAKE_INT_BRANCH`. -/
def intBranch (op : BitVec 32 → BitVec 32 → Bool) : IntHandler W :=
  branchIf (fun m tos => op (low (m.stack (m.sp - 2))) (low tos)) 2

def ifeqImplInt : IntHandler W := intBranchAgainst0 (· == 0)
def ifneImplInt : IntHandler W := intBranchAgainst0 (· != 0)
def ifltImplInt : IntHandler W := intBranchAgainst0 (·.slt 0)
def ifgeImplInt : IntHandler W := intBranchAgainst0 fun x => (0#32).sle x
def ifgtImplInt : IntHandler W := intBranchAgainst0 fun x => (0#32).slt x
def ifleImplInt : IntHandler W := intBranchAgainst0 (·.sle 0)
def ifnullImplInt : IntHandler W := intBranchAgainst0 (· == 0)
def ifnonnullImplInt : IntHandler W := intBranchAgainst0 (· != 0)
def ifIcmpeqImplInt : IntHandler W := intBranch (· == ·)
def ifIcmpneImplInt : IntHandler W := intBranch (· != ·)
def ifIcmpltImplInt : IntHandler W := intBranch fun a b => a.slt b
def ifIcmpgeImplInt : IntHandler W := intBranch fun a b => b.sle a
def ifIcmpgtImplInt : IntHandler W := intBranch fun a b => b.slt a
def ifIcmpleImplInt : IntHandler W := intBranch fun a b => a.sle b
def ifAcmpeqImplInt : IntHandler W := branchIf (fun m tos => m.stack (m.sp - 2) == tos) 2
def ifAcmpneImplInt : IntHandler W := branchIf (fun m tos => m.stack (m.sp - 2) != tos) 2

/-! ### Monitors -/

def monitorenterImplInt : IntHandler W := fun m tos =>
  npeOnNull vm tos m (perform vm (.monitorAcquire tos) (m.spillInt tos) fun m _ =>
    stackPolymorphicNext { m with sp := m.sp - 1 })

def monitorexitImplInt : IntHandler W := fun m tos =>
  npeOnNull vm tos m (perform vm (.monitorRelease tos) m fun m result =>
    if result ≠ 0 then throwExn vm .illegalMonitorState m.spillVoid
    else stackPolymorphicNext { m with sp := m.sp - 1 })

/-! ### Objects -/

def newImplVoid : VoidHandler W := fun m =>
  perform vm (.resolveClass m.pc) m.spillVoid fun m _ => tryResolve vm m jmpVoid

def newResolvedImplVoid : VoidHandler W := fun m =>
  perform vm (.newObject m.insn.classdesc) m.spillVoid fun m obj =>
    nextInt { m with sp := m.sp + 1 } obj

def newarrayImplInt : IntHandler W := fun m tos =>
  let count := low tos
  let m := m.spillInt tos
  if count.slt 0 then throwExn vm (.negativeArraySize count) m
  else perform vm (.newPrimitiveArray m.insn.arrayType count) m nextInt

def anewarrayImplInt : IntHandler W := fun m tos =>
  perform vm (.resolveClass m.pc) m.spillVoid fun m classdesc =>
    jmpInt (m.rewrite fun insn => { insn with classdesc, code := .resolved .anewarray }) tos

def anewarrayResolvedImplInt : IntHandler W := fun m tos =>
  let count := low tos
  let m := m.spillVoid
  if count.slt 0 then throwExn vm (.negativeArraySize count) m
  else perform vm (.newObjectArray m.insn.classdesc count) m nextInt

def multianewarrayImplInt : IntHandler W := fun m tos =>
  let m := m.spillInt tos
  let dims := m.insn.dimensions
  let sizes := (List.range dims).map fun i => low (m.stack (m.sp - dims + i))
  perform vm (.multianewarray m.pc sizes) m fun m obj =>
    nextInt { m.write (m.sp - dims) obj with sp := m.sp - (dims - 1) } obj

/-! ### Invocations -/

/-- The arguments and the receiver: `argc` slots. -/
def Machine.receiver (m : Machine W) (argc : Nat) : StackValue := m.stack (m.sp - argc)

/-- `mark_insn_returns`. -/
def markInsnReturns (insn : Insn) : Insn :=
  { insn with returns := insn.descriptor.returnType.baseKind ≠ .void }

/-- `intrinsify`. -/
def intrinsify (m : Machine W) : Option (Machine W) :=
  (vm.methodInfo m.heap m.insn.ic).intrinsic.map fun code =>
    m.rewrite fun insn => { insn with code := .resolved code }

def invokestaticImplVoid : VoidHandler W := fun m =>
  tryResolve vm m.spillVoid fun m =>
    match intrinsify vm m with
    | some m => stackPolymorphicJmp m
    | none => jmpVoid m

def invokestaticResolvedImplVoid : VoidHandler W := fun m => .invoke m.spillVoid m.insn.argc

/-- The common part of `invokevirtual`, `invokespecial` and `invokeinterface`: the receiver is there
and the method is resolved. -/
def resolveInvoke (m : Machine W)
    (k : Machine W → BitVec 64 → BitVec 64 → Next W) : Next W :=
  let argc := m.insn.descriptor.args.length + 1
  let m := (m.rewrite fun insn => { insn with argc }).spillVoid
  let receiver := m.receiver argc
  if receiver = 0 then throwExn vm .nullPointer m
  else perform vm (.resolveMethodref m.pc) m fun m method =>
    k (m.rewrite fun insn => { insn with resolved := method }) receiver method

def invokevirtualImplVoid : VoidHandler W := fun m =>
  resolveInvoke vm m fun m receiver method =>
    let m := m.rewrite markInsnReturns
    let info := vm.methodInfo m.heap method
    if info.isSignaturePolymorphic then
      perform vm (.resolveMethodType m.pc)
        (m.rewrite fun insn => { insn with code := .resolved .invokesigpoly, ic := method })
        fun m type => jmpVoid (m.rewrite fun insn => { insn with ic2 := type })
    else if info.isInterface then
      jmpVoid (m.rewrite fun insn => { insn with code := .parsed .invokeinterface })
    else if info.isFinal then
      jmpVoid (m.rewrite fun insn => { insn with code := .resolved .invokespecial, ic := method })
    else
      let descriptor := vm.descriptor m.heap receiver
      jmpVoid (m.rewrite fun insn =>
        { insn with
          code := .resolved .invokevtableMonomorphic
          ic := vm.vtableLookup m.heap descriptor (vm.vtableIndex m.heap method)
          ic2 := descriptor })

def invokespecialImplVoid : VoidHandler W := fun m =>
  resolveInvoke vm m fun m _ method =>
    perform vm (.selectSpecial m.pc method) m fun m candidate =>
      let code : InsnCodeKind :=
        if (vm.methodInfo m.heap candidate).isObjectInit then .parsed .pop
        else .resolved .invokespecial
      jmpVoid (m.rewrite fun insn => markInsnReturns { insn with code, ic := candidate })

def invokespecialResolvedImplVoid : VoidHandler W := fun m =>
  npeOnNull vm (m.receiver m.insn.argc) m (.invoke m.spillVoid m.insn.argc)

def invokeinterfaceImplVoid : VoidHandler W := fun m =>
  resolveInvoke vm m fun m receiver method =>
    let info := vm.methodInfo m.heap method
    if !info.isInterface then
      jmpVoid (m.rewrite fun insn => { insn with code := .parsed .invokevirtual })
    else
      let m := m.rewrite markInsnReturns
      let descriptor := vm.descriptor m.heap receiver
      let found := vm.itableLookup m.heap descriptor (vm.methodClass m.heap method)
        (vm.itableIndex m.heap method)
      if found = 0 then throwExn vm (.abstractMethod method) m
      else if info.isFinal then
        jmpVoid (m.rewrite fun insn => { insn with code := .resolved .invokespecial, ic := method })
      else
        jmpVoid (m.rewrite fun insn =>
          { insn with
            code := .resolved .invokeitableMonomorphic
            ic := found
            ic2 := descriptor })

def invokeitableVtableMonomorphicImplVoid : VoidHandler W := fun m =>
  let receiver := m.receiver m.insn.argc
  npeOnNull vm receiver m
    (let m := m.spillVoid
     if vm.descriptor m.heap receiver ≠ m.insn.ic2 then
       if m.insn.code = .resolved .invokevtableMonomorphic then
         jmpVoid (m.rewrite fun insn =>
           { insn with
             code := .resolved .invokevtablePolymorphic
             ic2 := vm.vtableIndex m.heap insn.ic })
       else
         jmpVoid (m.rewrite fun insn =>
           { insn with
             code := .resolved .invokeitablePolymorphic
             ic := vm.methodClass m.heap insn.resolved
             ic2 := vm.itableIndex m.heap insn.resolved })
     else .invoke m m.insn.argc)

def invokesigpolyImplVoid : VoidHandler W := fun m =>
  npeOnNull vm (m.receiver m.insn.argc) m (.invoke m.spillVoid m.insn.argc)

def invokeitablePolymorphicImplVoid : VoidHandler W := fun m =>
  let receiver := m.receiver m.insn.argc
  npeOnNull vm receiver m
    (if vm.itableLookup m.heap (vm.descriptor m.heap receiver) m.insn.ic m.insn.ic2 = 0 then
       throwExn vm (.abstractMethod m.insn.resolved) m.spillVoid
     else .invoke m.spillVoid m.insn.argc)

def invokevtablePolymorphicImplVoid : VoidHandler W := fun m =>
  npeOnNull vm (m.receiver m.insn.argc) m (.invoke m.spillVoid m.insn.argc)

def invokedynamicImplVoid : VoidHandler W := fun m =>
  perform vm (.resolveIndy m.pc) m.spillVoid fun m callSite =>
    jmpVoid (m.rewrite fun insn =>
      { insn with
        code := .resolved .invokecallsite
        ic := callSite
        argc := vm.arity m.heap callSite })

/-- The arguments move up by one slot, to make room for the method handle. -/
def invokecallsiteImplVoid : VoidHandler W := fun m => .invoke m.spillVoid (m.insn.argc - 1)

/-! ### Locals -/

/-- `get_local`, as an index of the locals. -/
def getLocal (insn : Insn) : Nat := ((fm.maxLocals : Int) - insn.delta).toNat

def Machine.getLocal (m : Machine W) : StackValue :=
  m.locals (BJvm.Interpreter.getLocal fm m.insn)

def iloadImplVoid : VoidHandler W := pushInt fun m => (low (m.getLocal fm)).signExtend 64
def floadImplVoid : VoidHandler W := pushFloat fun m => low (m.getLocal fm)
def dloadImplVoid : VoidHandler W := pushDouble fun m => m.getLocal fm
def lloadImplVoid : VoidHandler W := pushInt fun m => m.getLocal fm
def aloadImplVoid : VoidHandler W := pushInt fun m => m.getLocal fm

def astoreImplInt : IntHandler W := popInt fun m tos => m.setLocal (getLocal fm m.insn) tos
def istoreImplInt : IntHandler W :=
  popInt fun m tos => m.setLocal (getLocal fm m.insn) ((m.getLocal fm).setLow (low tos))
def fstoreImplFloat : FloatHandler W :=
  popFloat fun m tos => m.setLocal (getLocal fm m.insn) ((m.getLocal fm).setLow tos)
def dstoreImplDouble : DoubleHandler W :=
  popDouble fun m tos => m.setLocal (getLocal fm m.insn) tos
def lstoreImplInt : IntHandler W := popInt fun m tos => m.setLocal (getLocal fm m.insn) tos

/-- Adds the constant to the local. -/
def Machine.iinc (m : Machine W) : Machine W :=
  let a := m.locals m.insn.iincIndex
  m.setLocal m.insn.iincIndex (a.setLow (low a + BitVec.ofInt 32 m.insn.iincConst))

def iincImplVoid : VoidHandler W := fun m => nextVoid m.iinc
def iincImplDouble : DoubleHandler W := fun m tos => nextDouble m.iinc tos
def iincImplFloat : FloatHandler W := fun m tos => nextFloat m.iinc tos
def iincImplInt : IntHandler W := fun m tos => nextInt m.iinc tos

/-! ### Constants -/

def aconstNullImplVoid : VoidHandler W := pushInt fun _ => 0

def ldcImplVoid : VoidHandler W := fun m =>
  perform vm (.ldc m.pc) m.spillVoid fun m obj => nextInt { m with sp := m.sp + 1 } obj

def iconstImplVoid : VoidHandler W := pushInt fun m => BitVec.ofInt 64 m.insn.integerImm
def fconstImplVoid : VoidHandler W := pushFloat fun m => BitVec.ofNat 32 m.insn.fImm
def dconstImplVoid : VoidHandler W := pushDouble fun m => BitVec.ofNat 64 m.insn.dImm
def lconstImplVoid : VoidHandler W := pushInt fun m => BitVec.ofInt 64 m.insn.integerImm

/-! ### The stack -/

def popImplVoid : VoidHandler W := fun m => stackPolymorphicNext { m with sp := m.sp - 1 }
def pop2ImplVoid : VoidHandler W := fun m => stackPolymorphicNext { m with sp := m.sp - 2 }

def swapImplVoid : VoidHandler W := fun m =>
  let tmp := m.stack (m.sp - 1)
  stackPolymorphicNext ((m.write (m.sp - 1) (m.stack (m.sp - 2))).write (m.sp - 2) tmp)

def nopImplVoid : VoidHandler W := nextVoid
def nopImplDouble : DoubleHandler W := nextDouble
def nopImplFloat : FloatHandler W := nextFloat
def nopImplInt : IntHandler W := nextInt

def dupImplInt : IntHandler W :=
  fun m tos => nextInt { m.setTop tos with sp := m.sp + 1 } tos
def dupImplFloat : FloatHandler W :=
  fun m tos => nextFloat { m.setTop ((m.stack (m.sp - 1)).setLow tos) with sp := m.sp + 1 } tos
def dupImplDouble : DoubleHandler W :=
  fun m tos => nextDouble { m.setTop tos with sp := m.sp + 1 } tos

/-- The stack behind a `dup2`, with the register spilled as `top`. -/
def Machine.dup2 (m : Machine W) (top : StackValue) : Machine W :=
  { (m.setTop top).write m.sp (m.stack (m.sp - 2)) with sp := m.sp + 2 }

def dup2ImplInt : IntHandler W := fun m tos => nextInt (m.dup2 tos) tos

/-- The last line is `NEXT_INT(tos)`, which converts the float to an `s64`. -/
def dup2ImplFloat : FloatHandler W := fun m tos =>
  nextInt (m.dup2 ((m.stack (m.sp - 1)).setLow tos)) (castInt 64 (floatValue tos))

/-- The last line is `NEXT_INT(tos)`, which converts the double to an `s64`. -/
def dup2ImplDouble : DoubleHandler W := fun m tos =>
  nextInt (m.dup2 tos) (castInt 64 (doubleValue tos))

def dupX1ImplVoid : VoidHandler W := fun m =>
  let val1 := m.stack (m.sp - 1)
  let val2 := m.stack (m.sp - 2)
  let m := ((m.write (m.sp - 2) val1).write (m.sp - 1) val2).write m.sp val1
  stackPolymorphicNext { m with sp := m.sp + 1 }

def dupX2ImplVoid : VoidHandler W := fun m =>
  let val1 := m.stack (m.sp - 1)
  let val2 := m.stack (m.sp - 2)
  let val3 := m.stack (m.sp - 3)
  let m := (((m.write (m.sp - 3) val1).write (m.sp - 2) val3).write (m.sp - 1) val2).write m.sp val1
  stackPolymorphicNext { m with sp := m.sp + 1 }

def dup2X1ImplVoid : VoidHandler W := fun m =>
  let val1 := m.stack (m.sp - 1)
  let val2 := m.stack (m.sp - 2)
  let val3 := m.stack (m.sp - 3)
  let m := ((m.write (m.sp - 3) val2).write (m.sp - 2) val1).write (m.sp - 1) val3
  let m := (m.write m.sp val2).write (m.sp + 1) val1
  stackPolymorphicNext { m with sp := m.sp + 2 }

def dup2X2ImplVoid : VoidHandler W := fun m =>
  let val1 := m.stack (m.sp - 1)
  let val2 := m.stack (m.sp - 2)
  let val3 := m.stack (m.sp - 3)
  let val4 := m.stack (m.sp - 4)
  let m := ((m.write (m.sp - 4) val2).write (m.sp - 3) val1).write (m.sp - 2) val4
  let m := ((m.write (m.sp - 1) val3).write m.sp val2).write (m.sp + 1) val1
  stackPolymorphicNext { m with sp := m.sp + 2 }

/-! ### Miscellaneous -/

def athrowImplInt : IntHandler W := fun m tos =>
  let m := m.spillInt tos
  npeOnNull vm tos m (.exceptionThrown m tos)

/-- `checkcast` and `instanceof` before their class is resolved. -/
def resolveCheck (code : ResolvedCode) : IntHandler W := fun m tos =>
  perform vm (.resolveClass m.pc) (m.spillInt tos) fun m classdesc =>
    let tos := m.stack (m.sp - 1)
    jmpInt (m.rewrite fun insn => { insn with classdesc, code := .resolved code }) tos

def checkcastImplInt : IntHandler W := resolveCheck vm .checkcast

def checkcastResolvedImplInt : IntHandler W := fun m tos =>
  if tos ≠ 0 ∧ vm.instanceof m.heap (vm.descriptor m.heap tos) m.insn.classdesc = false then
    throwExn vm (.classCast tos m.insn.classdesc) (m.spillInt tos)
  else nextInt m tos

def instanceofImplInt : IntHandler W := resolveCheck vm .instanceof

def instanceofResolvedImplInt : IntHandler W := fun m tos =>
  let result := tos ≠ 0 ∧ vm.instanceof m.heap (vm.descriptor m.heap tos) m.insn.classdesc
  nextInt m (if result then 1 else 0)

end BJvm.Interpreter

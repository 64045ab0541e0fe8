import BJvm.Interpreter.JumpTables

/-!
# A plain interpreter

The instructions over a stack that is a list of values, all of them in memory: what the cached top
of the stack is to be compared with.  A value carries its kind, which no instruction but the check
of its operands looks at.
-/

namespace BJvm.Interpreter

open ClassFile StackValue Function

/-- The register that a kind of value is cached in. -/
def reduced : TypeKind → ReducedTosKind
  | .float => .float
  | .double => .double
  | _ => .int

/-- A value of a kind, as a slot holds it. -/
structure Value where
  kind : TypeKind
  word : StackValue
  deriving DecidableEq, Repr

structure Plain (W : Type) where
  heap : Heap W
  locals : Nat → StackValue
  pc : Nat
  /-- top first -/
  stack : List Value

namespace Plain

variable {W : Type}

def insn (s : Plain W) : Insn := s.heap.code s.pc

/-- Rewrites the current instruction. -/
def rewrite (s : Plain W) (f : Insn → Insn) : Plain W :=
  { s with heap := { s.heap with code := update s.heap.code s.pc (f s.insn) } }

def setMem (s : Plain W) (mem : Memory) : Plain W := { s with heap := { s.heap with mem } }

def setLocal (s : Plain W) (index : Nat) (v : StackValue) : Plain W :=
  { s with locals := update s.locals index v }

end Plain

/-- What an instruction does with its operands: pops them and pushes the value, does so and
branches, rewrites itself and is run again, or ends. -/
inductive Outcome (W : Type)
  | next (s : Plain W) (result : StackValue)
  | branch (s : Plain W) (target : Nat)
  | again (s : Plain W)
  | throw (s : Plain W) (e : StackValue)
  | ret (s : Plain W) (v : StackValue)
  | abort

/-- An instruction, on its operands with the top first. -/
abbrev PlainOp (W : Type) := Plain W → List StackValue → Outcome W

section

variable {W : Type}

def operand (ops : List StackValue) (i : Nat) : StackValue := ops.getD i 0

/-! ### Shapes -/

def nullary (f : Plain W → StackValue) : PlainOp W := fun s _ => .next s (f s)
def unary (f : StackValue → StackValue) : PlainOp W := fun s ops => .next s (f (operand ops 0))

def binary (f : StackValue → StackValue → StackValue) : PlainOp W :=
  fun s ops => .next s (f (operand ops 1) (operand ops 0))

/-- Operations on floats take and leave the low half of a slot. -/
def onFloats (f : BitVec 32 → BitVec 32 → BitVec 32) (a b : StackValue) : StackValue :=
  .ofFloat (f a.low b.low)

/-- An instruction that pushes nothing. -/
def silent (f : Plain W → List StackValue → Plain W) : PlainOp W := fun s ops => .next (f s ops) 0

/-- Branches when the condition holds. -/
def branchWhen (cond : List StackValue → Bool) : PlainOp W := fun s ops =>
  if cond ops then .branch s s.insn.index else .next s 0

variable (vm : Vm W)

def raise (e : Exn) (s : Plain W) : Outcome W :=
  let (heap, ex) := vm.raise e s.heap
  .throw { s with heap } ex

def ask (r : Request) (s : Plain W) (k : Plain W → StackValue → Outcome W) : Outcome W :=
  match vm.request r s.heap with
  | (heap, .ok v) => k { s with heap } v
  | (heap, .error e) => .throw { s with heap } e

/-- The reference must not be null. -/
def nonNull (obj : StackValue) (s : Plain W) (k : Outcome W) : Outcome W :=
  if obj = 0 then raise vm .nullPointer s else k

def intDivide (eval : BitVec 32 → BitVec 32 → BitVec 32) : PlainOp W := fun s ops =>
  let b := (operand ops 0).low
  if b = 0 then raise vm .divisionByZero s
  else .next s ((eval (operand ops 1).low b).signExtend 64)

def longDivide (eval : BitVec 64 → BitVec 64 → BitVec 64) : PlainOp W := fun s ops =>
  let b := operand ops 0
  if b = 0 then raise vm .divisionByZero s else .next s (eval (operand ops 1) b)

def getField (load : Memory → BitVec 64 → StackValue) : PlainOp W := fun s ops =>
  let obj := operand ops 0
  nonNull vm obj s (.next s (load s.heap.mem (obj + s.insn.ic2)))

def putField (store : Memory → BitVec 64 → StackValue → Memory) : PlainOp W := fun s ops =>
  let obj := operand ops 1
  nonNull vm obj s (.next (s.setMem (store s.heap.mem (obj + s.insn.ic2) (operand ops 0))) 0)

/-- An access to an element of an array that is there, at an index in range. -/
def accessElement (array index : StackValue) (s : Plain W) (k : Outcome W) : Outcome W :=
  nonNull vm array s
    (let length := s.heap.mem.arrayLength array
     if index.low.slt 0 ∨ length.sle index.low then
       raise vm (.arrayIndexOutOfBounds index.low length) s
     else k)

def loadElement (size : Nat) (load : Memory → BitVec 64 → StackValue) : PlainOp W := fun s ops =>
  accessElement vm (operand ops 1) (operand ops 0) s
    (.next s (load s.heap.mem (Memory.element (operand ops 1) (operand ops 0).low size)))

def storeElement (size : Nat) (store : Memory → BitVec 64 → StackValue → Memory) : PlainOp W :=
  fun s ops =>
    let address := Memory.element (operand ops 2) (operand ops 1).low size
    accessElement vm (operand ops 2) (operand ops 1) s
      (.next (s.setMem (store s.heap.mem address (operand ops 0))) 0)

def storeReference : PlainOp W := fun s ops =>
  let array := operand ops 2
  let value := operand ops 0
  let address := Memory.element array (operand ops 1).low 8
  accessElement vm array (operand ops 1) s
    (if value ≠ 0 ∧ vm.instanceof s.heap (vm.descriptor s.heap value)
        (vm.oneFewerDim s.heap (vm.descriptor s.heap array)) = false then
      raise vm (.arrayStore value) s
    else .next (s.setMem (s.heap.mem.store64 address value)) 0)

/-- Allocates an array of as many elements as the operand says. -/
def newArray (r : Plain W → BitVec 32 → Request) : PlainOp W := fun s ops =>
  let count := (operand ops 0).low
  if count.slt 0 then raise vm (.negativeArraySize count) s
  else ask vm (r s count) s .next

/-- Calls the method on the operands, the receiver among them. -/
def invoke : PlainOp W := fun s ops =>
  let args := List.zipWith canonical (argKinds s.insn) ops.reverse
  let result := frameResult s.insn.descriptor.returnType.reprKind (vm.isNative s.heap s.pc args)
  ask vm (.call s.pc args) s fun s v => .next s (result v)

/-- Calls the method if the receiver, the operand below the arguments, is there. -/
def invokeOn (k : PlainOp W) : PlainOp W := fun s ops =>
  nonNull vm (operand ops (ops.length - 1)) s (k s ops)

/-! ### Resolution -/

def resolveField (putfield : Bool) (i : Nat) : PlainOp W := fun s ops =>
  nonNull vm (operand ops i) s
    (ask vm (.resolveField s.pc) s fun s offset =>
      .again (s.rewrite fun insn =>
        let kind := resolvedKind insn.field.reprKind
        { insn with
          code := .resolved (if putfield then .putfield kind else .getfield kind)
          ic2 := offset }))

def resolveStatic : PlainOp W := fun s _ =>
  ask vm (.resolveStatic s.pc) s fun s address =>
    let putstatic := s.insn.code = .parsed .putstatic
    .again (s.rewrite fun insn =>
      let kind := resolvedKind insn.field.reprKind
      { insn with
        code := .resolved (if putstatic then .putstatic kind else .getstatic kind)
        ic := address })

def resolveNew : PlainOp W := fun s _ =>
  ask vm (.resolveClass s.pc) s fun s _ =>
    ask vm (.initializeNew s.pc) s fun s classdesc =>
      .again (s.rewrite fun insn => { insn with code := .resolved .new, classdesc })

/-- `anewarray`, `checkcast` and `instanceof`. -/
def resolveClassTo (code : ResolvedCode) : PlainOp W := fun s _ =>
  ask vm (.resolveClass s.pc) s fun s classdesc =>
    .again (s.rewrite fun insn => { insn with classdesc, code := .resolved code })

def resolveInvokestatic : PlainOp W := fun s _ =>
  ask vm (.resolveMethodref s.pc) s fun s method =>
    let s := s.rewrite fun insn =>
      { insn with
        code := .resolved .invokestatic
        resolved := method
        ic := method
        argc := insn.descriptor.args.length
        returns := insn.descriptor.returnType.baseKind ≠ .void }
    match (vm.methodInfo s.heap s.insn.ic).intrinsic with
    | some code => .again (s.rewrite fun insn => { insn with code := .resolved code })
    | none => .again s

def resolveReceiver (k : Plain W → StackValue → StackValue → Outcome W) : PlainOp W := fun s ops =>
  let s := s.rewrite fun insn => { insn with argc := insn.descriptor.args.length + 1 }
  let receiver := operand ops (ops.length - 1)
  nonNull vm receiver s
    (ask vm (.resolveMethodref s.pc) s fun s method =>
      k (s.rewrite fun insn => { insn with resolved := method }) receiver method)

def resolveInvokevirtual : PlainOp W := resolveReceiver vm fun s receiver method =>
  let s := s.rewrite markInsnReturns
  let info := vm.methodInfo s.heap method
  if info.isSignaturePolymorphic then
    ask vm (.resolveMethodType s.pc)
      (s.rewrite fun insn => { insn with code := .resolved .invokesigpoly, ic := method })
      fun s type => .again (s.rewrite fun insn => { insn with ic2 := type })
  else if info.isInterface then
    .again (s.rewrite fun insn => { insn with code := .parsed .invokeinterface })
  else if info.isFinal then
    .again (s.rewrite fun insn => { insn with code := .resolved .invokespecial, ic := method })
  else
    let descriptor := vm.descriptor s.heap receiver
    .again (s.rewrite fun insn =>
      { insn with
        code := .resolved .invokevtableMonomorphic
        ic := vm.vtableLookup s.heap descriptor (vm.vtableIndex s.heap method)
        ic2 := descriptor })

def resolveInvokespecial : PlainOp W := resolveReceiver vm fun s _ method =>
  ask vm (.selectSpecial s.pc method) s fun s candidate =>
    let code : InsnCodeKind :=
      if (vm.methodInfo s.heap candidate).isObjectInit then .parsed .pop
      else .resolved .invokespecial
    .again (s.rewrite fun insn => markInsnReturns { insn with code, ic := candidate })

def resolveInvokeinterface : PlainOp W := resolveReceiver vm fun s receiver method =>
  let info := vm.methodInfo s.heap method
  if !info.isInterface then
    .again (s.rewrite fun insn => { insn with code := .parsed .invokevirtual })
  else
    let s := s.rewrite markInsnReturns
    let descriptor := vm.descriptor s.heap receiver
    let found := vm.itableLookup s.heap descriptor (vm.methodClass s.heap method)
      (vm.itableIndex s.heap method)
    if found = 0 then raise vm (.abstractMethod method) s
    else if info.isFinal then
      .again (s.rewrite fun insn => { insn with code := .resolved .invokespecial, ic := method })
    else
      .again (s.rewrite fun insn =>
        { insn with
          code := .resolved .invokeitableMonomorphic
          ic := found
          ic2 := descriptor })

def invokeMonomorphic : PlainOp W := invokeOn vm fun s ops =>
  if vm.descriptor s.heap (operand ops (ops.length - 1)) ≠ s.insn.ic2 then
    if s.insn.code = .resolved .invokevtableMonomorphic then
      .again (s.rewrite fun insn =>
        { insn with
          code := .resolved .invokevtablePolymorphic
          ic2 := vm.vtableIndex s.heap insn.ic })
    else
      .again (s.rewrite fun insn =>
        { insn with
          code := .resolved .invokeitablePolymorphic
          ic := vm.methodClass s.heap insn.resolved
          ic2 := vm.itableIndex s.heap insn.resolved })
  else invoke vm s ops

def invokeitablePolymorphic : PlainOp W := invokeOn vm fun s ops =>
  if vm.itableLookup s.heap (vm.descriptor s.heap (operand ops (ops.length - 1))) s.insn.ic
      s.insn.ic2 = 0 then
    raise vm (.abstractMethod s.insn.resolved) s
  else invoke vm s ops

def resolveInvokedynamic : PlainOp W := fun s _ =>
  ask vm (.resolveIndy s.pc) s fun s callSite =>
    .again (s.rewrite fun insn =>
      { insn with
        code := .resolved .invokecallsite
        ic := callSite
        argc := vm.arity s.heap callSite })

/-! ### Instructions -/

/-- The fields of a kind. -/
def fieldLoad : FieldKind → Memory → BitVec 64 → StackValue
  | .b | .z => loadB
  | .c => loadC
  | .s => loadS
  | .i => loadI
  | .f => fun mem a => .ofFloat (mem.load32 a)
  | .j | .d | .l => Memory.load64

def fieldStore : FieldKind → Memory → BitVec 64 → StackValue → Memory
  | .b | .z => storeB
  | .c | .s => storeC
  | .i => storeI
  | .f => fun mem a v => mem.store32 a v.low
  | .j | .d | .l => Memory.store64

def tableswitch : PlainOp W := fun s ops =>
  let index := (operand ops 0).low.toInt
  .branch s
    (if index < s.insn.low ∨ s.insn.high < index then s.insn.tableswitch.defaultTarget
     else s.insn.tableswitch.targets.getD (index - s.insn.low).toNat 0)

def lookupswitch : PlainOp W := fun s ops =>
  .branch s ((lookupTarget (operand ops 0).low.toInt s.insn.keys s.insn.lookupswitch.targets).getD
    s.insn.lookupswitch.defaultTarget)

/-- The value of a local, and its store, as the load and store instructions have them. -/
def loadLocal (f : StackValue → StackValue) : PlainOp W :=
  nullary fun s => f (s.locals s.insn.index)

def storeLocal (f : StackValue → StackValue → StackValue) : PlainOp W := silent fun s ops =>
  s.setLocal s.insn.index (f (s.locals s.insn.index) (operand ops 0))

/-- The instructions that the parser leaves, but for those that rearrange the stack. -/
def evalParsed : InsnCode → PlainOp W
  | .nop => silent fun s _ => s
  | .aaload => loadElement vm 8 Memory.load64
  | .aastore => storeReference vm
  | .aconstNull => nullary fun _ => 0
  | .areturn | .lreturn | .dreturn => fun s ops => .ret s (operand ops 0)
  | .ireturn => fun s ops => .ret s (.ofInt (operand ops 0).low)
  | .freturn => fun s ops => .ret s (.ofFloat (operand ops 0).low)
  | .return_ => fun s _ => .ret s 0
  | .arraylength => fun s ops =>
    nonNull vm (operand ops 0) s (.next s (.ofInt (s.heap.mem.arrayLength (operand ops 0))))
  | .athrow => fun s ops => nonNull vm (operand ops 0) s (.throw s (operand ops 0))
  | .baload => loadElement vm 1 loadB
  | .bastore => storeElement vm 1 storeB
  | .caload => loadElement vm 2 loadC
  | .castore => storeElement vm 2 storeC
  | .d2f => unary fun a => .ofFloat (vm.ops.doubleToFloat a)
  | .d2i => unary fun a => .ofInt (doubleToInt (doubleValue a))
  | .d2l => unary fun a => doubleToLong (doubleValue a)
  | .dadd => binary vm.ops.dadd
  | .daload => loadElement vm 8 Memory.load64
  | .dastore => storeElement vm 8 Memory.store64
  | .dcmpg => binary fun a b => cmpg (doubleValue a) (doubleValue b)
  | .dcmpl => binary fun a b => cmpl (doubleValue a) (doubleValue b)
  | .ddiv => binary vm.ops.ddiv
  | .dmul => binary vm.ops.dmul
  | .dneg => unary vm.ops.dneg
  | .drem => binary vm.ops.fmod
  | .dsub => binary vm.ops.dsub
  | .f2d => unary fun a => vm.ops.floatToDouble a.low
  | .f2i => unary fun a => .ofInt (doubleToInt (floatValue a.low))
  | .f2l => unary fun a => doubleToLong (floatValue a.low)
  | .fadd => binary (onFloats vm.ops.fadd)
  | .faload => loadElement vm 4 fun mem a => .ofFloat (mem.load32 a)
  | .fastore => storeElement vm 4 fun mem a v => mem.store32 a v.low
  | .fcmpg => binary fun a b => cmpg (floatValue a.low) (floatValue b.low)
  | .fcmpl => binary fun a b => cmpl (floatValue a.low) (floatValue b.low)
  | .fdiv => binary (onFloats vm.ops.fdiv)
  | .fmul => binary (onFloats vm.ops.fmul)
  | .fneg => unary fun a => .ofFloat (vm.ops.fneg a.low)
  | .frem => binary (onFloats vm.ops.fmodf)
  | .fsub => binary (onFloats vm.ops.fsub)
  | .i2b => unary i2b
  | .i2c => unary i2c
  | .i2d => unary vm.ops.s64ToDouble
  | .i2f => unary fun a => .ofFloat (vm.ops.s64ToFloat a)
  | .i2l => unary i2l
  | .i2s => unary i2s
  | .iadd => binary iadd
  | .iaload => loadElement vm 4 loadI
  | .iand => binary iand
  | .iastore => storeElement vm 4 storeI
  | .idiv => intDivide vm javaDiv
  | .imul => binary imul
  | .ineg => unary ineg
  | .ior => binary ior
  | .irem => intDivide vm javaRem
  | .ishl => binary ishl
  | .ishr => binary ishr
  | .isub => binary isub
  | .iushr => binary iushr
  | .ixor => binary ixor
  | .l2d => unary vm.ops.s64ToDouble
  | .l2f => unary fun a => .ofFloat (vm.ops.s64ToFloat a)
  | .l2i => unary l2i
  | .ladd => binary ladd
  | .laload => loadElement vm 8 Memory.load64
  | .land => binary land
  | .lastore => storeElement vm 8 Memory.store64
  | .lcmp => binary lcmp
  | .ldiv => longDivide vm javaDiv
  | .lmul => binary lmul
  | .lneg => unary lneg
  | .lor => binary lor
  | .lrem => longDivide vm javaRem
  | .lshl => binary lshl
  | .lshr => binary lshr
  | .lsub => binary lsub
  | .lushr => binary lushr
  | .lxor => binary lxor
  | .monitorenter => fun s ops =>
    nonNull vm (operand ops 0) s (ask vm (.monitorAcquire (operand ops 0)) s fun s _ => .next s 0)
  | .monitorexit => fun s ops =>
    nonNull vm (operand ops 0) s (ask vm (.monitorRelease (operand ops 0)) s fun s result =>
      if result ≠ 0 then raise vm .illegalMonitorState s else .next s 0)
  | .saload => loadElement vm 2 loadS
  | .sastore => storeElement vm 2 storeC
  | .anewarray => resolveClassTo vm .anewarray
  | .checkcast => resolveClassTo vm .checkcast
  | .getfield => resolveField vm false 0
  | .getstatic | .putstatic => resolveStatic vm
  | .instanceof => resolveClassTo vm .instanceof
  | .invokedynamic => resolveInvokedynamic vm
  | .new => resolveNew vm
  | .putfield => resolveField vm true 1
  | .invokevirtual => resolveInvokevirtual vm
  | .invokespecial => resolveInvokespecial vm
  | .invokestatic => resolveInvokestatic vm
  | .ldc => fun s _ => ask vm (.ldc s.pc) s .next
  | .dload | .lload | .aload => loadLocal fun v => v
  | .fload => loadLocal fun v => .ofFloat v.low
  | .iload => loadLocal fun v => .ofInt v.low
  | .dstore | .lstore | .astore => storeLocal fun _ v => v
  | .fstore | .istore => storeLocal fun old v => old.setLow v.low
  | .goto => fun s _ => .branch s s.insn.index
  | .ifeq | .ifnull => branchWhen fun ops => (operand ops 0).low == 0
  | .ifne | .ifnonnull => branchWhen fun ops => (operand ops 0).low != 0
  | .iflt => branchWhen fun ops => (operand ops 0).low.slt 0
  | .ifge => branchWhen fun ops => (0#32).sle (operand ops 0).low
  | .ifgt => branchWhen fun ops => (0#32).slt (operand ops 0).low
  | .ifle => branchWhen fun ops => (operand ops 0).low.sle 0
  | .ifIcmpeq => branchWhen fun ops => (operand ops 1).low == (operand ops 0).low
  | .ifIcmpne => branchWhen fun ops => (operand ops 1).low != (operand ops 0).low
  | .ifIcmplt => branchWhen fun ops => (operand ops 1).low.slt (operand ops 0).low
  | .ifIcmpge => branchWhen fun ops => (operand ops 0).low.sle (operand ops 1).low
  | .ifIcmpgt => branchWhen fun ops => (operand ops 0).low.slt (operand ops 1).low
  | .ifIcmple => branchWhen fun ops => (operand ops 1).low.sle (operand ops 0).low
  | .ifAcmpeq => branchWhen fun ops => operand ops 1 == operand ops 0
  | .ifAcmpne => branchWhen fun ops => operand ops 1 != operand ops 0
  | .iconst | .lconst => nullary fun s => BitVec.ofInt 64 s.insn.integerImm
  | .dconst => nullary fun s => BitVec.ofNat 64 s.insn.dImm
  | .fconst => nullary fun s => .ofFloat (BitVec.ofNat 32 s.insn.fImm)
  | .iinc => silent fun s _ =>
    let a := s.locals s.insn.iincIndex
    s.setLocal s.insn.iincIndex (a.setLow (a.low + BitVec.ofInt 32 s.insn.iincConst))
  | .invokeinterface => resolveInvokeinterface vm
  | .multianewarray => fun s ops => ask vm (.multianewarray s.pc (ops.reverse.map low)) s .next
  | .newarray => newArray vm fun s count => .newPrimitiveArray s.insn.arrayType count
  | .tableswitch => tableswitch
  | .lookupswitch => lookupswitch
  | _ => fun _ _ => .abort

/-- An intrinsic is one of floats or of doubles, as its method is. -/
def mathOp (f : BitVec 32 → BitVec 32) (d : BitVec 64 → BitVec 64) : PlainOp W := fun s ops =>
  unary (if s.insn.descriptor.returnType.reprKind = .float then fun a => .ofFloat (f a.low) else d)
    s ops

/-- The instructions that the interpreter rewrites others to. -/
def evalResolved : ResolvedCode → PlainOp W
  | .anewarray => newArray vm fun s count => .newObjectArray s.insn.classdesc count
  | .checkcast => fun s ops =>
    let obj := operand ops 0
    if obj ≠ 0 ∧ vm.instanceof s.heap (vm.descriptor s.heap obj) s.insn.classdesc = false then
      raise vm (.classCast obj s.insn.classdesc) s
    else .next s obj
  | .instanceof => fun s ops =>
    let obj := operand ops 0
    let result := obj ≠ 0 ∧ vm.instanceof s.heap (vm.descriptor s.heap obj) s.insn.classdesc
    .next s (if result then 1 else 0)
  | .new => fun s _ => ask vm (.newObject s.insn.classdesc) s .next
  | .invokevtableMonomorphic | .invokeitableMonomorphic => invokeMonomorphic vm
  | .invokevtablePolymorphic | .invokespecial | .invokesigpoly => invokeOn vm (invoke vm)
  | .invokeitablePolymorphic => invokeitablePolymorphic vm
  | .invokestatic | .invokecallsite => invoke vm
  | .getfield k => getField vm (fieldLoad k)
  | .putfield k => putField vm (fieldStore k)
  | .getstatic k => nullary fun s => fieldLoad k s.heap.mem s.insn.ic
  | .putstatic k => silent fun s ops =>
    s.setMem (fieldStore k s.heap.mem s.insn.ic (operand ops 0))
  | .pow => fun s ops =>
    binary (if s.insn.descriptor.returnType.reprKind = .float then onFloats vm.ops.powf
      else vm.ops.pow) s ops
  | .math f => mathOp (vm.ops.mathf f) (vm.ops.math f)

def eval : InsnCodeKind → PlainOp W
  | .parsed k => evalParsed vm k
  | .resolved k => evalResolved vm k

/-- The instructions that rearrange the stack. -/
def shuffle : InsnCodeKind → List Value → Option (List Value)
  | .parsed .dup, v :: s => some (v :: v :: s)
  | .parsed .dupX1, v1 :: v2 :: s => some (v1 :: v2 :: v1 :: s)
  | .parsed .dupX2, v1 :: v2 :: v3 :: s => some (v1 :: v2 :: v3 :: v1 :: s)
  | .parsed .dup2, v1 :: v2 :: s => some (v1 :: v2 :: v1 :: v2 :: s)
  | .parsed .dup2X1, v1 :: v2 :: v3 :: s => some (v1 :: v2 :: v3 :: v1 :: v2 :: s)
  | .parsed .dup2X2, v1 :: v2 :: v3 :: v4 :: s => some (v1 :: v2 :: v3 :: v4 :: v1 :: v2 :: s)
  | .parsed .pop, _ :: s => some s
  | .parsed .pop2, _ :: _ :: s => some s
  | .parsed .swap, v1 :: v2 :: s => some (v2 :: v1 :: s)
  | _, _ => none

/-- The kinds that an instruction pops, the top first, and the kind it pushes. -/
def operandKinds (insn : BytecodeInsn) : Option (List TypeKind × List TypeKind) :=
  match insn.kind with
  | .putfield => some ([insn.field.reprKind, .reference], [])
  | .putstatic => some ([insn.field.reprKind], [])
  | .iinc => some ([], [])
  | kind =>
    match localKind kind with
    | some k => some (if kind.isLoad then ([], [k]) else ([k], []))
    | none => (stackEffect kind).or (descriptorEffect insn)

/-- What is on the stack for the kinds pushed. -/
def results (pushes : List TypeKind) (v : StackValue) : List Value :=
  (pushes.filter (· ≠ .void)).map fun k => ⟨k, canonical k v⟩

inductive PlainConfig (W : Type)
  | running (s : Plain W)
  | returned (heap : Heap W) (result : StackValue)
  | thrown (heap : Heap W) (e : StackValue)

variable (fm : FrameMethod)

namespace Plain

/-- An exception is pending. -/
def unwind (s : Plain W) (e : StackValue) : PlainConfig W :=
  match findExceptionHandler vm s.pc (vm.descriptor s.heap e) fm.exceptionTable s.heap e with
  | (heap, e, some ent) =>
    .running { s with heap, pc := ent.handlerInsn, stack := [⟨.reference, e⟩] }
  | (heap, e, none) => .thrown heap e

/-- The state behind an instruction that pops to `rest` and pushes `pushes`. -/
def finish (pushes : List TypeKind) (rest : List Value) : Outcome W → Option (PlainConfig W)
  | .next s v => some (.running { s with pc := s.pc + 1, stack := results pushes v ++ rest })
  | .branch s target => some (.running { s with pc := target, stack := results pushes 0 ++ rest })
  | .again s => some (.running s)
  | .throw s e => some (s.unwind vm fm e)
  | .ret s v => some (.returned s.heap v)
  | .abort => none

/-- Runs one instruction. -/
def step (s : Plain W) : Option (PlainConfig W) :=
  match shuffle s.insn.code s.stack with
  | some stack => some (.running { s with pc := s.pc + 1, stack })
  | none =>
    match operandKinds s.insn.toBytecodeInsn with
    | none => none
    | some (pops, pushes) =>
      let ops := s.stack.take pops.length
      if ops.map (·.kind) = pops then
        finish vm fm pushes (s.stack.drop pops.length)
          (eval vm s.insn.code s (ops.map (·.word)))
      else none

end Plain

end

end BJvm.Interpreter

import BJvm.Interpreter.Handlers

/-!
# Jump tables and the interpreter loop

The four tables of `interpreter2.c`, and `interpret_2` as it runs the frame of one method.  A kind
that a table has no handler for is a jump to a null pointer.
-/

namespace BJvm.Interpreter

open ClassFile StackValue Function

variable {W : Type} (vm : Vm W) (fm : FrameMethod)

/-! ### The tables -/

def voidHandler : InsnCode → Option (VoidHandler W)
  | .nop => some nopImplVoid
  | .aconstNull => some aconstNullImplVoid
  | .pop => some popImplVoid
  | .return_ => some returnImplVoid
  | .getstatic => some (getstaticImplVoid vm)
  | .invokedynamic => some (invokedynamicImplVoid vm)
  | .new => some (newImplVoid vm)
  | .invokevirtual => some (invokevirtualImplVoid vm)
  | .invokestatic => some (invokestaticImplVoid vm)
  | .ldc => some (ldcImplVoid vm)
  | .dload => some (dloadImplVoid fm)
  | .fload => some (floadImplVoid fm)
  | .iload => some (iloadImplVoid fm)
  | .lload => some (lloadImplVoid fm)
  | .aload => some (aloadImplVoid fm)
  | .goto => some gotoImplVoid
  | .iconst => some iconstImplVoid
  | .dconst => some dconstImplVoid
  | .fconst => some fconstImplVoid
  | .lconst => some lconstImplVoid
  | .iinc => some iincImplVoid
  | .invokeinterface => some (invokeinterfaceImplVoid vm)
  | _ => none

def voidHandlerResolved : ResolvedCode → Option (VoidHandler W)
  | .new => some (newResolvedImplVoid vm)
  | .invokevtableMonomorphic => some (invokeitableVtableMonomorphicImplVoid vm)
  | .invokevtablePolymorphic => some (invokevtablePolymorphicImplVoid vm)
  | .invokeitableMonomorphic => some (invokeitableVtableMonomorphicImplVoid vm)
  | .invokeitablePolymorphic => some (invokeitablePolymorphicImplVoid vm)
  | .invokespecial => some (invokespecialResolvedImplVoid vm)
  | .invokestatic => some invokestaticResolvedImplVoid
  | .invokecallsite => some invokecallsiteImplVoid
  | .invokesigpoly => some (invokesigpolyImplVoid vm)
  | .getstatic .b => some getstaticBImplVoid
  | .getstatic .c => some getstaticCImplVoid
  | .getstatic .s => some getstaticSImplVoid
  | .getstatic .i => some getstaticIImplVoid
  | .getstatic .j => some getstaticJImplVoid
  | .getstatic .f => some getstaticFImplVoid
  | .getstatic .d => some getstaticDImplVoid
  | .getstatic .z => some getstaticZImplVoid
  | .getstatic .l => some getstaticLImplVoid
  | _ => none

/-- `jmp_table_void`. -/
def jmpTableVoid : InsnCodeKind → Option (VoidHandler W)
  | .parsed k => voidHandler vm fm k
  | .resolved k => voidHandlerResolved vm k

def intHandler : InsnCode → Option (IntHandler W)
  | .nop => some nopImplInt
  | .aaload => some (aaloadImplInt vm)
  | .aastore => some (aastoreImplInt vm)
  | .aconstNull => some (forwardInt aconstNullImplVoid)
  | .areturn => some areturnImplInt
  | .arraylength => some (arraylengthImplInt vm)
  | .athrow => some (athrowImplInt vm)
  | .baload => some (baloadImplInt vm)
  | .bastore => some (bastoreImplInt vm)
  | .caload => some (caloadImplInt vm)
  | .castore => some (castoreImplInt vm)
  | .daload => some (daloadImplInt vm)
  | .dup => some dupImplInt
  | .dupX1 => some (forwardInt dupX1ImplVoid)
  | .dupX2 => some (forwardInt dupX2ImplVoid)
  | .dup2 => some dup2ImplInt
  | .dup2X1 => some (forwardInt dup2X1ImplVoid)
  | .dup2X2 => some (forwardInt dup2X2ImplVoid)
  | .faload => some (faloadImplInt vm)
  | .i2b => some i2bImplInt
  | .i2c => some i2cImplInt
  | .i2d => some (i2dImplInt vm)
  | .i2f => some (i2fImplInt vm)
  | .i2l => some i2lImplInt
  | .i2s => some i2sImplInt
  | .iadd => some iaddImplInt
  | .iaload => some (ialoadImplInt vm)
  | .iand => some iandImplInt
  | .iastore => some (iastoreImplInt vm)
  | .idiv => some (idivImplInt vm)
  | .imul => some imulImplInt
  | .ineg => some inegImplInt
  | .ior => some iorImplInt
  | .irem => some (iremImplInt vm)
  | .ireturn => some ireturnImplInt
  | .ishl => some ishlImplInt
  | .ishr => some ishrImplInt
  | .isub => some isubImplInt
  | .iushr => some iushrImplInt
  | .ixor => some ixorImplInt
  | .l2d => some (l2dImplInt vm)
  | .l2f => some (l2fImplInt vm)
  | .l2i => some l2iImplInt
  | .ladd => some laddImplInt
  | .laload => some (laloadImplInt vm)
  | .land => some landImplInt
  | .lastore => some (lastoreImplInt vm)
  | .lcmp => some lcmpImplInt
  | .ldiv => some (ldivImplInt vm)
  | .lmul => some lmulImplInt
  | .lneg => some lnegImplInt
  | .lor => some lorImplInt
  | .lrem => some (lremImplInt vm)
  | .lreturn => some lreturnImplInt
  | .lshl => some lshlImplInt
  | .lshr => some lshrImplInt
  | .lsub => some lsubImplInt
  | .lushr => some lushrImplInt
  | .lxor => some lxorImplInt
  | .monitorenter => some (monitorenterImplInt vm)
  | .monitorexit => some (monitorexitImplInt vm)
  | .pop => some (forwardInt popImplVoid)
  | .pop2 => some (forwardInt pop2ImplVoid)
  | .return_ => some (forwardInt returnImplVoid)
  | .saload => some (saloadImplInt vm)
  | .sastore => some (sastoreImplInt vm)
  | .swap => some (forwardInt swapImplVoid)
  | .anewarray => some (anewarrayImplInt vm)
  | .checkcast => some (checkcastImplInt vm)
  | .getfield => some (getfieldImplInt vm)
  | .getstatic => some (forwardInt (getstaticImplVoid vm))
  | .instanceof => some (instanceofImplInt vm)
  | .invokedynamic => some (forwardInt (invokedynamicImplVoid vm))
  | .new => some (forwardInt (newImplVoid vm))
  | .putfield => some (forwardInt (putfieldImplVoid vm))
  | .putstatic => some (forwardInt (putstaticImplVoid vm))
  | .invokevirtual => some (forwardInt (invokevirtualImplVoid vm))
  | .invokespecial => some (forwardInt (invokespecialImplVoid vm))
  | .invokestatic => some (forwardInt (invokestaticImplVoid vm))
  | .ldc => some (forwardInt (ldcImplVoid vm))
  | .dload => some (forwardInt (dloadImplVoid fm))
  | .fload => some (forwardInt (floadImplVoid fm))
  | .iload => some (forwardInt (iloadImplVoid fm))
  | .lload => some (forwardInt (lloadImplVoid fm))
  | .istore => some (istoreImplInt fm)
  | .lstore => some (lstoreImplInt fm)
  | .aload => some (forwardInt (aloadImplVoid fm))
  | .astore => some (astoreImplInt fm)
  | .goto => some gotoImplInt
  | .ifAcmpeq => some ifAcmpeqImplInt
  | .ifAcmpne => some ifAcmpneImplInt
  | .ifIcmpeq => some ifIcmpeqImplInt
  | .ifIcmpne => some ifIcmpneImplInt
  | .ifIcmplt => some ifIcmpltImplInt
  | .ifIcmpge => some ifIcmpgeImplInt
  | .ifIcmpgt => some ifIcmpgtImplInt
  | .ifIcmple => some ifIcmpleImplInt
  | .ifeq => some ifeqImplInt
  | .ifne => some ifneImplInt
  | .iflt => some ifltImplInt
  | .ifge => some ifgeImplInt
  | .ifgt => some ifgtImplInt
  | .ifle => some ifleImplInt
  | .ifnonnull => some ifnonnullImplInt
  | .ifnull => some ifnullImplInt
  | .iconst => some (forwardInt iconstImplVoid)
  | .dconst => some (forwardInt dconstImplVoid)
  | .fconst => some (forwardInt fconstImplVoid)
  | .lconst => some (forwardInt lconstImplVoid)
  | .iinc => some iincImplInt
  | .invokeinterface => some (forwardInt (invokeinterfaceImplVoid vm))
  | .multianewarray => some (multianewarrayImplInt vm)
  | .newarray => some (newarrayImplInt vm)
  | .tableswitch => some tableswitchImplInt
  | .lookupswitch => some lookupswitchImplInt
  | _ => none

def intHandlerResolved : ResolvedCode → Option (IntHandler W)
  | .anewarray => some (anewarrayResolvedImplInt vm)
  | .checkcast => some (checkcastResolvedImplInt vm)
  | .instanceof => some (instanceofResolvedImplInt vm)
  | .new => some (forwardInt (newResolvedImplVoid vm))
  | .invokevtableMonomorphic => some (forwardInt (invokeitableVtableMonomorphicImplVoid vm))
  | .invokevtablePolymorphic => some (forwardInt (invokevtablePolymorphicImplVoid vm))
  | .invokeitableMonomorphic => some (forwardInt (invokeitableVtableMonomorphicImplVoid vm))
  | .invokeitablePolymorphic => some (forwardInt (invokeitablePolymorphicImplVoid vm))
  | .invokespecial => some (forwardInt (invokespecialResolvedImplVoid vm))
  | .invokestatic => some (forwardInt invokestaticResolvedImplVoid)
  | .invokecallsite => some (forwardInt invokecallsiteImplVoid)
  | .invokesigpoly => some (forwardInt (invokesigpolyImplVoid vm))
  | .getfield .b => some (getfieldBImplInt vm)
  | .getfield .c => some (getfieldCImplInt vm)
  | .getfield .s => some (getfieldSImplInt vm)
  | .getfield .i => some (getfieldIImplInt vm)
  | .getfield .j => some (getfieldJImplInt vm)
  | .getfield .f => some (getfieldFImplInt vm)
  | .getfield .d => some (getfieldDImplInt vm)
  | .getfield .z => some (getfieldZImplInt vm)
  | .getfield .l => some (getfieldLImplInt vm)
  | .putfield .b => some (putfieldBImplInt vm)
  | .putfield .c => some (putfieldCImplInt vm)
  | .putfield .s => some (putfieldSImplInt vm)
  | .putfield .i => some (putfieldIImplInt vm)
  | .putfield .j => some (putfieldJImplInt vm)
  | .putfield .z => some (putfieldZImplInt vm)
  | .putfield .l => some (putfieldLImplInt vm)
  | .getstatic .b => some (forwardInt getstaticBImplVoid)
  | .getstatic .c => some (forwardInt getstaticCImplVoid)
  | .getstatic .s => some (forwardInt getstaticSImplVoid)
  | .getstatic .i => some (forwardInt getstaticIImplVoid)
  | .getstatic .j => some (forwardInt getstaticJImplVoid)
  | .getstatic .f => some (forwardInt getstaticFImplVoid)
  | .getstatic .d => some (forwardInt getstaticDImplVoid)
  | .getstatic .z => some (forwardInt getstaticZImplVoid)
  | .getstatic .l => some (forwardInt getstaticLImplVoid)
  | .putstatic .b => some putstaticBImplInt
  | .putstatic .c => some putstaticCImplInt
  | .putstatic .s => some putstaticSImplInt
  | .putstatic .i => some putstaticIImplInt
  | .putstatic .j => some putstaticJImplInt
  | .putstatic .z => some putstaticZImplInt
  | .putstatic .l => some putstaticLImplInt
  | _ => none

/-- `jmp_table_int`. -/
def jmpTableInt : InsnCodeKind → Option (IntHandler W)
  | .parsed k => intHandler vm fm k
  | .resolved k => intHandlerResolved vm k

def floatHandler : InsnCode → Option (FloatHandler W)
  | .nop => some nopImplFloat
  | .aconstNull => some (forwardFloat aconstNullImplVoid)
  | .dup => some dupImplFloat
  | .dupX1 => some (forwardFloat dupX1ImplVoid)
  | .dupX2 => some (forwardFloat dupX2ImplVoid)
  | .dup2 => some dup2ImplFloat
  | .dup2X1 => some (forwardFloat dup2X1ImplVoid)
  | .dup2X2 => some (forwardFloat dup2X2ImplVoid)
  | .f2d => some (f2dImplFloat vm)
  | .f2i => some f2iImplFloat
  | .f2l => some f2lImplFloat
  | .fadd => some (faddImplFloat vm)
  | .fastore => some (fastoreImplFloat vm)
  | .fcmpg => some fcmpgImplFloat
  | .fcmpl => some fcmplImplFloat
  | .fdiv => some (fdivImplFloat vm)
  | .fmul => some (fmulImplFloat vm)
  | .fneg => some (fnegImplFloat vm)
  | .freturn => some freturnImplFloat
  | .fsub => some (fsubImplFloat vm)
  | .pop => some (forwardFloat popImplVoid)
  | .pop2 => some (forwardFloat pop2ImplVoid)
  | .return_ => some (forwardFloat returnImplVoid)
  | .swap => some (forwardFloat swapImplVoid)
  | .getstatic => some (forwardFloat (getstaticImplVoid vm))
  | .invokedynamic => some (forwardFloat (invokedynamicImplVoid vm))
  | .new => some (forwardFloat (newImplVoid vm))
  | .putfield => some (forwardFloat (putfieldImplVoid vm))
  | .putstatic => some (forwardFloat (putstaticImplVoid vm))
  | .invokevirtual => some (forwardFloat (invokevirtualImplVoid vm))
  | .invokespecial => some (forwardFloat (invokespecialImplVoid vm))
  | .invokestatic => some (forwardFloat (invokestaticImplVoid vm))
  | .ldc => some (forwardFloat (ldcImplVoid vm))
  | .dload => some (forwardFloat (dloadImplVoid fm))
  | .fload => some (forwardFloat (floadImplVoid fm))
  | .iload => some (forwardFloat (iloadImplVoid fm))
  | .lload => some (forwardFloat (lloadImplVoid fm))
  | .fstore => some (fstoreImplFloat fm)
  | .aload => some (forwardFloat (aloadImplVoid fm))
  | .goto => some gotoImplFloat
  | .iconst => some (forwardFloat iconstImplVoid)
  | .dconst => some (forwardFloat dconstImplVoid)
  | .fconst => some (forwardFloat fconstImplVoid)
  | .lconst => some (forwardFloat lconstImplVoid)
  | .iinc => some iincImplFloat
  | .invokeinterface => some (forwardFloat (invokeinterfaceImplVoid vm))
  | .frem => some (fremImplFloat vm)
  | _ => none

def floatHandlerResolved : ResolvedCode → Option (FloatHandler W)
  | .new => some (forwardFloat (newResolvedImplVoid vm))
  | .invokevtableMonomorphic => some (forwardFloat (invokeitableVtableMonomorphicImplVoid vm))
  | .invokevtablePolymorphic => some (forwardFloat (invokevtablePolymorphicImplVoid vm))
  | .invokeitableMonomorphic => some (forwardFloat (invokeitableVtableMonomorphicImplVoid vm))
  | .invokeitablePolymorphic => some (forwardFloat (invokeitablePolymorphicImplVoid vm))
  | .invokespecial => some (forwardFloat (invokespecialResolvedImplVoid vm))
  | .invokestatic => some (forwardFloat invokestaticResolvedImplVoid)
  | .invokecallsite => some (forwardFloat invokecallsiteImplVoid)
  | .invokesigpoly => some (forwardFloat (invokesigpolyImplVoid vm))
  | .putfield .f => some (putfieldFImplFloat vm)
  | .getstatic .b => some (forwardFloat getstaticBImplVoid)
  | .getstatic .c => some (forwardFloat getstaticCImplVoid)
  | .getstatic .s => some (forwardFloat getstaticSImplVoid)
  | .getstatic .i => some (forwardFloat getstaticIImplVoid)
  | .getstatic .j => some (forwardFloat getstaticJImplVoid)
  | .getstatic .f => some (forwardFloat getstaticFImplVoid)
  | .getstatic .d => some (forwardFloat getstaticDImplVoid)
  | .getstatic .z => some (forwardFloat getstaticZImplVoid)
  | .getstatic .l => some (forwardFloat getstaticLImplVoid)
  | .putstatic .f => some putstaticFImplFloat
  | .pow => some (powImplFloat vm)
  | .math .sin => some (sinImplFloat vm)
  | .math .cos => some (cosImplFloat vm)
  | .math .tan => some (tanImplFloat vm)
  | .math .sqrt => some (sqrtImplFloat vm)
  | _ => none

/-- `jmp_table_float`. -/
def jmpTableFloat : InsnCodeKind → Option (FloatHandler W)
  | .parsed k => floatHandler vm fm k
  | .resolved k => floatHandlerResolved vm k

def doubleHandler : InsnCode → Option (DoubleHandler W)
  | .nop => some nopImplDouble
  | .aconstNull => some (forwardDouble aconstNullImplVoid)
  | .d2f => some (d2fImplDouble vm)
  | .d2i => some d2iImplDouble
  | .d2l => some d2lImplDouble
  | .dadd => some (daddImplDouble vm)
  | .dastore => some (dastoreImplDouble vm)
  | .dcmpg => some dcmpgImplDouble
  | .dcmpl => some dcmplImplDouble
  | .ddiv => some (ddivImplDouble vm)
  | .dmul => some (dmulImplDouble vm)
  | .dneg => some (dnegImplDouble vm)
  | .dreturn => some dreturnImplDouble
  | .dsub => some (dsubImplDouble vm)
  | .dup => some dupImplDouble
  | .dupX1 => some (forwardDouble dupX1ImplVoid)
  | .dupX2 => some (forwardDouble dupX2ImplVoid)
  | .dup2 => some dup2ImplDouble
  | .dup2X1 => some (forwardDouble dup2X1ImplVoid)
  | .dup2X2 => some (forwardDouble dup2X2ImplVoid)
  | .pop => some (forwardDouble popImplVoid)
  | .pop2 => some (forwardDouble pop2ImplVoid)
  | .return_ => some (forwardDouble returnImplVoid)
  | .swap => some (forwardDouble swapImplVoid)
  | .getstatic => some (forwardDouble (getstaticImplVoid vm))
  | .invokedynamic => some (forwardDouble (invokedynamicImplVoid vm))
  | .new => some (forwardDouble (newImplVoid vm))
  | .putfield => some (forwardDouble (putfieldImplVoid vm))
  | .putstatic => some (forwardDouble (putstaticImplVoid vm))
  | .invokevirtual => some (forwardDouble (invokevirtualImplVoid vm))
  | .invokespecial => some (forwardDouble (invokespecialImplVoid vm))
  | .invokestatic => some (forwardDouble (invokestaticImplVoid vm))
  | .ldc => some (forwardDouble (ldcImplVoid vm))
  | .dload => some (forwardDouble (dloadImplVoid fm))
  | .fload => some (forwardDouble (floadImplVoid fm))
  | .iload => some (forwardDouble (iloadImplVoid fm))
  | .lload => some (forwardDouble (lloadImplVoid fm))
  | .dstore => some (dstoreImplDouble fm)
  | .aload => some (forwardDouble (aloadImplVoid fm))
  | .goto => some gotoImplDouble
  | .iconst => some (forwardDouble iconstImplVoid)
  | .dconst => some (forwardDouble dconstImplVoid)
  | .fconst => some (forwardDouble fconstImplVoid)
  | .lconst => some (forwardDouble lconstImplVoid)
  | .iinc => some iincImplDouble
  | .invokeinterface => some (forwardDouble (invokeinterfaceImplVoid vm))
  | .drem => some (dremImplDouble vm)
  | _ => none

def doubleHandlerResolved : ResolvedCode → Option (DoubleHandler W)
  | .new => some (forwardDouble (newResolvedImplVoid vm))
  | .invokevtableMonomorphic => some (forwardDouble (invokeitableVtableMonomorphicImplVoid vm))
  | .invokevtablePolymorphic => some (forwardDouble (invokevtablePolymorphicImplVoid vm))
  | .invokeitableMonomorphic => some (forwardDouble (invokeitableVtableMonomorphicImplVoid vm))
  | .invokeitablePolymorphic => some (forwardDouble (invokeitablePolymorphicImplVoid vm))
  | .invokespecial => some (forwardDouble (invokespecialResolvedImplVoid vm))
  | .invokestatic => some (forwardDouble invokestaticResolvedImplVoid)
  | .invokecallsite => some (forwardDouble invokecallsiteImplVoid)
  | .invokesigpoly => some (forwardDouble (invokesigpolyImplVoid vm))
  | .putfield .d => some (putfieldDImplDouble vm)
  | .getstatic .b => some (forwardDouble getstaticBImplVoid)
  | .getstatic .c => some (forwardDouble getstaticCImplVoid)
  | .getstatic .s => some (forwardDouble getstaticSImplVoid)
  | .getstatic .i => some (forwardDouble getstaticIImplVoid)
  | .getstatic .j => some (forwardDouble getstaticJImplVoid)
  | .getstatic .f => some (forwardDouble getstaticFImplVoid)
  | .getstatic .d => some (forwardDouble getstaticDImplVoid)
  | .getstatic .z => some (forwardDouble getstaticZImplVoid)
  | .getstatic .l => some (forwardDouble getstaticLImplVoid)
  | .putstatic .d => some putstaticDImplDouble
  | .pow => some (powImplDouble vm)
  | .math .sin => some (sinImplDouble vm)
  | .math .cos => some (cosImplDouble vm)
  | .math .tan => some (tanImplDouble vm)
  | .math .sqrt => some (sqrtImplDouble vm)
  | _ => none

/-- `jmp_table_double`. -/
def jmpTableDouble : InsnCodeKind → Option (DoubleHandler W)
  | .parsed k => doubleHandler vm fm k
  | .resolved k => doubleHandlerResolved vm k

/-- Jumps to the handler of the current instruction, in the table of the register. -/
def dispatch (m : Machine W) : Tos → Option (Next W)
  | .void => (jmpTableVoid vm fm m.insn.code).map (· m)
  | .int tos => (jmpTableInt vm fm m.insn.code).map (· m tos)
  | .float tos => (jmpTableFloat vm fm m.insn.code).map (· m tos)
  | .double tos => (jmpTableDouble vm fm m.insn.code).map (· m tos)

/-! ### The loop -/

/-- `find_exception_handler`, with the exception pending behind it.  A catch type that fails to load
leaves the exception of that behind. -/
def findExceptionHandler (pc : Nat) (type : BitVec 64) :
    List ParsedException → Heap W → StackValue → Heap W × StackValue × Option ParsedException
  | [], heap, e => (heap, e, none)
  | ent :: table, heap, e =>
    if ent.startInsn ≤ pc ∧ pc < ent.endInsn then
      match ent.catchType with
      | none => (heap, e, some ent)
      | some cp =>
        match vm.request (.resolveCatchType cp) heap with
        | (heap, .error e) => findExceptionHandler pc type table heap e
        | (heap, .ok classdesc) =>
          if vm.instanceof heap type classdesc then (heap, e, some ent)
          else findExceptionHandler pc type table heap e
    else findExceptionHandler pc type table heap e

/-- The value as the callee, or the caller, reads it from a slot: a float takes the low half. -/
def canonical : TypeKind → StackValue → StackValue
  | .float, v => .ofFloat v.low
  | _, v => v

/-- The kinds of the arguments, the receiver first. -/
def argKinds (insn : Insn) : List TypeKind :=
  let args := insn.descriptor.args.map (·.reprKind)
  if insn.kind = .invokestatic ∨ insn.kind = .invokedynamic then args else .reference :: args

/-- What a frame leaves in the slot of the result: a native one the union it returns, a Java one the
register of its return instruction. -/
def frameResult (kind : TypeKind) (native : Bool) (v : StackValue) : StackValue :=
  if native then v else if kind = .int then .ofInt v.low else canonical kind v

inductive Config (W : Type)
  | running (m : Machine W) (tos : Tos)
  | returned (heap : Heap W) (result : StackValue)
  | thrown (heap : Heap W) (e : StackValue)

/-- `java_interpret_begin`: the registers are read off the frame. -/
def interpretBegin (m : Machine W) : Config W :=
  let sp := fm.insnIndexToSd m.programCounter
  let m := { m with pc := m.programCounter, sp }
  .running m (.fill m.insn.tosBefore (m.stack (sp - 1)))

/-- An exception is pending in the frame. -/
def unwind (m : Machine W) (e : StackValue) : Config W :=
  match findExceptionHandler vm m.programCounter (vm.descriptor m.heap e) fm.exceptionTable
      m.heap e with
  | (heap, e, some ent) =>
    interpretBegin fm { m.write 0 e with heap, programCounter := ent.handlerInsn }
  | (heap, e, none) => .thrown heap e

/-- The callee's frame runs on the arguments on top of the stack, and its result replaces them. -/
def runCallee (m : Machine W) (argc : Nat) : Config W :=
  let args := List.zipWith canonical (argKinds m.insn)
    ((List.range argc).map fun i => m.stack (m.sp - argc + i))
  let result := frameResult m.insn.descriptor.returnType.reprKind (vm.isNative m.heap m.pc args)
  match vm.request (.call m.pc args) m.heap with
  | (heap, .ok v) =>
    interpretBegin fm { m.write (m.sp - argc) (result v) with
      heap, programCounter := m.programCounter + 1 }
  | (heap, .error e) => unwind vm fm { m with heap } e

/-- What `refuel_check` sets the fuel to. -/
def refuel : BitVec 32 := 200000

/-- What the loop does when a handler comes back to it. -/
def Next.loop : Next W → Option (Config W)
  | .jump m tos => some (.running m tos)
  | .exceptionThrown m e => some (unwind vm fm m e)
  | .fuelCheck m => some (interpretBegin fm { m with fuel := refuel })
  | .invoke m argc => some (runCallee vm fm m argc)
  | .done m v => some (.returned m.heap v)
  | .abort => none

/-- One handler and what the loop does behind it; `none` is a crash, or the end of the run. -/
def Config.step : Config W → Option (Config W)
  | .running m tos => (dispatch vm fm m tos).bind (Next.loop vm fm)
  | .returned .. | .thrown .. => none

end BJvm.Interpreter

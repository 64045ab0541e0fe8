import BJvm.StackMap.Iterator

/-!
# The method analysis

`analyze_method_code` of `analysis.c`: an abstract run over the kinds on the stack and in the
locals, in which a double or long takes one slot.  It renumbers the locals, rewrites the stack
instructions to the forms that suit, and records the kinds at each instruction.  Stacks are lists
with the top first.  The sources that it keeps for messages about null pointers are left out.
-/

namespace BJvm

/-! ### Method entry -/

/-- The loop of `locals_on_method_entry` over the arguments, the next of which goes to the slot
`swizzled` and has the formal index `j`. -/
def placeArgs (maxLocals : Nat) : List FieldDescriptor → Nat → Nat →
    List TypeKind × List (Option Nat) → Option (List TypeKind × List (Option Nat))
  | [], _, _, st => some st
  | arg :: args, swizzled, j, (locals, swizzle) =>
    if j < maxLocals then
      let st := (locals.set swizzled arg.reprKind, swizzle.set j (some swizzled))
      if arg.isWide then
        if maxLocals ≤ j + 1 then none else placeArgs maxLocals args (swizzled + 1) (j + 2) st
      else placeArgs maxLocals args (swizzled + 1) (j + 1) st
    else none

/-- Maps the rest of the locals to the slots from `next` on. -/
def fillSwizzle : Nat → List (Option Nat) → List Nat
  | _, [] => []
  | next, some s :: l => s :: fillSwizzle next l
  | next, none :: l => next :: fillSwizzle (next + 1) l

/-- `locals_on_method_entry`: the kinds of the locals, and the slot of each formal index. -/
def localsOnMethodEntry (m : CpMethod) : Option (List TypeKind × List Nat) :=
  let maxLocals := m.code.maxLocals
  let locals := List.replicate maxLocals TypeKind.void
  let swizzle := List.replicate maxLocals (none : Option Nat)
  let n := m.descriptor.args.length
  if m.isStatic then
    (placeArgs maxLocals m.descriptor.args 0 0 (locals, swizzle)).map fun st =>
      (st.1, fillSwizzle n st.2)
  else if maxLocals = 0 then none
  else
    (placeArgs maxLocals m.descriptor.args 1 1 (locals.set 0 .reference, swizzle.set 0 (some 0))).map
      fun st => (st.1, fillSwizzle (n + 1) st.2)

/-! ### The state -/

/-- `method_analysis_ctx`.  The last three fields are used without a `StackMapTable` only. -/
structure AnalysisCtx where
  stack : List TypeKind := []
  locals : List TypeKind
  edges : List (Nat × Nat) := []
  knownStacks : List (Option (List TypeKind)) := []
  knownLocals : List (Option (List TypeKind)) := []
  changed : Bool := false
  deriving DecidableEq, Repr, Inhabited

/-- What an analysis does not change: the code attribute, `locals_swizzle`, and whether the
`StackMapTable` is missing. -/
structure AnalysisEnv where
  code : AttributeCode
  swizzle : List Nat
  missingSmt : Bool
  deriving DecidableEq, Repr, Inhabited

/-- The kinds that two states agree on, from the first on; `VOID` where they do not, and whether
the first list loses a kind it had. -/
def intersectKinds : List TypeKind → List TypeKind → List TypeKind × Bool
  | d :: dst, s :: src =>
    let (l, changed) := intersectKinds dst src
    if d ≠ s ∧ d ≠ .void then (.void :: l, true) else (d :: l, changed)
  | _, _ => ([], false)

/-- `intersect_analy_stack_state`, on the entries in the order of the C array. -/
def intersectState (known : Option (List TypeKind)) (src : List TypeKind) :
    Option (List TypeKind) × Bool :=
  match known with
  | none => (some src, true)
  | some dst => let (l, changed) := intersectKinds dst src; (some l, changed)

namespace AnalysisCtx

/-- Intersects the stack known at `i` with `src`, which has its top first. -/
def intersectStack (ctx : AnalysisCtx) (i : Nat) (src : List TypeKind) : AnalysisCtx :=
  let (known, changed) := intersectState (ctx.knownStacks.getD i none) src.reverse
  { ctx with
    knownStacks := ctx.knownStacks.set i known
    changed := ctx.changed || changed }

def intersectLocals (ctx : AnalysisCtx) (i : Nat) (src : List TypeKind) : AnalysisCtx :=
  let (known, changed) := intersectState (ctx.knownLocals.getD i none) src
  { ctx with
    knownLocals := ctx.knownLocals.set i known
    changed := ctx.changed || changed }

/-- `push_branch_target`. -/
def pushBranchTarget (ctx : AnalysisCtx) (env : AnalysisEnv) (curr target : Nat) : AnalysisCtx :=
  let ctx := { ctx with edges := ctx.edges ++ [(curr, target)] }
  if env.missingSmt then
    (ctx.intersectStack target ctx.stack).intersectLocals target ctx.locals
  else ctx

def pushBranchTargets (ctx : AnalysisCtx) (env : AnalysisEnv) (curr : Nat) (targets : List Nat) :
    AnalysisCtx :=
  targets.foldl (fun ctx target => ctx.pushBranchTarget env curr target) ctx

end AnalysisCtx

/-- `calculate_tos_type`. -/
def calculateTosType : List TypeKind → Except Failure ReducedTosKind
  | [] => .ok .void
  | .float :: _ => .ok .float
  | .double :: _ => .ok .double
  | .void :: _ => .error .abort
  | _ :: _ => .ok .int

def stackUnderflow : Failure := .error "Stack underflow:"
def stackOverflow : Failure := .error "Stack overflow:"
def stackTypeMismatch : Failure := .error "Stack type mismatch:"
def localOverflow : Failure := .error "Local overflow:"
def localTypeMismatch : Failure := .error "Local type mismatch:"

/-- `POP_VAL`. -/
def popVal : List TypeKind → Except Failure (TypeKind × List TypeKind)
  | [] => .error stackUnderflow
  | k :: stack => .ok (k, stack)

/-- `POP_KIND`. -/
def popKind (kind : TypeKind) (stack : List TypeKind) : Except Failure (List TypeKind) := do
  let (k, stack) ← popVal stack
  if kind ≠ k then throw stackTypeMismatch
  return stack

/-- `PUSH_ENTRY`; a boolean, the kind 0, is never pushed. -/
def pushEntry (env : AnalysisEnv) (kind : TypeKind) (stack : List TypeKind) :
    Except Failure (List TypeKind) :=
  if stack.length = env.code.maxStack + 1 then .error stackOverflow
  else if kind = .void then .ok stack
  else if kind = .boolean then .error .abort
  else .ok (kind :: stack)

def popKinds (kinds stack : List TypeKind) : Except Failure (List TypeKind) :=
  kinds.foldlM (fun stack kind => popKind kind stack) stack

def pushEntries (env : AnalysisEnv) (kinds stack : List TypeKind) :
    Except Failure (List TypeKind) :=
  kinds.foldlM (fun stack kind => pushEntry env kind stack) stack

/-! ### Instructions -/

/-- The instructions that only pop and push: the kinds popped, in order, and the kinds pushed. -/
def stackEffect : InsnCode → Option (List TypeKind × List TypeKind)
  | .nop | .ret | .return_ => some ([], [])
  | .aaload => some ([.int, .reference], [.reference])
  | .aastore => some ([.reference, .int, .reference], [])
  | .aconstNull => some ([], [.reference])
  | .areturn => some ([.reference], [])
  | .arraylength => some ([.reference], [.int])
  | .athrow => some ([.reference], [])
  | .baload | .caload | .saload | .iaload => some ([.int, .reference], [.int])
  | .bastore | .castore | .sastore | .iastore => some ([.int, .int, .reference], [])
  | .d2f => some ([.double], [.float])
  | .d2i => some ([.double], [.int])
  | .d2l => some ([.double], [.long])
  | .dadd | .ddiv | .dmul | .drem | .dsub => some ([.double, .double], [.double])
  | .daload => some ([.int, .reference], [.double])
  | .dastore => some ([.double, .int, .reference], [])
  | .dcmpg | .dcmpl => some ([.double, .double], [.int])
  | .dneg => some ([.double], [.double])
  | .dreturn => some ([.double], [])
  | .f2d => some ([.float], [.double])
  | .f2i => some ([.float], [.int])
  | .f2l => some ([.float], [.long])
  | .fadd => some ([.float, .float], [.float])
  | .faload => some ([.int, .reference], [.float])
  | .fastore => some ([.float, .int, .reference], [])
  | .fcmpg | .fcmpl => some ([.float, .float], [.int])
  | .fdiv | .fmul | .frem | .fsub => some ([.float, .float], [.float])
  | .fneg => some ([.float], [.float])
  | .freturn => some ([.float], [])
  | .i2b | .i2c => some ([.int], [.int])
  | .i2d => some ([.int], [.double])
  | .i2f => some ([.int], [.float])
  | .i2l => some ([.int], [.long])
  | .i2s => some ([.int], [.int])
  | .iadd | .iand | .idiv | .imul | .irem | .ior | .ishl | .ishr | .isub | .ixor | .iushr =>
    some ([.int, .int], [.int])
  | .ineg => some ([.int], [.int])
  | .ireturn => some ([.int], [])
  | .l2d => some ([.long], [.double])
  | .l2f => some ([.long], [.float])
  | .l2i => some ([.long], [.int])
  | .ladd | .land | .ldiv | .lmul | .lor | .lrem | .lsub | .lxor => some ([.long, .long], [.long])
  | .lshl | .lshr | .lushr => some ([.int, .long], [.long])
  | .laload => some ([.int, .reference], [.long])
  | .lastore => some ([.long, .int, .reference], [])
  | .lcmp => some ([.long, .long], [.int])
  | .lneg => some ([.long], [.long])
  | .lreturn => some ([.long], [])
  | .monitorenter | .monitorexit => some ([.reference], [])
  | .anewarray | .newarray => some ([.int], [.reference])
  | .checkcast => some ([.reference], [.reference])
  | .instanceof => some ([.reference], [.int])
  | .new | .ldc => some ([], [.reference])
  | .iconst => some ([], [.int])
  | .dconst => some ([], [.double])
  | .fconst => some ([], [.float])
  | .lconst => some ([], [.long])
  | .ifAcmpeq | .ifAcmpne => some ([.reference, .reference], [])
  | .ifIcmpeq | .ifIcmpne | .ifIcmplt | .ifIcmpge | .ifIcmpgt | .ifIcmple => some ([.int, .int], [])
  | .ifeq | .ifne | .iflt | .ifge | .ifgt | .ifle => some ([.int], [])
  | .ifnonnull | .ifnull => some ([.reference], [])
  | .tableswitch | .lookupswitch => some ([.int], [])
  | .goto => some ([], [])
  | .jsr => some ([], [.reference])
  | _ => none

/-- The instructions that rearrange the stack: the stack behind them, before the check for
overflow, and the form they are rewritten to. -/
def shuffleStack (kind : InsnCode) (stack : List TypeKind) :
    Except Failure (List TypeKind × List TypeKind × InsnCode) :=
  match kind with
  | .dup => do
    let (k, _) ← popVal stack
    return ([k], stack, .dup)
  | .dupX1 => do
    let (k1, stack) ← popVal stack
    let (k2, stack) ← popVal stack
    if k1.isWide || k2.isWide then throw stackTypeMismatch
    return ([k1, k2, k1], stack, .dupX1)
  | .dupX2 => do
    let (toDup, stack) ← popVal stack
    let (k2, stack) ← popVal stack
    if toDup.isWide then throw stackTypeMismatch
    if k2.isWide then return ([toDup, k2, toDup], stack, .dupX1)
    let (k3, stack) ← popVal stack
    return ([toDup, k3, k2, toDup], stack, .dupX2)
  | .dup2 => do
    let (toDup, stack) ← popVal stack
    if toDup.isWide then return ([toDup, toDup], stack, .dup)
    let (k2, stack) ← popVal stack
    if k2.isWide then throw stackTypeMismatch
    return ([k2, toDup, k2, toDup], stack, .dup2)
  | .dup2X1 => do
    let (toDup, stack) ← popVal stack
    let (k2, stack) ← popVal stack
    if toDup.isWide then return ([toDup, k2, toDup], stack, .dupX1)
    let (k3, stack) ← popVal stack
    if k3.isWide then throw stackTypeMismatch
    return ([k2, toDup, k3, k2, toDup], stack, .dup2X1)
  | .dup2X2 => do
    let (toDup, stack) ← popVal stack
    let (k2, stack) ← popVal stack
    if toDup.isWide then
      if k2.isWide then return ([toDup, k2, toDup], stack, .dupX1)
      let (k3, stack) ← popVal stack
      if k3.isWide then throw stackTypeMismatch
      return ([toDup, k3, k2, toDup], stack, .dupX2)
    let (k3, stack) ← popVal stack
    if k3.isWide then return ([k2, toDup, k3, k2, toDup], stack, .dup2X1)
    let (k4, stack) ← popVal stack
    if k4.isWide then throw stackTypeMismatch
    return ([k2, toDup, k4, k3, k2, toDup], stack, .dup2X2)
  | .pop => do
    let (k, stack) ← popVal stack
    if k.isWide then throw stackTypeMismatch
    return ([], stack, .pop)
  | .pop2 => do
    let (k, stack) ← popVal stack
    if k.isWide then return ([], stack, .pop)
    let (k2, stack) ← popVal stack
    if k2.isWide then throw stackTypeMismatch
    return ([], stack, .pop2)
  | .swap => do
    let (k1, stack) ← popVal stack
    let (k2, stack) ← popVal stack
    if k1.isWide || k2.isWide then throw stackTypeMismatch
    return ([k1, k2], stack, .swap)
  | _ => .error .abort

/-- The kind that a load or store instruction moves. -/
def localKind : InsnCode → Option TypeKind
  | .dload | .dstore => some .double
  | .fload | .fstore => some .float
  | .iload | .istore => some .int
  | .lload | .lstore => some .long
  | .aload | .astore => some .reference
  | _ => none

def InsnCode.isLoad : InsnCode → Bool
  | .dload | .fload | .iload | .lload | .aload => true
  | _ => false

/-- The instructions that set `state_terminated`. -/
def InsnCode.terminates : InsnCode → Bool
  | .areturn | .athrow | .dreturn | .freturn | .ireturn | .lreturn | .return_ | .goto
  | .tableswitch | .lookupswitch => true
  | _ => false

/-- The size of a `bytecode_insn`, in which branch deltas are counted. -/
def sizeofBytecodeInsn : Int := 32

section

variable (env : AnalysisEnv) (doRewrite : Bool)

/-- `SWIZZLE_LOCAL`. -/
def swizzleLocal (index : Nat) : Except Failure Nat :=
  if env.code.maxLocals ≤ index then .error localOverflow
  else .ok (if doRewrite then env.swizzle.getD index 0 else index)

/-- `LOCAL_INDEX`, for the index behind `SWIZZLE_LOCAL`. -/
def localIndex (index : Nat) : Nat := if doRewrite then index else env.swizzle.getD index 0

/-- The loads and stores. -/
def analyzeLocal (kind : TypeKind) (insn : BytecodeInsn) (ctx : AnalysisCtx) :
    Except Failure (BytecodeInsn × AnalysisCtx) :=
  if insn.kind.isLoad then do
    let index ← swizzleLocal env doRewrite insn.index
    let entry := ctx.locals.getD (localIndex env doRewrite index) .void
    let stack ← pushEntry env entry ctx.stack
    if entry ≠ kind then throw localTypeMismatch
    return ({ insn with index, delta := env.code.maxLocals - index }, { ctx with stack })
  else do
    let stack ← popKind kind ctx.stack
    let index ← swizzleLocal env doRewrite insn.index
    if env.code.maxLocals ≤ index then throw localOverflow
    return ({ insn with index, delta := env.code.maxLocals - index },
      { ctx with stack, locals := ctx.locals.set (localIndex env doRewrite index) kind })

/-- The kinds popped and pushed by the instructions that name a field or a method. -/
def descriptorEffect (insn : BytecodeInsn) : Option (List TypeKind × List TypeKind) :=
  let args := (insn.descriptor.args.map (·.reprKind)).reverse
  let result :=
    if insn.descriptor.returnType.baseKind = .void then [] else [insn.descriptor.returnType.reprKind]
  match insn.kind with
  | .getfield => some ([.reference], [insn.field.reprKind])
  | .getstatic => some ([], [insn.field.reprKind])
  | .invokedynamic | .invokestatic => some (args, result)
  | .invokespecial | .invokevirtual | .invokeinterface => some (args ++ [.reference], result)
  | .multianewarray => some (List.replicate insn.dimensions .int, [.reference])
  | _ => none

/-- The branch targets that an instruction pushes, in order. -/
def pushedTargets (insn : BytecodeInsn) : List Nat :=
  if insn.kind.isBranch then [insn.index]
  else if insn.kind = .tableswitch then
    insn.tableswitch.defaultTarget :: insn.tableswitch.targets
  else if insn.kind = .lookupswitch then
    insn.lookupswitch.defaultTarget :: insn.lookupswitch.targets
  else []

/-- `calculate_branch_delta`, which `jsr` goes without. -/
def branchDelta (insn : BytecodeInsn) (i : Nat) : BytecodeInsn :=
  if insn.kind.isBranch && insn.kind ≠ .jsr then
    { insn with delta := ((insn.index : Int) - i) * sizeofBytecodeInsn }
  else insn

/-- The switch of `analyze_instruction`. -/
def analyzeKind (i : Nat) (insn : BytecodeInsn) (ctx : AnalysisCtx) :
    Except Failure (BytecodeInsn × AnalysisCtx) :=
  match (stackEffect insn.kind).or (descriptorEffect insn) with
  | some (pops, pushes) => do
    let stack ← popKinds pops ctx.stack
    let stack ← pushEntries env pushes stack
    return (branchDelta insn i,
      { ctx with stack }.pushBranchTargets env i (pushedTargets insn))
  | none =>
    match localKind insn.kind with
    | some kind => analyzeLocal env doRewrite kind insn ctx
    | none =>
      match insn.kind with
      | .putfield => do
        let (_, stack) ← popVal ctx.stack
        let stack ← popKind .reference stack
        return (insn, { ctx with stack })
      | .putstatic => do
        let (_, stack) ← popVal ctx.stack
        return (insn, { ctx with stack })
      | .iinc => do
        let iincIndex ← swizzleLocal env doRewrite insn.iincIndex
        return ({ insn with iincIndex }, ctx)
      | _ => do
        let (pushes, stack, rewritten) ← shuffleStack insn.kind ctx.stack
        let stack ← pushEntries env pushes stack
        return (if doRewrite then { insn with kind := rewritten } else insn, { ctx with stack })

/-- `analyze_instruction`: the instruction, the state behind it, and `state_terminated`. -/
def analyzeInstruction (i : Nat) (insn : BytecodeInsn) (ctx : AnalysisCtx) :
    Except Failure (BytecodeInsn × AnalysisCtx × Bool) := do
  let tosBefore ← calculateTosType ctx.stack
  let (insn', ctx) ← analyzeKind env doRewrite i { insn with tosBefore } ctx
  let tosAfter ← calculateTosType ctx.stack
  return ({ insn' with tosAfter }, ctx, insn.kind.terminates)

end

end BJvm

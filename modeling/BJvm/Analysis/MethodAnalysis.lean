import BJvm.Analysis.Analyzer

/-!
# The passes over a method

The loop of `analyze_method_code`.  With a `StackMapTable` one pass suffices; without, passes
repeat until the kinds known at branch targets and handlers no longer change, and one more pass
rewrites and records.
-/

namespace BJvm

/-- `validation_type_kind_to_representation`. -/
def ValidationTypeKind.representation : ValidationTypeKind → TypeKind
  | .integer => .int
  | .float => .float
  | .long => .long
  | .double => .double
  | .object | .null | .uninitThis | .uninit => .reference
  | .top => .void

/-- `use_stack_map_frame`. -/
def useStackMapFrame (env : AnalysisEnv) (it : StackMapFrameIterator) (ctx : AnalysisCtx) :
    AnalysisCtx :=
  { ctx with
    stack := (it.stack.map (·.kind.representation)).reverse
    locals := it.locals.zipIdx.foldl
      (fun locals p => locals.set (env.swizzle.getD p.2 0) p.1.kind.representation)
      (ctx.locals.map fun _ => .void) }

/-- `stack_summary`: the kinds on the stack, bottom first, and in the locals. -/
structure StackSummary where
  stack : List TypeKind
  locals : List TypeKind
  deriving DecidableEq, Repr, Inhabited

/-- The variables of the loop over the instructions. -/
structure PassState where
  ctx : AnalysisCtx
  iter : StackMapFrameIterator
  stateTerminated : Bool := true
  code : List BytecodeInsn
  insnIndexToSd : List Nat := []
  stackStates : List StackSummary := []
  deriving DecidableEq, Repr, Inhabited

/-- `intersect_exception_handlers`. -/
def intersectExceptionHandlers (env : AnalysisEnv) (i : Nat) (ctx : AnalysisCtx) : AnalysisCtx :=
  env.code.exceptionTable.foldl (fun ctx entry =>
    if entry.startInsn ≤ i ∧ i < entry.endInsn then ctx.intersectLocals entry.handlerInsn ctx.locals
    else ctx) ctx

/-- `fill_exception_handlers`. -/
def fillExceptionHandlers (env : AnalysisEnv) (ctx : AnalysisCtx) : AnalysisCtx :=
  env.code.exceptionTable.foldl (fun ctx entry =>
    ctx.intersectStack entry.handlerInsn [.reference]) ctx

/-- What the loop does before it looks at the instruction: takes the state from the current frame,
or from what is known at the instruction. -/
def enterInsn (env : AnalysisEnv) (i : Nat) (insn : BytecodeInsn) (s : PassState) :
    Except Failure PassState :=
  if insn.originalPc = s.iter.pc then
    let ctx := useStackMapFrame env s.iter s.ctx
    if s.iter.hasNext then
      match s.iter.next env.code with
      | .ok iter => .ok { s with ctx, iter }
      | .error msg => .error (.error msg)
    else .ok { s with ctx }
  else if env.missingSmt then
    if s.stateTerminated then
      match s.ctx.knownStacks.getD i none, s.ctx.knownLocals.getD i none with
      | some stack, some locals =>
        .ok { s with
          ctx := intersectExceptionHandlers env i { s.ctx with stack := stack.reverse, locals } }
      | _, _ => .error .abort
    else
      .ok { s with
        ctx := intersectExceptionHandlers env i
          ((s.ctx.intersectStack i s.ctx.stack).intersectLocals i s.ctx.locals) }
  else .ok s

/-- Records the state at an instruction. -/
def PassState.record (s : PassState) (finishedRefinement : Bool) : PassState :=
  { s with
    insnIndexToSd := s.insnIndexToSd ++ [s.ctx.stack.length]
    stackStates :=
      if finishedRefinement then
        s.stackStates ++ [{ stack := s.ctx.stack.reverse, locals := s.ctx.locals }]
      else s.stackStates }

/-- The loop body for the instruction at `i`. -/
def passStep (env : AnalysisEnv) (finishedRefinement : Bool) (s : PassState) (i : Nat) :
    Except Failure PassState := do
  let insn := s.code.getD i default
  let s ← enterInsn env i insn s
  let s := s.record finishedRefinement
  let (insn, ctx, stateTerminated) ← analyzeInstruction env finishedRefinement i insn s.ctx
  return { s with ctx, stateTerminated, code := s.code.set i insn }

/-- The loop up to the instruction at `n`. -/
def runPass (env : AnalysisEnv) (finishedRefinement : Bool) (n : Nat) (s : PassState) :
    Except Failure PassState :=
  (List.range n).foldlM (passStep env finishedRefinement) s

/-- What `analyze_method_code` leaves behind. -/
structure MethodAnalysis where
  code : List BytecodeInsn
  insnIndexToSd : List Nat
  stackStates : List StackSummary
  deriving DecidableEq, Repr, Inhabited

/-- The passes from the label `analyze` on; `none` when the fuel runs out. -/
def runPasses (env : AnalysisEnv) (m : CpMethod) :
    Nat → Bool → AnalysisCtx → List BytecodeInsn → Except Failure (Option MethodAnalysis)
  | 0, _, _, _ => .ok none
  | fuel + 1, finishedRefinement, ctx, code => do
    let iter ← StackMapFrameIterator.init m
    let s ← runPass env finishedRefinement code.length { ctx, iter, code }
    if s.ctx.changed then
      runPasses env m fuel finishedRefinement { s.ctx with changed := false } s.code
    else if !finishedRefinement then runPasses env m fuel true s.ctx s.code
    else
      return some
        { code := s.code, insnIndexToSd := s.insnIndexToSd, stackStates := s.stackStates }

/-- `analyze_method_code` on a method not analysed before; the failures before the loop carry no
message. -/
def analyzeMethodCode (fuel : Nat) (m : CpMethod) : Except Failure (Option MethodAnalysis) :=
  match localsOnMethodEntry m with
  | none => .error (.error "")
  | some (locals, swizzle) =>
    if m.code.localVariableTable.any (m.code.maxLocals ≤ ·) then .error (.error "")
    else
      let env : AnalysisEnv := { code := m.code, swizzle, missingSmt := m.missingSmt }
      let unknown := List.replicate m.code.code.length none
      let ctx : AnalysisCtx :=
        if m.missingSmt then
          fillExceptionHandlers env { locals, knownStacks := unknown, knownLocals := unknown }
        else { locals }
      runPasses env m fuel (!m.missingSmt) ctx m.code.code

end BJvm

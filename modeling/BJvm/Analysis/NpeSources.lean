import BJvm.Analysis.MethodAnalysis
import Mathlib.Logic.Function.Basic

/-!
# Where null pointers come from

Beside each kind the analysis keeps the source of the value, and records the sources of what an
instruction dereferences for the message of a `NullPointerException`.  The entries of the C arrays
keep their sources when they are popped, and a stack map frame gives them kinds only.
-/

namespace BJvm

/-- `stack_variable_source`. -/
inductive VariableSource
  | parameter (index : Nat)
  | local_ (index : Nat)
  | insn (index : Nat)
  | unk
  deriving DecidableEq, Repr, Inhabited

/-- The source in an entry that `calloc` makes. -/
def zeroSource : VariableSource := .parameter 0

/-- The sources in `ctx.stack.entries`, `ctx.locals.entries` and, without a `StackMapTable`, in
`known_stacks` and `known_locals`. -/
structure SourceState where
  stack : Nat → VariableSource
  locals : Nat → VariableSource
  knownStacks : Nat → Option (Nat → VariableSource) := fun _ => none
  knownLocals : Nat → Option (Nat → VariableSource) := fun _ => none

/-- `stack_variable_sources`: `analy->sources[i]`. -/
structure StackVariableSources where
  a : VariableSource := zeroSource
  b : VariableSource := zeroSource
  deriving DecidableEq, Repr, Inhabited

/-- The sources that `locals_on_method_entry` gives the locals. -/
def entrySource (m : CpMethod) (slot : Nat) : VariableSource :=
  if m.isStatic then
    if slot < m.descriptor.args.length then .parameter (slot + 1) else zeroSource
  else if slot < m.descriptor.args.length + 1 then .parameter slot
  else zeroSource

namespace SourceState

variable (src : SourceState)

/-- Writes the sources, the first at the given depth. -/
def pushAll (src : SourceState) : Nat → List VariableSource → SourceState
  | _, [] => src
  | depth, s :: ss =>
    pushAll { src with stack := Function.update src.stack depth s } (depth + 1) ss

/-- The entries of a stack of the given kinds, top first. -/
def entries : List TypeKind → List (TypeKind × VariableSource)
  | [] => []
  | k :: ks => (k, src.stack ks.length) :: entries ks

/-- `intersect_analy_stack_state` on the stack known at `i`: the sources that come first stay. -/
def knowStack (i : Nat) (stack : Nat → VariableSource) : SourceState :=
  { src with
    knownStacks := Function.update src.knownStacks i (some ((src.knownStacks i).getD stack)) }

def knowLocals (i : Nat) : SourceState :=
  { src with
    knownLocals := Function.update src.knownLocals i (some ((src.knownLocals i).getD src.locals)) }

/-- `push_branch_target`, for all targets. -/
def pushBranchTargets (env : AnalysisEnv) (targets : List Nat) : SourceState :=
  if env.missingSmt then
    targets.foldl (fun src target => (src.knowStack target src.stack).knowLocals target) src
  else src

end SourceState

/-- The instructions that rearrange the stack: the entries pushed, in order, and those below. -/
def shuffleEntries : InsnCode → List (TypeKind × VariableSource) →
    List (TypeKind × VariableSource) × List (TypeKind × VariableSource)
  | .dup, a :: s => ([a], a :: s)
  | .dupX1, a :: b :: s => ([a, b, a], s)
  | .dupX2, a :: b :: s =>
    if b.1.isWide then ([a, b, a], s)
    else match s with
      | c :: s => ([a, c, b, a], s)
      | [] => ([], [])
  | .dup2, a :: s =>
    if a.1.isWide then ([a, a], s)
    else match s with
      | b :: s => ([b, a, b, a], s)
      | [] => ([], [])
  | .dup2X1, a :: b :: s =>
    if a.1.isWide then ([a, b, a], s)
    else match s with
      | c :: s => ([b, a, c, b, a], s)
      | [] => ([], [])
  | .dup2X2, a :: b :: s =>
    if a.1.isWide then
      if b.1.isWide then ([a, b, a], s)
      else match s with
        | c :: s => ([a, c, b, a], s)
        | [] => ([], [])
    else match s with
      | c :: s =>
        if c.1.isWide then ([b, a, c, b, a], s)
        else match s with
          | d :: s => ([b, a, d, c, b, a], s)
          | [] => ([], [])
      | [] => ([], [])
  | .pop, _ :: s => ([], s)
  | .pop2, a :: s => if a.1.isWide then ([], s) else ([], s.drop 1)
  | .swap, a :: b :: s => ([a, b], s)
  | _, s => ([], s)

/-- What `analyze_instruction` does to the sources, on a stack of the given kinds. -/
def analyzeSources (env : AnalysisEnv) (i : Nat) (insn : BytecodeInsn) (stack : List TypeKind)
    (src : SourceState) : SourceState :=
  match (stackEffect insn.kind).or (descriptorEffect insn) with
  | some (pops, pushes) =>
    (src.pushAll (stack.length - pops.length)
      ((pushes.filter (· ≠ .void)).map fun _ => .insn i)).pushBranchTargets env (pushedTargets insn)
  | none =>
    match localKind insn.kind with
    | some _ =>
      let slot := env.swizzle.getD insn.index 0
      if insn.kind.isLoad then src.pushAll stack.length [src.locals slot]
      else { src with locals := Function.update src.locals slot (.local_ i) }
    | none =>
      let (pushes, rest) := shuffleEntries insn.kind (src.entries stack)
      src.pushAll rest.length ((pushes.filter (·.1 ≠ .void)).map Prod.snd)

/-- The position from the top of what the instruction dereferences. -/
def dereferenced (insn : BytecodeInsn) : Option Nat :=
  match insn.kind with
  | .putfield | .aaload | .baload | .caload | .faload | .iaload | .daload | .laload | .saload => some 1
  | .aastore | .bastore | .castore | .fastore | .dastore | .iastore | .lastore | .sastore => some 2
  | .invokevirtual | .invokeinterface | .invokespecial => some insn.descriptor.args.length
  | .arraylength | .athrow | .monitorenter | .monitorexit | .getfield => some 0
  | _ => none

/-- The position of the second source, which is an index or the value stored. -/
def secondOperand (insn : BytecodeInsn) : Option Nat :=
  match insn.kind with
  | .putfield | .aaload | .baload | .caload | .faload | .iaload | .daload | .laload | .saload => some 0
  | .aastore | .bastore | .castore | .fastore | .dastore | .iastore | .lastore | .sastore => some 1
  | _ => none

/-- `write_npe_sources`, on a stack of depth `sd`. -/
def writeNpeSources (insn : BytecodeInsn) (sd : Nat) (src : SourceState) : StackVariableSources :=
  let at_ (position : Option Nat) :=
    (position.map fun position => src.stack (sd - 1 - position)).getD zeroSource
  { a := at_ (dereferenced insn), b := at_ (secondOperand insn) }

/-! ### The passes -/

/-- The loop over the instructions, with the sources. -/
structure SourcePass where
  pass : PassState
  src : SourceState
  sources : List StackVariableSources := []

/-- `intersect_exception_handlers`. -/
def knowHandlerLocals (env : AnalysisEnv) (i : Nat) (src : SourceState) : SourceState :=
  env.code.exceptionTable.foldl (fun src entry =>
    if entry.startInsn ≤ i ∧ i < entry.endInsn then src.knowLocals entry.handlerInsn else src) src

/-- What the loop does to the sources before it looks at the instruction; a frame leaves them. -/
def enterSources (env : AnalysisEnv) (i : Nat) (insn : BytecodeInsn) (s : PassState)
    (src : SourceState) : SourceState :=
  if insn.originalPc = s.iter.pc then src
  else if env.missingSmt then
    if s.stateTerminated then
      let known := (s.ctx.knownStacks.getD i none).getD []
      let stack := fun k =>
        if k < known.length then ((src.knownStacks i).getD src.stack) k else src.stack k
      knowHandlerLocals env i { src with stack, locals := (src.knownLocals i).getD src.locals }
    else knowHandlerLocals env i ((src.knowStack i src.stack).knowLocals i)
  else src

/-- The loop body for the instruction at `i`. -/
def sourceStep (env : AnalysisEnv) (finishedRefinement : Bool) (s : SourcePass) (i : Nat) :
    Except Failure SourcePass := do
  let insn := s.pass.code.getD i default
  let entered ← enterInsn env i insn s.pass
  let src := enterSources env i insn s.pass s.src
  let pass ← passStep env finishedRefinement s.pass i
  return {
    pass
    src := analyzeSources env i insn entered.ctx.stack src
    sources := s.sources ++ [writeNpeSources insn entered.ctx.stack.length src] }

def runSourcePass (env : AnalysisEnv) (finishedRefinement : Bool) (n : Nat) (s : SourcePass) :
    Except Failure SourcePass :=
  (List.range n).foldlM (sourceStep env finishedRefinement) s

/-- `runPasses` with the sources. -/
def runSourcePasses (env : AnalysisEnv) (m : CpMethod) :
    Nat → Bool → AnalysisCtx → SourceState → List BytecodeInsn →
      Except Failure (Option (MethodAnalysis × List StackVariableSources))
  | 0, _, _, _, _ => .ok none
  | fuel + 1, finishedRefinement, ctx, src, code => do
    let iter ← StackMapFrameIterator.init m
    let s ← runSourcePass env finishedRefinement code.length { pass := { ctx, iter, code }, src }
    if s.pass.ctx.changed then
      runSourcePasses env m fuel finishedRefinement { s.pass.ctx with changed := false } s.src
        s.pass.code
    else if !finishedRefinement then
      runSourcePasses env m fuel true s.pass.ctx s.src s.pass.code
    else
      return some (
        { code := s.pass.code, insnIndexToSd := s.pass.insnIndexToSd
          stackStates := s.pass.stackStates }, s.sources)

/-- The sources when the loop starts; the handlers' stacks are known without a `StackMapTable`. -/
def initialSources (m : CpMethod) : SourceState :=
  let src : SourceState := { stack := fun _ => zeroSource, locals := entrySource m }
  if m.missingSmt then
    m.code.exceptionTable.foldl (fun src entry =>
      src.knowStack entry.handlerInsn fun _ => zeroSource) src
  else src

/-- `analyze_method_code` with `analy->sources`. -/
def analyzeMethodSources (fuel : Nat) (m : CpMethod) :
    Except Failure (Option (MethodAnalysis × List StackVariableSources)) :=
  match localsOnMethodEntry m with
  | none => .error (.error "")
  | some (locals, swizzle) =>
    if m.code.localVariableTable.any (m.code.maxLocals ≤ ·) then .error (.error "")
    else
      let env : AnalysisEnv := { code := m.code, swizzle, missingSmt := m.missingSmt }
      let unknown := List.replicate m.code.code.length none
      let ctx : AnalysisCtx :=
        if m.missingSmt then
          fillExceptionHandlers env { locals, knownStacks := unknown, knownLocals := unknown }
        else { locals }
      runSourcePasses env m fuel (!m.missingSmt) ctx (initialSources m) m.code.code

end BJvm

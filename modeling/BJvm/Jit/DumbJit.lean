import BJvm.Analysis.ControlFlow
import BJvm.Analysis.Reducibility
import BJvm.Method

/-!
# The baseline compiler to WebAssembly

`dumb_jit.c` as far as control flow goes: the order of the basic blocks, the places where (block)s
and (loop)s begin, and the loop that builds the expression.  A null pointer that is read through ends
the compilation.  Builds for other targets than WebAssembly compile nothing.
-/

namespace BJvm.DumbJit

open Function (update)

/-- A `wasm_expression`.  A (block) or (loop) is named by its place in the module, since branches
point to it before it has contents. -/
inductive Expression
  | null
  | block (label : Nat)
  | br (conditional : Bool) (label : Nat)
  | return_
  /-- anything else that is emitted -/
  | other
  /-- what `compile_bb` makes of what it has emitted for the basic block -/
  | basicBlock (index : Nat) (building : List Expression)
  deriving Repr, Inhabited

/-- The contents that `wasm_update_block` sets. -/
structure WasmBlock where
  isLoop : Bool
  exprs : List Expression := []
  deriving Repr, Inhabited

/-- `method_jit_ctx`, less what no later code reads. -/
structure MethodJitCtx where
  /-- new order -> block index -/
  topoToBlock : Nat → Nat := fun _ => 0
  /-- block index -> new order -/
  blockToTopo : Nat → Nat := fun _ => 0
  /-- `creations[i].requested` -/
  requested : Nat → List Nat := fun _ => []
  loopHeaders : Nat → Option Nat := fun _ => none
  blockEnds : Nat → Option Nat := fun _ => none
  wasmModule : List WasmBlock := []
  currPc : Nat := 0
  analysis : Option Cfg := none
  topoI : Nat := 0
  blockc : Nat := 0
  method : Option AttributeCode := none
  deriving Inhabited

section

variable (a : Cfg)

/-! ### The order -/

end

/-! ### One basic block -/

section

variable (ctx : MethodJitCtx)

/-- What a null pointer does when it is read through. -/
def deref {α : Type} : Option α → Except Failure α
  | none => .error .abort
  | some v => .ok v

/-- `branch_target`, an expression of the module. -/
def branchTarget (pc : Nat) : Except Failure Nat := do
  let analysis ← deref ctx.analysis
  match (List.range ctx.blockc).find? fun i => (analysis.block i).startIndex = pc with
  | none => .error .abort
  | some i =>
    let topo := ctx.blockToTopo i
    if pc ≤ ctx.currPc then deref (ctx.loopHeaders topo) else deref (ctx.blockEnds topo)

/-- `lower_branch`. -/
def lowerBranch (insn : BytecodeInsn) : Except Failure (List Expression) :=
  match insn.kind with
  | .goto => do
    let target ← branchTarget ctx insn.index
    return [.br false target]
  | .ifeq | .ifAcmpeq | .ifIcmpeq | .ifne | .ifAcmpne | .ifIcmpne | .iflt | .ifIcmplt | .ifge
  | .ifIcmpge | .ifgt | .ifIcmpgt | .ifle | .ifIcmple => do
    let taken ← branchTarget ctx insn.index
    let notTaken ← branchTarget ctx (ctx.currPc + 1)
    return [.br true taken, .br false notTaken]
  | _ => .error .abort

variable (straight : BytecodeInsn → Except Failure (List Expression × Bool))

end

/-! ### The expression -/

/-- `inchoate_expression`. -/
structure InchoateExpression where
  ref : Expression
  startedAt : Nat
  /-- -1 is `none` -/
  closeAt : Option Nat
  isLoop : Bool
  deriving Repr, Inhabited

/-- The variables of the loop of `dumb_jit_compile`. -/
structure CompileState where
  ctx : MethodJitCtx
  exprStack : List InchoateExpression := []
  stackCount : Nat := 0
  deriving Inhabited

namespace CompileState

variable (s : CompileState)

/-- `wasm_block` for an empty (block) or (loop), pushed to the stack. -/
def push (isLoop : Bool) (closeAt : Nat) : CompileState :=
  { s with
    ctx := { s.ctx with wasmModule := s.ctx.wasmModule ++ [{ isLoop }] }
    exprStack := s.exprStack ++
      [{ ref := .block s.ctx.wasmModule.length, startedAt := s.ctx.topoI, closeAt, isLoop }] }

/-- Closes the expression at `i` when it is due: what is above it becomes its contents. -/
def closeAt (s : CompileState) (i : Nat) : CompileState :=
  let expr := s.exprStack.getD i default
  if expr.closeAt = some s.ctx.topoI then
    let exprs := ((s.exprStack.take s.stackCount).drop (i + 1)).map (·.ref)
    let wasmModule :=
      match expr.ref with
      | .block label => s.ctx.wasmModule.set label { isLoop := expr.isLoop, exprs }
      | _ => s.ctx.wasmModule
    { s with
      ctx := { s.ctx with
        wasmModule
        blockEnds := if s.ctx.topoI < s.ctx.blockc then update s.ctx.blockEnds s.ctx.topoI none
          else s.ctx.blockEnds
        loopHeaders := if expr.isLoop then update s.ctx.loopHeaders expr.startedAt none
          else s.ctx.loopHeaders }
      exprStack := s.exprStack.set i { expr with closeAt := none }
      stackCount := i + 1 }
  else s

/-- Creates a (block) or (loop) that the current block has been asked for. -/
def create (s : CompileState) (request : Nat) : CompileState :=
  let label := s.ctx.wasmModule.length
  let isLoop := request % 2 = 0
  let blockI := request / 2
  let s := s.push isLoop blockI
  { s with
    ctx := { s.ctx with
      loopHeaders := if isLoop then update s.ctx.loopHeaders s.ctx.topoI (some label)
        else s.ctx.loopHeaders
      blockEnds := if isLoop then s.ctx.blockEnds else update s.ctx.blockEnds blockI (some label) } }

end CompileState

section

variable (straight : BytecodeInsn → Except Failure (List Expression × Bool))
  (code : List BytecodeInsn) (a : Cfg)

end

end BJvm.DumbJit

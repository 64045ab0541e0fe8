import BJvm.Interpreter.JumpTables
import BJvm.Jit.DumbJit
import BJvm.Wasm.WasmUtils

/-!
# Conditional branches in WebAssembly

What `lower_branch` and `lower_fused_compare` of `dumb_jit.c` emit, with the comparisons, and what
WebAssembly does with it.  A comparison is signed, and false on a NaN unless it is `ne`.
-/

namespace BJvm.DumbJit

open Interpreter WasmUtils

/-! ### Comparisons in WebAssembly -/

inductive Comparison
  | eq | ne | lt | gt | le | ge
  deriving DecidableEq, Repr

namespace Comparison

def ofInts {w : Nat} (x y : BitVec w) : Comparison → Bool
  | eq => x == y
  | ne => x != y
  | lt => x.slt y
  | gt => y.slt x
  | le => x.sle y
  | ge => y.sle x

def ofFloats (x y : FloatValue) : Comparison → Bool
  | eq => x.eq y
  | ne => !x.eq y
  | lt => x.lt y
  | gt => y.lt x
  | le => x.lt y || x.eq y
  | ge => y.lt x || x.eq y

/-- The opcodes. -/
def i32Op : Comparison → BinaryOp
  | eq => ⟨0x46, by decide⟩
  | ne => ⟨0x47, by decide⟩
  | lt => ⟨0x48, by decide⟩
  | gt => ⟨0x4A, by decide⟩
  | le => ⟨0x4C, by decide⟩
  | ge => ⟨0x4E, by decide⟩

def i64Op : Comparison → BinaryOp
  | eq => ⟨0x51, by decide⟩
  | ne => ⟨0x52, by decide⟩
  | lt => ⟨0x53, by decide⟩
  | gt => ⟨0x55, by decide⟩
  | le => ⟨0x57, by decide⟩
  | ge => ⟨0x59, by decide⟩

def f32Op : Comparison → BinaryOp
  | eq => ⟨0x5B, by decide⟩
  | ne => ⟨0x5C, by decide⟩
  | lt => ⟨0x5D, by decide⟩
  | gt => ⟨0x5E, by decide⟩
  | le => ⟨0x5F, by decide⟩
  | ge => ⟨0x60, by decide⟩

/-- `op += WASM_OP_KIND_F64_EQ - WASM_OP_KIND_F32_EQ`. -/
def f64Op (c : Comparison) : BinaryOp :=
  ⟨c.f32Op.code + (0x61 - 0x5B), by cases c <;> decide⟩

end Comparison

/-- What an opcode compares, and how. -/
def comparisonOf (code : Nat) : Option (ValueType × Comparison) :=
  let all : List Comparison := [.eq, .ne, .lt, .gt, .le, .ge]
  ((all.find? (·.i32Op.code = code)).map (.int32, ·)).or <|
    ((all.find? (·.i64Op.code = code)).map (.int64, ·)).or <|
      ((all.find? (·.f32Op.code = code)).map (.float32, ·)).or <|
        (all.find? (·.f64Op.code = code)).map (.float64, ·)

def compareLiterals (c : Comparison) : ValueType → Literal → Literal → Option Bool
  | .int32, .i32 x, .i32 y => some (c.ofInts x y)
  | .int64, .i64 x, .i64 y => some (c.ofInts x y)
  | .float32, .f32 x, .f32 y => some (c.ofFloats (floatValue x) (floatValue y))
  | .float64, .f64 x, .f64 y => some (c.ofFloats (doubleValue x) (doubleValue y))
  | _, _, _ => none

section

variable (locals : BitVec 32 → Literal)

/-- A local, a constant, or a comparison of such. -/
def evalExpr : Expr → Option Literal
  | .getLocal index => some (locals index)
  | .const literal => some literal
  | .binaryOp op left right => do
    let (type, c) ← comparisonOf op.code
    let result ← compareLiterals c type (← evalExpr left) (← evalExpr right)
    return .i32 (if result then 1 else 0)
  | _ => none

/-- Where a sequence of branches goes. -/
def branchesTo : List Expr → Option Label
  | .br none breakTo :: _ => some breakTo
  | .br (some condition) breakTo :: exprs =>
    match evalExpr locals condition with
    | some (.i32 v) => if v = 0 then branchesTo exprs else some breakTo
    | _ => none
  | _ => none

end

/-! ### Lowering -/

/-- What the lowering of an instruction reads of `method_jit_ctx`. -/
structure LoweringCtx where
  /-- the place of the instruction -/
  currPc : Nat
  /-- the depth of the stack before it -/
  currSd : Nat
  /-- `type_at`, before the instruction -/
  typeAt : Nat → ValueType
  /-- `_get_stack_slot` -/
  stackSlot : Nat → ValueType → BitVec 32
  /-- `branch_target`; none is a failed `CHECK` or an `UNREACHABLE` -/
  branchTarget : Nat → Option BlockId

namespace LoweringCtx

variable (c : LoweringCtx)

def getStack (i : Nat) : Expr := .getLocal (c.stackSlot i (c.typeAt i))

def getStackAssert (i : Nat) (expected : ValueType) : Option Expr :=
  if c.typeAt i = expected then some (c.getStack i) else none

/-- The switch of `lower_branch`: the operation, and `lhs_zero`. -/
def branchOp : InsnCode → Option (Comparison × Bool)
  | .ifeq => some (.eq, true)
  | .ifAcmpeq | .ifIcmpeq => some (.eq, false)
  | .ifne => some (.ne, true)
  | .ifAcmpne | .ifIcmpne => some (.ne, false)
  | .iflt => some (.lt, true)
  | .ifIcmplt => some (.lt, false)
  | .ifge => some (.ge, true)
  | .ifIcmpge => some (.ge, false)
  | .ifgt => some (.gt, true)
  | .ifIcmpgt => some (.gt, false)
  | .ifle => some (.le, true)
  | .ifIcmple => some (.le, false)
  | _ => none

/-- `lower_branch`. -/
def lowerBranch (insn : BytecodeInsn) : Option (List Expr) :=
  if insn.kind = .goto then do
    let target ← c.branchTarget insn.index
    return [.br none (some target)]
  else do
    let (op, lhsZero) ← branchOp insn.kind
    let right ← c.getStackAssert (c.currSd - 1) .int32
    let left ← (if lhsZero then some (.const (.i32 0)) else c.getStackAssert (c.currSd - 2) .int32)
    let taken ← c.branchTarget insn.index
    let notTaken ← c.branchTarget (c.currPc + 1)
    return [.br (some (.binaryOp op.i32Op left right)) (some taken), .br none (some notTaken)]

/-- `fp_compare`. -/
def isFpCompare (kind : InsnCode) : Bool := kind ∈ [.fcmpg, .fcmpl, .dcmpg, .dcmpl]

/-- The branches that a comparison is fused with. -/
def zeroBranches : List InsnCode := [.iflt, .ifge, .ifgt, .ifle, .ifeq, .ifne]

/-- The table of `lower_fused_compare`: the operation, and whether the branches are flipped. -/
def fusedOp (branch : InsnCode) : Comparison × Bool :=
  let takenLt : Bool := branch ∈ [.iflt, .ifle, .ifeq]
  let takenEq : Bool := branch ∈ [.ifeq, .ifge, .ifle]
  let takenGt : Bool := branch ∈ [.ifgt, .ifge, .ifne]
  -- the kind of the branch is never that of a comparison
  let takenUnordered := if branch = .fcmpg ∨ branch = .dcmpg then takenGt else takenLt
  let swapped := if takenUnordered then (takenGt, takenLt) else (takenLt, takenGt)
  let op : Comparison :=
    if swapped.1 && takenEq then .le
    else if swapped.1 && !takenEq then .lt
    else if swapped.2 && takenEq then .ge
    else if swapped.2 && !takenEq then .gt
    else if takenEq then .eq
    else .ne
  (op, takenUnordered)

/-- `lower_fused_compare`; `branch` is the instruction behind. -/
def lowerFusedCompare (insn branch : BytecodeInsn) : Option (List Expr) := do
  if ¬ (isFpCompare insn.kind ∨ insn.kind = .lcmp) ∨ branch.kind ∉ zeroBranches then none
  let (op, takenUnordered) := fusedOp branch.kind
  let binaryOp :=
    if insn.kind = .dcmpg ∨ insn.kind = .dcmpl then op.f64Op
    else if isFpCompare insn.kind then op.f32Op
    else op.i64Op
  let cmp : Expr := .binaryOp binaryOp (c.getStack (c.currSd - 2)) (c.getStack (c.currSd - 1))
  let taken ← c.branchTarget insn.index
  let notTaken ← c.branchTarget (c.currPc + 2)
  return if takenUnordered then [.br (some cmp) (some notTaken), .br none (some taken)]
    else [.br (some cmp) (some taken), .br none (some notTaken)]

end LoweringCtx

/-! ### The interpreter -/

/-- What the handler of a branch goes by: the value in the register is the second one. -/
def branchCondition : InsnCode → Option (BitVec 32 → BitVec 32 → Bool)
  | .ifeq | .ifnull => some fun _ b => b == 0
  | .ifne | .ifnonnull => some fun _ b => b != 0
  | .iflt => some fun _ b => b.slt 0
  | .ifge => some fun _ b => (0#32).sle b
  | .ifgt => some fun _ b => (0#32).slt b
  | .ifle => some fun _ b => b.sle 0
  | .ifIcmpeq | .ifAcmpeq => some fun a b => a == b
  | .ifIcmpne | .ifAcmpne => some fun a b => a != b
  | .ifIcmplt => some fun a b => a.slt b
  | .ifIcmpge => some fun a b => b.sle a
  | .ifIcmpgt => some fun a b => b.slt a
  | .ifIcmple => some fun a b => a.sle b
  | _ => none

/-- The branches that look at one value only. -/
def comparesZero (kind : InsnCode) : Bool :=
  kind ∈ [.ifeq, .ifne, .iflt, .ifge, .ifgt, .ifle, .ifnull, .ifnonnull]

/-- What the handler of a comparison leaves in the register. -/
def compareResult : InsnCode → Literal → Literal → Option (BitVec 64)
  | .lcmp, .i64 a, .i64 b => some (lcmp a b)
  | .fcmpl, .f32 a, .f32 b => some (cmpl (floatValue a) (floatValue b))
  | .fcmpg, .f32 a, .f32 b => some (cmpg (floatValue a) (floatValue b))
  | .dcmpl, .f64 a, .f64 b => some (cmpl (doubleValue a) (doubleValue b))
  | .dcmpg, .f64 a, .f64 b => some (cmpg (doubleValue a) (doubleValue b))
  | _, _, _ => none

/-! ### Agreement -/

/-- A conditional branch on `a` and `b`, or on `b` only, in verified code: its operands are of their
type, and both places it may go to begin a block. -/
structure BranchReady (c : LoweringCtx) (locals : BitVec 32 → Literal) (insn : BytecodeInsn)
    (a b : BitVec 32) (cond : BitVec 32 → BitVec 32 → Bool) (taken notTaken : BlockId) :
    Prop where
  condition : branchCondition insn.kind = some cond
  top : c.typeAt (c.currSd - 1) = .int32 ∧
    locals (c.stackSlot (c.currSd - 1) .int32) = .i32 b
  below : comparesZero insn.kind = false → c.typeAt (c.currSd - 2) = .int32 ∧
    locals (c.stackSlot (c.currSd - 2) .int32) = .i32 a
  takenTarget : c.branchTarget insn.index = some taken
  notTakenTarget : c.branchTarget (c.currPc + 1) = some notTaken

/-- What is emitted goes where the interpreter goes. -/
def BranchAgrees (c : LoweringCtx) (locals : BitVec 32 → Literal) (insn : BytecodeInsn)
    (a b : BitVec 32) (cond : BitVec 32 → BitVec 32 → Bool) (taken notTaken : BlockId) : Prop :=
  ∃ exprs, c.lowerBranch insn = some exprs ∧
    branchesTo locals exprs = some (some (if cond a b then taken else notTaken))

/-- The operands stand the other way round in what is emitted for a comparison with zero, which only
an order tells; a comparison with null is not emitted. -/
def BranchSound (insn : BytecodeInsn) (b : BitVec 32) (taken notTaken : BlockId) : Prop :=
  insn.kind ∉ [.ifnull, .ifnonnull] ∧
    (insn.kind ∈ [.iflt, .ifge, .ifgt, .ifle] → b = 0 ∨ taken = notTaken)

/-- A comparison of `x` and `y` with the branch behind it, in verified code. -/
structure FusedReady (c : LoweringCtx) (locals : BitVec 32 → Literal) (insn branch : BytecodeInsn)
    (x y : Literal) (result : BitVec 64) (cond : BitVec 32 → BitVec 32 → Bool)
    (taken notTaken : BlockId) : Prop where
  compares : compareResult insn.kind x y = some result
  kind : branch.kind ∈ LoweringCtx.zeroBranches
  condition : branchCondition branch.kind = some cond
  below : locals (c.stackSlot (c.currSd - 2) (c.typeAt (c.currSd - 2))) = x
  top : locals (c.stackSlot (c.currSd - 1) (c.typeAt (c.currSd - 1))) = y
  takenTarget : c.branchTarget branch.index = some taken
  notTakenTarget : c.branchTarget (c.currPc + 2) = some notTaken

/-- What is emitted goes where the interpreter goes behind both instructions. -/
def FusedAgrees (c : LoweringCtx) (locals : BitVec 32 → Literal) (insn branch : BytecodeInsn)
    (result : BitVec 64) (cond : BitVec 32 → BitVec 32 → Bool) (taken notTaken : BlockId) : Prop :=
  ∃ exprs, c.lowerFusedCompare insn branch = some exprs ∧ branchesTo locals exprs =
    some (some (if cond 0 (StackValue.low result) then taken else notTaken))

/-- How two numbers compare. -/
inductive NumberOrder
  | lt | eq | gt | unordered
  deriving DecidableEq, Repr

def intOrder {w : Nat} (x y : BitVec w) : NumberOrder :=
  if x.slt y then .lt else if x = y then .eq else .gt

def floatOrder (x y : FloatValue) : NumberOrder :=
  if x.lt y then .lt else if x.eq y then .eq else if y.lt x then .gt else .unordered

def literalOrder : Literal → Literal → NumberOrder
  | .i32 x, .i32 y => intOrder x y
  | .i64 x, .i64 y => intOrder x y
  | .f32 x, .f32 y => floatOrder (floatValue x) (floatValue y)
  | .f64 x, .f64 y => floatOrder (doubleValue x) (doubleValue y)
  | _, _ => .unordered

/-- The branch behind a comparison is taken, as Java has it; `fcmpg` counts unordered numbers as
greater, `fcmpl` as less. -/
def branchTaken (insn branch : InsnCode) (order : NumberOrder) : Bool :=
  let order := if order = .unordered then if insn ∈ [.fcmpg, .dcmpg] then .gt else .lt else order
  match branch with
  | .iflt => order = .lt
  | .ifle => order ≠ .gt
  | .ifgt => order = .gt
  | .ifge => order ≠ .lt
  | .ifeq => order = .eq
  | _ => order ≠ .eq

/-- The emitted comparison decides the other way: `ifeq` and `ifne` have changed places in the table,
flipping the branches leaves equality on its side, and `fcmpg` counts as `fcmpl`. -/
def misjudged (insn branch : InsnCode) (order : NumberOrder) : Bool :=
  match branch with
  | .iflt | .ifle => order = .eq ∨ order = .unordered ∧ insn ∈ [.fcmpg, .dcmpg]
  | .ifge | .ifgt => order = .unordered ∧ insn ∈ [.fcmpg, .dcmpg]
  | .ifeq => order ≠ .gt
  | _ => order = .lt ∨ order = .unordered

/-- The target is that of the comparison, which has none of its own: its operand is zero.  Where it
is used it is that of the branch, and a misjudged branch goes to the same place on either side. -/
def FusedSound (c : LoweringCtx) (insn branch : BytecodeInsn) (x y : Literal)
    (taken notTaken : BlockId) : Prop :=
  ∃ target, c.branchTarget insn.index = some target ∧
    if branchTaken insn.kind branch.kind (literalOrder x y) then
      if misjudged insn.kind branch.kind (literalOrder x y) then taken = notTaken
      else target = taken
    else misjudged insn.kind branch.kind (literalOrder x y) → target = notTaken

end BJvm.DumbJit

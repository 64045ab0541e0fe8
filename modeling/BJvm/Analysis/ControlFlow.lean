import BJvm.Analysis.Blocks
import Mathlib.Logic.Relation

/-!
# Control flow without exceptions

Where each instruction passes control when it throws nothing, and what it means for blocks to be
the control-flow graph of a method.  `ret` returns behind some `jsr` of the method.
-/

namespace BJvm

/-- How an instruction passes control on. -/
inductive ControlFlow
  | next | goto | jsr | conditional | tableswitch | lookupswitch | stop | ret
  deriving DecidableEq, Repr

def InsnCode.controlFlow : InsnCode → ControlFlow
  | .goto => .goto
  | .jsr => .jsr
  | .ifAcmpeq | .ifAcmpne | .ifIcmpeq | .ifIcmpne | .ifIcmplt | .ifIcmpge | .ifIcmpgt | .ifIcmple
  | .ifeq | .ifne | .iflt | .ifge | .ifgt | .ifle | .ifnonnull | .ifnull => .conditional
  | .tableswitch => .tableswitch
  | .lookupswitch => .lookupswitch
  | .areturn | .dreturn | .freturn | .ireturn | .lreturn | .return_ | .athrow => .stop
  | .ret => .ret
  | _ => .next

/-- The cases in order, then the default. -/
def SwitchData.successors (d : SwitchData) : List Nat := d.targets ++ [d.defaultTarget]

/-- The instructions behind the `jsr`s of the code. -/
def returnSites (code : List BytecodeInsn) : List Nat :=
  code.zipIdx.flatMap fun p => if p.1.kind = .jsr then [p.2 + 1] else []

/-- Where the instruction at `i` can pass control, in the order that `basic_block` promises. -/
def successors (code : List BytecodeInsn) (i : Nat) : List Nat :=
  match code[i]? with
  | none => []
  | some insn =>
    (match insn.kind.controlFlow with
      | .next => [i + 1]
      | .goto | .jsr => [insn.index]
      | .conditional => [insn.index, i + 1]
      | .tableswitch => insn.tableswitch.successors
      | .lookupswitch => insn.lookupswitch.successors
      | .stop => []
      | .ret => returnSites code).filter (· < code.length)

/-- Control can come to the instruction at `i` from the entry. -/
def Reachable (code : List BytecodeInsn) (i : Nat) : Prop :=
  Relation.ReflTransGen (fun i j => j ∈ successors code i) 0 i

/-- The instructions that the operands name. -/
def BytecodeInsn.branchOperands (insn : BytecodeInsn) : List Nat :=
  match insn.kind.controlFlow with
  | .goto | .jsr | .conditional => [insn.index]
  | .tableswitch => insn.tableswitch.successors
  | .lookupswitch => insn.lookupswitch.successors
  | .next | .stop | .ret => []

/-- The operands name instructions of the code, as the parser checks. -/
def TargetsInCode (code : List BytecodeInsn) : Prop :=
  ∀ insn ∈ code, ∀ t ∈ insn.branchOperands, t < code.length

instance (code : List BytecodeInsn) : Decidable (TargetsInCode code) :=
  inferInstanceAs (Decidable (∀ insn ∈ code, ∀ t ∈ insn.branchOperands, t < code.length))

/-- The instruction at `i` belongs to the block. -/
def BasicBlock.Holds (b : BasicBlock) (i : Nat) : Prop :=
  b.startIndex ≤ i ∧ i < b.startIndex + b.insnCount

/-- The code branches to `t`, or it is behind a branch that may not be taken. -/
def IsTarget (code : List BytecodeInsn) (t : Nat) : Prop :=
  ∃ (k : Nat) (insn : BytecodeInsn), code[k]? = some insn ∧ t ∈ branchTargets insn k

/-- The instruction at `i` is one that `scan_basic_blocks` ends a block at and links as it
should. -/
def EndsWell (code : List BytecodeInsn) (i : Nat) (insn : BytecodeInsn) : Prop :=
  match insn.kind.controlFlow with
  | .next => True
  | .goto => i + 1 = code.length ∨ IsTarget code (i + 1)
  | .jsr => False
  | .conditional => i + 1 < code.length
  | .tableswitch => (i + 1 = code.length ∨ IsTarget code (i + 1)) ∧
      ∀ t ∈ insn.tableswitch.targets, t = insn.tableswitch.defaultTarget
  | .lookupswitch => (i + 1 = code.length ∨ IsTarget code (i + 1)) ∧
      ∀ t ∈ insn.lookupswitch.targets, t = insn.lookupswitch.defaultTarget
  | .stop => i + 1 = code.length
  | .ret => i + 1 = code.length ∧ returnSites code = []

end BJvm

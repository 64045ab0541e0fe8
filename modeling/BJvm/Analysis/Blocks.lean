import BJvm.Insn
import Mathlib.Data.List.Sort
import Mathlib.Logic.Function.Basic

/-!
# Basic blocks

`scan_basic_blocks` of `analysis.c`: the branch targets of a method, sorted and without
duplicates, start its blocks; edges follow the last instruction of each; and what the entry block
cannot reach is deleted.
-/

namespace BJvm

/-- `basic_block`. -/
structure BasicBlock where
  myIndex : Nat
  startIndex : Nat
  insnCount : Nat
  next : List Nat := []
  isBackedge : List Bool := []
  prev : List Nat := []
  dfsPre : Nat := 0
  dfsPost : Nat := 0
  idom : Nat := 0
  idominates : List Nat := []
  idomPre : Nat := 0
  idomPost : Nat := 0
  isLoopHeader : Bool := false
  nothrowAccessible : Bool := false
  deriving DecidableEq, Repr, Inhabited

/-- The part of `code_analysis` that the control-flow passes use. -/
structure Cfg where
  blocks : List BasicBlock
  dominatorTreeComputed : Bool := false
  deriving DecidableEq, Repr, Inhabited

/-- What the first loop of `scan_basic_blocks` records for the instruction at `i`. -/
def branchTargets (insn : BytecodeInsn) (i : Nat) : List Nat :=
  if insn.kind.isBranch then
    insn.index :: if insn.kind = .goto then [] else [i + 1]
  else if insn.kind = .tableswitch then
    insn.tableswitch.defaultTarget :: insn.tableswitch.targets
  else if insn.kind = .lookupswitch then
    insn.lookupswitch.defaultTarget :: insn.lookupswitch.targets
  else []

/-- The loop that removes the duplicates of the sorted targets. -/
def removeDups : List Nat → List Nat
  | [] => []
  | [a] => [a]
  | a :: b :: l => if a = b then removeDups (b :: l) else a :: removeDups (b :: l)

/-- The start of each block, in order: `ts` after sorting. -/
def blockStarts (code : List BytecodeInsn) : List Nat :=
  removeDups ((0 :: code.zipIdx.flatMap fun p => branchTargets p.1 p.2).insertionSort (· ≤ ·))

/-- The edges pushed for the `i`th block, whose last instruction is `last`; `bsearch` finds the
block of each target. -/
def blockEdges (ts : List Nat) (last : BytecodeInsn) (i : Nat) : List Nat :=
  let fallthrough := if i + 1 < ts.length then [i + 1] else []
  if last.kind.isBranch then
    ts.idxOf last.index :: if last.kind = .goto then [] else fallthrough
  else if last.kind = .tableswitch then
    ts.idxOf last.tableswitch.defaultTarget :: last.tableswitch.targets.map ts.idxOf
  else if last.kind = .lookupswitch then
    ts.idxOf last.lookupswitch.defaultTarget :: last.lookupswitch.targets.map ts.idxOf
  else fallthrough

/-- `dfs_nothrow_accessible`. -/
def dfsNothrowAccessible (next : Nat → List Nat) : Nat → Nat → (Nat → Bool) → Nat → Bool
  | 0, _, acc => acc
  | fuel + 1, i, acc =>
    if acc i then acc
    else (next i).foldl (fun acc j => dfsNothrowAccessible next fuel j acc)
      (Function.update acc i true)

/-- The predecessors of block `j`, in the order in which the last loop pushes them. -/
def prevEdges (next : List (List Nat)) (j : Nat) : List Nat :=
  next.zipIdx.flatMap fun p => (p.1.filter (· = j)).map fun _ => p.2

/-- The last loops of `scan_basic_blocks`: number the blocks, add the `prev` edges and allocate
the backedge flags. -/
def linkBlocks (bs : List BasicBlock) : List BasicBlock :=
  bs.zipIdx.map fun p =>
    { p.1 with
      myIndex := p.2
      prev := prevEdges (bs.map (·.next)) p.2
      isBackedge := p.1.next.map fun _ => false }

end BJvm

import BJvm.Proofs.Blocks
import BJvm.Proofs.Dominators
import Mathlib.Data.List.GetD
import Mathlib.Data.List.Nodup

/-!
# What `scan_basic_blocks` builds

The blocks that survive are those the entry block reaches over the edges pushed
(`scanBasicBlocks_spec`), and they form a linked graph.  They are the control-flow graph of the
method exactly when the method gives the scan nothing to get wrong (`isFlowGraph_iff`): it starts
no block behind a `goto` or a switch, gives a returning block an edge to the block behind it, puts
the default of a switch first, and takes `jsr` for a conditional branch.
-/

namespace BJvm

open Relation

variable {code : List BytecodeInsn} {insn : BytecodeInsn} {i k c t : Nat} {a : Cfg}

/-- The entry block reaches block `k` over the edges pushed. -/
def RawReach (code : List BytecodeInsn) (k : Nat) : Prop :=
  ReflTransGen (fun x y => y ∈ (rawBlock code x).next) 0 k

theorem RawReach.zero (code : List BytecodeInsn) : RawReach code 0 := .refl

theorem RawReach.lt (hT : TargetsInCode code) (hn : 0 < code.length) (h : RawReach code k) :
    k < (blockStarts code).length := by
  induction h with
  | refl => exact blockStarts_length
  | tail _ he ih => exact rawBlock_next_lt hT hn ih he

/-- The blocks that are not deleted. -/
def kept (code : List BytecodeInsn) : List Nat :=
  (List.range (blockStarts code).length).filter
    (dfsNothrowAccessible (fun i => (((List.range (blockStarts code).length).map
      (rawBlock code)).getD i default).next) ((blockStarts code).length + 1) 0 fun _ => false)

/-- The blocks of the result. -/
structure ScanResult (code : List BytecodeInsn) (a : Cfg) : Prop where
  length : a.blocks.length = (kept code).length
  block : ∀ j < a.blocks.length,
    (a.blocks.getD j default).startIndex = (blockStarts code).getD ((kept code).getD j 0) 0 ∧
    (a.blocks.getD j default).startIndex + (a.blocks.getD j default).insnCount =
      blockEnd code ((kept code).getD j 0) ∧
    (a.blocks.getD j default).next =
      (rawBlock code ((kept code).getD j 0)).next.map (kept code).idxOf

theorem ScanResult.holds_iff (h : ScanResult code a) {j : Nat} (hj : j < a.blocks.length) :
    (a.blocks.getD j default).Holds i ↔
      (blockStarts code).getD ((kept code).getD j 0) 0 ≤ i ∧
        i < blockEnd code ((kept code).getD j 0) := by
  rw [BasicBlock.Holds, (h.block j hj).2.1, (h.block j hj).1]

theorem successors_lt (h : t ∈ successors code i) : t < code.length := by
  rw [successors] at h
  split at h
  · simp at h
  · simpa using (List.mem_filter.mp h).2

theorem Reachable.lt (hn : 0 < code.length) (h : Reachable code i) : i < code.length := by
  rcases h.cases_tail with rfl | ⟨_, -, he⟩
  · exact hn
  · exact successors_lt he

end BJvm

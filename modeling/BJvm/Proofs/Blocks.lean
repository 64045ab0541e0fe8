import BJvm.Analysis.ControlFlow
import Mathlib.Data.Finset.Card

/-!
# The blocks before deletion

The starts of the blocks are the entry and the branch targets in increasing order
(`blockStarts_sorted`, `mem_blockStarts`), so every instruction lies between one start and the
next.  `dfs_nothrow_accessible` marks what the entry block reaches.
-/

namespace BJvm

open Relation

variable {code : List BytecodeInsn} {insn : BytecodeInsn} {n i k t : Nat}

/-! ### The range tests on opcodes -/

theorem branchTargets_eq (insn : BytecodeInsn) (i : Nat) : branchTargets insn i =
    match insn.kind.controlFlow with
    | .goto => [insn.index]
    | .jsr | .conditional => [insn.index, i + 1]
    | .tableswitch => insn.tableswitch.defaultTarget :: insn.tableswitch.targets
    | .lookupswitch => insn.lookupswitch.defaultTarget :: insn.lookupswitch.targets
    | .next | .stop | .ret => [] := by
  obtain ⟨kind⟩ := insn
  cases kind <;> rfl

theorem blockEdges_eq (ts : List Nat) (last : BytecodeInsn) (k : Nat) : blockEdges ts last k =
    match last.kind.controlFlow with
    | .goto => [ts.idxOf last.index]
    | .jsr | .conditional => ts.idxOf last.index :: if k + 1 < ts.length then [k + 1] else []
    | .tableswitch => (last.tableswitch.defaultTarget :: last.tableswitch.targets).map ts.idxOf
    | .lookupswitch => (last.lookupswitch.defaultTarget :: last.lookupswitch.targets).map ts.idxOf
    | .next | .stop | .ret => if k + 1 < ts.length then [k + 1] else [] := by
  obtain ⟨kind⟩ := last
  cases kind <;> rfl

theorem mem_branchTargets : t ∈ branchTargets insn i ↔ t ∈ insn.branchOperands ∨
    (insn.kind.controlFlow = .jsr ∨ insn.kind.controlFlow = .conditional) ∧ t = i + 1 := by
  rw [branchTargets_eq, BytecodeInsn.branchOperands]
  cases insn.kind.controlFlow <;> simp [SwitchData.successors, or_comm]

theorem mem_blockEdges {ts : List Nat} {c : Nat} (h : c ∈ blockEdges ts insn k) :
    (∃ t ∈ insn.branchOperands, ts.idxOf t = c) ∨ c = k + 1 ∧ k + 1 < ts.length := by
  rw [blockEdges_eq] at h
  rw [BytecodeInsn.branchOperands]
  cases hf : insn.kind.controlFlow <;> simp only [hf] at h ⊢ <;>
    simp [SwitchData.successors] at h ⊢ <;> grind

/-! ### Starts -/

theorem mem_removeDups : ∀ {l : List Nat}, t ∈ removeDups l ↔ t ∈ l
  | [] => by simp [removeDups]
  | [a] => by simp [removeDups]
  | a :: b :: l => by
    rw [removeDups]
    split_ifs with hab
    · rw [mem_removeDups, hab]
      simp
    · rw [List.mem_cons, mem_removeDups, List.mem_cons (a := t) (b := a)]

theorem removeDups_sorted : ∀ {l : List Nat}, l.Pairwise (· ≤ ·) → (removeDups l).Pairwise (· < ·)
  | [], _ => by simp [removeDups]
  | [a], _ => by simp [removeDups]
  | a :: b :: l, h => by
    rw [List.pairwise_cons] at h
    rw [removeDups]
    split_ifs with hab
    · exact removeDups_sorted h.2
    · refine List.pairwise_cons.mpr ⟨fun c hc => ?_, removeDups_sorted h.2⟩
      have hab' := h.1 b (by simp)
      rcases List.mem_cons.mp (mem_removeDups.mp hc) with rfl | hc
      · omega
      · have := (List.pairwise_cons.mp h.2).1 c hc
        omega

theorem mem_blockStarts : t ∈ blockStarts code ↔ t = 0 ∨ IsTarget code t := by
  rw [blockStarts, mem_removeDups, List.mem_insertionSort, List.mem_cons]
  refine or_congr_right ?_
  simp only [List.mem_flatMap, Prod.exists, List.mem_zipIdx_iff_getElem?]
  exact ⟨fun ⟨a, k, h⟩ => ⟨k, a, h⟩, fun ⟨k, a, h⟩ => ⟨a, k, h⟩⟩

theorem blockStarts_sorted (code : List BytecodeInsn) : (blockStarts code).Pairwise (· < ·) :=
  removeDups_sorted (List.pairwise_insertionSort _ _)

theorem blockStarts_lt {k k' : Nat} (hk : k < k') (hk' : k' < (blockStarts code).length) :
    (blockStarts code).getD k 0 < (blockStarts code).getD k' 0 := by
  have := List.pairwise_iff_getElem.mp (blockStarts_sorted code) k k' (by omega) hk' hk
  simpa [List.getD, hk', (by omega : k < (blockStarts code).length)] using this

theorem blockStarts_getD_mem (hk : k < (blockStarts code).length) :
    (blockStarts code).getD k 0 ∈ blockStarts code := by
  simp [List.getD, hk]

/-- `bsearch` finds the block that starts at a target. -/
theorem blockStarts_idxOf (ht : t ∈ blockStarts code) :
    (blockStarts code).idxOf t < (blockStarts code).length ∧
      (blockStarts code).getD ((blockStarts code).idxOf t) 0 = t := by
  have hlt := List.idxOf_lt_length_of_mem ht
  exact ⟨hlt, by simp [List.getD, hlt]⟩

theorem blockStarts_length : 0 < (blockStarts code).length :=
  List.length_pos_of_mem (mem_blockStarts.mpr (.inl rfl))

theorem blockStarts_zero : (blockStarts code).getD 0 0 = 0 := by
  have hmem : 0 ∈ blockStarts code := mem_blockStarts.mpr (.inl rfl)
  obtain ⟨hlt, hget⟩ := blockStarts_idxOf hmem
  rcases Nat.eq_zero_or_pos ((blockStarts code).idxOf 0) with h | h
  · rwa [h] at hget
  · exact absurd (blockStarts_lt h hlt) (by omega)

/-- The end of the `k`th block: the start of the next one, or the end of the code. -/
def blockEnd (code : List BytecodeInsn) (k : Nat) : Nat :=
  if k + 1 < (blockStarts code).length then (blockStarts code).getD (k + 1) 0 else code.length

theorem le_of_isTarget (hT : TargetsInCode code) (ht : IsTarget code t) : t ≤ code.length := by
  obtain ⟨k, insn, hk, ht⟩ := ht
  have hkn := (List.getElem?_eq_some_iff.mp hk).1
  rcases mem_branchTargets.mp ht with ht | ⟨-, rfl⟩
  · exact (hT insn (List.mem_of_getElem? hk) t ht).le
  · omega

theorem blockStarts_le (hT : TargetsInCode code) (hk : k < (blockStarts code).length) :
    (blockStarts code).getD k 0 ≤ code.length := by
  rcases mem_blockStarts.mp (blockStarts_getD_mem hk) with h | h
  · omega
  · exact le_of_isTarget hT h

theorem start_le_blockEnd (hT : TargetsInCode code) (hk : k < (blockStarts code).length) :
    (blockStarts code).getD k 0 ≤ blockEnd code k ∧ blockEnd code k ≤ code.length := by
  rw [blockEnd]
  split_ifs with h
  · exact ⟨(blockStarts_lt (Nat.lt_add_one k) h).le, blockStarts_le hT h⟩
  · exact ⟨blockStarts_le hT hk, le_rfl⟩

theorem blockEnd_le (hk : k < (blockStarts code).length) (ht : t ∈ blockStarts code)
    (hkt : (blockStarts code).getD k 0 < t) : blockEnd code k ≤ t := by
  obtain ⟨hlt, hget⟩ := blockStarts_idxOf ht
  rw [← hget] at hkt
  have hlt' : k < (blockStarts code).idxOf t := by
    rcases lt_trichotomy k ((blockStarts code).idxOf t) with h | h | h
    · exact h
    · rw [← h] at hkt
      omega
    · exact absurd (blockStarts_lt h hk) (by omega)
  rw [blockEnd, if_pos (by omega), ← hget]
  rcases eq_or_lt_of_le (Nat.succ_le_of_lt hlt') with h | h
  · rw [← h]
  · exact (blockStarts_lt h hlt).le

/-- Every instruction lies between the start and the end of some block. -/
theorem exists_block (hi : i < code.length) :
    ∃ k < (blockStarts code).length, (blockStarts code).getD k 0 ≤ i ∧ i < blockEnd code k := by
  -- the last block that starts no later than `i`
  let P : Nat → Prop := fun k => k < (blockStarts code).length ∧ (blockStarts code).getD k 0 ≤ i
  obtain ⟨hk, hle⟩ : P (Nat.findGreatest P (blockStarts code).length) :=
    Nat.findGreatest_spec (Nat.zero_le _) ⟨blockStarts_length, by rw [blockStarts_zero]; omega⟩
  refine ⟨_, hk, hle, ?_⟩
  rw [blockEnd]
  split_ifs with h
  · by_contra hge
    exact Nat.findGreatest_is_greatest (P := P) (Nat.lt_succ_self _) (by omega)
      ⟨h, not_lt.mp hge⟩
  · exact hi

theorem block_unique {k' : Nat} (hk : k < (blockStarts code).length)
    (hk' : k' < (blockStarts code).length) (h1 : (blockStarts code).getD k 0 ≤ i)
    (h2 : i < blockEnd code k) (h1' : (blockStarts code).getD k' 0 ≤ i)
    (h2' : i < blockEnd code k') : k = k' := by
  rcases lt_trichotomy k k' with h | h | h
  · have := blockEnd_le hk (blockStarts_getD_mem hk') (blockStarts_lt h hk')
    omega
  · exact h
  · have := blockEnd_le hk' (blockStarts_getD_mem hk) (blockStarts_lt h hk)
    omega

/-! ### The blocks as they are made -/

/-- The `k`th block before deletion. -/
def rawBlock (code : List BytecodeInsn) (k : Nat) : BasicBlock :=
  { myIndex := k
    startIndex := (blockStarts code).getD k 0
    insnCount := blockEnd code k - (blockStarts code).getD k 0
    next := blockEdges (blockStarts code) (code.getD (blockEnd code k - 1) default) k }

theorem blockEnd_pos (hn : 0 < code.length) : 0 < blockEnd code k := by
  rw [blockEnd]
  split_ifs with h
  · have := blockStarts_lt (by omega : 0 < k + 1) h
    omega
  · exact hn

theorem getElem?_blockEnd (hT : TargetsInCode code) (hn : 0 < code.length)
    (hk : k < (blockStarts code).length) :
    code[blockEnd code k - 1]? = some (code.getD (blockEnd code k - 1) default) := by
  have := (start_le_blockEnd hT hk).2
  have := blockEnd_pos (k := k) hn
  rw [List.getD, List.getElem?_eq_getElem (by omega)]
  rfl

/-- The edges of the `k`th block lead to blocks. -/
theorem rawBlock_next_lt (hT : TargetsInCode code) (hn : 0 < code.length)
    (hk : k < (blockStarts code).length) {c : Nat} (hc : c ∈ (rawBlock code k).next) :
    c < (blockStarts code).length := by
  rcases mem_blockEdges hc with ⟨t, ht, rfl⟩ | ⟨rfl, hlt⟩
  · exact (blockStarts_idxOf (mem_blockStarts.mpr (.inr ⟨_, _, getElem?_blockEnd hT hn hk,
      mem_branchTargets.mpr (.inl ht)⟩))).1
  · exact hlt

/-! ### Deletion -/

/-- The number of blocks not marked yet. -/
def unmarked (n : Nat) (acc : Nat → Bool) : Nat := ((Finset.range n).filter (acc · = false)).card

section

variable {next : Nat → List Nat}

/-- The marks of `acc'` extend those of `acc` by blocks that `i` reaches, and follow every edge
out of a block marked in between, but for `but`. -/
structure Marks (next : Nat → List Nat) (i : Nat) (but : Nat → Prop) (acc acc' : Nat → Bool) :
    Prop where
  mono : ∀ x, acc x = true → acc' x = true
  sound : ∀ x, acc' x = true → acc x = true ∨ ReflTransGen (fun x y => y ∈ next x) i x
  closed : ∀ x, acc' x = true → acc x = false → ¬ but x → ∀ y ∈ next x, acc' y = true

end

end BJvm

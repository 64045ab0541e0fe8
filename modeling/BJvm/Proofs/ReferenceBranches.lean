import BJvm.Interpreter.ReferenceBranches
import BJvm.Proofs.Resumption

/-!
# Branches on references

The comparisons of two references compare whole words.  Those with null come from the macro of the
comparisons of an `int` with zero, and so look at the lower half only.
-/

namespace BJvm.Interpreter

open StackValue

variable {W : Type} {vm : Vm W} {fm : FrameMethod} {m : Machine W} {reg : BitVec 64}
  {b : ReferenceBranch}

namespace ReferenceBranch

/-- What the handler goes by. -/
def compares (m : Machine W) (reg : BitVec 64) : ReferenceBranch → Bool
  | ifnull => low reg == 0
  | ifnonnull => low reg != 0
  | ifAcmpeq => m.stack (m.sp - 2) == reg
  | ifAcmpne => m.stack (m.sp - 2) != reg

def pops : ReferenceBranch → Nat
  | ifnull | ifnonnull => 1
  | ifAcmpeq | ifAcmpne => 2

end ReferenceBranch

theorem dispatch_referenceBranch (h : m.insn.code = .parsed b.code) (tos : Tos) :
    dispatch vm fm m tos = match tos with
      | .int reg => some (branchIf (b.compares · ·) b.pops m reg)
      | _ => none := by
  cases b <;> cases tos <;> simp only [dispatch, h] <;> rfl

theorem jumpBy_sizeof : (m.jumpBy sizeofBytecodeInsn).pc = m.pc + 1 := by
  simp only [Machine.jumpBy, sizeofBytecodeInsn]
  omega

theorem branchIf_pc (cond : Machine W → BitVec 64 → Bool) (pops : Nat) (fuel : BitVec 32) :
    (branchIf cond pops { m with fuel } reg).pc? = if fuel = 0 then none
      else some (if cond { m with fuel := fuel - 1 } reg then m.branchTarget else m.pc + 1) := by
  rw [branchIf, takeFuel]
  split_ifs with hfuel hcond
  · rfl
  · rfl
  · exact congrArg some jumpBy_sizeof

theorem low_eq_zero_iff (h : low reg = 0 → reg = 0) : low reg = 0 ↔ reg = 0 :=
  ⟨h, fun h0 => by rw [h0]; rfl⟩

theorem compares_eq_taken (hhalf : b = .ifnull ∨ b = .ifnonnull → (low reg = 0 → reg = 0)) :
    b.compares m reg = b.taken m reg := by
  cases b with
  | ifnull =>
    rw [ReferenceBranch.compares, ReferenceBranch.taken, beq_eq_decide, beq_eq_decide]
    exact decide_eq_decide.2 (low_eq_zero_iff (hhalf (.inl rfl)))
  | ifnonnull =>
    rw [ReferenceBranch.compares, ReferenceBranch.taken, bne, bne, beq_eq_decide, beq_eq_decide,
      decide_eq_decide.2 (low_eq_zero_iff (hhalf (.inr rfl)))]
  | ifAcmpeq | ifAcmpne => rfl

/-- A reference that is not null, but whose lower half is zero. -/
theorem compares_ne_taken (hb : b = .ifnull ∨ b = .ifnonnull) (hlow : low reg = 0)
    (hreg : reg ≠ 0) : b.compares m reg = !b.taken m reg := by
  have hne : ¬ reg = 0#64 := hreg
  rcases hb with rfl | rfl <;> simp [ReferenceBranch.compares, ReferenceBranch.taken, hlow, hne]

theorem follows_iff_pc (h : m.insn.code = .parsed b.code) : b.Follows vm fm m reg ↔
    (if b.compares m reg then m.branchTarget else m.pc + 1) =
      if b.taken m reg then m.branchTarget else m.pc + 1 := by
  have hdispatch : ∀ (fuel : BitVec 32) (tos : Tos), dispatch vm fm { m with fuel } tos = match tos with
      | .int reg => some (branchIf (b.compares · ·) b.pops { m with fuel } reg)
      | _ => none := fun fuel tos => dispatch_referenceBranch (m := { m with fuel }) h tos
  have hsame : ∀ fuel, b.compares { m with fuel } reg = b.compares m reg := fun fuel => by
    cases b <;> rfl
  constructor
  · rintro ⟨hgoes, -⟩
    obtain ⟨next, hnext, hpc⟩ := hgoes 1
    have hfuel : (1 : BitVec 32) ≠ 0 := by decide
    rw [hdispatch, Option.some.injEq] at hnext
    rw [← hnext, branchIf_pc, if_neg hfuel, if_neg hfuel, Option.some.injEq, hsame] at hpc
    exact hpc
  · intro hpc
    refine ⟨fun fuel => ⟨_, hdispatch fuel (.int reg), ?_⟩, fun fuel tos next hnext => ?_⟩
    · rw [branchIf_pc, hsame, hpc]
    · rw [hdispatch] at hnext
      cases tos with
      | int reg => exact ⟨reg, rfl⟩
      | _ => cases hnext

/-- The branches follow the reference if and only if its lower half decides. -/
theorem follows_iff (h : m.insn.code = .parsed b.code) :
    b.Follows vm fm m reg ↔ b.HalfDecides m reg := by
  rw [follows_iff_pc h]
  by_cases hhalf : b = .ifnull ∨ b = .ifnonnull → (low reg = 0 → reg = 0)
  · exact iff_of_true (by rw [compares_eq_taken hhalf]) fun hb => .inl (hhalf hb)
  · simp only [not_forall] at hhalf
    obtain ⟨hb, hlow, hreg⟩ := hhalf
    have htarget : b.HalfDecides m reg ↔ m.branchTarget = m.pc + 1 :=
      ⟨fun h => (h hb).resolve_left fun hall => hreg (hall hlow), fun h _ => .inr h⟩
    rw [htarget, compares_ne_taken hb hlow hreg]
    cases b.taken m reg
    · exact Iff.rfl
    · exact eq_comm

/-- A method that branches two instructions on if a reference is null. -/
def nullBranching : Machine Unit :=
  { heap := ⟨(), fun _ => 0, fun _ => { kind := .ifnull, delta := 64 }⟩, locals := fun _ => 0,
    stack := fun _ => 0, programCounter := 0, pc := 0, sp := 1, fuel := 1 }

/-- 4294967297 has a lower half of one, and decides. -/
theorem follows_iff_nullBranching : ReferenceBranch.ifnull.Follows zeroVm storingMethod nullBranching
    0x100000001 ↔ ReferenceBranch.ifnull.HalfDecides nullBranching 0x100000001 :=
  follows_iff rfl

/-- 4294967296 is taken for null. -/
theorem not_follows_nullBranching :
    ¬ ReferenceBranch.ifnull.Follows zeroVm storingMethod nullBranching 0x100000000 := by
  rw [follows_iff_pc rfl]
  decide

end BJvm.Interpreter

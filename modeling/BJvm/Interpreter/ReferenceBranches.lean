import BJvm.Interpreter.JumpTables

/-!
# Branches on references

The four instructions that compare references, as the JVM specification has them: a reference is a
whole word.
-/

namespace BJvm.Interpreter

open StackValue

variable {W : Type} (vm : Vm W) (fm : FrameMethod)

inductive ReferenceBranch
  | ifnull | ifnonnull | ifAcmpeq | ifAcmpne
  deriving DecidableEq, Repr

namespace ReferenceBranch

def code : ReferenceBranch → InsnCode
  | ifnull => .ifnull
  | ifnonnull => .ifnonnull
  | ifAcmpeq => .ifAcmpeq
  | ifAcmpne => .ifAcmpne

/-- The branch is taken.  One operand is in the register; of two, the first is below it. -/
def taken (m : Machine W) (reg : BitVec 64) : ReferenceBranch → Bool
  | ifnull => reg == 0
  | ifnonnull => reg != 0
  | ifAcmpeq => m.stack (m.sp - 2) == reg
  | ifAcmpne => m.stack (m.sp - 2) != reg

end ReferenceBranch

/-- Where a handler that ends in another goes. -/
def Next.pc? : Next W → Option Nat
  | .jump m _ => some m.pc
  | _ => none

/-- The instruction to which the current one branches. -/
def Machine.branchTarget (m : Machine W) : Nat := (m.jumpBy m.insn.delta).pc

/-- In the table of the register control goes to the target if the branch is taken, and to the next
instruction otherwise; only without fuel it goes nowhere yet.  No other table has a handler. -/
structure ReferenceBranch.Follows (b : ReferenceBranch) (m : Machine W) (reg : BitVec 64) :
    Prop where
  goes : ∀ fuel, ∃ next, dispatch vm fm { m with fuel } (.int reg) = some next ∧ next.pc? =
    if fuel = 0 then none else some (if b.taken m reg then m.branchTarget else m.pc + 1)
  only : ∀ fuel tos next, dispatch vm fm { m with fuel } tos = some next → ∃ reg, tos = .int reg

/-- The lower half of the reference decides for all of it, or there is nothing to decide. -/
def ReferenceBranch.HalfDecides (b : ReferenceBranch) (m : Machine W) (reg : BitVec 64) : Prop :=
  b = ifnull ∨ b = ifnonnull → (low reg = 0 → reg = 0) ∨ m.branchTarget = m.pc + 1

end BJvm.Interpreter

import BJvm.Analysis.Analyzer
import Mathlib.Algebra.Order.Ring.Nat

/-!
# The forms of the stack instructions

What the JVM specification lets the instructions do that rearrange the operand stack, by the
categories of the values on it, next to what `analyze_instruction` makes of them.  Stacks have their
top first, and a value of category 2 takes one entry.
-/

namespace BJvm

/-- The computational types, of which the entries of an operand stack are. -/
inductive ComputationalType
  | int | float | reference | long | double
  deriving DecidableEq, Repr

namespace ComputationalType

def kind : ComputationalType → TypeKind
  | int => .int
  | float => .float
  | reference => .reference
  | long => .long
  | double => .double

/-- It is of category 2. -/
def Wide (c : ComputationalType) : Prop := c.kind.isWide = true

instance : DecidablePred Wide := fun c => inferInstanceAs (Decidable (c.kind.isWide = true))

/-- The depth that a value adds to the stack. -/
def depth (c : ComputationalType) : Nat := if c.Wide then 2 else 1

end ComputationalType

/-- What the kinds of a stack are. -/
def kindsOf (s : List ComputationalType) : List TypeKind := s.map ComputationalType.kind

/-- The depth of a stack. -/
def stackDepth (s : List ComputationalType) : Nat := (s.map ComputationalType.depth).sum

/-- An operand stack as the analysis holds it, in a buffer with one entry more than `max_stack`. -/
structure AbstractStack (maxStack : Nat) where
  entries : List ComputationalType
  length_le : entries.length ≤ maxStack + 1

/-- The instructions that copy values. -/
def dupKinds : List InsnCode := [.dup, .dupX1, .dupX2, .dup2, .dup2X1, .dup2X2]

/-- The forms of the specification: an instruction, the stack before it and the stack behind. -/
inductive JvmsForm : InsnCode → List ComputationalType → List ComputationalType → Prop
  | dup {a s} (ha : ¬a.Wide) : JvmsForm .dup (a :: s) (a :: a :: s)
  | dupX1 {a b s} (ha : ¬a.Wide) (hb : ¬b.Wide) :
      JvmsForm .dupX1 (a :: b :: s) (a :: b :: a :: s)
  | dupX2Form1 {a b c s} (ha : ¬a.Wide) (hb : ¬b.Wide) (hc : ¬c.Wide) :
      JvmsForm .dupX2 (a :: b :: c :: s) (a :: b :: c :: a :: s)
  | dupX2Form2 {a b s} (ha : ¬a.Wide) (hb : b.Wide) :
      JvmsForm .dupX2 (a :: b :: s) (a :: b :: a :: s)
  | dup2Form1 {a b s} (ha : ¬a.Wide) (hb : ¬b.Wide) :
      JvmsForm .dup2 (a :: b :: s) (a :: b :: a :: b :: s)
  | dup2Form2 {a s} (ha : a.Wide) : JvmsForm .dup2 (a :: s) (a :: a :: s)
  | dup2X1Form1 {a b c s} (ha : ¬a.Wide) (hb : ¬b.Wide) (hc : ¬c.Wide) :
      JvmsForm .dup2X1 (a :: b :: c :: s) (a :: b :: c :: a :: b :: s)
  | dup2X1Form2 {a b s} (ha : a.Wide) (hb : ¬b.Wide) :
      JvmsForm .dup2X1 (a :: b :: s) (a :: b :: a :: s)
  | dup2X2Form1 {a b c d s} (ha : ¬a.Wide) (hb : ¬b.Wide) (hc : ¬c.Wide) (hd : ¬d.Wide) :
      JvmsForm .dup2X2 (a :: b :: c :: d :: s) (a :: b :: c :: d :: a :: b :: s)
  | dup2X2Form2 {a b c s} (ha : a.Wide) (hb : ¬b.Wide) (hc : ¬c.Wide) :
      JvmsForm .dup2X2 (a :: b :: c :: s) (a :: b :: c :: a :: s)
  | dup2X2Form3 {a b c s} (ha : ¬a.Wide) (hb : ¬b.Wide) (hc : c.Wide) :
      JvmsForm .dup2X2 (a :: b :: c :: s) (a :: b :: c :: a :: b :: s)
  | dup2X2Form4 {a b s} (ha : a.Wide) (hb : b.Wide) :
      JvmsForm .dup2X2 (a :: b :: s) (a :: b :: a :: s)
  | pop {a s} (ha : ¬a.Wide) : JvmsForm .pop (a :: s) s
  | pop2Form1 {a b s} (ha : ¬a.Wide) (hb : ¬b.Wide) : JvmsForm .pop2 (a :: b :: s) s
  | pop2Form2 {a s} (ha : a.Wide) : JvmsForm .pop2 (a :: s) s
  | swap {a b s} (ha : ¬a.Wide) (hb : ¬b.Wide) : JvmsForm .swap (a :: b :: s) (b :: a :: s)

/-- The stack behind an instruction that the specification allows: a copy has to leave room. -/
def JvmsAllows (maxStack : Nat) (kind : InsnCode) (s s' : List ComputationalType) : Prop :=
  JvmsForm kind s s' ∧ (kind ∈ dupKinds → stackDepth s' ≤ maxStack)

/-- The shapes that no form has, but that the analysis takes for one. -/
inductive HalfCopy : InsnCode → List ComputationalType → Prop
  | dup {a s} (ha : a.Wide) : HalfCopy .dup (a :: s)
  | dupX2 {a b c s} (ha : ¬a.Wide) (hb : ¬b.Wide) (hc : c.Wide) :
      HalfCopy .dupX2 (a :: b :: c :: s)
  | dup2X1Wide {a b s} (ha : a.Wide) (hb : b.Wide) : HalfCopy .dup2X1 (a :: b :: s)
  | dup2X1Narrow {a b c s} (ha : ¬a.Wide) (hb : b.Wide) (hc : ¬c.Wide) :
      HalfCopy .dup2X1 (a :: b :: c :: s)
  | dup2X2Wide {a b c s} (ha : ¬a.Wide) (hb : b.Wide) (hc : c.Wide) :
      HalfCopy .dup2X2 (a :: b :: c :: s)
  | dup2X2Narrow {a b c d s} (ha : ¬a.Wide) (hb : b.Wide) (hc : ¬c.Wide) (hd : ¬d.Wide) :
      HalfCopy .dup2X2 (a :: b :: c :: d :: s)

/-- The entries that a copy adds. -/
def copiedEntries : InsnCode → List ComputationalType → Nat
  | .dup2, a :: _ | .dup2X1, a :: _ | .dup2X2, a :: _ => if a.Wide then 1 else 2
  | _, _ => 1

/-- An instruction is analyzed as the specification has it: what it allows leaves the right stack,
and what it does not is an error. -/
structure AnalyzedAsJvms (env : AnalysisEnv) (doRewrite : Bool) (i : Nat) (insn : BytecodeInsn)
    (ctx : AnalysisCtx) (s : List ComputationalType) : Prop where
  accepted : ∀ s', JvmsAllows env.code.maxStack insn.kind s s' → ∃ insn' ctx',
    analyzeInstruction env doRewrite i insn { ctx with stack := kindsOf s } = .ok (insn', ctx', false)
      ∧ ctx'.stack = kindsOf s'
  rejected : (¬∃ s', JvmsAllows env.code.maxStack insn.kind s s') → ∃ msg,
    analyzeInstruction env doRewrite i insn { ctx with stack := kindsOf s } = .error (.error msg)

end BJvm

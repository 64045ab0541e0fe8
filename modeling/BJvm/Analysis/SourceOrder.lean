import BJvm.Analysis.NpeMessage
import Mathlib.Logic.Relation

/-!
# Following the sources of a message

`extended_npe_phase2` calls itself for the sources of the instruction that a source names.
-/

namespace BJvm

/-- The source is not an instruction from `i` on. -/
def VariableSource.Before (i : Nat) (source : VariableSource) : Prop :=
  ∀ j, source = .insn j → j < i

/-- Both sources recorded for an instruction. -/
def StackVariableSources.Before (i : Nat) (sources : StackVariableSources) : Prop :=
  sources.a.Before i ∧ sources.b.Before i

/-- A source recorded at `i` is the instruction at `j`. -/
def NpeContext.Follows (c : NpeContext) (i j : Nat) : Prop :=
  (c.sources.getD i default).a = .insn j ∨ (c.sources.getD i default).b = .insn j

/-- Following the sources never comes back, and the text for every source is made. -/
structure NpeContext.Terminates (c : NpeContext) : Prop where
  acyclic : ∀ i, ¬ Relation.TransGen c.Follows i i
  phase2 : ∀ i source isFirst,
    source = (c.sources.getD i default).a ∨ source = (c.sources.getD i default).b →
      ∃ fuel, ∀ fuel' ≥ fuel, (extendedNpePhase2 c fuel' source i isFirst).isSome
  message : ∀ pc, ∃ fuel, ∀ fuel' ≥ fuel, (getExtendedNpeMessage c fuel' pc).isSome

/-- The method has a `StackMapTable` where the flag says so. -/
def CpMethod.SmtAgrees (m : CpMethod) : Prop := m.missingSmt = true → m.code.stackMapTable = none

end BJvm

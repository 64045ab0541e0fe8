import BJvm.Analysis.AnalysisCalls
import BJvm.Proofs.Swizzle

/-!
# Failed analyses

A call of `analyze_method_code` that fails before the passes leaves no message, and behind a bad
index it frees an iterator that it has not set up.  One that fails in a pass leaves `code_analysis`
set, so every later call succeeds.
-/

namespace BJvm

variable {fuel : Nat} {left : List BytecodeInsn} {cell : MethodCell} {call later : AnalysisCall}

/-! ### The `LocalVariableTable` -/

/-- The table is renumbered to the end if all of its indices are valid. -/
theorem swizzleTable_valid {maxLocals : Nat} {swizzle : List Nat} : ∀ {table : List Nat},
    (∃ index ∈ table, maxLocals ≤ index) → (swizzleTable maxLocals swizzle table).1 = false
  | index :: table, h => by
    rw [swizzleTable]
    split_ifs with hindex
    · rfl
    · refine swizzleTable_valid ?_
      obtain ⟨index', hmem, hle⟩ := h
      rcases List.mem_cons.1 hmem with rfl | hmem
      · exact absurd hle hindex
      · exact ⟨index', hmem, hle⟩

/-- An index that is not valid stays in the table. -/
theorem swizzleTable_invalid {maxLocals : Nat} {swizzle : List Nat} : ∀ {table : List Nat},
    (swizzleTable maxLocals swizzle table).1 = false →
    ∃ index ∈ (swizzleTable maxLocals swizzle table).2, maxLocals ≤ index
  | index :: table, h => by
    rw [swizzleTable] at h ⊢
    split_ifs at h ⊢ with hindex
    · exact ⟨index, List.mem_cons_self, hindex⟩
    · obtain ⟨index', hmem, hle⟩ := swizzleTable_invalid h
      exact ⟨index', List.mem_cons_of_mem _ hmem, hle⟩

/-! ### Failures -/

/-- The method has no message for what is wrong with it: its arguments take more locals than it has,
or its `LocalVariableTable` has an index that is not valid. -/
structure MethodCell.Unfit (cell : MethodCell) : Prop where
  unset : cell.codeAnalysis = .null
  unfit : localsOnMethodEntry cell.method = none ∨
    ∃ index ∈ cell.method.code.localVariableTable, cell.method.code.maxLocals ≤ index

/-- How a call that fails can end. -/
inductive FailedCall : AnalysisCall → Prop
  | early {initialized freed : List AnalysisResource} {cell : MethodCell} (h : cell.Unfit) :
      FailedCall { status := -1, initialized, freed, cell }
  | pass {initialized freed : List AnalysisResource} {cell : MethodCell} (msg : String)
      (h : cell.codeAnalysis = .started) :
      FailedCall { status := -1, error := some msg, initialized, freed, cell }

theorem analyze_failed (h : cell.analyze fuel left = some call) (hfail : call.status = -1) :
    FailedCall call := by
  obtain ⟨m, codeAnalysis⟩ := cell
  rw [MethodCell.analyze] at h
  dsimp only at h
  rcases codeAnalysis with _ | _ | analysis
  · dsimp only at h
    rcases hentry : localsOnMethodEntry m with _ | ⟨locals, swizzle⟩
    · rw [hentry] at h
      cases h
      exact .early ⟨rfl, .inl hentry⟩
    rw [hentry] at h
    dsimp only at h
    split_ifs at h with hvalid
    · cases h
      exact .early ⟨rfl, .inr (swizzleTable_invalid hvalid)⟩
    · rcases hpass : analyzeMethodCode fuel m with (msg | _) | (_ | analysis) <;> rw [hpass] at h
      · cases h
        exact .pass msg rfl
      · cases h
      · cases h
      · cases h
        cases hfail
  · cases h
    cases hfail
  · cases h
    cases hfail

/-- A method that is not fit fails in the same place again. -/
theorem MethodCell.Unfit.analyze (hunfit : cell.Unfit)
    (h : cell.analyze fuel left = some call) : call.status = -1 ∧ call.cell.Unfit := by
  obtain ⟨m, codeAnalysis⟩ := cell
  obtain ⟨hnull, hunfit⟩ := hunfit
  dsimp only at hnull hunfit
  subst hnull
  rw [MethodCell.analyze] at h
  dsimp only at h
  rcases hentry : localsOnMethodEntry m with _ | ⟨locals, swizzle⟩
  · rw [hentry] at h
    cases h
    exact ⟨rfl, rfl, .inl hentry⟩
  · have hinvalid := @swizzleTable_valid _ swizzle _ (hunfit.resolve_left (by simp [hentry]))
    rw [hentry] at h
    dsimp only at h
    rw [if_pos hinvalid] at h
    cases h
    exact ⟨rfl, rfl, .inr (swizzleTable_invalid hinvalid)⟩

theorem LaterCall.of_unfit (h : LaterCall cell later) (hunfit : cell.Unfit) :
    later.status = -1 ∧ later.cell.Unfit := by
  induction h with
  | first h => exact hunfit.analyze h
  | next _ h' ih => exact (ih hunfit).2.analyze h'

theorem analyze_of_set (hset : cell.codeAnalysis ≠ .null) :
    cell.analyze fuel left = some { status := 0, cell } := by
  obtain ⟨m, codeAnalysis⟩ := cell
  rcases codeAnalysis with _ | _ | analysis
  · exact (hset rfl).elim
  · rfl
  · rfl

/-- The failures that later calls repeat are the ones without a message. -/
theorem failed_again_iff (h : cell.analyze fuel left = some call) (hfail : call.status = -1) :
    (∀ later, LaterCall call.cell later → later.status = -1) ↔ call.error = none := by
  rcases analyze_failed h hfail with ⟨hunfit⟩ | ⟨msg, hstarted⟩
  · exact ⟨fun _ => rfl, fun _ later hlater => (hlater.of_unfit hunfit).1⟩
  · constructor
    · intro hagain
      have hset := @analyze_of_set 0 [] _ (by rw [hstarted]; simp)
      have hstatus := hagain _ (.first hset)
      cases hstatus
    · rintro ⟨⟩

/-- No call of `analyze_method_code` fails cleanly. -/
theorem not_failsCleanly (fuel : Nat) (left : List BytecodeInsn) (cell : MethodCell)
    (call : AnalysisCall) (h : cell.analyze fuel left = some call) (hfail : call.status = -1) :
    ¬call.FailsCleanly := by
  intro hclean
  obtain ⟨msg, hmsg⟩ := hclean.message
  rw [(failed_again_iff h hfail).1 hclean.again] at hmsg
  cases hmsg

/-! ### A pop too many -/

/-- A static method that pops from an empty stack. -/
def poppingMethod : CpMethod where
  isStatic := true
  descriptor := { args := [], returnType := { baseKind := .void } }
  code := { maxStack := 0, maxLocals := 0, code := [{ kind := .pop }, { kind := .return_ }] }

/-- What the first call leaves of it. -/
def poppingCall : AnalysisCall where
  status := -1
  error := some "Stack underflow:"
  initialized := passResources poppingMethod
  freed := invalFrees poppingMethod
  cell := { method := poppingMethod, codeAnalysis := .started }

theorem analyze_poppingMethod :
    MethodCell.analyze 1 poppingMethod.code.code { method := poppingMethod } = some poppingCall :=
  rfl

theorem not_failsCleanly_poppingCall : ¬poppingCall.FailsCleanly :=
  not_failsCleanly 1 poppingMethod.code.code { method := poppingMethod } poppingCall
    analyze_poppingMethod rfl

/-- The next call takes it for analyzed. -/
theorem poppingMethod_counterexample :
    MethodCell.analyze 1 poppingMethod.code.code { method := poppingMethod } = some poppingCall ∧
      poppingCall.status = -1 ∧ ¬poppingCall.FailsCleanly ∧
      MethodCell.analyze 1 poppingMethod.code.code poppingCall.cell
        = some { status := 0, cell := poppingCall.cell } := by
  refine ⟨analyze_poppingMethod, rfl, ?_, rfl⟩
  intro hclean
  have hset := hclean.unpublished
  cases hset

end BJvm

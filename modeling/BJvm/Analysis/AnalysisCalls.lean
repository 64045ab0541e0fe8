import BJvm.Analysis.MethodAnalysis

/-!
# Calls of `analyze_method_code`

What a call leaves behind however it ends: the status, the message, what it has set up and what it
frees, and the method with its `code_analysis`, at which the next call looks first.
-/

namespace BJvm

/-- What the code behind `inval` frees, or goes through to free. -/
inductive AnalysisResource
  | iterator | stackEntries | localsEntries | localsSwizzle | knownStacks | knownLocals | edges
  deriving DecidableEq, Repr

/-- `method->code_analysis`.  It is set before the passes begin. -/
inductive CodeAnalysisField
  | null
  | started
  | finished (analysis : MethodAnalysis)
  deriving DecidableEq, Repr

/-- A method between calls. -/
structure MethodCell where
  method : CpMethod
  codeAnalysis : CodeAnalysisField := .null
  deriving DecidableEq, Repr

/-- A call that has returned. -/
structure AnalysisCall where
  status : Int
  /-- What is written to `*error`. -/
  error : Option String := none
  initialized : List AnalysisResource := []
  freed : List AnalysisResource := []
  cell : MethodCell
  deriving DecidableEq, Repr

/-- The loop over the `LocalVariableTable`, which renumbers the indices up to the first that is
not valid. -/
def swizzleTable (maxLocals : Nat) (swizzle : List Nat) : List Nat → Bool × List Nat
  | [] => (true, [])
  | index :: entries =>
    if maxLocals ≤ index then (false, index :: entries)
    else
      let (valid, entries) := swizzleTable maxLocals swizzle entries
      (valid, swizzle.getD index 0 :: entries)

/-- What is set up before the `LocalVariableTable` is looked at; no edges are a null pointer. -/
def entryResources : List AnalysisResource := [.localsEntries, .localsSwizzle, .stackEntries, .edges]

/-- What the passes work with. -/
def passResources (m : CpMethod) : List AnalysisResource :=
  .iterator :: entryResources ++ if m.missingSmt then [.knownStacks, .knownLocals] else []

/-- The code behind `inval`. -/
def invalFrees (m : CpMethod) : List AnalysisResource :=
  [.iterator, .stackEntries, .localsEntries, .localsSwizzle] ++
    (if m.missingSmt then [.knownStacks, .knownLocals] else []) ++ [.edges]

/-- `analyze_method_code`; `none` if it does not return.  Of the instructions, which are rewritten in
place, a pass that fails leaves `left`. -/
def MethodCell.analyze (fuel : Nat) (left : List BytecodeInsn) (cell : MethodCell) :
    Option AnalysisCall :=
  let m := cell.method
  match cell.codeAnalysis with
  | .started | .finished _ => some { status := 0, cell }
  | .null =>
    match localsOnMethodEntry m with
    | none =>
      some
        { status := -1
          initialized := [.localsEntries, .localsSwizzle]
          freed := [.localsEntries, .localsSwizzle]
          cell }
    | some (_, swizzle) =>
      let (valid, table) := swizzleTable m.code.maxLocals swizzle m.code.localVariableTable
      let code := { m.code with localVariableTable := table }
      if valid = false then
        some
          { status := -1
            initialized := entryResources
            freed := invalFrees m
            cell := { method := { m with code } } }
      else
        -- the two checks above are the first of `analyzeMethodCode`; its passes are left
        match analyzeMethodCode fuel m with
        | .ok none | .error .abort => none
        | .error (.error msg) =>
          some
            { status := -1
              error := some msg
              initialized := passResources m
              freed := invalFrees m
              cell :=
                { method := { m with code := { code with code := left } }
                  codeAnalysis := .started } }
        | .ok (some analysis) =>
          some
            { status := 0
              initialized := passResources m
              freed := invalFrees m
              cell :=
                { method := { m with code := { code with code := analysis.code } }
                  codeAnalysis := .finished analysis } }

/-- The calls on a method from a state of it on. -/
inductive LaterCall : MethodCell → AnalysisCall → Prop
  | first {fuel left cell call} (h : MethodCell.analyze fuel left cell = some call) :
      LaterCall cell call
  | next {fuel left cell call call'} (h : LaterCall cell call)
      (h' : MethodCell.analyze fuel left call.cell = some call') : LaterCall cell call'

/-- A call that fails says why, frees what it has set up, and leaves the method such that nothing
takes it for analyzed, later calls included. -/
structure AnalysisCall.FailsCleanly (call : AnalysisCall) : Prop where
  message : ∃ msg, call.error = some msg
  freesOwn : call.freed ⊆ call.initialized
  unpublished : call.cell.codeAnalysis = .null
  again : ∀ later, LaterCall call.cell later → later.status = -1

end BJvm

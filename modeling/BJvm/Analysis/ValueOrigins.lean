import BJvm.Analysis.NpeSources

/-!
# Where values come from in a run

The analysed code as it is executed, one slot for each value, as far as it matters where the values
come from: a parameter, a local variable that has been stored, or the instruction that made the value.
-/

namespace BJvm

inductive Origin
  /-- Zero is `this`. -/
  | parameter (index : Nat)
  | localVariable (slot : Nat)
  | insn (pc : Nat)
  deriving DecidableEq, Repr

/-- What a source stands for. -/
def VariableSource.denotes (code : List BytecodeInsn) : VariableSource → Option Origin
  | .parameter index => some (.parameter index)
  | .local_ index => some (.localVariable (code.getD index default).index)
  | .insn index => some (.insn index)
  | .unk => none

/-- A value with its origin.  An exception that a handler has been given has none, and neither has
the content of a local before it is set. -/
structure Operand where
  null : Bool
  origin : Option Origin
  nonNull : origin = none → null = false

/-- What a store puts into the local. -/
def Operand.stored (v : Operand) (slot : Nat) : Operand where
  null := v.null
  origin := some (.localVariable slot)
  nonNull h := nomatch h

/-- The stack, top first, and the locals before the instruction at `pc`. -/
structure ExecState where
  pc : Nat
  stack : List Operand
  locals : Nat → Operand

/-- The instructions that move slots of the stack. -/
def shuffleSlots {α : Type} : InsnCode → List α → Option (List α)
  | .dup, a :: s => some (a :: a :: s)
  | .dupX1, a :: b :: s => some (a :: b :: a :: s)
  | .dupX2, a :: b :: c :: s => some (a :: b :: c :: a :: s)
  | .dup2, a :: b :: s => some (a :: b :: a :: b :: s)
  | .dup2X1, a :: b :: c :: s => some (a :: b :: c :: a :: b :: s)
  | .dup2X2, a :: b :: c :: d :: s => some (a :: b :: c :: d :: a :: b :: s)
  | .pop, _ :: s => some s
  | .pop2, _ :: _ :: s => some s
  | .swap, a :: b :: s => some (b :: a :: s)
  | _, _ => none

/-- The instruction at `s.pc` goes from the stack and locals of `s` to the given ones. -/
def Executes (insn : BytecodeInsn) (s : ExecState) (stack : List Operand) (locals : Nat → Operand) :
    Prop :=
  match (stackEffect insn.kind).or (descriptorEffect insn) with
  | some (pops, pushes) =>
    ∃ args rest results, s.stack = args ++ rest ∧ args.length = pops.length ∧
      stack = results ++ rest ∧ results.length = (pushes.filter (· ≠ .void)).length ∧
      (∀ v ∈ results, v.origin = some (.insn s.pc)) ∧ locals = s.locals
  | none =>
    match localKind insn.kind with
    | some _ =>
      if insn.kind.isLoad then stack = s.locals insn.index :: s.stack ∧ locals = s.locals
      else ∃ v, s.stack = v :: stack ∧
        locals = Function.update s.locals insn.index (v.stored insn.index)
    | none =>
      match insn.kind with
      | .putfield => ∃ v o, s.stack = v :: o :: stack ∧ locals = s.locals
      | .putstatic => ∃ v, s.stack = v :: stack ∧ locals = s.locals
      | .iinc => stack = s.stack ∧ locals = s.locals
      | kind => shuffleSlots kind s.stack = some stack ∧ locals = s.locals

/-- A step from `s`, which leaves the code in front of the instruction at `e`: the one behind that
at `s.pc`, or that one itself when it throws. -/
inductive Step (m : CpMethod) (code : List BytecodeInsn) (s : ExecState) : Nat → ExecState → Prop
  | next {stack : List Operand} {locals : Nat → Operand} :
      Executes (code.getD s.pc default) s stack locals →
      (code.getD s.pc default).kind.terminates = false →
      (code.getD s.pc default).kind ≠ .jsr → (code.getD s.pc default).kind ≠ .ret →
      Step m code s (s.pc + 1) ⟨s.pc + 1, stack, locals⟩
  | branch {stack : List Operand} {locals : Nat → Operand} {target : Nat} :
      Executes (code.getD s.pc default) s stack locals →
      target ∈ pushedTargets (code.getD s.pc default) →
      Step m code s (s.pc + 1) ⟨target, stack, locals⟩
  | ret {target : Nat} : (code.getD s.pc default).kind = .ret →
      Step m code s (s.pc + 1) ⟨target, s.stack, s.locals⟩
  | throw {entry : ExceptionTableEntry} {exception : Operand} :
      entry ∈ m.code.exceptionTable → entry.startInsn ≤ s.pc → s.pc < entry.endInsn →
      exception.origin = none →
      Step m code s s.pc ⟨entry.handlerInsn, [exception], s.locals⟩

/-- The parameters of a call, some of them null. -/
def entryLocals (m : CpMethod) (null : Nat → Bool) (slot : Nat) : Operand :=
  if slot < m.descriptor.args.length + (if m.isStatic then 0 else 1) then
    ⟨null slot, some (.parameter (if m.isStatic then slot + 1 else slot)), fun h => nomatch h⟩
  else ⟨false, none, fun _ => rfl⟩

/-! ### Merges -/

/-- The positions of a stack of depth `sd` that get another value, counted from below. -/
def shuffleWritten (sd : Nat) : InsnCode → List Nat
  | .dup => [sd]
  | .dupX1 => List.range' (sd - 2) 3
  | .dupX2 => List.range' (sd - 3) 4
  | .dup2 => List.range' sd 2
  | .dup2X1 => List.range' (sd - 3) 5
  | .dup2X2 => List.range' (sd - 4) 6
  | .swap => List.range' (sd - 2) 2
  | _ => []

/-- The positions of the stack, of depth `sd`, that an instruction writes. -/
def writtenStack (insn : BytecodeInsn) (sd : Nat) : List Nat :=
  match (stackEffect insn.kind).or (descriptorEffect insn) with
  | some (pops, pushes) => List.range' (sd - pops.length) (pushes.filter (· ≠ .void)).length
  | none =>
    match localKind insn.kind with
    | some _ => if insn.kind.isLoad then [sd] else []
    | none => shuffleWritten sd insn.kind

/-- The local that an instruction stores. -/
def writtenLocal (insn : BytecodeInsn) : Option Nat :=
  if (localKind insn.kind).isSome && !insn.kind.isLoad then some insn.index else none

/-- The instructions in the code between two points, whichever comes first. -/
def Between (e j p : Nat) : Prop := min e j ≤ p ∧ p < max e j

section

variable (a : MethodAnalysis)

/-- The depth of the stack before the instruction at `pc`. -/
def MethodAnalysis.depthAt (pc : Nat) : Nat := (a.stackStates.getD pc default).stack.length

/-- The local has a kind before the instruction at `pc`. -/
def MethodAnalysis.Readable (pc slot : Nat) : Prop :=
  (a.stackStates.getD pc default).locals.getD slot .void ≠ .void

/-- The state at the instruction stepped to is one that the state stepped from can be assigned to,
as the format of class files demands of the frames. -/
structure FrameFits (s s' : ExecState) (e : Nat) : Prop where
  depth : s'.stack.length = a.depthAt s'.pc
  kinds : ∀ p, p = s'.pc ∨ Between e s'.pc p → TypeKind.void ∉ (a.stackStates.getD p default).stack
  readable : ∀ slot, a.Readable s'.pc slot → a.Readable s.pc slot ∨
    e = s.pc + 1 ∧ writtenLocal (a.code.getD s.pc default) = some slot

/-- Between the place in the code that a step leaves and the one that it goes to, no instruction
writes a position of the stack in use there, and none stores a local in use there unless both the run
and the code in front of the place have stored it. -/
structure Undisturbed (s' : ExecState) (e : Nat) : Prop where
  stack : ∀ p, Between e s'.pc p → ∀ k ∈ writtenStack (a.code.getD p default) (a.depthAt p),
    ∀ v ∈ s'.stack.reverse[k]?, v.origin = none
  locals : ∀ p, Between e s'.pc p → ∀ slot ∈ writtenLocal (a.code.getD p default),
    a.Readable s'.pc slot → (s'.locals slot).origin = some (.localVariable slot) ∧
      ∃ q < s'.pc, writtenLocal (a.code.getD q default) = some slot

/-- When the instruction comes upon a null pointer, the source recorded stands for its origin. -/
def SourceRight (sources : List StackVariableSources) (s : ExecState) : Prop :=
  ∀ k ∈ dereferenced (a.code.getD s.pc default), ∀ v ∈ s.stack[k]?, v.null = true →
    (sources.getD s.pc default).a.denotes a.code = v.origin

end

end BJvm

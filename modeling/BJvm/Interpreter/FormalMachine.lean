import BJvm.Interpreter.AnalyzedCode

/-!
# The machine of the specification

It runs the instructions as they stand in the class file: locals have their formal indices, a value
of category 2 takes two locals and two entries of the stack, and an instruction that rearranges the
stack moves entries.  What is neither a local nor a place on the stack it shares with the plain
interpreter.
-/

namespace BJvm.Interpreter

open ClassFile StackValue

/-- One entry of a stack, or a local: a value, or either half of one of category 2. -/
structure FormalEntry where
  value : Value
  leads : Bool
  deriving DecidableEq, Repr

/-- The entries that a stack of values takes. -/
def expand : List Value → List FormalEntry
  | [] => []
  | v :: s => if v.kind.isWide then ⟨v, true⟩ :: ⟨v, false⟩ :: expand s else ⟨v, true⟩ :: expand s

/-- The values that entries are made of, if none is torn apart. -/
def collapse : List FormalEntry → Option (List Value)
  | [] => some []
  | [e] => if e.leads ∧ e.value.kind.isWide = false then some [e.value] else none
  | e :: e' :: s =>
    if e.leads = false then none
    else if e.value.kind.isWide then
      if e' = ⟨e.value, false⟩ then (collapse s).map (e.value :: ·) else none
    else (collapse (e' :: s)).map (e.value :: ·)

/-- The stack behind an instruction that rearranges it. -/
def formalShuffle (kind : InsnCode) (stack : List Value) : Option (List Value) :=
  (shuffleSlots kind (expand stack)).bind collapse

/-- What a load of the kind takes from a slot. -/
def localValue : TypeKind → StackValue → StackValue
  | .int, v => .ofInt v.low
  | .float, v => .ofFloat v.low
  | _, v => v

/-- The value as a local holds it. -/
def Value.asLocal (v : Value) : Value := { v with word := localValue v.kind v.word }

structure Formal (W : Type) where
  heap : Heap W
  locals : Nat → Option FormalEntry
  pc : Nat
  /-- top first -/
  stack : List Value

inductive FormalConfig (W : Type)
  | running (s : Formal W)
  | returned (heap : Heap W) (result : StackValue)
  | thrown (heap : Heap W) (e : StackValue)

variable {W : Type}

namespace Formal

/-- The value of a kind at a formal index. -/
def load (s : Formal W) (j : Nat) (kind : TypeKind) : Option Value :=
  match s.locals j with
  | some ⟨v, true⟩ =>
    if v.kind = kind ∧ (kind.isWide → s.locals (j + 1) = some ⟨v, false⟩) then some v else none
  | _ => none

/-- Both locals of a value of category 2 are overwritten. -/
def store (s : Formal W) (j : Nat) (v : Value) : Formal W :=
  { s with
    locals := fun i =>
      if i = j then some ⟨v.asLocal, true⟩
      else if v.kind.isWide ∧ i = j + 1 then some ⟨v.asLocal, false⟩
      else s.locals i }

/-- On to the next instruction. -/
def next (s : Formal W) (stack : List Value) : FormalConfig W :=
  .running { s with pc := s.pc + 1, stack }

/-- The state of the plain interpreter, but for the locals. -/
def plain (s : Formal W) : Plain W := ⟨s.heap, fun _ => 0, s.pc, s.stack⟩

/-- An instruction that leaves the locals as they are. -/
def behind (s : Formal W) : PlainConfig W → FormalConfig W
  | .running s' => .running ⟨s'.heap, s.locals, s'.pc, s'.stack⟩
  | .returned heap v => .returned heap v
  | .thrown heap e => .thrown heap e

variable (vm : Vm W) (fm : FrameMethod) (code : Nat → BytecodeInsn)

/-- Runs one instruction of `code`. -/
def step (s : Formal W) : Option (FormalConfig W) :=
  let insn := code s.pc
  match localKind insn.kind with
  | some kind =>
    if insn.kind.isLoad then (s.load insn.index kind).map fun v => s.next (v :: s.stack)
    else
      match s.stack with
      | v :: stack => if v.kind = kind then some ((s.store insn.index v).next stack) else none
      | [] => none
  | none =>
    if insn.kind = .iinc then
      (s.load insn.iincIndex .int).map fun v =>
        (s.store insn.iincIndex ⟨.int, .ofInt (v.word.low + BitVec.ofInt 32 insn.iincConst)⟩).next
          s.stack
    else if operandKinds insn = none then (formalShuffle insn.kind s.stack).map s.next
    else (s.plain.step vm fm).map s.behind

end Formal

def FormalConfig.step (vm : Vm W) (fm : FrameMethod) (code : Nat → BytecodeInsn) :
    FormalConfig W → Option (FormalConfig W)
  | .running s => s.step vm fm code
  | .returned .. | .thrown .. => none

def FormalConfig.Reaches (vm : Vm W) (fm : FrameMethod) (code : Nat → BytecodeInsn) :
    FormalConfig W → FormalConfig W → Prop :=
  Relation.ReflTransGen fun f f' => f.step vm fm code = some f'

def FormalConfig.Ended : FormalConfig W → Prop
  | .running _ => False
  | .returned .. | .thrown .. => True

/-- The locals that a method is entered with, its arguments from the formal index `j` on. -/
def argumentLocals : Nat → List Value → Nat → Option FormalEntry
  | _, [], _ => none
  | j, v :: vs, i =>
    if i = j then some ⟨v.asLocal, true⟩
    else if v.kind.isWide ∧ i = j + 1 then some ⟨v.asLocal, false⟩
    else argumentLocals (j + if v.kind.isWide then 2 else 1) vs i

/-- The method is entered with its arguments, the receiver first. -/
def Formal.enter (heap : Heap W) (args : List Value) : Formal W :=
  ⟨heap, argumentLocals 0 args, 0, []⟩

/-- The analysis has accepted the method, and the VM runs the code that it has left. -/
structure Ready (vm : Vm W) (m : CpMethod) (a : MethodAnalysis) (code : Nat → ParsedInsn)
    (table : List ParsedException) (heap : Heap W) : Prop where
  analyzed : ∃ fuel, analyzeMethodCode fuel m = .ok (some a)
  parsed : Parsed a code
  trusted : Trusted m a code table
  nonempty : 0 < a.code.length
  respects : vm.Respects (.ofAnalysis a code)
  runs : (TypedCode.ofAnalysis a code).Runs heap.code

/-- The kinds of the arguments, of which `this` is the first unless the method is static. -/
def argumentKinds (m : CpMethod) : List TypeKind :=
  (if m.isStatic then [] else [.reference]) ++ m.descriptor.args.map (·.reprKind)

/-- The frame has been pushed: each argument is in a slot of its own. -/
structure FrameEntered (machine : Machine W) (heap : Heap W) (args : List Value) : Prop where
  heap : machine.heap = heap
  programCounter : machine.programCounter = 0
  locals : ∀ (k : Nat) (v : Value), args[k]? = some v →
    localValue v.kind (machine.locals k) = localValue v.kind v.word

end BJvm.Interpreter

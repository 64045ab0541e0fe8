import BJvm.Interpreter.Resumption
import Mathlib.Tactic.Common

/-!
# Suspended instructions

A suspended frame waits for one answer (`resume_waits`).  What is resumed behind the answer is a
jump without a cached top of the stack; the handler that is not suspended ends in the same jump,
but for a `putstatic` and for the call of an intrinsic.
-/

namespace BJvm.Interpreter

open ClassFile StackValue Function

variable {W : Type} {vm : Vm W} {fm : FrameMethod} {m m' : Machine W} {tos : Tos}
  {heap : Heap W} {answer : Except StackValue StackValue} {v : StackValue} {fuel : BitVec 32}

/-! ### Waiting -/

theorem resume_waits (waits : List (BitVec 32)) (polls : List (BitVec 32 × Poll W)) :
    resume vm fm m (waits.map (·, .notReady) ++ polls) = resume vm fm m polls := by
  induction waits with
  | nil => rfl
  | cons fuel waits ih => exact ih

theorem resume_ready : (resume vm fm m [(fuel, .ready heap answer)]).next? =
    (asyncResumeImplVoid vm fm fuel m (.ready heap answer)).next? := by
  rw [resume]
  cases asyncResumeImplVoid vm fm fuel m (.ready heap answer) <;> rfl

/-! ### The call of `resolve_insn` -/

/-- What the resolution of an instruction leaves. -/
def finishInsn (code : InsnCode) (m : Machine W) (v : StackValue) : Machine W :=
  match code with
  | .new => m.finishNew v
  | .invokestatic => m.finishInvokestatic v
  | _ => m.finishStatic v

/-- The instructions that can be suspended in their resolution. -/
def suspendable : List InsnCode := [.getstatic, .putstatic, .invokestatic, .new]

theorem resolveInsn_answering {code : InsnCode} (hs : code ∈ suspendable)
    (hc : m.insn.code = .parsed code) :
    resolveInsn (vm.answering heap answer) m =
      some (match answer with
        | .ok v => (finishInsn code { m with heap } v, none)
        | .error e => ({ m with heap }, some e)) := by
  simp only [suspendable, List.mem_cons, List.not_mem_nil, or_false] at hs
  rcases hs with rfl | rfl | rfl | rfl <;> rw [resolveInsn, hc] <;> cases answer <;> rfl

/-- No resolution leaves the kind `insn_invokestatic` behind. -/
theorem finishInsn_code {code : InsnCode} (hs : code ∈ suspendable) :
    (finishInsn code m v).insn.code ≠ .parsed .invokestatic := by
  simp only [suspendable, List.mem_cons, List.not_mem_nil, or_false] at hs
  rcases hs with rfl | rfl | rfl | rfl <;>
    simp [finishInsn, Machine.finishStatic, Machine.finishNew, Machine.finishInvokestatic,
      Machine.rewrite, Machine.insn]

/-! ### Where instructions are suspended -/

@[simp] theorem forward_heap : (m.forward tos).heap = m.heap := by cases tos <;> rfl
@[simp] theorem forward_pc : (m.forward tos).pc = m.pc := by cases tos <;> rfl
@[simp] theorem forward_sp : (m.forward tos).sp = m.sp := by cases tos <;> rfl

/-- In a suspended frame the registers are read again as they were. -/
structure SuspendedIn (fm : FrameMethod) (code : InsnCode) (m : Machine W) : Prop where
  mem : code ∈ suspendable
  code : m.insn.code = .parsed code
  pc : m.programCounter = m.pc
  depth : fm.insnIndexToSd m.pc = m.sp

theorem suspended_frame (he : Entered fm m tos) (h : reachResolution vm m tos = some m') :
    ∃ code, m.insn.code = .parsed code ∧ m'.pc = m.pc ∧ SuspendedIn fm code m' := by
  have hd : fm.insnIndexToSd (m.forward tos).spillVoid.pc = (m.forward tos).spillVoid.sp := by
    simpa [Machine.spillVoid] using he.depth
  have hpc : (m.forward tos).spillVoid.pc = m.pc := forward_pc
  unfold reachResolution at h
  dsimp only at h
  split at h
  case h_4 hc =>
    split at h
    next heap v hr =>
      split_ifs at h with hn
      cases Option.some.inj h
      exact ⟨.new, hc, hpc, by decide, hn, rfl, hd⟩
    next => cases h
  case h_5 => cases h
  all_goals
    rename_i hc
    cases Option.some.inj h
    refine ⟨_, hc, hpc, by decide, ?_, rfl, hd⟩
    simpa [Machine.spillVoid, Machine.insn] using hc

namespace SuspendedIn

variable {code : InsnCode}

theorem registers (h : SuspendedIn fm code m) :
    ({ m with pc := m.programCounter, sp := fm.insnIndexToSd m.programCounter, fuel } :
      Machine W) = { m with fuel } := by
  rw [Machine.mk.injEq]
  exact ⟨rfl, rfl, rfl, rfl, h.pc, by rw [h.pc, h.depth], rfl⟩

theorem resumed_ok (h : SuspendedIn fm code m) :
    (asyncResumeImplVoid vm fm fuel m (.ready heap (.ok v))).next? =
      some (jmpVoid (finishInsn code { m with heap, fuel } v)) := by
  rw [asyncResumeImplVoid, h.registers,
    resolveInsn_answering (m := { m with fuel }) h.mem h.code]
  simp only [if_neg (finishInsn_code h.mem)]
  rfl

end SuspendedIn

/-! ### Instructions that are not suspended -/

/-- What is resumed behind a `putstatic` is a jump through a table that has no handler for it. -/
theorem resumed_putstatic_stuck (he : Entered fm m tos) (h : reachResolution vm m tos = some m')
    (hc : m.insn.code = .parsed .putstatic) (hh : (heap.code m.pc).code = .parsed .putstatic)
    (waits : List (BitVec 32)) :
    ∃ m'' tos'', (resume vm fm m' (waits.map (·, .notReady) ++
      [(fuel, .ready heap (.ok v))])).next? = some (.jump m'' tos'') ∧
      dispatch vm fm m'' tos'' = none := by
  obtain ⟨code, hc', hpc, hs⟩ := suspended_frame he h
  cases hc'.symm.trans hc
  rw [resume_waits, resume_ready, hs.resumed_ok]
  refine ⟨_, _, rfl, ?_⟩
  have hcode : (finishInsn .putstatic { m' with heap, fuel } v).insn.code =
      .resolved (.putstatic (resolvedKind (heap.code m'.pc).field.reprKind)) := by
    simp [finishInsn, Machine.finishStatic, Machine.rewrite, Machine.insn, hpc, hh]
  rw [dispatch, hcode]
  rfl

/-- A VM in which every request is answered with zero, and so is every operation. -/
def zeroVm : Vm Unit where
  ops :=
    { fadd := fun _ _ => 0, fsub := fun _ _ => 0, fmul := fun _ _ => 0, fdiv := fun _ _ => 0
      fmodf := fun _ _ => 0, fneg := fun _ => 0
      dadd := fun _ _ => 0, dsub := fun _ _ => 0, dmul := fun _ _ => 0, ddiv := fun _ _ => 0
      fmod := fun _ _ => 0, dneg := fun _ => 0
      s64ToFloat := fun _ => 0, s64ToDouble := fun _ => 0, floatToDouble := fun _ => 0
      doubleToFloat := fun _ => 0, math := fun _ _ => 0, mathf := fun _ _ => 0
      pow := fun _ _ => 0, powf := fun _ _ => 0 }
  request := fun _ heap => (heap, .ok 0)
  raise := fun _ heap => (heap, 0)
  descriptor := fun _ _ => 0
  instanceof := fun _ _ _ => false
  oneFewerDim := fun _ _ => 0
  methodInfo := fun _ _ => ⟨false, false, false, false, none⟩
  vtableLookup := fun _ _ _ => 0
  itableLookup := fun _ _ _ _ => 0
  vtableIndex := fun _ _ => 0
  itableIndex := fun _ _ => 0
  methodClass := fun _ _ => 0
  arity := fun _ _ => 0
  isNative := fun _ _ _ => false

def storingMethod : FrameMethod := ⟨0, fun _ => 1, []⟩

end BJvm.Interpreter

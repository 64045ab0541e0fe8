import BJvm.Proofs.TypedCode

/-!
# Instructions that leave the locals alone

All but the loads, the stores and `iinc` do the same whatever is in the locals, and leave it there.
-/

namespace BJvm.Interpreter

open ClassFile StackValue

variable {W : Type} {vm : Vm W} {fm : FrameMethod} {s : Plain W} {l : Nat → StackValue}
  {ops : List StackValue}

def Plain.withLocals (s : Plain W) (l : Nat → StackValue) : Plain W := { s with locals := l }

def Outcome.withLocals (l : Nat → StackValue) : Outcome W → Outcome W
  | .next s v => .next (s.withLocals l) v
  | .branch s target => .branch (s.withLocals l) target
  | .again s => .again (s.withLocals l)
  | .throw s e => .throw (s.withLocals l) e
  | .ret s v => .ret (s.withLocals l) v
  | .abort => .abort

def PlainConfig.withLocals (l : Nat → StackValue) : PlainConfig W → PlainConfig W
  | .running s => .running (s.withLocals l)
  | .returned heap v => .returned heap v
  | .thrown heap e => .thrown heap e

@[simp] theorem Plain.withLocals_insn : (s.withLocals l).insn = s.insn := rfl
@[simp] theorem Plain.withLocals_pc : (s.withLocals l).pc = s.pc := rfl
@[simp] theorem Plain.withLocals_stack : (s.withLocals l).stack = s.stack := rfl
@[simp] theorem Plain.withLocals_heap : (s.withLocals l).heap = s.heap := rfl

theorem Plain.rewrite_withLocals (f : Insn → Insn) :
    (s.withLocals l).rewrite f = (s.rewrite f).withLocals l := rfl

theorem ask_withLocals {r : Request} {k k' : Plain W → StackValue → Outcome W}
    (hk : ∀ s v, k' (s.withLocals l) v = (k s v).withLocals l) :
    ask vm r (s.withLocals l) k' = (ask vm r s k).withLocals l := by
  rw [ask, ask, Plain.withLocals_heap]
  rcases vm.request r s.heap with ⟨heap, e | v⟩
  · rfl
  · exact hk { s with heap } v

theorem raise_withLocals {e : Exn} :
    raise vm e (s.withLocals l) = (raise vm e s).withLocals l := rfl

theorem ite_withLocals {c : Prop} [Decidable c] {o o' : Outcome W} :
    (if c then o.withLocals l else o'.withLocals l) = (if c then o else o').withLocals l := by
  split_ifs <;> rfl

theorem nonNull_withLocals {obj : StackValue} {k k' : Outcome W} (hk : k' = k.withLocals l) :
    nonNull vm obj (s.withLocals l) k' = (nonNull vm obj s k).withLocals l := by
  rw [nonNull, nonNull, hk, raise_withLocals, ite_withLocals]

theorem accessElement_withLocals {array index : StackValue} {k k' : Outcome W}
    (hk : k' = k.withLocals l) :
    accessElement vm array index (s.withLocals l) k' =
      (accessElement vm array index s k).withLocals l := by
  refine nonNull_withLocals ?_
  rw [hk, ← ite_withLocals]
  rfl

theorem elim_withLocals (o : Option ResolvedCode) {f f' : ResolvedCode → Outcome W}
    {k k' : Outcome W} (hf : ∀ c, f' c = (f c).withLocals l) (hk : k' = k.withLocals l) :
    (match o with | some c => f' c | none => k') =
      (match o with | some c => f c | none => k).withLocals l := by
  cases o with
  | none => exact hk
  | some c => exact hf c

theorem resolveReceiver_withLocals {k : Plain W → StackValue → StackValue → Outcome W}
    (hk : ∀ s receiver method,
      k (s.withLocals l) receiver method = (k s receiver method).withLocals l) :
    resolveReceiver vm k (s.withLocals l) ops = (resolveReceiver vm k s ops).withLocals l := by
  simp only [resolveReceiver, Plain.rewrite_withLocals]
  refine nonNull_withLocals (ask_withLocals fun s method => ?_)
  rw [Plain.rewrite_withLocals]
  exact hk _ _ _

theorem resolveInvokevirtual_withLocals : resolveInvokevirtual vm (s.withLocals l) ops =
    (resolveInvokevirtual vm s ops).withLocals l := by
  refine resolveReceiver_withLocals fun s receiver method => ?_
  simp only [Plain.rewrite_withLocals]
  rw [← ite_withLocals, ← ite_withLocals, ← ite_withLocals]
  exact if_congr Iff.rfl (ask_withLocals fun _ _ => rfl) rfl

theorem resolveInvokespecial_withLocals : resolveInvokespecial vm (s.withLocals l) ops =
    (resolveInvokespecial vm s ops).withLocals l :=
  resolveReceiver_withLocals fun _ _ _ => ask_withLocals fun _ _ => rfl

theorem resolveInvokeinterface_withLocals : resolveInvokeinterface vm (s.withLocals l) ops =
    (resolveInvokeinterface vm s ops).withLocals l := by
  refine resolveReceiver_withLocals fun s receiver method => ?_
  dsimp only
  rw [← ite_withLocals, ← ite_withLocals, ← ite_withLocals]
  rfl

theorem resolveInvokestatic_withLocals (ops : List StackValue) :
    resolveInvokestatic vm (s.withLocals l) ops =
      (resolveInvokestatic vm s ops).withLocals l := by
  refine ask_withLocals fun s method => ?_
  dsimp only
  exact elim_withLocals _ (fun _ => rfl) rfl

theorem invoke_withLocals : invoke vm (s.withLocals l) ops = (invoke vm s ops).withLocals l := by
  unfold invoke
  exact ask_withLocals fun _ _ => rfl

theorem invokeMonomorphic_withLocals : invokeMonomorphic vm (s.withLocals l) ops =
    (invokeMonomorphic vm s ops).withLocals l := by
  refine nonNull_withLocals ?_
  rw [invoke_withLocals, ← ite_withLocals, ← ite_withLocals]
  rfl

theorem invokeitablePolymorphic_withLocals : invokeitablePolymorphic vm (s.withLocals l) ops =
    (invokeitablePolymorphic vm s ops).withLocals l := by
  refine nonNull_withLocals ?_
  rw [invoke_withLocals, ← ite_withLocals]
  rfl

theorem evalParsed_withLocals {k : InsnCode} (hk : localKind k = none) (hi : k ≠ .iinc) :
    evalParsed vm k (s.withLocals l) ops = (evalParsed vm k s ops).withLocals l := by
  cases k
  case dload | lload | aload | fload | iload | dstore | lstore | astore | fstore | istore =>
    cases hk
  case iinc => exact absurd rfl hi
  case aaload | baload | caload | daload | faload | iaload | laload | saload | bastore | castore
      | dastore | fastore | iastore | lastore | sastore =>
    exact accessElement_withLocals rfl
  case aastore =>
    refine accessElement_withLocals ?_
    rw [← ite_withLocals]
    rfl
  case idiv | irem | ldiv | lrem =>
    dsimp only [evalParsed, intDivide, longDivide]
    rw [← ite_withLocals]
    rfl
  case arraylength | athrow => exact nonNull_withLocals rfl
  case monitorenter => exact nonNull_withLocals (ask_withLocals fun _ _ => rfl)
  case monitorexit =>
    refine nonNull_withLocals (ask_withLocals fun _ _ => ?_)
    rw [← ite_withLocals]
    rfl
  case ldc | multianewarray => exact ask_withLocals fun _ _ => rfl
  case newarray =>
    dsimp only [evalParsed, newArray]
    rw [← ite_withLocals, raise_withLocals]
    congr 1
    exact ask_withLocals fun _ _ => rfl
  case anewarray | checkcast | instanceof =>
    dsimp only [evalParsed, resolveClassTo]
    exact ask_withLocals fun _ _ => rfl
  case getfield | putfield => exact nonNull_withLocals (ask_withLocals fun _ _ => rfl)
  case getstatic | putstatic | invokedynamic =>
    dsimp only [evalParsed, resolveStatic, resolveInvokedynamic]
    exact ask_withLocals fun _ _ => rfl
  case new =>
    dsimp only [evalParsed, resolveNew]
    exact ask_withLocals fun _ _ => ask_withLocals fun _ _ => rfl
  case invokestatic => exact resolveInvokestatic_withLocals ops
  case invokevirtual => exact resolveInvokevirtual_withLocals
  case invokespecial => exact resolveInvokespecial_withLocals
  case invokeinterface => exact resolveInvokeinterface_withLocals
  case ifAcmpeq | ifAcmpne | ifIcmpeq | ifIcmpne | ifIcmplt | ifIcmpge | ifIcmpgt | ifIcmple | ifeq
      | ifne | iflt | ifge | ifgt | ifle | ifnonnull | ifnull =>
    dsimp only [evalParsed, branchWhen]
    rw [← ite_withLocals]
    rfl
  all_goals rfl

theorem evalResolved_withLocals {r : ResolvedCode} :
    evalResolved vm r (s.withLocals l) ops = (evalResolved vm r s ops).withLocals l := by
  cases r
  case anewarray =>
    dsimp only [evalResolved, newArray]
    rw [← ite_withLocals, raise_withLocals]
    congr 1
    exact ask_withLocals fun _ _ => rfl
  case checkcast =>
    dsimp only [evalResolved]
    rw [← ite_withLocals]
    rfl
  case new => exact ask_withLocals fun _ _ => rfl
  case invokevtableMonomorphic | invokeitableMonomorphic => exact invokeMonomorphic_withLocals
  case invokevtablePolymorphic | invokespecial | invokesigpoly =>
    exact nonNull_withLocals invoke_withLocals
  case invokeitablePolymorphic => exact invokeitablePolymorphic_withLocals
  case invokestatic | invokecallsite => exact invoke_withLocals
  case getfield | putfield => exact nonNull_withLocals rfl
  all_goals rfl

theorem finish_withLocals (pushes : List TypeKind) (rest : List Value) (out : Outcome W) :
    Plain.finish vm fm pushes rest (out.withLocals l) =
      (Plain.finish vm fm pushes rest out).map (·.withLocals l) := by
  cases out with
  | throw s e =>
    show some (Plain.unwind vm fm (s.withLocals l) e) = some ((s.unwind vm fm e).withLocals l)
    rw [Plain.unwind, Plain.unwind, Plain.withLocals_heap, Plain.withLocals_pc]
    rcases findExceptionHandler vm s.pc (vm.descriptor s.heap e) fm.exceptionTable s.heap e with
      ⟨heap, e', _ | ent⟩ <;> rfl
  | _ => rfl

/-- The code is none that reads or writes a local. -/
def InsnCodeKind.LocalFree : InsnCodeKind → Prop
  | .parsed k => localKind k = none ∧ k ≠ .iinc
  | .resolved _ => True

theorem eval_withLocals {code : InsnCodeKind} (h : code.LocalFree) :
    eval vm code (s.withLocals l) ops = (eval vm code s ops).withLocals l := by
  cases code with
  | parsed k => exact evalParsed_withLocals h.1 h.2
  | resolved r => exact evalResolved_withLocals

theorem step_withLocals (h : s.insn.code.LocalFree) :
    (s.withLocals l).step vm fm = (s.step vm fm).map (·.withLocals l) := by
  rw [Plain.step, Plain.step, Plain.withLocals_insn, Plain.withLocals_stack]
  rcases shuffle s.insn.code s.stack with _ | stack
  · dsimp only
    rcases operandKinds s.insn.toBytecodeInsn with _ | ⟨pops, pushes⟩
    · rfl
    · dsimp only
      rw [eval_withLocals h, finish_withLocals]
      split_ifs <;> rfl
  · rfl

end BJvm.Interpreter

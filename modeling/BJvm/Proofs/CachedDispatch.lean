import BJvm.Proofs.CachedSteps

/-!
# Every instruction is answered

The rest of the instructions, those that rearrange the stack, load, call and compute an intrinsic,
and with them all of them: from a state of typed code the tables have a handler for the register, and
it does what the plain instruction does (`Enters.answers`).
-/

namespace BJvm.Interpreter

open ClassFile StackValue Function

variable {W : Type} {vm : Vm W} {fm : FrameMethod} {P : TypedCode} {m : Machine W} {s : Plain W}
  {tos : Tos} {c : InsnCodeKind} {code : InsnCode} {k : TypeKind} {v : Value} {vs rest : List Value}

namespace Enters

variable (e : Enters vm fm P m tos s)

include e

/-! ### The stack -/

theorem shuffled (hk : code ∈ shuffleKinds) (hc : s.insn.code = .parsed code) :
    ∃ stack, shuffleSlots code s.stack = some stack ∧
      s.step vm fm = some (.running { s with pc := s.pc + 1, stack }) := by
  obtain ⟨kinds, hafter, -⟩ := e.wellTyped.flows _ e.typed.pc
  obtain ⟨stack, hstack, -, -⟩ := shuffle_kinds e.typed hk hc hafter
  refine ⟨stack, ?_, step_shuffle hstack⟩
  rwa [hc, shuffle_parsed] at hstack

/-- A handler that rearranges the stack in memory. -/
theorem shuffleVoid {h : VoidHandler W} (hk : code ∈ shuffleKinds) (hc : s.insn.code = .parsed code)
    (hf : Forwards vm fm (.parsed code) h)
    (hvoid : jmpTableVoid vm fm (.parsed code) = some h ∨ rewritten (.parsed code) = false)
    (hsim : ∀ stack, shuffleSlots code s.stack = some stack → Spilled (m.forward tos) s →
      Sim vm fm (Waits m s) (h (m.forward tos))
        (some (.running { s with pc := s.pc + 1, stack }))) : Answers vm fm m tos s := by
  obtain ⟨stack, hstack, hstep⟩ := e.shuffled hk hc
  refine ⟨_, dispatch_forward (e.insn ▸ hc) hf fun htos => ?_, ?_⟩
  · rcases hvoid with hvoid | hre
    · exact hvoid
    · rw [e.stack_nil hc hre htos] at hstack
      cases code <;> cases hstack
  · rw [hstep]
    exact hsim stack hstack e.spilled

theorem pop (hc : s.insn.code = .parsed .pop) : Answers vm fm m tos s := by
  refine e.shuffleVoid (by decide) hc ⟨rfl, rfl, rfl⟩ (.inl rfl) fun stack hstack h => ?_
  rcases hs : s.stack with _ | ⟨a, vs⟩ <;> rw [hs] at hstack <;> cases hstack
  exact sim_popped (n := 1) h hs

theorem pop2 (hc : s.insn.code = .parsed .pop2) : Answers vm fm m tos s := by
  refine e.shuffleVoid (by decide) hc ⟨rfl, rfl, rfl⟩ (.inr rfl) fun stack hstack h => ?_
  rcases hs : s.stack with _ | ⟨a, _ | ⟨b, vs⟩⟩ <;> rw [hs] at hstack <;> cases hstack
  exact sim_popped (n := 2) h hs

theorem swap (hc : s.insn.code = .parsed .swap) : Answers vm fm m tos s := by
  refine e.shuffleVoid (by decide) hc ⟨rfl, rfl, rfl⟩ (.inr rfl) fun stack hstack h => ?_
  rcases hs : s.stack with _ | ⟨a, _ | ⟨b, vs⟩⟩ <;> rw [hs] at hstack <;> cases hstack
  exact sim_swap h hs

theorem dupX1 (hc : s.insn.code = .parsed .dupX1) : Answers vm fm m tos s := by
  refine e.shuffleVoid (by decide) hc ⟨rfl, rfl, rfl⟩ (.inr rfl) fun stack hstack h => ?_
  rcases hs : s.stack with _ | ⟨a, _ | ⟨b, vs⟩⟩ <;> rw [hs] at hstack <;> cases hstack
  exact sim_dupX1 h hs

theorem dupX2 (hc : s.insn.code = .parsed .dupX2) : Answers vm fm m tos s := by
  refine e.shuffleVoid (by decide) hc ⟨rfl, rfl, rfl⟩ (.inr rfl) fun stack hstack h => ?_
  rcases hs : s.stack with _ | ⟨a, _ | ⟨b, _ | ⟨c, vs⟩⟩⟩ <;> rw [hs] at hstack <;> cases hstack
  exact sim_dupX2 h hs

theorem dup2X1 (hc : s.insn.code = .parsed .dup2X1) : Answers vm fm m tos s := by
  refine e.shuffleVoid (by decide) hc ⟨rfl, rfl, rfl⟩ (.inr rfl) fun stack hstack h => ?_
  rcases hs : s.stack with _ | ⟨a, _ | ⟨b, _ | ⟨c, vs⟩⟩⟩ <;> rw [hs] at hstack <;> cases hstack
  exact sim_dup2X1 h hs

theorem dup2X2 (hc : s.insn.code = .parsed .dup2X2) : Answers vm fm m tos s := by
  refine e.shuffleVoid (by decide) hc ⟨rfl, rfl, rfl⟩ (.inr rfl) fun stack hstack h => ?_
  rcases hs : s.stack with _ | ⟨a, _ | ⟨b, _ | ⟨c, _ | ⟨d, vs⟩⟩⟩⟩ <;> rw [hs] at hstack <;>
    cases hstack
  exact sim_dup2X2 h hs

/-- `dup` leaves the register as it is, whichever it is. -/
theorem dup (hc : s.insn.code = .parsed .dup) : Answers vm fm m tos s := by
  obtain ⟨stack, hstack, hstep⟩ := e.shuffled (by decide) hc
  rcases hs : s.stack with _ | ⟨v, vs⟩ <;> rw [hs] at hstack <;> cases hstack
  obtain ⟨rfl, h⟩ := e.related.top hs (hc ▸ rfl)
  rw [Answers, hstep]
  cases hk : reduced v.kind with
  | void => cases hv : v.kind <;> simp [hv, reduced] at hk
  | int =>
    exact ⟨_, dispatch_int (e.insn ▸ hc) rfl,
      sim_dup h (canonical_of_ne (reduced_eq_int.mp hk).1 _) (by rw [hk]; rfl)⟩
  | float =>
    have hv : v.kind = .float := by cases hv : v.kind <;> simp [hv, reduced] at hk ⊢
    refine ⟨_, dispatch_float (e.insn ▸ hc) rfl, sim_dup h ?_ (by rw [hk]; rfl)⟩
    have htop := h.top
    rw [hv] at htop ⊢
    simpa using htop
  | double =>
    have hv : v.kind ≠ .float := by
      intro hv
      simp [hv, reduced] at hk
    exact ⟨_, dispatch_double (e.insn ▸ hc) rfl, sim_dup h (canonical_of_ne hv _) (by rw [hk]; rfl)⟩

theorem dup2 (hk : s.insn.kind = .dup2) (hc : s.insn.code = .parsed .dup2) :
    Answers vm fm m tos s := by
  obtain ⟨stack, hstack, hstep⟩ := e.shuffled (by decide) hc
  rcases hs : s.stack with _ | ⟨b, _ | ⟨a, vs⟩⟩ <;> rw [hs] at hstack <;> cases hstack
  obtain ⟨rfl, h⟩ := e.related.top hs (hc ▸ rfl)
  have hb : reduced b.kind = .int := by
    have htos := e.wellTyped.dup2 _ e.typed.pc ((e.beside.kind e.typed.pc).symm.trans hk)
    rw [← e.beside.parsed e.typed.pc] at htos
    rw [← htos, e.expected.tosBefore, hs, registerOf, Tos.kind_fill]
  rw [Answers, hstep, hb]
  exact ⟨_, dispatch_int (e.insn ▸ hc) rfl, sim_dup2 h hb⟩

/-! ### Loads -/

theorem loadInt (f : StackValue → StackValue) {value : Machine W → BitVec 64}
    (hk : s.insn.kind = code) (hc : s.insn.code = .parsed code) (hl : localKind code = some k)
    (hkinds : code.isLoad ∧ reduced k = .int ∧ k ≠ .void)
    (hf : Forwards vm fm (.parsed code) (pushInt value))
    (hvoid : jmpTableVoid vm fm (.parsed code) = some (pushInt value))
    (hev : evalParsed vm code = loadLocal f) (hvalue : ∀ m, value m = f (m.getLocal fm)) :
    Answers vm fm m tos s := by
  have he := operandKinds_local hk hl
  rw [if_pos hkinds.1] at he
  have hs : ∀ k ∈ shuffleKinds, InsnCodeKind.parsed code ≠ .parsed k := by
    rintro k hk ⟨rfl⟩
    simp only [shuffleKinds, List.mem_cons, List.not_mem_nil, or_false] at hk
    rcases hk with rfl | rfl | rfl | rfl | rfl | rfl | rfl | rfl | rfl <;> cases hl
  refine e.push hc he hs hf hvoid (by rw [hev]; rfl) fun h => ?_
  refine sim_pushInt h hkinds.2.1 hkinds.2.2 ?_
  rw [hvalue, e.localValue (by simp [hk, hl]) h.toSameFrame]

theorem fload (hk : s.insn.kind = .fload) (hc : s.insn.code = .parsed .fload) :
    Answers vm fm m tos s :=
  e.push hc (operandKinds_local hk rfl) (by decide) ⟨rfl, rfl, rfl⟩ rfl rfl fun h =>
    sim_pushFloat h (by rw [e.localValue (by rw [hk]; decide) h.toSameFrame])

theorem dload (hk : s.insn.kind = .dload) (hc : s.insn.code = .parsed .dload) :
    Answers vm fm m tos s :=
  e.push hc (operandKinds_local hk rfl) (by decide) ⟨rfl, rfl, rfl⟩ rfl rfl fun h =>
    sim_pushDouble h (by rw [e.localValue (by rw [hk]; decide) h.toSameFrame])

/-! ### Calls -/

/-- A call of a method with a receiver, before and after it is resolved. -/
theorem callOn {h : VoidHandler W} (hk : s.insn.kind ∈ [.invokespecial, .invokevirtual,
    .invokeinterface]) (hc : s.insn.code = c) (hs : ∀ k ∈ shuffleKinds, c ≠ .parsed k)
    (hf : Forwards vm fm c h) (hvoid : jmpTableVoid vm fm c = some h ∨ rewritten c = false)
    (hsim : ∀ vs rest, CallOn (m.forward tos) s vs rest → Sim vm fm (Waits m s) (h (m.forward tos))
      (Plain.finish vm fm (resultKinds s.insn.toBytecodeInsn) rest (eval vm c s (vs.map (·.word))))) :
    Answers vm fm m tos s := by
  have hvirtual : s.insn.kind ≠ .invokestatic ∧ s.insn.kind ≠ .invokedynamic := by
    simp only [List.mem_cons, List.not_mem_nil, or_false] at hk
    rcases hk with hk | hk | hk <;> simp [hk]
  have he : operandKinds s.insn.toBytecodeInsn = _ := operandKinds_invoke (by simp_all)
  refine e.forward hc hs hf (hvoid.imp_right fun hre => ⟨hre, ?_⟩) he
    fun vs rest hspilled hstack hkinds => hsim vs rest ⟨hspilled, hstack, hkinds, hvirtual⟩
  simp [argKinds, hvirtual]

omit e in
/-- The count of the arguments that resolution has left. -/
theorem argc (hvs : CallOn (m.forward tos) s vs rest) (h : s.insn.argc = s.insn.arity) :
    s.insn.argc = vs.length := by
  rw [h, hvs.length, Insn.arity, if_neg hvs.virtual.1]

theorem invokestatic (hk : s.insn.kind = .invokestatic) (hc : s.insn.code = .parsed .invokestatic) :
    Answers vm fm m tos s :=
  e.forward (h := invokestaticImplVoid vm) hc (by decide) ⟨rfl, rfl, rfl⟩ (.inl rfl)
    (operandKinds_invoke (by simp [hk])) fun vs rest h _ _ =>
      sim_resolveInvokestatic h hc (vs.map (·.word))

theorem invokedynamic (hk : s.insn.kind = .invokedynamic)
    (hc : s.insn.code = .parsed .invokedynamic) : Answers vm fm m tos s :=
  e.forward (h := invokedynamicImplVoid vm) hc (by decide) ⟨rfl, rfl, rfl⟩ (.inl rfl)
    (operandKinds_invoke (by simp [hk])) fun vs rest h _ _ =>
      sim_resolveInvokedynamic h (vs.map (·.word))

theorem invokespecial (hk : s.insn.kind = .invokespecial)
    (hc : s.insn.code = .parsed .invokespecial) : Answers vm fm m tos s :=
  e.callOn (h := invokespecialImplVoid vm) (by simp [hk]) hc (by decide) ⟨rfl, rfl, rfl⟩ (.inr rfl)
    fun _ _ h => h.resolveInvokespecial e.respects e.beside e.typed.pc hc

theorem invokevirtual (hk : s.insn.kind ∈ [.invokevirtual, .invokeinterface])
    (hc : s.insn.code = .parsed .invokevirtual) : Answers vm fm m tos s :=
  e.callOn (h := invokevirtualImplVoid vm) (List.mem_cons_of_mem _ hk) hc (by decide)
    ⟨rfl, rfl, rfl⟩ (.inl rfl) fun _ _ h =>
      h.resolveInvokevirtual e.respects e.beside e.typed.pc hk hc

theorem invokeinterface (hk : s.insn.kind ∈ [.invokevirtual, .invokeinterface])
    (hc : s.insn.code = .parsed .invokeinterface) : Answers vm fm m tos s :=
  e.callOn (h := invokeinterfaceImplVoid vm) (List.mem_cons_of_mem _ hk) hc (by decide)
    ⟨rfl, rfl, rfl⟩ (.inl rfl) fun _ _ h =>
      h.resolveInvokeinterface e.respects e.beside e.typed.pc hc

theorem invokestaticResolved (hk : s.insn.kind = .invokestatic)
    (hc : s.insn.code = .resolved .invokestatic) (hargc : s.insn.argc = s.insn.arity) :
    Answers vm fm m tos s := by
  refine e.forward hc (by decide) ⟨rfl, rfl, rfl⟩ (.inl rfl)
    (operandKinds_invoke (by simp [hk])) fun vs rest h hstack hkinds => ?_
  have hlen : vs.length = s.insn.descriptor.args.length := by
    simpa [argKinds, hk] using congrArg List.length hkinds
  refine sim_invoke h.spillVoid rfl hstack hkinds ?_ (resultKinds_length _)
  rw [h.insn, hargc, hlen, Insn.arity, if_pos hk]

theorem invokecallsite (hk : s.insn.kind = .invokedynamic)
    (hc : s.insn.code = .resolved .invokecallsite) (hargc : s.insn.argc = s.insn.arity) :
    Answers vm fm m tos s := by
  refine e.forward hc (by decide) ⟨rfl, rfl, rfl⟩ (.inl rfl)
    (operandKinds_invoke (by simp [hk])) fun vs rest h hstack hkinds => ?_
  have hlen : vs.length = s.insn.descriptor.args.length := by
    simpa [argKinds, hk] using congrArg List.length hkinds
  refine sim_invoke h.spillVoid rfl hstack hkinds ?_ (resultKinds_length _)
  rw [h.insn, hargc, hlen, Insn.arity, if_neg (by simp [hk])]
  rfl

/-! ### Intrinsics -/

omit e in
/-- The kinds of a method of doubles. -/
theorem operandKinds_doubles {n : Nat} (hk : s.insn.kind = .invokestatic)
    (h : IsDoubles n s.insn.descriptor) :
    operandKinds s.insn.toBytecodeInsn = some (List.replicate n .double, [.double]) := by
  have hret : s.insn.descriptor.returnType.baseKind ≠ .void := fun hvoid => by
    have hd := h.2
    unfold FieldDescriptor.reprKind at hd
    rw [hvoid] at hd
    split_ifs at hd
    · cases hd
    · cases hd
  rw [operandKinds_invoke (by simp [hk]), argKinds, resultKinds, if_neg hret, h.2]
  simp [hk, h.1]

theorem pow (hk : s.insn.kind = .invokestatic) (hc : s.insn.code = .resolved .pow)
    (hd : IsDoubles 2 s.insn.descriptor) : Answers vm fm m tos s := by
  refine e.two hc (by decide) rfl (operandKinds_doubles hk hd) fun b a rest _ ha h =>
    ⟨powImplDouble vm m b.word, dispatch_double (e.insn ▸ hc) rfl, ?_⟩
  have hne : s.insn.descriptor.returnType.reprKind ≠ .float := by simp [hd.2]
  change Sim vm fm (Waits m s) _ (Plain.finish vm fm [.double] rest
    (binary (if s.insn.descriptor.returnType.reprKind = .float then _ else _) s [b.word, a.word]))
  rw [if_neg hne]
  exact sim_doubleBinOp h (by rw [ha]; decide)

theorem math {f : MathFn} (hk : s.insn.kind = .invokestatic)
    (hc : s.insn.code = .resolved (.math f)) (hd : IsDoubles 1 s.insn.descriptor) :
    Answers vm fm m tos s := by
  refine e.one hc (fun k _ => nofun) rfl (operandKinds_doubles hk hd) fun b rest _ h =>
    ⟨doubleUnOp (vm.ops.math f) m b.word, dispatch_double (e.insn ▸ hc) ?_, ?_⟩
  · cases f <;> rfl
  · have hne : s.insn.descriptor.returnType.reprKind ≠ .float := by simp [hd.2]
    change Sim vm fm (Waits m s) _ (Plain.finish vm fm [.double] rest
      (unary (if s.insn.descriptor.returnType.reprKind = .float then _ else _) s [b.word]))
    rw [if_neg hne]
    exact sim_replace h (by decide) rfl

/-! ### All instructions -/

theorem parsed (hk : s.insn.kind = code) (hc : s.insn.code = .parsed code) :
    Answers vm fm m tos s := by
  cases code
  case nop => exact e.nop hk hc
  case jsr => exact absurd hk e.operandsOk.subroutine.1
  case ret => exact absurd hk e.operandsOk.subroutine.2
  case pop => exact e.pop hc
  case pop2 => exact e.pop2 hc
  case swap => exact e.swap hc
  case dup => exact e.dup hc
  case dup2 => exact e.dup2 hk hc
  case dupX1 => exact e.dupX1 hc
  case dupX2 => exact e.dupX2 hc
  case dup2X1 => exact e.dup2X1 hc
  case dup2X2 => exact e.dup2X2 hc
  case iadd | isub | imul | iand | ior | ixor | ishl | ishr | iushr | ladd | lsub | lmul | land | lor
      | lxor | lshl | lshr | lushr | lcmp =>
    exact e.binaryInt hk hc rfl (by decide) rfl rfl
  case fadd | fsub | fmul | fdiv | frem => exact e.binaryFloat hk hc rfl rfl rfl
  case dadd | dsub | dmul | ddiv | drem => exact e.binaryDouble hk hc rfl rfl rfl
  case fcmpg | fcmpl => exact e.compareFloat hk hc rfl rfl rfl
  case dcmpg | dcmpl => exact e.compareDouble hk hc rfl rfl rfl
  case ineg | lneg | i2l | i2s | i2b | i2c | i2d | l2i | l2d =>
    exact e.unaryInt hk hc rfl rfl (by decide) rfl rfl fun _ _ => rfl
  case i2f | l2f =>
    exact e.unaryInt hk hc (f := fun a => .ofFloat (vm.ops.s64ToFloat a)) rfl rfl (by decide) rfl rfl
      fun _ _ => by simp only [reduced, Tos.fill, low_ofFloat]; rfl
  case f2d | f2i | f2l => exact e.unaryFloat hk hc rfl (by decide) rfl rfl fun _ _ => rfl
  case fneg =>
    exact e.unaryFloat hk hc (f := fun a => .ofFloat (vm.ops.fneg a.low)) rfl (by decide) rfl rfl
      fun _ _ => by simp only [reduced, Tos.fill, low_ofFloat]; rfl
  case d2i | d2l | dneg => exact e.unaryDouble hk hc rfl (by decide) rfl rfl fun _ _ => rfl
  case d2f =>
    exact e.unaryDouble hk hc (f := fun a => .ofFloat (vm.ops.doubleToFloat a)) rfl (by decide) rfl rfl
      fun _ _ => by simp only [reduced, Tos.fill, low_ofFloat]; rfl
  case idiv =>
    exact e.division (fun a b => (javaDiv a.low b.low).signExtend 64) (·.low = 0) hk hc rfl
      (by decide) rfl (fun _ _ => rfl) fun _ => rfl
  case irem =>
    exact e.division (fun a b => (javaRem a.low b.low).signExtend 64) (·.low = 0) hk hc rfl
      (by decide) rfl (fun _ _ => rfl) fun _ => rfl
  case ldiv => exact e.division javaDiv (· = 0) hk hc rfl (by decide) rfl (fun _ _ => rfl) fun _ => rfl
  case lrem => exact e.division javaRem (· = 0) hk hc rfl (by decide) rfl (fun _ _ => rfl) fun _ => rfl
  case aaload | baload | caload | saload | iaload | laload | daload =>
    exact e.loadElement hk hc rfl (by decide) rfl rfl fun _ _ => ⟨_, rfl, rfl⟩
  case faload =>
    exact e.loadElement hk hc (f := fun mem a => .ofFloat (mem.load32 a)) rfl (by decide) rfl rfl
      fun _ _ => ⟨_, rfl, by simp [reduced, Tos.fill]⟩
  case bastore | castore | sastore | iastore | lastore =>
    exact e.storeElement hk hc rfl rfl fun _ => ⟨_, dispatch_int (e.insn ▸ hc) rfl, rfl⟩
  case fastore =>
    exact e.storeElement hk hc rfl rfl fun _ => ⟨_, dispatch_float (e.insn ▸ hc) rfl, rfl⟩
  case dastore =>
    exact e.storeElement hk hc rfl rfl fun _ => ⟨_, dispatch_double (e.insn ▸ hc) rfl, rfl⟩
  case aastore =>
    obtain ⟨hs, hre⟩ := plain_of_effect .aastore rfl
    exact e.three hc hs hre (operandKinds_eq hk rfl) fun c b a rest hc' _ ha h =>
      ⟨_, dispatch_int (e.insn ▸ hc) rfl,
        sim_aastore h (by rw [ha]; decide) (by rw [hc']; decide)⟩
  case iload =>
    exact e.loadInt (fun v => .ofInt v.low) hk hc rfl (by decide) ⟨rfl, rfl, rfl⟩ rfl rfl fun _ => rfl
  case lload | aload =>
    exact e.loadInt (fun v => v) hk hc rfl (by decide) ⟨rfl, rfl, rfl⟩ rfl rfl fun _ => rfl
  case fload => exact e.fload hk hc
  case dload => exact e.dload hk hc
  case istore =>
    exact e.storeLocal (fun old v => old.setLow v.low) hk hc rfl rfl (by decide) rfl fun _ =>
      ⟨_, dispatch_int (e.insn ▸ hc) rfl, rfl⟩
  case lstore | astore =>
    exact e.storeLocal (fun _ v => v) hk hc rfl rfl (by decide) rfl fun _ =>
      ⟨_, dispatch_int (e.insn ▸ hc) rfl, rfl⟩
  case fstore =>
    exact e.storeLocal (fun old v => old.setLow v.low) hk hc rfl rfl (by decide) rfl fun _ =>
      ⟨_, dispatch_float (e.insn ▸ hc) rfl, rfl⟩
  case dstore =>
    exact e.storeLocal (fun _ v => v) hk hc rfl rfl (by decide) rfl fun _ =>
      ⟨_, dispatch_double (e.insn ▸ hc) rfl, rfl⟩
  case aconstNull =>
    exact e.push hc (operandKinds_eq hk rfl) (by decide) ⟨rfl, rfl, rfl⟩ rfl rfl fun h =>
      sim_pushInt h rfl (by decide) rfl
  case iconst | lconst =>
    exact e.push hc (operandKinds_eq hk rfl) (by decide) ⟨rfl, rfl, rfl⟩ rfl rfl fun h =>
      sim_pushInt h rfl (by decide) (by rw [h.insn])
  case fconst =>
    exact e.push hc (operandKinds_eq hk rfl) (by decide) ⟨rfl, rfl, rfl⟩ rfl rfl fun h =>
      sim_pushFloat h (by rw [h.insn])
  case dconst =>
    exact e.push hc (operandKinds_eq hk rfl) (by decide) ⟨rfl, rfl, rfl⟩ rfl rfl fun h =>
      sim_pushDouble h (by rw [h.insn])
  case iinc => exact e.iinc hk hc
  case ifeq | ifne | iflt | ifge | ifgt | ifle | ifnull | ifnonnull =>
    exact e.branchOne hk hc rfl rfl rfl rfl rfl
  case ifIcmpeq | ifIcmpne | ifIcmplt | ifIcmpge | ifIcmpgt | ifIcmple =>
    exact e.branchInts hk hc rfl rfl rfl rfl
  case ifAcmpeq | ifAcmpne => exact e.branchTwo hk hc rfl rfl rfl rfl rfl fun _ _ => rfl
  case goto => exact e.goto hk hc
  case tableswitch => exact e.tableswitch hk hc
  case lookupswitch => exact e.lookupswitch hk hc
  case areturn | lreturn =>
    exact e.ret id hk hc rfl (fun _ => rfl) fun v =>
      ⟨_, dispatch_int (e.insn ▸ hc) rfl, m.spillInt v, rfl, rfl⟩
  case ireturn =>
    exact e.ret (fun v => .ofInt v.low) hk hc rfl (fun _ => rfl) fun v =>
      ⟨_, dispatch_int (e.insn ▸ hc) rfl, m.spillInt v, rfl, rfl⟩
  case freturn =>
    exact e.ret (fun v => .ofFloat v.low) hk hc rfl (fun _ => rfl) fun v =>
      ⟨_, dispatch_float (e.insn ▸ hc) rfl, (m.setTop (.ofFloat v.low)).spillVoid, rfl, rfl⟩
  case dreturn =>
    exact e.ret id hk hc rfl (fun _ => rfl) fun v =>
      ⟨_, dispatch_double (e.insn ▸ hc) rfl, m.spillInt v, rfl, rfl⟩
  case return_ => exact e.return_ hk hc
  case arraylength => exact e.arraylength hk hc
  case athrow => exact e.athrow hk hc
  case monitorenter => exact e.monitorenter hk hc
  case monitorexit => exact e.monitorexit hk hc
  case new => exact e.new hk hc
  case newarray => exact e.newarray hk hc
  case anewarray => exact e.anewarray hk hc
  case multianewarray => exact e.multianewarray hk hc
  case checkcast | instanceof => exact e.check hk hc rfl rfl rfl
  case ldc => exact e.ldc hk hc
  case getfield => exact e.getfield hk hc
  case putfield => exact e.putfield hk hc
  case getstatic => exact e.getstatic hk hc
  case putstatic => exact e.putstatic hk hc
  case invokestatic => exact e.invokestatic hk hc
  case invokedynamic => exact e.invokedynamic hk hc
  case invokespecial => exact e.invokespecial hk hc
  case invokevirtual => exact e.invokevirtual (by simp [hk]) hc
  case invokeinterface => exact e.invokeinterface (by simp [hk]) hc

theorem resolved {r : ResolvedCode} (hc : s.insn.code = .resolved r) :
    Answers vm fm m tos s := by
  have hform := e.beside.wellFormed e.typed.pc
  rw [Insn.WellFormed, hc] at hform
  have hcall : s.insn.kind ∈ [.invokevirtual, .invokeinterface] →
      s.insn.kind ∈ [.invokespecial, .invokevirtual, .invokeinterface] := List.mem_cons_of_mem _
  cases r
  case anewarray => exact e.anewarrayResolved hform hc
  case checkcast => exact e.checkcastResolved hform hc
  case instanceof => exact e.instanceofResolved hform hc
  case new => exact e.newResolved hform hc
  case invokestatic => exact e.invokestaticResolved hform.1 hc hform.2
  case invokecallsite => exact e.invokecallsite hform.1 hc hform.2
  case getfield => exact e.getfieldResolved hform.1 hc hform.2
  case putfield => exact e.putfieldResolved hform.1 hc hform.2
  case getstatic => exact e.getstaticResolved hform.1 hc hform.2
  case putstatic => exact e.putstaticResolved hform.1 hc hform.2
  case pow => exact e.pow hform.1 hc hform.2
  case math => exact e.math hform.1 hc hform.2
  case invokespecial =>
    exact e.callOn (h := invokespecialResolvedImplVoid vm) hform.1 hc (by decide) ⟨rfl, rfl, rfl⟩
      (.inl rfl) fun _ _ h => h.invokeOn (argc h hform.2) (resultKinds_length _)
  case invokevtablePolymorphic =>
    exact e.callOn (h := invokevtablePolymorphicImplVoid vm) (hcall hform.1) hc (by decide)
      ⟨rfl, rfl, rfl⟩ (.inl rfl) fun _ _ h => h.invokeOn (argc h hform.2) (resultKinds_length _)
  case invokesigpoly =>
    exact e.callOn (h := invokesigpolyImplVoid vm) (hcall hform.1) hc (by decide) ⟨rfl, rfl, rfl⟩
      (.inl rfl) fun _ _ h => h.invokeOn (argc h hform.2) (resultKinds_length _)
  case invokevtableMonomorphic | invokeitableMonomorphic =>
    exact e.callOn (h := invokeitableVtableMonomorphicImplVoid vm) (hcall hform.1) hc (by decide)
      ⟨rfl, rfl, rfl⟩ (.inl rfl) fun _ _ h =>
        h.invokeMonomorphic (argc h hform.2) (resultKinds_length _)
  case invokeitablePolymorphic =>
    exact e.callOn (h := invokeitablePolymorphicImplVoid vm) (hcall hform.1) hc (by decide)
      ⟨rfl, rfl, rfl⟩ (.inl rfl) fun _ _ h =>
        h.invokeitablePolymorphic (argc h hform.2) (resultKinds_length _)

/-- Every instruction of typed code is answered. -/
theorem answers : Answers vm fm m tos s := by
  rcases hc : s.insn.code with code | r
  · have hform := e.beside.wellFormed e.typed.pc
    simp only [Insn.WellFormed, hc] at hform
    rcases hform with hk | ⟨rfl, hk⟩ | ⟨rfl, hk⟩ | ⟨rfl, -, -⟩
    · exact e.parsed hk.symm hc
    · exact e.invokevirtual (by simp [hk]) hc
    · exact e.invokeinterface (by simp [hk]) hc
    · exact e.pop hc
  · exact e.resolved hc

end Enters

end BJvm.Interpreter

import BJvm.Interpreter.TypedCode
import BJvm.Proofs.NpeSources
import Mathlib.Data.List.GetD
import Mathlib.Tactic.Common

/-!
# Typed code does not go wrong

On typed code the plain interpreter always finds its operands, and the kinds on its stack are those
found for the instruction: what one instruction does is in `eval_ok`, what it leaves in
`Typed.step`.
-/

namespace BJvm.Interpreter

open ClassFile StackValue Function

variable {W : Type} {vm : Vm W} {fm : FrameMethod} {P : TypedCode} {s s₀ s' : Plain W}
  {insn insn' : Insn} {ops : List StackValue} {heap : Heap W} {v : StackValue}

/-! ### Rewriting -/

@[simp] theorem Plain.rewrite_insn (s : Plain W) (f : Insn → Insn) :
    (s.rewrite f).insn = f s.insn := by
  simp [Plain.rewrite, Plain.insn]

theorem Insn.RewrittenTo.arity (h : insn.RewrittenTo insn') : insn'.arity = insn.arity := by
  simp only [Insn.arity, h.parsed]

theorem Insn.RewrittenTo.argc_eq (h : insn.RewrittenTo insn') (ha : insn.argc = insn.arity) :
    insn'.argc = insn'.arity := by
  rw [h.arity]
  rcases h.argc with h | h
  · rw [h, ha]
  · exact h

theorem Vm.Respects.answer {r : Request} {heap heap' : Heap W} {x : Except StackValue StackValue}
    (hv : vm.Respects P) (h : vm.request r heap = (heap', x)) :
    ∀ pc < P.size, (heap.code pc).RewrittenTo (heap'.code pc) := fun pc hpc => by
  have hr := hv.request r heap pc hpc
  rwa [h] at hr

/-- The instructions of `s`, those of the state `s₀` behind some rewriting. -/
structure Beside (P : TypedCode) (s₀ s : Plain W) : Prop where
  pc : s.pc = s₀.pc
  stack : s.stack = s₀.stack
  runs : P.Runs s.heap.code

namespace Beside

theorem refl (h : P.Runs s.heap.code) : Beside P s s := ⟨rfl, rfl, h⟩

variable (h : Beside P s₀ s) (hpc : s₀.pc < P.size)

include h hpc in
theorem parsed : s.insn.toParsedInsn = P.code s₀.pc := by
  rw [Plain.insn, h.pc]
  exact (h.runs _ hpc).1

include h hpc in
theorem kind : s.insn.kind = (P.code s₀.pc).kind := by
  rw [← h.parsed hpc]

include h hpc in
theorem wellFormed : s.insn.WellFormed := by
  rw [Plain.insn, h.pc]
  exact (h.runs _ hpc).2

include h in
theorem setHeap (hr : ∀ pc < P.size, (s.heap.code pc).RewrittenTo (heap.code pc)) :
    Beside P s₀ { s with heap } := by
  refine ⟨h.pc, h.stack, fun pc hlt => ?_⟩
  obtain ⟨hparsed, hform⟩ := h.runs pc hlt
  exact ⟨(hr pc hlt).parsed.trans hparsed, (hr pc hlt).wellFormed hform⟩

include h hpc in
theorem rewrite {f : Insn → Insn} (hf : (f s.insn).toParsedInsn = s.insn.toParsedInsn)
    (hw : (f s.insn).WellFormed) : Beside P s₀ (s.rewrite f) := by
  refine ⟨h.pc, h.stack, fun pc hlt => ?_⟩
  show (update s.heap.code s.pc (f s.insn) pc).toParsedInsn = _ ∧ _
  rcases eq_or_ne pc s.pc with rfl | hne
  · simp only [Plain.rewrite, update_self, hf]
    exact ⟨(h.parsed hpc).trans (by rw [h.pc]), hw⟩
  · simp only [Plain.rewrite, update_of_ne hne]
    exact h.runs pc hlt

include h hpc in
/-- A virtual or an interface call in any of its forms. -/
theorem virtual {f : Insn → Insn}
    (hk : (P.code s₀.pc).kind ∈ [.invokevirtual, .invokeinterface])
    (hparsed : (f s.insn).toParsedInsn = s.insn.toParsedInsn)
    (hargc : (f s.insn).argc = s.insn.arity)
    (hcode : (f s.insn).code ∈ [.parsed .invokevirtual, .parsed .invokeinterface,
      .resolved .invokespecial, .resolved .invokesigpoly,
      .resolved .invokevtableMonomorphic, .resolved .invokevtablePolymorphic,
      .resolved .invokeitableMonomorphic, .resolved .invokeitablePolymorphic]) :
    Beside P s₀ (s.rewrite f) := by
  refine h.rewrite hpc hparsed ?_
  have hkind : (f s.insn).kind = (P.code s₀.pc).kind := by rw [hparsed, h.kind hpc]
  have hargc : (f s.insn).argc = (f s.insn).arity := by
    rw [hargc, Insn.arity, Insn.arity, hparsed]
  simp only [List.mem_cons, List.not_mem_nil, or_false] at hk hcode
  rcases hcode with hc | hc | hc | hc | hc | hc | hc | hc <;>
    simp only [Insn.WellFormed, hc, hkind, hargc] <;> rcases hk with hk | hk <;> simp [hk]

include h hpc in
/-- The arguments are counted before the method is resolved. -/
theorem counted {code : InsnCode} (hc : s.insn.code = .parsed code) :
    Beside P s₀ (s.rewrite fun insn => { insn with argc := insn.descriptor.args.length + 1 }) := by
  have hform := h.wellFormed hpc
  refine h.rewrite hpc rfl ?_
  simp only [Insn.WellFormed, hc] at hform ⊢
  exact hform

include h in
theorem setMem (mem : Memory) : Beside P s₀ (s.setMem mem) := ⟨h.pc, h.stack, h.runs⟩

include h in
theorem setLocal (i : Nat) (v : StackValue) : Beside P s₀ (s.setLocal i v) :=
  ⟨h.pc, h.stack, h.runs⟩

end Beside

/-! ### Outcomes -/

/-- The instruction at `s` may end so. -/
def Outcome.Ok (P : TypedCode) (s : Plain W) : Outcome W → Prop
  | .next s' _ => Beside P s s' ∧ s.pc + 1 ∈ flowsTo (P.code s.pc).toBytecodeInsn s.pc
  | .branch s' target => Beside P s s' ∧ target ∈ flowsTo (P.code s.pc).toBytecodeInsn s.pc
  | .again s' => Beside P s s'
  | .throw s' _ => Beside P s s'
  | .ret .. => True
  | .abort => False

theorem raise_ok {e : Exn} (hv : vm.Respects P) (h : Beside P s₀ s) : (raise vm e s).Ok P s₀ :=
  h.setHeap (hv.raise e s.heap)

theorem ask_ok {r : Request} {k : Plain W → StackValue → Outcome W} (hv : vm.Respects P)
    (h : Beside P s₀ s)
    (hk : ∀ heap v, vm.request r s.heap = (heap, .ok v) → Beside P s₀ { s with heap } →
      (∀ pc < P.size, (s.heap.code pc).RewrittenTo (heap.code pc)) →
      (k { s with heap } v).Ok P s₀) :
    (ask vm r s k).Ok P s₀ := by
  unfold ask
  rcases hreq : vm.request r s.heap with ⟨heap, e | v⟩
  · exact h.setHeap (hv.answer hreq)
  · exact hk heap v hreq (h.setHeap (hv.answer hreq)) (hv.answer hreq)

theorem nonNull_ok {obj : StackValue} {k : Outcome W} (hv : vm.Respects P) (h : Beside P s₀ s)
    (hk : k.Ok P s₀) : (nonNull vm obj s k).Ok P s₀ := by
  unfold nonNull
  split_ifs
  · exact raise_ok hv h
  · exact hk

theorem accessElement_ok {array index : StackValue} {k : Outcome W} (hv : vm.Respects P)
    (h : Beside P s₀ s) (hk : k.Ok P s₀) : (accessElement vm array index s k).Ok P s₀ := by
  refine nonNull_ok hv h ?_
  dsimp only
  split_ifs
  · exact raise_ok hv h
  · exact hk

/-! ### Resolution -/

section

variable (hv : vm.Respects P) (h : Beside P s s) (hpc : s.pc < P.size)

include hv h hpc

theorem resolveField_ok {putfield : Bool} {i : Nat}
    (hk : (P.code s.pc).kind = if putfield then .putfield else .getfield) :
    (resolveField vm putfield i s ops).Ok P s := by
  refine nonNull_ok hv h (ask_ok hv h fun heap v _ hb _ => ?_)
  refine hb.rewrite hpc rfl ?_
  have hkind := hb.kind hpc
  cases putfield <;> exact ⟨hkind.trans hk, rfl⟩

theorem resolveStatic_ok (hk : (P.code s.pc).kind = .putstatic ∨ (P.code s.pc).kind = .getstatic)
    (hc : s.insn.code = .parsed (P.code s.pc).kind) (ops : List StackValue) :
    (resolveStatic vm s ops).Ok P s := by
  refine ask_ok hv h fun heap v hreq hb _ => ?_
  have hkind := hb.kind hpc
  refine hb.rewrite hpc rfl ?_
  rcases hk with hk | hk
  · have hstays := hv.putstatic s.heap s.pc hpc (hc.trans (by rw [hk]))
    rw [hreq] at hstays
    have hcode : ({ s with heap } : Plain W).insn.code = .parsed .putstatic := hstays
    simp only [hcode, if_true]
    exact ⟨hkind.trans hk, rfl⟩
  · have hcode : ({ s with heap } : Plain W).insn.code ≠ .parsed .putstatic := by
      intro hcode
      have hform := hb.wellFormed hpc
      simp only [Insn.WellFormed, hcode, hkind.trans hk] at hform
      simp at hform
    simp only [hcode, if_false]
    exact ⟨hkind.trans hk, rfl⟩

theorem resolveNew_ok (hk : (P.code s.pc).kind = .new) (ops : List StackValue) :
    (resolveNew vm s ops).Ok P s := by
  refine ask_ok hv h fun heap v _ hb _ => ask_ok hv hb fun heap v _ hb _ => ?_
  exact hb.rewrite hpc rfl ((hb.kind hpc).trans hk)

theorem resolveClassTo_ok {code : ResolvedCode}
    (hk : code = .anewarray ∧ (P.code s.pc).kind = .anewarray ∨
      code = .checkcast ∧ (P.code s.pc).kind = .checkcast ∨
      code = .instanceof ∧ (P.code s.pc).kind = .instanceof) (ops : List StackValue) :
    (resolveClassTo vm code s ops).Ok P s := by
  refine ask_ok hv h fun heap v _ hb _ => hb.rewrite hpc rfl ?_
  rcases hk with ⟨rfl, hk⟩ | ⟨rfl, hk⟩ | ⟨rfl, hk⟩ <;> exact (hb.kind hpc).trans hk

theorem resolveInvokedynamic_ok (hk : (P.code s.pc).kind = .invokedynamic)
    (ops : List StackValue) : (resolveInvokedynamic vm s ops).Ok P s := by
  refine ask_ok hv h fun heap v hreq hb _ => hb.rewrite hpc rfl ?_
  have hkind : ({ s with heap } : Plain W).insn.kind = .invokedynamic := (hb.kind hpc).trans hk
  refine ⟨hkind, ?_⟩
  show vm.arity heap v = _
  rw [hv.arity s.pc hpc hk s.heap heap v hreq, Insn.arity, if_neg (by rw [hkind]; decide), hb.parsed hpc]

theorem resolveInvokestatic_ok (hk : (P.code s.pc).kind = .invokestatic)
    (ops : List StackValue) : (resolveInvokestatic vm s ops).Ok P s := by
  refine ask_ok hv h fun heap v hreq hb _ => ?_
  have hkind : ({ s with heap } : Plain W).insn.kind = .invokestatic := (hb.kind hpc).trans hk
  have hresolved := hb.rewrite hpc (f := fun insn =>
    { insn with
      code := .resolved .invokestatic
      resolved := v
      ic := v
      argc := insn.descriptor.args.length
      returns := insn.descriptor.returnType.baseKind ≠ .void }) rfl
    ⟨hkind, by rw [Insn.arity, if_pos hkind]⟩
  dsimp only
  split
  · rename_i code hcode
    refine hresolved.rewrite hpc rfl ?_
    rw [Plain.rewrite_insn] at hcode ⊢
    have hof := hv.intrinsic _ hpc hk _ _ _ _ _ hreq hcode
    rw [← hb.parsed hpc] at hof
    cases code <;> first | exact ⟨hkind, hof⟩ | exact hof.elim
  · exact hresolved

/-- The instruction when its method has been resolved: the arguments are still counted. -/
theorem receiver_resolved {code : InsnCode} {method : StackValue}
    (hk : (P.code s.pc).kind ≠ .invokestatic) (hc : s.insn.code = .parsed code)
    (hreq : vm.request (.resolveMethodref s.pc) (s.rewrite fun insn =>
      { insn with argc := insn.descriptor.args.length + 1 }).heap = (heap, .ok method)) :
    ∃ s', s' = ({ (s.rewrite fun insn =>
        { insn with argc := insn.descriptor.args.length + 1 }) with heap } : Plain W).rewrite
        (fun insn => { insn with resolved := method }) ∧
      Beside P s s' ∧ s'.insn.argc = s'.insn.arity := by
  have harity : s.insn.arity = s.insn.descriptor.args.length + 1 :=
    if_neg (by rw [h.kind hpc]; exact hk)
  have hr := hv.answer hreq
  have hset := (h.counted hpc hc).setHeap hr
  refine ⟨_, rfl, hset.rewrite hpc rfl (hset.wellFormed hpc), ?_⟩
  rw [Plain.rewrite_insn]
  refine (hr s.pc hpc).argc_eq ?_
  show (s.rewrite _).insn.argc = (s.rewrite _).insn.arity
  rw [Plain.rewrite_insn]
  exact harity.symm

/-- Up to where the instructions with a receiver differ. -/
theorem resolveReceiver_ok {k : Plain W → StackValue → StackValue → Outcome W} {code : InsnCode}
    (hk : (P.code s.pc).kind ≠ .invokestatic) (hc : s.insn.code = .parsed code)
    (hok : ∀ s' receiver method, Beside P s s' → s'.insn.argc = s'.insn.arity →
      (k s' receiver method).Ok P s) : (resolveReceiver vm k s ops).Ok P s := by
  have hcounted := h.counted hpc hc
  refine nonNull_ok hv hcounted (ask_ok hv hcounted fun heap v hreq _ _ => ?_)
  obtain ⟨_, rfl, hb, hargc⟩ := receiver_resolved hv h hpc hk hc hreq
  exact hok _ _ _ hb hargc

theorem resolveInvokevirtual_ok (hk : (P.code s.pc).kind ∈ [.invokevirtual, .invokeinterface])
    (hc : s.insn.code = .parsed .invokevirtual) : (resolveInvokevirtual vm s ops).Ok P s := by
  have hstatic : (P.code s.pc).kind ≠ .invokestatic := fun h => by rw [h] at hk; simp at hk
  refine resolveReceiver_ok hv h hpc hstatic hc fun s₁ receiver method hb hargc => ?_
  have hmarked : Beside P s (s₁.rewrite markInsnReturns) :=
    hb.rewrite hpc rfl (hb.wellFormed hpc)
  have hargc : (s₁.rewrite markInsnReturns).insn.argc = (s₁.rewrite markInsnReturns).insn.arity := by
    rw [Plain.rewrite_insn]
    exact hargc
  dsimp only
  split_ifs
  · refine ask_ok hv (hmarked.virtual hpc hk rfl hargc (by simp)) fun heap v _ hb hr => ?_
    refine hb.rewrite hpc rfl (hb.wellFormed hpc)
  · exact hmarked.virtual hpc hk rfl hargc (by simp)
  · exact hmarked.virtual hpc hk rfl hargc (by simp)
  · exact hmarked.virtual hpc hk rfl hargc (by simp)

theorem resolveInvokeinterface_ok (hk : (P.code s.pc).kind ∈ [.invokevirtual, .invokeinterface])
    (hc : s.insn.code = .parsed .invokeinterface) : (resolveInvokeinterface vm s ops).Ok P s := by
  have hstatic : (P.code s.pc).kind ≠ .invokestatic := fun h => by rw [h] at hk; simp at hk
  refine resolveReceiver_ok hv h hpc hstatic hc fun s₁ receiver method hb hargc => ?_
  have hmarked : Beside P s (s₁.rewrite markInsnReturns) :=
    hb.rewrite hpc rfl (hb.wellFormed hpc)
  have hargc' : (s₁.rewrite markInsnReturns).insn.argc =
      (s₁.rewrite markInsnReturns).insn.arity := by
    rw [Plain.rewrite_insn]
    exact hargc
  dsimp only
  split_ifs
  · exact hb.virtual hpc hk rfl hargc (by simp)
  · exact raise_ok hv hmarked
  · exact hmarked.virtual hpc hk rfl hargc' (by simp)
  · exact hmarked.virtual hpc hk rfl hargc' (by simp)

theorem resolveInvokespecial_ok (hk : (P.code s.pc).kind = .invokespecial)
    (hc : s.insn.code = .parsed .invokespecial) : (resolveInvokespecial vm s ops).Ok P s := by
  refine resolveReceiver_ok hv h hpc (by rw [hk]; decide) hc fun s₁ receiver method hb hargc => ?_
  refine ask_ok hv hb fun heap candidate hreq hb' hr => hb'.rewrite hpc rfl ?_
  have hkind : ({ s₁ with heap } : Plain W).insn.kind = .invokespecial := (hb'.kind hpc).trans hk
  have hargc : ({ s₁ with heap } : Plain W).insn.argc = ({ s₁ with heap } : Plain W).insn.arity :=
    (hr s₁.pc (hb.pc ▸ hpc)).argc_eq hargc
  dsimp only
  split_ifs with hinit
  · have hempty := hv.objectInit _ (hb.pc ▸ hpc) (hb.pc ▸ hk) _ _ _ _ hreq hinit
    rw [hb.pc, ← hb'.parsed hpc] at hempty
    exact .inr (.inr (.inr ⟨rfl, hkind, hempty⟩))
  · refine ⟨?_, hargc⟩
    show ({ s₁ with heap } : Plain W).insn.kind ∈ _
    rw [hkind]
    simp

/-! ### Calls -/

omit hpc in
theorem invoke_ok (hn : s.pc + 1 ∈ flowsTo (P.code s.pc).toBytecodeInsn s.pc) :
    (invoke vm s ops).Ok P s := by
  unfold invoke
  exact ask_ok hv h fun _ _ _ hb _ => ⟨hb, hn⟩

omit hpc in
theorem invokeOn_ok {k : PlainOp W} (hk : (k s ops).Ok P s) : (invokeOn vm k s ops).Ok P s :=
  nonNull_ok hv h hk

theorem invokeMonomorphic_ok (hk : (P.code s.pc).kind ∈ [.invokevirtual, .invokeinterface])
    (hargc : s.insn.argc = s.insn.arity)
    (hn : s.pc + 1 ∈ flowsTo (P.code s.pc).toBytecodeInsn s.pc) :
    (invokeMonomorphic vm s ops).Ok P s := by
  refine invokeOn_ok hv h ?_
  split_ifs
  · exact h.virtual hpc hk rfl hargc (by simp)
  · exact h.virtual hpc hk rfl hargc (by simp)
  · exact invoke_ok hv h hn

omit hpc in
theorem invokeitablePolymorphic_ok
    (hn : s.pc + 1 ∈ flowsTo (P.code s.pc).toBytecodeInsn s.pc) :
    (invokeitablePolymorphic vm s ops).Ok P s := by
  refine invokeOn_ok hv h ?_
  split_ifs
  · exact raise_ok hv h
  · exact invoke_ok hv h hn

/-! ### Instructions -/

omit hv h hpc in
theorem next_mem_flowsTo {k : InsnCode} (hk : (P.code s.pc).kind = k)
    (hn : k.controlFlow = .next ∨ k.controlFlow = .conditional) :
    s.pc + 1 ∈ flowsTo (P.code s.pc).toBytecodeInsn s.pc := by
  rw [flowsTo, hk]
  rcases hn with hn | hn <;> simp [hn]

omit hv h hpc in
theorem tableswitch_mem {data : SwitchData} {low high index : Int}
    (hlen : (data.targets.length : Int) = high - low + 1) :
    (if index < low ∨ high < index then data.defaultTarget
      else data.targets.getD (index - low).toNat 0) ∈ data.successors := by
  rw [SwitchData.successors, List.mem_append, List.mem_singleton]
  split_ifs with hout
  · exact .inr rfl
  · have hlt : (index - low).toNat < data.targets.length := by omega
    rw [List.getD_eq_getElem _ _ hlt]
    exact .inl (List.getElem_mem hlt)

omit hv h hpc in
theorem lookupTarget_mem {data : SwitchData} {key : Int} : ∀ {keys : List Int},
    (lookupTarget key keys data.targets).getD data.defaultTarget ∈ data.successors := by
  rw [SwitchData.successors]
  generalize data.targets = targets
  intro keys
  induction keys generalizing targets with
  | nil => simp [lookupTarget]
  | cons k keys ih =>
    cases targets with
    | nil => simp [lookupTarget]
    | cons target targets =>
      rw [lookupTarget]
      split_ifs
      · simp
      · exact List.mem_cons_of_mem _ (ih targets)

theorem evalParsed_ok {k : InsnCode} (hk : (P.code s.pc).kind = k) (hc : s.insn.code = .parsed k)
    (hs : k ∉ shuffleKinds) (hj : k ≠ .jsr ∧ k ≠ .ret)
    (ht : k = .tableswitch →
      ((P.code s.pc).tableswitch.targets.length : Int) = (P.code s.pc).high - (P.code s.pc).low + 1) :
    (evalParsed vm k s ops).Ok P s := by
  have hn := next_mem_flowsTo (s := s) hk
  have hparsed := h.parsed hpc
  cases k
  case dup | dupX1 | dupX2 | dup2 | dup2X1 | dup2X2 | pop | pop2 | swap => exact (hs (by decide)).elim
  case jsr => exact absurd rfl hj.1
  case ret => exact absurd rfl hj.2
  case areturn | lreturn | dreturn | ireturn | freturn | return_ => trivial
  case nop | aconstNull | iconst | lconst | dconst | fconst => exact ⟨h, hn (.inl rfl)⟩
  case d2f | d2i | d2l | dadd | dcmpg | dcmpl | ddiv | dmul | dneg | drem | dsub | f2d | f2i | f2l
      | fadd | fcmpg | fcmpl | fdiv | fmul | fneg | frem | fsub | i2b | i2c | i2d | i2f | i2l | i2s
      | iadd | iand | imul | ineg | ior | ishl | ishr | isub | iushr | ixor | l2d | l2f | l2i | ladd
      | land | lcmp | lmul | lneg | lor | lshl | lshr | lsub | lushr | lxor =>
    exact ⟨h, hn (.inl rfl)⟩
  case dload | lload | aload | fload | iload => exact ⟨h, hn (.inl rfl)⟩
  case dstore | lstore | astore | fstore | istore | iinc => exact ⟨h.setLocal .., hn (.inl rfl)⟩
  case idiv | irem | ldiv | lrem =>
    dsimp only [evalParsed, intDivide, longDivide]
    split_ifs
    · exact raise_ok hv h
    · exact ⟨h, hn (.inl rfl)⟩
  case aaload | baload | caload | daload | faload | iaload | laload | saload =>
    exact accessElement_ok hv h ⟨h, hn (.inl rfl)⟩
  case bastore | castore | dastore | fastore | iastore | lastore | sastore =>
    exact accessElement_ok hv h ⟨h.setMem _, hn (.inl rfl)⟩
  case aastore =>
    refine accessElement_ok hv h ?_
    split_ifs
    · exact raise_ok hv h
    · exact ⟨h.setMem _, hn (.inl rfl)⟩
  case arraylength => exact nonNull_ok hv h ⟨h, hn (.inl rfl)⟩
  case athrow => exact nonNull_ok hv h h
  case monitorenter =>
    exact nonNull_ok hv h (ask_ok hv h fun _ _ _ hb _ => ⟨hb, hn (.inl rfl)⟩)
  case monitorexit =>
    refine nonNull_ok hv h (ask_ok hv h fun _ _ _ hb _ => ?_)
    split_ifs
    · exact raise_ok hv hb
    · exact ⟨hb, hn (.inl rfl)⟩
  case ldc | multianewarray => exact ask_ok hv h fun _ _ _ hb _ => ⟨hb, hn (.inl rfl)⟩
  case newarray =>
    dsimp only [evalParsed, newArray]
    split_ifs
    · exact raise_ok hv h
    · exact ask_ok hv h fun _ _ _ hb _ => ⟨hb, hn (.inl rfl)⟩
  case anewarray | checkcast | instanceof => exact resolveClassTo_ok hv h hpc (by simp [hk]) ops
  case getfield | putfield => exact resolveField_ok hv h hpc hk
  case getstatic | putstatic => exact resolveStatic_ok hv h hpc (by simp [hk]) (by rw [hc, hk]) ops
  case new => exact resolveNew_ok hv h hpc hk ops
  case invokedynamic => exact resolveInvokedynamic_ok hv h hpc hk ops
  case invokestatic => exact resolveInvokestatic_ok hv h hpc hk ops
  case invokevirtual => exact resolveInvokevirtual_ok hv h hpc (by simp [hk]) hc
  case invokespecial => exact resolveInvokespecial_ok hv h hpc hk hc
  case invokeinterface => exact resolveInvokeinterface_ok hv h hpc (by simp [hk]) hc
  case goto => exact ⟨h, by simp [flowsTo, hk, InsnCode.controlFlow, hparsed]⟩
  case ifAcmpeq | ifAcmpne | ifIcmpeq | ifIcmpne | ifIcmplt | ifIcmpge | ifIcmpgt | ifIcmple | ifeq
      | ifne | iflt | ifge | ifgt | ifle | ifnonnull | ifnull =>
    dsimp only [evalParsed, branchWhen]
    split_ifs
    · exact ⟨h, by simp [flowsTo, hk, InsnCode.controlFlow, hparsed]⟩
    · exact ⟨h, hn (.inr rfl)⟩
  case tableswitch =>
    refine ⟨h, ?_⟩
    simp only [flowsTo, hk, InsnCode.controlFlow, hparsed]
    exact tableswitch_mem (ht rfl)
  case lookupswitch =>
    refine ⟨h, ?_⟩
    simp only [flowsTo, hk, InsnCode.controlFlow, hparsed]
    exact lookupTarget_mem

theorem evalResolved_ok {r : ResolvedCode} (hc : s.insn.code = .resolved r) :
    (evalResolved vm r s ops).Ok P s := by
  have hform := h.wellFormed hpc
  rw [Insn.WellFormed, hc] at hform
  have hkind := h.kind hpc
  have hn : ∀ k : InsnCode, s.insn.kind = k → k.controlFlow = .next →
      s.pc + 1 ∈ flowsTo (P.code s.pc).toBytecodeInsn s.pc :=
    fun k hk hnext => next_mem_flowsTo (hkind.symm.trans hk) (.inl hnext)
  have hcall : s.insn.kind ∈ [.invokespecial, .invokevirtual, .invokeinterface] →
      s.pc + 1 ∈ flowsTo (P.code s.pc).toBytecodeInsn s.pc := by
    intro hk
    simp only [List.mem_cons, List.not_mem_nil, or_false] at hk
    rcases hk with hk | hk | hk <;> exact hn _ hk rfl
  cases r
  case anewarray =>
    dsimp only [evalResolved, newArray]
    split_ifs
    · exact raise_ok hv h
    · exact ask_ok hv h fun _ _ _ hb _ => ⟨hb, hn _ hform rfl⟩
  case checkcast =>
    dsimp only [evalResolved]
    split_ifs
    · exact raise_ok hv h
    · exact ⟨h, hn _ hform rfl⟩
  case instanceof => exact ⟨h, hn _ hform rfl⟩
  case new => exact ask_ok hv h fun _ _ _ hb _ => ⟨hb, hn _ hform rfl⟩
  case invokevtableMonomorphic | invokeitableMonomorphic =>
    exact invokeMonomorphic_ok hv h hpc (hkind ▸ hform.1) hform.2
      (hcall (List.mem_cons_of_mem _ hform.1))
  case invokevtablePolymorphic | invokesigpoly =>
    exact invokeOn_ok hv h (invoke_ok hv h (hcall (List.mem_cons_of_mem _ hform.1)))
  case invokespecial => exact invokeOn_ok hv h (invoke_ok hv h (hcall hform.1))
  case invokeitablePolymorphic =>
    exact invokeitablePolymorphic_ok hv h (hcall (List.mem_cons_of_mem _ hform.1))
  case invokestatic | invokecallsite => exact invoke_ok hv h (hn _ hform.1 rfl)
  case getfield => exact nonNull_ok hv h ⟨h, hn _ hform.1 rfl⟩
  case putfield => exact nonNull_ok hv h ⟨h.setMem _, hn _ hform.1 rfl⟩
  case getstatic => exact ⟨h, hn _ hform.1 rfl⟩
  case putstatic => exact ⟨h.setMem _, hn _ hform.1 rfl⟩
  case pow | math => exact ⟨h, hn _ hform.1 rfl⟩

end

/-! ### Steps -/

theorem findExceptionHandler_ok (hv : vm.Respects P) (pc : Nat) (type : BitVec 64) :
    ∀ (table : List ParsedException) (heap : Heap W) (e : StackValue), P.Runs heap.code →
      P.Runs (findExceptionHandler vm pc type table heap e).1.code ∧
        ∀ ent, (findExceptionHandler vm pc type table heap e).2.2 = some ent → ent ∈ table
  | [], heap, e, h => ⟨h, fun ent hent => by simp [findExceptionHandler] at hent⟩
  | ent :: table, heap, e, h => by
    have hskip : ∀ {heap : Heap W} {e : StackValue}, P.Runs heap.code →
        P.Runs (findExceptionHandler vm pc type table heap e).1.code ∧
          ∀ ent', (findExceptionHandler vm pc type table heap e).2.2 = some ent' →
            ent' ∈ ent :: table := fun h =>
      have ih := findExceptionHandler_ok hv pc type table _ _ h
      ⟨ih.1, fun ent' hent => List.mem_cons_of_mem _ (ih.2 ent' hent)⟩
    have hfound : ∀ ent', some ent = some ent' → ent' ∈ ent :: table :=
      fun ent' hent => Option.some.inj hent ▸ List.mem_cons_self
    unfold findExceptionHandler
    split_ifs
    · split
      · exact ⟨h, hfound⟩
      · rename_i cp _
        rcases hreq : vm.request (.resolveCatchType cp) heap with ⟨heap', e' | classdesc⟩
        all_goals
          have hr := hv.answer hreq
          have hruns : P.Runs heap'.code := fun pc hpc =>
            ⟨(hr pc hpc).parsed.trans (h pc hpc).1, (hr pc hpc).wellFormed (h pc hpc).2⟩
          dsimp only
        · exact hskip hruns
        · split_ifs
          · exact ⟨hruns, hfound⟩
          · exact hskip hruns
    · exact hskip h

theorem unwind_ok {e : StackValue} (hw : P.WellTyped fm) (hv : vm.Respects P)
    (h : P.Runs s.heap.code) : (s.unwind vm fm e).Typed P := by
  obtain ⟨hruns, hent⟩ := findExceptionHandler_ok hv s.pc (vm.descriptor s.heap e)
    fm.exceptionTable s.heap e h
  unfold Plain.unwind
  rcases hf : findExceptionHandler vm s.pc (vm.descriptor s.heap e) fm.exceptionTable s.heap e with
    ⟨heap, e', _ | ent⟩
  · trivial
  · rw [hf] at hruns hent
    obtain ⟨hlt, hkinds⟩ := hw.handlers ent (hent ent rfl)
    exact ⟨hlt, hkinds.symm, hruns⟩

theorem kinds_results (pushes : List TypeKind) (v : StackValue) :
    (results pushes v).map (·.kind) = pushes.filter (· ≠ .void) := by
  rw [results, List.map_map]
  exact List.map_id _

/-- The state behind an outcome is typed, if the kinds below the operands are those that the
instruction leaves. -/
theorem finish_ok {pushes kinds : List TypeKind} {rest : List Value} {out : Outcome W}
    (hw : P.WellTyped fm) (hv : vm.Respects P) (ht : Typed P s) (hout : out.Ok P s)
    (hkinds : pushes.filter (· ≠ .void) ++ rest.map (·.kind) = kinds)
    (hflows : ∀ q ∈ flowsTo (P.code s.pc).toBytecodeInsn s.pc, q < P.size ∧ P.kindsAt q = kinds) :
    ∃ p, Plain.finish vm fm pushes rest out = some p ∧ p.Typed P := by
  have hbehind : ∀ (s' : Plain W) (v : StackValue) (q : Nat), Beside P s s' →
      q ∈ flowsTo (P.code s.pc).toBytecodeInsn s.pc →
      Typed P { s' with pc := q, stack := results pushes v ++ rest } := by
    intro s' v q hb hq
    obtain ⟨hlt, hq⟩ := hflows q hq
    refine ⟨hlt, ?_, hb.runs⟩
    rw [List.map_append, kinds_results, hkinds, hq]
  cases out with
  | next s' v => exact ⟨_, rfl, hout.1.pc ▸ hbehind s' v _ hout.1 hout.2⟩
  | branch s' target => exact ⟨_, rfl, hbehind s' 0 _ hout.1 hout.2⟩
  | again s' =>
    exact ⟨_, rfl, by rw [hout.pc]; exact ht.pc, by rw [hout.stack, hout.pc]; exact ht.kinds, hout.runs⟩
  | throw s' e => exact ⟨_, rfl, unwind_ok hw hv hout.runs⟩
  | ret s' v => exact ⟨_, rfl, trivial⟩
  | abort => exact hout.elim

theorem shuffle_parsed (k : InsnCode) (stack : List Value) :
    shuffle (.parsed k) stack = shuffleSlots k stack := by
  rcases stack with _ | ⟨a, _ | ⟨b, _ | ⟨c, _ | ⟨d, s⟩⟩⟩⟩ <;> cases k <;> rfl

theorem shuffle_none (hs : ∀ k ∈ shuffleKinds, s.insn.code ≠ .parsed k) :
    shuffle s.insn.code s.stack = none := by
  rcases hc : s.insn.code with k | r
  · rw [shuffle_parsed]
    rcases h : shuffleSlots k s.stack with _ | l
    · rfl
    · exact absurd hc (hs k (mem_of_shuffleSlots h))
  · rfl

theorem shuffleSlots_map_eq {α β : Type} (f : α → β) (k : InsnCode) (l : List α) :
    shuffleSlots k (l.map f) = (shuffleSlots k l).map (List.map f) := by
  rcases l with _ | ⟨a, _ | ⟨b, _ | ⟨c, _ | ⟨d, s⟩⟩⟩⟩ <;> cases k <;> rfl

theorem operandKinds_shuffle {insn : BytecodeInsn} (hk : insn.kind ∈ shuffleKinds) :
    operandKinds insn = none := by
  have heffect := effect_of_shuffle hk
  simp only [shuffleKinds, List.mem_cons, List.not_mem_nil, or_false] at hk
  rcases hk with hk | hk | hk | hk | hk | hk | hk | hk | hk <;>
    simpa [operandKinds, hk, localKind, effect] using heffect

theorem step_shuffle {stack : List Value} (h : shuffle s.insn.code s.stack = some stack) :
    s.step vm fm = some (.running { s with pc := s.pc + 1, stack }) := by
  rw [Plain.step, h]

theorem step_operands {pops pushes : List TypeKind} (hs : shuffle s.insn.code s.stack = none)
    (he : operandKinds s.insn.toBytecodeInsn = some (pops, pushes))
    (hk : (s.stack.take pops.length).map (·.kind) = pops) :
    s.step vm fm = Plain.finish vm fm pushes (s.stack.drop pops.length)
      (eval vm s.insn.code s ((s.stack.take pops.length).map (·.word))) := by
  rw [Plain.step, hs, he]
  exact if_pos hk

/-- What a typed instruction does: it moves slots, or takes operands of its kinds off the stack. -/
theorem eval_ok (hw : P.WellTyped fm) (hv : vm.Respects P) (ht : Typed P s)
    (hs : ∀ k ∈ shuffleKinds, s.insn.code ≠ .parsed k) (ops : List StackValue) :
    (eval vm s.insn.code s ops).Ok P s := by
  have hb : Beside P s s := .refl ht.runs
  have hform := hb.wellFormed ht.pc
  have hkind := hb.kind ht.pc
  rcases hc : s.insn.code with k | r
  · have hk : k ∉ shuffleKinds := fun hk => hs k hk hc
    simp only [Insn.WellFormed, hc, hkind] at hform
    rcases hform with hform | ⟨rfl, hform⟩ | ⟨rfl, hform⟩ | ⟨rfl, -⟩
    · have hops := hw.operands s.pc ht.pc
      exact evalParsed_ok hv hb ht.pc hform.symm hc hk (hform ▸ hops.subroutine)
        fun h => hops.tableswitch (hform.symm.trans h)
    · exact resolveInvokevirtual_ok hv hb ht.pc (by simp [hform]) hc
    · exact resolveInvokeinterface_ok hv hb ht.pc (by simp [hform]) hc
    · exact absurd (by decide) hk
  · exact evalResolved_ok hv hb ht.pc hc

theorem operandKinds_emptyInit {insn : BytecodeInsn} (hk : insn.kind = .invokespecial)
    (h : IsEmptyInit insn.descriptor) : operandKinds insn = some ([.reference], []) := by
  have hlocal : localKind .invokespecial = none := rfl
  have hstack : stackEffect .invokespecial = none := rfl
  simp [operandKinds, hk, hlocal, hstack, descriptorEffect, h.1, h.2]

theorem resolved_kind {r : ResolvedCode} (h : insn.WellFormed) (hc : insn.code = .resolved r) :
    insn.kind ∉ shuffleKinds := by
  intro hmem
  simp only [shuffleKinds, List.mem_cons, List.not_mem_nil, or_false] at hmem
  rw [Insn.WellFormed, hc] at h
  rcases hmem with hk | hk | hk | hk | hk | hk | hk | hk | hk <;> cases r <;> simp [hk] at h

/-- An instruction that moves slots does so with the kinds. -/
theorem shuffle_kinds {k : InsnCode} {kinds : List TypeKind} (ht : Typed P s) (hk : k ∈ shuffleKinds)
    (hc : s.insn.code = .parsed k)
    (hafter : kindsAfter (P.code s.pc).toBytecodeInsn (P.kindsAt s.pc) = some kinds) :
    ∃ stack, shuffle s.insn.code s.stack = some stack ∧ stack.map (·.kind) = kinds ∧
      s.pc + 1 ∈ flowsTo (P.code s.pc).toBytecodeInsn s.pc := by
  have hb : Beside P s s := .refl ht.runs
  have hform := hb.wellFormed ht.pc
  have hparsed := hb.parsed ht.pc
  rw [← ht.kinds, ← hparsed, kindsAfter] at hafter
  simp only [Insn.WellFormed, hc] at hform
  rcases hform with hkind | ⟨rfl, -⟩ | ⟨rfl, -⟩ | ⟨rfl, hkind, hinit⟩
  · rw [hkind] at hk
    rw [operandKinds_shuffle hk] at hafter
    dsimp only at hafter
    rw [shuffleSlots_map_eq, Option.map_eq_some_iff] at hafter
    obtain ⟨stack, hstack, hkinds⟩ := hafter
    refine ⟨stack, by rw [hc, shuffle_parsed, hkind, hstack], hkinds, ?_⟩
    refine next_mem_flowsTo (hb.kind ht.pc).symm (.inl ?_)
    simp only [shuffleKinds, List.mem_cons, List.not_mem_nil, or_false] at hk
    rcases hk with hk | hk | hk | hk | hk | hk | hk | hk | hk <;> rw [hk] <;> rfl
  · exact absurd hk (by decide)
  · exact absurd hk (by decide)
  · rw [operandKinds_emptyInit hkind hinit] at hafter
    rcases hstack : s.stack with _ | ⟨v, vs⟩
    · simp [hstack] at hafter
    · refine ⟨vs, by rw [hc, shuffle_parsed]; rfl, ?_, next_mem_flowsTo ((hb.kind ht.pc).symm.trans hkind) (.inl rfl)⟩
      rw [hstack] at hafter
      dsimp only at hafter
      split_ifs at hafter
      simpa using hafter

/-- The operands of any other instruction. -/
theorem operands_kinds {kinds : List TypeKind} (ht : Typed P s)
    (hs : ∀ k ∈ shuffleKinds, s.insn.code ≠ .parsed k)
    (hafter : kindsAfter (P.code s.pc).toBytecodeInsn (P.kindsAt s.pc) = some kinds) :
    ∃ pops pushes, operandKinds s.insn.toBytecodeInsn = some (pops, pushes) ∧
      (s.stack.take pops.length).map (·.kind) = pops ∧
      pushes.filter (· ≠ .void) ++ (s.stack.drop pops.length).map (·.kind) = kinds := by
  have hb : Beside P s s := .refl ht.runs
  have hform := hb.wellFormed ht.pc
  have hparsed := hb.parsed ht.pc
  rw [← ht.kinds, ← hparsed, kindsAfter] at hafter
  rcases hop : operandKinds s.insn.toBytecodeInsn with _ | ⟨pops, pushes⟩
  · rw [hop] at hafter
    have hmem := mem_of_shuffleSlots hafter
    rcases hc : s.insn.code with k | r
    · simp only [Insn.WellFormed, hc] at hform
      rcases hform with hkind | ⟨-, hkind⟩ | ⟨-, hkind⟩ | ⟨-, hkind, -⟩
      · exact absurd hc (hkind ▸ hs _ hmem)
      all_goals
        rw [hkind] at hmem
        exact absurd hmem (by decide)
    · exact absurd hmem (resolved_kind hform hc)
  · rw [hop] at hafter
    dsimp only at hafter
    split_ifs at hafter with hpops
    refine ⟨pops, pushes, rfl, ?_, ?_⟩
    · rw [List.map_take, ← hpops]
    · rw [List.map_drop, Option.some.inj hafter]

/-- A typed state has a next one, which is typed or the end of the run. -/
theorem Typed.step (hw : P.WellTyped fm) (hv : vm.Respects P) (ht : Typed P s) :
    ∃ p, s.step vm fm = some p ∧ p.Typed P := by
  obtain ⟨kinds, hafter, hflows⟩ := hw.flows s.pc ht.pc
  by_cases hs : ∃ k ∈ shuffleKinds, s.insn.code = .parsed k
  · obtain ⟨k, hk, hc⟩ := hs
    obtain ⟨stack, hstack, hkinds, hnext⟩ := shuffle_kinds ht hk hc hafter
    obtain ⟨hlt, hat⟩ := hflows _ hnext
    exact ⟨_, step_shuffle hstack, hlt, hkinds.trans hat.symm, ht.runs⟩
  · have hs : ∀ k ∈ shuffleKinds, s.insn.code ≠ .parsed k := by simpa using hs
    obtain ⟨pops, pushes, hop, htop, hkinds⟩ := operands_kinds ht hs hafter
    rw [step_operands (shuffle_none hs) hop htop]
    exact finish_ok hw hv ht (eval_ok hw hv ht hs _) hkinds hflows

end BJvm.Interpreter

import BJvm.Interpreter.SignExtension
import BJvm.Proofs.CachedRuns

/-!
# Runs with sign-extended ints

All instructions but `ishr` of a negative int and the call of a native method keep the ints
extended, so they are along a run of the interpreter if and only if neither happens in it.
-/

namespace BJvm.Interpreter

open ClassFile StackValue Simulation

variable {W : Type} {vm : Vm W} {fm : FrameMethod} {P : TypedCode} {s s' : Plain W}
  {v x : StackValue} {ops : List StackValue}

/-! ### Values -/

theorem isExtended_iff : IsExtended x ↔ -2 ^ 31 ≤ x.toInt ∧ x.toInt < 2 ^ 31 := by
  rw [IsExtended, ← BitVec.toInt_inj, ofInt, low, BitVec.toInt_signExtend_of_le (by decide),
    BitVec.toInt_setWidth]
  have hlt := x.isLt
  rw [BitVec.toInt_eq_toNat_bmod, Int.bmod_def, Int.bmod_def]
  omega

theorem isExtended_ofInt (x : BitVec 32) : IsExtended (.ofInt x) := by
  rw [IsExtended, low_ofInt]

theorem isExtended_signExtend {w : Nat} (hw : w ≤ 32) (x : BitVec w) :
    IsExtended (x.signExtend 64) := by
  have hlt := BitVec.toInt_lt (x := x)
  have hle := BitVec.le_toInt (x := x)
  have hpow : (2 : Int) ^ (w - 1) ≤ 2 ^ 31 := pow_le_pow_right₀ (by decide) (by omega)
  rw [isExtended_iff, BitVec.toInt_signExtend_of_le (by omega)]
  omega

theorem isExtended_setWidth (x : BitVec 16) : IsExtended (x.setWidth 64) := by
  have hlt := x.isLt
  rw [isExtended_iff, BitVec.toInt_eq_toNat_of_lt]
  all_goals
    rw [BitVec.toNat_setWidth]
    omega

theorem isExtended_imm {i : Int} (h : -2 ^ 31 ≤ i ∧ i < 2 ^ 31) :
    IsExtended (BitVec.ofInt 64 i) := by
  rw [isExtended_iff, BitVec.toInt_ofInt, Int.bmod_def]
  omega

/-- The result of `ishr`. -/
theorem isExtended_ishr (a b : StackValue) : IsExtended (ishr a b) ↔ a.low.msb = false := by
  rw [isExtended_iff, ishr]
  generalize hy : a.low.sshiftRight (b &&& 31#64).toNat = y
  have hmsb : y.msb = a.low.msb := by rw [← hy, BitVec.msb_sshiftRight]
  have hlt := y.isLt
  rw [← hmsb, BitVec.toInt_eq_toNat_of_lt, BitVec.toNat_setWidth,
    BitVec.msb_eq_false_iff_two_mul_lt]
  · omega
  · rw [BitVec.toNat_setWidth]
    omega

theorem isExtended_cond {c : Prop} [Decidable c] {a b : StackValue} (ha : IsExtended a)
    (hb : IsExtended b) : IsExtended (if c then a else b) := by
  split_ifs
  · exact ha
  · exact hb

/-! ### Instructions that push an int -/

/-- The calls, as the parser leaves them. -/
def callKinds : List InsnCode :=
  [.invokestatic, .invokedynamic, .invokespecial, .invokevirtual, .invokeinterface]

/-- The instructions that push an int whatever their operands are. -/
def intKinds : List InsnCode :=
  [.arraylength, .baload, .caload, .saload, .iaload, .d2i, .dcmpg, .dcmpl, .f2i, .fcmpg, .fcmpl,
    .i2b, .i2c, .i2s, .iadd, .iand, .idiv, .imul, .irem, .ior, .ishl, .ishr, .isub, .ixor, .iushr,
    .ineg, .l2i, .lcmp, .instanceof, .iconst, .iload]

/-- The calls, as they are rewritten. -/
def resolvedCalls : List ResolvedCode :=
  [.invokestatic, .invokecallsite, .invokespecial, .invokesigpoly, .invokevtableMonomorphic,
    .invokevtablePolymorphic, .invokeitableMonomorphic, .invokeitablePolymorphic]

theorem not_pushes_int : ∀ k : InsnCode, k ∉ intKinds →
    (k.isLoad = true → localKind k ≠ some .int) ∧ (stackEffect k).all (.int ∉ ·.2) = true := by
  intro k
  cases k <;> decide

/-- An instruction of which all results are ints, a load of an `int` field, or a call of a method
that returns one. -/
def PushesInt (insn : BytecodeInsn) : Prop :=
  insn.kind ∈ intKinds ∨ insn.kind ∈ [.getfield, .getstatic] ∧ insn.field.reprKind = .int ∨
    insn.kind ∈ callKinds ∧ insn.descriptor.returnType.reprKind = .int

theorem pushes_int {insn : BytecodeInsn} {pops pushes : List TypeKind}
    (h : operandKinds insn = some (pops, pushes)) (hint : .int ∈ pushes) : PushesInt insn := by
  by_cases hk : insn.kind ∈ intKinds
  · exact .inl hk
  obtain ⟨hlocal, heffect⟩ := not_pushes_int insn.kind hk
  right
  unfold operandKinds at h
  -- `putfield`, `putstatic` and `iinc` push nothing
  split at h
  · obtain ⟨-, rfl⟩ := Prod.mk.inj (Option.some.inj h)
    cases hint
  · obtain ⟨-, rfl⟩ := Prod.mk.inj (Option.some.inj h)
    cases hint
  · obtain ⟨-, rfl⟩ := Prod.mk.inj (Option.some.inj h)
    cases hint
  split at h
  · rename_i hl
    split_ifs at h with hload
    · obtain ⟨-, rfl⟩ := Prod.mk.inj (Option.some.inj h)
      rw [List.mem_singleton] at hint
      exact absurd (hint ▸ hl) (hlocal hload)
    · obtain ⟨-, rfl⟩ := Prod.mk.inj (Option.some.inj h)
      cases hint
  · rcases hs : stackEffect insn.kind with _ | ⟨pops', pushes'⟩
    · rw [hs, Option.none_or] at h
      unfold descriptorEffect at h
      dsimp only at h
      split at h <;> try cases h
      all_goals
        rename_i hkind
        simp [hkind, callKinds] at hint ⊢
      all_goals first | exact hint.symm | exact hint.2.symm
    · rw [hs, Option.some_or] at h
      rw [hs] at heffect
      obtain ⟨-, rfl⟩ := Prod.mk.inj (Option.some.inj h)
      simp [hint] at heffect

/-! ### Outcomes -/

/-- What the outcome pushes is extended. -/
def Outcome.PushesExtended : Outcome W → Prop
  | .next _ v => IsExtended v
  | _ => True

theorem ask_extended {r : Request} {k : Plain W → StackValue → Outcome W}
    (hk : ∀ heap v, vm.request r s.heap = (heap, .ok v) → (k { s with heap } v).PushesExtended) :
    (ask vm r s k).PushesExtended := by
  rw [ask]
  rcases hr : vm.request r s.heap with ⟨heap, e | v⟩
  · trivial
  · exact hk heap v hr

theorem ite_extended {c : Prop} [Decidable c] {o o' : Outcome W} (ho : ¬ c → o'.PushesExtended)
    (hraise : c → o.PushesExtended) : (if c then o else o').PushesExtended := by
  split_ifs with h
  · exact hraise h
  · exact ho h

theorem nonNull_extended {obj : StackValue} {k : Outcome W} (hk : obj ≠ 0 → k.PushesExtended) :
    (nonNull vm obj s k).PushesExtended :=
  ite_extended hk fun _ => trivial

theorem accessElement_extended {array index : StackValue} {k : Outcome W}
    (hk : k.PushesExtended) : (accessElement vm array index s k).PushesExtended :=
  nonNull_extended fun _ => ite_extended (fun _ => hk) fun _ => trivial

theorem resolveReceiver_extended {k : Plain W → StackValue → StackValue → Outcome W}
    (hk : ∀ s receiver method, (k s receiver method).PushesExtended) :
    (resolveReceiver vm k s ops).PushesExtended :=
  nonNull_extended fun _ => ask_extended fun _ _ _ => hk _ _ _

theorem isExtended_lcmp (a b : StackValue) : IsExtended (lcmp a b) :=
  isExtended_cond (by decide) (isExtended_cond (by decide) (by decide))

theorem isExtended_floatCmp {x : StackValue} (hx : IsExtended x) (a b : FloatValue) :
    IsExtended (floatCmp x a b) :=
  isExtended_cond (by decide) (isExtended_cond (by decide) (isExtended_cond (by decide) hx))

/-- An instruction all results of which are ints, other than `ishr`. -/
theorem evalParsed_extended {k : InsnCode} (hk : k ∈ intKinds) (hne : k ≠ .ishr)
    (hconst : k = .iconst → -2 ^ 31 ≤ s.insn.integerImm ∧ s.insn.integerImm < 2 ^ 31) :
    (evalParsed vm k s ops).PushesExtended := by
  cases k
  case arraylength => exact nonNull_extended fun _ => isExtended_ofInt _
  case baload | saload | iaload =>
    exact accessElement_extended (isExtended_signExtend (by decide) _)
  case caload => exact accessElement_extended (isExtended_setWidth _)
  case d2i | f2i | iload => exact isExtended_ofInt _
  case dcmpg | fcmpg | dcmpl | fcmpl => exact isExtended_floatCmp (by decide) _ _
  case lcmp => exact isExtended_lcmp _ _
  case i2c => exact isExtended_setWidth _
  case i2b | i2s | iadd | iand | imul | ior | ishl | isub | ixor | iushr | ineg | l2i =>
    exact isExtended_signExtend (by decide) _
  case idiv | irem =>
    exact ite_extended (fun _ => isExtended_signExtend (by decide) _) fun _ => trivial
  case ishr => exact absurd rfl hne
  case instanceof =>
    dsimp only [evalParsed, resolveClassTo]
    exact ask_extended fun _ _ _ => trivial
  case iconst => exact isExtended_imm (hconst rfl)
  all_goals exact absurd hk (by decide)

/-- An instruction that is resolved before it does anything. -/
theorem evalParsed_resolves {k : InsnCode} (hk : k ∈ [.getfield, .getstatic] ++ callKinds) :
    (evalParsed vm k s ops).PushesExtended := by
  cases k
  case getfield => exact nonNull_extended fun _ => ask_extended fun _ _ _ => trivial
  case getstatic =>
    dsimp only [evalParsed, resolveStatic]
    exact ask_extended fun _ _ _ => trivial
  case invokestatic =>
    dsimp only [evalParsed, resolveInvokestatic]
    refine ask_extended fun _ _ _ => ?_
    split <;> trivial
  case invokedynamic =>
    dsimp only [evalParsed, resolveInvokedynamic]
    exact ask_extended fun _ _ _ => trivial
  case invokespecial =>
    dsimp only [evalParsed, resolveInvokespecial]
    exact resolveReceiver_extended fun _ _ _ => ask_extended fun _ _ _ => trivial
  case invokevirtual =>
    dsimp only [evalParsed, resolveInvokevirtual]
    refine resolveReceiver_extended fun _ _ _ => ite_extended (fun _ => ?_) fun _ => ?_
    · split_ifs <;> trivial
    · exact ask_extended fun _ _ _ => trivial
  case invokeinterface =>
    dsimp only [evalParsed, resolveInvokeinterface]
    refine resolveReceiver_extended fun _ _ _ => ?_
    split_ifs <;> trivial
  all_goals exact absurd hk (by decide)

/-! ### Calls -/

theorem eval_of_calls (h : Calls vm s ops) : eval vm s.insn.code s ops = invoke vm s ops := by
  rcases hc : s.insn.code with k | r
  · simp [Calls, hc] at h
  · simp only [Calls, hc] at h
    cases r
    case invokestatic | invokecallsite => rfl
    case invokespecial | invokesigpoly | invokevtablePolymorphic => exact if_neg h
    case invokevtableMonomorphic | invokeitableMonomorphic =>
      exact (if_neg h.1).trans (if_neg fun hne => hne h.2)
    case invokeitablePolymorphic => exact (if_neg h.1).trans (if_neg h.2)
    all_goals exact h.elim

theorem invoke_extended (hcalls : Calls vm s ops)
    (hint : s.insn.descriptor.returnType.reprKind = .int)
    (hraw : ¬ AnsweredRaw vm s ops) : (invoke vm s ops).PushesExtended := by
  unfold invoke
  refine ask_extended fun heap v hr => ?_
  rw [hint]
  show IsExtended (frameResult .int _ v)
  by_cases hn : vm.isNative s.heap s.pc (List.zipWith canonical (argKinds s.insn) ops.reverse)
  · rw [frameResult, if_pos hn]
    by_contra hv
    exact hraw ⟨hcalls, hn, heap, v, hr, hv⟩
  · rw [frameResult, if_neg hn, if_pos rfl]
    exact isExtended_ofInt _

theorem field_int {insn : BytecodeInsn} (hk : insn.kind ∈ [.getfield, .getstatic])
    (hpush : PushesInt insn) : insn.field.reprKind = .int := by
  rcases hpush with h | ⟨-, h⟩ | ⟨h, -⟩
  · exact absurd h ((by decide : ∀ k ∈ [.getfield, .getstatic], k ∉ intKinds) _ hk)
  · exact h
  · exact absurd hk ((by decide : ∀ k ∈ callKinds, k ∉ [.getfield, .getstatic]) _ h)

theorem returns_int {insn : BytecodeInsn} (hk : insn.kind ∈ callKinds) (hpush : PushesInt insn) :
    insn.descriptor.returnType.reprKind = .int := by
  rcases hpush with h | ⟨h, -⟩ | ⟨-, h⟩
  · exact absurd h ((by decide : ∀ k ∈ callKinds, k ∉ intKinds) _ hk)
  · exact absurd h ((by decide : ∀ k ∈ callKinds, k ∉ [.getfield, .getstatic]) _ hk)
  · exact h

/-- A call that does not take place: the receiver is null, the instruction is rewritten, or there is
no method. -/
theorem evalResolved_of_not_calls {r : ResolvedCode} (hc : s.insn.code = .resolved r)
    (hr : r ∈ resolvedCalls) (h : ¬ Calls vm s ops) :
    (evalResolved vm r s ops).PushesExtended := by
  simp only [Calls, hc] at h
  cases r
  case invokestatic | invokecallsite => exact absurd trivial h
  case invokespecial | invokesigpoly | invokevtablePolymorphic =>
    exact nonNull_extended fun hne => absurd hne h
  case invokevtableMonomorphic | invokeitableMonomorphic =>
    refine nonNull_extended fun hne => ite_extended (fun heq => ?_) fun _ => ?_
    · exact absurd ⟨hne, not_not.mp heq⟩ h
    · split_ifs <;> trivial
  case invokeitablePolymorphic =>
    exact nonNull_extended fun hne =>
      ite_extended (fun hne' => absurd ⟨hne, hne'⟩ h) fun _ => trivial
  all_goals simp [resolvedCalls] at hr

theorem evalResolved_call {r : ResolvedCode} (hc : s.insn.code = .resolved r)
    (hr : r ∈ resolvedCalls) (hk : s.insn.kind ∈ callKinds)
    (hpush : PushesInt s.insn.toBytecodeInsn) (hraw : ¬ AnsweredRaw vm s ops) :
    (evalResolved vm r s ops).PushesExtended := by
  by_cases hcalls : Calls vm s ops
  · have heval : evalResolved vm r s ops = invoke vm s ops := by
      rw [← eval_of_calls hcalls, hc, eval]
    rw [heval]
    exact invoke_extended hcalls (returns_int hk hpush) hraw
  · exact evalResolved_of_not_calls hc hr hcalls

theorem evalResolved_extended {r : ResolvedCode} (hc : s.insn.code = .resolved r)
    (hform : s.insn.WellFormed) (hpush : PushesInt s.insn.toBytecodeInsn)
    (hraw : ¬ AnsweredRaw vm s ops) : (evalResolved vm r s ops).PushesExtended := by
  simp only [Insn.WellFormed, hc] at hform
  cases r
  case instanceof => exact isExtended_cond (by decide) (by decide)
  case getfield k =>
    rw [hform.2, field_int (by simp [hform.1]) hpush]
    exact nonNull_extended fun _ => isExtended_signExtend (by decide) _
  case getstatic k =>
    rw [hform.2, field_int (by simp [hform.1]) hpush]
    exact isExtended_signExtend (by decide) _
  case invokestatic | invokecallsite =>
    exact evalResolved_call hc (by decide) (hform.1 ▸ by decide) hpush hraw
  case invokespecial =>
    exact evalResolved_call hc (by decide)
      ((by decide : ∀ k ∈ [_, _, _], k ∈ callKinds) _ hform.1) hpush hraw
  case invokevtableMonomorphic | invokevtablePolymorphic | invokeitableMonomorphic
      | invokeitablePolymorphic | invokesigpoly =>
    exact evalResolved_call hc (by decide)
      ((by decide : ∀ k ∈ [_, _], k ∈ callKinds) _ hform.1) hpush hraw
  case pow | math =>
    have hint := returns_int (hform.1 ▸ by decide) hpush
    exact absurd (hint.symm.trans hform.2.2) (by decide)
  case anewarray | checkcast | new => simp [PushesInt, hform, intKinds, callKinds] at hpush
  case putfield | putstatic => simp [PushesInt, hform.1, intKinds, callKinds] at hpush

/-- An int that is pushed is extended, unless the instruction shifts a negative one or takes the
answer of a native method. -/
theorem eval_extended {pops pushes : List TypeKind} (hform : s.insn.WellFormed)
    (hconst : s.insn.kind = .iconst → -2 ^ 31 ≤ s.insn.integerImm ∧ s.insn.integerImm < 2 ^ 31)
    (hop : operandKinds s.insn.toBytecodeInsn = some (pops, pushes)) (hint : .int ∈ pushes)
    (hshift : s.insn.code = .parsed .ishr → (operand ops 1).low.msb = false)
    (hraw : ¬ AnsweredRaw vm s ops) : (eval vm s.insn.code s ops).PushesExtended := by
  have hpush := pushes_int hop hint
  rcases hc : s.insn.code with k | r
  · simp only [Insn.WellFormed, hc] at hform
    -- a virtual call may have become one of an interface, or the other way round
    rcases hform with rfl | ⟨rfl, -⟩ | ⟨rfl, -⟩ | ⟨rfl, -⟩
    · rcases hpush with hk | ⟨hk, -⟩ | ⟨hk, -⟩
      · by_cases hne : s.insn.kind = .ishr
        · rw [hne] at hc ⊢
          exact (isExtended_ishr _ _).mpr (hshift hc)
        · exact evalParsed_extended hk hne hconst
      · exact evalParsed_resolves (List.mem_append_left _ hk)
      · exact evalParsed_resolves (List.mem_append_right _ hk)
    · exact evalParsed_resolves (k := .invokevirtual) (by decide)
    · exact evalParsed_resolves (k := .invokeinterface) (by decide)
    · trivial
  · exact evalResolved_extended hc hform hpush hraw

/-! ### Steps -/

theorem mem_of_shuffle {code : InsnCodeKind} {stack stack' : List Value}
    (h : shuffle code stack = some stack') : ∀ v ∈ stack', v ∈ stack := by
  unfold shuffle at h
  split at h <;> cases h
  all_goals
    intro v hv
    simp only [List.mem_cons] at hv ⊢
    tauto

theorem results_extended {pushes : List TypeKind} {x : StackValue}
    (hx : .int ∈ pushes → IsExtended x) :
    ∀ v ∈ results pushes x, v.kind = .int → IsExtended v.word := by
  intro v hv hk
  simp only [results, List.mem_map, List.mem_filter] at hv
  obtain ⟨k, ⟨hmem, -⟩, rfl⟩ := hv
  obtain rfl : k = .int := hk
  exact hx hmem

theorem finish_extended {pushes : List TypeKind} {rest : List Value} {out : Outcome W}
    (hout : out.Ok P s) (he : s.Extended) (hrest : ∀ v ∈ rest, v ∈ s.stack)
    (hpush : .int ∈ pushes → out.PushesExtended)
    (hs' : Plain.finish vm fm pushes rest out = some (.running s')) : s'.Extended := by
  have hbehind : ∀ x, (.int ∈ pushes → IsExtended x) → ∀ v ∈ results pushes x ++ rest,
      v.kind = .int → IsExtended v.word := fun x hx v hv =>
    (List.mem_append.mp hv).elim (results_extended hx v) fun hv => he v (hrest v hv)
  cases out with
  | next s₁ x =>
    obtain rfl := PlainConfig.running.inj (Option.some.inj hs')
    exact hbehind x hpush
  | branch s₁ target =>
    obtain rfl := PlainConfig.running.inj (Option.some.inj hs')
    exact hbehind 0 fun _ => by decide
  | again s₁ =>
    obtain rfl := PlainConfig.running.inj (Option.some.inj hs')
    rw [Plain.Extended, hout.stack]
    exact he
  | throw s₁ e =>
    have hunwind := Option.some.inj hs'
    rw [Plain.unwind] at hunwind
    split at hunwind
    · obtain rfl := PlainConfig.running.inj hunwind
      simp [Plain.Extended]
    · cases hunwind
  | ret s₁ x => cases hs'
  | abort => cases hs'

/-- A step keeps the ints extended if it does not spoil one. -/
theorem Plain.Extended.step (hw : P.WellTyped fm) (hv : vm.Respects P) (hfit : P.ConstantsFit)
    (ht : Typed P s) (he : s.Extended) (hs : ¬ Spoils vm s)
    (hstep : s.step vm fm = some (.running s')) : s'.Extended := by
  obtain ⟨kinds, hafter, -⟩ := hw.flows s.pc ht.pc
  have hb : Beside P s s := .refl ht.runs
  by_cases hsh : ∃ k ∈ shuffleKinds, s.insn.code = .parsed k
  · obtain ⟨k, hk, hc⟩ := hsh
    obtain ⟨stack, hstack, -⟩ := shuffle_kinds ht hk hc hafter
    rw [step_shuffle hstack] at hstep
    obtain rfl := PlainConfig.running.inj (Option.some.inj hstep)
    exact fun v hv => he v (mem_of_shuffle hstack v hv)
  · have hsh : ∀ k ∈ shuffleKinds, s.insn.code ≠ .parsed k := by simpa using hsh
    obtain ⟨pops, pushes, hop, htop, -⟩ := operands_kinds ht hsh hafter
    rw [step_operands (shuffle_none hsh) hop htop] at hstep
    refine finish_extended (eval_ok hw hv ht hsh _) he (fun v => List.mem_of_mem_drop)
      (fun hint => ?_) hstep
    have hnot : ¬ _ := fun h => hs ⟨pops, pushes, hop, hint, h⟩
    rw [not_or] at hnot
    refine eval_extended (hb.wellFormed ht.pc) ?_ hop hint (fun hc => ?_) hnot.2
    · rw [hb.parsed ht.pc]
      exact hfit s.pc ht.pc
    · simpa [hc] using hnot.1

theorem invoke_answeredRaw (h : AnsweredRaw vm s ops) :
    ∃ s₁ x, eval vm s.insn.code s ops = .next s₁ x ∧ ¬ IsExtended x := by
  obtain ⟨hcalls, hnative, heap, v, hr, hv⟩ := h
  refine ⟨{ s with heap }, v, ?_, hv⟩
  rw [eval_of_calls hcalls, invoke]
  simp only [ask, hr, frameResult, hnative, if_true]

theorem not_shuffle_of_calls (h : Calls vm s ops) : ∀ k, s.insn.code ≠ .parsed k := by
  intro k hc
  simp [Calls, hc] at h

/-- A step that spoils an int leaves one that is not extended. -/
theorem Spoils.step (hw : P.WellTyped fm) (ht : Typed P s) (hs : Spoils vm s) :
    ∃ s', s.step vm fm = some (.running s') ∧ ¬ s'.Extended := by
  obtain ⟨pops, pushes, hop, hint, h⟩ := hs
  have hsh : ∀ k ∈ shuffleKinds, s.insn.code ≠ .parsed k := by
    rintro k hk hc
    rcases h with ⟨hc', -⟩ | h
    · obtain rfl := InsnCodeKind.parsed.inj (hc.symm.trans hc')
      exact absurd hk (by decide)
    · exact not_shuffle_of_calls h.1 k hc
  have heval : ∃ s₁ x,
      eval vm s.insn.code s ((s.stack.take pops.length).map (·.word)) = .next s₁ x ∧
        ¬ IsExtended x := by
    rcases h with ⟨hc, hneg⟩ | h
    · refine ⟨s, _, by rw [hc]; rfl, fun hx => ?_⟩
      rw [(isExtended_ishr _ _).mp hx] at hneg
      cases hneg
    · exact invoke_answeredRaw h
  obtain ⟨kinds, hafter, -⟩ := hw.flows s.pc ht.pc
  obtain ⟨pops', pushes', hop', htop, -⟩ := operands_kinds ht hsh hafter
  obtain ⟨rfl, rfl⟩ := Prod.mk.inj (Option.some.inj (hop.symm.trans hop'))
  obtain ⟨s₁, x, hnext, hx⟩ := heval
  refine ⟨_, by rw [step_operands (shuffle_none hsh) hop htop, hnext]; rfl, fun he => hx ?_⟩
  refine he ⟨.int, x⟩ (List.mem_append_left _ ?_) rfl
  exact List.mem_map.mpr ⟨.int, List.mem_filter.mpr ⟨hint, by decide⟩, rfl⟩

/-! ### Runs -/

/-- Along a run of the plain interpreter all ints are extended if and only if no step spoils one. -/
theorem extended_plain_run (hw : P.WellTyped fm) (hv : vm.Respects P) (hfit : P.ConstantsFit)
    (ht : Typed P s) (he : s.Extended) :
    (∀ s', PlainConfig.Reaches vm fm (.running s) (.running s') → s'.Extended) ↔
      ∀ s', PlainConfig.Reaches vm fm (.running s) (.running s') → ¬ Spoils vm s' := by
  constructor
  · intro h s' hs' hspoils
    obtain ⟨s'', hstep, hnot⟩ := hspoils.step hw (typed_run hw hv ht hs').1
    exact hnot (h s'' (hs'.tail hstep))
  · intro h s' hs'
    -- by induction along the run: what it has come to is typed, and spoils nothing
    generalize hp : PlainConfig.running s' = p at hs'
    induction hs' generalizing s' with
    | refl =>
      obtain rfl := PlainConfig.running.inj hp
      exact he
    | @tail p₁ _ hrun hstep ih =>
      subst hp
      cases p₁ with
      | running s₁ => exact (ih _ rfl).step hw hv hfit (typed_run hw hv ht hrun).1 (h _ hrun) hstep
      | returned heap v => cases hstep
      | thrown heap e => cases hstep

theorem slotsExtended_iff {stack : Nat → StackValue} : ∀ {vs : List Value}, Holds stack vs →
    (SlotsExtended stack (vs.map (·.kind)) ↔ ∀ v ∈ vs, v.kind = .int → IsExtended v.word)
  | [], _ => by simp [SlotsExtended]
  | v :: vs, ⟨hv, h⟩ => by
    rw [List.map_cons, SlotsExtended, slotsExtended_iff h, List.forall_mem_cons, List.length_map]
    refine and_congr_left fun _ => forall_congr' fun hk => ?_
    rw [← hv, hk, canonical_of_ne (by decide)]

theorem machine_extended_iff {m : Machine W} {tos : Tos}
    (h : Represents P (.running m tos) (.running s)) : m.Extended P tos ↔ s.Extended := by
  obtain ⟨⟨hentry, -⟩, ht⟩ := h
  cases hentry with
  | spilled h =>
    rw [Machine.Extended, h.pc, ← ht.kinds]
    exact slotsExtended_iff h.all
  | @cached v vs h =>
    have hkinds : P.kindsAt m.pc = v.kind :: vs.map (·.kind) := by
      rw [h.pc, ← ht.kinds, h.stack_eq, List.map_cons]
    rw [Plain.Extended, h.stack_eq, List.forall_mem_cons, ← slotsExtended_iff h.below]
    rcases v with ⟨k, x⟩
    cases k <;> simp [Machine.Extended, hkinds, reduced, Tos.fill, and_comm]

/-- The ints that the interpreter holds, in the register or in a slot, are extended in all states
that it reaches, if and only if the method shifts no negative int by `ishr` and is given no int by a
native method that is not extended. -/
theorem extended_run (hw : P.WellTyped fm) (hv : vm.Respects P) (hfit : P.ConstantsFit)
    (ht : Typed P s) (he : s.Extended) {m : Machine W} (hm : FrameHolds m s) :
    (∀ m' tos, Config.Reaches vm fm (interpretBegin fm m) (.running m' tos) → m'.Extended P tos) ↔
      ∀ s', PlainConfig.Reaches vm fm (.running s) (.running s') → ¬ Spoils vm s' := by
  have hr := represents_begin hw ht hm
  have hsim := cached_simulates hw hv
  rw [← extended_plain_run hw hv hfit ht he]
  constructor
  · intro h s' hs'
    obtain ⟨c, hc, hrel⟩ := hsim.run hr hs'
    cases c with
    | running m' tos => exact (machine_extended_iff hrel).mp (h m' tos hc)
    | returned heap v => exact hrel.1.elim
    | thrown heap e => exact hrel.1.elim
  · intro h m' tos hc
    obtain ⟨p, hp, hrel⟩ :=
      hsim.reflects (deterministic_of_fun _) (fun _ _ => represents_progress hw hv) hr hc
    cases p with
    | running s' => exact (machine_extended_iff hrel).mpr (h s' hp)
    | returned heap v => exact hrel.1.elim
    | thrown heap e => exact hrel.1.elim

/-! ### A method that shifts -2 by 1 -/

def shiftingInsns : List ParsedInsn :=
  [{ kind := .iconst, tosBefore := .void, integerImm := -2 },
    { kind := .iconst, tosBefore := .int, integerImm := 1 },
    { kind := .ishr, tosBefore := .int }, { kind := .ireturn, tosBefore := .int }]

def shifting : TypedCode :=
  ⟨4, fun pc => shiftingInsns.getD pc default, fun pc =>
    [[], [.int], [.int, .int], [.int]].getD pc []⟩

def shiftingMethod : FrameMethod := ⟨0, fun pc => (shifting.kindsAt pc).length, []⟩

def shiftingHeap : Heap Unit :=
  ⟨(), fun _ => 0, fun pc => { toParsedInsn := shifting.code pc }⟩

def shiftingStart : Plain Unit := ⟨shiftingHeap, fun _ => 0, 0, []⟩

def shiftingFrame : Machine Unit :=
  { heap := shiftingHeap, locals := fun _ => 0, stack := fun _ => 0, programCounter := 0, pc := 0,
    sp := 0, fuel := 0 }

theorem shifting_wellTyped : shifting.WellTyped shiftingMethod where
  depth := fun _ _ => rfl
  tosBefore := by decide
  operands := fun pc hpc => by
    have hpc : pc < 4 := hpc
    interval_cases pc <;>
      exact ⟨by decide, by decide, by decide, by decide, by decide, by decide⟩
  flows := fun pc hpc => by
    have hpc : pc < 4 := hpc
    interval_cases pc <;> exact ⟨_, rfl, by decide⟩
  dup2 := by decide
  handlers := nofun

theorem shifting_respects : zeroVm.Respects shifting := zeroVm_respects (by decide)

theorem shifting_constantsFit : shifting.ConstantsFit := fun pc hpc => by
  have hpc : pc < 4 := hpc
  interval_cases pc <;> decide

theorem shiftingStart_typed : Typed shifting shiftingStart :=
  ⟨by decide, rfl, fun _ _ => ⟨rfl, .inl rfl⟩⟩

/-- Both constants are on the stack. -/
theorem shifting_spoils : Spoils zeroVm
    ⟨shiftingHeap, fun _ => 0, 2, [⟨.int, 1⟩, ⟨.int, -2⟩]⟩ :=
  ⟨_, _, rfl, by decide, .inl ⟨rfl, by decide⟩⟩

theorem shiftingFrame_not_extended :
    ¬ ∀ m' tos, Config.Reaches zeroVm shiftingMethod (interpretBegin shiftingMethod shiftingFrame)
      (.running m' tos) → m'.Extended shifting tos := fun h =>
  (extended_run shifting_wellTyped shifting_respects shifting_constantsFit shiftingStart_typed nofun
    ⟨rfl, rfl, rfl, trivial⟩).mp h _ (.head rfl (.head rfl .refl)) shifting_spoils

end BJvm.Interpreter

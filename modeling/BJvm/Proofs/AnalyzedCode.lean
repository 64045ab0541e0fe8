import BJvm.Interpreter.AnalyzedCode
import BJvm.Proofs.AnalyzedStates
import BJvm.Proofs.Locals
import BJvm.Proofs.TypedCode

/-!
# The analysis leaves typed code

The last pass enters each instruction with the stack that the one before leaves, unless there is a
frame for it, and records the stack, its depth and its register; what becomes of an instruction pops
and pushes what the analysis has popped and pushed.
-/

namespace BJvm

open Parsing

variable {env : AnalysisEnv} {m : CpMethod} {a : MethodAnalysis} {ctx ctx' : AnalysisCtx}
  {insn insn' : BytecodeInsn} {s s' t : PassState} {code : List BytecodeInsn} {i n p : Nat}
  {doRewrite : Bool}

/-! ### Entering an instruction -/

/-- What the loop does before it looks at the instruction. -/
structure EntersInsn (env : AnalysisEnv) (insn : BytecodeInsn) (s e : PassState) : Prop where
  code : e.code = s.code
  depths : e.insnIndexToSd = s.insnIndexToSd
  states : e.stackStates = s.stackStates
  iter : e.iter = s.iter ∨ s.iter.hasNext = true ∧ s.iter.next env.code = .ok e.iter
  frame : insn.originalPc = s.iter.pc →
    e.ctx.stack = (s.iter.stack.map (·.kind.representation)).reverse
  falls : insn.originalPc ≠ s.iter.pc → s.stateTerminated = false → e.ctx.stack = s.ctx.stack

theorem entersInsn_of_ok (h : enterInsn env i insn s = .ok s') : EntersInsn env insn s s' := by
  rw [enterInsn] at h
  split_ifs at h with hframe hnext hsmt hterm
  · split at h
    · rename_i iter hiter
      cases h
      exact ⟨rfl, rfl, rfl, .inr ⟨hnext, hiter⟩, fun _ => rfl, fun hne => absurd hframe hne⟩
    · cases h
  · cases h
    exact ⟨rfl, rfl, rfl, .inl rfl, fun _ => rfl, fun hne => absurd hframe hne⟩
  · split at h
    · cases h
      exact ⟨rfl, rfl, rfl, .inl rfl, fun heq => absurd heq hframe, fun _ hfalse => by simp_all⟩
    · cases h
  · cases h
    refine ⟨rfl, rfl, rfl, .inl rfl, fun heq => absurd heq hframe, fun _ _ => ?_⟩
    rw [intersectExceptionHandlers_stack]
    rfl
  · cases h
    exact ⟨rfl, rfl, rfl, .inl rfl, fun heq => absurd heq hframe, fun _ _ => rfl⟩

/-- The loop body, with all that it records. -/
theorem passStep_entered (h : passStep env doRewrite s i = .ok s') :
    ∃ tosBefore tosAfter insn' e, EntersInsn env (s.code.getD i default) s e ∧
      calculateTosType e.ctx.stack = .ok tosBefore ∧
      AnalyzeCase env doRewrite i { s.code.getD i default with tosBefore } e.ctx insn' s'.ctx ∧
      s' = { e.record doRewrite with
        ctx := s'.ctx
        stateTerminated := (s.code.getD i default).kind.terminates
        code := s.code.set i { insn' with tosAfter } } := by
  obtain ⟨e, henter, h⟩ := bind_eq_ok.mp h
  obtain ⟨⟨insn', ctx', t⟩, hinsn, h⟩ := bind_eq_ok.mp h
  rw [pure_eq_ok] at h
  subst h
  obtain ⟨tosBefore, tosAfter, insn'', hbefore, hkind, -, rfl, rfl⟩ := analyzeInstruction_ok hinsn
  have he := entersInsn_of_ok henter
  exact ⟨tosBefore, tosAfter, insn'', e, he, hbefore, analyzeKind_cases hkind, by
    simp only [PassState.record, he.code]⟩

/-! ### A pass -/

/-- The pass that has come to `i` over the code. -/
structure Passing (m : CpMethod) (code : List BytecodeInsn) (i : Nat) (s : PassState) : Prop where
  iter : IsFrame m s.iter
  length : s.code.length = code.length
  rest : ∀ p, i ≤ p → s.code.getD p default = code.getD p default
  depths : s.insnIndexToSd.length = i
  states : s.stackStates.length = i

theorem Passing.step (hs : Passing m code i s) (henv : env.code = m.code)
    (h : passStep env true s i = .ok s') : Passing m code (i + 1) s' := by
  obtain ⟨tosBefore, tosAfter, insn', e, he, -, -, heq⟩ := passStep_entered h
  rw [heq]
  refine ⟨?_, ?_, fun p hp => ?_, ?_, ?_⟩
  · rcases he.iter with hiter | ⟨hnext, hiter⟩
    · exact hiter ▸ hs.iter
    · obtain ⟨first, hfirst, hrun⟩ := hs.iter
      exact ⟨first, hfirst, hrun.tail ⟨hnext, henv ▸ hiter⟩⟩
  · rw [List.length_set, hs.length]
  · rw [getD_set_ne (by omega), hs.rest p (by omega)]
  · simp [PassState.record, he.depths, hs.depths]
  · simp [PassState.record, he.states, hs.states]

/-- What a step records. -/
theorem Passing.recorded (hs : Passing m code i s) (hi : i < code.length)
    (h : passStep env true s i = .ok s') :
    ∃ tosBefore tosAfter insn' e, EntersInsn env (code.getD i default) s e ∧
      calculateTosType e.ctx.stack = .ok tosBefore ∧
      AnalyzeCase env true i { code.getD i default with tosBefore } e.ctx insn' s'.ctx ∧
      s'.code.getD i default = { insn' with tosAfter } ∧
      s'.insnIndexToSd.getD i 0 = e.ctx.stack.length ∧
      (s'.stackStates.getD i default).stack.reverse = e.ctx.stack ∧
      s'.stateTerminated = (code.getD i default).kind.terminates := by
  obtain ⟨tosBefore, tosAfter, insn', e, he, hbefore, hcase, heq⟩ := passStep_entered h
  rw [hs.rest i le_rfl] at he hcase heq
  have hcode : s'.code = s.code.set i { insn' with tosAfter } := by rw [heq]
  have hdepths : s'.insnIndexToSd = s.insnIndexToSd ++ [e.ctx.stack.length] := by
    rw [heq, ← he.depths]
    rfl
  have hstates : s'.stackStates =
      s.stackStates ++ [{ stack := e.ctx.stack.reverse, locals := e.ctx.locals }] := by
    rw [heq, ← he.states]
    rfl
  refine ⟨tosBefore, tosAfter, insn', e, he, hbefore, hcase, ?_, ?_, ?_, by rw [heq]⟩
  · rw [hcode, getD_set_self (by rw [hs.length]; exact hi)]
  · rw [hdepths, ← hs.depths, getD_append_self]
  · rw [hstates, ← hs.states, getD_append_self, List.reverse_reverse]

/-- What has been recorded stays as it is. -/
theorem passing_keeps (hs : Passing m code i s) (hp : p < i) (h : passStep env true s i = .ok s') :
    s'.code.getD p default = s.code.getD p default ∧
      s'.insnIndexToSd.getD p 0 = s.insnIndexToSd.getD p 0 ∧
      s'.stackStates.getD p default = s.stackStates.getD p default := by
  obtain ⟨tosBefore, tosAfter, insn', e, he, -, -, heq⟩ := passStep_entered h
  rw [heq]
  refine ⟨getD_set_ne (by omega), ?_, ?_⟩
  · simp only [PassState.record, he.depths]
    exact List.getD_append _ _ _ _ (by rw [hs.depths]; exact hp)
  · simp only [PassState.record, he.states, if_true]
    exact List.getD_append _ _ _ _ (by rw [hs.states]; exact hp)

/-- The instruction at `p` as the pass has left it. -/
def PassedAt (env : AnalysisEnv) (m : CpMethod) (code : List BytecodeInsn) (t : PassState) (p : Nat) :
    Prop :=
  ∃ tosBefore tosAfter insn' ctx ctx', calculateTosType ctx.stack = .ok tosBefore ∧
    AnalyzeCase env true p { code.getD p default with tosBefore } ctx insn' ctx' ∧
    t.code.getD p default = { insn' with tosAfter } ∧
    t.insnIndexToSd.getD p 0 = ctx.stack.length ∧
    (t.stackStates.getD p default).stack.reverse = ctx.stack ∧
    (p + 1 < code.length → ¬ HasFrame m (p + 1) → (code.getD p default).kind.terminates = false →
      (t.stackStates.getD (p + 1) default).stack.reverse = ctx'.stack)

theorem runPass_passed {iter : StackMapFrameIterator} (henv : env.code = m.code)
    (hiter : StackMapFrameIterator.init m = .ok iter)
    (hpc : ∀ p, (code.getD p default).originalPc = (m.code.code.getD p default).originalPc)
    (h : runPass env true code.length { ctx, iter, code } = .ok t) :
    t.code.length = code.length ∧ (∀ p < code.length, PassedAt env m code t p) ∧
      (0 < code.length → (m.code.code.getD 0 default).originalPc = iter.pc →
        (t.stackStates.getD 0 default).stack.reverse =
          (iter.stack.map (·.kind.representation)).reverse) := by
  obtain ⟨states, hstart, hstep, hend⟩ := exists_states h
  have hpassing : ∀ j ≤ code.length, Passing m code j (states j) := by
    intro j
    induction j with
    | zero =>
      intro _
      rw [hstart]
      exact ⟨⟨iter, hiter, .refl⟩, rfl, fun _ _ => rfl, rfl, rfl⟩
    | succ j ih => exact fun hj => (ih (by omega)).step henv (hstep j hj)
  have hkeeps : ∀ p < code.length, t.code.getD p default = (states (p + 1)).code.getD p default ∧
      t.insnIndexToSd.getD p 0 = (states (p + 1)).insnIndexToSd.getD p 0 ∧
      t.stackStates.getD p default = (states (p + 1)).stackStates.getD p default := by
    intro p hp
    rw [← hend code.length le_rfl]
    have hall : ∀ j, p + 1 ≤ j → j ≤ code.length →
        (states j).code.getD p default = (states (p + 1)).code.getD p default ∧
        (states j).insnIndexToSd.getD p 0 = (states (p + 1)).insnIndexToSd.getD p 0 ∧
        (states j).stackStates.getD p default = (states (p + 1)).stackStates.getD p default := by
      intro j hj
      induction j, hj using Nat.le_induction with
      | base => exact fun _ => ⟨rfl, rfl, rfl⟩
      | succ j hj ih =>
        intro hjn
        obtain ⟨h1, h2, h3⟩ := ih (by omega)
        obtain ⟨k1, k2, k3⟩ := passing_keeps (hpassing j (by omega)) (p := p) (by omega) (hstep j hjn)
        exact ⟨k1.trans h1, k2.trans h2, k3.trans h3⟩
    exact hall _ hp le_rfl
  refine ⟨?_, fun p hp => ?_, fun hpos hfirst => ?_⟩
  · rw [← hend code.length le_rfl, (hpassing _ le_rfl).length]
  · obtain ⟨tosBefore, tosAfter, insn', e, -, hbefore, hcase, hcode, hdepth, hstack, hterm⟩ :=
      (hpassing p hp.le).recorded hp (hstep p hp)
    obtain ⟨k1, k2, k3⟩ := hkeeps p hp
    refine ⟨tosBefore, tosAfter, insn', e.ctx, (states (p + 1)).ctx, hbefore, hcase, k1.trans hcode,
      k2.trans hdepth, by rw [k3]; exact hstack, fun hnext hframe hfalls => ?_⟩
    obtain ⟨-, -, -, e', he', -, -, -, -, hstack', -⟩ :=
      (hpassing (p + 1) hnext.le).recorded hnext (hstep (p + 1) hnext)
    rw [(hkeeps (p + 1) hnext).2.2, hstack']
    exact he'.falls (fun heq => hframe ⟨_, (hpassing (p + 1) hnext.le).iter, hpc (p + 1) ▸ heq⟩)
      (hterm.trans hfalls)
  · obtain ⟨-, -, -, e, he, -, -, -, -, hstack, -⟩ :=
      (hpassing 0 (Nat.zero_le _)).recorded hpos (hstep 0 hpos)
    rw [(hkeeps 0 hpos).2.2, hstack]
    rw [hstart] at he
    exact he.frame ((hpc 0).trans hfirst)

theorem init_pc {it : StackMapFrameIterator} (h : StackMapFrameIterator.init m = .ok it) :
    it.pc = 0 := by
  rw [StackMapFrameIterator.init] at h
  split at h
  · rename_i hdata
    split at h
    · rename_i it' hnext
      obtain rfl := Except.ok.inj h
      obtain ⟨⟨offsetDelta, stack, locals, data⟩, hread, hnext⟩ := bind_eq_ok.mp hnext
      obtain ⟨rest, hdata⟩ := List.head?_eq_some_iff.mp hdata
      rw [StackMapFrameIterator.readFrame, hdata] at hread
      obtain ⟨rfl, -⟩ := Except.ok.inj hread
      simp only at hnext
      split_ifs at hnext
      · cases hnext
      · obtain rfl := Except.ok.inj hnext
        rfl
    · cases h
  · obtain rfl := Except.ok.inj h
    rfl

/-! ### The last pass -/

theorem AnalyzeCase.tosBefore (h : AnalyzeCase env doRewrite i insn ctx insn' ctx') :
    insn'.tosBefore = insn.tosBefore := by
  cases h with
  | plain _ _ =>
    rw [branchDelta]
    split_ifs <;> rfl
  | shuffle _ => split_ifs <;> rfl
  | _ => rfl

theorem terminates_of_shuffle {kind : InsnCode} (h : kind ∈ shuffleKinds) :
    kind.terminates = false := by
  simp only [shuffleKinds, List.mem_cons, List.not_mem_nil, or_false] at h
  rcases h with rfl | rfl | rfl | rfl | rfl | rfl | rfl | rfl | rfl <;> rfl

theorem AnalyzeCase.terminates (h : AnalyzeCase env doRewrite i insn ctx insn' ctx') :
    insn'.kind.terminates = insn.kind.terminates := by
  cases h with
  | plain _ _ =>
    rw [branchDelta]
    split_ifs <;> rfl
  | shuffle h =>
    split_ifs
    · rw [terminates_of_shuffle (mem_of_shuffleStack h)]
      exact terminates_of_shuffle (mem_rewritten h)
    · rfl
  | _ => rfl

theorem passStep_originalPc (h : passStep env doRewrite s i = .ok s') :
    s'.code.length = s.code.length ∧ ∀ p,
      (s'.code.getD p default).originalPc = (s.code.getD p default).originalPc := by
  obtain ⟨tosBefore, tosAfter, insn', e, -, -, hcase, heq⟩ := passStep_entered h
  rw [heq]
  refine ⟨List.length_set .., fun p => ?_⟩
  show ((s.code.set i _).getD p default).originalPc = _
  rcases eq_or_ne p i with rfl | hp
  · by_cases hlt : p < s.code.length
    · rw [getD_set_self hlt]
      exact hcase.originalPc
    · rw [List.set_eq_of_length_le (not_lt.mp hlt)]
  · rw [getD_set_ne hp.symm]

theorem runPass_originalPc : ∀ {n : Nat} {s' : PassState}, runPass env doRewrite n s = .ok s' →
    s'.code.length = s.code.length ∧ ∀ p,
      (s'.code.getD p default).originalPc = (s.code.getD p default).originalPc
  | 0, s', h => by
    simp only [runPass, List.range_zero, List.foldlM_nil, pure_eq_ok] at h
    subst h
    exact ⟨rfl, fun _ => rfl⟩
  | n + 1, s', h => by
    simp only [runPass, List.range_succ, List.foldlM_append, List.foldlM_cons, List.foldlM_nil,
      bind_pure] at h
    obtain ⟨s₁, h₁, h⟩ := bind_eq_ok.mp h
    obtain ⟨hlen₁, hpc₁⟩ := runPass_originalPc h₁
    obtain ⟨hlen, hpc⟩ := passStep_originalPc h
    exact ⟨hlen.trans hlen₁, fun p => (hpc p).trans (hpc₁ p)⟩

/-- The passes end in one that rewrites and records, over code that has kept its places. -/
theorem runPasses_last {orig : List BytecodeInsn} : ∀ {fuel : Nat} {finishedRefinement : Bool}
    {ctx : AnalysisCtx} {code : List BytecodeInsn}, code.length = orig.length →
    (∀ p, (code.getD p default).originalPc = (orig.getD p default).originalPc) →
    runPasses env m fuel finishedRefinement ctx code = .ok (some a) →
    ∃ iter ctx' code' t, StackMapFrameIterator.init m = .ok iter ∧ code'.length = orig.length ∧
      (∀ p, (code'.getD p default).originalPc = (orig.getD p default).originalPc) ∧
      runPass env true code'.length { ctx := ctx', iter, code := code' } = .ok t ∧
      a = { code := t.code, insnIndexToSd := t.insnIndexToSd, stackStates := t.stackStates }
  | 0, _, _, _, _, _, h => by cases h
  | fuel + 1, finishedRefinement, ctx, code, hlen, hpc, h => by
    obtain ⟨iter, hiter, h⟩ := bind_eq_ok.mp h
    obtain ⟨s, hrun, h⟩ := bind_eq_ok.mp h
    obtain ⟨hlen', hpc'⟩ := runPass_originalPc hrun
    split_ifs at h with hchanged hfinished
    · exact runPasses_last (hlen'.trans hlen) (fun p => (hpc' p).trans (hpc p)) h
    · exact runPasses_last (hlen'.trans hlen) (fun p => (hpc' p).trans (hpc p)) h
    · have hlast : finishedRefinement = true := by simpa using hfinished
      rw [hlast] at hrun
      exact ⟨iter, ctx, code, s, hiter, hlen, hpc, hrun, (Option.some.inj (pure_eq_ok.mp h)).symm⟩

/-! ### What an instruction pops and pushes -/

open Interpreter

theorem operandKinds_of_effect {pops pushes : List TypeKind} (h : effect insn = some (pops, pushes)) :
    operandKinds insn = some (pops, pushes) := by
  have hlocal : localKind insn.kind = none := by
    rcases hl : localKind insn.kind with _ | kind
    · rfl
    · rw [effect_of_localKind hl] at h
      cases h
  unfold operandKinds
  split
  · rename_i hk
    rw [effect_eq_none hk rfl (by decide)] at h
    cases h
  · rename_i hk
    rw [effect_eq_none hk rfl (by decide)] at h
    cases h
  · rename_i hk
    rw [effect_eq_none hk rfl (by decide)] at h
    cases h
  · rw [hlocal]
    exact h

/-- An instruction pushes one value at most. -/
theorem pushes_length {pops pushes : List TypeKind} (h : effect insn = some (pops, pushes)) :
    pushes.length ≤ 1 := by
  have hstack : ∀ k : InsnCode, ∀ e, stackEffect k = some e → e.2.length ≤ 1 := by
    intro k e he
    cases k <;> cases he <;> decide
  rw [effect] at h
  rcases hs : stackEffect insn.kind with _ | e
  · rw [hs, Option.none_or, descriptorEffect] at h
    split at h <;> cases h <;> first | (split_ifs <;> simp) | simp
  · rw [hs, Option.some_or] at h
    cases h
    exact hstack _ _ hs

theorem reverse_of_short {α : Type} {l : List α} (h : l.length ≤ 1) : l.reverse = l := by
  rcases l with _ | ⟨x, _ | ⟨y, l⟩⟩
  · rfl
  · rfl
  · simp at h

theorem operandKinds_of_local {kind : TypeKind} (h : localKind insn.kind = some kind) :
    operandKinds insn = some (if insn.kind.isLoad then ([], [kind]) else ([kind], [])) := by
  unfold operandKinds
  split
  · rename_i hk
    cases hk ▸ h
  · rename_i hk
    cases hk ▸ h
  · rename_i hk
    cases hk ▸ h
  · rw [h]

theorem kindsAfter_of_pops {pops pushes : List TypeKind} (rest : List TypeKind)
    (h : operandKinds insn = some (pops, pushes)) :
    kindsAfter insn (pops ++ rest) = some (pushes.filter (· ≠ .void) ++ rest) := by
  rw [kindsAfter, h]
  simp

/-- The analysis leaves the kinds that the instruction, as rewritten, leaves. -/
theorem AnalyzeCase.kindsAfter (h : AnalyzeCase env true i insn ctx insn' ctx')
    (hvoid : .void ∉ ctx.stack)
    (hstored : insn'.kind ∈ [.putfield, .putstatic] → ctx.stack.head? = some insn'.field.reprKind) :
    Interpreter.kindsAfter insn' ctx.stack = some ctx'.stack := by
  cases h with
  | @plain pops pushes stack heffect hstack =>
    have hop : operandKinds (branchDelta insn i) = some (pops, pushes) := by
      refine operandKinds_of_effect (Eq.trans ?_ heffect)
      rw [branchDelta]
      split_ifs <;> rfl
    rw [hstack, kindsAfter_of_pops stack hop, (AnalysisCtx.pushBranchTargets_keeps ..).1, pushed]
    rw [reverse_of_short ((List.length_filter_le ..).trans (pushes_length heffect))]
  | @load kind index hkind hload _ hentry =>
    have hop := @operandKinds_of_local { insn with index, delta := env.code.maxLocals - index } _ hkind
    rw [if_pos hload] at hop
    simpa [localKind_ne_void hkind] using kindsAfter_of_pops ctx.stack hop
  | @store kind index stack hkind hload _ hstack =>
    have hop := @operandKinds_of_local { insn with index, delta := env.code.maxLocals - index } _ hkind
    rw [if_neg (by simp [hload])] at hop
    rw [hstack]
    exact kindsAfter_of_pops stack hop
  | @putfield kind stack hk hstack =>
    have hop : operandKinds insn = some ([insn.field.reprKind, .reference], []) := by
      unfold operandKinds
      rw [hk]
    have hhead := hstored (by simp [hk])
    rw [hstack] at hhead ⊢
    obtain rfl := Option.some.inj hhead
    exact kindsAfter_of_pops stack hop
  | @putstatic kind stack hk hstack =>
    have hop : operandKinds insn = some ([insn.field.reprKind], []) := by
      unfold operandKinds
      rw [hk]
    have hhead := hstored (by simp [hk])
    rw [hstack] at hhead ⊢
    obtain rfl := Option.some.inj hhead
    exact kindsAfter_of_pops stack hop
  | @iinc index hk _ =>
    have hop : operandKinds { insn with iincIndex := index } = some ([], []) := by
      unfold operandKinds
      rw [hk]
    exact kindsAfter_of_pops ctx.stack hop
  | @shuffle pushes stack rewritten hshuffle =>
    let es := ctx.stack.map fun k => (k, zeroSource)
    have hes : es.map Prod.fst = ctx.stack := (List.map_map ..).trans (List.map_id _)
    obtain ⟨hpushes, hrest, hslots⟩ := shuffleEntries_spec hes hshuffle
    have hmoved := shuffleSlots_map Prod.fst hslots
    rw [hes, List.map_append, List.map_reverse, hpushes, hrest] at hmoved
    have hnone : pushes.filter (· ≠ .void) = pushes := by
      refine List.filter_eq_self.mpr fun k hk => ?_
      rw [← hpushes] at hk
      obtain ⟨p, hp, rfl⟩ := List.mem_map.mp hk
      have hmem : p.1 ∈ ctx.stack := hes ▸ List.mem_map_of_mem ((shuffleEntries_subset ..).1 hp)
      simp only [ne_eq, decide_not, Bool.not_eq_true', decide_eq_false_iff_not]
      exact fun heq => hvoid (heq ▸ hmem)
    have hop : operandKinds { insn with kind := rewritten } = none :=
      operandKinds_shuffle (mem_rewritten hshuffle)
    rw [if_pos rfl, Interpreter.kindsAfter, hop, pushed, hnone]
    exact hmoved

/-! ### Operands -/

theorem stackEffect_of_branch {k : InsnCode} (h : k.isBranch = true) : (stackEffect k).isSome := by
  cases k <;> first | rfl | cases h

theorem effect_of_branch (h : insn.kind.isBranch = true) : (effect insn).isSome := by
  obtain ⟨e, he⟩ := Option.isSome_iff_exists.mp (stackEffect_of_branch h)
  rw [effect, he]
  rfl

theorem AnalyzeCase.branch (h : AnalyzeCase env doRewrite i insn ctx insn' ctx')
    (hb : insn'.kind.isBranch = true) (hj : insn'.kind ≠ .jsr) :
    insn'.delta = ((insn'.index : Int) - i) * sizeofBytecodeInsn := by
  cases h with
  | plain _ _ =>
    have hkind : (branchDelta insn i).kind = insn.kind := by
      rw [branchDelta]
      split_ifs <;> rfl
    rw [hkind] at hb hj
    rw [branchDelta, if_pos (by simp [hb, hj])]
  | load hkind _ _ _ =>
    have heffect := @effect_of_branch insn hb
    simp [effect_of_localKind hkind] at heffect
  | store hkind _ _ _ =>
    have heffect := @effect_of_branch insn hb
    simp [effect_of_localKind hkind] at heffect
  | putfield hk _ => cases (show insn.kind = _ from hk) ▸ hb
  | putstatic hk _ => cases (show insn.kind = _ from hk) ▸ hb
  | iinc hk _ => cases (show insn.kind = _ from hk) ▸ hb
  | @shuffle _ _ rewritten hshuffle =>
    have hmem := mem_of_shuffleStack hshuffle
    split_ifs at hb
    · have heffect := @effect_of_branch { insn with kind := rewritten } hb
      rw [effect_of_shuffle (mem_rewritten hshuffle)] at heffect
      cases heffect
    · have heffect := @effect_of_branch insn hb
      rw [effect_of_shuffle hmem] at heffect
      cases heffect

theorem AnalyzeCase.local_ (h : AnalyzeCase env true i insn ctx insn' ctx')
    (hlt : ∀ j < env.code.maxLocals, env.swizzle.getD j 0 < env.code.maxLocals)
    (hl : localKind insn'.kind ≠ none) :
    insn'.index ≤ env.code.maxLocals ∧ insn'.delta = env.code.maxLocals - insn'.index := by
  have hindex : ∀ index, swizzleLocal env true insn.index = .ok index →
      index ≤ env.code.maxLocals := fun index hok => by
    obtain ⟨hj, rfl⟩ := swizzleLocal_eq_ok.mp hok
    exact (hlt _ hj).le
  cases h with
  | plain heffect _ =>
    obtain ⟨kind, hkind⟩ := Option.ne_none_iff_exists'.mp hl
    have hsame : (branchDelta insn i).kind = insn.kind := by
      rw [branchDelta]
      split_ifs <;> rfl
    rw [hsame] at hkind
    rw [effect_of_localKind hkind] at heffect
    cases heffect
  | load _ _ hok _ => exact ⟨hindex _ hok, rfl⟩
  | store _ _ hok _ => exact ⟨hindex _ hok, rfl⟩
  | putfield hk _ => exact absurd (by rw [hk]; rfl) hl
  | putstatic hk _ => exact absurd (by rw [hk]; rfl) hl
  | iinc hk _ => exact absurd (show localKind insn.kind = none by rw [hk]; rfl) hl
  | @shuffle _ _ rewritten hshuffle =>
    have hmem : ({ insn with kind := rewritten } : BytecodeInsn).kind ∈ shuffleKinds :=
      mem_rewritten hshuffle
    exact absurd (effect_of_mem hmem).2.1 hl

theorem topRegister_of_tos {kinds : List TypeKind} {tos : ReducedTosKind}
    (h : calculateTosType kinds = .ok tos) : tos = topRegister kinds := by
  rcases kinds with _ | ⟨k, kinds⟩
  · cases h
    rfl
  · cases k <;> cases h <;> rfl

theorem wide_of_dup2 {kind : InsnCode} {kinds ps rest : List TypeKind}
    (h : shuffleStack kind kinds = .ok (ps, rest, .dup2)) :
    ∃ k below, kinds = k :: below ∧ k.isWide = false := by
  rcases kinds with _ | ⟨k, below⟩
  · have hmem := mem_of_shuffleStack h
    simp only [shuffleKinds, List.mem_cons, List.not_mem_nil, or_false] at hmem
    rcases hmem with rfl | rfl | rfl | rfl | rfl | rfl | rfl | rfl | rfl <;> cases h
  · refine ⟨k, below, rfl, ?_⟩
    by_contra hwide
    have hwide : k.isWide = true := by simpa using hwide
    have hmem := mem_of_shuffleStack h
    simp only [shuffleKinds, List.mem_cons, List.not_mem_nil, or_false] at hmem
    rcases hmem with rfl | rfl | rfl | rfl | rfl | rfl | rfl | rfl | rfl <;>
      rcases below with _ | ⟨b, _ | ⟨c, below⟩⟩ <;>
      simp [shuffleStack, popVal, bind, Except.bind, pure, Except.pure, throw, throwThe,
        MonadExceptOf.throw, hwide] at h
    all_goals (split_ifs at h <;> simp at h)

/-- A `dup2` that is left has no wide value on top. -/
theorem AnalyzeCase.dup2 (h : AnalyzeCase env true i insn ctx insn' ctx') (hk : insn'.kind = .dup2) :
    ∃ k rest, ctx.stack = k :: rest ∧ k.isWide = false := by
  cases h with
  | plain heffect _ =>
    have hsame : (branchDelta insn i).kind = insn.kind := by
      rw [branchDelta]
      split_ifs <;> rfl
    rw [hsame] at hk
    rw [effect_eq_none hk rfl (by decide)] at heffect
    cases heffect
  | load hkind _ _ _ => cases (show insn.kind = _ from hk) ▸ hkind
  | store hkind _ _ _ => cases (show insn.kind = _ from hk) ▸ hkind
  | putfield h _ => cases (show insn.kind = _ from hk) ▸ h
  | putstatic h _ => cases (show insn.kind = _ from hk) ▸ h
  | iinc h _ => cases (show insn.kind = _ from hk) ▸ h
  | shuffle hshuffle =>
    rw [if_pos rfl] at hk
    obtain rfl := hk
    exact wide_of_dup2 hshuffle

/-! ### Typed code -/

variable {insns : Nat → ClassFile.ParsedInsn} {table : List ClassFile.ParsedException}

/-- The method analysed, with the pass that has recorded it. -/
theorem analyzeMethodCode_last {fuel : Nat} (h : analyzeMethodCode fuel m = .ok (some a)) :
    ∃ env iter ctx code t, env.code = m.code ∧
      (∀ j < m.code.maxLocals, env.swizzle.getD j 0 < m.code.maxLocals) ∧
      StackMapFrameIterator.init m = .ok iter ∧
      (∀ p, (code.getD p default).originalPc = (m.code.code.getD p default).originalPc) ∧
      runPass env true code.length { ctx, iter, code } = .ok t ∧
      a = { code := t.code, insnIndexToSd := t.insnIndexToSd, stackStates := t.stackStates } := by
  rw [analyzeMethodCode] at h
  split at h
  · cases h
  rename_i locals swizzle hentry
  have hnumbers := localsOnMethodEntry_renumbers hentry
  split_ifs at h with hlvt hsmt
  all_goals
    obtain ⟨iter, ctx, code, t, hiter, -, hpc, hrun, rfl⟩ := runPasses_last rfl (fun _ => rfl) h
    exact ⟨_, iter, ctx, code, t, rfl, fun j hj => hnumbers.lt hj, hiter, hpc, hrun, rfl⟩

/-- The analysis leaves typed code, whose first instruction is entered with nothing on the stack. -/
theorem analyzed_wellTyped {fuel : Nat} (h : analyzeMethodCode fuel m = .ok (some a))
    (hp : Parsed a insns) (ht : Trusted m a insns table) :
    (TypedCode.ofAnalysis a insns).WellTyped (.ofAnalysis m a table) ∧ a.kindsAt 0 = [] := by
  obtain ⟨env, iter, ctx, code, t, henv, hlt, hiter, hpc, hrun, rfl⟩ := analyzeMethodCode_last h
  obtain ⟨hlen, hall, hfirst⟩ := runPass_passed henv hiter hpc hrun
  rw [← henv] at hlt
  refine ⟨⟨fun p hp' => ?_, fun p hp' => ?_, fun p hp' => ?_, fun p hp' => ?_, fun p hp' hk => ?_,
    ht.handlers⟩, ?_⟩
  case refine_6 =>
    by_cases hpos : 0 < code.length
    · have hinit := hfirst hpos (ht.entry.trans (init_pc hiter).symm)
      rw [init_stack hiter] at hinit
      exact hinit
    · rw [Nat.eq_zero_of_not_pos hpos, runPass, List.range_zero, List.foldlM_nil, pure_eq_ok] at hrun
      rw [← hrun]
      rfl
  all_goals
    have hp' : p < t.code.length := hp'
    obtain ⟨tosBefore, tosAfter, insn', ctx, ctx', hbefore, hcase, hcode, hdepth, hstack, hfalls⟩ :=
      hall p (hlen ▸ hp')
    have hinsn : (insns p).toBytecodeInsn = { insn' with tosAfter } := (hp.insn p hp').trans hcode
    have hkinds : MethodAnalysis.kindsAt ⟨t.code, t.insnIndexToSd, t.stackStates⟩ p = ctx.stack := hstack
  case refine_1 =>
    show t.insnIndexToSd.getD p 0 = (MethodAnalysis.kindsAt _ p).length
    rw [hkinds, hdepth]
  case refine_2 =>
    show (insns p).toBytecodeInsn.tosBefore = topRegister (MethodAnalysis.kindsAt _ p)
    rw [hkinds, hinsn, ← topRegister_of_tos hbefore]
    exact hcase.tosBefore
  case refine_3 =>
    show OperandsOk _ p (insns p)
    refine ⟨fun hb => ?_, fun hl => ?_, hp.field p hp', hp.tableswitch p hp', hp.multianewarray p hp',
      hp.subroutine p hp'⟩
    · have hjsr := (hp.subroutine p hp').1
      rw [hinsn] at hb hjsr ⊢
      exact hcase.branch hb hjsr
    · rw [hinsn] at hl ⊢
      have hlocal := hcase.local_ hlt hl
      rwa [henv] at hlocal
  case refine_4 =>
    have hafter : kindsAfter (insns p).toBytecodeInsn ctx.stack = some ctx'.stack := by
      rw [hinsn]
      refine hcase.kindsAfter (hkinds ▸ ht.noVoid p hp') fun hk => ?_
      have hstored := ht.stored p hp' (by rw [hinsn]; exact hk)
      rwa [hkinds, hinsn] at hstored
    refine ⟨ctx'.stack, ?_, fun q hq => ?_⟩
    · show kindsAfter (insns p).toBytecodeInsn (MethodAnalysis.kindsAt _ p) = _
      rw [hkinds, hafter]
    obtain ⟨hq', hflows⟩ := ht.flows p hp' q hq
    refine ⟨hq', ?_⟩
    rw [hkinds, hafter] at hflows
    by_cases hcond : q ≠ p + 1 ∨ HasFrame m q ∨ (insns p).kind.terminates = true
    · exact (Option.some.inj (hflows hcond)).symm
    · simp only [not_or, ne_eq, not_not, Bool.not_eq_true] at hcond
      obtain ⟨rfl, hframe, hterm⟩ := hcond
      rw [hinsn] at hterm
      exact hfalls (hlen ▸ hq') hframe (hcase.terminates.symm.trans hterm)
  case refine_5 =>
    have hnofloat := ht.dup2 p hp' hk
    have hk' : (insns p).toBytecodeInsn.kind = .dup2 := hk
    rw [hinsn] at hk'
    obtain ⟨k, rest, hctx, hwide⟩ := hcase.dup2 hk'
    rw [hkinds, hctx] at hnofloat
    show (insns p).toBytecodeInsn.tosBefore = .int
    rw [hinsn]
    refine hcase.tosBefore.trans ((topRegister_of_tos hbefore).trans ?_)
    rw [hctx]
    cases k <;> first | rfl | exact (hnofloat rfl).elim | cases hwide

/-- The instructions of `(z ? x : y).length` behind their analysis. -/
def conditionalInsns (p : Nat) : ClassFile.ParsedInsn :=
  { toBytecodeInsn := conditionalAnalysis.1.code.getD p default }

theorem conditional_wellTyped :
    (TypedCode.ofAnalysis conditionalAnalysis.1 conditionalInsns).WellTyped
      (.ofAnalysis conditional conditionalAnalysis.1 []) ∧ conditionalAnalysis.1.kindsAt 0 = [] := by
  have hanalyzed : analyzeMethodCode 1 conditional = .ok (some conditionalAnalysis.1) := by decide
  refine analyzed_wellTyped hanalyzed ⟨fun _ _ => rfl, by decide, by decide, by decide, by decide⟩
    ⟨rfl, by decide, ?_, nofun, by decide, by decide⟩
  have hflows : ∀ p < conditionalAnalysis.1.code.length,
      ∀ q ∈ flowsTo (conditionalInsns p).toBytecodeInsn p, q < conditionalAnalysis.1.code.length ∧
        kindsAfter (conditionalInsns p).toBytecodeInsn (conditionalAnalysis.1.kindsAt p) =
          some (conditionalAnalysis.1.kindsAt q) := by
    decide
  exact fun p hp q hq => ⟨(hflows p hp q hq).1, fun _ => (hflows p hp q hq).2⟩

end BJvm

import BJvm.Proofs.NpeSources

/-!
# The recorded states

The last pass of `analyze_method_code` records the state in which it analyses each instruction.  So
the operands of an instruction are on top of the stack recorded there, and each local has a kind.
-/

namespace BJvm

open Parsing

variable {env : AnalysisEnv} {m : CpMethod} {a : MethodAnalysis} {ctx ctx' : AnalysisCtx}
  {insn insn' : BytecodeInsn} {s s' : PassState} {code : List BytecodeInsn} {i n p : Nat}
  {doRewrite : Bool}

/-! ### The number of locals -/

/-- There are `n` locals, in each state that is known too. -/
structure AnalysisCtx.Sized (n : Nat) (ctx : AnalysisCtx) : Prop where
  locals : ctx.locals.length = n
  known : ∀ l, some l ∈ ctx.knownLocals → l.length = n

theorem intersectKinds_length : ∀ {dst src : List TypeKind}, dst.length = src.length →
    (intersectKinds dst src).1.length = src.length
  | [], [], _ => rfl
  | d :: dst, s :: src, h => by
    have ih := intersectKinds_length (Nat.succ.inj h)
    rw [intersectKinds]
    split_ifs
    · rw [List.length_cons, ih, List.length_cons]
    · rw [List.length_cons, ih, List.length_cons]

theorem AnalysisCtx.Sized.intersectLocals (h : ctx.Sized n) {src : List TypeKind}
    (hsrc : src.length = n) : (ctx.intersectLocals i src).Sized n := by
  refine ⟨h.locals, fun l hl => ?_⟩
  rcases List.mem_or_eq_of_mem_set hl with hl | hl
  · exact h.known l hl
  rcases hk : ctx.knownLocals.getD i none with _ | dst
  · rw [hk] at hl
    exact (Option.some.inj hl) ▸ hsrc
  · rw [hk] at hl
    have hmem : some dst ∈ ctx.knownLocals := by
      by_cases hi : i < ctx.knownLocals.length
      · rw [List.getD_eq_getElem _ _ hi] at hk
        exact hk ▸ List.getElem_mem hi
      · rw [List.getD_eq_default _ _ (not_lt.mp hi)] at hk
        cases hk
    obtain rfl : l = (intersectKinds dst src).1 := Option.some.inj hl
    rw [intersectKinds_length ((h.known dst hmem).trans hsrc.symm), hsrc]

theorem AnalysisCtx.Sized.intersectStack (h : ctx.Sized n) {src : List TypeKind} :
    (ctx.intersectStack i src).Sized n :=
  ⟨h.locals, h.known⟩

theorem AnalysisCtx.Sized.pushBranchTargets : ∀ (targets : List Nat) {ctx : AnalysisCtx},
    ctx.Sized n → (ctx.pushBranchTargets env i targets).Sized n
  | [], _, h => h
  | target :: targets, ctx, h => by
    have hedge : ({ ctx with edges := ctx.edges ++ [(i, target)] } : AnalysisCtx).Sized n :=
      ⟨h.locals, h.known⟩
    have hone : (ctx.pushBranchTarget env i target).Sized n := by
      rw [AnalysisCtx.pushBranchTarget]
      split_ifs
      · exact hedge.intersectStack.intersectLocals hedge.locals
      · exact hedge
    exact AnalysisCtx.Sized.pushBranchTargets targets hone

theorem AnalysisCtx.Sized.step (h : ctx.Sized n) (hc : AnalyzeCase env doRewrite i insn ctx insn' ctx') :
    ctx'.Sized n := by
  cases hc with
  | plain _ _ => exact AnalysisCtx.Sized.pushBranchTargets _ ⟨h.locals, h.known⟩
  | store _ _ _ _ => exact ⟨by rw [List.length_set, h.locals], h.known⟩
  | _ => exact ⟨h.locals, h.known⟩

theorem AnalysisCtx.Sized.foldlEntries {f : AnalysisCtx → ExceptionTableEntry → AnalysisCtx}
    (hf : ∀ ctx entry, ctx.Sized n → (f ctx entry).Sized n) :
    ∀ {l : List ExceptionTableEntry} {ctx : AnalysisCtx}, ctx.Sized n → (l.foldl f ctx).Sized n
  | [], _, h => h
  | entry :: l, _, h => AnalysisCtx.Sized.foldlEntries (l := l) hf (hf _ entry h)

theorem AnalysisCtx.Sized.handlers (h : ctx.Sized n) :
    (intersectExceptionHandlers env i ctx).Sized n :=
  h.foldlEntries fun ctx entry h => by
    split_ifs
    · exact h.intersectLocals h.locals
    · exact h

theorem intersectExceptionHandlers_stack :
    (intersectExceptionHandlers env i ctx).stack = ctx.stack := by
  rw [intersectExceptionHandlers]
  induction env.code.exceptionTable generalizing ctx with
  | nil => rfl
  | cons entry l ih =>
    rw [List.foldl_cons, ih]
    split_ifs <;> rfl

theorem AnalyzeCase.originalPc (h : AnalyzeCase env doRewrite i insn ctx insn' ctx') :
    insn'.originalPc = insn.originalPc := by
  cases h with
  | plain _ _ =>
    rw [branchDelta]
    split_ifs <;> rfl
  | shuffle _ => split_ifs <;> rfl
  | _ => rfl

theorem useStackMapFrame_length (it : StackMapFrameIterator) :
    (useStackMapFrame env it ctx).locals.length = ctx.locals.length := by
  have hfold : ∀ (l : List (ValidationType × Nat)) (locals : List TypeKind),
      (l.foldl (fun locals p => locals.set (env.swizzle.getD p.2 0) p.1.kind.representation)
        locals).length = locals.length := by
    intro l
    induction l with
    | nil => exact fun _ => rfl
    | cons p l ih => exact fun locals => (ih _).trans (List.length_set ..)
  rw [useStackMapFrame, hfold, List.length_map]

theorem enterInsn_ok (h : enterInsn env i insn s = .ok s') (hs : s.ctx.Sized n) :
    s'.ctx.Sized n ∧ s'.code = s.code ∧ s'.stackStates = s.stackStates := by
  have hframe : (useStackMapFrame env s.iter s.ctx).Sized n :=
    ⟨(useStackMapFrame_length _).trans hs.locals, hs.known⟩
  rw [enterInsn] at h
  split at h
  · split at h
    · split at h
      · cases h
        exact ⟨hframe, rfl, rfl⟩
      · cases h
    · cases h
      exact ⟨hframe, rfl, rfl⟩
  · split at h
    · split at h
      · split at h
        · rename_i stack locals _ hlocals
          cases h
          have hmem : some locals ∈ s.ctx.knownLocals := by
            by_cases hi : i < s.ctx.knownLocals.length
            · rw [List.getD_eq_getElem _ _ hi] at hlocals
              exact hlocals ▸ List.getElem_mem hi
            · rw [List.getD_eq_default _ _ (not_lt.mp hi)] at hlocals
              cases hlocals
          exact ⟨AnalysisCtx.Sized.handlers ⟨hs.known _ hmem, hs.known⟩, rfl, rfl⟩
        · cases h
      · cases h
        exact ⟨(hs.intersectStack.intersectLocals hs.locals).handlers, rfl, rfl⟩
    · cases h
      exact ⟨hs, rfl, rfl⟩

/-! ### A pass -/

/-- What the loop body does: it analyses the instruction in a state that it records, if it records. -/
theorem passStep_case (h : passStep env doRewrite s i = .ok s') :
    ∃ tosBefore tosAfter insn' e, enterInsn env i (s.code.getD i default) s = .ok e ∧
      AnalyzeCase env doRewrite i { s.code.getD i default with tosBefore } e.ctx insn' s'.ctx ∧
      s'.code = s.code.set i { insn' with tosAfter } := by
  obtain ⟨tosBefore, tosAfter, insn', e, henter, hcase, hcode, -, -⟩ := passStep_recorded h
  exact ⟨tosBefore, tosAfter, insn', e, henter, hcase, hcode⟩

theorem passStep_ok (h : passStep env doRewrite s i = .ok s') (hs : s.ctx.Sized n) :
    ∃ tosBefore tosAfter insn' ctx,
      AnalyzeCase env doRewrite i { s.code.getD i default with tosBefore } ctx insn' s'.ctx ∧
      ctx.Sized n ∧ s'.code = s.code.set i { insn' with tosAfter } ∧
      s'.stackStates = if doRewrite then
        s.stackStates ++ [{ stack := ctx.stack.reverse, locals := ctx.locals }] else s.stackStates := by
  obtain ⟨tosBefore, tosAfter, insn', e, henter, hcase, hcode, -, hstates⟩ := passStep_recorded h
  obtain ⟨hsized, -, hsame⟩ := enterInsn_ok henter hs
  refine ⟨tosBefore, tosAfter, insn', e.ctx, hcase, hsized, hcode, ?_⟩
  rw [hstates, PassState.record, hsame]

/-- What is rewritten of an instruction leaves the kinds that it pops and pushes as they are. -/
theorem effect_of_case {tosBefore tosAfter : ReducedTosKind}
    (h : AnalyzeCase env doRewrite i { insn with tosBefore } ctx insn' ctx') :
    effect { insn' with tosAfter } = effect insn := by
  cases h with
  | plain _ _ =>
    rw [branchDelta]
    split_ifs <;> rfl
  | @shuffle pushes stack rewritten h =>
    split_ifs
    · have hk : insn.kind ∈ shuffleKinds := mem_of_shuffleStack h
      have hk' : ({ insn with tosBefore, kind := rewritten, tosAfter } : BytecodeInsn).kind ∈
          shuffleKinds := mem_rewritten h
      rw [effect_of_shuffle hk, effect_of_shuffle hk']
    · rfl
  | _ => rfl

/-- The state in which the instruction at `p` was analysed. -/
structure RecordedAt (code : List BytecodeInsn) (maxLocals : Nat) (state : StackSummary)
    (p : Nat) : Prop where
  locals : state.locals.length = maxLocals
  operands : ∀ {pops pushes}, effect (code.getD p default) = some (pops, pushes) →
    ∃ rest, state.stack.reverse = pops ++ rest

/-- What the passes keep of the code that they begin with. -/
structure KeepsCode (code : List BytecodeInsn) (i : Nat) (s : PassState) : Prop where
  sized : s.ctx.Sized i
  length : s.code.length = code.length
  effect : ∀ p, effect (s.code.getD p default) = effect (code.getD p default)

theorem KeepsCode.step (hk : KeepsCode code i s) (h : passStep env doRewrite s p = .ok s') :
    KeepsCode code i s' := by
  obtain ⟨tosBefore, tosAfter, insn', ctx, hcase, hctx, hcode, -⟩ := passStep_ok h hk.sized
  refine ⟨hctx.step hcase, by rw [hcode, List.length_set, hk.length], fun q => ?_⟩
  rw [hcode]
  rcases eq_or_ne q p with rfl | hq
  · by_cases hlt : q < s.code.length
    · rw [getD_set_self hlt, effect_of_case hcase, hk.effect]
    · rw [List.set_eq_of_length_le (not_lt.mp hlt), hk.effect]
  · rw [List.getD, List.getElem?_set_ne hq.symm, ← List.getD, hk.effect]

/-- The pass up to `n`, which has recorded a state for each instruction if it records. -/
theorem runPass_records (hk : KeepsCode code i s) (hnil : s.stackStates = []) :
    ∀ {n : Nat} {s' : PassState}, runPass env doRewrite n s = .ok s' → KeepsCode code i s' ∧
      (doRewrite = true → s'.stackStates.length = n ∧
        ∀ p < n, RecordedAt code i (s'.stackStates.getD p default) p)
  | 0, s', h => by
    simp only [runPass, List.range_zero, List.foldlM_nil, pure_eq_ok] at h
    subst h
    exact ⟨hk, fun _ => ⟨by rw [hnil]; rfl, fun p hp => absurd hp (Nat.not_lt_zero p)⟩⟩
  | n + 1, s', h => by
    simp only [runPass, List.range_succ, List.foldlM_append, List.foldlM_cons, List.foldlM_nil,
      bind_pure] at h
    obtain ⟨s₁, h₁, h⟩ := bind_eq_ok.mp h
    obtain ⟨hk₁, hall⟩ := runPass_records hk hnil h₁
    refine ⟨hk₁.step h, fun hr => ?_⟩
    obtain ⟨hlen, hall⟩ := hall hr
    obtain ⟨tosBefore, tosAfter, insn', ctx, hcase, hctx, -, hstates⟩ := passStep_ok h hk₁.sized
    rw [if_pos hr] at hstates
    refine ⟨by simp [hstates, hlen], fun p hp => ?_⟩
    rw [hstates]
    rcases Nat.lt_succ_iff_lt_or_eq.mp hp with hlt | rfl
    · rw [List.getD_append _ _ _ _ (hlen ▸ hlt)]
      exact hall p hlt
    · have hself : (s₁.stackStates ++ [({ stack := ctx.stack.reverse, locals := ctx.locals } :
          StackSummary)]).getD p default = { stack := ctx.stack.reverse, locals := ctx.locals } := by
        simp [← hlen]
      rw [hself]
      refine ⟨hctx.locals, fun {pops pushes} hp => ?_⟩
      rw [← hk₁.effect p] at hp
      obtain ⟨rest, hrest⟩ := hcase.operands hp
      exact ⟨rest, by rw [List.reverse_reverse, hrest]⟩

theorem runPasses_records {orig : List BytecodeInsn} : ∀ {fuel : Nat} {finishedRefinement : Bool}
    {ctx : AnalysisCtx} {code : List BytecodeInsn}, ctx.Sized i → code.length = orig.length →
    (∀ p, effect (code.getD p default) = effect (orig.getD p default)) →
    runPasses env m fuel finishedRefinement ctx code = .ok (some a) →
    a.stackStates.length = orig.length ∧
      ∀ p < orig.length, RecordedAt orig i (a.stackStates.getD p default) p
  | 0, _, _, _, _, _, _, h => by cases h
  | fuel + 1, finishedRefinement, ctx, code, hs, hl, he, h => by
    obtain ⟨iter, -, h⟩ := bind_eq_ok.mp h
    obtain ⟨s, hrun, h⟩ := bind_eq_ok.mp h
    obtain ⟨hk, hall⟩ := runPass_records (⟨hs, hl, he⟩ : KeepsCode orig i { ctx, iter, code }) rfl hrun
    split_ifs at h with hchanged hfinished
    · have hsized : ({ s.ctx with changed := false } : AnalysisCtx).Sized i :=
        ⟨hk.sized.locals, hk.sized.known⟩
      exact runPasses_records hsized hk.length hk.effect h
    · exact runPasses_records hk.sized hk.length hk.effect h
    · obtain ⟨rfl⟩ := Option.some.inj (pure_eq_ok.mp h)
      obtain ⟨hlen, hall⟩ := hall (by simpa using hfinished)
      exact ⟨hlen.trans hl, fun p hp => hall p (hl ▸ hp)⟩

/-- What `analyze_method_code` has recorded of a method. -/
theorem analyzeMethodCode_records {fuel : Nat} (h : analyzeMethodCode fuel m = .ok (some a)) :
    a.stackStates.length = m.code.code.length ∧ ∀ p < m.code.code.length,
      RecordedAt m.code.code m.code.maxLocals (a.stackStates.getD p default) p := by
  rw [analyzeMethodCode] at h
  split at h
  · cases h
  rename_i locals swizzle hentry
  have hlocals := (swizzle_perm hentry).2
  split_ifs at h with hlvt hsmt
  · refine runPasses_records ?_ rfl (fun _ => rfl) h
    refine AnalysisCtx.Sized.foldlEntries (fun ctx entry h => h.intersectStack) ⟨hlocals, ?_⟩
    intro l hl
    exact absurd (List.eq_of_mem_replicate hl) (by simp)
  · exact runPasses_records ⟨hlocals, fun l hl => absurd hl List.not_mem_nil⟩ rfl (fun _ => rfl) h

/-! ### The arguments -/

end BJvm

import BJvm.Proofs.Analyzer
import BJvm.Proofs.Swizzle
import BJvm.Analysis.ValueOrigins
import Mathlib.Data.List.Forall2

/-!
# The sources recorded are right in undisturbed runs

The sources before the instruction at `p` are a function of `p` alone, since the analysis goes
through the code once.  So a run that follows the code keeps the sources right, and a jump keeps them
right where nothing in between writes what is still in use.
-/

namespace BJvm

open Parsing

variable {env : AnalysisEnv} {m : CpMethod} {a : MethodAnalysis} {i : Nat}

/-! ### The arrays -/

/-- The entries in use at the given depth, top first. -/
def live (stack : Nat → VariableSource) : Nat → List VariableSource
  | 0 => []
  | depth + 1 => stack depth :: live stack depth

@[simp] theorem length_live (stack : Nat → VariableSource) : ∀ d, (live stack d).length = d
  | 0 => rfl
  | d + 1 => by rw [live, List.length_cons, length_live stack d]

theorem getElem?_live (stack : Nat → VariableSource) : ∀ {d k : Nat}, k < d →
    (live stack d)[k]? = some (stack (d - 1 - k))
  | d + 1, 0, _ => by simp [live]
  | d + 1, k + 1, h => by
    rw [live, List.getElem?_cons_succ, getElem?_live stack (by omega)]
    congr 2
    omega

theorem getElem?_reverse_live (stack : Nat → VariableSource) {d k : Nat} (h : k < d) :
    (live stack d).reverse[k]? = some (stack k) := by
  rw [List.getElem?_reverse (by rwa [length_live]), length_live, getElem?_live stack (by omega)]
  congr 2
  omega

theorem live_congr {stack stack' : Nat → VariableSource} : ∀ {d : Nat},
    (∀ k < d, stack k = stack' k) → live stack d = live stack' d
  | 0, _ => rfl
  | d + 1, h => by
    rw [live, live, h d (by omega), live_congr fun k hk => h k (by omega)]

theorem drop_live (stack : Nat → VariableSource) : ∀ d k : Nat,
    (live stack d).drop k = live stack (d - k)
  | d, 0 => by simp
  | 0, k + 1 => by simp [live]
  | d + 1, k + 1 => by
    rw [live, List.drop_succ_cons, drop_live stack d k]
    congr 1
    omega

namespace SourceState

variable {src : SourceState}

theorem map_snd_entries : ∀ kinds : List TypeKind,
    (src.entries kinds).map Prod.snd = live src.stack kinds.length
  | [] => rfl
  | k :: kinds => by
    rw [entries, List.map_cons, map_snd_entries kinds]
    rfl

theorem map_fst_entries : ∀ kinds : List TypeKind, (src.entries kinds).map Prod.fst = kinds
  | [] => rfl
  | k :: kinds => by rw [entries, List.map_cons, map_fst_entries kinds]

@[simp] theorem pushAll_locals : ∀ (ss : List VariableSource) (src : SourceState) (d : Nat),
    (src.pushAll d ss).locals = src.locals
  | [], _, _ => rfl
  | s :: ss, src, d => by rw [pushAll, pushAll_locals ss]

theorem pushAll_stack_of_notMem : ∀ {ss : List VariableSource} {src : SourceState} {d k : Nat},
    k ∉ List.range' d ss.length → (src.pushAll d ss).stack k = src.stack k
  | [], _, _, _, _ => rfl
  | s :: ss, src, d, k, h => by
    rw [List.length_cons, List.range'_succ, List.mem_cons, not_or] at h
    rw [pushAll, pushAll_stack_of_notMem h.2]
    exact Function.update_of_ne h.1 _ _

theorem live_pushAll : ∀ (ss : List VariableSource) (src : SourceState) (d : Nat),
    live (src.pushAll d ss).stack (d + ss.length) = ss.reverse ++ live src.stack d
  | [], _, _ => rfl
  | s :: ss, src, d => by
    have hbelow : ∀ k < d, Function.update src.stack d s k = src.stack k := fun k hk =>
      Function.update_of_ne (Nat.ne_of_lt hk) _ _
    rw [pushAll, List.length_cons, show d + (ss.length + 1) = d + 1 + ss.length by omega,
      live_pushAll ss, live, live_congr hbelow, List.reverse_cons, List.append_assoc,
      List.singleton_append]
    simp only [Function.update_self]

theorem pushBranchTargets_of_table (h : env.missingSmt = false) (targets : List Nat) :
    src.pushBranchTargets env targets = src := by
  simp [pushBranchTargets, h]

end SourceState

/-! ### Rearranging the stack -/

theorem shuffleSlots_forall₂ {α β : Type} {R : α → β → Prop} {kind : InsnCode} {xs xs' : List α}
    {ys ys' : List β} (h : List.Forall₂ R xs ys) (hx : shuffleSlots kind xs = some xs')
    (hy : shuffleSlots kind ys = some ys') : List.Forall₂ R xs' ys' := by
  revert hx
  fun_cases shuffleSlots kind xs
  case case10 => exact nofun
  case' case1 | case7 => rcases h with _ | ⟨ha, hs⟩
  case' case2 | case4 | case8 | case9 => rcases h with _ | ⟨ha, _ | ⟨hb, hs⟩⟩
  case' case3 | case5 => rcases h with _ | ⟨ha, _ | ⟨hb, _ | ⟨hc, hs⟩⟩⟩
  case' case6 => rcases h with _ | ⟨ha, _ | ⟨hb, _ | ⟨hc, _ | ⟨hd, hs⟩⟩⟩⟩
  all_goals
    intro hx
    obtain rfl := Option.some.inj hx
    obtain rfl := Option.some.inj hy
    simp [*]

/-- A position that is not written keeps its value. -/
theorem shuffleSlots_unwritten {α : Type} {kind : InsnCode} {xs xs' : List α} {k : Nat}
    (h : shuffleSlots kind xs = some xs') (hk : k ∉ shuffleWritten xs.length kind)
    (hlt : k < xs'.length) : xs'.reverse[k]? = xs.reverse[k]? := by
  revert h
  fun_cases shuffleSlots kind xs
  case case10 => exact nofun
  all_goals
    intro h
    obtain rfl := Option.some.inj h
    simp only [shuffleWritten, List.mem_range'_1, List.mem_singleton, List.length_cons] at hk hlt
    grind

theorem shuffleSlots_map {α β : Type} (f : α → β) {kind : InsnCode} {xs xs' : List α}
    (h : shuffleSlots kind xs = some xs') :
    shuffleSlots kind (xs.map f) = some (xs'.map f) := by
  revert h
  fun_cases shuffleSlots kind xs
  case case10 => exact nofun
  all_goals
    intro h
    obtain rfl := Option.some.inj h
    simp [shuffleSlots]

/-- What is pushed has been on the stack, and what is left was its lower part. -/
theorem shuffleEntries_subset (kind : InsnCode) (es : List (TypeKind × VariableSource)) :
    (shuffleEntries kind es).1 ⊆ es ∧ (shuffleEntries kind es).2 <:+ es := by
  fun_cases shuffleEntries kind es
  all_goals simp [List.suffix_cons_iff, List.tail_suffix]

/-- The entries move as the kinds do, and as the slots do in a run of the rewritten form. -/
theorem shuffleEntries_spec {kind rewritten : InsnCode} {kinds ps rest : List TypeKind}
    {es : List (TypeKind × VariableSource)} (hes : es.map Prod.fst = kinds)
    (h : shuffleStack kind kinds = .ok (ps, rest, rewritten)) :
    (shuffleEntries kind es).1.map Prod.fst = ps ∧
      (shuffleEntries kind es).2.map Prod.fst = rest ∧
    shuffleSlots rewritten es =
      some ((shuffleEntries kind es).1.reverse ++ (shuffleEntries kind es).2) := by
  subst hes
  revert h
  fun_cases shuffleEntries kind es
  case case23 hdup hdupX1 hdupX2 hdup2 hdup2X1 hdup2X2 hpop hpop2 hswap =>
    unfold shuffleStack
    split
    all_goals rcases es with _ | ⟨x, _ | ⟨y, es⟩⟩
    all_goals simp_all [popVal, bind, Except.bind]
  case' case21 a s ha => rcases s with _ | ⟨b, s⟩
  all_goals
    simp_all [shuffleStack, popVal, bind, Except.bind, pure, Except.pure, throw, throwThe,
      MonadExceptOf.throw]
  all_goals grind [shuffleSlots]

/-! ### The pass -/

/-- The states that a loop goes through. -/
theorem exists_states {σ ε : Type} {f : σ → Nat → Except ε σ} : ∀ {n : Nat} {s t : σ},
    (List.range n).foldlM f s = .ok t → ∃ states : Nat → σ, states 0 = s ∧
      (∀ i < n, f (states i) i = .ok (states (i + 1))) ∧ ∀ i, n ≤ i → states i = t
  | 0, s, t, h => by
    rw [List.range_zero, List.foldlM_nil, pure_eq_ok] at h
    exact ⟨fun _ => s, rfl, fun i hi => absurd hi (Nat.not_lt_zero i), fun _ _ => h⟩
  | n + 1, s, t, h => by
    rw [List.range_succ, List.foldlM_append, bind_eq_ok] at h
    obtain ⟨t1, h1, h⟩ := h
    obtain ⟨states, hstart, hstep, hend⟩ := exists_states h1
    rw [List.foldlM_cons, bind_eq_ok] at h
    obtain ⟨t', h2, h⟩ := h
    rw [List.foldlM_nil, pure_eq_ok] at h
    subst h
    refine ⟨fun i => if i ≤ n then states i else t', by simpa using hstart, fun i hi => ?_,
      fun i hi => if_neg (by omega)⟩
    rcases Nat.lt_succ_iff_lt_or_eq.mp hi with hlt | rfl
    · simp [Nat.le_of_lt hlt, Nat.succ_le_of_lt hlt, hstep i hlt]
    · simp [hend i le_rfl, h2]

theorem map_foldlM {σ τ ε : Type} {f : σ → Nat → Except ε σ} {g : τ → Nat → Except ε τ} {π : σ → τ}
    (h : ∀ s i, (f s i).map π = g (π s) i) : ∀ (l : List Nat) (s : σ),
      (l.foldlM f s).map π = l.foldlM g (π s)
  | [], s => rfl
  | i :: l, s => by
    rw [List.foldlM_cons, List.foldlM_cons, ← h]
    rcases f s i with e | t
    · rfl
    · exact map_foldlM h l t

theorem sourceStep_pass (finishedRefinement : Bool) (s : SourcePass) (i : Nat) :
    (sourceStep env finishedRefinement s i).map (·.pass) = passStep env finishedRefinement s.pass i := by
  rw [sourceStep]
  rcases hstep : passStep env finishedRefinement s.pass i with e | t
  · rcases henter : enterInsn env i (s.pass.code.getD i default) s.pass with e' | entered
    · rw [passStep, henter] at hstep
      exact hstep
    · rfl
  · obtain ⟨entered, henter, -⟩ := bind_eq_ok.mp hstep
    rw [henter]
    rfl

theorem runSourcePasses_fst (m : CpMethod) : ∀ (fuel : Nat) (finishedRefinement : Bool)
    (ctx : AnalysisCtx) (src : SourceState) (code : List BytecodeInsn),
    (runSourcePasses env m fuel finishedRefinement ctx src code).map (Option.map Prod.fst) =
      runPasses env m fuel finishedRefinement ctx code
  | 0, _, _, _, _ => rfl
  | fuel + 1, finishedRefinement, ctx, src, code => by
    rw [runSourcePasses, runPasses]
    rcases StackMapFrameIterator.init m with e | iter
    · rfl
    have hpass : (runSourcePass env finishedRefinement code.length { pass := { ctx, iter, code }, src }).map
        (·.pass) = runPass env finishedRefinement code.length { ctx, iter, code } :=
      map_foldlM (fun s i => sourceStep_pass finishedRefinement s i) _ _
    simp only [bind, Except.bind, ← hpass]
    rcases runSourcePass env finishedRefinement code.length { pass := { ctx, iter, code }, src } with e | s
    · rfl
    simp only [Except.map]
    split_ifs
    · exact runSourcePasses_fst m fuel _ _ _ _
    · exact runSourcePasses_fst m fuel _ _ _ _
    · rfl

/-- The sources are kept beside the analysis and do not change it. -/
theorem analyzeMethodSources_fst (fuel : Nat) (m : CpMethod) :
    (analyzeMethodSources fuel m).map (Option.map Prod.fst) = analyzeMethodCode fuel m := by
  rw [analyzeMethodSources, analyzeMethodCode]
  rcases localsOnMethodEntry m with _ | ⟨locals, swizzle⟩
  · rfl
  · simp only
    split_ifs
    · rfl
    · exact runSourcePasses_fst m _ _ _ _ _
    · exact runSourcePasses_fst m _ _ _ _ _

/-- With a `StackMapTable`, only a frame changes the state before an instruction. -/
theorem enterInsn_of_table {insn : BytecodeInsn} {s s' : PassState} (hsmt : env.missingSmt = false)
    (h : enterInsn env i insn s = .ok s') :
    s'.code = s.code ∧ s'.stackStates = s.stackStates ∧ s'.ctx.changed = s.ctx.changed ∧
      (s.ctx.stack = [] → s.iter.stack = [] → s'.ctx.stack = []) := by
  have hframe : s.iter.stack = [] → (useStackMapFrame env s.iter s.ctx).stack = [] := fun hit => by
    simp [useStackMapFrame, hit]
  rw [enterInsn, hsmt] at h
  split at h
  · split at h
    · split at h
      · obtain rfl := Except.ok.inj h
        exact ⟨rfl, rfl, rfl, fun _ => hframe⟩
      · cases h
    · obtain rfl := Except.ok.inj h
      exact ⟨rfl, rfl, rfl, fun _ => hframe⟩
  · obtain rfl := Except.ok.inj h
    exact ⟨rfl, rfl, rfl, fun hs _ => hs⟩

theorem analyzeKind_changed {insn insn' : BytecodeInsn} {ctx ctx' : AnalysisCtx}
    (hsmt : env.missingSmt = false) (h : AnalyzeCase env true i insn ctx insn' ctx') :
    ctx'.changed = ctx.changed := by
  have hpush : ∀ (targets : List Nat) (ctx : AnalysisCtx),
      (ctx.pushBranchTargets env i targets).changed = ctx.changed := by
    intro targets
    induction targets with
    | nil => exact fun _ => rfl
    | cons target targets ih =>
      intro ctx
      rw [AnalysisCtx.pushBranchTargets, List.foldl_cons]
      exact (ih _).trans (by simp [AnalysisCtx.pushBranchTarget, hsmt])
  cases h with
  | plain _ _ => rw [hpush]
  | _ => rfl

/-- The instruction at `p` as it was analysed: the state recorded, and what became of it. -/
def Analyzed (env : AnalysisEnv) (m : CpMethod) (a : MethodAnalysis) (p : Nat) : Prop :=
  ∃ tosBefore tosAfter insn' ctx ctx',
    AnalyzeCase env true p { m.code.code.getD p default with tosBefore } ctx insn' ctx' ∧
    a.code.getD p default = { insn' with tosAfter } ∧
    a.stackStates.getD p default = { stack := ctx.stack.reverse, locals := ctx.locals }

theorem enterInsn_code {insn : BytecodeInsn} {s s' : PassState}
    (h : enterInsn env i insn s = .ok s') : s'.code = s.code := by
  rw [enterInsn] at h
  repeat' split at h
  all_goals cases h
  all_goals rfl

/-- The loop body analyses the instruction in a state that it has entered. -/
theorem passStep_recorded {doRewrite : Bool} {s s' : PassState}
    (h : passStep env doRewrite s i = .ok s') :
    ∃ tosBefore tosAfter insn' e, enterInsn env i (s.code.getD i default) s = .ok e ∧
      AnalyzeCase env doRewrite i { s.code.getD i default with tosBefore } e.ctx insn' s'.ctx ∧
      s'.code = s.code.set i { insn' with tosAfter } ∧ s'.iter = e.iter ∧
      s'.stackStates = (e.record doRewrite).stackStates := by
  obtain ⟨e, henter, h⟩ := bind_eq_ok.mp h
  obtain ⟨⟨insn', ctx', t⟩, hinsn, h⟩ := bind_eq_ok.mp h
  rw [pure_eq_ok] at h
  subst h
  obtain ⟨tosBefore, tosAfter, insn'', -, hkind, -, rfl, -⟩ := analyzeInstruction_ok hinsn
  refine ⟨tosBefore, tosAfter, insn'', e, henter, analyzeKind_cases hkind, ?_, rfl, rfl⟩
  simp only [PassState.record, enterInsn_code henter]

/-- The sources follow it, in the same state. -/
theorem sourceStep_recorded {doRewrite : Bool} {s s' : SourcePass} {e : PassState}
    (he : enterInsn env i (s.pass.code.getD i default) s.pass = .ok e)
    (h : sourceStep env doRewrite s i = .ok s') :
    passStep env doRewrite s.pass i = .ok s'.pass ∧
      s'.src = analyzeSources env i (s.pass.code.getD i default) e.ctx.stack
        (enterSources env i (s.pass.code.getD i default) s.pass s.src) ∧
      s'.sources = s.sources ++ [writeNpeSources (s.pass.code.getD i default) e.ctx.stack.length
        (enterSources env i (s.pass.code.getD i default) s.pass s.src)] := by
  obtain ⟨e', he', h⟩ := bind_eq_ok.mp h
  obtain ⟨pass, hpass, h⟩ := bind_eq_ok.mp h
  rw [pure_eq_ok] at h
  subst h
  obtain rfl := Except.ok.inj (he.symm.trans he')
  exact ⟨hpass, rfl, rfl⟩

/-- What one step of the loop does, from the state `ctx` that it finds or takes from a frame. -/
theorem sourceStep_ok {s s' : SourcePass} (hsmt : env.missingSmt = false)
    (h : sourceStep env true s i = .ok s') :
    ∃ tosBefore tosAfter insn' ctx ctx',
      AnalyzeCase env true i { s.pass.code.getD i default with tosBefore } ctx insn' ctx' ∧
      s'.pass.code = s.pass.code.set i { insn' with tosAfter } ∧
      s'.pass.stackStates =
        s.pass.stackStates ++ [{ stack := ctx.stack.reverse, locals := ctx.locals }] ∧
      s'.src = analyzeSources env i (s.pass.code.getD i default) ctx.stack s.src ∧
      s'.sources = s.sources ++
        [writeNpeSources (s.pass.code.getD i default) ctx.stack.length s.src] ∧
      s'.pass.ctx.changed = s.pass.ctx.changed ∧
      (s.pass.ctx.stack = [] → s.pass.iter.stack = [] → ctx.stack = []) := by
  obtain ⟨e, henter, -⟩ := bind_eq_ok.mp h
  obtain ⟨hpass, hsrc, hsources⟩ := sourceStep_recorded henter h
  obtain ⟨tosBefore, tosAfter, insn', e', henter', hcase, hcode, -, hrecord⟩ := passStep_recorded hpass
  obtain rfl := Except.ok.inj (henter.symm.trans henter')
  obtain ⟨-, hstates, hchanged, hempty⟩ := enterInsn_of_table hsmt henter
  have hsame : enterSources env i (s.pass.code.getD i default) s.pass s.src = s.src := by
    simp [enterSources, hsmt]
  rw [hsame] at hsrc hsources
  refine ⟨tosBefore, tosAfter, insn', e.ctx, _, hcase, hcode, ?_, hsrc, hsources, ?_, hempty⟩
  · rw [hrecord, PassState.record, if_pos rfl, hstates]
  · exact (analyzeKind_changed hsmt hcase).trans hchanged

def SourcePass.analysis (s : SourcePass) : MethodAnalysis where
  code := s.pass.code
  insnIndexToSd := s.pass.insnIndexToSd
  stackStates := s.pass.stackStates

/-- The sources before the instructions are those of `src`, in the steps of the loop. -/
structure FollowsSources (env : AnalysisEnv) (m : CpMethod) (a : MethodAnalysis)
    (src : Nat → SourceState) (sources : List StackVariableSources) (p : Nat) : Prop where
  analyzed : Analyzed env m a p
  step : src (p + 1) = analyzeSources env p (m.code.code.getD p default)
    (a.stackStates.getD p default).stack.reverse (src p)
  source : sources.getD p default =
    writeNpeSources (m.code.code.getD p default) (a.depthAt p) (src p)

/-- What has been recorded when the loop comes to the instruction at `i`. -/
structure RecordedUpTo (env : AnalysisEnv) (m : CpMethod) (src : Nat → SourceState) (i : Nat)
    (s : SourcePass) : Prop where
  code : ∀ p, i ≤ p → s.pass.code.getD p default = m.code.code.getD p default
  codeLength : s.pass.code.length = m.code.code.length
  states : s.pass.stackStates.length = i
  sources : s.sources.length = i
  unchanged : s.pass.ctx.changed = false
  empty : s.analysis.depthAt 0 = 0
  follows : ∀ p < i, FollowsSources env m s.analysis src s.sources p

theorem getD_append_self {α : Type} {l : List α} {v d : α} : (l ++ [v]).getD l.length d = v := by
  simp

theorem FollowsSources.congr {a a' : MethodAnalysis} {src : Nat → SourceState}
    {sources sources' : List StackVariableSources} {p : Nat}
    (h : FollowsSources env m a src sources p)
    (hcode : a'.code.getD p default = a.code.getD p default)
    (hstates : a'.stackStates.getD p default = a.stackStates.getD p default)
    (hsources : sources'.getD p default = sources.getD p default) :
    FollowsSources env m a' src sources' p := by
  obtain ⟨⟨tosBefore, tosAfter, insn', ctx, ctx', hcase, hc, hs⟩, hstep, hsource⟩ := h
  have hdepth : a'.depthAt p = a.depthAt p := by
    rw [MethodAnalysis.depthAt, hstates, MethodAnalysis.depthAt]
  exact ⟨⟨tosBefore, tosAfter, insn', ctx, ctx', hcase, hcode.trans hc, hstates.trans hs⟩,
    hstates ▸ hstep, by rw [hsources, hsource, hdepth]⟩

theorem RecordedUpTo.step {src : Nat → SourceState} {s s' : SourcePass}
    (hr : RecordedUpTo env m src i s) (hsmt : env.missingSmt = false) (hi : i < m.code.code.length)
    (h : sourceStep env true s i = .ok s') (hsrc : s.src = src i) (hsrc' : s'.src = src (i + 1))
    (hzero : i = 0 → s.pass.ctx.stack = [] ∧ s.pass.iter.stack = []) :
    RecordedUpTo env m src (i + 1) s' := by
  obtain ⟨tosBefore, tosAfter, insn', ctx, ctx', hcase, hcode, hstates, hstep, hsources, hchanged,
    hempty⟩ := sourceStep_ok hsmt h
  rw [hr.code i le_rfl] at hcase hstep hsources
  have hstate : s'.pass.stackStates.getD i default =
      { stack := ctx.stack.reverse, locals := ctx.locals } := by
    rw [hstates, ← hr.states, getD_append_self]
  refine ⟨fun p hp => ?_, ?_, ?_, ?_, ?_, ?_, fun p hp => ?_⟩
  · rw [hcode, List.getD, List.getElem?_set_ne (by omega), ← List.getD, hr.code p (by omega)]
  · rw [hcode, List.length_set, hr.codeLength]
  · rw [hstates, List.length_append, hr.states, List.length_singleton]
  · rw [hsources, List.length_append, hr.sources, List.length_singleton]
  · rw [hchanged, hr.unchanged]
  · rcases Nat.eq_zero_or_pos i with rfl | hpos
    · rw [MethodAnalysis.depthAt, SourcePass.analysis, hstate, hempty (hzero rfl).1 (hzero rfl).2]
      rfl
    · rw [MethodAnalysis.depthAt, SourcePass.analysis, hstates,
        List.getD_append _ _ _ _ (hr.states ▸ hpos)]
      exact hr.empty
  · rcases Nat.lt_succ_iff_lt_or_eq.mp hp with hlt | rfl
    · refine (hr.follows p hlt).congr ?_ ?_ ?_
      · simp only [SourcePass.analysis]
        rw [hcode, List.getD, List.getElem?_set_ne (by omega), ← List.getD]
      · simp only [SourcePass.analysis]
        rw [hstates, List.getD_append _ _ _ _ (hr.states ▸ hlt)]
      · rw [hsources, List.getD_append _ _ _ _ (hr.sources ▸ hlt)]
    · refine ⟨⟨tosBefore, tosAfter, insn', ctx, ctx', hcase, ?_, hstate⟩, ?_, ?_⟩
      · simp only [SourcePass.analysis]
        rw [hcode, getD_set_self (hr.codeLength ▸ hi)]
      · simp only [SourcePass.analysis]
        rw [← hsrc', hstep, hstate, hsrc, List.reverse_reverse]
      · rw [MethodAnalysis.depthAt, SourcePass.analysis, hstate, hsources, hsrc, List.length_reverse]
        conv_lhs => rw [← hr.sources]
        rw [getD_append_self, hr.sources]

/-- Behind the code there is nothing to analyse. -/
theorem followsSources_behind {src : Nat → SourceState} {sources : List StackVariableSources}
    {p : Nat} (hcode : m.code.code.length ≤ p) (ha : a.code.length ≤ p)
    (hstates : a.stackStates.length ≤ p) (hsources : sources.length ≤ p)
    (hsrc : src (p + 1) = src p) : FollowsSources env m a src sources p := by
  have hinsn : m.code.code.getD p default = default := List.getD_eq_default _ _ hcode
  have hstate : a.stackStates.getD p default = default := List.getD_eq_default _ _ hstates
  have heffect : effect default = some ([], []) := rfl
  have htargets : pushedTargets default = [] := by decide
  refine ⟨⟨.void, .void, default, { locals := [] }, { locals := [] }, ?_, ?_, hstate⟩, ?_, ?_⟩
  · rw [hinsn]
    have hplain : AnalyzeCase env true p default { locals := [] } (branchDelta default p)
        (AnalysisCtx.pushBranchTargets { locals := [] } env p (pushedTargets default)) :=
      .plain heffect rfl
    exact hplain
  · rw [List.getD_eq_default _ _ ha]
    rfl
  · rw [hinsn, hstate, hsrc]
    unfold analyzeSources
    rw [← effect, heffect, htargets]
    by_cases hsmt : env.missingSmt <;> simp [SourceState.pushAll, SourceState.pushBranchTargets]
  · rw [List.getD_eq_default _ _ hsources, hinsn]
    rfl

theorem init_stack {it : StackMapFrameIterator} (h : StackMapFrameIterator.init m = .ok it) :
    it.stack = [] := by
  rw [StackMapFrameIterator.init] at h
  split at h
  · rename_i hdata
    split at h
    · rename_i it' hnext
      obtain rfl := Except.ok.inj h
      obtain ⟨⟨offsetDelta, stack, locals, data⟩, hread, hnext⟩ := bind_eq_ok.mp hnext
      obtain ⟨rest, hdata⟩ := List.head?_eq_some_iff.mp hdata
      rw [StackMapFrameIterator.readFrame, hdata] at hread
      obtain ⟨-, rfl, -⟩ := Except.ok.inj hread
      simp only at hnext
      split_ifs at hnext
      · cases hnext
      · obtain rfl := Except.ok.inj hnext
        rfl
    · cases h
  · obtain rfl := Except.ok.inj h
    rfl

/-- What the analysis leaves behind follows the sources before each instruction. -/
theorem analyzeMethodSources_ok {fuel : Nat} {sources : List StackVariableSources}
    (hm : m.missingSmt = false) (h : analyzeMethodSources fuel m = .ok (some (a, sources))) :
    ∃ (env : AnalysisEnv) (src : Nat → SourceState), env.missingSmt = false ∧
      src 0 = initialSources m ∧ a.depthAt 0 = 0 ∧
      ∀ p, FollowsSources env m a src sources p := by
  simp only [analyzeMethodSources, hm, Bool.not_false, Bool.false_eq_true, if_false] at h
  split at h
  · cases h
  rename_i locals swizzle hentry
  split at h
  · cases h
  cases fuel with
  | zero => cases h
  | succ fuel =>
    obtain ⟨iter, hiter, h⟩ := bind_eq_ok.mp h
    obtain ⟨t, ht, h⟩ := bind_eq_ok.mp h
    obtain ⟨states, hstart, hstep, hend⟩ := exists_states ht
    let env : AnalysisEnv := { code := m.code, swizzle, missingSmt := false }
    let src := fun p => (states p).src
    have hzero : RecordedUpTo env m src 0 (states 0) := by
      rw [hstart]
      exact ⟨fun _ _ => rfl, rfl, rfl, rfl, rfl, rfl, fun p hp => absurd hp (Nat.not_lt_zero p)⟩
    have hall : ∀ i ≤ m.code.code.length, RecordedUpTo env m src i (states i) := by
      intro i
      induction i with
      | zero => exact fun _ => hzero
      | succ i ih =>
        intro hi
        refine (ih (by omega)).step rfl hi (hstep i hi) rfl rfl fun h0 => ?_
        rw [h0, hstart]
        exact ⟨rfl, init_stack hiter⟩
    have hlast := hall _ le_rfl
    rw [hend _ le_rfl] at hlast
    simp only [hlast.unchanged, Bool.false_eq_true, if_false, Bool.not_true, pure_eq_ok, Option.some.injEq, Prod.mk.injEq] at h
    obtain ⟨rfl, rfl⟩ := h
    refine ⟨env, src, rfl, ?_, ?_, fun p => ?_⟩
    · simp only [src, hstart]
    · exact hlast.empty
    · rcases Nat.lt_or_ge p m.code.code.length with hp | hp
      · exact hlast.follows p hp
      · refine followsSources_behind hp (hlast.codeLength ▸ hp) (hlast.states ▸ hp)
          (hlast.sources ▸ hp) ?_
        simp only [src, hend p hp, hend (p + 1) (by omega)]

/-! ### One instruction -/

/-- What an instruction, as it was rewritten, does to the sources. -/
inductive SourceCase (p : Nat) (insn : BytecodeInsn) (state : StackSummary) (src : SourceState) :
    SourceState → Prop
  | plain {pops pushes : List TypeKind} : effect insn = some (pops, pushes) →
      SourceCase p insn state src (src.pushAll (state.stack.length - pops.length)
        (List.replicate (pushes.filter (· ≠ .void)).length (.insn p)))
  | load {kind : TypeKind} : effect insn = none → localKind insn.kind = some kind →
      insn.kind.isLoad = true → state.locals.getD insn.index .void ≠ .void →
      SourceCase p insn state src (src.pushAll state.stack.length [src.locals insn.index])
  | store {kind : TypeKind} : effect insn = none → localKind insn.kind = some kind →
      insn.kind.isLoad = false →
      SourceCase p insn state src
        { src with locals := Function.update src.locals insn.index (.local_ p) }
  | put : insn.kind = .putfield ∨ insn.kind = .putstatic ∨ insn.kind = .iinc →
      SourceCase p insn state src src
  | shuffle {src' : SourceState} {out : List VariableSource} : effect insn = none →
      localKind insn.kind = none → shuffleSlots insn.kind (live src.stack state.stack.length) = some out →
      src'.locals = src.locals →
      (.void ∉ state.stack → live src'.stack out.length = out ∧
        ∀ k, out.length ≤ k → src'.stack k = src.stack k) →
      SourceCase p insn state src src'

theorem writtenLocal_eq_some {insn : BytecodeInsn} {slot : Nat} :
    writtenLocal insn = some slot ↔
      (∃ kind, localKind insn.kind = some kind) ∧ insn.kind.isLoad = false ∧ insn.index = slot := by
  rw [writtenLocal]
  split_ifs with h <;> simp_all [Option.isSome_iff_exists]

theorem mem_of_shuffleSlots {α : Type} {kind : InsnCode} {xs xs' : List α}
    (h : shuffleSlots kind xs = some xs') : kind ∈ shuffleKinds := by
  unfold shuffleSlots at h
  split at h
  case h_10 => cases h
  all_goals decide

theorem mem_rewritten {kind rewritten : InsnCode} {kinds ps rest : List TypeKind}
    (h : shuffleStack kind kinds = .ok (ps, rest, rewritten)) : rewritten ∈ shuffleKinds := by
  have hes : (kinds.map fun k => (k, zeroSource)).map Prod.fst = kinds :=
    (List.map_map ..).trans (List.map_id kinds)
  exact mem_of_shuffleSlots (shuffleEntries_spec hes h).2.2

theorem effect_of_mem {insn : BytecodeInsn} (h : insn.kind ∈ shuffleKinds) :
    effect insn = none ∧ localKind insn.kind = none ∧ dereferenced insn = none := by
  simp only [shuffleKinds, List.mem_cons, List.not_mem_nil, or_false] at h
  rcases h with hk | hk | hk | hk | hk | hk | hk | hk | hk
  all_goals exact ⟨effect_eq_none hk rfl (by decide), by rw [hk]; rfl, by rw [dereferenced, hk]⟩

theorem analyzeSources_local {insn : BytecodeInsn} {kind : TypeKind} {kinds : List TypeKind}
    {src : SourceState} (h : localKind insn.kind = some kind) :
    analyzeSources env i insn kinds src =
      if insn.kind.isLoad then src.pushAll kinds.length [src.locals (env.swizzle.getD insn.index 0)]
      else { src with
        locals := Function.update src.locals (env.swizzle.getD insn.index 0) (.local_ i) } := by
  unfold analyzeSources
  rw [← effect, effect_of_localKind h, h]

theorem analyzeSources_shuffle {insn : BytecodeInsn} {kinds : List TypeKind} {src : SourceState}
    (heffect : effect insn = none) (hlocal : localKind insn.kind = none) :
    analyzeSources env i insn kinds src =
      src.pushAll (shuffleEntries insn.kind (src.entries kinds)).2.length
        (((shuffleEntries insn.kind (src.entries kinds)).1.filter (·.1 ≠ .void)).map Prod.snd) := by
  unfold analyzeSources
  rw [← effect, heffect, hlocal]

theorem swizzleLocal_ok {index n : Nat} (h : swizzleLocal env true n = .ok index) :
    index = env.swizzle.getD n 0 := by
  simp only [swizzleLocal, if_true] at h
  split_ifs at h
  exact (Except.ok.inj h).symm

/-- The array after the entries have moved. -/
theorem live_shuffle {kind rewritten : InsnCode} {kinds ps rest : List TypeKind} {src src' : SourceState}
    (h : shuffleStack kind kinds = .ok (ps, rest, rewritten))
    (hsrc' : src' = src.pushAll (shuffleEntries kind (src.entries kinds)).2.length
      (((shuffleEntries kind (src.entries kinds)).1.filter (·.1 ≠ .void)).map Prod.snd)) :
    ∃ out, shuffleSlots rewritten (live src.stack kinds.length) = some out ∧
      (.void ∉ kinds → live src'.stack out.length = out ∧
        ∀ k, out.length ≤ k → src'.stack k = src.stack k) := by
  obtain ⟨hps, hrest, hslots⟩ := shuffleEntries_spec (src.map_fst_entries kinds) h
  obtain ⟨hsub, ⟨above, hsuffix⟩⟩ := shuffleEntries_subset kind (src.entries kinds)
  generalize shuffleEntries kind (src.entries kinds) = r at *
  obtain ⟨pushes, left⟩ := r
  have hout := shuffleSlots_map Prod.snd hslots
  rw [src.map_snd_entries] at hout
  have hlive : above.map Prod.snd ++ left.map Prod.snd = live src.stack kinds.length := by
    rw [← List.map_append, hsuffix, src.map_snd_entries]
  have hlength : above.length + left.length = kinds.length := by
    simpa using congrArg List.length hlive
  have hleft : left.map Prod.snd = live src.stack left.length := by
    have hdrop := congrArg (List.drop above.length) hlive
    rw [List.drop_left' (List.length_map _), drop_live] at hdrop
    rw [hdrop, show kinds.length - above.length = left.length by omega]
  refine ⟨_, hout, fun hvoid => ?_⟩
  have hfilter : pushes.filter (·.1 ≠ .void) = pushes := by
    refine List.filter_eq_self.mpr fun e he => ?_
    have hmem : e.1 ∈ (src.entries kinds).map Prod.fst := List.mem_map_of_mem (hsub he)
    rw [src.map_fst_entries] at hmem
    simpa using fun hv : e.1 = .void => hvoid (hv ▸ hmem)
  rw [hfilter] at hsrc'
  subst hsrc'
  have htotal : ((pushes.reverse ++ left).map Prod.snd).length =
      left.length + (pushes.map Prod.snd).length := by
    simp [Nat.add_comm]
  refine ⟨?_, fun k hk => ?_⟩
  · rw [htotal, SourceState.live_pushAll, List.map_append, List.map_reverse, hleft]
  · refine SourceState.pushAll_stack_of_notMem fun hmem => ?_
    rw [htotal] at hk
    exact absurd (List.mem_range'_1.mp hmem).2 (Nat.not_lt.mpr hk)

/-- The pass does to the sources what the rewritten instruction says. -/
theorem FollowsSources.sourceCase {src : Nat → SourceState} {sources : List StackVariableSources}
    {p : Nat} (hsmt : env.missingSmt = false) (h : FollowsSources env m a src sources p) :
    SourceCase p (a.code.getD p default) (a.stackStates.getD p default) (src p) (src (p + 1)) := by
  obtain ⟨⟨tosBefore, tosAfter, insn', ctx, ctx', hcase, hcode, hstate⟩, hstep, -⟩ := h
  have htos : analyzeSources env p (m.code.code.getD p default) ctx.stack (src p) =
      analyzeSources env p { m.code.code.getD p default with tosBefore } ctx.stack (src p) := rfl
  rw [hstep, hcode, hstate, List.reverse_reverse, htos]
  generalize { m.code.code.getD p default with tosBefore } = insn at *
  cases hcase with
  | @plain pops pushes stack heffect hstack =>
    have heffect' : effect { branchDelta insn p with tosAfter } = some (pops, pushes) := by
      rw [← heffect, branchDelta]
      split_ifs <;> rfl
    have hsrc : analyzeSources env p insn ctx.stack (src p) = (src p).pushAll
        (ctx.stack.length - pops.length)
        ((pushes.filter (· ≠ .void)).map fun _ => .insn p) := by
      unfold analyzeSources
      rw [show (stackEffect insn.kind).or (descriptorEffect insn) = some (pops, pushes) from heffect]
      exact SourceState.pushBranchTargets_of_table hsmt _
    rw [hsrc, List.map_const', ← List.length_reverse]
    exact .plain heffect'
  | load hkind hload hindex hentry =>
    obtain rfl := swizzleLocal_ok hindex
    rw [analyzeSources_local hkind, if_pos hload, ← List.length_reverse]
    refine .load (effect_of_localKind hkind) hkind hload ?_
    exact hentry ▸ localKind_ne_void hkind
  | store hkind hload hindex hstack =>
    obtain rfl := swizzleLocal_ok hindex
    rw [analyzeSources_local hkind, hload]
    exact .store (effect_of_localKind hkind) hkind hload
  | putfield hkind hstack =>
    rw [analyzeSources_shuffle (effect_eq_none hkind rfl (by decide)) (by rw [hkind]; rfl), hkind]
    exact .put (.inl rfl)
  | putstatic hkind hstack =>
    rw [analyzeSources_shuffle (effect_eq_none hkind rfl (by decide)) (by rw [hkind]; rfl), hkind]
    exact .put (.inr (.inl rfl))
  | iinc hkind hindex =>
    rw [analyzeSources_shuffle (effect_eq_none hkind rfl (by decide)) (by rw [hkind]; rfl), hkind]
    exact .put (.inr (.inr rfl))
  | @shuffle pushes stack rewritten hshuffle =>
    obtain ⟨heffect, hlocal, -⟩ := effect_of_mem (mem_of_shuffleStack hshuffle)
    obtain ⟨out, hout, hlive⟩ := live_shuffle hshuffle (analyzeSources_shuffle heffect hlocal)
    rw [← List.length_reverse] at hout
    have hslots : shuffleSlots ({ insn with kind := rewritten, tosAfter } : BytecodeInsn).kind
        (live (src p).stack ctx.stack.reverse.length) = some out := hout
    obtain ⟨heffect', hlocal', -⟩ := effect_of_mem (mem_of_shuffleSlots hslots)
    refine .shuffle heffect' hlocal' hslots ?_ (by simpa using hlive)
    rw [analyzeSources_shuffle heffect hlocal, SourceState.pushAll_locals]

/-- The source stands for the origin of the value, if it has one. -/
def Traces (code : List BytecodeInsn) (v : Operand) (source : VariableSource) : Prop :=
  v.origin = none ∨ source.denotes code = v.origin

theorem forall₂_live_drop {R : Operand → VariableSource → Prop} {stack : Nat → VariableSource} :
    ∀ {args rest : List Operand} {d : Nat}, List.Forall₂ R (args ++ rest) (live stack d) →
      List.Forall₂ R rest (live stack (d - args.length))
  | args, rest, d, h => by
    have hdrop := List.forall₂_drop args.length h
    rwa [List.drop_left, drop_live] at hdrop

theorem forall₂_replicate {α β : Type} {R : α → β → Prop} {b : β} : ∀ {l : List α},
    (∀ x ∈ l, R x b) → List.Forall₂ R l (List.replicate l.length b)
  | [], _ => .nil
  | x :: l, h => .cons (h x (by simp)) (forall₂_replicate fun y hy => h y (by simp [hy]))

namespace SourceCase

variable {p slot k : Nat} {insn : BytecodeInsn} {state : StackSummary} {src src' : SourceState}

theorem stack_of_notMem (h : SourceCase p insn state src src') (hvoid : .void ∉ state.stack)
    (hk : k ∉ writtenStack insn state.stack.length) : src'.stack k = src.stack k := by
  rw [writtenStack, ← effect] at hk
  cases h with
  | plain heffect =>
    rw [heffect] at hk
    exact SourceState.pushAll_stack_of_notMem (by rwa [List.length_replicate])
  | load heffect hkind hload hentry =>
    rw [heffect, hkind, hload] at hk
    exact SourceState.pushAll_stack_of_notMem hk
  | store _ _ _ => rfl
  | put _ => rfl
  | @shuffle _ out heffect hlocal hslots _ hlive =>
    obtain ⟨hout, hbehind⟩ := hlive hvoid
    rw [heffect, hlocal] at hk
    rcases Nat.lt_or_ge k out.length with hlt | hge
    · have hsame := shuffleSlots_unwritten hslots (by rwa [length_live]) hlt
      have hold : k < state.stack.length := by
        by_contra hge
        have hnone : (live src.stack state.stack.length).reverse[k]? = none :=
          List.getElem?_eq_none (by simpa using hge)
        rw [hnone, List.getElem?_eq_none_iff, List.length_reverse] at hsame
        omega
      rw [getElem?_reverse_live _ hold, ← hout, getElem?_reverse_live _ hlt] at hsame
      exact Option.some.inj hsame
    · exact hbehind k hge

theorem locals_of_ne (h : SourceCase p insn state src src') (hslot : writtenLocal insn ≠ some slot) :
    src'.locals slot = src.locals slot := by
  cases h with
  | plain _ => rw [SourceState.pushAll_locals]
  | load _ _ _ _ => rw [SourceState.pushAll_locals]
  | store heffect hkind hload =>
    refine Function.update_of_ne (fun hs => hslot ?_) _ _
    simp [writtenLocal, hkind, hload, hs]
  | put _ => rfl
  | shuffle _ _ _ hlocals _ => rw [hlocals]

/-- A store makes the local's source stand for the local. -/
theorem locals_stored {code : List BytecodeInsn} (h : SourceCase p insn state src src')
    (hinsn : code.getD p default = insn) (hslot : writtenLocal insn = some slot) :
    (src'.locals slot).denotes code = some (.localVariable slot) := by
  obtain ⟨⟨kind, hkind⟩, hload, rfl⟩ := writtenLocal_eq_some.mp hslot
  cases h with
  | plain heffect => exact absurd ((effect_of_localKind hkind).symm.trans heffect) (by simp)
  | load _ _ hload' _ => exact absurd (hload'.symm.trans hload) (by simp)
  | store _ _ _ => simp only [Function.update_self, VariableSource.denotes, hinsn]
  | put hput => rcases hput with hk | hk | hk <;> exact absurd hkind (by simp [hk, localKind])
  | shuffle _ hlocal _ _ _ => exact absurd (hlocal.symm.trans hkind) (by simp)

/-- A step of a run, with the state that the analysis has recorded at its instruction. -/
theorem executes {code : List BytecodeInsn} {s : ExecState} {stack : List Operand}
    {locals : Nat → Operand} (h : SourceCase s.pc insn state src src')
    (hinsn : code.getD s.pc default = insn) (hvoid : .void ∉ state.stack)
    (hstack : List.Forall₂ (Traces code) s.stack (live src.stack state.stack.length))
    (hlocals : ∀ slot, state.locals.getD slot .void ≠ .void →
      Traces code (s.locals slot) (src.locals slot))
    (hexec : Executes insn s stack locals) :
    List.Forall₂ (Traces code) stack (live src'.stack stack.length) ∧
      ∀ slot, state.locals.getD slot .void ≠ .void ∨ writtenLocal insn = some slot →
        Traces code (locals slot) (src'.locals slot) := by
  have hdepth := hstack.length_eq
  rw [length_live] at hdepth
  rw [Executes, ← effect] at hexec
  cases h with
  | plain heffect =>
    rw [heffect] at hexec
    obtain ⟨args, rest, results, hargs, hpops, rfl, hpushes, horigin, rfl⟩ := hexec
    rw [hargs, List.length_append] at hdepth
    rw [hargs] at hstack
    have hresults : List.Forall₂ (Traces code) results
        (List.replicate results.length (.insn s.pc)).reverse := by
      rw [List.reverse_replicate]
      exact forall₂_replicate fun v hv => .inr (horigin v hv).symm
    have hlive : (results ++ rest).length = state.stack.length - args.length +
        (List.replicate results.length (VariableSource.insn s.pc)).length := by
      rw [List.length_append, List.length_replicate]
      omega
    rw [← hpushes, ← hpops, hlive, SourceState.live_pushAll]
    refine ⟨List.rel_append hresults (forall₂_live_drop hstack), fun slot hslot => ?_⟩
    rw [SourceState.pushAll_locals]
    refine hlocals slot (hslot.resolve_right fun hw => ?_)
    obtain ⟨⟨kind, hkind⟩, -⟩ := writtenLocal_eq_some.mp hw
    exact absurd ((effect_of_localKind hkind).symm.trans heffect) (by simp)
  | load heffect hkind hload hentry =>
    rw [heffect, hkind, hload] at hexec
    obtain ⟨rfl, rfl⟩ := hexec
    rw [List.length_cons, hdepth]
    refine ⟨?_, fun slot hslot => ?_⟩
    · rw [show state.stack.length + 1 = state.stack.length + [src.locals insn.index].length from rfl,
        SourceState.live_pushAll]
      exact .cons (hlocals _ hentry) hstack
    · rw [SourceState.pushAll_locals]
      refine hlocals slot (hslot.resolve_right fun hw => ?_)
      exact absurd (hload.symm.trans (writtenLocal_eq_some.mp hw).2.1) (by simp)
  | store heffect hkind hload =>
    rw [heffect, hkind, hload] at hexec
    obtain ⟨v, hv, rfl⟩ := hexec
    rw [hv, List.length_cons] at hdepth
    rw [hv, ← hdepth, live, List.forall₂_cons] at hstack
    refine ⟨hstack.2, fun slot hslot => ?_⟩
    by_cases hs : slot = insn.index
    · subst hs
      right
      simp only [Function.update_self, VariableSource.denotes, hinsn, Operand.stored]
    · simp only [Function.update_of_ne hs]
      exact hlocals slot (hslot.resolve_right fun hw =>
        hs (writtenLocal_eq_some.mp hw).2.2.symm)
  | put hput =>
    have hkept : ∀ slot, state.locals.getD slot .void ≠ .void ∨ writtenLocal insn = some slot →
        Traces code (s.locals slot) (src.locals slot) := fun slot hslot =>
      hlocals slot (hslot.resolve_right fun hw => by
        obtain ⟨⟨kind, hkind⟩, -⟩ := writtenLocal_eq_some.mp hw
        rcases hput with hk | hk | hk <;> exact absurd hkind (by simp [hk, localKind]))
    rcases hput with hk | hk | hk
    · rw [effect_eq_none hk rfl (by decide), hk] at hexec
      obtain ⟨v, o, hv, rfl⟩ := hexec
      rw [hv, List.length_cons, List.length_cons] at hdepth
      rw [hv, ← hdepth, live, live, List.forall₂_cons, List.forall₂_cons] at hstack
      exact ⟨hstack.2.2, hkept⟩
    · rw [effect_eq_none hk rfl (by decide), hk] at hexec
      obtain ⟨v, hv, rfl⟩ := hexec
      rw [hv, List.length_cons] at hdepth
      rw [hv, ← hdepth, live, List.forall₂_cons] at hstack
      exact ⟨hstack.2, hkept⟩
    · rw [effect_eq_none hk rfl (by decide), hk] at hexec
      obtain ⟨rfl, rfl⟩ := hexec
      exact ⟨hdepth ▸ hstack, hkept⟩
  | @shuffle _ out heffect hlocal hslots hsame hlive =>
    rw [heffect, hlocal] at hexec
    have hmoved : shuffleSlots insn.kind s.stack = some stack ∧ locals = s.locals := by
      simp only at hexec
      split at hexec
      case h_4 => exact hexec
      all_goals
        rename_i hk
        rw [hk] at hslots
        cases hslots
    obtain ⟨hmoved, rfl⟩ := hmoved
    have hout := shuffleSlots_forall₂ hstack hmoved hslots
    refine ⟨?_, fun slot hslot => ?_⟩
    · rwa [hout.length_eq, (hlive hvoid).1]
    · rw [hsame]
      refine hlocals slot (hslot.resolve_right fun hw => ?_)
      obtain ⟨⟨kind, hkind⟩, -⟩ := writtenLocal_eq_some.mp hw
      exact absurd (hlocal.symm.trans hkind) (by simp)

end SourceCase

/-- The kind of what an instruction dereferences survives the rewriting. -/
theorem Analyzed.dereferenced {p : Nat} (h : Analyzed env m a p) :
    dereferenced (a.code.getD p default) = dereferenced (m.code.code.getD p default) := by
  obtain ⟨tosBefore, tosAfter, insn', ctx, ctx', hcase, hcode, -⟩ := h
  rw [hcode]
  generalize m.code.code.getD p default = insn at *
  cases hcase with
  | plain _ _ =>
    rw [branchDelta]
    split_ifs <;> rfl
  | @shuffle pushes stack rewritten hshuffle =>
    have hbefore := (effect_of_mem (mem_of_shuffleStack hshuffle)).2.2
    have hmem : ({ insn with kind := rewritten, tosBefore, tosAfter } : BytecodeInsn).kind ∈
        shuffleKinds := mem_rewritten hshuffle
    exact (effect_of_mem hmem).2.2.trans hbefore.symm
  | _ => rfl

/-! ### Jumps -/

theorem eq_of_le {α : Type} {f : Nat → α} {e j : Nat} (hle : e ≤ j)
    (h : ∀ p, e ≤ p → p < j → f (p + 1) = f p) : f j = f e := by
  induction j, hle using Nat.le_induction with
  | base => rfl
  | succ j hle ih => rw [h j hle (Nat.lt_succ_self j), ih fun p hp hlt => h p hp (by omega)]

theorem eq_of_between {α : Type} {f : Nat → α} {e j : Nat}
    (h : ∀ p, Between e j p → f (p + 1) = f p) : f j = f e := by
  rcases Nat.le_total e j with hle | hle
  · exact eq_of_le hle fun p hp hlt => h p ⟨by omega, by omega⟩
  · exact (eq_of_le hle fun p hp hlt => h p ⟨by omega, by omega⟩).symm

theorem forall₂_live_congr {R : Operand → VariableSource → Prop} {f g : Nat → VariableSource} :
    ∀ {vs : List Operand}, List.Forall₂ R vs (live f vs.length) →
      (∀ k v, vs.reverse[k]? = some v → R v (f k) → R v (g k)) →
      List.Forall₂ R vs (live g vs.length)
  | [], _, _ => .nil
  | v :: vs, .cons hv hvs, h => by
    refine .cons (h vs.length v (by simp) hv) (forall₂_live_congr hvs fun k w hw => h k w ?_)
    have hk : k < vs.reverse.length := (List.getElem?_eq_some_iff.mp hw).1
    rw [List.reverse_cons, List.getElem?_append_left hk, hw]

/-- The sources stand for the origins of what is on the stack and in the locals. -/
structure Sound (a : MethodAnalysis) (src : Nat → SourceState) (s : ExecState) : Prop where
  stack : List.Forall₂ (Traces a.code) s.stack (live (src s.pc).stack (a.depthAt s.pc))
  locals : ∀ slot, a.Readable s.pc slot → Traces a.code (s.locals slot) ((src s.pc).locals slot)
  kinds : .void ∉ (a.stackStates.getD s.pc default).stack

theorem executes_pops {insn : BytecodeInsn} {s : ExecState} {pops : List TypeKind}
    {args rest : List Operand} (h : stackEffect insn.kind = some (pops, []))
    (hs : s.stack = args ++ rest) (hargs : args.length = pops.length) :
    Executes insn s rest s.locals := by
  rw [Executes, h, Option.some_or]
  exact ⟨args, rest, [], hs, hargs, rfl, rfl, nofun, rfl⟩

section Run

variable {src : Nat → SourceState} {sources : List StackVariableSources} {s s' : ExecState} {e : Nat}

/-- What is right when the run leaves the instruction. -/
theorem Sound.leave (hsmt : env.missingSmt = false)
    (hf : ∀ p, FollowsSources env m a src sources p) (hs : Sound a src s)
    (hstep : Step m a.code s e s') :
    List.Forall₂ (Traces a.code) s'.stack (live (src e).stack s'.stack.length) ∧
      ∀ slot, a.Readable s.pc slot ∨
          e = s.pc + 1 ∧ writtenLocal (a.code.getD s.pc default) = some slot →
        Traces a.code (s'.locals slot) ((src e).locals slot) := by
  have hexec : ∀ {stack locals}, Executes (a.code.getD s.pc default) s stack locals →
      List.Forall₂ (Traces a.code) stack (live (src (s.pc + 1)).stack stack.length) ∧
        ∀ slot, a.Readable s.pc slot ∨ s.pc + 1 = s.pc + 1 ∧
            writtenLocal (a.code.getD s.pc default) = some slot →
          Traces a.code (locals slot) ((src (s.pc + 1)).locals slot) := fun h => by
    obtain ⟨hstack, hlocals⟩ :=
      ((hf s.pc).sourceCase hsmt).executes rfl hs.kinds hs.stack hs.locals h
    exact ⟨hstack, fun slot hslot => hlocals slot (hslot.imp_right And.right)⟩
  cases hstep with
  | next h _ _ _ => exact hexec h
  | branch h _ => exact hexec h
  | ret h => exact hexec (executes_pops (by rw [h]; rfl) (List.nil_append _).symm rfl)
  | throw _ _ _ horigin =>
    refine ⟨.cons (.inl horigin) .nil, fun slot hslot => hs.locals slot ?_⟩
    exact hslot.resolve_right fun h => absurd h.1 (by omega)

/-- The source of a local stored somewhere in front stands for the local. -/
theorem stored_denotes (hsmt : env.missingSmt = false)
    (hf : ∀ p, FollowsSources env m a src sources p) {slot q : Nat} : ∀ {j : Nat}, q < j →
      writtenLocal (a.code.getD q default) = some slot →
      ((src j).locals slot).denotes a.code = some (.localVariable slot)
  | j + 1, hq, hw => by
    have hcase := (hf j).sourceCase hsmt
    by_cases hj : writtenLocal (a.code.getD j default) = some slot
    · exact hcase.locals_stored rfl hj
    · have hne : q ≠ j := fun h => hj (h ▸ hw)
      rw [hcase.locals_of_ne hj]
      exact stored_denotes hsmt hf (by omega) hw

theorem Sound.step (hsmt : env.missingSmt = false)
    (hf : ∀ p, FollowsSources env m a src sources p) (hs : Sound a src s)
    (hstep : Step m a.code s e s') (hfits : FrameFits a s s' e) (hu : Undisturbed a s' e) :
    Sound a src s' := by
  obtain ⟨hstack, hlocals⟩ := hs.leave hsmt hf hstep
  refine ⟨?_, fun slot hslot => ?_, hfits.kinds _ (.inl rfl)⟩
  · rw [← hfits.depth]
    refine forall₂_live_congr hstack fun k v hv htraces => ?_
    by_cases hw : ∃ p, Between e s'.pc p ∧ k ∈ writtenStack (a.code.getD p default) (a.depthAt p)
    · obtain ⟨p, hp, hk⟩ := hw
      exact .inl (hu.stack p hp k hk v hv)
    · have hsame : (src s'.pc).stack k = (src e).stack k :=
        eq_of_between (f := fun p => (src p).stack k) fun p hp =>
          ((hf p).sourceCase hsmt).stack_of_notMem (hfits.kinds p (.inr hp)) fun hk =>
            hw ⟨p, hp, hk⟩
      rwa [hsame]
  · by_cases hw : ∃ p, Between e s'.pc p ∧ writtenLocal (a.code.getD p default) = some slot
    · obtain ⟨p, hp, hslot'⟩ := hw
      obtain ⟨horigin, q, hq, hwritten⟩ := hu.locals p hp slot hslot' hslot
      exact .inr ((stored_denotes hsmt hf hq hwritten).trans horigin.symm)
    · have hsame : (src s'.pc).locals slot = (src e).locals slot :=
        eq_of_between (f := fun p => (src p).locals slot) fun p hp =>
          ((hf p).sourceCase hsmt).locals_of_ne fun h => hw ⟨p, hp, h⟩
      rw [hsame]
      exact hlocals slot (hfits.readable slot hslot)

theorem Sound.right (hf : ∀ p, FollowsSources env m a src sources p) (hs : Sound a src s) :
    SourceRight a sources s := by
  intro k hk v hv hnull
  have hlt : k < a.depthAt s.pc := by
    have hlength := hs.stack.length_eq
    rw [length_live] at hlength
    rw [← hlength]
    exact (List.getElem?_eq_some_iff.mp hv).1
  rw [(hf s.pc).analyzed.dereferenced] at hk
  rw [(hf s.pc).source, writeNpeSources, Option.mem_def.mp hk]
  have hzip : (v, (src s.pc).stack (a.depthAt s.pc - 1 - k)) ∈
      s.stack.zip (live (src s.pc).stack (a.depthAt s.pc)) :=
    List.mem_of_getElem? (List.getElem?_zip_eq_some.mpr ⟨hv, getElem?_live _ hlt⟩)
  rcases (List.forall₂_iff_zip.mp hs.stack).2 hzip with hnone | htraces
  · exact absurd (v.nonNull hnone) (by simp [hnull])
  · exact htraces

end Run

/-- The method has the parameters `x`, `y` and `z`, and frames where the two values meet. -/
def conditional : CpMethod where
  isStatic := true
  descriptor :=
    { args := [{ baseKind := .reference }, { baseKind := .reference }, { baseKind := .int }]
      returnType := { baseKind := .void } }
  code :=
    { maxStack := 1
      maxLocals := 3
      code :=
        [{ kind := .iload, originalPc := 0, index := 2 },
          { kind := .ifeq, originalPc := 1, index := 4 },
          { kind := .aload, originalPc := 4, index := 0 },
          { kind := .goto, originalPc := 5, index := 5 },
          { kind := .aload, originalPc := 8, index := 1 },
          { kind := .arraylength, originalPc := 9 },
          { kind := .pop, originalPc := 10 },
          { kind := .return_, originalPc := 11 }]
      stackMapTable := some { entriesCount := 2, data := [8, 64, 7, 0, 0] } }

def conditionalAnalysis : MethodAnalysis × List StackVariableSources :=
  match analyzeMethodSources 1 conditional with
  | .ok (some r) => r
  | _ => default

end BJvm

import BJvm.Analysis.MethodAnalysis
import BJvm.Parsing.Reader

/-!
# What `analyze_instruction` does when it succeeds

Popping succeeds on a stack that begins with the kinds popped (`popKinds_eq_ok`); everything an
instruction can do to the state is in `analyzeKind_cases`.
-/

namespace BJvm

open Parsing

variable {env : AnalysisEnv} {doRewrite : Bool} {i : Nat} {insn insn' : BytecodeInsn}
  {ctx ctx' : AnalysisCtx} {stack stack' : List TypeKind} {kind : TypeKind} {t : Bool}

theorem popVal_eq_ok : popVal stack = .ok (kind, stack') ↔ stack = kind :: stack' := by
  cases stack <;> simp [popVal]

theorem popKind_eq_ok : popKind kind stack = .ok stack' ↔ stack = kind :: stack' := by
  cases stack with
  | nil => simp [popKind, popVal, bind, Except.bind]
  | cons k s =>
    simp only [popKind, popVal, bind, Except.bind]
    split_ifs with h
    · simpa using fun h' => absurd h'.symm h
    · rw [ne_eq, not_not] at h
      simp [h, pure, Except.pure]

theorem popKinds_eq_ok : ∀ {kinds stack : List TypeKind},
    popKinds kinds stack = .ok stack' ↔ stack = kinds ++ stack'
  | [], stack => by simp [popKinds, pure, Except.pure]
  | k :: kinds, stack => by
    have ih : ∀ s, popKinds kinds s = .ok stack' ↔ s = kinds ++ stack' := fun s => popKinds_eq_ok
    simp only [popKinds] at ih
    rw [popKinds, List.foldlM_cons, bind_eq_ok]
    simp only [popKind_eq_ok, ih]
    constructor
    · rintro ⟨s, rfl, rfl⟩
      rfl
    · rintro rfl
      exact ⟨_, rfl, rfl⟩

theorem pushEntry_eq_ok : pushEntry env kind stack = .ok stack' ↔
    stack.length ≠ env.code.maxStack + 1 ∧ kind ≠ .boolean ∧
      stack' = if kind = .void then stack else kind :: stack := by
  rw [pushEntry]
  split_ifs with h1 h2 h3 <;> simp_all [eq_comm]

/-- The kinds that pushing leaves on the stack, top first. -/
def pushed (kinds : List TypeKind) : List TypeKind := (kinds.filter (· ≠ .void)).reverse

theorem pushEntries_ok : ∀ {kinds stack : List TypeKind},
    pushEntries env kinds stack = .ok stack' → stack' = pushed kinds ++ stack
  | [], stack, h => by
    simp only [pushEntries, List.foldlM_nil, pure_eq_ok] at h
    simp [pushed, h]
  | k :: kinds, stack, h => by
    rw [pushEntries, List.foldlM_cons, bind_eq_ok] at h
    obtain ⟨s, hs, h⟩ := h
    obtain ⟨-, -, rfl⟩ := pushEntry_eq_ok.mp hs
    rw [pushEntries_ok h, pushed, pushed, List.filter_cons]
    split_ifs with h1 h2 h3 <;> simp_all

/-- Pushing succeeds while there is room and no kind is a boolean. -/
theorem pushEntries_eq_ok : ∀ {kinds stack : List TypeKind},
    (∀ k ∈ kinds, k ≠ .boolean) → stack.length + kinds.length ≤ env.code.maxStack + 1 →
      pushEntries env kinds stack = .ok (pushed kinds ++ stack)
  | [], stack, _, _ => rfl
  | k :: kinds, stack, hb, hlen => by
    rw [List.length_cons] at hlen
    have hone : pushEntry env k stack = .ok (if k = .void then stack else k :: stack) :=
      pushEntry_eq_ok.mpr ⟨by omega, hb k (by simp), rfl⟩
    have hrest : pushEntries env kinds (if k = .void then stack else k :: stack) =
        .ok (pushed kinds ++ if k = .void then stack else k :: stack) :=
      pushEntries_eq_ok (fun k hk => hb k (by simp [hk])) (by split_ifs <;> grind)
    rw [pushEntries, List.foldlM_cons, bind_eq_ok]
    refine ⟨_, hone, ?_⟩
    rw [pushEntries] at hrest
    rw [hrest, pushed, pushed, List.filter_cons]
    split_ifs with h1 <;> simp_all

namespace AnalysisCtx

@[simp] theorem pushBranchTarget_stack {curr target : Nat} :
    (ctx.pushBranchTarget env curr target).stack = ctx.stack := by
  rw [pushBranchTarget]
  split_ifs <;> rfl

@[simp] theorem pushBranchTarget_locals {curr target : Nat} :
    (ctx.pushBranchTarget env curr target).locals = ctx.locals := by
  rw [pushBranchTarget]
  split_ifs <;> rfl

theorem pushBranchTargets_keeps (curr : Nat) : ∀ (targets : List Nat) (ctx : AnalysisCtx),
    (ctx.pushBranchTargets env curr targets).stack = ctx.stack ∧
      (ctx.pushBranchTargets env curr targets).locals = ctx.locals
  | [], _ => ⟨rfl, rfl⟩
  | target :: targets, ctx => by
    have ih := pushBranchTargets_keeps curr targets (ctx.pushBranchTarget env curr target)
    rw [pushBranchTarget_stack, pushBranchTarget_locals] at ih
    exact ih

end AnalysisCtx

/-- The kinds an instruction pops and pushes, if that is all it does to the stack. -/
def effect (insn : BytecodeInsn) : Option (List TypeKind × List TypeKind) :=
  (stackEffect insn.kind).or (descriptorEffect insn)

/-- Everything that an instruction can do. -/
inductive AnalyzeCase (env : AnalysisEnv) (doRewrite : Bool) (i : Nat) (insn : BytecodeInsn)
    (ctx : AnalysisCtx) : BytecodeInsn → AnalysisCtx → Prop
  | plain {pops pushes stack : List TypeKind} : effect insn = some (pops, pushes) → ctx.stack = pops ++ stack →
      AnalyzeCase env doRewrite i insn ctx (branchDelta insn i)
        (({ ctx with stack := pushed pushes ++ stack } : AnalysisCtx).pushBranchTargets env i
          (pushedTargets insn))
  | load {kind : TypeKind} {index : Nat} : localKind insn.kind = some kind → insn.kind.isLoad = true →
      swizzleLocal env doRewrite insn.index = .ok index →
      ctx.locals.getD (localIndex env doRewrite index) .void = kind →
      AnalyzeCase env doRewrite i insn ctx
        { insn with index, delta := env.code.maxLocals - index }
        { ctx with stack := kind :: ctx.stack }
  | store {kind : TypeKind} {index : Nat} {stack : List TypeKind} : localKind insn.kind = some kind → insn.kind.isLoad = false →
      swizzleLocal env doRewrite insn.index = .ok index → ctx.stack = kind :: stack →
      AnalyzeCase env doRewrite i insn ctx
        { insn with index, delta := env.code.maxLocals - index }
        { ctx with stack, locals := ctx.locals.set (localIndex env doRewrite index) kind }
  | putfield {kind : TypeKind} {stack : List TypeKind} : insn.kind = .putfield → ctx.stack = kind :: .reference :: stack →
      AnalyzeCase env doRewrite i insn ctx insn { ctx with stack }
  | putstatic {kind : TypeKind} {stack : List TypeKind} : insn.kind = .putstatic → ctx.stack = kind :: stack →
      AnalyzeCase env doRewrite i insn ctx insn { ctx with stack }
  | iinc {index : Nat} : insn.kind = .iinc → swizzleLocal env doRewrite insn.iincIndex = .ok index →
      AnalyzeCase env doRewrite i insn ctx { insn with iincIndex := index } ctx
  | shuffle {pushes stack : List TypeKind} {rewritten : InsnCode} : shuffleStack insn.kind ctx.stack =
        .ok (pushes, stack, rewritten) →
      AnalyzeCase env doRewrite i insn ctx
        (if doRewrite then { insn with kind := rewritten } else insn)
        { ctx with stack := pushed pushes ++ stack }

theorem localKind_ne_void (h : localKind insn.kind = some kind) : kind ≠ .void := by
  rintro rfl
  cases hk : insn.kind <;> simp [localKind, hk] at h

theorem analyzeLocal_cases (hkind : localKind insn.kind = some kind)
    (h : analyzeLocal env doRewrite kind insn ctx = .ok (insn', ctx')) :
    AnalyzeCase env doRewrite i insn ctx insn' ctx' := by
  rw [analyzeLocal] at h
  split_ifs at h with hload
  · obtain ⟨index, hindex, h⟩ := bind_eq_ok.mp h
    obtain ⟨s, hs, h⟩ := bind_eq_ok.mp h
    obtain ⟨-, -, rfl⟩ := pushEntry_eq_ok.mp hs
    by_cases hentry : ctx.locals.getD (localIndex env doRewrite index) .void = kind
    · simp only [ne_eq, hentry, not_true_eq_false, if_false, pure_eq_ok, Prod.mk.injEq,
        localKind_ne_void hkind] at h
      obtain ⟨rfl, rfl⟩ := h
      exact .load hkind hload hindex hentry
    · simp only [ne_eq, hentry, not_false_eq_true, if_true] at h
      exact absurd h (by simp [bind, Except.bind, throw, throwThe, MonadExceptOf.throw])
  · obtain ⟨s, hs, h⟩ := bind_eq_ok.mp h
    obtain ⟨index, hindex, h⟩ := bind_eq_ok.mp h
    by_cases hmax : env.code.maxLocals ≤ index
    · simp only [hmax, if_true] at h
      exact absurd h (by simp [bind, Except.bind, throw, throwThe, MonadExceptOf.throw])
    · simp only [hmax, if_false, pure_eq_ok, Prod.mk.injEq] at h
      obtain ⟨rfl, rfl⟩ := h
      exact .store hkind (by simpa using hload) hindex (popKind_eq_ok.mp hs)

theorem analyzeKind_cases (h : analyzeKind env doRewrite i insn ctx = .ok (insn', ctx')) :
    AnalyzeCase env doRewrite i insn ctx insn' ctx' := by
  rw [analyzeKind] at h
  split at h
  · rename_i pops pushes heffect
    obtain ⟨s, hs, h⟩ := bind_eq_ok.mp h
    obtain ⟨s', hs', h⟩ := bind_eq_ok.mp h
    obtain ⟨rfl, rfl⟩ := Prod.mk.inj (pure_eq_ok.mp h)
    obtain rfl := pushEntries_ok hs'
    exact .plain heffect (popKinds_eq_ok.mp hs)
  split at h
  · rename_i kind hkind
    exact analyzeLocal_cases hkind h
  split at h
  · rename_i hk
    obtain ⟨⟨k, s⟩, hs, h⟩ := bind_eq_ok.mp h
    obtain ⟨s', hs', h⟩ := bind_eq_ok.mp h
    obtain ⟨rfl, rfl⟩ := Prod.mk.inj (pure_eq_ok.mp h)
    obtain rfl := popKind_eq_ok.mp hs'
    exact .putfield hk (popVal_eq_ok.mp hs)
  · rename_i hk
    obtain ⟨⟨k, s⟩, hs, h⟩ := bind_eq_ok.mp h
    obtain ⟨rfl, rfl⟩ := Prod.mk.inj (pure_eq_ok.mp h)
    exact .putstatic hk (popVal_eq_ok.mp hs)
  · rename_i hk
    obtain ⟨index, hindex, h⟩ := bind_eq_ok.mp h
    obtain ⟨rfl, rfl⟩ := Prod.mk.inj (pure_eq_ok.mp h)
    exact .iinc hk hindex
  · obtain ⟨⟨pushes, s, rewritten⟩, hs, h⟩ := bind_eq_ok.mp h
    obtain ⟨s', hs', h⟩ := bind_eq_ok.mp h
    obtain ⟨rfl, rfl⟩ := Prod.mk.inj (pure_eq_ok.mp h)
    obtain rfl := pushEntries_ok hs'
    exact .shuffle hs

theorem effect_eq_none {insn : BytecodeInsn} {kind : InsnCode} (hk : insn.kind = kind)
    (hstack : stackEffect kind = none)
    (hnames : kind ∉ [.getfield, .getstatic, .invokedynamic, .invokestatic, .invokespecial,
      .invokevirtual, .invokeinterface, .multianewarray]) : effect insn = none := by
  rw [effect, hk, hstack, Option.none_or, descriptorEffect, hk]
  split <;> first | rfl | simp at hnames

theorem effect_of_localKind {insn : BytecodeInsn} {kind : TypeKind}
    (h : localKind insn.kind = some kind) : effect insn = none := by
  unfold localKind at h
  split at h
  case h_11 => cases h
  all_goals
    rename_i hk
    exact effect_eq_none hk rfl (by decide)

def shuffleKinds : List InsnCode :=
  [.dup, .dupX1, .dupX2, .dup2, .dup2X1, .dup2X2, .pop, .pop2, .swap]

theorem mem_of_shuffleStack {kind : InsnCode} {kinds : List TypeKind}
    {r : List TypeKind × List TypeKind × InsnCode} (h : shuffleStack kind kinds = .ok r) :
    kind ∈ shuffleKinds := by
  unfold shuffleStack at h
  split at h
  case h_10 => cases h
  all_goals decide

theorem effect_of_shuffle {insn : BytecodeInsn} (h : insn.kind ∈ shuffleKinds) :
    effect insn = none := by
  simp only [shuffleKinds, List.mem_cons, List.not_mem_nil, or_false] at h
  rcases h with hk | hk | hk | hk | hk | hk | hk | hk | hk
  all_goals exact effect_eq_none hk rfl (by decide)

/-- An instruction with kinds to pop and push does that and no more. -/
theorem AnalyzeCase.operands {pops pushes : List TypeKind}
    (h : AnalyzeCase env doRewrite i insn ctx insn' ctx') (he : effect insn = some (pops, pushes)) :
    ∃ rest, ctx.stack = pops ++ rest := by
  have hnone : effect insn ≠ none := by simp [he]
  cases h with
  | plain h hs =>
    rw [he, Option.some.injEq, Prod.mk.injEq] at h
    exact ⟨_, h.1 ▸ hs⟩
  | load h _ _ _ => exact absurd (effect_of_localKind h) hnone
  | store h _ _ _ => exact absurd (effect_of_localKind h) hnone
  | putfield h _ => exact absurd (effect_eq_none h rfl (by decide)) hnone
  | putstatic h _ => exact absurd (effect_eq_none h rfl (by decide)) hnone
  | iinc h _ => exact absurd (effect_eq_none h rfl (by decide)) hnone
  | shuffle h => exact absurd (effect_of_shuffle (mem_of_shuffleStack h)) hnone

theorem analyzeInstruction_ok
    (h : analyzeInstruction env doRewrite i insn ctx = .ok (insn', ctx', t)) :
    ∃ tosBefore tosAfter insn'', calculateTosType ctx.stack = .ok tosBefore ∧
      analyzeKind env doRewrite i { insn with tosBefore } ctx = .ok (insn'', ctx') ∧
      calculateTosType ctx'.stack = .ok tosAfter ∧ insn' = { insn'' with tosAfter } ∧
      t = insn.kind.terminates := by
  obtain ⟨tosBefore, hbefore, h⟩ := bind_eq_ok.mp h
  obtain ⟨⟨insn'', ctx''⟩, hkind, h⟩ := bind_eq_ok.mp h
  obtain ⟨tosAfter, hafter, h⟩ := bind_eq_ok.mp h
  simp only [pure_eq_ok, Prod.mk.injEq] at h
  obtain ⟨rfl, rfl, rfl⟩ := h
  exact ⟨tosBefore, tosAfter, insn'', hbefore, hkind, hafter, rfl, rfl⟩

end BJvm

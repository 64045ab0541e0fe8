import BJvm.Analysis.SourceOrder
import BJvm.Proofs.CodeEnd
import BJvm.Proofs.NpeMessage

/-!
# Sources come first

What is recorded at an instruction has been on the stack before it, so the instruction that made it
comes first in the code.  Without a `StackMapTable` the passes start with what the pass before has
left in the arrays; but the stack that is known at an instruction has been known since the analysis
first came there.
-/

namespace BJvm

open Parsing

variable {env : AnalysisEnv} {m : CpMethod} {a : MethodAnalysis} {ctx ctx' : AnalysisCtx}
  {insn insn' : BytecodeInsn} {src : SourceState} {code orig : List BytecodeInsn} {b d i j k n t : Nat}
  {doRewrite : Bool}

namespace VariableSource

variable {source : VariableSource}

theorem Before.mono (h : source.Before i) (hij : i ≤ j) : source.Before j :=
  fun k hk => (h k hk).trans_le hij

theorem before_insn : (VariableSource.insn i).Before (i + 1) := by
  rintro j hj
  cases hj
  exact Nat.lt_succ_self i

theorem before_local : (local_ i).Before 0 := fun _ h => nomatch h

theorem before_zeroSource : zeroSource.Before i := fun _ h => nomatch h

end VariableSource

open VariableSource

theorem before_entrySource (m : CpMethod) (slot : Nat) : (entrySource m slot).Before 0 := by
  unfold entrySource
  split_ifs <;> exact fun _ h => nomatch h

namespace SourceState

theorem pushAll_stack_mem : ∀ {ss : List VariableSource} {src : SourceState} {d k : Nat},
    d ≤ k → k < d + ss.length → (src.pushAll d ss).stack k ∈ ss
  | [], _, d, k, hle, hlt => absurd hlt (Nat.not_lt.mpr hle)
  | s :: ss, src, d, k, hle, hlt => by
    rw [pushAll]
    rcases Nat.eq_or_lt_of_le hle with rfl | hle
    · have hself : (pushAll { src with stack := Function.update src.stack d s } (d + 1) ss).stack d = s :=
        (pushAll_stack_of_notMem (by simp [List.mem_range'_1])).trans (Function.update_self ..)
      rw [hself]
      exact List.mem_cons_self
    · rw [List.length_cons] at hlt
      exact List.mem_cons_of_mem _ (pushAll_stack_mem hle (by omega))

@[simp] theorem pushAll_knownStacks : ∀ (ss : List VariableSource) (src : SourceState) (d : Nat),
    (src.pushAll d ss).knownStacks = src.knownStacks
  | [], _, _ => rfl
  | s :: ss, src, d => by rw [pushAll, pushAll_knownStacks ss]

@[simp] theorem pushAll_knownLocals : ∀ (ss : List VariableSource) (src : SourceState) (d : Nat),
    (src.pushAll d ss).knownLocals = src.knownLocals
  | [], _, _ => rfl
  | s :: ss, src, d => by rw [pushAll, pushAll_knownLocals ss]

theorem knowStack_self {stack : Nat → VariableSource} :
    (src.knowStack t stack).knownStacks t = some ((src.knownStacks t).getD stack) :=
  Function.update_self ..

theorem knowStack_of_ne {stack : Nat → VariableSource} (h : k ≠ t) :
    (src.knowStack t stack).knownStacks k = src.knownStacks k :=
  Function.update_of_ne h ..

theorem knowLocals_self :
    (src.knowLocals t).knownLocals t = some ((src.knownLocals t).getD src.locals) :=
  Function.update_self ..

theorem knowLocals_of_ne (h : k ≠ t) : (src.knowLocals t).knownLocals k = src.knownLocals k :=
  Function.update_of_ne h ..

theorem mem_entries : ∀ {kinds : List TypeKind} {e : TypeKind × VariableSource},
    e ∈ src.entries kinds → ∃ k < kinds.length, e.2 = src.stack k
  | [], _, h => by cases h
  | kind :: kinds, e, h => by
    rw [entries, List.mem_cons] at h
    rcases h with rfl | h
    · exact ⟨kinds.length, Nat.lt_succ_self _, rfl⟩
    · obtain ⟨k, hk, he⟩ := mem_entries h
      exact ⟨k, Nat.lt_succ_of_lt hk, he⟩

theorem length_entries (kinds : List TypeKind) : (src.entries kinds).length = kinds.length := by
  rw [← List.length_map Prod.fst, map_fst_entries]

end SourceState

/-! ### One instruction -/

/-- What an instruction does to the array of the stack: it writes `ss` from `base` on. -/
structure Writes (i : Nat) (ctx ctx' : AnalysisCtx) (src src' : SourceState) : Prop where
  knownStacks : ctx'.knownStacks = ctx.knownStacks
  srcStacks : src'.knownStacks = src.knownStacks
  srcLocals : src'.knownLocals = src.knownLocals
  locals : ∀ slot, src'.locals slot = src.locals slot ∨ src'.locals slot = .local_ i
  stack : ∃ base ss, base ≤ ctx.stack.length ∧ ctx'.stack.length ≤ base + ss.length ∧
    src'.stack = (src.pushAll base ss).stack ∧ ∀ source ∈ ss, source = .insn i ∨
      (∃ slot, source = src.locals slot) ∨ ∃ k < ctx.stack.length, source = src.stack k

namespace Writes

variable {ctx₁ : AnalysisCtx} {src₁ : SourceState}

/-- The array of the stack stays as it is, and the stack gets no deeper. -/
theorem of_le (hknown : ctx₁.knownStacks = ctx.knownStacks)
    (hlength : ctx₁.stack.length ≤ ctx.stack.length)
    (hlocals : ∀ slot, src₁.locals slot = src.locals slot ∨ src₁.locals slot = .local_ i)
    (hstack : src₁.stack = src.stack) (hs : src₁.knownStacks = src.knownStacks)
    (hl : src₁.knownLocals = src.knownLocals) : Writes i ctx ctx₁ src src₁ :=
  ⟨hknown, hs, hl, hlocals, ctx.stack.length, [], le_rfl, by simpa using hlength, hstack,
    fun _ h => absurd h List.not_mem_nil⟩

/-- Entries are written that have been on the stack, in the locals, or are made here. -/
theorem of_pushAll {base : Nat} {ss : List VariableSource}
    (hknown : ctx₁.knownStacks = ctx.knownStacks) (hbase : base ≤ ctx.stack.length)
    (hlength : ctx₁.stack.length ≤ base + ss.length)
    (hss : ∀ source ∈ ss, source = .insn i ∨ (∃ slot, source = src.locals slot) ∨
      ∃ k < ctx.stack.length, source = src.stack k) :
    Writes i ctx ctx₁ src (src.pushAll base ss) :=
  ⟨hknown, SourceState.pushAll_knownStacks .., SourceState.pushAll_knownLocals ..,
    fun slot => .inl (by rw [SourceState.pushAll_locals]), base, ss, hbase, hlength, rfl, hss⟩

/-- What is written was made by the instruction or before it. -/
theorem written (h : Writes i ctx ctx₁ src src₁) (hlocals : ∀ slot, (src.locals slot).Before 0)
    (hstack : ∀ k < ctx.stack.length, (src.stack k).Before i) :
    ∃ base ss, base ≤ ctx.stack.length ∧ ctx₁.stack.length ≤ base + ss.length ∧
      src₁.stack = (src.pushAll base ss).stack ∧ ∀ source ∈ ss, source.Before (i + 1) := by
  obtain ⟨base, ss, hbase, hlength, hwritten, hss⟩ := h.stack
  refine ⟨base, ss, hbase, hlength, hwritten, fun source hsource => ?_⟩
  rcases hss source hsource with rfl | ⟨slot, rfl⟩ | ⟨k, hk, rfl⟩
  · exact before_insn
  · exact (hlocals slot).mono (Nat.zero_le _)
  · exact (hstack k hk).mono (Nat.le_succ i)

theorem before (h : Writes i ctx ctx₁ src src₁) (hlocals : ∀ slot, (src.locals slot).Before 0)
    (hstack : ∀ k < ctx.stack.length, (src.stack k).Before i) :
    ∀ k < ctx₁.stack.length, (src₁.stack k).Before (i + 1) := by
  obtain ⟨base, ss, hbase, hlength, hwritten, hss⟩ := h.written hlocals hstack
  intro k hk
  rw [hwritten]
  by_cases hbelow : k < base
  · rw [SourceState.pushAll_stack_of_notMem
      fun hmem => Nat.not_le.mpr hbelow (List.mem_range'_1.mp hmem).1]
    exact (hstack k (hbelow.trans_le hbase)).mono (Nat.le_succ i)
  · exact hss _ (SourceState.pushAll_stack_mem (not_lt.mp hbelow) (hk.trans_le hlength))

/-- The whole array, with what has been popped. -/
theorem before_all (h : Writes i ctx ctx₁ src src₁) (hlocals : ∀ slot, (src.locals slot).Before 0)
    (hstack : ∀ k, (src.stack k).Before i) (k : Nat) : (src₁.stack k).Before (i + 1) := by
  obtain ⟨base, ss, -, -, hwritten, hss⟩ := h.written hlocals fun k _ => hstack k
  rw [hwritten]
  by_cases hmem : k ∈ List.range' base ss.length
  · have hrange := List.mem_range'_1.mp hmem
    exact hss _ (SourceState.pushAll_stack_mem hrange.1 hrange.2)
  · rw [SourceState.pushAll_stack_of_notMem hmem]
    exact (hstack k).mono (Nat.le_succ i)

theorem locals_before (h : Writes i ctx ctx₁ src src₁) (hlocals : ∀ slot, (src.locals slot).Before 0)
    (slot : Nat) : (src₁.locals slot).Before 0 := by
  rcases h.locals slot with hs | hs
  · exact hs ▸ hlocals slot
  · exact hs ▸ before_local

end Writes

theorem analyzeSources_put (hkind : insn.kind = .putfield ∨ insn.kind = .putstatic ∨ insn.kind = .iinc)
    (kinds : List TypeKind) : analyzeSources env i insn kinds src = src := by
  have heffect : effect insn = none ∧ localKind insn.kind = none ∧
      ∀ es : List (TypeKind × VariableSource), shuffleEntries insn.kind es = ([], es) := by
    rcases hkind with hk | hk | hk
    all_goals exact ⟨effect_eq_none hk rfl (by decide), by rw [hk]; rfl, fun es => by rw [hk]; rfl⟩
  rw [analyzeSources_shuffle heffect.1 heffect.2.1, heffect.2.2]
  rfl

theorem analyzeSources_writes (h : AnalyzeCase env doRewrite i insn ctx insn' ctx')
    (src : SourceState) :
    ∃ ctx₁ src₁ targets, Writes i ctx ctx₁ src src₁ ∧ ctx' = ctx₁.pushBranchTargets env i targets ∧
      analyzeSources env i insn ctx.stack src = src₁.pushBranchTargets env targets := by
  have hnone : ∀ src : SourceState, src = src.pushBranchTargets env [] := fun src => by
    simp [SourceState.pushBranchTargets]
  cases h with
  | @plain pops pushes stack heffect hstack =>
    refine ⟨{ ctx with stack := pushed pushes ++ stack },
      src.pushAll (ctx.stack.length - pops.length) ((pushes.filter (· ≠ .void)).map fun _ => .insn i),
      pushedTargets insn, .of_pushAll rfl (Nat.sub_le _ _) ?_ ?_, rfl, ?_⟩
    · simp [hstack, pushed, Nat.add_comm]
    · intro source hsource
      obtain ⟨-, -, rfl⟩ := List.mem_map.mp hsource
      exact .inl rfl
    · unfold analyzeSources
      rw [← effect, heffect]
  | @load kind index hkind hload hindex hentry =>
    refine ⟨_, _, [], ?_, rfl, hnone _⟩
    rw [analyzeSources_local hkind, if_pos hload]
    refine .of_pushAll rfl le_rfl le_rfl fun source hsource => .inr (.inl ?_)
    exact ⟨_, List.mem_singleton.mp hsource⟩
  | @store kind index stack hkind hload hindex hstack =>
    refine ⟨_, _, [], ?_, rfl, hnone _⟩
    rw [analyzeSources_local hkind, hload, if_neg Bool.false_ne_true]
    refine .of_le rfl (by simp [hstack]) (fun slot => ?_) rfl rfl rfl
    rcases eq_or_ne slot (env.swizzle.getD insn.index 0) with rfl | hslot
    · exact .inr (Function.update_self ..)
    · exact .inl (Function.update_of_ne hslot ..)
  | @putfield kind stack hkind hstack =>
    refine ⟨_, _, [], ?_, rfl, hnone _⟩
    rw [analyzeSources_put (.inl hkind)]
    exact .of_le rfl (by simp only [hstack, List.length_cons]; omega) (fun _ => .inl rfl) rfl rfl rfl
  | @putstatic kind stack hkind hstack =>
    refine ⟨_, _, [], ?_, rfl, hnone _⟩
    rw [analyzeSources_put (.inr (.inl hkind))]
    exact .of_le rfl (by simp [hstack]) (fun _ => .inl rfl) rfl rfl rfl
  | @iinc index hkind hindex =>
    refine ⟨_, _, [], ?_, rfl, hnone _⟩
    rw [analyzeSources_put (.inr (.inr hkind))]
    exact .of_le rfl le_rfl (fun _ => .inl rfl) rfl rfl rfl
  | @shuffle pushes stack rewritten hshuffle =>
    obtain ⟨heffect, hlocal, -⟩ := effect_of_mem (mem_of_shuffleStack hshuffle)
    obtain ⟨hps, hrest, -⟩ := shuffleEntries_spec (src.map_fst_entries ctx.stack) hshuffle
    obtain ⟨hsub, hsuffix⟩ := shuffleEntries_subset insn.kind (src.entries ctx.stack)
    refine ⟨_, _, [], ?_, rfl, hnone _⟩
    rw [analyzeSources_shuffle heffect hlocal]
    refine .of_pushAll rfl ?_ ?_ fun source hsource => .inr (.inr ?_)
    · exact hsuffix.length_le.trans_eq (SourceState.length_entries _)
    · subst hps hrest
      simp only [pushed, List.length_append, List.length_reverse, List.length_map, List.filter_map,
        Function.comp_def]
      omega
    · obtain ⟨e, he, rfl⟩ := List.mem_map.mp hsource
      exact SourceState.mem_entries (hsub (List.mem_filter.mp he).1)

/-! ### The sources recorded -/

/-- What an instruction dereferences is on the stack. -/
theorem stack_pos_of_dereferenced (h : AnalyzeCase env doRewrite i insn ctx insn' ctx')
    (hd : dereferenced insn ≠ none) : 0 < ctx.stack.length := by
  have hpops : insn.kind = .putfield ∨
      ∃ pops pushes, effect insn = some (pops, pushes) ∧ pops ≠ [] := by
    unfold dereferenced at hd
    split at hd
    all_goals first
      | exact absurd rfl hd
      | exact .inl ‹_›
      | (rename_i hk
         refine .inr ?_
         rw [effect, hk, descriptorEffect, hk]
         exact ⟨_, _, rfl, by simp⟩)
  rcases hpops with hk | ⟨pops, pushes, heffect, hne⟩
  · cases h with
    | putfield _ hstack => simp [hstack]
    | plain heffect _ => exact absurd heffect (by simp [effect_eq_none hk rfl (by decide)])
    | load hlocal _ _ _ => simp [hk, localKind] at hlocal
    | store hlocal _ _ _ => simp [hk, localKind] at hlocal
    | putstatic hk' _ => cases hk.symm.trans hk'
    | iinc hk' _ => cases hk.symm.trans hk'
    | shuffle hs =>
      have hmem := mem_of_shuffleStack hs
      rw [hk] at hmem
      exact absurd hmem (by decide)
  · obtain ⟨rest, hstack⟩ := h.operands heffect
    rw [hstack, List.length_append]
    exact Nat.add_pos_left (List.length_pos_of_ne_nil hne) _

theorem secondOperand_ne_none (h : secondOperand insn ≠ none) : dereferenced insn ≠ none := by
  unfold secondOperand at h
  unfold dereferenced
  split at h
  case h_18 => exact absurd rfl h
  all_goals simp [*]

theorem writeNpeSources_before (hstack : dereferenced insn ≠ none →
    ∀ position, (src.stack (d - 1 - position)).Before i) : (writeNpeSources insn d src).Before i := by
  have hat : ∀ o : Option Nat, (o ≠ none → dereferenced insn ≠ none) →
      ((o.map fun position => src.stack (d - 1 - position)).getD zeroSource).Before i := by
    rintro (_ | position) ho
    · exact before_zeroSource
    · exact hstack (ho (Option.some_ne_none _)) position
  exact ⟨hat _ id, hat _ secondOperand_ne_none⟩

/-! ### Without a `StackMapTable` -/

theorem length_intersectKinds_le : ∀ dst src : List TypeKind,
    (intersectKinds dst src).1.length ≤ dst.length
  | [], _ => Nat.le_refl 0
  | d :: dst, [] => Nat.zero_le _
  | d :: dst, s :: src => by
    have ih := length_intersectKinds_le dst src
    rw [intersectKinds]
    split_ifs
    all_goals simpa using ih

/-- What is known at the instructions, when the analysis comes to the instruction at `i`.  Where a
frame clears the stack it does not matter. -/
structure KnownInv (orig : List BytecodeInsn) (i : Nat) (ctx : AnalysisCtx) (src : SourceState) :
    Prop where
  length : ctx.knownStacks.length = orig.length
  locals : ∀ slot, (src.locals slot).Before 0
  knownLocals : ∀ t f, src.knownLocals t = some f → ∀ slot, (f slot).Before 0
  unknown : ∀ t < orig.length, ctx.knownStacks.getD t none = none → src.knownStacks t = none
  known : ∀ t < orig.length, (orig.getD t default).originalPc ≠ 0 → ∀ kinds,
    ctx.knownStacks.getD t none = some kinds →
      ∃ f, src.knownStacks t = some f ∧ ∀ k < kinds.length, (f k).Before t
  settled : ∀ t < i, t < orig.length → (orig.getD t default).originalPc ≠ 0 →
    ctx.knownStacks.getD t none ≠ none

namespace KnownInv

/-- Only what is known, and the locals, matter. -/
theorem congr {src' : SourceState} (h : KnownInv orig i ctx src)
    (hknown : ctx'.knownStacks = ctx.knownStacks) (hsrc : src'.knownStacks = src.knownStacks)
    (hsrcLocals : src'.knownLocals = src.knownLocals) (hlocals : ∀ slot, (src'.locals slot).Before 0) :
    KnownInv orig i ctx' src' where
  length := by rw [hknown, h.length]
  locals := hlocals
  knownLocals := by rw [hsrcLocals]; exact h.knownLocals
  unknown := by rw [hknown, hsrc]; exact h.unknown
  known := by rw [hknown, hsrc]; exact h.known
  settled := by rw [hknown]; exact h.settled

theorem knowLocals (h : KnownInv orig i ctx src) : KnownInv orig i ctx (src.knowLocals t) where
  length := h.length
  locals := h.locals
  knownLocals u f hf slot := by
    rcases eq_or_ne u t with rfl | hu
    · rw [SourceState.knowLocals_self, Option.some.injEq] at hf
      subst hf
      rcases hk : src.knownLocals u with _ | g
      · exact h.locals slot
      · exact h.knownLocals u g hk slot
    · rw [SourceState.knowLocals_of_ne hu] at hf
      exact h.knownLocals u f hf slot
  unknown := h.unknown
  known := h.known
  settled := h.settled

/-- A stack that comes to be known at `t` came from before `t`. -/
theorem knowStack {stack : Nat → VariableSource} {kinds : List TypeKind} (h : KnownInv orig i ctx src)
    (hnew : t < orig.length → (orig.getD t default).originalPc ≠ 0 →
      ctx.knownStacks.getD t none = none → ∀ k < kinds.length, (stack k).Before t) :
    KnownInv orig i (ctx.intersectStack t kinds) (src.knowStack t stack) := by
  have hne : ∀ {u}, u ≠ t → (ctx.intersectStack t kinds).knownStacks.getD u none =
      ctx.knownStacks.getD u none := fun {u} hu => by
    rw [AnalysisCtx.intersectStack, List.getD, List.getElem?_set_ne hu.symm, ← List.getD]
  have hself : t < orig.length → (ctx.intersectStack t kinds).knownStacks.getD t none =
      (intersectState (ctx.knownStacks.getD t none) kinds.reverse).1 := fun ht => by
    rw [AnalysisCtx.intersectStack, getD_set_self (h.length ▸ ht)]
  have hsome : ∀ known, (intersectState known kinds.reverse).1 ≠ none := fun known => by
    cases known <;> exact Option.some_ne_none _
  refine ⟨by rw [AnalysisCtx.intersectStack, List.length_set, h.length], h.locals, h.knownLocals,
    fun u hu hnone => ?_, fun u hu hpc known hknown => ?_, fun u hui hu hpc => ?_⟩
  · rcases eq_or_ne u t with rfl | hut
    · exact absurd ((hself hu).symm.trans hnone) (hsome _)
    · rw [SourceState.knowStack_of_ne hut]
      exact h.unknown u hu ((hne hut).symm.trans hnone)
  · rcases eq_or_ne u t with rfl | hut
    · rw [hself hu] at hknown
      rw [SourceState.knowStack_self]
      refine ⟨_, rfl, fun k hk => ?_⟩
      rcases hold : ctx.knownStacks.getD u none with _ | dst
      · rw [hold, intersectState, Option.some.injEq] at hknown
        rw [h.unknown u hu hold]
        subst hknown
        exact hnew hu hpc hold k (by simpa using hk)
      · obtain ⟨f, hf, hbefore⟩ := h.known u hu hpc dst hold
        rw [hold, intersectState, Option.some.injEq] at hknown
        rw [hf]
        subst hknown
        exact hbefore k (hk.trans_le (length_intersectKinds_le _ _))
    · rw [hne hut] at hknown
      rw [SourceState.knowStack_of_ne hut]
      exact h.known u hu hpc known hknown
  · rcases eq_or_ne u t with rfl | hut
    · rw [hself hu]
      exact hsome _
    · rw [hne hut]
      exact h.settled u hui hu hpc

/-- A branch goes back only to where the stack is known. -/
theorem pushBranchTargets (hsmt : env.missingSmt = true) : ∀ {targets : List Nat} {ctx : AnalysisCtx}
    {src : SourceState}, KnownInv orig i ctx src → (∀ k < ctx.stack.length, (src.stack k).Before i) →
    KnownInv orig i (ctx.pushBranchTargets env j targets) (src.pushBranchTargets env targets)
  | [], _, _, h, _ => by simpa [AnalysisCtx.pushBranchTargets, SourceState.pushBranchTargets] using h
  | t :: targets, ctx, src, h, hstack => by
    have hedge : KnownInv orig i { ctx with edges := ctx.edges ++ [(j, t)] } src :=
      h.congr rfl rfl rfl h.locals
    have hone : KnownInv orig i (ctx.pushBranchTarget env j t)
        ((src.knowStack t src.stack).knowLocals t) := by
      rw [AnalysisCtx.pushBranchTarget, if_pos hsmt]
      refine (hedge.knowStack fun ht hpc hnone k hk => ?_).knowLocals.congr rfl rfl rfl h.locals
      refine (hstack k hk).mono (not_lt.mp fun hti => ?_)
      exact h.settled t hti ht hpc hnone
    have hstack' : ∀ k < (ctx.pushBranchTarget env j t).stack.length, (src.stack k).Before i := by
      rw [AnalysisCtx.pushBranchTarget_stack]
      exact hstack
    have htail : KnownInv orig i ((ctx.pushBranchTarget env j t).pushBranchTargets env j targets)
        (((src.knowStack t src.stack).knowLocals t).pushBranchTargets env targets) :=
      pushBranchTargets hsmt hone hstack'
    simp only [SourceState.pushBranchTargets, hsmt, if_true] at htail ⊢
    exact htail

theorem handlers : ∀ {l : List ExceptionTableEntry} {ctx : AnalysisCtx} {src : SourceState},
    KnownInv orig i ctx src → KnownInv orig i
      (l.foldl (fun ctx entry => if entry.startInsn ≤ j ∧ j < entry.endInsn then
        ctx.intersectLocals entry.handlerInsn ctx.locals else ctx) ctx)
      (l.foldl (fun src entry => if entry.startInsn ≤ j ∧ j < entry.endInsn then
        src.knowLocals entry.handlerInsn else src) src)
  | [], _, _, h => h
  | entry :: l, ctx, src, h => by
    rw [List.foldl_cons, List.foldl_cons]
    split_ifs with hrange
    · exact handlers (l := l) (h.knowLocals.congr rfl rfl rfl h.locals)
    · exact handlers (l := l) h

theorem succ (h : KnownInv orig i ctx src) (hi : i < orig.length →
    (orig.getD i default).originalPc ≠ 0 → ctx.knownStacks.getD i none ≠ none) :
    KnownInv orig (i + 1) ctx src :=
  { h with
    settled := fun t ht hlt hpc => by
      rcases Nat.lt_succ_iff_lt_or_eq.mp ht with hti | rfl
      · exact h.settled t hti hlt hpc
      · exact hi hlt hpc }

end KnownInv

/-! ### The passes -/

theorem SourceState.pushBranchTargets_stack (targets : List Nat) (src : SourceState) :
    (src.pushBranchTargets env targets).stack = src.stack := by
  rw [pushBranchTargets]
  split_ifs
  · induction targets generalizing src with
    | nil => rfl
    | cons t targets ih => exact ih _
  · rfl

theorem knowHandlerLocals_stack : (knowHandlerLocals env i src).stack = src.stack := by
  rw [knowHandlerLocals]
  induction env.code.exceptionTable generalizing src with
  | nil => rfl
  | cons entry l ih =>
    rw [List.foldl_cons, ih]
    split_ifs <;> rfl

/-- What holds when the loop comes to the instruction at `i`. -/
structure PassInv (orig : List BytecodeInsn) (i : Nat) (s : SourcePass) : Prop where
  known : KnownInv orig i s.pass.ctx s.src
  stack : s.pass.stateTerminated = false → ∀ k < s.pass.ctx.stack.length, (s.src.stack k).Before i
  iter : s.pass.iter.pc = 0 ∧ s.pass.iter.hasNext = false ∧ s.pass.iter.stack = []
  codeLength : s.pass.code.length = orig.length
  originalPc : ∀ p, (s.pass.code.getD p default).originalPc = (orig.getD p default).originalPc
  recorded : s.sources.length = i
  sources : ∀ p < i, (s.sources.getD p default).Before p

/-- The state in which the instruction is analysed. -/
theorem PassInv.enter {s : SourcePass} {e : PassState} (hsmt : env.missingSmt = true)
    (h : PassInv orig i s) (hi : i < orig.length)
    (he : enterInsn env i (s.pass.code.getD i default) s.pass = .ok e) :
    KnownInv orig (i + 1) e.ctx (enterSources env i (s.pass.code.getD i default) s.pass s.src) ∧
      (∀ k < e.ctx.stack.length,
        ((enterSources env i (s.pass.code.getD i default) s.pass s.src).stack k).Before i) ∧
      e.iter = s.pass.iter := by
  obtain ⟨hpc, hnext, hempty⟩ := h.iter
  simp only [enterInsn, enterSources, hsmt, hpc, h.originalPc, hnext, Bool.false_eq_true, if_false,
    if_true] at he ⊢
  split_ifs at he ⊢ with hframe hterminated
  · -- a frame with nothing on the stack
    cases he
    refine ⟨?_, fun k hk => ?_, rfl⟩
    · exact (h.known.succ fun _ hne => absurd hframe hne).congr rfl rfl rfl h.known.locals
    · simp [useStackMapFrame, hempty] at hk
  · split at he
    · rename_i stack locals hstack hlocals
      cases he
      obtain ⟨f, hf, hbefore⟩ := h.known.known i hi hframe stack hstack
      have hlocals' : ∀ slot, (((s.src.knownLocals i).getD s.src.locals) slot).Before 0 := fun slot => by
        rcases hl : s.src.knownLocals i with _ | g
        · exact h.known.locals slot
        · exact h.known.knownLocals i g hl slot
      refine ⟨KnownInv.handlers ?_, fun k hk => ?_, rfl⟩
      · refine (h.known.succ fun _ _ hnone => ?_).congr rfl rfl rfl hlocals'
        exact absurd (hstack.symm.trans hnone) (Option.some_ne_none _)
      · rw [intersectExceptionHandlers_stack, List.length_reverse] at hk
        simp only [knowHandlerLocals_stack, hstack, Option.getD_some, if_pos hk, hf]
        exact hbefore k hk
    · cases he
  · cases he
    have hterminated := Bool.eq_false_iff.mpr hterminated
    refine ⟨?_, fun k hk => ?_, rfl⟩
    · have hknown : KnownInv orig i (s.pass.ctx.intersectStack i s.pass.ctx.stack)
          (s.src.knowStack i s.src.stack) := h.known.knowStack fun _ _ _ => h.stack hterminated
      refine (KnownInv.succ ?_ fun _ _ => ?_).handlers
      · exact hknown.knowLocals.congr rfl rfl rfl h.known.locals
      · rw [AnalysisCtx.intersectLocals, AnalysisCtx.intersectStack,
          getD_set_self (h.known.length ▸ hi)]
        cases s.pass.ctx.knownStacks.getD i none <;> exact Option.some_ne_none _
    · rw [intersectExceptionHandlers_stack] at hk
      rw [knowHandlerLocals_stack]
      exact h.stack hterminated k hk

theorem PassInv.step {s s' : SourcePass} (hsmt : env.missingSmt = true) (h : PassInv orig i s)
    (hi : i < orig.length) (hstep : sourceStep env doRewrite s i = .ok s') :
    PassInv orig (i + 1) s' := by
  obtain ⟨e, he, -⟩ := bind_eq_ok.mp hstep
  obtain ⟨hknown, hbefore, hiter⟩ := h.enter hsmt hi he
  obtain ⟨hpass, hsrc, hsources⟩ := sourceStep_recorded he hstep
  obtain ⟨tosBefore, tosAfter, insn', e', he', hcase, hcode, hiter', -⟩ := passStep_recorded hpass
  obtain rfl := Except.ok.inj (he.symm.trans he')
  generalize enterSources env i (s.pass.code.getD i default) s.pass s.src = src at *
  obtain ⟨ctx₁, src₁, targets, hwrites, hctx, hanalyze⟩ := analyzeSources_writes hcase src
  have hstack : ∀ k < ctx₁.stack.length, (src₁.stack k).Before (i + 1) :=
    hwrites.before hknown.locals hbefore
  have hlocals : ∀ slot, (src₁.locals slot).Before 0 := hwrites.locals_before hknown.locals
  have hsrc' : s'.src = src₁.pushBranchTargets env targets := hsrc.trans hanalyze
  refine ⟨?_, fun _ k hk => ?_, ?_, ?_, fun p => ?_, ?_, fun p hp => ?_⟩
  · rw [hctx, hsrc']
    exact (hknown.congr hwrites.knownStacks hwrites.srcStacks hwrites.srcLocals hlocals).pushBranchTargets
      hsmt hstack
  · rw [hctx, (AnalysisCtx.pushBranchTargets_keeps _ _ _).1] at hk
    rw [hsrc', SourceState.pushBranchTargets_stack]
    exact hstack k hk
  · rw [hiter', hiter]
    exact h.iter
  · rw [hcode, List.length_set, h.codeLength]
  · rw [hcode]
    rcases eq_or_ne p i with rfl | hp
    · rw [getD_set_self (h.codeLength ▸ hi), ← h.originalPc]
      exact hcase.originalPc
    · rw [List.getD, List.getElem?_set_ne hp.symm, ← List.getD, h.originalPc]
  · rw [hsources, List.length_append, h.recorded, List.length_singleton]
  · rw [hsources]
    rcases Nat.lt_succ_iff_lt_or_eq.mp hp with hp | rfl
    · rw [List.getD_append _ _ _ _ (h.recorded ▸ hp)]
      exact h.sources p hp
    · have hself := getD_append_self (l := s.sources) (d := default)
        (v := writeNpeSources (s.pass.code.getD p default) e.ctx.stack.length src)
      rw [h.recorded] at hself
      rw [hself]
      refine writeNpeSources_before fun hd position => hbefore _ ?_
      have hpos : 0 < e.ctx.stack.length := stack_pos_of_dereferenced hcase hd
      omega

theorem PassInv.run (hsmt : env.missingSmt = true) {s : SourcePass} (h : PassInv orig 0 s) :
    ∀ {n : Nat} {s' : SourcePass}, n ≤ orig.length → runSourcePass env doRewrite n s = .ok s' →
      PassInv orig n s'
  | 0, s', _, hrun => by
    simp only [runSourcePass, List.range_zero, List.foldlM_nil, pure_eq_ok] at hrun
    exact hrun ▸ h
  | n + 1, s', hn, hrun => by
    simp only [runSourcePass, List.range_succ, List.foldlM_append, List.foldlM_cons, List.foldlM_nil,
      bind_pure] at hrun
    obtain ⟨s₁, hrun, hstep⟩ := bind_eq_ok.mp hrun
    exact (h.run hsmt (Nat.le_of_succ_le hn) hrun).step hsmt hn hstep

theorem init_of_noTable {it : StackMapFrameIterator} (htable : m.code.stackMapTable = none)
    (h : StackMapFrameIterator.init m = .ok it) :
    it.pc = 0 ∧ it.hasNext = false ∧ it.stack = [] := by
  simp only [StackMapFrameIterator.init, htable, Option.map_none, Option.getD_none, List.head?_nil,
    reduceCtorEq, if_false, Option.isSome_none, Except.ok.injEq] at h
  subst h
  exact ⟨rfl, rfl, rfl⟩

theorem before_default : (default : StackVariableSources).Before i :=
  ⟨fun _ h => (nomatch h), fun _ h => nomatch h⟩

theorem runSourcePasses_before (hsmt : env.missingSmt = true)
    (htable : m.code.stackMapTable = none) {sources : List StackVariableSources} :
    ∀ {fuel : Nat} {finishedRefinement : Bool} {ctx : AnalysisCtx} {src : SourceState}
      {code : List BytecodeInsn}, KnownInv orig 0 ctx src → code.length = orig.length →
      (∀ p, (code.getD p default).originalPc = (orig.getD p default).originalPc) →
      runSourcePasses env m fuel finishedRefinement ctx src code = .ok (some (a, sources)) →
      ∀ p, (sources.getD p default).Before p
  | 0, _, _, _, _, _, _, _, h => by cases h
  | fuel + 1, finishedRefinement, ctx, src, code, hknown, hlength, hpc, h => by
    obtain ⟨iter, hiter, h⟩ := bind_eq_ok.mp h
    obtain ⟨s, hrun, h⟩ := bind_eq_ok.mp h
    have hstart : PassInv orig 0 { pass := { ctx, iter, code }, src } :=
      ⟨hknown, nofun, init_of_noTable htable hiter, hlength, hpc, rfl,
        fun p hp => absurd hp (Nat.not_lt_zero p)⟩
    have hend := hstart.run hsmt hlength.le hrun
    rw [hlength] at hend
    have hknown' : KnownInv orig 0 s.pass.ctx s.src :=
      { hend.known with settled := fun t ht => absurd ht (Nat.not_lt_zero t) }
    split_ifs at h
    · have hunchanged : KnownInv orig 0 { s.pass.ctx with changed := false } s.src :=
        hknown'.congr rfl rfl rfl hknown'.locals
      exact runSourcePasses_before hsmt htable hunchanged hend.codeLength hend.originalPc h
    · exact runSourcePasses_before hsmt htable hknown' hend.codeLength hend.originalPc h
    · obtain ⟨rfl, rfl⟩ := Prod.mk.injEq .. ▸ Option.some.inj (pure_eq_ok.mp h)
      intro p
      by_cases hp : p < orig.length
      · exact hend.sources p hp
      · rw [List.getD_eq_default _ _ (hend.recorded ▸ not_lt.mp hp)]
        exact before_default

/-- Where the analysis starts, only the handlers are known. -/
theorem knownInv_start {locals : List TypeKind} {swizzle : List Nat} (hm : m.missingSmt = true) :
    KnownInv m.code.code 0
      (fillExceptionHandlers { code := m.code, swizzle, missingSmt := true }
        { locals
          knownStacks := List.replicate m.code.code.length none
          knownLocals := List.replicate m.code.code.length none })
      (initialSources m) := by
  have hfold : ∀ (l : List ExceptionTableEntry) {ctx : AnalysisCtx} {src : SourceState},
      KnownInv m.code.code 0 ctx src → KnownInv m.code.code 0
        (l.foldl (fun ctx entry => ctx.intersectStack entry.handlerInsn [.reference]) ctx)
        (l.foldl (fun src entry => src.knowStack entry.handlerInsn fun _ => zeroSource) src) := by
    intro l
    induction l with
    | nil => exact fun h => h
    | cons entry l ih => exact fun h => ih (h.knowStack fun _ _ _ _ _ => before_zeroSource)
  rw [initialSources, if_pos hm]
  refine hfold _ ⟨List.length_replicate, before_entrySource m,
    fun _ _ h => absurd h (Option.some_ne_none _).symm, fun _ _ _ => rfl,
    fun t ht _ kinds hkinds => ?_, fun t ht => absurd ht (Nat.not_lt_zero t)⟩
  rw [List.getD_replicate _ ht] at hkinds
  cases hkinds

/-! ### With a `StackMapTable` -/

theorem FollowsSources.writes {src : Nat → SourceState} {sources : List StackVariableSources} {p : Nat}
    (hsmt : env.missingSmt = false) (h : FollowsSources env m a src sources p) :
    ∃ ctx ctx₁, Writes p ctx ctx₁ (src p) (src (p + 1)) := by
  obtain ⟨⟨tosBefore, tosAfter, insn', ctx, ctx', hcase, -, hstate⟩, hstep, -⟩ := h
  obtain ⟨ctx₁, src₁, targets, hwrites, -, hanalyze⟩ := analyzeSources_writes hcase (src p)
  have hsrc : src (p + 1) = src₁ := by
    rw [hstep, hstate, List.reverse_reverse]
    exact hanalyze.trans (SourceState.pushBranchTargets_of_table hsmt targets)
  exact ⟨ctx, ctx₁, hsrc ▸ hwrites⟩

/-- A frame leaves the arrays of the sources as they are. -/
theorem before_of_table {src : Nat → SourceState} {sources : List StackVariableSources}
    (hsmt : env.missingSmt = false) (h₀ : src 0 = initialSources m) (hm : m.missingSmt = false)
    (hfollows : ∀ p, FollowsSources env m a src sources p) :
    ∀ p, (∀ slot, ((src p).locals slot).Before 0) ∧ ∀ k, ((src p).stack k).Before p
  | 0 => by
    rw [h₀, initialSources, if_neg (by simp [hm])]
    exact ⟨before_entrySource m, fun _ => before_zeroSource⟩
  | p + 1 => by
    obtain ⟨hlocals, hstack⟩ := before_of_table hsmt h₀ hm hfollows p
    obtain ⟨ctx, ctx₁, hwrites⟩ := (hfollows p).writes hsmt
    exact ⟨hwrites.locals_before hlocals, hwrites.before_all hlocals hstack⟩

/-! ### Following the sources -/

/-- The sources recorded at an instruction come before it. -/
theorem analyzeMethodSources_before {fuel : Nat} {sources : List StackVariableSources}
    (hm : m.SmtAgrees) (h : analyzeMethodSources fuel m = .ok (some (a, sources))) (p : Nat) :
    (sources.getD p default).Before p := by
  rcases hmissing : m.missingSmt with _ | _
  · obtain ⟨env, src, hsmt, h₀, -, hfollows⟩ := analyzeMethodSources_ok hmissing h
    rw [(hfollows p).source]
    exact writeNpeSources_before fun _ _ => (before_of_table hsmt h₀ hmissing hfollows p).2 _
  · simp only [analyzeMethodSources, hmissing, Bool.not_true, if_true] at h
    split at h
    · cases h
    split at h
    · cases h
    exact runSourcePasses_before rfl (hm hmissing) (knownInv_start hmissing) rfl (fun _ => rfl) h p

variable {c : NpeContext}

theorem NpeContext.Follows.lt (hc : ∀ p, (c.sources.getD p default).Before p) (h : c.Follows i j) :
    j < i :=
  h.elim (fun h => (hc i).1 j h) fun h => (hc i).2 j h

theorem transGen_lt (hc : ∀ p, (c.sources.getD p default).Before p)
    (h : Relation.TransGen c.Follows i j) : j < i := by
  induction h with
  | single h => exact h.lt hc
  | tail _ h ih => exact (h.lt hc).trans ih

/-- Fuel for each instruction that can still come suffices. -/
theorem phase2_isSome (hc : ∀ p, (c.sources.getD p default).Before p) :
    ∀ {fuel i : Nat} {source : VariableSource}, source.Before i → i < fuel →
      ∀ insnI isFirst, (extendedNpePhase2 c fuel source insnI isFirst).isSome
  | 0, _, _, _, hfuel => absurd hfuel (Nat.not_lt_zero _)
  | fuel + 1, i, source, hs, hfuel => by
    intro insnI isFirst
    unfold extendedNpePhase2
    cases source with
    | parameter index =>
      simp only
      split_ifs
      · rfl
      · split <;> rfl
    | local_ index =>
      simp only
      split <;> rfl
    | unk => rfl
    | insn index =>
      have hindex : index < fuel := (hs index rfl).trans_le (Nat.le_of_lt_succ hfuel)
      obtain ⟨ha, hb⟩ := hc index
      obtain ⟨⟨a, erra⟩, ha⟩ := Option.isSome_iff_exists.mp (phase2_isSome hc ha hindex index false)
      obtain ⟨⟨b, errb⟩, hb⟩ := Option.isSome_iff_exists.mp (phase2_isSome hc hb hindex index false)
      simp only
      split
      · rfl
      · rw [ha, hb]
        rfl
      · rw [ha]
        rfl
      all_goals rfl

/-- The recursion through the sources of a method that has been analyzed comes to an end. -/
theorem npeSources_terminate (nm : NamedMethod) {fuel : Nat} {swizzle : List Nat}
    (hm : nm.method.SmtAgrees) (h : nm.analyze fuel = .ok (some (a, swizzle, c))) : c.Terminates := by
  have hc : ∀ p, (c.sources.getD p default).Before p := by
    obtain ⟨-, sources, hsources, rfl⟩ := nm.analyze_cases h
    exact analyzeMethodSources_before hm hsources
  refine ⟨fun i h => absurd (transGen_lt hc h) (lt_irrefl i), fun i source isFirst hs => ?_, fun pc => ?_⟩
  · have hbefore : source.Before i := by
      rcases hs with rfl | rfl
      · exact (hc i).1
      · exact (hc i).2
    exact ⟨i + 1, fun fuel' hle => phase2_isSome hc hbefore hle i isFirst⟩
  · refine ⟨pc + 1, fun fuel' hle => ?_⟩
    rw [getExtendedNpeMessage]
    split_ifs
    · rfl
    · split
      · rfl
      · obtain ⟨⟨text, err⟩, htext⟩ :=
          Option.isSome_iff_exists.mp (phase2_isSome hc (hc pc).1 hle pc true)
        rw [htext]
        rfl

/-- The parser sets the flag only where it has found no `StackMapTable`. -/
theorem smtAgrees_of_classfile {mem : ByteMemory} {s s' : Slice} {cf : ClassFile.ParsedClass}
    {method : ClassFile.ParsedMethod} {code : ClassFile.ParsedCode ClassFile.Attribute}
    (h : ClassFile.parseClassfile.Yields mem s cf s') (hmethod : method ∈ cf.methods)
    (hcode : method.code = some code) : (method.cpMethod cf code).SmtAgrees := by
  obtain ⟨-, -, -, -, parsed, maybeMissingSmt, inMethodHandle, k, -, rfl⟩ :=
    method_of_classfile h hmethod
  intro hmissing
  have hnone : ClassFile.noSmtFound code = true := by
    have hany : parsed.code.any ClassFile.noSmtFound = true := (Bool.and_eq_true_iff.mp hmissing).2
    rw [show parsed.code = some code from hcode] at hany
    exact hany
  refine List.findSome?_eq_none_iff.mpr fun attr hattr => ?_
  have hother := List.all_eq_true.mp hnone attr hattr
  cases hdata : attr.data with
  | stackMapTable smt => simp [hdata] at hother
  | _ => rfl

/-- A loop over the first elements of nested arrays, in a class file without a `StackMapTable`. -/
def firstElements : NamedMethod where
  method :=
    { isStatic := true
      descriptor :=
        { args := [{ baseKind := .int, dimensions := 3 }]
          returnType := { baseKind := .void } }
      code :=
        { maxStack := 2
          maxLocals := 1
          code :=
            [{ kind := .aload, originalPc := 0, index := 0 },
              { kind := .iconst, originalPc := 1 },
              { kind := .aaload, originalPc := 2 },
              { kind := .iconst, originalPc := 3 },
              { kind := .aaload, originalPc := 4 },
              { kind := .dup, originalPc := 5 },
              { kind := .ifnonnull, originalPc := 6, index := 1 },
              { kind := .return_, originalPc := 9 }] }
      missingSmt := true }
  localVariableTable := none
  indices := rfl

def firstAnalysis : MethodAnalysis × List Nat × NpeContext :=
  match firstElements.analyze 3 with
  | .ok (some r) => r
  | _ => default

theorem firstElements_analyzed : firstElements.analyze 3 = .ok (some firstAnalysis) := by decide

/-- What is loaded in the loop comes from what was loaded before, and that from the parameter, also
when the loop is entered again. -/
theorem firstElements_terminates : firstAnalysis.2.2.Follows 4 2 ∧
    (firstAnalysis.2.2.sources.getD 2 default).a = .parameter 1 ∧ firstAnalysis.2.2.Terminates :=
  ⟨.inl (by decide), by decide,
    npeSources_terminate firstElements (fun _ => rfl) firstElements_analyzed⟩

end BJvm

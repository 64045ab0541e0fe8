import BJvm.Analysis.StackForms
import BJvm.Proofs.NpeSources

/-!
# The stack instructions against their forms

Whatever has a form is taken to it.  What has none and is accepted all the same has a value of
category 2 where the analysis does not look, and the room for a copy is counted in entries.
-/

namespace BJvm

open Parsing

variable {s s' : List ComputationalType} {kind : InsnCode}

theorem isWide_kind (c : ComputationalType) : c.kind.isWide = decide c.Wide := by
  unfold ComputationalType.Wide
  cases c <;> rfl

/-! ### One instruction -/

/-- What `shuffleStack` does with a stack: a form, what is taken for one, or a message. -/
inductive ShuffleCase (kind : InsnCode) (s : List ComputationalType) :
    Except Failure (List TypeKind × List TypeKind × InsnCode) → Prop
  | form (ps rest : List ComputationalType) {rewritten} (h : JvmsForm kind s (ps.reverse ++ rest)) :
      ShuffleCase kind s (.ok (kindsOf ps, kindsOf rest, rewritten))
  | halfCopy (ps rest : List ComputationalType) {rewritten} (h : HalfCopy kind s)
      (hlen : ps.length + rest.length = s.length + copiedEntries kind s) :
      ShuffleCase kind s (.ok (kindsOf ps, kindsOf rest, rewritten))
  | refused {msg} (h : ∀ s', ¬JvmsForm kind s s') (h' : ¬HalfCopy kind s) :
      ShuffleCase kind s (.error (.error msg))

variable {a b c d : ComputationalType}

theorem popVal_nil : popVal (kindsOf []) = .error stackUnderflow := rfl

theorem popVal_cons : popVal (kindsOf (a :: s)) = .ok (a.kind, kindsOf s) := rfl

theorem throw_eq {α : Type} (e : Failure) : (throw e : Except Failure α) = .error e := rfl

theorem pure_eq {α : Type} (x : α) : (pure x : Except Failure α) = .ok x := rfl

theorem shuffleCase_dup : ∀ s, ShuffleCase .dup s (shuffleStack .dup (kindsOf s))
  | [] => .refused (by rintro _ ⟨⟩) (by rintro ⟨⟩)
  | a :: s => by
    change ShuffleCase .dup (a :: s) (.ok (kindsOf [a], kindsOf (a :: s), .dup))
    by_cases ha : a.Wide
    · exact .halfCopy [a] (a :: s) (.dup ha) (Nat.add_comm _ _)
    · exact .form [a] (a :: s) (.dup ha)

theorem shuffleCase_dupX1 : ∀ s, ShuffleCase .dupX1 s (shuffleStack .dupX1 (kindsOf s))
  | [] | [_] => .refused (by rintro _ ⟨⟩) (by rintro ⟨⟩)
  | a :: b :: s => by
    simp only [shuffleStack, popVal_cons, ok_bind, isWide_kind, throw_eq, pure_eq,
      Bool.or_eq_true, decide_eq_true_eq]
    split_ifs with h
    · exact .refused (by rintro _ ⟨⟩; tauto) (by rintro ⟨⟩)
    · rw [not_or] at h
      exact .form [a, b, a] s (.dupX1 h.1 h.2)

theorem shuffleCase_dupX2 : ∀ s, ShuffleCase .dupX2 s (shuffleStack .dupX2 (kindsOf s))
  | [] | [_] => .refused (by rintro _ ⟨⟩) (by rintro ⟨⟩)
  | [a, b] => by
    simp only [shuffleStack, popVal_cons, ok_bind, isWide_kind, throw_eq, pure_eq,
      decide_eq_true_eq, popVal_nil, error_bind]
    split_ifs with ha hb
    · exact .refused (by rintro _ ⟨⟩; tauto) (by rintro ⟨⟩)
    · exact .form [a, b, a] [] (.dupX2Form2 ha hb)
    · exact .refused (by rintro _ ⟨⟩; tauto) (by rintro ⟨⟩)
  | a :: b :: c :: s => by
    simp only [shuffleStack, popVal_cons, ok_bind, isWide_kind, throw_eq, pure_eq,
      decide_eq_true_eq, error_bind]
    split_ifs with ha hb
    · exact .refused (by rintro _ ⟨⟩ <;> tauto) (by rintro ⟨⟩; tauto)
    · exact .form [a, b, a] (c :: s) (.dupX2Form2 ha hb)
    · by_cases hc : c.Wide
      · exact .halfCopy [a, c, b, a] s (.dupX2 ha hb hc) (by simp [copiedEntries]; omega)
      · exact .form [a, c, b, a] s (.dupX2Form1 ha hb hc)

theorem shuffleCase_dup2 : ∀ s, ShuffleCase .dup2 s (shuffleStack .dup2 (kindsOf s))
  | [] => .refused (by rintro _ ⟨⟩) (by rintro ⟨⟩)
  | [a] => by
    simp only [shuffleStack, popVal_cons, ok_bind, isWide_kind, throw_eq, pure_eq,
      decide_eq_true_eq, popVal_nil, error_bind]
    split_ifs with ha
    · exact .form [a, a] [] (.dup2Form2 ha)
    · exact .refused (by rintro _ ⟨⟩; tauto) (by rintro ⟨⟩)
  | a :: b :: s => by
    simp only [shuffleStack, popVal_cons, ok_bind, isWide_kind, throw_eq, pure_eq,
      decide_eq_true_eq]
    split_ifs with ha hb
    · exact .form [a, a] (b :: s) (.dup2Form2 ha)
    · exact .refused (by rintro _ ⟨⟩ <;> tauto) (by rintro ⟨⟩)
    · exact .form [b, a, b, a] s (.dup2Form1 ha hb)

theorem shuffleCase_dup2X1 : ∀ s, ShuffleCase .dup2X1 s (shuffleStack .dup2X1 (kindsOf s))
  | [] | [_] => .refused (by rintro _ ⟨⟩) (by rintro ⟨⟩)
  | [a, b] => by
    simp only [shuffleStack, popVal_cons, ok_bind, isWide_kind, throw_eq, pure_eq,
      decide_eq_true_eq, popVal_nil, error_bind]
    split_ifs with ha
    · by_cases hb : b.Wide
      · exact .halfCopy [a, b, a] [] (.dup2X1Wide ha hb) (by simp [copiedEntries, ha])
      · exact .form [a, b, a] [] (.dup2X1Form2 ha hb)
    · exact .refused (by rintro _ ⟨⟩; tauto) (by rintro ⟨⟩; tauto)
  | a :: b :: c :: s => by
    simp only [shuffleStack, popVal_cons, ok_bind, isWide_kind, throw_eq, pure_eq,
      decide_eq_true_eq]
    split_ifs with ha hc
    · by_cases hb : b.Wide
      · exact .halfCopy [a, b, a] (c :: s) (.dup2X1Wide ha hb) (by simp [copiedEntries, ha]; omega)
      · exact .form [a, b, a] (c :: s) (.dup2X1Form2 ha hb)
    · exact .refused (by rintro _ ⟨⟩ <;> tauto) (by rintro ⟨⟩ <;> tauto)
    · by_cases hb : b.Wide
      · exact .halfCopy [b, a, c, b, a] s (.dup2X1Narrow ha hb hc)
          (by simp [copiedEntries, ha]; omega)
      · exact .form [b, a, c, b, a] s (.dup2X1Form1 ha hb hc)

theorem shuffleCase_dup2X2 : ∀ s, ShuffleCase .dup2X2 s (shuffleStack .dup2X2 (kindsOf s))
  | [] | [_] => .refused (by rintro _ ⟨⟩) (by rintro ⟨⟩)
  | [a, b] => by
    simp only [shuffleStack, popVal_cons, ok_bind, isWide_kind, throw_eq, pure_eq,
      decide_eq_true_eq, popVal_nil, error_bind]
    split_ifs with ha hb
    · exact .form [a, b, a] [] (.dup2X2Form4 ha hb)
    · exact .refused (by rintro _ ⟨⟩; tauto) (by rintro ⟨⟩)
    · exact .refused (by rintro _ ⟨⟩; tauto) (by rintro ⟨⟩)
  | [a, b, c] => by
    simp only [shuffleStack, popVal_cons, ok_bind, isWide_kind, throw_eq, pure_eq,
      decide_eq_true_eq, popVal_nil, error_bind]
    split_ifs with ha hb hc hc
    · exact .form [a, b, a] [c] (.dup2X2Form4 ha hb)
    · exact .refused (by rintro _ ⟨⟩ <;> tauto) (by rintro ⟨⟩; tauto)
    · exact .form [a, c, b, a] [] (.dup2X2Form2 ha hb hc)
    · by_cases hb : b.Wide
      · exact .halfCopy [b, a, c, b, a] [] (.dup2X2Wide ha hb hc) (by simp [copiedEntries, ha])
      · exact .form [b, a, c, b, a] [] (.dup2X2Form3 ha hb hc)
    · exact .refused (by rintro _ ⟨⟩ <;> tauto) (by rintro ⟨⟩; tauto)
  | a :: b :: c :: d :: s => by
    simp only [shuffleStack, popVal_cons, ok_bind, isWide_kind, throw_eq, pure_eq,
      decide_eq_true_eq]
    split_ifs with ha hb hc hc hd
    · exact .form [a, b, a] (c :: d :: s) (.dup2X2Form4 ha hb)
    · exact .refused (by rintro _ ⟨⟩ <;> tauto) (by rintro ⟨⟩ <;> tauto)
    · exact .form [a, c, b, a] (d :: s) (.dup2X2Form2 ha hb hc)
    · by_cases hb : b.Wide
      · exact .halfCopy [b, a, c, b, a] (d :: s) (.dup2X2Wide ha hb hc)
          (by simp [copiedEntries, ha]; omega)
      · exact .form [b, a, c, b, a] (d :: s) (.dup2X2Form3 ha hb hc)
    · exact .refused (by rintro _ ⟨⟩ <;> tauto) (by rintro ⟨⟩ <;> tauto)
    · by_cases hb : b.Wide
      · exact .halfCopy [b, a, d, c, b, a] s (.dup2X2Narrow ha hb hc hd)
          (by simp [copiedEntries, ha]; omega)
      · exact .form [b, a, d, c, b, a] s (.dup2X2Form1 ha hb hc hd)

theorem shuffleCase_pop : ∀ s, ShuffleCase .pop s (shuffleStack .pop (kindsOf s))
  | [] => .refused (by rintro _ ⟨⟩) (by rintro ⟨⟩)
  | a :: s => by
    simp only [shuffleStack, popVal_cons, ok_bind, isWide_kind, throw_eq, pure_eq,
      decide_eq_true_eq]
    split_ifs with ha
    · exact .refused (by rintro _ ⟨⟩; tauto) (by rintro ⟨⟩)
    · exact .form [] s (.pop ha)

theorem shuffleCase_pop2 : ∀ s, ShuffleCase .pop2 s (shuffleStack .pop2 (kindsOf s))
  | [] => .refused (by rintro _ ⟨⟩) (by rintro ⟨⟩)
  | [a] => by
    simp only [shuffleStack, popVal_cons, ok_bind, isWide_kind, throw_eq, pure_eq,
      decide_eq_true_eq, popVal_nil, error_bind]
    split_ifs with ha
    · exact .form [] [] (.pop2Form2 ha)
    · exact .refused (by rintro _ ⟨⟩; tauto) (by rintro ⟨⟩)
  | a :: b :: s => by
    simp only [shuffleStack, popVal_cons, ok_bind, isWide_kind, throw_eq, pure_eq,
      decide_eq_true_eq]
    split_ifs with ha hb
    · exact .form [] (b :: s) (.pop2Form2 ha)
    · exact .refused (by rintro _ ⟨⟩ <;> tauto) (by rintro ⟨⟩)
    · exact .form [] s (.pop2Form1 ha hb)

theorem shuffleCase_swap : ∀ s, ShuffleCase .swap s (shuffleStack .swap (kindsOf s))
  | [] | [_] => .refused (by rintro _ ⟨⟩) (by rintro ⟨⟩)
  | a :: b :: s => by
    simp only [shuffleStack, popVal_cons, ok_bind, isWide_kind, throw_eq, pure_eq,
      Bool.or_eq_true, decide_eq_true_eq]
    split_ifs with h
    · exact .refused (by rintro _ ⟨⟩; tauto) (by rintro ⟨⟩)
    · rw [not_or] at h
      exact .form [a, b] s (.swap h.1 h.2)

theorem shuffleCase (h : kind ∈ shuffleKinds) (s : List ComputationalType) :
    ShuffleCase kind s (shuffleStack kind (kindsOf s)) := by
  simp only [shuffleKinds, List.mem_cons, List.not_mem_nil, or_false] at h
  rcases h with rfl | rfl | rfl | rfl | rfl | rfl | rfl | rfl | rfl
  · exact shuffleCase_dup s
  · exact shuffleCase_dupX1 s
  · exact shuffleCase_dupX2 s
  · exact shuffleCase_dup2 s
  · exact shuffleCase_dup2X1 s
  · exact shuffleCase_dup2X2 s
  · exact shuffleCase_pop s
  · exact shuffleCase_pop2 s
  · exact shuffleCase_swap s

theorem length_kindsOf : (kindsOf s).length = s.length := List.length_map _

/-- What is left under the values that an instruction takes. -/
theorem length_rest_le {ps rest : List TypeKind} {rewritten : InsnCode}
    (h : shuffleStack kind (kindsOf s) = .ok (ps, rest, rewritten)) : rest.length ≤ s.length := by
  have hes : (s.map fun c => (c.kind, VariableSource.parameter 0)).map Prod.fst = kindsOf s := by
    rw [List.map_map]
    rfl
  have hrest := (shuffleEntries_spec hes h).2.1
  have hle := (shuffleEntries_subset kind (s.map fun c => (c.kind, .parameter 0))).2.length_le
  rw [← hrest, List.length_map]
  simpa using hle

/-! ### Forms -/

theorem JvmsForm.det {s1 s2 : List ComputationalType} (h1 : JvmsForm kind s s1)
    (h2 : JvmsForm kind s s2) : s1 = s2 := by
  cases h1 <;> cases h2 <;> first | rfl | contradiction

theorem JvmsForm.length_dup (h : JvmsForm kind s s') (hk : kind ∈ dupKinds) :
    s'.length = s.length + copiedEntries kind s := by
  cases h <;> simp_all [copiedEntries, dupKinds]

theorem JvmsForm.length_le (h : JvmsForm kind s s') (hk : kind ∉ dupKinds) :
    s'.length ≤ s.length := by
  cases h <;> simp [dupKinds] at hk ⊢
  omega

theorem HalfCopy.mem (h : HalfCopy kind s) : kind ∈ dupKinds := by
  cases h <;> simp [dupKinds]

theorem HalfCopy.not_form (h : HalfCopy kind s) : ¬JvmsForm kind s s' := by
  intro h'
  cases h <;> cases h' <;> contradiction

theorem length_le_stackDepth : ∀ s : List ComputationalType, s.length ≤ stackDepth s
  | [] => le_rfl
  | c :: s => by
    have hrest := length_le_stackDepth s
    have hpos : 1 ≤ c.depth := by
      unfold ComputationalType.depth
      split_ifs <;> omega
    simp only [stackDepth, List.map_cons, List.sum_cons, List.length_cons] at hrest ⊢
    omega

/-! ### The analysis -/

variable (env : AnalysisEnv) (doRewrite : Bool) (i : Nat) (insn : BytecodeInsn) (ctx : AnalysisCtx)

variable {env} in
theorem pushEntries_kindsOf : ∀ (ps rest : List ComputationalType),
    rest.length ≤ env.code.maxStack + 1 → pushEntries env (kindsOf ps) (kindsOf rest)
      = if rest.length + ps.length ≤ env.code.maxStack + 1 then .ok (kindsOf (ps.reverse ++ rest))
        else .error stackOverflow
  | [], rest, h => by
    rw [if_pos (by simpa using h)]
    rfl
  | p :: ps, rest, h => by
    have hstep : pushEntries env (kindsOf (p :: ps)) (kindsOf rest)
        = pushEntry env p.kind (kindsOf rest) >>= pushEntries env (kindsOf ps) := rfl
    by_cases hfull : rest.length = env.code.maxStack + 1
    · rw [hstep, pushEntry, if_pos (by rw [length_kindsOf, hfull]),
        if_neg (by rw [List.length_cons]; omega)]
      rfl
    · have hone : pushEntry env p.kind (kindsOf rest) = .ok (kindsOf (p :: rest)) := by
        refine pushEntry_eq_ok.2 ⟨by rwa [length_kindsOf], ?_, ?_⟩
        · cases p <;> simp [ComputationalType.kind]
        · cases p <;> rfl
      rw [hstep, hone, ok_bind, pushEntries_kindsOf ps (p :: rest) (by rw [List.length_cons]; omega)]
      simp only [List.length_cons, List.reverse_cons, List.append_assoc, List.singleton_append]
      exact if_congr (by omega) rfl rfl

theorem calculateTosType_kindsOf (s : List ComputationalType) :
    ∃ tos, calculateTosType (kindsOf s) = .ok tos := by
  rcases s with _ | ⟨a, s⟩
  · exact ⟨.void, rfl⟩
  · cases a <;> exact ⟨_, rfl⟩

theorem analyzeKind_shuffle (h : insn.kind ∈ shuffleKinds) :
    analyzeKind env doRewrite i insn ctx = (do
      let (pushes, stack, rewritten) ← shuffleStack insn.kind ctx.stack
      let stack ← pushEntries env pushes stack
      return (if doRewrite then { insn with kind := rewritten } else insn, { ctx with stack })) := by
  have heffect := effect_of_shuffle h
  rw [effect] at heffect
  rw [analyzeKind, heffect]
  simp only [shuffleKinds, List.mem_cons, List.not_mem_nil, or_false] at h
  rcases h with hk | hk | hk | hk | hk | hk | hk | hk | hk <;> rw [hk] <;> rfl

theorem terminates_shuffle (h : kind ∈ shuffleKinds) : kind.terminates = false := by
  simp only [shuffleKinds, List.mem_cons, List.not_mem_nil, or_false] at h
  rcases h with rfl | rfl | rfl | rfl | rfl | rfl | rfl | rfl | rfl <;> rfl

/-- An instruction that `shuffleStack` takes apart goes through if there is room. -/
theorem analyzeInstruction_shuffle {ps rest : List ComputationalType} {rewritten : InsnCode}
    (h : insn.kind ∈ shuffleKinds)
    (hs : shuffleStack insn.kind (kindsOf s) = .ok (kindsOf ps, kindsOf rest, rewritten))
    (hrest : rest.length ≤ env.code.maxStack + 1)
    (hroom : ps.length + rest.length ≤ env.code.maxStack + 1) :
    ∃ insn' ctx', analyzeInstruction env doRewrite i insn { ctx with stack := kindsOf s }
        = .ok (insn', ctx', false) ∧ ctx'.stack = kindsOf (ps.reverse ++ rest) := by
  obtain ⟨tosBefore, hbefore⟩ := calculateTosType_kindsOf s
  obtain ⟨tosAfter, hafter⟩ := calculateTosType_kindsOf (ps.reverse ++ rest)
  have hpush := @pushEntries_kindsOf env ps rest hrest
  rw [if_pos (by omega)] at hpush
  obtain ⟨insn', hkind⟩ : ∃ insn', analyzeKind env doRewrite i { insn with tosBefore }
      { ctx with stack := kindsOf s }
      = .ok (insn', { ctx with stack := kindsOf (ps.reverse ++ rest) }) := by
    rw [analyzeKind_shuffle env doRewrite i { insn with tosBefore } _ h]
    simp only [hs, ok_bind, hpush]
    exact ⟨_, rfl⟩
  refine ⟨{ insn' with tosAfter }, { ctx with stack := kindsOf (ps.reverse ++ rest) }, ?_, rfl⟩
  rw [analyzeInstruction, hbefore, ok_bind, hkind, ok_bind]
  dsimp only
  rw [hafter, ok_bind, pure_eq, terminates_shuffle h]

theorem analyzeInstruction_overflow {ps rest : List ComputationalType} {rewritten : InsnCode}
    (h : insn.kind ∈ shuffleKinds)
    (hs : shuffleStack insn.kind (kindsOf s) = .ok (kindsOf ps, kindsOf rest, rewritten))
    (hrest : rest.length ≤ env.code.maxStack + 1)
    (hroom : ¬ps.length + rest.length ≤ env.code.maxStack + 1) :
    analyzeInstruction env doRewrite i insn { ctx with stack := kindsOf s }
      = .error stackOverflow := by
  obtain ⟨tosBefore, hbefore⟩ := calculateTosType_kindsOf s
  have hpush := @pushEntries_kindsOf env ps rest hrest
  rw [if_neg (by omega)] at hpush
  have hkind : analyzeKind env doRewrite i { insn with tosBefore }
      { ctx with stack := kindsOf s } = .error stackOverflow := by
    rw [analyzeKind_shuffle env doRewrite i { insn with tosBefore } _ h]
    simp only [hs, ok_bind, hpush]
    rfl
  rw [analyzeInstruction, hbefore, ok_bind, hkind, error_bind]

theorem analyzeInstruction_refused {e : Failure} (h : insn.kind ∈ shuffleKinds)
    (hs : shuffleStack insn.kind (kindsOf s) = .error e) :
    analyzeInstruction env doRewrite i insn { ctx with stack := kindsOf s } = .error e := by
  obtain ⟨tosBefore, hbefore⟩ := calculateTosType_kindsOf s
  have hkind : analyzeKind env doRewrite i { insn with tosBefore }
      { ctx with stack := kindsOf s } = .error e := by
    rw [analyzeKind_shuffle env doRewrite i { insn with tosBefore } _ h]
    simp only [hs]
    rfl
  rw [analyzeInstruction, hbefore, ok_bind, hkind, error_bind]

/-! ### The specification -/

variable (stack : AbstractStack env.code.maxStack)

/-- What a form leaves is accepted if it fits the buffer, so the two part where the specification
has no room for the depth of the copy. -/
theorem analyzedAsJvms_of_form (hkind : insn.kind ∈ shuffleKinds) {ps rest : List ComputationalType}
    {rewritten : InsnCode}
    (hs : shuffleStack insn.kind (kindsOf stack.entries) = .ok (kindsOf ps, kindsOf rest, rewritten))
    (hform : JvmsForm insn.kind stack.entries (ps.reverse ++ rest)) :
    AnalyzedAsJvms env doRewrite i insn ctx stack.entries ↔
      ¬(insn.kind ∈ dupKinds
        ∧ stack.entries.length + copiedEntries insn.kind stack.entries ≤ env.code.maxStack + 1
        ∧ env.code.maxStack < stackDepth (ps.reverse ++ rest)) := by
  have hlen : (ps.reverse ++ rest).length = ps.length + rest.length := by simp
  have hrest : rest.length ≤ env.code.maxStack + 1 := by
    have hle := length_rest_le hs
    rw [length_kindsOf] at hle
    exact hle.trans stack.length_le
  have hdepth := length_le_stackDepth (ps.reverse ++ rest)
  have hallows : (∃ s', JvmsAllows env.code.maxStack insn.kind stack.entries s') ↔
      (insn.kind ∈ dupKinds → stackDepth (ps.reverse ++ rest) ≤ env.code.maxStack) := by
    constructor
    · rintro ⟨s', h, hroom⟩
      rwa [h.det hform] at hroom
    · intro hroom
      exact ⟨_, hform, hroom⟩
  have hdup : insn.kind ∈ dupKinds →
      ps.length + rest.length = stack.entries.length + copiedEntries insn.kind stack.entries := by
    intro hmem
    rw [← hlen, hform.length_dup hmem]
  have hpop : insn.kind ∉ dupKinds → ps.length + rest.length ≤ env.code.maxStack + 1 := by
    intro hmem
    rw [← hlen]
    exact (hform.length_le hmem).trans stack.length_le
  by_cases hroom : ps.length + rest.length ≤ env.code.maxStack + 1
  · obtain ⟨insn', ctx', hok, hstack⟩ := analyzeInstruction_shuffle env doRewrite i insn ctx
      hkind hs hrest hroom
    constructor
    · rintro hjvms ⟨hmem, -, hover⟩
      obtain ⟨msg, herror⟩ := hjvms.rejected (by rw [hallows]; intro h; have := h hmem; omega)
      rw [hok] at herror
      cases herror
    · intro hnot
      have hallowed : insn.kind ∈ dupKinds →
          stackDepth (ps.reverse ++ rest) ≤ env.code.maxStack := by
        intro hmem
        by_contra hover
        have hsum := hdup hmem
        exact hnot ⟨hmem, by omega, by omega⟩
      refine ⟨fun s' h => ⟨insn', ctx', hok, ?_⟩, fun h => (h (hallows.2 hallowed)).elim⟩
      rw [hstack, h.1.det hform]
  · have hmem : insn.kind ∈ dupKinds := by
      by_contra hmem
      exact hroom (hpop hmem)
    have hsum := hdup hmem
    constructor
    · rintro - ⟨-, hfits, -⟩
      omega
    · rintro -
      constructor
      · rintro s' ⟨h, hs'⟩
        have hs'' := hs' hmem
        rw [h.det hform] at hs''
        omega
      · rintro -
        exact ⟨_, analyzeInstruction_overflow env doRewrite i insn ctx hkind hs hrest hroom⟩

theorem analyzedAsJvms_of_halfCopy (hkind : insn.kind ∈ shuffleKinds)
    {ps rest : List ComputationalType} {rewritten : InsnCode}
    (hs : shuffleStack insn.kind (kindsOf stack.entries) = .ok (kindsOf ps, kindsOf rest, rewritten))
    (hhalf : HalfCopy insn.kind stack.entries)
    (hlen : ps.length + rest.length
      = stack.entries.length + copiedEntries insn.kind stack.entries) :
    AnalyzedAsJvms env doRewrite i insn ctx stack.entries ↔
      ¬stack.entries.length + copiedEntries insn.kind stack.entries ≤ env.code.maxStack + 1 := by
  have hrest : rest.length ≤ env.code.maxStack + 1 := by
    have hle := length_rest_le hs
    rw [length_kindsOf] at hle
    exact hle.trans stack.length_le
  rw [← hlen]
  constructor
  · intro hjvms hroom
    obtain ⟨insn', ctx', hok, -⟩ := analyzeInstruction_shuffle env doRewrite i insn ctx
      hkind hs hrest hroom
    obtain ⟨msg, herror⟩ := hjvms.rejected fun ⟨s', h, _⟩ => hhalf.not_form h
    rw [hok] at herror
    cases herror
  · intro hroom
    exact ⟨fun s' h => (hhalf.not_form h.1).elim,
      fun _ => ⟨_, analyzeInstruction_overflow env doRewrite i insn ctx hkind hs hrest hroom⟩⟩

/-- A stack instruction is analyzed as the specification has it unless it is a copy that fits the
buffer, and either halves a value of category 2 or is too deep for `max_stack`. -/
theorem analyzedAsJvms_iff (hkind : insn.kind ∈ shuffleKinds) :
    AnalyzedAsJvms env doRewrite i insn ctx stack.entries ↔
      ¬(insn.kind ∈ dupKinds
        ∧ stack.entries.length + copiedEntries insn.kind stack.entries ≤ env.code.maxStack + 1
        ∧ (HalfCopy insn.kind stack.entries
          ∨ ∃ s', JvmsForm insn.kind stack.entries s' ∧ env.code.maxStack < stackDepth s')) := by
  have hcase := shuffleCase hkind stack.entries
  generalize hs : shuffleStack insn.kind (kindsOf stack.entries) = r at hcase
  rcases hcase with ⟨ps, rest, hform⟩ | ⟨ps, rest, hhalf, hlen⟩ | ⟨hnone, hhalf⟩
  · rw [analyzedAsJvms_of_form env doRewrite i insn ctx stack hkind hs hform]
    have hdeep : (HalfCopy insn.kind stack.entries
        ∨ ∃ s', JvmsForm insn.kind stack.entries s' ∧ env.code.maxStack < stackDepth s') ↔
        env.code.maxStack < stackDepth (ps.reverse ++ rest) := by
      constructor
      · rintro (h | ⟨s', h, hover⟩)
        · exact (h.not_form hform).elim
        · rwa [← h.det hform]
      · intro hover
        exact Or.inr ⟨_, hform, hover⟩
    rw [hdeep]
  · rw [analyzedAsJvms_of_halfCopy env doRewrite i insn ctx stack hkind hs hhalf hlen]
    have hmem := hhalf.mem
    tauto
  · have herror := analyzeInstruction_refused env doRewrite i insn ctx hkind hs
    constructor
    · rintro - ⟨-, -, h | ⟨s', h, -⟩⟩
      · exact hhalf h
      · exact hnone s' h
    · rintro -
      exact ⟨fun s' h => (hnone s' h.1).elim, fun _ => ⟨_, herror⟩⟩

/-! ### A long -/

/-- An environment with room for two entries and without locals. -/
def pairEnv : AnalysisEnv :=
  { code := { maxStack := 2, maxLocals := 0, code := [] }
    swizzle := []
    missingSmt := false }

/-- A long, which has the depth of two entries. -/
def longStack : AbstractStack pairEnv.code.maxStack := ⟨[.long], by decide⟩

def dupInsn : BytecodeInsn := { kind := .dup }

theorem analyzedAsJvms_iff_longStack :
    AnalyzedAsJvms pairEnv true 0 dupInsn { locals := [] } longStack.entries ↔
      ¬(dupInsn.kind ∈ dupKinds
        ∧ longStack.entries.length + copiedEntries dupInsn.kind longStack.entries
          ≤ pairEnv.code.maxStack + 1
        ∧ (HalfCopy dupInsn.kind longStack.entries
          ∨ ∃ s', JvmsForm dupInsn.kind longStack.entries s'
            ∧ pairEnv.code.maxStack < stackDepth s')) :=
  analyzedAsJvms_iff pairEnv true 0 dupInsn { locals := [] } longStack (by decide)

theorem longStack_not_analyzedAsJvms :
    ¬AnalyzedAsJvms pairEnv true 0 dupInsn { locals := [] } longStack.entries := by
  have hs : shuffleStack dupInsn.kind (kindsOf longStack.entries)
      = .ok (kindsOf [.long], kindsOf [.long], .dup) := rfl
  have hhalf : HalfCopy dupInsn.kind longStack.entries := .dup (by decide)
  rw [analyzedAsJvms_of_halfCopy pairEnv true 0 dupInsn { locals := [] } longStack (by decide) hs
    hhalf rfl]
  decide

end BJvm

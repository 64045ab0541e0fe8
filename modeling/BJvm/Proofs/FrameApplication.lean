import BJvm.Proofs.Analyzer
import BJvm.Proofs.StackMap
import BJvm.Proofs.Swizzle

/-!
# Frames are applied where they stand

The pass over a method with a `StackMapTable` moves the iterator in step with the instructions: the
frame it holds is the first that stands at no instruction passed, or the last of all
(`runPass_inStep`).  So each frame is applied at its instruction as long as the iterator yields the
frames of the table, which is when the table begins as `ReadsRight` says.
-/

namespace BJvm

open Parsing

variable {env : AnalysisEnv} {m : CpMethod} {frames : List StackMapFrame}
  {locals : List TypeKind} {swizzle : List Nat} {i n : Nat} {insn : BytecodeInsn} {s s' : PassState}

/-! ### The sequence of the frames -/

theorem frameStates_pairwise : ∀ (frames : List StackMapFrame) (ls : List VerificationType)
    (base : Nat), (frameStates ls base frames).Pairwise (·.pc < ·.pc) ∧
      ∀ f ∈ frameStates ls base frames, base ≤ f.pc
  | [], _, _ => ⟨.nil, by simp [frameStates]⟩
  | f :: fs, ls, base => by
    obtain ⟨h1, h2⟩ := frameStates_pairwise fs (f.apply ls).1 (base + f.offsetDelta + 1)
    refine ⟨List.pairwise_cons.mpr ⟨fun g hg => h2 g hg, h1⟩, fun g hg => ?_⟩
    rcases List.mem_cons.mp hg with rfl | hg
    · exact Nat.le_add_right _ _
    · have := h2 g hg
      omega

theorem frameSequence_pairwise (m : CpMethod) (frames : List StackMapFrame) :
    (m.frameSequence frames).Pairwise (·.pc < ·.pc) := by
  obtain ⟨h1, -⟩ := frameStates_pairwise frames m.initialLocals 0
  rw [CpMethod.frameSequence]
  split
  · simp
  · rename_i f fs heq
    rw [heq] at h1
    split_ifs with hf
    · exact h1
    · refine List.pairwise_cons.mpr ⟨fun g hg => ?_, h1⟩
      rcases List.mem_cons.mp hg with rfl | hg
      · exact Nat.pos_of_ne_zero hf
      · exact Nat.zero_lt_of_lt (List.rel_of_pairwise_cons h1 hg)

theorem frameSequence_ne_nil (m : CpMethod) (frames : List StackMapFrame) :
    m.frameSequence frames ≠ [] := by
  rw [CpMethod.frameSequence]
  split
  · simp
  · split_ifs <;> simp

theorem frameStates_fit {code : AttributeCode} : ∀ {frames : List StackMapFrame}
    {ls : List VerificationType} (base : Nat), FramesFit code ls frames →
    ∀ f ∈ frameStates ls base frames, (expand f.locals).length ≤ code.maxLocals
  | [], _, _, _, f, hf => by simp [frameStates] at hf
  | g :: fs, _, _, ⟨_, h1, _, h2⟩, f, hf => by
    rcases List.mem_cons.mp hf with rfl | hf
    · rw [length_expand]
      exact h1
    · exact frameStates_fit _ h2 f hf

theorem frameSequence_fit (h : Conforms m frames) :
    ∀ f ∈ m.frameSequence frames, (expand f.locals).length ≤ m.code.maxLocals := by
  have hentry : (expand m.initialLocals).length ≤ m.code.maxLocals := by
    rw [length_expand]
    exact h.entry
  have hfit := frameStates_fit 0 h.fit
  intro f hf
  rw [CpMethod.frameSequence] at hf
  split at hf
  · rw [List.mem_singleton.mp hf]
    exact hentry
  · rename_i g gs heq
    rw [heq] at hfit
    split_ifs at hf
    · exact hfit f hf
    · rcases List.mem_cons.mp hf with rfl | hf
      · exact hentry
      · exact hfit f hf

/-! ### The pass -/

theorem analyzeKind_length {doRewrite : Bool} {ctx ctx' : AnalysisCtx} {insn' : BytecodeInsn}
    (h : analyzeKind env doRewrite i insn ctx = .ok (insn', ctx')) :
    ctx'.locals.length = ctx.locals.length := by
  cases analyzeKind_cases h with
  | plain _ _ => rw [(AnalysisCtx.pushBranchTargets_keeps _ _ _).2]
  | store _ _ _ _ => simp
  | _ => rfl

/-- The method has a `StackMapTable`, its instructions stand at increasing offsets from 0 on, and
every frame stands at an instruction. -/
structure FramesPlaced (m : CpMethod) (frames : List StackMapFrame) : Prop where
  present : m.missingSmt = false
  first : m.code.code.head?.map (·.originalPc) = some 0
  increasing : m.code.code.Pairwise (·.originalPc < ·.originalPc)
  placed : ∀ f ∈ m.frameSequence frames, ∃ insn ∈ m.code.code, insn.originalPc = f.pc

/-- When the pass comes to an instruction, it goes on without an error; it takes over the frame
that stands there, and keeps its state where none does. -/
def AppliesFrames (m : CpMethod) (frames : List StackMapFrame) : Prop :=
  ∀ {locals swizzle iter i insn s}, localsOnMethodEntry m = some (locals, swizzle) →
    StackMapFrameIterator.init m = .ok iter → m.code.code[i]? = some insn →
    runPass { code := m.code, swizzle, missingSmt := m.missingSmt } true i
      { ctx := { locals }, iter, code := m.code.code } = .ok s →
    ∃ s', enterInsn { code := m.code, swizzle, missingSmt := m.missingSmt } i insn s = .ok s' ∧
      (∀ f ∈ m.frameSequence frames, f.pc = insn.originalPc →
        ShowsFrame m.code.maxLocals swizzle s'.ctx f) ∧
      ((∀ f ∈ m.frameSequence frames, f.pc ≠ insn.originalPc) → s'.ctx = s.ctx)

/-- The offset is behind: no instruction from `i` on stands at it or before it. -/
def CpMethod.Passed (m : CpMethod) (i pc : Nat) : Prop :=
  ∀ j insn, i ≤ j → m.code.code[j]? = some insn → pc < insn.originalPc

/-- Before the instruction at `i` the iterator holds the first frame not passed, or the last. -/
def HoldsFrame (m : CpMethod) (frames : List StackMapFrame) (i : Nat)
    (it : StackMapFrameIterator) : Prop :=
  ∃ done f rest, m.frameSequence frames = done ++ f :: rest ∧ Yields m.code it (f :: rest) ∧
    (∀ g ∈ done, m.Passed i g.pc) ∧
    ((∃ j insn, i ≤ j ∧ m.code.code[j]? = some insn ∧ insn.originalPc = f.pc) ∨
      rest = [] ∧ m.Passed i f.pc)

/-- The state before the instruction at `i`. -/
structure InStep (m : CpMethod) (frames : List StackMapFrame) (i : Nat) (s : PassState) : Prop where
  code : ∀ j, i ≤ j → s.code[j]? = m.code.code[j]?
  length : s.ctx.locals.length = m.code.maxLocals
  frame : HoldsFrame m frames i s.iter

theorem CpMethod.Passed.succ {pc : Nat} (h : m.Passed i pc) : m.Passed (i + 1) pc :=
  fun j insn hj hinsn => h j insn (by omega) hinsn

theorem FramesPlaced.lt (h : FramesPlaced m frames) {j k : Nat} {a b : BytecodeInsn}
    (ha : m.code.code[j]? = some a) (hb : m.code.code[k]? = some b) :
    a.originalPc < b.originalPc ↔ j < k := by
  obtain ⟨hj, rfl⟩ := List.getElem?_eq_some_iff.mp ha
  obtain ⟨hk, rfl⟩ := List.getElem?_eq_some_iff.mp hb
  have hinc := List.pairwise_iff_getElem.mp h.increasing
  constructor
  · intro hlt
    rcases Nat.lt_trichotomy j k with hjk | rfl | hjk
    · exact hjk
    · omega
    · have := hinc k j hk hj hjk
      omega
  · exact hinc j k hj hk

theorem FramesPlaced.passed (h : FramesPlaced m frames) (hi : m.code.code[i]? = some insn) :
    m.Passed (i + 1) insn.originalPc :=
  fun _ _ hj hinsn => (h.lt hi hinsn).mpr hj

theorem FramesPlaced.not_passed (h : FramesPlaced m frames) {f : FrameState}
    (hf : f ∈ m.frameSequence frames) (hi : m.code.code[i]? = some insn)
    (hlt : insn.originalPc < f.pc) :
    ∃ j insn, i + 1 ≤ j ∧ m.code.code[j]? = some insn ∧ insn.originalPc = f.pc := by
  obtain ⟨b, hb, hpc⟩ := h.placed f hf
  obtain ⟨j, hj, rfl⟩ := List.mem_iff_getElem.mp hb
  have hj' : m.code.code[j]? = some m.code.code[j] := List.getElem?_eq_getElem hj
  exact ⟨j, _, (h.lt hi hj').mp (hpc ▸ hlt), hj', hpc⟩

/-- An iterator that holds a frame standing at `i` goes on to the next. -/
theorem HoldsFrame.advance (hp : FramesPlaced m frames) {it : StackMapFrameIterator}
    (h : HoldsFrame m frames i it) (hi : m.code.code[i]? = some insn)
    (hpc : insn.originalPc = it.pc) :
    (it.hasNext = false ∧ HoldsFrame m frames (i + 1) it) ∨
      ∃ it', it.hasNext = true ∧ it.next m.code = .ok it' ∧ HoldsFrame m frames (i + 1) it' := by
  obtain ⟨done, f, rest, hseq, hy, hdone, -⟩ := h
  have hpass : m.Passed (i + 1) f.pc := by
    rw [← hy.head.pc, ← hpc]
    exact hp.passed hi
  cases rest with
  | nil => exact .inl ⟨hy.2, done, f, [], hseq, hy, fun g hg => (hdone g hg).succ, .inr ⟨rfl, hpass⟩⟩
  | cons g rest =>
    obtain ⟨hat, hnext, it', hok, hy'⟩ := hy
    refine .inr ⟨it', hnext, hok, done ++ [f], g, rest, by simp [hseq], hy', fun e he => ?_,
      .inl (hp.not_passed (by simp [hseq]) hi ?_)⟩
    · rcases List.mem_append.mp he with he | he
      · exact (hdone e he).succ
      · rwa [List.mem_singleton.mp he]
    · have hpw := frameSequence_pairwise m frames
      rw [hseq] at hpw
      have hfg : f.pc < g.pc :=
        List.rel_of_pairwise_cons (List.pairwise_append.mp hpw).2.1 (by simp)
      rwa [hpc, hat.pc]

/-- An iterator that holds a frame standing elsewhere keeps it. -/
theorem HoldsFrame.keep {it : StackMapFrameIterator}
    (h : HoldsFrame m frames i it) (hi : m.code.code[i]? = some insn)
    (hpc : insn.originalPc ≠ it.pc) : HoldsFrame m frames (i + 1) it := by
  obtain ⟨done, f, rest, hseq, hy, hdone, hf⟩ := h
  refine ⟨done, f, rest, hseq, hy, fun g hg => (hdone g hg).succ, ?_⟩
  rcases hf with ⟨j, b, hij, hb, hbf⟩ | ⟨hrest, hpass⟩
  · refine .inl ⟨j, b, ?_, hb, hbf⟩
    rcases Nat.lt_or_eq_of_le hij with hlt | rfl
    · exact hlt
    · rw [hi, Option.some.injEq] at hb
      subst hb
      exact absurd (hbf.trans hy.head.pc.symm) hpc
  · exact .inr ⟨hrest, hpass.succ⟩

/-- The frame that stands at the instruction at `i` is the one that the iterator holds. -/
theorem HoldsFrame.eq_of_pc {it : StackMapFrameIterator} (h : HoldsFrame m frames i it)
    (hi : m.code.code[i]? = some insn) {g : FrameState} (hg : g ∈ m.frameSequence frames)
    (hpc : g.pc = insn.originalPc) (hp : FramesPlaced m frames) : it.At g := by
  obtain ⟨done, f, rest, hseq, hy, hdone, hf⟩ := h
  have hpw := frameSequence_pairwise m frames
  rw [hseq] at hpw hg
  obtain ⟨-, hpw, -⟩ := List.pairwise_append.mp hpw
  rcases List.mem_append.mp hg with hg | hg
  · have := hdone g hg i insn le_rfl hi
    omega
  rcases List.mem_cons.mp hg with rfl | hg
  · exact hy.head
  · -- a later frame stands behind the one held
    have hfg := List.rel_of_pairwise_cons hpw hg
    rcases hf with ⟨j, b, hij, hb, hbf⟩ | ⟨rfl, -⟩
    · have := (hp.lt hb hi).mp (by omega)
      omega
    · simp at hg

theorem HoldsFrame.at_mem {it : StackMapFrameIterator} (h : HoldsFrame m frames i it) :
    ∃ f ∈ m.frameSequence frames, it.At f := by
  obtain ⟨done, f, rest, hseq, hy, -⟩ := h
  exact ⟨f, by simp [hseq], hy.head⟩

/-- What happens before an instruction is looked at. -/
theorem enterInsn_inStep (hc : Conforms m frames) (hp : FramesPlaced m frames)
    (hr : Renumbers m.code.maxLocals swizzle) (hs : InStep m frames i s)
    (hi : m.code.code[i]? = some insn) :
    ∃ s', enterInsn { code := m.code, swizzle, missingSmt := m.missingSmt } i insn s = .ok s' ∧
      ((∀ f ∈ m.frameSequence frames, f.pc = insn.originalPc →
        ShowsFrame m.code.maxLocals swizzle s'.ctx f) ∧
      ((∀ f ∈ m.frameSequence frames, f.pc ≠ insn.originalPc) → s'.ctx = s.ctx)) ∧
      s'.code = s.code ∧ s'.ctx.locals.length = m.code.maxLocals ∧
      HoldsFrame m frames (i + 1) s'.iter := by
  let env : AnalysisEnv := { code := m.code, swizzle, missingSmt := m.missingSmt }
  by_cases hpc : insn.originalPc = s.iter.pc
  · obtain ⟨f, hf, hat⟩ := hs.frame.at_mem
    have hshow : ShowsFrame m.code.maxLocals swizzle (useStackMapFrame env s.iter s.ctx) f :=
      useStackMapFrame_shows env hr hs.length hat (frameSequence_fit hc f hf)
    have hlen := hshow.length
    have hall : ∀ g ∈ m.frameSequence frames, g.pc = insn.originalPc →
        ShowsFrame m.code.maxLocals swizzle (useStackMapFrame env s.iter s.ctx) g := fun g hg hgpc =>
      useStackMapFrame_shows env hr hs.length (hs.frame.eq_of_pc hi hg hgpc hp)
        (frameSequence_fit hc g hg)
    have hnone : ¬ ∀ g ∈ m.frameSequence frames, g.pc ≠ insn.originalPc := fun h =>
      h f hf (by rw [hpc, hat.pc])
    rcases hs.frame.advance hp hi hpc with ⟨hlast, hholds⟩ | ⟨it', hnext, hok, hholds⟩
    · refine ⟨{ s with ctx := useStackMapFrame env s.iter s.ctx }, ?_, ⟨hall, fun h => absurd h hnone⟩,
        rfl, hlen, hholds⟩
      simp [enterInsn, hpc, hlast, env]
    · refine ⟨{ s with ctx := useStackMapFrame env s.iter s.ctx, iter := it' }, ?_,
        ⟨hall, fun h => absurd h hnone⟩, rfl, hlen, hholds⟩
      simp [enterInsn, hpc, hnext, hok, env]
  · refine ⟨s, by simp [enterInsn, hpc, hp.present], ⟨fun f hf hfpc => ?_, fun _ => rfl⟩, rfl,
      hs.length, hs.frame.keep hi hpc⟩
    exact absurd (hfpc ▸ (hs.frame.eq_of_pc hi hf hfpc hp).pc.symm) hpc

theorem passStep_inStep (hc : Conforms m frames) (hp : FramesPlaced m frames)
    (hr : Renumbers m.code.maxLocals swizzle) (hs : InStep m frames i s)
    (hi : i < m.code.code.length)
    (h : passStep { code := m.code, swizzle, missingSmt := m.missingSmt } true s i = .ok s') :
    InStep m frames (i + 1) s' := by
  have hinsn : m.code.code[i]? = some m.code.code[i] := List.getElem?_eq_getElem hi
  have hget : s.code.getD i default = m.code.code[i] := by
    rw [List.getD, hs.code i le_rfl, hinsn, Option.getD_some]
  obtain ⟨s1, henter, -, hcode, hlen, hholds⟩ := enterInsn_inStep hc hp hr hs hinsn
  obtain ⟨s2, h2, h⟩ := bind_eq_ok.mp h
  rw [hget, henter, Except.ok.injEq] at h2
  subst h2
  obtain ⟨⟨insn', ctx', t⟩, hstep, h⟩ := bind_eq_ok.mp h
  rw [pure_eq_ok] at h
  subst h
  obtain ⟨_, _, _, -, hkind, -⟩ := analyzeInstruction_ok hstep
  refine ⟨fun j hj => ?_, (analyzeKind_length hkind).trans hlen, hholds⟩
  simp only [PassState.record]
  rw [hcode, List.getElem?_set_ne (by omega), hs.code j (by omega)]

/-- The iterator keeps in step with the pass. -/
theorem runPass_inStep (hc : Conforms m frames) (hp : FramesPlaced m frames)
    (hr : Renumbers m.code.maxLocals swizzle) :
    ∀ {n : Nat} {s' : PassState}, n ≤ m.code.code.length → InStep m frames 0 s →
      runPass { code := m.code, swizzle, missingSmt := m.missingSmt } true n s = .ok s' →
      InStep m frames n s'
  | 0, s', _, hs, h => by
    simp only [runPass, List.range_zero, List.foldlM_nil, pure_eq_ok] at h
    rwa [← h]
  | n + 1, s', hn, hs, h => by
    simp only [runPass, List.range_succ, List.foldlM_append, List.foldlM_cons, List.foldlM_nil,
      bind_pure] at h
    obtain ⟨s1, h1, h⟩ := bind_eq_ok.mp h
    exact passStep_inStep hc hp hr (runPass_inStep hc hp hr (by omega) hs h1) hn h

theorem holdsFrame_zero (hp : FramesPlaced m frames) {it : StackMapFrameIterator}
    (h : Yields m.code it (m.frameSequence frames)) : HoldsFrame m frames 0 it := by
  obtain ⟨f, rest, hseq⟩ := List.exists_cons_of_ne_nil (frameSequence_ne_nil m frames)
  obtain ⟨b, hb, hbf⟩ := hp.placed f (by simp [hseq])
  obtain ⟨j, hj, rfl⟩ := List.mem_iff_getElem.mp hb
  exact ⟨[], f, rest, hseq, hseq ▸ h, by simp,
    .inl ⟨j, _, Nat.zero_le _, List.getElem?_eq_getElem hj, hbf⟩⟩

theorem appliesFrames (hc : Conforms m frames) (hp : FramesPlaced m frames)
    (hr : ReadsRight m frames) : AppliesFrames m frames := by
  intro locals swizzle iter i insn s hentry hinit hi hrun
  obtain ⟨it, hinit', hy⟩ := yields_of_readsRight hc hr
  rw [hinit, Except.ok.injEq] at hinit'
  subst hinit'
  have hren := localsOnMethodEntry_renumbers hentry
  have hzero : InStep m frames 0 { ctx := { locals }, iter, code := m.code.code } :=
    ⟨fun _ _ => rfl, (swizzle_perm hentry).2, holdsFrame_zero hp hy⟩
  have hlt : i < m.code.code.length := (List.getElem?_eq_some_iff.mp hi).1
  obtain ⟨s', henter, hshow, -⟩ := enterInsn_inStep hc hp hren
    (runPass_inStep hc hp hren (Nat.le_of_lt hlt) hzero hrun) hi
  exact ⟨s', henter, hshow⟩

/-- The iterator goes through exactly the frames that the table stands for, and the analysis
applies each at its instruction, if and only if there is a first frame that stands behind offset 0
or is the byte 0, and the method is not the constructor of `Object`. -/
theorem framesApplied_iff (hc : Conforms m frames) (hp : FramesPlaced m frames) :
    ((∃ it, StackMapFrameIterator.init m = .ok it ∧ Yields m.code it (m.frameSequence frames)) ∧
      AppliesFrames m frames) ↔ ReadsRight m frames :=
  ⟨fun h => readsRight_of_yields hc h.1,
    fun h => ⟨yields_of_readsRight hc h, appliesFrames hc hp h⟩⟩

/-- `while (n != 0) n--`, with frames at the loop head, offset 0, and behind the loop. -/
def whileLoop : CpMethod where
  isStatic := true
  descriptor := { args := [{ baseKind := .int }], returnType := { baseKind := .void } }
  code :=
    { maxStack := 1
      maxLocals := 1
      code :=
        [{ kind := .iload, originalPc := 0, index := 0 },
          { kind := .ifeq, originalPc := 1, index := 4 },
          { kind := .iinc, originalPc := 4, iincIndex := 0, iincConst := -1 },
          { kind := .goto, originalPc := 7, index := 0 },
          { kind := .return_, originalPc := 10 }]
      stackMapTable := some { entriesCount := 2, data := [0, 9] } }

theorem whileLoop_applied :
    (∃ it, StackMapFrameIterator.init whileLoop = .ok it ∧
      Yields whileLoop.code it (whileLoop.frameSequence [.same 0, .same 9])) ∧
    AppliesFrames whileLoop [.same 0, .same 9] := by
  have hc : Conforms whileLoop [.same 0, .same 9] :=
    ⟨by decide, by decide, by decide, trivial, by decide, by decide, trivial, by decide, by decide,
      trivial⟩
  have hp : FramesPlaced whileLoop [.same 0, .same 9] := ⟨rfl, rfl, by decide, by decide⟩
  exact (framesApplied_iff hc hp).mpr
    ⟨fun h => absurd h.1 (by decide), .same 0, [.same 9], rfl, .inr rfl⟩

/-- A method that only returns, with a table of no frames. -/
def emptyTable : CpMethod where
  isStatic := true
  descriptor := { args := [], returnType := { baseKind := .void } }
  code :=
    { maxStack := 0
      maxLocals := 0
      code := [{ kind := .return_ }]
      stackMapTable := some { entriesCount := 0, data := [] } }

/-- The empty table conforms, but the iterator promises a frame behind that of method entry, and
the analysis fails. -/
theorem emptyTable_wrong :
    Conforms emptyTable [] ∧ FramesPlaced emptyTable [] ∧
      (∀ it, StackMapFrameIterator.init emptyTable = .ok it →
        ¬ Yields emptyTable.code it (emptyTable.frameSequence [])) ∧
      analyzeMethodCode 1 emptyTable = .error (.error "Unexpected end of stackmaptable") := by
  refine ⟨⟨rfl, by decide, by decide, trivial⟩, ⟨rfl, rfl, by decide, by decide⟩, fun it hit hy => ?_,
    by decide⟩
  have hinit : StackMapFrameIterator.init emptyTable = .ok { hasNext := true } := by decide
  rw [hinit, Except.ok.injEq] at hit
  subst hit
  exact absurd hy.2 (by decide)

end BJvm

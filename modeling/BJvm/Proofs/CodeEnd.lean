import BJvm.Analysis.ControlFlow
import BJvm.Proofs.AnalyzedStates
import BJvm.Proofs.Classfile
import BJvm.Proofs.CodeAttribute

/-!
# The end of the code

The parser has every branch and every handler lead to an instruction of the code, so a path runs past
the end only from the last instruction.  Neither the parser nor `analyze_method_code` looks at what
that instruction is, or whether there is one.
-/

namespace BJvm

open Parsing Parser ClassFile

variable {env : AnalysisEnv} {m : CpMethod} {a : MethodAnalysis} {ctx ctx' : AnalysisCtx}
  {insn insn' : BytecodeInsn} {s s' : PassState} {code code' : List BytecodeInsn}
  {handlers : List Nat} {i j n p : Nat} {doRewrite : Bool}

/-! ### Paths -/

/-- Whether control can pass to the next instruction. -/
def InsnCode.fallsThrough (kind : InsnCode) : Bool :=
  kind.controlFlow = .next || kind.controlFlow = .conditional

/-- Where the instruction at `i` passes control, `ret` apart. -/
def BytecodeInsn.leads (insn : BytecodeInsn) (i : Nat) : List Nat :=
  insn.branchOperands ++ if insn.kind.fallsThrough then [i + 1] else []

/-- Where the paths come to that start at the first instruction or at a handler.  `ret` returns
behind a `jsr` that some path comes to. -/
inductive OnPath (code : List BytecodeInsn) (handlers : List Nat) : Nat → Prop
  | entry : OnPath code handlers 0
  | handler {i : Nat} : i ∈ handlers → OnPath code handlers i
  | leads {i j : Nat} {insn : BytecodeInsn} : OnPath code handlers i → code[i]? = some insn →
      j ∈ insn.leads i → OnPath code handlers j
  | returns {i k : Nat} {insn jsr : BytecodeInsn} : OnPath code handlers i → code[i]? = some insn →
      insn.kind.controlFlow = .ret → OnPath code handlers k → code[k]? = some jsr →
      jsr.kind.controlFlow = .jsr → OnPath code handlers (k + 1)

/-- No path runs past the last instruction. -/
def StaysInside (code : List BytecodeInsn) (handlers : List Nat) : Prop :=
  ∀ i, OnPath code handlers i → i < code.length

/-- There is a last instruction; and if a path comes to it, it passes control elsewhere than to the
next, and if it is a `jsr`, no path comes to a `ret`. -/
structure EndsInside (code : List BytecodeInsn) (handlers : List Nat) : Prop where
  nonempty : 0 < code.length
  last : ∀ insn, code[code.length - 1]? = some insn → OnPath code handlers (code.length - 1) →
    insn.kind.fallsThrough = false ∧
      (insn.kind.controlFlow = .jsr → ∀ i ret, OnPath code handlers i → code[i]? = some ret →
        ret.kind.controlFlow ≠ .ret)

theorem staysInside_iff_endsInside (hT : TargetsInCode code) (hH : ∀ i ∈ handlers, i < code.length) :
    StaysInside code handlers ↔ EndsInside code handlers := by
  constructor
  · intro h
    have hpos := h 0 .entry
    have hlt : code.length - 1 + 1 = code.length := Nat.sub_add_cancel hpos
    refine ⟨hpos, fun insn hinsn hpath => ⟨?_, fun hjsr i ret hi hret hkind => ?_⟩⟩
    · rw [Bool.eq_false_iff]
      intro hfall
      have hnext : code.length - 1 + 1 ∈ insn.leads (code.length - 1) :=
        List.mem_append_right _ (by rw [if_pos hfall]; exact List.mem_singleton_self _)
      have := h _ (.leads hpath hinsn hnext)
      omega
    · have := h _ (.returns hi hret hkind hpath hinsn hjsr)
      omega
  · intro h i hi
    -- what is behind an instruction is in the code unless the instruction is the last
    have hlast : ∀ k insn, k < code.length → code[k]? = some insn → ¬ k + 1 < code.length →
        code[code.length - 1]? = some insn ∧ k = code.length - 1 := fun k insn hk hinsn hnot => by
      obtain rfl : k = code.length - 1 := by omega
      exact ⟨hinsn, rfl⟩
    induction hi with
    | entry => exact h.nonempty
    | handler hi => exact hH _ hi
    | @leads i j insn hi hinsn hj ih =>
      rcases List.mem_append.mp hj with hj | hj
      · exact hT insn (List.mem_of_getElem? hinsn) j hj
      · split_ifs at hj with hfall
        · obtain rfl := List.mem_singleton.mp hj
          by_contra hnot
          obtain ⟨hinsn', rfl⟩ := hlast i insn ih hinsn hnot
          rw [(h.last insn hinsn' hi).1] at hfall
          cases hfall
        · exact absurd hj List.not_mem_nil
    | @returns i k insn jsr hi hinsn hret hk hjsr hkind _ ih =>
      by_contra hnot
      obtain ⟨hjsr', rfl⟩ := hlast k jsr ih hjsr hnot
      exact (h.last jsr hjsr' hk).2 hkind i insn hi hinsn hret

/-! ### What the analysis leaves as it is -/

/-- What paths depend on. -/
def BytecodeInsn.flow (insn : BytecodeInsn) : ControlFlow × List Nat :=
  (insn.kind.controlFlow, insn.branchOperands)

theorem OnPath.congr (h : code'.map (·.flow) = code.map (·.flow)) (hi : OnPath code handlers i) :
    OnPath code' handlers i := by
  have hget : ∀ {k : Nat} {insn : BytecodeInsn}, code[k]? = some insn →
      ∃ insn' : BytecodeInsn, code'[k]? = some insn' ∧ insn'.flow = insn.flow := fun {k insn} hk => by
    have heq := congrArg (·[k]?) h
    simp only [List.getElem?_map, hk, Option.map_some] at heq
    exact Option.map_eq_some_iff.mp heq
  induction hi with
  | entry => exact .entry
  | handler hi => exact .handler hi
  | @leads i j insn _ hinsn hj ih =>
    obtain ⟨insn', hinsn', hflow⟩ := hget hinsn
    refine .leads ih hinsn' ?_
    obtain ⟨hkind, hoperands⟩ := Prod.mk.inj hflow
    rwa [BytecodeInsn.leads, InsnCode.fallsThrough, hkind, hoperands]
  | returns _ hinsn hret _ hjsr hkind ih ihk =>
    obtain ⟨insn', hinsn', hflow⟩ := hget hinsn
    obtain ⟨jsr', hjsr', hflow'⟩ := hget hjsr
    exact .returns ih hinsn' ((Prod.mk.inj hflow).1.trans hret) ihk hjsr'
      ((Prod.mk.inj hflow').1.trans hkind)

theorem staysInside_congr (h : code'.map (·.flow) = code.map (·.flow)) :
    StaysInside code' handlers ↔ StaysInside code handlers := by
  have hlen : code'.length = code.length := by simpa using congrArg List.length h
  rw [StaysInside, hlen]
  exact forall_congr' fun i => imp_congr ⟨fun hi => hi.congr h.symm, fun hi => hi.congr h⟩ .rfl

theorem flow_of_shuffle (h : insn.kind ∈ shuffleKinds) : insn.flow = (.next, []) := by
  simp only [shuffleKinds, List.mem_cons, List.not_mem_nil, or_false] at h
  rcases h with h | h | h | h | h | h | h | h | h <;>
    simp [BytecodeInsn.flow, BytecodeInsn.branchOperands, h, InsnCode.controlFlow]

theorem flow_of_localKind {kind : TypeKind} (h : localKind insn.kind = some kind) :
    insn.flow = (.next, []) := by
  cases hk : insn.kind <;> simp [hk, localKind] at h <;>
    simp [BytecodeInsn.flow, BytecodeInsn.branchOperands, hk, InsnCode.controlFlow]

theorem flow_of_case {tosBefore tosAfter : ReducedTosKind}
    (h : AnalyzeCase env doRewrite i { insn with tosBefore } ctx insn' ctx') :
    ({ insn' with tosAfter } : BytecodeInsn).flow = insn.flow := by
  cases h with
  | plain _ _ =>
    rw [branchDelta]
    split_ifs <;> rfl
  | @shuffle pushes stack rewritten h =>
    split_ifs
    · have hk : insn.kind ∈ shuffleKinds := mem_of_shuffleStack h
      have hk' : ({ insn with tosBefore, kind := rewritten, tosAfter } : BytecodeInsn).kind ∈
          shuffleKinds := mem_rewritten h
      rw [flow_of_shuffle hk, flow_of_shuffle hk']
    · rfl
  | load hkind _ _ _ =>
    rw [@flow_of_localKind insn _ hkind]
    exact flow_of_localKind hkind
  | store hkind _ _ _ =>
    rw [@flow_of_localKind insn _ hkind]
    exact flow_of_localKind hkind
  | _ => rfl

theorem passStep_flow (h : passStep env doRewrite s i = .ok s') :
    s'.code.map (·.flow) = s.code.map (·.flow) := by
  obtain ⟨tosBefore, tosAfter, insn'', e, -, hcase, hcode⟩ := passStep_case h
  have hflow := @flow_of_case _ _ _ _ _ _ _ tosBefore tosAfter hcase
  refine List.ext_getElem? fun k => ?_
  simp only [List.getElem?_map, hcode, List.getElem?_set]
  split_ifs with hik hlt
  · subst hik
    rw [Option.map_some, hflow, List.getElem?_eq_getElem hlt, Option.map_some,
      List.getD_eq_getElem _ _ hlt]
  · subst hik
    rw [List.getElem?_eq_none (not_lt.mp hlt)]
  · rfl

theorem runPass_flow : ∀ {n : Nat} {s' : PassState}, runPass env doRewrite n s = .ok s' →
    s'.code.map (·.flow) = s.code.map (·.flow)
  | 0, s', h => by
    simp only [runPass, List.range_zero, List.foldlM_nil, pure_eq_ok] at h
    rw [h]
  | n + 1, s', h => by
    simp only [runPass, List.range_succ, List.foldlM_append, List.foldlM_cons, List.foldlM_nil,
      bind_pure] at h
    obtain ⟨s₁, h₁, h⟩ := bind_eq_ok.mp h
    exact (passStep_flow h).trans (runPass_flow h₁)

theorem runPasses_flow : ∀ {fuel : Nat} {finishedRefinement : Bool} {ctx : AnalysisCtx}
    {code : List BytecodeInsn}, runPasses env m fuel finishedRefinement ctx code = .ok (some a) →
    a.code.map (·.flow) = code.map (·.flow)
  | 0, _, _, _, h => by cases h
  | fuel + 1, finishedRefinement, ctx, code, h => by
    obtain ⟨iter, -, h⟩ := bind_eq_ok.mp h
    obtain ⟨s, hrun, h⟩ := bind_eq_ok.mp h
    have hflow := runPass_flow hrun
    split_ifs at h
    · exact (runPasses_flow h).trans hflow
    · exact (runPasses_flow h).trans hflow
    · obtain ⟨rfl⟩ := Option.some.inj (pure_eq_ok.mp h)
      exact hflow

theorem analyzeMethodCode_flow {fuel : Nat} (h : analyzeMethodCode fuel m = .ok (some a)) :
    a.code.map (·.flow) = m.code.code.map (·.flow) := by
  rw [analyzeMethodCode] at h
  split at h
  · cases h
  split_ifs at h <;> exact runPasses_flow h

/-! ### What the parser accepts -/

section

variable {mem : ByteMemory} {s s' : Slice} {pool : ConstantPool} {cf : ParsedClass}
  {method : ParsedMethod} {code : ParsedCode Attribute} {attr : Attribute} {fuel : Nat}

/-- The parser yields no `Code` attribute. -/
def YieldsNoCode (p : Parser (AttributeData Attribute)) : Prop :=
  ∀ {m s code s'}, ¬ p.Yields m s (.code code) s'

namespace YieldsNoCode

theorem bind {α : Type} {p : Parser α} {f : α → Parser (AttributeData Attribute)}
    (h : ∀ x, YieldsNoCode (f x)) : YieldsNoCode (p >>= f) := fun {_ _ _ _} hy => by
  obtain ⟨x, _, -, hf⟩ := yields_bind.mp hy
  exact h x hf

theorem pure {data : AttributeData Attribute} (h : ∀ code, data ≠ .code code) :
    YieldsNoCode (Pure.pure data) := fun {_ _ code _} hy => h code (yields_pure.mp hy).1.symm

theorem ite {c : Prop} [Decidable c] {p q : Parser (AttributeData Attribute)}
    (hp : YieldsNoCode p) (hq : YieldsNoCode q) : YieldsNoCode (if c then p else q) := by
  split_ifs
  · exact hp
  · exact hq

end YieldsNoCode

theorem code_of_attributeData {nested : Parser Attribute} {name : Chars}
    (h : (parseAttributeData pool nested name).Yields mem s (.code code) s') :
    ∃ s'', (parseCodeAttribute pool nested).Yields mem s code s'' := by
  unfold parseAttributeData parseEnclosingMethod at h
  by_cases hname : utf8Equals name "Code"
  · rw [if_pos hname] at h
    simp only [yields_bind, yields_pure] at h
    obtain ⟨_, _, hcode, heq, -⟩ := h
    obtain rfl := AttributeData.code.inj heq
    exact ⟨_, hcode⟩
  · rw [if_neg hname] at h
    refine absurd h ?_
    -- the other cases end in a constructor of their own
    repeat' first
      | refine YieldsNoCode.ite ?_ ?_
      | refine YieldsNoCode.bind fun _ => ?_
      | exact YieldsNoCode.pure fun _ heq => by cases heq

theorem code_of_attribute : ∀ {fuel : Nat}, (parseAttribute pool fuel).Yields mem s attr s' →
    attr.data = .code code →
    ∃ fuel s₁ s₂, (parseCodeAttribute pool (parseAttribute pool fuel)).Yields mem s₁ code s₂
  | 0, h, _ => absurd h yields_fail
  | fuel + 1, h, hdata => by
    unfold parseAttribute at h
    simp only [yields_bind, yields_withSlice, yields_pure] at h
    obtain ⟨_, _, -, _, _, -, data, _, ⟨-, -, _, hparse⟩, rfl, -⟩ := h
    obtain rfl : data = .code code := hdata
    obtain ⟨_, hcode⟩ := code_of_attributeData hparse
    exact ⟨_, _, _, hcode⟩

theorem code_of_method (h : (parseMethod pool fuel).Yields mem s method s')
    (hcode : method.code = some code) :
    ∃ fuel s₁ s₂, (parseCodeAttribute pool (parseAttribute pool fuel)).Yields mem s₁ code s₂ := by
  unfold parseMethod at h
  simp only [yields_bind, yields_lift, yields_pure] at h
  obtain ⟨_, _, -, _, _, -, _, _, -, _, _, -, _, _, -, attributes, _, hattrs, rfl, -⟩ := h
  obtain ⟨attr, hmem, heq⟩ := List.exists_of_findSome?_eq_some hcode
  obtain ⟨_, _, hattr⟩ := yields_of_mem_times hattrs attr (List.mem_reverse.mp hmem)
  split at heq
  · rename_i data hdata
    obtain rfl := Option.some.inj heq
    exact code_of_attribute hattr hdata
  · cases heq

/-- A method of the class is one that was parsed, with what the loop sets in it. -/
theorem method_of_classfile (h : parseClassfile.Yields mem s cf s') (hmethod : method ∈ cf.methods) :
    ∃ pool fuel s₁ s₂ parsed maybeMissingSmt inMethodHandle k,
      (parseMethod pool fuel).Yields mem s₁ parsed s₂ ∧
      method = markMethod maybeMissingSmt inMethodHandle k parsed := by
  unfold parseClassfile at h
  simp only [yields_bind, yields_remaining] at h
  obtain ⟨_, _, ⟨rfl, rfl⟩, magic, _, -, h⟩ := h
  split_ifs at h
  · exact absurd h yields_fail
  · simp only [yields_bind, yields_lift] at h
    obtain ⟨_, _, -, _, _, -, pool, _, -, _, _, -, _, _, -, _, _, -, _, _, -, _, _, -, h⟩ := h
    obtain ⟨_, _, -, _, _, -, _, _, -, _, _, -, methods, _, hmethods, h⟩ := h
    obtain ⟨_, _, -, _, _, -, _, _, -, h⟩ := h
    split_ifs at h
    · exact absurd h yields_fail
    · simp only [yields_bind, yields_lift, yields_pure] at h
      obtain ⟨_, _, -, rfl, -⟩ := h
      obtain ⟨k, hk, rfl⟩ := List.mem_mapIdx.mp hmethod
      obtain ⟨_, _, hparse⟩ := yields_of_mem_times hmethods _ (List.getElem_mem hk)
      exact ⟨pool, _, _, _, _, _, _, k, hparse, rfl⟩

theorem code_of_classfile (h : parseClassfile.Yields mem s cf s') (hmethod : method ∈ cf.methods)
    (hcode : method.code = some code) : ∃ pool fuel s₁ s₂,
      (parseCodeAttribute pool (parseAttribute pool fuel)).Yields mem s₁ code s₂ := by
  obtain ⟨pool, _, _, _, parsed, _, _, _, hparse, rfl⟩ := method_of_classfile h hmethod
  exact ⟨pool, code_of_method hparse hcode⟩

theorem mem_successors_iff {d : SwitchData} {i : Nat} :
    i ∈ d.successors ↔ i ∈ d.defaultTarget :: d.targets := by
  rw [SwitchData.successors, List.mem_append, List.mem_singleton, List.mem_cons, or_comm]

theorem mem_targets_of_branchOperands {insn : BytecodeInsn} {i : Nat}
    (h : i ∈ insn.branchOperands) : i ∈ insn.targets := by
  have hbranch : ∀ kind : InsnCode, kind.controlFlow ∈ [ControlFlow.goto, .jsr, .conditional] →
      kind.isBranch = true ∧ kind ≠ .tableswitch ∧ kind ≠ .lookupswitch := by
    intro kind
    cases kind <;> decide
  have htable : ∀ kind : InsnCode, kind.controlFlow = .tableswitch → kind = .tableswitch := by
    intro kind
    cases kind <;> decide
  have hlookup : ∀ kind : InsnCode, kind.controlFlow = .lookupswitch → kind = .lookupswitch := by
    intro kind
    cases kind <;> decide
  have hone : insn.kind.controlFlow ∈ [ControlFlow.goto, .jsr, .conditional] → i = insn.index →
      i ∈ insn.targets := fun hflow heq => by
    obtain ⟨hb, hne, hne'⟩ := hbranch _ hflow
    rw [BytecodeInsn.targets, if_neg hne, if_neg hne', if_pos hb]
    exact List.mem_singleton.mpr heq
  rw [BytecodeInsn.branchOperands] at h
  split at h
  next hk => exact hone (by simp [hk]) (List.mem_singleton.mp h)
  next hk => exact hone (by simp [hk]) (List.mem_singleton.mp h)
  next hk => exact hone (by simp [hk]) (List.mem_singleton.mp h)
  next hk =>
    rw [BytecodeInsn.targets, if_pos (htable _ hk)]
    exact mem_successors_iff.mp h
  next hk =>
    have hne : insn.kind ≠ .tableswitch := by simp [hlookup _ hk]
    rw [BytecodeInsn.targets, if_neg hne, if_pos (hlookup _ hk)]
    exact mem_successors_iff.mp h
  all_goals exact absurd h List.not_mem_nil

theorem targetsInCode (h : CodeConverted mem s code) : TargetsInCode code.attributeCode.code := by
  intro insn hmem i hi
  obtain ⟨raw, hraw, rfl⟩ := List.mem_map.mp hmem
  obtain ⟨k, hk, rfl⟩ := List.getElem_of_mem hraw
  have hstart := List.getElem?_eq_getElem (h.length ▸ hk)
  have htargets := (h.insns (List.getElem?_eq_getElem hk) hstart).targets
  -- each target is the index of an offset
  have hsome : (startsOf mem s)[i]?.map (fun p : Nat => (p : Int)) ∈
      (byteTargets mem (s.bytes + 8) _).map some :=
    htargets ▸ List.mem_map.mpr ⟨i, mem_targets_of_branchOperands hi, rfl⟩
  obtain ⟨_, -, hget⟩ := List.mem_map.mp hsome
  obtain ⟨_, hget, -⟩ := Option.map_eq_some_iff.mp hget.symm
  have hlt := (List.getElem?_eq_some_iff.mp hget).1
  simpa [ParsedCode.attributeCode, h.length] using hlt

theorem handlersInCode (h : CodeConverted mem s code) :
    ∀ i ∈ code.attributeCode.exceptionTable.map (·.handlerInsn), i < code.attributeCode.code.length := by
  intro i hi
  simp only [ParsedCode.attributeCode, List.map_map, List.mem_map, Function.comp_apply] at hi
  obtain ⟨e, he, rfl⟩ := hi
  obtain ⟨j, hj, rfl⟩ := List.getElem_of_mem he
  have hhandler := (h.exceptions (List.getElem?_eq_getElem hj)).handlerInsn
  have hlt := (List.getElem?_eq_some_iff.mp hhandler).1
  simpa [ParsedCode.attributeCode, h.length] using hlt

/-- A method that class parsing and the analysis accept runs past no end if and only if it has an
instruction and the last one, if a path comes to it, does not pass control to the next. -/
theorem accepted_staysInside_iff (h : parseClassfile.Yields mem s cf s')
    (hmethod : method ∈ cf.methods) (hcode : method.code = some code)
    (hanalysis : analyzeMethodCode fuel (method.cpMethod cf code) = .ok (some a)) :
    StaysInside a.code (code.attributeCode.exceptionTable.map (·.handlerInsn)) ↔
      EndsInside code.attributeCode.code (code.attributeCode.exceptionTable.map (·.handlerInsn)) := by
  obtain ⟨_, _, _, _, hparse⟩ := code_of_classfile h hmethod hcode
  have hconverted := parseCodeAttribute_converted hparse
  exact (staysInside_congr (analyzeMethodCode_flow hanalysis)).trans
    (staysInside_iff_endsInside (targetsInCode hconverted) (handlersInCode hconverted))

end

/-! ### A class file with one instruction -/

/-- The class file of `java/lang/Object` with a static method that is one instruction. -/
def oneInsnFile (opcode : UInt8) : List UInt8 :=
  [0xca, 0xfe, 0xba, 0xbe, 0, 0, 0, 61, 0, 6,
    7, 0, 2,
    1, 0, 16, 106, 97, 118, 97, 47, 108, 97, 110, 103, 47, 79, 98, 106, 101, 99, 116,
    1, 0, 1, 97,
    1, 0, 3, 40, 41, 86,
    1, 0, 4, 67, 111, 100, 101,
    0, 0x21, 0, 1, 0, 0, 0, 0, 0, 0, 0, 1,
    0, 8, 0, 3, 0, 4, 0, 1, 0, 5, 0, 0, 0, 13, 0, 0, 0, 0, 0, 0, 0, 1, opcode, 0, 0, 0, 0,
    0, 0]

/-- The file is accepted with a method of the given instructions, which is analysed in one pass. -/
def acceptsMethod (bytes : List UInt8) (kinds : List InsnCode) : Bool :=
  match (parseClassfile.run (memoryOf bytes) (sliceOf bytes)).2 with
  | .ok (cf, _) => cf.methods.any fun method => method.code.any fun code =>
    code.code.map (·.kind) = kinds &&
      match analyzeMethodCode 1 (method.cpMethod cf code) with
      | .ok (some _) => true
      | _ => false
  | .error _ => false

theorem exists_accepted {bytes : List UInt8} {kinds : List InsnCode}
    (h : acceptsMethod bytes kinds = true) : ∃ cf s' method code a,
      parseClassfile.Yields (memoryOf bytes) (sliceOf bytes) cf s' ∧ method ∈ cf.methods ∧
      method.code = some code ∧ code.code.map (·.kind) = kinds ∧
      analyzeMethodCode 1 (method.cpMethod cf code) = .ok (some a) := by
  rw [acceptsMethod] at h
  split at h
  · rename_i cf s' hyields
    obtain ⟨method, hmethod, h⟩ := List.any_eq_true.mp h
    obtain ⟨code, hcode, h⟩ := (Option.any_eq_true _ _).mp h
    obtain ⟨hkinds, h⟩ := (Bool.and_eq_true _ _).mp h
    split at h
    · rename_i a ha
      exact ⟨cf, s', method, code, a, hyields, hmethod, hcode, of_decide_eq_true hkinds, ha⟩
    · cases h
  · cases h

theorem kind_of_one {code : ParsedCode Attribute} {kind : InsnCode}
    (h : code.code.map (·.kind) = [kind]) :
    ∃ insn, code.attributeCode.code = [insn] ∧ insn.kind = kind := by
  obtain ⟨insn, rest, hcode, rfl, hrest⟩ := List.map_eq_cons_iff.mp h
  obtain rfl := List.map_eq_nil_iff.mp hrest
  exact ⟨insn.toBytecodeInsn, by rw [ParsedCode.attributeCode, hcode]; rfl, rfl⟩

/-- The one instruction is `return`. -/
theorem return_staysInside : ∃ cf s' method code a,
    parseClassfile.Yields (memoryOf (oneInsnFile 0xb1)) (sliceOf (oneInsnFile 0xb1)) cf s' ∧
      method ∈ cf.methods ∧ method.code = some code ∧
      analyzeMethodCode 1 (method.cpMethod cf code) = .ok (some a) ∧
      StaysInside a.code (code.attributeCode.exceptionTable.map (·.handlerInsn)) := by
  obtain ⟨cf, s', method, code, a, h, hmethod, hcode, hkinds, ha⟩ :=
    @exists_accepted (oneInsnFile 0xb1) [.return_] (by decide)
  refine ⟨cf, s', method, code, a, h, hmethod, hcode, ha,
    (accepted_staysInside_iff h hmethod hcode ha).mpr ?_⟩
  obtain ⟨insn, hone, hkind⟩ := kind_of_one hkinds
  rw [hone]
  refine ⟨Nat.zero_lt_one, fun insn' hlast _ => ?_⟩
  obtain rfl : insn = insn' := Option.some.inj hlast
  rw [hkind]
  exact ⟨rfl, fun h => by cases h⟩

/-- The one instruction is `nop`. -/
theorem nop_runsPast : ∃ cf s' method code a,
    parseClassfile.Yields (memoryOf (oneInsnFile 0)) (sliceOf (oneInsnFile 0)) cf s' ∧
      method ∈ cf.methods ∧ method.code = some code ∧
      analyzeMethodCode 1 (method.cpMethod cf code) = .ok (some a) ∧
      ¬ StaysInside a.code (code.attributeCode.exceptionTable.map (·.handlerInsn)) := by
  obtain ⟨cf, s', method, code, a, h, hmethod, hcode, hkinds, ha⟩ :=
    @exists_accepted (oneInsnFile 0) [.nop] (by decide)
  refine ⟨cf, s', method, code, a, h, hmethod, hcode, ha, fun hstays => ?_⟩
  obtain ⟨insn, hone, hkind⟩ := kind_of_one hkinds
  have hflow : a.code.map (·.flow) = [insn].map (·.flow) :=
    (analyzeMethodCode_flow ha).trans (congrArg (List.map (·.flow)) hone)
  have hnext : 1 ∈ insn.leads 0 := by
    simp [BytecodeInsn.leads, InsnCode.fallsThrough, hkind, InsnCode.controlFlow]
  have := (staysInside_congr hflow).mp hstays 1 (.leads .entry rfl hnext)
  exact absurd this (Nat.lt_irrefl 1)

end BJvm

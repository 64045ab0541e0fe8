import BJvm.Interpreter.FormalMachine
import BJvm.Proofs.AnalyzedCode
import BJvm.Proofs.CachedRuns
import BJvm.Proofs.LocalFree

/-!
# The analysed code does what the class file says

Each instruction of the specification's machine is answered by one of the plain interpreter over the
analysed code: the locals are where the renumbering has put them, and the narrower forms of the stack
instructions move values as the instructions themselves move entries.
-/

namespace BJvm

open Parsing

variable {env : AnalysisEnv} {ctx ctx' : AnalysisCtx} {insn insn' : BytecodeInsn} {m : CpMethod}
  {a : MethodAnalysis} {i p : Nat}

/-- What the analysis makes of an instruction that it finds on the given kinds. -/
inductive Reworked (maxLocals : Nat) (swizzle : List Nat) (kinds : List TypeKind)
    (insn : BytecodeInsn) : BytecodeInsn → Prop
  | local_ {kind : TypeKind} {delta : Int} {tosBefore tosAfter : ReducedTosKind} :
      localKind insn.kind = some kind → insn.index < maxLocals →
      Reworked maxLocals swizzle kinds insn
        { insn with index := swizzle.getD insn.index 0, delta, tosBefore, tosAfter }
  | iinc {tosBefore tosAfter : ReducedTosKind} : insn.kind = .iinc → insn.iincIndex < maxLocals →
      Reworked maxLocals swizzle kinds insn
        { insn with iincIndex := swizzle.getD insn.iincIndex 0, tosBefore, tosAfter }
  | shuffle {ps rest : List TypeKind} {kind : InsnCode} {tosBefore tosAfter : ReducedTosKind} :
      shuffleStack insn.kind kinds = .ok (ps, rest, kind) →
      Reworked maxLocals swizzle kinds insn { insn with kind, tosBefore, tosAfter }
  | other {delta : Int} {tosBefore tosAfter : ReducedTosKind} : localKind insn.kind = none →
      insn.kind ≠ .iinc → Interpreter.operandKinds insn ≠ none →
      Reworked maxLocals swizzle kinds insn { insn with delta, tosBefore, tosAfter }

end BJvm

namespace BJvm.Interpreter

open ClassFile StackValue Function Simulation

variable {W : Type} {vm : Vm W} {fm : FrameMethod} {s s' : Plain W} {v w : Value} {e : FormalEntry}
  {vs vs' : List Value} {es : List FormalEntry}

/-! ### Entries -/

theorem collapse_narrow (h : v.kind.isWide = false) (es : List FormalEntry) :
    collapse (⟨v, true⟩ :: es) = (collapse es).map (v :: ·) := by
  cases es <;> simp [collapse, h]

theorem collapse_wide (h : v.kind.isWide = true) (es : List FormalEntry) :
    collapse (⟨v, true⟩ :: ⟨v, false⟩ :: es) = (collapse es).map (v :: ·) := by
  simp [collapse, h]

theorem collapse_torn (v : Value) (es : List FormalEntry) : collapse (⟨v, false⟩ :: es) = none := by
  cases es <;> simp [collapse]

theorem collapse_parted (h : v.kind.isWide = true) (he : e ≠ ⟨v, false⟩) (es : List FormalEntry) :
    collapse (⟨v, true⟩ :: e :: es) = none := by
  simp [collapse, h, he]

theorem expand_narrow (h : v.kind.isWide = false) (vs : List Value) :
    expand (v :: vs) = ⟨v, true⟩ :: expand vs := by
  simp [expand, h]

theorem expand_wide (h : v.kind.isWide = true) (vs : List Value) :
    expand (v :: vs) = ⟨v, true⟩ :: ⟨v, false⟩ :: expand vs := by
  simp [expand, h]

@[simp] theorem collapse_expand : ∀ vs : List Value, collapse (expand vs) = some vs
  | [] => rfl
  | v :: vs => by
    rcases h : v.kind.isWide
    · rw [expand_narrow h, collapse_narrow h, collapse_expand vs, Option.map_some]
    · rw [expand_wide h, collapse_wide h, collapse_expand vs, Option.map_some]

@[simp] theorem collapse_nil : collapse [] = some [] := rfl

/-- The narrower form moves whole values as the instruction moves entries. -/
theorem formalShuffle_rewritten {k r : InsnCode} {ps rest : List TypeKind}
    (h : formalShuffle k vs = some vs') (hr : shuffleStack k (vs.map (·.kind)) = .ok (ps, rest, r)) :
    shuffleSlots r vs = some vs' := by
  have hmem := mem_of_shuffleStack hr
  simp only [shuffleKinds, List.mem_cons, List.not_mem_nil, or_false] at hmem
  rw [formalShuffle] at h
  rcases vs with _ | ⟨a, vs⟩
  · rcases hmem with rfl | rfl | rfl | rfl | rfl | rfl | rfl | rfl | rfl <;> cases hr
  -- by the number of values that the instruction looks at
  have hgroups : (k = .dup ∨ k = .pop) ∨ (k = .dupX1 ∨ k = .dup2 ∨ k = .pop2 ∨ k = .swap) ∨
      (k = .dupX2 ∨ k = .dup2X1) ∨ k = .dup2X2 := by
    tauto
  cases ha : a.kind.isWide <;> rcases hgroups with hk | hk | hk | rfl
  case false.inl | true.inl =>
    rcases hk with rfl | rfl <;>
      simp [shuffleStack, popVal, bind, Except.bind, pure, Except.pure, throw, throwThe,
        MonadExceptOf.throw, *] at hr <;>
      obtain ⟨-, -, rfl⟩ := hr <;>
      simp [expand_narrow, expand_wide, shuffleSlots, collapse_narrow, collapse_parted, *]
        at h ⊢ <;>
      exact h
  case false.inr.inl | true.inr.inl =>
    rcases vs with _ | ⟨b, vs⟩ <;> (try cases hb : b.kind.isWide) <;>
      rcases hk with rfl | rfl | rfl | rfl <;>
      simp [shuffleStack, popVal, bind, Except.bind, pure, Except.pure, throw, throwThe,
        MonadExceptOf.throw, *] at hr <;>
      obtain ⟨-, -, rfl⟩ := hr <;>
      simp [expand_narrow, expand_wide, shuffleSlots, collapse_narrow, collapse_wide, *]
        at h ⊢ <;>
      exact h
  case false.inr.inr.inl | true.inr.inr.inl =>
    rcases vs with _ | ⟨b, _ | ⟨c, vs⟩⟩ <;> (try cases hb : b.kind.isWide) <;>
      (try cases hc : c.kind.isWide) <;> rcases hk with rfl | rfl <;>
      simp [shuffleStack, popVal, bind, Except.bind, pure, Except.pure, throw, throwThe,
        MonadExceptOf.throw, *] at hr <;>
      obtain ⟨-, -, rfl⟩ := hr <;>
      simp [expand_narrow, expand_wide, shuffleSlots, collapse_narrow, collapse_wide,
        collapse_parted, *] at h ⊢ <;>
      exact h
  case false.inr.inr.inr | true.inr.inr.inr =>
    rcases vs with _ | ⟨b, _ | ⟨c, _ | ⟨d, vs⟩⟩⟩ <;> (try cases hb : b.kind.isWide) <;>
      (try cases hc : c.kind.isWide) <;> (try cases hd : d.kind.isWide) <;>
      simp [shuffleStack, popVal, bind, Except.bind, pure, Except.pure, throw, throwThe,
        MonadExceptOf.throw, *] at hr <;>
      obtain ⟨-, -, rfl⟩ := hr <;>
      simp [expand_narrow, expand_wide, shuffleSlots, collapse_narrow, collapse_wide,
        collapse_parted, *] at h ⊢ <;>
      exact h

/-! ### Accesses to locals -/

theorem wellFormed_local {insn : Insn} (hw : insn.WellFormed)
    (hk : localKind insn.kind ≠ none ∨ insn.kind = .iinc) : insn.code = .parsed insn.kind := by
  rcases hc : insn.code with k | r
  · simp only [Insn.WellFormed, hc] at hw
    rcases hw with rfl | ⟨-, hkind⟩ | ⟨-, hkind⟩ | ⟨-, hkind, -⟩
    · rfl
    all_goals
      rw [hkind] at hk
      rcases hk with hk | hk
      · exact absurd rfl hk
      · cases hk
  · have hnone : localKind insn.kind = none ∧ insn.kind ≠ .iinc := by
      rw [Insn.WellFormed, hc] at hw
      cases r <;> simp only [List.mem_cons, List.not_mem_nil, or_false] at hw <;>
        grind [localKind]
    rcases hk with hk | hk
    · exact absurd hnone.1 hk
    · exact absurd hk hnone.2

theorem shuffle_local (hc : s.insn.code = .parsed s.insn.kind)
    (hk : localKind s.insn.kind ≠ none ∨ s.insn.kind = .iinc) : shuffle s.insn.code s.stack = none := by
  refine shuffle_none fun k hmem hcode => ?_
  obtain rfl : s.insn.kind = k := InsnCodeKind.parsed.inj (hc.symm.trans hcode)
  rcases hk with hk | hk
  · exact hk (effect_of_mem hmem).2.1
  · rw [hk] at hmem
    exact absurd hmem (by decide)

theorem wellFormed_shuffle {insn : Insn} (hw : insn.WellFormed) (hk : insn.kind ∈ shuffleKinds) :
    insn.code = .parsed insn.kind := by
  rcases hc : insn.code with k | r
  · simp only [Insn.WellFormed, hc] at hw
    rcases hw with rfl | ⟨-, hkind⟩ | ⟨-, hkind⟩ | ⟨-, hkind, -⟩
    · rfl
    all_goals
      rw [hkind] at hk
      exact absurd hk (by decide)
  · exact absurd hk (resolved_kind hw hc)

theorem ne_iinc_of_mem {k : InsnCode} (h : k ∈ shuffleKinds) : k ≠ .iinc := by
  rintro rfl
  exact absurd h (by decide)

theorem localFree_of_wellFormed {insn : Insn} (hw : insn.WellFormed)
    (hl : localKind insn.kind = none) (hi : insn.kind ≠ .iinc) : insn.code.LocalFree := by
  rcases hc : insn.code with k | r
  · simp only [Insn.WellFormed, hc] at hw
    rcases hw with rfl | ⟨rfl, -⟩ | ⟨rfl, -⟩ | ⟨rfl, -, -⟩
    · exact ⟨hl, hi⟩
    all_goals exact ⟨rfl, by decide⟩
  · trivial

theorem canonical_localValue (kind : TypeKind) (x : StackValue) :
    canonical kind (localValue kind x) = localValue kind x := by
  cases kind <;> simp [canonical, localValue]

theorem eval_load {k : InsnCode} {kind : TypeKind} (hl : localKind k = some kind)
    (hload : k.isLoad = true) :
    evalParsed vm k s ops = .next s (localValue kind (s.locals s.insn.index)) := by
  cases k <;> cases hl <;> cases hload <;> rfl

theorem eval_store {k : InsnCode} {kind : TypeKind} (ops : List StackValue)
    (hl : localKind k = some kind) (hload : k.isLoad = false) : ∃ x, localValue kind x = localValue kind (operand ops 0) ∧
      evalParsed vm k s ops = .next (s.setLocal s.insn.index x) 0 := by
  cases k <;> cases hl <;> cases hload <;> exact ⟨_, by simp [localValue], rfl⟩

theorem step_load {kind : TypeKind} (hc : s.insn.code = .parsed s.insn.kind)
    (hl : localKind s.insn.kind = some kind) (hload : s.insn.kind.isLoad = true) :
    s.step vm fm = some (.running { s with
      pc := s.pc + 1
      stack := ⟨kind, localValue kind (s.locals s.insn.index)⟩ :: s.stack }) := by
  have hop := operandKinds_of_local hl
  rw [if_pos hload] at hop
  rw [step_operands (shuffle_local hc (.inl (by simp [hl]))) hop rfl, hc, eval, eval_load hl hload]
  simp [Plain.finish, results, localKind_ne_void hl, canonical_localValue]

theorem step_store {kind : TypeKind} {v : Value} {stack : List Value}
    (hc : s.insn.code = .parsed s.insn.kind) (hl : localKind s.insn.kind = some kind)
    (hload : s.insn.kind.isLoad = false) (hv : v.kind = kind) (hs : s.stack = v :: stack) :
    ∃ x, localValue kind x = localValue kind v.word ∧
      s.step vm fm = some (.running { s with
        locals := update s.locals s.insn.index x
        pc := s.pc + 1
        stack }) := by
  have hop := operandKinds_of_local hl
  rw [if_neg (by simp [hload])] at hop
  rw [step_operands (shuffle_local hc (.inl (by simp [hl]))) hop (by simp [hs, hv]), hc, eval, hs]
  obtain ⟨x, hx, heval⟩ := @eval_store W vm s _ _ [v.word] hl hload
  refine ⟨x, hx, ?_⟩
  show Plain.finish vm fm _ _ (evalParsed vm s.insn.kind s [v.word]) = _
  rw [heval]
  rfl

theorem step_iinc (hc : s.insn.code = .parsed s.insn.kind) (hk : s.insn.kind = .iinc) :
    ∃ x, localValue .int x = .ofInt
        ((s.locals s.insn.iincIndex).low + BitVec.ofInt 32 s.insn.iincConst) ∧
      s.step vm fm = some (.running { s with
        locals := update s.locals s.insn.iincIndex x
        pc := s.pc + 1 }) := by
  have hop : operandKinds s.insn.toBytecodeInsn = some ([], []) := by
    unfold operandKinds
    rw [hk]
  rw [step_operands (shuffle_local hc (.inr hk)) hop rfl, hc, hk]
  exact ⟨_, by simp [localValue], rfl⟩

/-! ### The simulation -/

/-- The state of the plain interpreter stands for that of the specification's machine: each value
that can be loaded is where the renumbering has put it. -/
structure Renumbered (maxLocals : Nat) (swizzle : List Nat) (s : Plain W) (f : Formal W) : Prop where
  heap : s.heap = f.heap
  pc : s.pc = f.pc
  stack : s.stack = f.stack
  locals : ∀ {j kind v}, f.load j kind = some v →
    j < maxLocals ∧ localValue kind (s.locals (swizzle.getD j 0)) = v.word

/-- The ends of the two runs are the same. -/
def Same (maxLocals : Nat) (swizzle : List Nat) : PlainConfig W → FormalConfig W → Prop
  | .running s, .running f => Renumbered maxLocals swizzle s f
  | .returned heap v, .returned heap' v' => heap = heap' ∧ v = v'
  | .thrown heap e, .thrown heap' e' => heap = heap' ∧ e = e'
  | _, _ => False

theorem Formal.load_eq_some {f : Formal W} {j : Nat} {kind : TypeKind} {v : Value} :
    f.load j kind = some v ↔ f.locals j = some ⟨v, true⟩ ∧ v.kind = kind ∧
      (kind.isWide → f.locals (j + 1) = some ⟨v, false⟩) := by
  unfold Formal.load
  split
  · rename_i w hw
    rw [Option.ite_none_right_eq_some, hw]
    constructor
    · rintro ⟨hcond, heq⟩
      obtain rfl := Option.some.inj heq
      exact ⟨rfl, hcond⟩
    · rintro ⟨heq, hcond⟩
      obtain rfl : w = v := (FormalEntry.mk.inj (Option.some.inj heq)).1
      exact ⟨hcond, rfl⟩
  · rename_i hne
    refine iff_of_false (by simp) fun h => hne v h.1

/-- What can be loaded behind a store. -/
theorem Formal.load_store {f : Formal W} {i j : Nat} {kind : TypeKind} {v w : Value}
    (h : (f.store i w).load j kind = some v) :
    j = i ∧ v = w.asLocal ∧ w.kind = kind ∨ j ≠ i ∧ f.load j kind = some v := by
  rw [load_eq_some] at h ⊢
  simp only [store] at h
  by_cases hj : j = i
  · rw [if_pos hj] at h
    obtain rfl : w.asLocal = v := (FormalEntry.mk.inj (Option.some.inj h.1)).1
    exact .inl ⟨hj, rfl, h.2.1⟩
  · refine .inr ⟨hj, ?_⟩
    rw [if_neg hj] at h
    obtain ⟨h1, h2, h3⟩ := h
    split_ifs at h1 with hhalf
    · simp at h1
    refine ⟨h1, h2, fun hwide => ?_⟩
    have h3 := h3 hwide
    split_ifs at h3 with hi hi'
    · simp at h3
    · exact absurd (Nat.succ.inj hi'.2) hj
    · exact h3

variable {maxLocals : Nat} {swizzle : List Nat} {f : Formal W} {P : TypedCode}

theorem Renumbered.store (h : Renumbered maxLocals swizzle s f) (hn : Renumbers maxLocals swizzle)
    {j : Nat} (hj : j < maxLocals) {v : Value} {x : StackValue}
    (hx : localValue v.kind x = localValue v.kind v.word) (stack : List Value) :
    Renumbered maxLocals swizzle
      { s with locals := update s.locals (swizzle.getD j 0) x, pc := s.pc + 1, stack }
      { f.store j v with pc := f.pc + 1, stack } where
  heap := h.heap
  pc := congrArg (· + 1) h.pc
  stack := rfl
  locals := fun {i kind w} hload => by
    have hload : (f.store j v).load i kind = some w := hload
    rcases Formal.load_store hload with ⟨rfl, rfl, rfl⟩ | ⟨hne, hload⟩
    · refine ⟨hj, ?_⟩
      simp only [update_self]
      exact hx
    · obtain ⟨hi, hw⟩ := h.locals hload
      refine ⟨hi, ?_⟩
      simp only [update_of_ne fun heq => hne (hn.inj hi hj heq)]
      exact hw

theorem Renumbered.next (h : Renumbered maxLocals swizzle s f) (stack : List Value) :
    Renumbered maxLocals swizzle { s with pc := s.pc + 1, stack } { f with pc := f.pc + 1, stack } :=
  ⟨h.heap, congrArg (· + 1) h.pc, rfl, h.locals⟩

theorem Renumbered.behind (h : Renumbered maxLocals swizzle s f) (p : PlainConfig W) :
    Same maxLocals swizzle (p.withLocals s.locals) (f.behind p) := by
  cases p with
  | running s' => exact ⟨rfl, rfl, rfl, h.locals⟩
  | returned heap v => exact ⟨rfl, rfl⟩
  | thrown heap e => exact ⟨rfl, rfl⟩

/-- Each instruction of the class file is answered by the analysed one. -/
theorem Renumbered.step {code : Nat → BytecodeInsn} {f' : FormalConfig W}
    (hn : Renumbers maxLocals swizzle)
    (hcode : ∀ p < P.size, Reworked maxLocals swizzle (P.kindsAt p) (code p)
      (P.code p).toBytecodeInsn)
    (ht : Typed P s) (h : Renumbered maxLocals swizzle s f) (hf : f.step vm fm code = some f') :
    ∃ p, s.step vm fm = some p ∧ Same maxLocals swizzle p f' := by
  have hb : Beside P s s := .refl ht.runs
  have hrework := hcode s.pc ht.pc
  have hform := hb.wellFormed ht.pc
  rw [← hb.parsed ht.pc] at hrework
  rw [Formal.step, ← h.pc] at hf
  generalize hinsn : s.insn.toBytecodeInsn = insn' at hrework
  generalize code s.pc = insn at hf hrework
  cases hrework with
  | @local_ kind delta tosBefore tosAfter hl hlt =>
    have hkind : s.insn.kind = insn.kind := by rw [hinsn]
    have hindex : s.insn.index = swizzle.getD insn.index 0 := by rw [hinsn]
    have hc := wellFormed_local hform (.inl (by rw [hkind, hl]; simp))
    rw [hl] at hf
    dsimp only at hf
    rw [← hkind] at hl hf
    split_ifs at hf with hload
    · obtain ⟨v, hv, rfl⟩ := Option.map_eq_some_iff.mp hf
      obtain ⟨-, hword⟩ := h.locals hv
      obtain ⟨-, rfl, -⟩ := Formal.load_eq_some.mp hv
      refine ⟨_, step_load hc hl hload, ?_⟩
      rw [hindex, hword, h.stack]
      exact h.next _
    · rcases hstack : f.stack with _ | ⟨v, stack⟩
      · simp [hstack] at hf
      · rw [hstack] at hf
        obtain ⟨hv, hf⟩ := Option.ite_none_right_eq_some.mp hf
        obtain rfl := Option.some.inj hf
        obtain ⟨x, hx, hstep⟩ := @step_store W vm fm s _ _ _ hc hl (by simpa using hload) hv
          (h.stack.trans hstack)
        refine ⟨_, hstep, ?_⟩
        rw [hindex]
        exact h.store hn hlt (hv ▸ hx) stack
  | iinc hk hlt =>
    have hkind : s.insn.kind = .iinc := by rw [hinsn]; exact hk
    have hindex : s.insn.iincIndex = swizzle.getD insn.iincIndex 0 := by rw [hinsn]
    have hconst : s.insn.iincConst = insn.iincConst := by rw [hinsn]
    have hc := wellFormed_local hform (.inr hkind)
    rw [hk, if_pos rfl] at hf
    obtain ⟨v, hv, rfl⟩ := Option.map_eq_some_iff.mp hf
    obtain ⟨-, hword⟩ := h.locals hv
    obtain ⟨x, hx, hstep⟩ := @step_iinc W vm fm s hc hkind
    refine ⟨_, hstep, ?_⟩
    rw [hindex, hconst] at hx
    rw [hindex, ← h.stack]
    have hlow : v.word.low = (s.locals (swizzle.getD insn.iincIndex 0)).low := by
      rw [← hword]
      simp [localValue]
    refine h.store hn hlt (v := ⟨.int, _⟩) ?_ s.stack
    rw [hx, hlow]
    simp [localValue]
  | @shuffle ps rest kind tosBefore tosAfter hshuffle =>
    have hmem := mem_of_shuffleStack hshuffle
    have hkind : s.insn.kind = kind := by rw [hinsn]
    have hc := wellFormed_shuffle hform (hkind ▸ mem_rewritten hshuffle)
    rw [(effect_of_mem hmem).2.1] at hf
    dsimp only at hf
    rw [if_neg (ne_iinc_of_mem hmem), if_pos (operandKinds_shuffle hmem)] at hf
    obtain ⟨stack, hstack, rfl⟩ := Option.map_eq_some_iff.mp hf
    rw [← h.stack] at hstack
    rw [← ht.kinds] at hshuffle
    refine ⟨_, step_shuffle ?_, h.next stack⟩
    rw [hc, shuffle_parsed, hkind]
    exact formalShuffle_rewritten hstack hshuffle
  | other hl hi hop =>
    have hkind : s.insn.kind = insn.kind := by rw [hinsn]
    rw [hl] at hf
    dsimp only at hf
    rw [if_neg hi, if_neg hop] at hf
    obtain ⟨p, hp, rfl⟩ := Option.map_eq_some_iff.mp hf
    have hs : f.plain.withLocals s.locals = s := by
      rw [Plain.withLocals, Formal.plain, ← h.heap, ← h.pc, ← h.stack]
    have hinsn : f.plain.insn = s.insn := by
      rw [← hs]
      rfl
    refine ⟨p.withLocals s.locals, ?_, h.behind p⟩
    rw [← hs, step_withLocals (hinsn ▸ localFree_of_wellFormed hform (hkind ▸ hl) (hkind ▸ hi)), hp]
    rfl

/-! ### The arguments -/

theorem width_reprKind (d : FieldDescriptor) : d.reprKind.isWide = d.isWide := by
  unfold FieldDescriptor.reprKind FieldDescriptor.isWide
  split_ifs with href hdim
  · rw [href]
    rfl
  · simp [hdim, TypeKind.isWide]
  · have hdim : d.dimensions = 0 := by simpa using hdim
    rw [hdim]
    cases d.baseKind <;> rfl

theorem argWidths_eq (m : CpMethod) :
    m.argWidths = (argumentKinds m).map fun k => if k.isWide then 2 else 1 := by
  rw [CpMethod.argWidths, argumentKinds, List.map_append, List.map_map]
  congr 1
  · split_ifs <;> rfl
  · exact List.map_congr_left fun d _ => by simp [width_reprKind]

theorem argumentLocals_leads {i : Nat} {v : Value} : ∀ {vs : List Value} {j : Nat},
    argumentLocals j vs i = some ⟨v, true⟩ → ∃ (k : Nat) (w : Value), vs[k]? = some w ∧
      v = w.asLocal ∧ i = j + ((vs.take k).map fun w => if w.kind.isWide then 2 else 1).sum
  | [], j, h => by cases h
  | w :: vs, j, h => by
    rw [argumentLocals] at h
    split_ifs at h with hi hhalf hwide
    · obtain rfl := (FormalEntry.mk.inj (Option.some.inj h)).1
      exact ⟨0, w, rfl, rfl, hi⟩
    · simp at h
    all_goals
      obtain ⟨k, w', hk, hv, hi⟩ := argumentLocals_leads h
      refine ⟨k + 1, w', hk, hv, ?_⟩
      simp [hi, hwide, Nat.add_assoc]

variable {m : CpMethod} {a : MethodAnalysis} {insns : Nat → ParsedInsn}
  {table : List ParsedException} {heap : Heap W} {machine : Machine W} {args : List Value}

theorem Renumbered.enter {locals : List TypeKind}
    (hentry : localsOnMethodEntry m = some (locals, swizzle))
    (hargs : args.map (·.kind) = argumentKinds m) (hm : FrameEntered machine heap args) :
    Renumbered m.code.maxLocals swizzle ⟨heap, machine.locals, 0, []⟩ (.enter heap args) where
  heap := rfl
  pc := rfl
  stack := rfl
  locals := fun {j kind v} hload => by
    obtain ⟨hj, rfl, -⟩ := Formal.load_eq_some.mp hload
    obtain ⟨k, w, hk, rfl, hslot⟩ := argumentLocals_leads hj
    have hwidths : m.argWidths = args.map fun w => if w.kind.isWide then 2 else 1 := by
      rw [argWidths_eq, ← hargs, List.map_map]
      rfl
    have hlt : k < m.argWidths.length := by
      rw [hwidths, List.length_map]
      exact (List.getElem?_eq_some_iff.mp hk).1
    have hj : j = m.argSlot k := by
      rw [hslot, CpMethod.argSlot, hwidths, Nat.zero_add, List.map_take]
    have hswizzle := swizzle_argument hentry hlt
    rw [hj, List.getD, hswizzle, Option.getD_some]
    refine ⟨?_, hm.locals k w hk⟩
    rw [← (localsOnMethodEntry_renumbers hentry).length]
    exact (List.getElem?_eq_some_iff.mp hswizzle).1

/-! ### Runs -/

theorem Ready.wellTyped (h : Ready vm m a insns table heap) :
    (TypedCode.ofAnalysis a insns).WellTyped (.ofAnalysis m a table) := by
  obtain ⟨fuel, ha⟩ := h.analyzed
  exact (analyzed_wellTyped ha h.parsed h.trusted).1

theorem Ready.typed (h : Ready vm m a insns table heap) (locals : Nat → StackValue) :
    Typed (.ofAnalysis a insns) ⟨heap, locals, 0, []⟩ := by
  obtain ⟨fuel, ha⟩ := h.analyzed
  exact ⟨h.nonempty, (analyzed_wellTyped ha h.parsed h.trusted).2.symm, h.runs⟩

/-- The relation of the simulation. -/
def StandsFor (maxLocals : Nat) (swizzle : List Nat) (P : TypedCode) (p : PlainConfig W)
    (f : FormalConfig W) : Prop :=
  Same maxLocals swizzle p f ∧ p.Typed P

theorem Same.final {p : PlainConfig W} {f : FormalConfig W} (h : Same maxLocals swizzle p f)
    (hf : f.Ended) : Final (fun p p' => p.step vm fm = some p') p := by
  rcases p with s | _ | _
  · rcases f with f | _ | _
    · exact hf.elim
    all_goals exact h.elim
  all_goals exact nofun

end BJvm.Interpreter

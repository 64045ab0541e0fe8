import BJvm.Jit.Branches
import BJvm.Proofs.ReferenceBranches

/-!
# Conditional branches in WebAssembly

A comparison depends on the order of its operands only, in the interpreter as in WebAssembly
(`compareLiterals_eq`, `compareResult_eq`).  So what is emitted agrees with the interpreter order by
order.
-/

namespace BJvm.DumbJit

open Interpreter WasmUtils

variable {c : LoweringCtx} {locals : BitVec 32 → Literal} {insn branch : BytecodeInsn}
  {a b : BitVec 32} {cond : BitVec 32 → BitVec 32 → Bool} {taken notTaken target : BlockId}
  {x y : Literal} {result : BitVec 64}

/-! ### The interpreter -/

section

variable {W : Type} {vm : Vm W} {fm : FrameMethod} {m : Machine W} {reg : BitVec 64} {tos : Tos}

/-- A comparison with zero looks at one value. -/
theorem condition_below {kind : InsnCode} (hcond : branchCondition kind = some cond)
    (hzero : comparesZero kind = true) : cond 0 b = cond a b := by
  unfold branchCondition at hcond
  split at hcond
  case h_17 => cases hcond
  all_goals obtain rfl := Option.some.inj hcond
  all_goals first | rfl | exact absurd hzero (by decide)

theorem jmpTableInt_against0 {kind : InsnCode} (hcond : branchCondition kind = some cond)
    (hzero : comparesZero kind = true) :
    jmpTableInt vm fm (.parsed kind) = some (intBranchAgainst0 (cond 0)) := by
  unfold branchCondition at hcond
  split at hcond
  case h_17 => cases hcond
  all_goals obtain rfl := Option.some.inj hcond
  all_goals first | rfl | exact absurd hzero (by decide)

theorem jmpTableInt_intBranch {kind : InsnCode} (hcond : branchCondition kind = some cond)
    (hzero : comparesZero kind = false) (hint : kind ∉ [.ifAcmpeq, .ifAcmpne]) :
    jmpTableInt vm fm (.parsed kind) = some (intBranch cond) := by
  unfold branchCondition at hcond
  split at hcond
  case h_17 => cases hcond
  case h_10 | h_12 => exact absurd (by decide) hint
  all_goals obtain rfl := Option.some.inj hcond
  all_goals first | rfl | exact absurd hzero (by decide)

/-- The handler of a branch goes by the condition.  It compares references as whole words. -/
theorem branch_handler (hcode : m.insn.code = .parsed insn.kind)
    (hcond : branchCondition insn.kind = some cond) (hfuel : m.fuel ≠ 0)
    (hword : insn.kind ∈ [.ifAcmpeq, .ifAcmpne] → (m.stack (m.sp - 2) == reg) =
      (StackValue.low (m.stack (m.sp - 2)) == StackValue.low reg)) :
    (dispatch vm fm m (.int reg)).bind Next.pc? =
      some (if cond (StackValue.low (m.stack (m.sp - 2))) (StackValue.low reg) then m.branchTarget
        else m.pc + 1) := by
  obtain ⟨test, pops, htable, htest⟩ : ∃ test pops,
      jmpTableInt vm fm (.parsed insn.kind) = some (branchIf test pops) ∧
        test { m with fuel := m.fuel - 1 } reg =
          cond (StackValue.low (m.stack (m.sp - 2))) (StackValue.low reg) := by
    generalize insn.kind = kind at hcond hword ⊢
    rcases hzero : comparesZero kind with _ | _
    · by_cases hint : kind ∈ [.ifAcmpeq, .ifAcmpne]
      · simp only [List.mem_cons, List.not_mem_nil, or_false] at hint
        rcases hint with rfl | rfl <;> obtain rfl := Option.some.inj hcond
        · exact ⟨fun m tos => m.stack (m.sp - 2) == tos, 2, rfl, hword (by decide)⟩
        · exact ⟨fun m tos => m.stack (m.sp - 2) != tos, 2, rfl,
            congrArg (!·) (hword (by decide))⟩
      · exact ⟨_, _, jmpTableInt_intBranch hcond hzero hint, rfl⟩
    · refine ⟨_, _, jmpTableInt_against0 hcond hzero, ?_⟩
      exact condition_below hcond hzero
  rw [dispatch, hcode, htable, ← htest]
  exact (branchIf_pc test pops m.fuel).trans (if_neg hfuel)

/-- The operands of a comparison on the stack and in the register. -/
def comparedBy (m : Machine W) : InsnCode → Tos → Option (Literal × Literal)
  | .lcmp, .int reg => some (.i64 (m.stack (m.sp - 2)), .i64 reg)
  | .fcmpl, .float reg | .fcmpg, .float reg =>
    some (.f32 (StackValue.low (m.stack (m.sp - 2))), .f32 reg)
  | .dcmpl, .double reg | .dcmpg, .double reg => some (.f64 (m.stack (m.sp - 2)), .f64 reg)
  | _, _ => none

theorem compare_handler (hcode : m.insn.code = .parsed insn.kind)
    (h : comparedBy m insn.kind tos = some (x, y)) :
    ∃ result, compareResult insn.kind x y = some result ∧
      dispatch vm fm m tos = some (nextInt { m with sp := m.sp - 1 } result) := by
  generalize insn.kind = kind at hcode h
  unfold comparedBy at h
  split at h
  case h_6 => cases h
  all_goals
    cases h
    refine ⟨_, rfl, ?_⟩
    rw [dispatch, hcode]
    rfl

end

/-! ### Opcodes -/

@[simp] theorem comparisonOf_i32Op (op : Comparison) :
    comparisonOf op.i32Op.code = some (.int32, op) := by
  cases op <;> decide

@[simp] theorem comparisonOf_i64Op (op : Comparison) :
    comparisonOf op.i64Op.code = some (.int64, op) := by
  cases op <;> decide

@[simp] theorem comparisonOf_f32Op (op : Comparison) :
    comparisonOf op.f32Op.code = some (.float32, op) := by
  cases op <;> decide

@[simp] theorem comparisonOf_f64Op (op : Comparison) :
    comparisonOf op.f64Op.code = some (.float64, op) := by
  cases op <;> decide

/-- A branch on a comparison, and one behind it. -/
theorem branchesTo_compare {op : BinaryOp} {type : ValueType} {cmp : Comparison} {left right : Expr}
    {r : Bool} (l l' : Label) (hop : comparisonOf op.code = some (type, cmp))
    (hleft : evalExpr locals left = some x) (hright : evalExpr locals right = some y)
    (h : compareLiterals cmp type x y = some r) :
    branchesTo locals [.br (some (.binaryOp op left right)) l, .br none l'] =
      some (if r then l else l') := by
  rw [branchesTo, evalExpr, hop]
  simp only [Option.bind_eq_bind, Option.bind_some, hleft, hright, h]
  cases r <;> rfl

/-! ### Single branches -/

theorem ite_eq_ite_iff {p q : Bool} :
    ((if p then taken else notTaken) = if q then taken else notTaken) ↔ p = q ∨ taken = notTaken := by
  cases p <;> cases q <;> simp [eq_comm]

theorem branchAgrees_iff_op {op : Comparison} {lhsZero : Bool}
    (h : BranchReady c locals insn a b cond taken notTaken)
    (hop : LoweringCtx.branchOp insn.kind = some (op, lhsZero))
    (hzero : lhsZero = comparesZero insn.kind) :
    BranchAgrees c locals insn a b cond taken notTaken ↔
      op.ofInts (if lhsZero then 0 else a) b = cond a b ∨ taken = notTaken := by
  have hgoto : insn.kind ≠ .goto := fun hk => by
    rw [hk] at hop
    cases hop
  have htop : c.getStackAssert (c.currSd - 1) .int32 = some (c.getStack (c.currSd - 1)) :=
    if_pos h.top.1
  have hright : evalExpr locals (c.getStack (c.currSd - 1)) = some (.i32 b) := by
    rw [LoweringCtx.getStack, h.top.1, evalExpr, h.top.2]
  obtain ⟨left, hassert, hleft⟩ : ∃ left, (if lhsZero then some (.const (.i32 0)) else
      c.getStackAssert (c.currSd - 2) .int32) = some left ∧
      evalExpr locals left = some (.i32 (if lhsZero then 0 else a)) := by
    cases hl : lhsZero
    · obtain ⟨htype, hvalue⟩ := h.below (hzero.symm.trans hl)
      refine ⟨c.getStack (c.currSd - 2), by simp [LoweringCtx.getStackAssert, htype], ?_⟩
      rw [LoweringCtx.getStack, htype, evalExpr, hvalue]
      rfl
    · exact ⟨_, rfl, rfl⟩
  have hlower : c.lowerBranch insn = some
      [.br (some (.binaryOp op.i32Op left (c.getStack (c.currSd - 1)))) (some taken),
        .br none (some notTaken)] := by
    rw [LoweringCtx.lowerBranch, if_neg hgoto, hop]
    simp only [Option.bind_eq_bind, Option.bind_some, htop, hassert, h.takenTarget,
      h.notTakenTarget]
    rfl
  have hgoes := branchesTo_compare (some taken) (some notTaken) (comparisonOf_i32Op op)
    hleft hright rfl
  rw [← ite_eq_ite_iff]
  constructor
  · rintro ⟨exprs, hexprs, hto⟩
    rw [hlower, Option.some.injEq] at hexprs
    rw [← hexprs, hgoes, Option.some.injEq] at hto
    simpa only [← apply_ite some, Option.some.injEq] using hto
  · intro heq
    refine ⟨_, hlower, hgoes.trans ?_⟩
    rw [← apply_ite some, heq]

theorem toInt_zero32 : (0 : BitVec 32).toInt = 0 := rfl

theorem slt_zero_iff : ((0#32).slt b = b.slt 0) ↔ b = 0 := by
  constructor
  · intro h
    rw [BitVec.slt, BitVec.slt, decide_eq_decide, BitVec.toInt_zero, toInt_zero32] at h
    exact BitVec.eq_of_toInt_eq (by rw [toInt_zero32]; omega)
  · rintro rfl
    rfl

theorem sle_zero_iff : ((0#32).sle b = b.sle 0) ↔ b = 0 := by
  constructor
  · intro h
    rw [BitVec.sle, BitVec.sle, decide_eq_decide, BitVec.toInt_zero, toInt_zero32] at h
    exact BitVec.eq_of_toInt_eq (by rw [toInt_zero32]; omega)
  · rintro rfl
    rfl

/-- The branches that change their meaning where the operands change places. -/
def ordersZero : List InsnCode := [.iflt, .ifge, .ifgt, .ifle]

theorem ofInts_branchOp {op : Comparison} {lhsZero : Bool} {kind : InsnCode}
    (hop : LoweringCtx.branchOp kind = some (op, lhsZero)) (hcond : branchCondition kind = some cond) :
    lhsZero = comparesZero kind ∧
      (op.ofInts (if lhsZero then 0 else a) b = cond a b ↔ (kind ∈ ordersZero → b = 0)) := by
  -- in any order the operands are equal or not
  have hsame : ∀ {p : Bool} {k : InsnCode}, k ∉ ordersZero → (p = p ↔ (k ∈ ordersZero → b = 0)) :=
    fun hk => iff_of_true rfl fun hmem => absurd hmem hk
  have hordered : ∀ {k : InsnCode}, k ∈ ordersZero → ((k ∈ ordersZero → b = 0) ↔ b = 0) :=
    fun hk => ⟨fun h => h hk, fun h _ => h⟩
  unfold LoweringCtx.branchOp at hop
  split at hop
  case h_15 => cases hop
  all_goals
    obtain ⟨rfl, rfl⟩ := Prod.mk.inj (Option.some.inj hop)
    obtain rfl := Option.some.inj hcond
    refine ⟨rfl, ?_⟩
  case h_1 =>
    rw [show (Comparison.eq.ofInts (if true then 0 else a) b) = (b == 0) from BEq.comm]
    exact hsame (by decide)
  case h_4 =>
    rw [show (Comparison.ne.ofInts (if true then 0 else a) b) = (b != 0) from bne_comm]
    exact hsame (by decide)
  case h_7 => exact slt_zero_iff.trans (hordered (by decide)).symm
  case h_9 => exact (eq_comm.trans sle_zero_iff).trans (hordered (by decide)).symm
  case h_11 => exact (eq_comm.trans slt_zero_iff).trans (hordered (by decide)).symm
  case h_13 => exact sle_zero_iff.trans (hordered (by decide)).symm
  all_goals exact hsame (by decide)

/-- What the compiler of whole methods knows of a branch. -/
def emitted : Expr → Option Expression
  | .br condition (some target) => some (.br condition.isSome target)
  | _ => none

theorem lowerBranch_emitted {ctx : MethodJitCtx} {exprs : List Expr}
    (htarget : ∀ pc, c.branchTarget pc = (branchTarget ctx pc).toOption)
    (hpc : c.currPc = ctx.currPc) (h : c.lowerBranch insn = some exprs) :
    lowerBranch ctx insn = .ok (exprs.filterMap emitted) := by
  have hok : ∀ {pc target}, c.branchTarget pc = some target → branchTarget ctx pc = .ok target :=
    fun {pc target} hpc => by
      rw [htarget] at hpc
      cases hb : branchTarget ctx pc with
      | error => rw [hb] at hpc; cases hpc
      | ok => rw [hb] at hpc; rw [Option.some.inj hpc]
  rw [LoweringCtx.lowerBranch] at h
  split_ifs at h with hgoto
  · simp only [Option.bind_eq_bind, Option.bind_eq_some_iff] at h
    obtain ⟨target, htaken, hexprs⟩ := h
    obtain rfl := Option.some.inj hexprs
    rw [lowerBranch, hgoto]
    simp only [hok htaken]
    rfl
  · simp only [Option.bind_eq_bind, Option.bind_eq_some_iff] at h
    obtain ⟨⟨op, lhsZero⟩, hop, right, -, left, -, taken, htaken, notTaken, hnotTaken, hexprs⟩ := h
    obtain rfl := Option.some.inj hexprs
    have htwo : (do
        let taken ← branchTarget ctx insn.index
        let notTaken ← branchTarget ctx (ctx.currPc + 1)
        return [Expression.br true taken, .br false notTaken]) =
        .ok [Expression.br true taken, .br false notTaken] := by
      rw [hok htaken, ← hpc, hok hnotTaken]
      rfl
    refine Eq.trans ?_ htwo
    rw [lowerBranch]
    generalize insn.kind = kind at hop
    unfold LoweringCtx.branchOp at hop
    split at hop
    case h_15 => cases hop
    all_goals rfl

theorem not_lowerBranch (h : LoweringCtx.branchOp insn.kind = none) (hgoto : insn.kind ≠ .goto) :
    c.lowerBranch insn = none := by
  rw [LoweringCtx.lowerBranch, if_neg hgoto, h]
  rfl

/-- The branches that are not lowered are those on null. -/
theorem null_of_branchOp {kind : InsnCode} (hop : LoweringCtx.branchOp kind = none)
    (hcond : branchCondition kind = some cond) : kind ∈ [.ifnull, .ifnonnull] ∧ kind ≠ .goto := by
  unfold branchCondition at hcond
  split at hcond
  case h_17 => cases hcond
  all_goals first | exact ⟨by decide, by decide⟩ | exact nomatch hop

/-- A single branch agrees with the interpreter if and only if its operands may change places. -/
theorem branchAgrees_iff (h : BranchReady c locals insn a b cond taken notTaken) :
    BranchAgrees c locals insn a b cond taken notTaken ↔ BranchSound insn b taken notTaken := by
  rw [BranchSound]
  rcases hop : LoweringCtx.branchOp insn.kind with _ | ⟨op, lhsZero⟩
  · obtain ⟨hnull, hgoto⟩ := null_of_branchOp hop h.condition
    refine iff_of_false ?_ fun h => h.1 hnull
    rintro ⟨exprs, hexprs, -⟩
    rw [not_lowerBranch hop hgoto] at hexprs
    cases hexprs
  · obtain ⟨hzero, hiff⟩ := ofInts_branchOp (a := a) (b := b) hop h.condition
    have hnull : insn.kind ∉ [.ifnull, .ifnonnull] := fun hmem => by
      simp only [List.mem_cons, List.not_mem_nil, or_false] at hmem
      rcases hmem with hk | hk <;> rw [hk] at hop <;> cases hop
    rw [branchAgrees_iff_op h hop hzero, hiff]
    constructor
    · exact fun h => ⟨hnull, fun hmem => h.imp (· hmem) id⟩
    · rintro ⟨-, h⟩
      by_cases hmem : insn.kind ∈ ordersZero
      · exact (h hmem).imp (fun hb _ => hb) id
      · exact .inl fun hmem' => absurd hmem' hmem

/-! ### Orders -/

/-- A comparison of two numbers that are in this order. -/
def NumberOrder.holds : NumberOrder → Comparison → Bool
  | .lt, c => c ∈ [.ne, .lt, .le]
  | .eq, c => c ∈ [.eq, .le, .ge]
  | .gt, c => c ∈ [.ne, .gt, .ge]
  | .unordered, c => c = .ne

/-- What a comparison leaves in the register. -/
def NumberOrder.threeWay (unordered : BitVec 64) : NumberOrder → BitVec 64
  | .lt => -1
  | .eq => 0
  | .gt => 1
  | .unordered => unordered

theorem ofInts_eq {w : Nat} (x y : BitVec w) (op : Comparison) :
    op.ofInts x y = (intOrder x y).holds op := by
  rcases lt_trichotomy x.toInt y.toInt with hlt | heq | hgt
  · have hne : x ≠ y := fun h => by rw [h] at hlt; omega
    have horder : intOrder x y = .lt := by simp [intOrder, BitVec.slt, hlt]
    rw [horder]
    cases op <;> simp [Comparison.ofInts, NumberOrder.holds, BitVec.slt, BitVec.sle, hne] <;> omega
  · obtain rfl := BitVec.eq_of_toInt_eq heq
    have horder : intOrder x x = .eq := by simp [intOrder, BitVec.slt]
    rw [horder]
    cases op <;> simp [Comparison.ofInts, NumberOrder.holds, BitVec.slt, BitVec.sle]
  · have hne : x ≠ y := fun h => by rw [h] at hgt; omega
    have hnlt : ¬ x.toInt < y.toInt := by omega
    have horder : intOrder x y = .gt := by simp [intOrder, BitVec.slt, hnlt, hne]
    rw [horder]
    cases op <;> simp [Comparison.ofInts, NumberOrder.holds, BitVec.slt, BitVec.sle, hne] <;> omega

theorem intOrder_ne_unordered {w : Nat} (x y : BitVec w) : intOrder x y ≠ .unordered := by
  rw [intOrder]
  split_ifs <;> simp

theorem lcmp_eq (unordered x y : BitVec 64) : lcmp x y = (intOrder x y).threeWay unordered := by
  have hne := intOrder_ne_unordered x y
  rw [lcmp, show y.slt x = _ from ofInts_eq x y .gt, show x.slt y = _ from ofInts_eq x y .lt]
  cases h : intOrder x y with
  | unordered => exact absurd h hne
  | _ => rfl

/-- The comparisons of floats exclude one another. -/
theorem float_exclusive (x y : FloatValue) :
    (x.lt y = true → x.eq y = false ∧ y.lt x = false) ∧ (x.eq y = true → y.lt x = false) := by
  cases x with
  | nan => exact ⟨nofun, nofun⟩
  | infinite n => cases n <;> rcases y with _ | (_ | _) | _ <;> exact ⟨by simp [FloatValue.lt, FloatValue.eq], by simp [FloatValue.lt, FloatValue.eq]⟩
  | finite p =>
    rcases y with _ | (_ | _) | q
    · exact ⟨nofun, nofun⟩
    · exact ⟨fun _ => ⟨rfl, rfl⟩, nofun⟩
    · exact ⟨nofun, nofun⟩
    · simp only [FloatValue.lt, FloatValue.eq, decide_eq_true_eq, decide_eq_false_iff_not]
      exact ⟨fun h => ⟨h.ne, h.not_gt⟩, fun h => by rw [h]; exact lt_irrefl q⟩

theorem ofFloats_eq (x y : FloatValue) (op : Comparison) :
    op.ofFloats x y = (floatOrder x y).holds op := by
  obtain ⟨hlt, heq⟩ := float_exclusive x y
  rw [floatOrder]
  split_ifs with h1 h2 h3
  · obtain ⟨h2, h3⟩ := hlt h1
    cases op <;> simp [Comparison.ofFloats, NumberOrder.holds, h1, h2, h3]
  · have h3 := heq h2
    cases op <;> simp [Comparison.ofFloats, NumberOrder.holds, h1, h2, h3]
  · cases op <;> simp [Comparison.ofFloats, NumberOrder.holds, h1, h2, h3]
  · cases op <;> simp [Comparison.ofFloats, NumberOrder.holds, h1, h2, h3]

theorem floatCmp_eq (unordered : BitVec 64) (x y : FloatValue) :
    floatCmp unordered x y = (floatOrder x y).threeWay unordered := by
  rw [floatCmp, show y.lt x = _ from ofFloats_eq x y .gt, show x.lt y = _ from ofFloats_eq x y .lt,
    show x.eq y = _ from ofFloats_eq x y .eq]
  cases floatOrder x y <;> rfl

/-! ### Fused comparisons -/

/-- The register that a comparison leaves for unordered numbers. -/
def unorderedResult (insn : InsnCode) : BitVec 64 := if insn ∈ [.fcmpg, .dcmpg] then 1 else -1

/-- The opcode of a fused comparison. -/
def fusedBinaryOp (insn : InsnCode) (op : Comparison) : BinaryOp :=
  if insn = .dcmpg ∨ insn = .dcmpl then op.f64Op
  else if LoweringCtx.isFpCompare insn then op.f32Op
  else op.i64Op

/-- The instructions that are fused with a branch. -/
def comparisons : List InsnCode := [.lcmp, .fcmpl, .fcmpg, .dcmpl, .dcmpg]

theorem compareResult_eq {insn : InsnCode} (h : compareResult insn x y = some result) :
    insn ∈ comparisons ∧ result = (literalOrder x y).threeWay (unorderedResult insn) ∧
      ∀ op, ∃ type, comparisonOf (fusedBinaryOp insn op).code = some (type, op) ∧
        compareLiterals op type x y = some ((literalOrder x y).holds op) := by
  unfold compareResult at h
  split at h
  case h_6 => cases h
  all_goals obtain rfl := Option.some.inj h
  case h_1 =>
    exact ⟨by decide, lcmp_eq _ _ _, fun op =>
      ⟨.int64, comparisonOf_i64Op op, congrArg some (ofInts_eq _ _ op)⟩⟩
  case h_2 | h_3 =>
    exact ⟨by decide, floatCmp_eq _ _ _, fun op =>
      ⟨.float32, comparisonOf_f32Op op, congrArg some (ofFloats_eq _ _ op)⟩⟩
  case h_4 | h_5 =>
    exact ⟨by decide, floatCmp_eq _ _ _, fun op =>
      ⟨.float64, comparisonOf_f64Op op, congrArg some (ofFloats_eq _ _ op)⟩⟩

/-- The emitted branches go to the place of the target. -/
def fusedTaken (branch : InsnCode) (order : NumberOrder) : Bool :=
  order.holds (LoweringCtx.fusedOp branch).1 != (LoweringCtx.fusedOp branch).2

/-- The interpreter and the emitted branches, order by order. -/
theorem fused_decisions {insn branch : InsnCode} (hinsn : insn ∈ comparisons)
    (hbranch : branch ∈ LoweringCtx.zeroBranches) (hcond : branchCondition branch = some cond)
    (order : NumberOrder) :
    cond 0 (StackValue.low (order.threeWay (unorderedResult insn))) =
        branchTaken insn branch order ∧
      fusedTaken branch order = (misjudged insn branch order != branchTaken insn branch order) := by
  simp only [comparisons, LoweringCtx.zeroBranches, List.mem_cons, List.not_mem_nil,
    or_false] at hinsn hbranch
  rcases hbranch with rfl | rfl | rfl | rfl | rfl | rfl
  all_goals
    obtain rfl := Option.some.inj hcond
    rcases hinsn with rfl | rfl | rfl | rfl | rfl <;> cases order <;> exact ⟨rfl, rfl⟩

theorem lowerFusedCompare_eq (hinsn : insn.kind ∈ comparisons)
    (hbranch : branch.kind ∈ LoweringCtx.zeroBranches)
    (hnotTaken : c.branchTarget (c.currPc + 2) = some notTaken) :
    c.lowerFusedCompare insn branch = (c.branchTarget insn.index).map fun target =>
      let cmp : Expr := .binaryOp (fusedBinaryOp insn.kind (LoweringCtx.fusedOp branch.kind).1)
        (c.getStack (c.currSd - 2)) (c.getStack (c.currSd - 1))
      if (LoweringCtx.fusedOp branch.kind).2 then
        [.br (some cmp) (some notTaken), .br none (some target)]
      else [.br (some cmp) (some target), .br none (some notTaken)] := by
  have hfused : LoweringCtx.isFpCompare insn.kind ∨ insn.kind = .lcmp := by
    simp only [comparisons, List.mem_cons, List.not_mem_nil, or_false] at hinsn
    rcases hinsn with h | h | h | h | h <;> rw [h] <;> decide
  rw [LoweringCtx.lowerFusedCompare, if_neg (by simp [hfused, hbranch]), hnotTaken]
  cases c.branchTarget insn.index <;> rfl

theorem fused_goes (h : FusedReady c locals insn branch x y result cond taken notTaken) :
    FusedAgrees c locals insn branch result cond taken notTaken ↔
      ∃ target, c.branchTarget insn.index = some target ∧
        (if fusedTaken branch.kind (literalOrder x y) then target else notTaken) =
          if cond 0 (StackValue.low result) then taken else notTaken := by
  obtain ⟨hinsn, -, hop⟩ := compareResult_eq h.compares
  obtain ⟨type, hcode, hcompare⟩ := hop (LoweringCtx.fusedOp branch.kind).1
  have hleft : evalExpr locals (c.getStack (c.currSd - 2)) = some x := congrArg some h.below
  have hright : evalExpr locals (c.getStack (c.currSd - 1)) = some y := congrArg some h.top
  have hto : ∀ target, branchesTo locals
      (if (LoweringCtx.fusedOp branch.kind).2 then
        [.br (some (.binaryOp (fusedBinaryOp insn.kind (LoweringCtx.fusedOp branch.kind).1)
          (c.getStack (c.currSd - 2)) (c.getStack (c.currSd - 1)))) (some notTaken),
          .br none (some target)]
      else
        [.br (some (.binaryOp (fusedBinaryOp insn.kind (LoweringCtx.fusedOp branch.kind).1)
          (c.getStack (c.currSd - 2)) (c.getStack (c.currSd - 1)))) (some target),
          .br none (some notTaken)]) =
      some (some (if fusedTaken branch.kind (literalOrder x y) then target else notTaken)) := by
    intro target
    rw [fusedTaken]
    cases (LoweringCtx.fusedOp branch.kind).2
    · rw [if_neg Bool.false_ne_true, branchesTo_compare _ _ hcode hleft hright hcompare,
        Bool.bne_false, ← apply_ite some]
    · rw [if_pos rfl, branchesTo_compare _ _ hcode hleft hright hcompare, Bool.bne_true]
      cases (literalOrder x y).holds (LoweringCtx.fusedOp branch.kind).1 <;> rfl
  rw [FusedAgrees, lowerFusedCompare_eq hinsn h.kind h.notTakenTarget]
  constructor
  · rintro ⟨exprs, hexprs, hagree⟩
    obtain ⟨target, htarget, rfl⟩ := Option.map_eq_some_iff.1 hexprs
    rw [hto, Option.some.injEq, Option.some.injEq] at hagree
    exact ⟨target, htarget, hagree⟩
  · rintro ⟨target, htarget, hagree⟩
    exact ⟨_, Option.map_eq_some_iff.2 ⟨target, htarget, rfl⟩, by rw [hto, hagree]⟩

/-- A fused comparison agrees with the interpreter if and only if it has a target for the branch, and
judges as the interpreter does. -/
theorem fusedAgrees_iff (h : FusedReady c locals insn branch x y result cond taken notTaken) :
    FusedAgrees c locals insn branch result cond taken notTaken ↔
      FusedSound c insn branch x y taken notTaken := by
  obtain ⟨hinsn, hresult, -⟩ := compareResult_eq h.compares
  obtain ⟨hinterpreter, hemitted⟩ := fused_decisions hinsn h.kind h.condition (literalOrder x y)
  rw [← hresult] at hinterpreter
  rw [fused_goes h, FusedSound]
  refine exists_congr fun target => and_congr_right fun _ => ?_
  rw [hinterpreter, hemitted]
  cases branchTaken insn.kind branch.kind (literalOrder x y) <;>
    cases misjudged insn.kind branch.kind (literalOrder x y) <;> simp [eq_comm]

/-- What is emitted for a branch, alone or behind a comparison, goes where the interpreter goes if and
only if it is sound. -/
theorem branches_agree_iff (c : LoweringCtx) (locals : BitVec 32 → Literal)
    (insn branch : BytecodeInsn) (a b : BitVec 32) (x y : Literal) (result : BitVec 64)
    (cond : BitVec 32 → BitVec 32 → Bool) (taken notTaken : BlockId) :
    (BranchReady c locals insn a b cond taken notTaken →
      (BranchAgrees c locals insn a b cond taken notTaken ↔ BranchSound insn b taken notTaken)) ∧
    (FusedReady c locals insn branch x y result cond taken notTaken →
      (FusedAgrees c locals insn branch result cond taken notTaken ↔
        FusedSound c insn branch x y taken notTaken)) :=
  ⟨branchAgrees_iff, fusedAgrees_iff⟩

/-- Two values of a type on the stack, in the first two locals; every block is named after its place. -/
def comparingTwo (type : ValueType) : LoweringCtx :=
  { currPc := 0, currSd := 2, typeAt := fun _ => type, stackSlot := fun i _ => i, branchTarget := some }

/-- `if_icmplt` on 2 and 3, and `ifgt` behind `lcmp` on them. -/
theorem branches_agree_iff_two :
    (BranchAgrees (comparingTwo .int32) (fun i => .i32 (i + 2)) { kind := .ifIcmplt, index := 9 } 2 3
        (fun a b => a.slt b) 9 1 ↔
      BranchSound { kind := .ifIcmplt, index := 9 } 3 9 1) ∧
    (FusedAgrees (comparingTwo .int64) (fun i => .i64 (i.setWidth 64 + 2)) { kind := .lcmp }
        { kind := .ifgt, index := 9 } (-1) (fun _ b => (0#32).slt b) 9 2 ↔
      FusedSound (comparingTwo .int64) { kind := .lcmp } { kind := .ifgt, index := 9 } (.i64 2)
        (.i64 3) 9 2) :=
  ⟨(branches_agree_iff _ _ _ { kind := .nop } _ _ (.i32 0) (.i32 0) 0 _ _ _).1
      ⟨rfl, ⟨rfl, by decide⟩, fun _ => ⟨rfl, by decide⟩, rfl, rfl⟩,
    (branches_agree_iff _ _ _ _ 0 0 _ _ _ _ _ _).2
      ⟨by decide, by decide, rfl, by decide, by decide, rfl, rfl⟩⟩

/-- `iflt` on 1: the branch that is emitted is taken. -/
theorem not_branchAgrees_iflt :
    BranchReady (comparingTwo .int32) (fun i => .i32 i) { kind := .iflt, index := 9 } 0 1
        (fun _ b => b.slt 0) 9 1 ∧
      ¬ BranchAgrees (comparingTwo .int32) (fun i => .i32 i) { kind := .iflt, index := 9 } 0 1
        (fun _ b => b.slt 0) 9 1 := by
  have hready : BranchReady (comparingTwo .int32) (fun i => .i32 i) { kind := .iflt, index := 9 } 0 1
      (fun _ b => b.slt 0) 9 1 := ⟨rfl, ⟨rfl, by decide⟩, fun _ => ⟨rfl, by decide⟩, rfl, rfl⟩
  refine ⟨hready, fun h => ?_⟩
  have hsound := ((branchAgrees_iff hready).1 h).2 (by decide)
  revert hsound
  decide

end BJvm.DumbJit

import BJvm.Proofs.NpeMessage
import BJvm.Proofs.AnalyzedStates

/-!
# Locals of one slot

The `k`th argument, whatever the widths of those before it, is found in the slot `k`
(`swizzle_argument`), and each pass that rewrites takes every access through the same renumbering,
once (`Rewritten`).  With a `StackMapTable` there is one pass.
-/

namespace BJvm

open Parsing

variable {m : CpMethod} {env : AnalysisEnv} {locals : List TypeKind} {swizzle : List Nat}
  {doRewrite : Bool} {i : Nat} {insn insn' : BytecodeInsn} {ctx ctx' : AnalysisCtx}
  {s s' : PassState}

/-! ### Arguments -/

/-- The words of the arguments, of which `this` is the first unless the method is static. -/
def CpMethod.argWidths (m : CpMethod) : List Nat :=
  (if m.isStatic then [] else [1]) ++ m.descriptor.args.map fun arg => if arg.isWide then 2 else 1

/-- The slot of the `k`th argument in the JVM specification. -/
def CpMethod.argSlot (m : CpMethod) (k : Nat) : Nat := (m.argWidths.take k).sum

theorem argWidths_of_static (h : m.isStatic = true) :
    m.argWidths = m.descriptor.args.map fun arg => if arg.isWide then 2 else 1 := by
  rw [CpMethod.argWidths, if_pos h, List.nil_append]

theorem argWidths_of_instance (h : ¬ m.isStatic = true) : m.argWidths =
    1 :: m.descriptor.args.map fun arg => if arg.isWide then 2 else 1 := by
  rw [CpMethod.argWidths, if_neg h, List.singleton_append]

/-- The arguments are placed if and only if their words fit. -/
theorem placeArgs_isSome {maxLocals : Nat} : ∀ {args : List FieldDescriptor} {swizzled j : Nat}
    {st : List TypeKind × List (Option Nat)}, j ≤ maxLocals →
    ((placeArgs maxLocals args swizzled j st).isSome ↔ j + argWords args ≤ maxLocals)
  | [], _, j, st, hj => by
    rw [placeArgs]
    exact iff_of_true rfl (by simpa [argWords] using hj)
  | arg :: args, swizzled, j, (locals, swizzle), hj => by
    rw [placeArgs, argWords_cons]
    split_ifs with hlt hwide hmax hwide
    · exact iff_of_false (by simp) (by omega)
    · rw [placeArgs_isSome (by omega)]
      omega
    · rw [placeArgs_isSome (by omega)]
      omega
    · exact iff_of_false (by simp) (by omega)
    · exact iff_of_false (by simp) (by omega)

theorem localsOnMethodEntry_isSome (m : CpMethod) :
    (localsOnMethodEntry m).isSome ↔ m.argWidths.sum ≤ m.code.maxLocals := by
  simp only [localsOnMethodEntry]
  split_ifs with hstatic hzero
  · rw [Option.isSome_map, placeArgs_isSome (Nat.zero_le _), argWidths_of_static hstatic, argWords,
      Nat.zero_add]
  · rw [argWidths_of_instance hstatic, List.sum_cons]
    exact iff_of_false (by simp) (by omega)
  · rw [Option.isSome_map, placeArgs_isSome (by omega), argWidths_of_instance hstatic,
      List.sum_cons, argWords]

theorem swizzle_this (hstatic : ¬ m.isStatic = true)
    (h : localsOnMethodEntry m = some (locals, swizzle)) : swizzle[0]? = some 0 := by
  simp only [localsOnMethodEntry] at h
  rw [if_neg hstatic] at h
  split_ifs at h with hzero
  obtain ⟨st, hst, heq⟩ := Option.map_eq_some_iff.1 h
  obtain ⟨-, rfl⟩ := Prod.mk.inj heq
  have hplace := placeArgs_below (i := 0) Nat.zero_lt_one hst
  rw [List.getElem?_set_self (by rw [List.length_replicate]; omega)] at hplace
  exact fillSwizzle_some hplace

/-- The slot of the `k`th argument is renumbered to `k`. -/
theorem swizzle_argument (h : localsOnMethodEntry m = some (locals, swizzle)) {k : Nat}
    (hk : k < m.argWidths.length) : swizzle[m.argSlot k]? = some k := by
  have hparameter : ∀ n < m.descriptor.args.length, (NpeVariable.parameter (n + 1)).Valid m :=
    fun n hn => ⟨Nat.le_add_left 1 n, hn⟩
  by_cases hstatic : m.isStatic = true
  · rw [argWidths_of_static hstatic, List.length_map] at hk
    have hslot := swizzle_parameter h (hparameter k hk)
    rw [NpeVariable.slot, if_pos hstatic, if_pos hstatic, Nat.add_sub_cancel, Nat.zero_add] at hslot
    rw [CpMethod.argSlot, argWidths_of_static hstatic, ← List.map_take]
    exact hslot
  · rw [argWidths_of_instance hstatic, List.length_cons, List.length_map] at hk
    rw [CpMethod.argSlot, argWidths_of_instance hstatic]
    rcases k with _ | k
    · exact swizzle_this hstatic h
    · have hslot := swizzle_parameter h (hparameter k (Nat.lt_of_succ_lt_succ hk))
      rw [NpeVariable.slot, if_neg hstatic, if_neg hstatic, Nat.add_sub_cancel] at hslot
      rw [List.take_succ_cons, List.sum_cons, ← List.map_take]
      exact hslot

/-! ### Accesses -/

/-- The local that an instruction reads or writes. -/
def BytecodeInsn.accessedLocal (insn : BytecodeInsn) : Option Nat :=
  if (localKind insn.kind).isSome then some insn.index
  else if insn.kind = .iinc then some insn.iincIndex
  else none

/-- The slot in which the handler of an analysed instruction finds the local: `get_local` counts
back from the frame, behind its `maxLocals` locals. -/
def BytecodeInsn.localSlot (maxLocals : Nat) (insn : BytecodeInsn) : Option Int :=
  if (localKind insn.kind).isSome then some (maxLocals - insn.delta)
  else if insn.kind = .iinc then some insn.iincIndex
  else none

/-- An instruction that reads or writes the local `j` is left with `f j` instead, and any other
with none. -/
structure Rewritten (maxLocals : Nat) (f : Nat → Nat) (insn insn' : BytecodeInsn) : Prop where
  accesses : ∀ j, insn.accessedLocal = some j →
    j < maxLocals ∧ insn'.accessedLocal = some (f j) ∧ insn'.localSlot maxLocals = some ↑(f j)
  none : insn.accessedLocal = none → insn'.accessedLocal = none

theorem accessedLocal_of_effect (h : (effect insn).isSome) : insn.accessedLocal = none := by
  have hlocal : localKind insn.kind = none := by
    rw [Option.eq_none_iff_forall_ne_some]
    intro kind hkind
    rw [effect_of_localKind hkind] at h
    cases h
  have hiinc : insn.kind ≠ .iinc := by
    intro hk
    rw [effect_eq_none hk rfl (by decide)] at h
    cases h
  rw [BytecodeInsn.accessedLocal, hlocal, if_neg (by simp), if_neg hiinc]

theorem accessedLocal_of_shuffle (h : insn.kind ∈ shuffleKinds) : insn.accessedLocal = none := by
  simp only [shuffleKinds, List.mem_cons, List.not_mem_nil, or_false] at h
  rcases h with hk | hk | hk | hk | hk | hk | hk | hk | hk <;>
    simp [BytecodeInsn.accessedLocal, hk, localKind]

/-- What becomes of a local in a pass. -/
def passedLocal (env : AnalysisEnv) (doRewrite : Bool) (j : Nat) : Nat :=
  if doRewrite then env.swizzle.getD j 0 else j

theorem swizzleLocal_eq_ok {index j : Nat} : swizzleLocal env doRewrite j = .ok index ↔
    j < env.code.maxLocals ∧ index = passedLocal env doRewrite j := by
  rw [swizzleLocal, passedLocal]
  split_ifs with hmax <;> simp [hmax, eq_comm] <;> omega

theorem rewritten_of_access {maxLocals : Nat} {f : Nat → Nat} {j : Nat} (hj : j < maxLocals)
    (hbefore : insn.accessedLocal = some j) (hafter : insn'.accessedLocal = some (f j))
    (hslot : insn'.localSlot maxLocals = some ↑(f j)) : Rewritten maxLocals f insn insn' where
  accesses j' hj' := by
    obtain rfl := Option.some.inj (hbefore.symm.trans hj')
    exact ⟨hj, hafter, hslot⟩
  none h := by
    rw [hbefore] at h
    cases h

theorem rewritten_of_none {maxLocals : Nat} {f : Nat → Nat} (hbefore : insn.accessedLocal = none)
    (hafter : insn'.accessedLocal = none) : Rewritten maxLocals f insn insn' where
  accesses j hj := by
    rw [hbefore] at hj
    cases hj
  none _ := hafter

/-- The loads and stores alike. -/
theorem rewritten_local {kind : TypeKind} {index : Nat} {tosBefore tosAfter : ReducedTosKind}
    (hkind : localKind insn.kind = some kind) (h : swizzleLocal env doRewrite insn.index = .ok index) :
    Rewritten env.code.maxLocals (passedLocal env doRewrite) insn
      { insn with index, delta := env.code.maxLocals - index, tosBefore, tosAfter } := by
  obtain ⟨hlt, rfl⟩ := swizzleLocal_eq_ok.1 h
  refine rewritten_of_access hlt ?_ ?_ ?_
  · simp [BytecodeInsn.accessedLocal, hkind]
  · simp [BytecodeInsn.accessedLocal, hkind]
  · simp [BytecodeInsn.localSlot, hkind]

theorem rewritten_of_case {tosBefore tosAfter : ReducedTosKind}
    (h : AnalyzeCase env doRewrite i { insn with tosBefore } ctx insn' ctx') :
    Rewritten env.code.maxLocals (passedLocal env doRewrite) insn { insn' with tosAfter } := by
  cases h with
  | plain heffect _ =>
    have hnone : insn.accessedLocal = none :=
      @accessedLocal_of_effect { insn with tosBefore } (by rw [heffect]; rfl)
    refine rewritten_of_none hnone ?_
    rw [branchDelta]
    split_ifs <;> exact hnone
  | load hkind _ hindex _ => exact rewritten_local hkind hindex
  | store hkind _ hindex _ => exact rewritten_local hkind hindex
  | putfield hk _ =>
    have hnone : insn.accessedLocal = none := by
      rw [BytecodeInsn.accessedLocal, show insn.kind = _ from hk]
      rfl
    exact rewritten_of_none hnone hnone
  | putstatic hk _ =>
    have hnone : insn.accessedLocal = none := by
      rw [BytecodeInsn.accessedLocal, show insn.kind = _ from hk]
      rfl
    exact rewritten_of_none hnone hnone
  | iinc hk hindex =>
    obtain ⟨hlt, rfl⟩ := swizzleLocal_eq_ok.1 hindex
    have hk : insn.kind = .iinc := hk
    refine rewritten_of_access hlt ?_ ?_ ?_ <;>
      simp [BytecodeInsn.accessedLocal, BytecodeInsn.localSlot, hk, localKind]
  | @shuffle pushes stack rewritten h =>
    have hnone : insn.accessedLocal = none := accessedLocal_of_shuffle (mem_of_shuffleStack h)
    refine rewritten_of_none hnone ?_
    split_ifs
    · exact @accessedLocal_of_shuffle { insn with tosBefore, kind := rewritten, tosAfter }
        (mem_rewritten h)
    · exact hnone

/-! ### Passes -/

/-- A pass up to the instruction at `n`. -/
theorem runPass_rewritten : ∀ {n : Nat} {s' : PassState}, runPass env doRewrite n s = .ok s' →
    s'.code.length = s.code.length ∧ ∀ i < s.code.length,
      if i < n then Rewritten env.code.maxLocals (passedLocal env doRewrite) (s.code.getD i default)
        (s'.code.getD i default)
      else s'.code.getD i default = s.code.getD i default
  | 0, s', h => by
    simp only [runPass, List.range_zero, List.foldlM_nil, pure_eq_ok] at h
    subst h
    exact ⟨rfl, fun i _ => by rw [if_neg (Nat.not_lt_zero i)]⟩
  | n + 1, s', h => by
    simp only [runPass, List.range_succ, List.foldlM_append, List.foldlM_cons, List.foldlM_nil,
      bind_pure] at h
    obtain ⟨s₁, h₁, h⟩ := bind_eq_ok.mp h
    obtain ⟨hlen, hall⟩ := runPass_rewritten h₁
    obtain ⟨tosBefore, tosAfter, insn', e, -, hcase, hcode⟩ := passStep_case h
    rw [hcode]
    refine ⟨by rw [List.length_set, hlen], fun i hi => ?_⟩
    have hbefore := hall i hi
    rcases eq_or_ne i n with rfl | hne
    · rw [if_neg (Nat.lt_irrefl i)] at hbefore
      rw [if_pos (Nat.lt_succ_self i), getD_set_self (hlen ▸ hi), ← hbefore]
      exact rewritten_of_case hcase
    · rw [getD_set_ne hne.symm]
      have hiff : i < n + 1 ↔ i < n := by omega
      simpa only [hiff] using hbefore

theorem runPass_changed (hsmt : env.missingSmt = false) : ∀ {n : Nat} {s' : PassState},
    runPass env true n s = .ok s' → s'.ctx.changed = s.ctx.changed
  | 0, s', h => by
    simp only [runPass, List.range_zero, List.foldlM_nil, pure_eq_ok] at h
    rw [h]
  | n + 1, s', h => by
    simp only [runPass, List.range_succ, List.foldlM_append, List.foldlM_cons, List.foldlM_nil,
      bind_pure] at h
    obtain ⟨s₁, h₁, h⟩ := bind_eq_ok.mp h
    obtain ⟨tosBefore, tosAfter, insn', e, henter, hcase, -⟩ := passStep_case h
    obtain ⟨-, -, hchanged, -⟩ := enterInsn_of_table hsmt henter
    exact ((analyzeKind_changed hsmt hcase).trans hchanged).trans (runPass_changed hsmt h₁)

/-- With a `StackMapTable` the instructions are rewritten once. -/
theorem analyzeMethodCode_rewritten {fuel : Nat} {a : MethodAnalysis} (hsmt : m.missingSmt = false)
    (hentry : localsOnMethodEntry m = some (locals, swizzle))
    (h : analyzeMethodCode fuel m = .ok (some a)) :
    ∀ i < m.code.code.length, Rewritten m.code.maxLocals (swizzle.getD · 0)
      (m.code.code.getD i default) (a.code.getD i default) := by
  simp only [analyzeMethodCode, hentry, hsmt, Bool.not_false, Bool.false_eq_true, if_false] at h
  split_ifs at h with hlvt
  rcases fuel with _ | fuel
  · cases h
  · obtain ⟨iter, -, h⟩ := bind_eq_ok.mp h
    obtain ⟨s, hrun, h⟩ := bind_eq_ok.mp h
    have hchanged : s.ctx.changed = false := runPass_changed rfl hrun
    rw [hchanged] at h
    obtain ⟨rfl⟩ := Option.some.inj (pure_eq_ok.mp h)
    intro i hi
    have hall := (runPass_rewritten hrun).2 i hi
    rwa [if_pos hi] at hall

/-! ### The method as a whole -/

/-- The locals of a method, each argument of one slot.  Passes that do not rewrite leave every access
as it is, and with a `StackMapTable` the argument `k` is found in the slot `k`. -/
structure Unwidened (m : CpMethod) (swizzle : List Nat) : Prop where
  fits : m.argWidths.sum ≤ m.code.maxLocals
  perm : swizzle.Perm (List.range m.code.maxLocals)
  argument : ∀ k < m.argWidths.length, swizzle[m.argSlot k]? = some k
  injective : ∀ j j' k : Nat, swizzle[j]? = some k → swizzle[j']? = some k → j = j'
  passes : ∀ {doRewrite s s'},
    runPass { code := m.code, swizzle, missingSmt := m.missingSmt } doRewrite s.code.length s =
      .ok s' → ∀ i < s.code.length,
        Rewritten m.code.maxLocals (fun j => if doRewrite then swizzle.getD j 0 else j)
          (s.code.getD i default) (s'.code.getD i default)
  finds : ∀ {fuel a}, m.missingSmt = false → analyzeMethodCode fuel m = .ok (some a) →
    ∀ i < m.code.code.length, ∀ k < m.argWidths.length,
      (m.code.code.getD i default).accessedLocal = some (m.argSlot k) →
        (a.code.getD i default).localSlot m.code.maxLocals = some ↑k

/-- A method whose arguments do not fit is rejected, and the locals of any other are renumbered. -/
theorem localsOnMethodEntry_unwidens (m : CpMethod) :
    match localsOnMethodEntry m with
    | none => m.code.maxLocals < m.argWidths.sum
    | some (_, swizzle) => Unwidened m swizzle := by
  have hfits := localsOnMethodEntry_isSome m
  rcases hentry : localsOnMethodEntry m with _ | ⟨locals, swizzle⟩
  · rw [hentry] at hfits
    exact not_le.1 fun hle => by simpa using hfits.2 hle
  · have hperm := (swizzle_perm hentry).1
    refine ⟨hfits.1 (by rw [hentry]; rfl), hperm, fun k => swizzle_argument hentry, ?_, ?_, ?_⟩
    · intro j j' k hj hj'
      obtain ⟨hlt, hget⟩ := List.getElem?_eq_some_iff.1 hj
      obtain ⟨hlt', hget'⟩ := List.getElem?_eq_some_iff.1 hj'
      exact (hperm.nodup_iff.2 List.nodup_range).getElem_inj_iff.1 (hget.trans hget'.symm)
    · intro doRewrite s s' hrun i hi
      have hall := (runPass_rewritten hrun).2 i hi
      rwa [if_pos hi] at hall
    · intro fuel a hsmt ha i hi k hk haccess
      obtain ⟨-, -, hslot⟩ :=
        (analyzeMethodCode_rewritten hsmt hentry ha i hi).accesses _ haccess
      rw [hslot, List.getD, swizzle_argument hentry hk, Option.getD_some]

end BJvm

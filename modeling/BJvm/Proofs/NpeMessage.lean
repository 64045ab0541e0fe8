import BJvm.Analysis.NpeMessage
import BJvm.Proofs.Swizzle

/-!
# The names of null pointers

A renumbered slot is looked up in a renumbered table, so a variable is found under the number that
the analysis gives it (`lookup_renumbered`).  That number is also what stands for a parameter of an
instance method.  Without `this` the parameters are numbered from zero, but their sources still from
one, so the message names whatever comes next.
-/

namespace BJvm

open ClassFile

variable {m : CpMethod} {locals : List TypeKind} {swizzle : List Nat} {maxLocals : Nat}

/-! ### Numbers of parameters -/

theorem fillSwizzle_some : ∀ {l : List (Option Nat)} {next j s : Nat}, l[j]? = some (some s) →
    (fillSwizzle next l)[j]? = some s
  | some s' :: l, next, 0, s, h => by
    rw [List.getElem?_cons_zero, Option.some.injEq, Option.some.injEq] at h
    rw [fillSwizzle, List.getElem?_cons_zero, h]
  | none :: l, next, 0, s, h => by
    simp at h
  | some s' :: l, next, j + 1, s, h => by
    rw [List.getElem?_cons_succ] at h
    rw [fillSwizzle, List.getElem?_cons_succ]
    exact fillSwizzle_some h
  | none :: l, next, j + 1, s, h => by
    rw [List.getElem?_cons_succ] at h
    rw [fillSwizzle, List.getElem?_cons_succ]
    exact fillSwizzle_some h

/-- The words of the arguments, as the JVM specification counts them. -/
def argWords (args : List FieldDescriptor) : Nat :=
  (args.map fun arg => if arg.isWide then 2 else 1).sum

theorem argWords_cons (arg : FieldDescriptor) (args : List FieldDescriptor) :
    argWords (arg :: args) = (if arg.isWide then 2 else 1) + argWords args := by
  rw [argWords, List.map_cons, List.sum_cons, argWords]

/-- What is placed stays. -/
theorem placeArgs_below {maxLocals : Nat} : ∀ {args : List FieldDescriptor} {swizzled j i : Nat}
    {st st' : List TypeKind × List (Option Nat)}, i < j →
    placeArgs maxLocals args swizzled j st = some st' → st'.2[i]? = st.2[i]?
  | [], _, _, _, _, _, _, h => by
    rw [placeArgs, Option.some.injEq] at h
    rw [h]
  | arg :: args, swizzled, j, i, (locals, swizzle), st', hi, h => by
    rw [placeArgs] at h
    split_ifs at h with hj hwide hmax
    · rw [placeArgs_below (by omega) h, List.getElem?_set_ne (by omega)]
    · rw [placeArgs_below (by omega) h, List.getElem?_set_ne (by omega)]

/-- The arguments are numbered in order. -/
theorem placeArgs_number {maxLocals : Nat} : ∀ {args : List FieldDescriptor} {swizzled j k : Nat}
    {st st' : List TypeKind × List (Option Nat)}, st.2.length = maxLocals →
    placeArgs maxLocals args swizzled j st = some st' → k < args.length →
    st'.2[j + argWords (args.take k)]? = some (some (swizzled + k))
  | arg :: args, swizzled, j, k, (locals, swizzle), st', hlen, h, hk => by
    rw [placeArgs] at h
    dsimp only at hlen
    have hset : (swizzle.set j (some swizzled)).length = maxLocals := by
      rw [List.length_set, hlen]
    rcases k with _ | k
    · rw [List.take_zero]
      change st'.2[j]? = some (some swizzled)
      split_ifs at h with hj hwide hmax
      · rw [placeArgs_below (by omega) h, List.getElem?_set_self (by omega)]
      · rw [placeArgs_below (by omega) h, List.getElem?_set_self (by omega)]
    · rw [List.length_cons] at hk
      rw [List.take_succ_cons, argWords_cons]
      split_ifs at h ⊢ with hj hwide hmax
      · have hrest := placeArgs_number hset h (Nat.lt_of_succ_lt_succ hk)
        rw [← Nat.add_assoc, hrest, Nat.add_right_comm, Nat.add_assoc swizzled k 1]
      · have hrest := placeArgs_number hset h (Nat.lt_of_succ_lt_succ hk)
        rw [← Nat.add_assoc, hrest, Nat.add_right_comm, Nat.add_assoc swizzled k 1]

/-- The slot of a parameter has the number of the parameter, counted with `this`. -/
theorem swizzle_parameter (h : localsOnMethodEntry m = some (locals, swizzle)) {number : Nat}
    (hnumber : (NpeVariable.parameter number).Valid m) :
    swizzle[(NpeVariable.parameter number).slot m]?
      = some (if m.isStatic then number - 1 else number) := by
  obtain ⟨hpos, hle⟩ := hnumber
  simp only [localsOnMethodEntry] at h
  rw [NpeVariable.slot]
  split_ifs at h ⊢ with hstatic hzero
  · obtain ⟨st, hst, heq⟩ := Option.map_eq_some_iff.1 h
    rw [Prod.mk.injEq] at heq
    rw [← heq.2]
    have hplace := placeArgs_number (by simp) hst (show number - 1 < _ by omega)
    rw [Nat.zero_add (number - 1)] at hplace
    exact fillSwizzle_some hplace
  · obtain ⟨st, hst, heq⟩ := Option.map_eq_some_iff.1 h
    rw [Prod.mk.injEq] at heq
    rw [← heq.2]
    have hplace := placeArgs_number (by simp) hst (show number - 1 < _ by omega)
    rw [Nat.add_sub_cancel' hpos] at hplace
    exact fillSwizzle_some hplace

/-! ### Renumbered tables -/

section

variable {table : List LvtEntry} {pc number : Nat}

/-- `analyze_method_code` on the `LocalVariableTable`. -/
def renumber (swizzle : List Nat) (table : List LvtEntry) : List LvtEntry :=
  table.map fun entry => { entry with index := swizzle.getD entry.index 0 }

theorem lookup_cons {index : Nat} {entry : LvtEntry} :
    localVariableTableLookup index pc (entry :: table)
      = if entry.index = index ∧ entry.startPc ≤ pc ∧ pc < entry.endPc then some entry.name
        else localVariableTableLookup index pc table := by
  rw [localVariableTableLookup, List.find?_cons]
  by_cases h : entry.index = index ∧ entry.startPc ≤ pc ∧ pc < entry.endPc
  · rw [if_pos h, decide_eq_true h]
    rfl
  · rw [if_neg h, decide_eq_false h]
    rfl

theorem lookup_renumbered_of_slot (hren : Renumbers maxLocals swizzle) {slot : Nat}
    (hslot : slot < maxLocals) : ∀ {table : List LvtEntry}, (∀ e ∈ table, e.index < maxLocals) →
    localVariableTableLookup (swizzle.getD slot 0) pc (renumber swizzle table)
      = localVariableTableLookup slot pc table
  | [], _ => rfl
  | entry :: table, hvalid => by
    have hentry := hvalid entry List.mem_cons_self
    have hrest := lookup_renumbered_of_slot hren hslot fun e he =>
      hvalid e (List.mem_cons_of_mem _ he)
    have hindex : swizzle.getD entry.index 0 = swizzle.getD slot 0 ↔ entry.index = slot :=
      ⟨hren.inj hentry hslot, fun h => by rw [h]⟩
    rw [renumber, List.map_cons, lookup_cons, lookup_cons, ← renumber, hrest]
    simp only [hindex]

theorem lookup_renumbered_of_notMem (hren : Renumbers maxLocals swizzle)
    (hnumber : number ∉ swizzle) : ∀ {table : List LvtEntry}, (∀ e ∈ table, e.index < maxLocals) →
    localVariableTableLookup number pc (renumber swizzle table) = none
  | [], _ => rfl
  | entry :: table, hvalid => by
    have hentry := hvalid entry List.mem_cons_self
    have hrest := lookup_renumbered_of_notMem hren hnumber fun e he =>
      hvalid e (List.mem_cons_of_mem _ he)
    have hindex : swizzle.getD entry.index 0 ≠ number := by
      rintro rfl
      rw [List.getD_eq_getElem _ _ (hren.length ▸ hentry)] at hnumber
      exact hnumber (List.getElem_mem _)
    rw [renumber, List.map_cons, lookup_cons, ← renumber, hrest, if_neg (fun h => hindex h.1)]

/-- A number is looked up for the slot that has it. -/
theorem lookup_renumbered (hren : Renumbers maxLocals swizzle)
    (hvalid : ∀ e ∈ table, e.index < maxLocals) :
    localVariableTableLookup number pc (renumber swizzle table)
      = (swizzle.idxOf? number).bind (localVariableTableLookup · pc table) := by
  rcases hidx : swizzle.idxOf? number with _ | slot
  · exact lookup_renumbered_of_notMem hren (List.idxOf?_eq_none_iff.1 hidx) hvalid
  · obtain ⟨hlt, heq, -⟩ := List.idxOf?_eq_some_iff.1 hidx
    have hget : swizzle.getD slot 0 = number := by
      rw [List.getD_eq_getElem _ _ hlt, heq]
    rw [← hget, lookup_renumbered_of_slot hren (hren.length ▸ hlt) hvalid]
    rfl

end

/-! ### Texts -/

section

variable {nm : NamedMethod} {a : MethodAnalysis} {c : NpeContext} {fuel : Nat}

/-- What a message is made from. -/
structure Renumbered (nm : NamedMethod) (a : MethodAnalysis) (swizzle : List Nat) (c : NpeContext) :
    Prop where
  entry : ∃ locals, localsOnMethodEntry nm.method = some (locals, swizzle)
  valid : ∀ table ∈ nm.localVariableTable, ∀ e ∈ table, e.index < nm.method.code.maxLocals
  isStatic : c.isStatic = nm.method.isStatic
  code : c.code = a.code
  table : c.localVariableTable = nm.localVariableTable.map (renumber swizzle)

theorem NamedMethod.analyze_cases (h : nm.analyze fuel = .ok (some (a, swizzle, c))) :
    (∃ locals, localsOnMethodEntry nm.method = some (locals, swizzle)) ∧
      ∃ sources, analyzeMethodSources fuel nm.method = .ok (some (a, sources)) ∧
        c = { isStatic := nm.method.isStatic
              code := a.code
              sources
              localVariableTable := nm.localVariableTable.map (renumber swizzle)
              texts := nm.texts } := by
  rw [NamedMethod.analyze] at h
  rcases hentry : localsOnMethodEntry nm.method with _ | ⟨locals, swizzle'⟩
  · rw [hentry] at h
    cases h
  rw [hentry] at h
  dsimp only at h
  rcases hsources : analyzeMethodSources fuel nm.method with _ | _ | ⟨a', sources⟩ <;>
    rw [hsources] at h <;> cases h
  exact ⟨⟨locals, rfl⟩, sources, rfl, rfl⟩

/-- A number is looked up for the slot that has it. -/
theorem Renumbered.lookup (h : Renumbered nm a swizzle c) (number pc : Nat) :
    (c.localVariableTable.bind (localVariableTableLookup number pc)).map fmtSlice
      = (swizzle.idxOf? number).bind (nm.declared · pc) := by
  obtain ⟨locals, hentry⟩ := h.entry
  have hren := localsOnMethodEntry_renumbers hentry
  rw [h.table]
  rcases htable : nm.localVariableTable with _ | table
  · rcases swizzle.idxOf? number with _ | slot
    · rfl
    · simp [NamedMethod.declared, htable]
  · rw [Option.map_some, Option.bind_some, lookup_renumbered hren (h.valid table htable)]
    rcases swizzle.idxOf? number with _ | slot
    · rfl
    · simp [NamedMethod.declared, htable]

/-! ### Variables -/

variable {pc : Nat} {isFirst : Bool}

end

/-! ### Two names -/

end BJvm

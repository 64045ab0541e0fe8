import BJvm.Analysis.MethodAnalysis
import BJvm.StackMap.Frames
import Mathlib.Data.List.Range
import Mathlib.Data.List.Perm.Basic
import Mathlib.Data.List.Nodup
import Mathlib.Data.List.GetD

/-!
# The renumbering of the locals

`locals_on_method_entry` gives the arguments the first slots, in order, and the other formal indices
the rest (`swizzle_perm`).  So writing a frame through the renumbering puts each kind in a slot of
its own (`useStackMapFrame_shows`).
-/

namespace BJvm

variable {m : CpMethod} {env : AnalysisEnv} {locals : List TypeKind} {swizzle : List Nat}

/-- The slots given out so far are the first ones, in order of the formal indices below `j`. -/
def Placed (maxLocals swizzled j : Nat) (swizzle : List (Option Nat)) : Prop :=
  j ≤ maxLocals ∧ ∃ pre, pre.length = j ∧ pre.filterMap id = List.range swizzled ∧
    swizzle = pre ++ List.replicate (maxLocals - j) none

theorem Placed.step {maxLocals swizzled j : Nat} {swizzle : List (Option Nat)} (w : Nat)
    (h : Placed maxLocals swizzled j swizzle) (hw : w ≤ 1) (hj : j + w < maxLocals) :
    Placed maxLocals (swizzled + 1) (j + w + 1) (swizzle.set j (some swizzled)) := by
  obtain ⟨-, pre, rfl, hpre, rfl⟩ := h
  refine ⟨by omega, pre ++ some swizzled :: List.replicate w none, by simp; omega, ?_, ?_⟩
  · rw [List.filterMap_append, hpre, List.range_succ]
    simp
  · have hrep : List.replicate (maxLocals - pre.length) (none : Option Nat) =
        none :: (List.replicate w none ++ List.replicate (maxLocals - (pre.length + w + 1)) none) := by
      rw [List.replicate_append_replicate, ← List.replicate_succ]
      congr 1
      omega
    rw [hrep, List.set_append_right _ _ le_rfl]
    simp

theorem placeArgs_placed {maxLocals : Nat} :
    ∀ (args : List FieldDescriptor) {swizzled j : Nat} {st st' : List TypeKind × List (Option Nat)},
      Placed maxLocals swizzled j st.2 → st.1.length = maxLocals →
      placeArgs maxLocals args swizzled j st = some st' →
      (∃ j', Placed maxLocals (swizzled + args.length) j' st'.2) ∧ st'.1.length = maxLocals
  | [], _, j, st, st', h, hl, heq => by
    simp only [placeArgs, Option.some.injEq] at heq
    subst heq
    exact ⟨⟨j, h⟩, hl⟩
  | arg :: args, swizzled, j, (locals, swizzle), st', h, hl, heq => by
    rw [placeArgs] at heq
    split_ifs at heq with hj hwide hmax
    · obtain ⟨h1, h2⟩ := placeArgs_placed args (h.step 1 le_rfl (by omega)) (by simpa using hl) heq
      rw [List.length_cons, Nat.add_comm args.length, ← Nat.add_assoc]
      exact ⟨h1, h2⟩
    · obtain ⟨h1, h2⟩ := placeArgs_placed args (h.step 0 (Nat.zero_le _) (by omega))
        (by simpa using hl) heq
      rw [List.length_cons, Nat.add_comm args.length, ← Nat.add_assoc]
      exact ⟨h1, h2⟩

theorem fillSwizzle_perm : ∀ (next : Nat) (l : List (Option Nat)),
    (fillSwizzle next l).Perm (l.filterMap id ++ List.range' next (l.count none))
  | _, [] => by simp [fillSwizzle]
  | next, some s :: l => by
    simpa [fillSwizzle] using fillSwizzle_perm next l
  | next, none :: l => by
    have ih := fillSwizzle_perm (next + 1) l
    rw [fillSwizzle, List.filterMap_cons_none rfl, List.count_cons_self, List.range'_succ]
    exact (ih.cons next).trans List.perm_middle.symm

theorem count_none_add : ∀ l : List (Option Nat), (l.filterMap id).length + l.count none = l.length
  | [] => rfl
  | some s :: l => by
    have := count_none_add l
    simp only [List.filterMap_cons_some (show id (some s) = some s from rfl), List.length_cons]
    rw [List.count_cons_of_ne (by simp)]
    omega
  | none :: l => by
    have := count_none_add l
    rw [List.filterMap_cons_none rfl, List.count_cons_self, List.length_cons]
    omega

theorem Placed.fill_perm {maxLocals n j : Nat} {l : List (Option Nat)} (h : Placed maxLocals n j l) :
    (fillSwizzle n l).Perm (List.range maxLocals) := by
  obtain ⟨hj, pre, rfl, hpre, rfl⟩ := h
  have hsomes : (pre ++ List.replicate (maxLocals - pre.length) none).filterMap id = List.range n := by
    rw [List.filterMap_append, hpre]
    simp
  have hcount := count_none_add (pre ++ List.replicate (maxLocals - pre.length) (none : Option Nat))
  rw [hsomes, List.length_range, List.length_append, List.length_replicate] at hcount
  refine (fillSwizzle_perm n _).trans ?_
  have happ := List.range'_append_1 (s := 0) (m := n)
    (n := (pre ++ List.replicate (maxLocals - pre.length) none).count none)
  rw [Nat.zero_add, hcount, Nat.add_sub_cancel' hj] at happ
  rw [hsomes, List.range_eq_range', happ, List.range_eq_range']

/-- The renumbering is a permutation of the local indices. -/
theorem swizzle_perm (h : localsOnMethodEntry m = some (locals, swizzle)) :
    swizzle.Perm (List.range m.code.maxLocals) ∧ locals.length = m.code.maxLocals := by
  have hnil : Placed m.code.maxLocals 0 0 (List.replicate m.code.maxLocals none) :=
    ⟨Nat.zero_le _, [], rfl, rfl, by simp⟩
  simp only [localsOnMethodEntry] at h
  split_ifs at h with hs hmax <;> obtain ⟨st, hst, heq⟩ := Option.map_eq_some_iff.mp h
  · obtain ⟨⟨j, hj⟩, hl⟩ := placeArgs_placed _ hnil (by simp) hst
    rw [Prod.mk.injEq] at heq
    rw [← heq.2, ← heq.1]
    rw [Nat.zero_add] at hj
    exact ⟨hj.fill_perm, hl⟩
  · obtain ⟨⟨j, hj⟩, hl⟩ := placeArgs_placed _ (hnil.step 0 (Nat.zero_le _) (by omega)) (by simp) hst
    rw [Prod.mk.injEq] at heq
    rw [← heq.2, ← heq.1]
    rw [Nat.add_comm 1] at hj
    exact ⟨hj.fill_perm, hl⟩

/-! ### Writing through the renumbering -/

/-- The slots of distinct formal indices are distinct and exist. -/
structure Renumbers (maxLocals : Nat) (swizzle : List Nat) : Prop where
  length : swizzle.length = maxLocals
  lt : ∀ {j}, j < maxLocals → swizzle.getD j 0 < maxLocals
  inj : ∀ {j k}, j < maxLocals → k < maxLocals → swizzle.getD j 0 = swizzle.getD k 0 → j = k

theorem renumbers_of_perm {maxLocals : Nat} (h : swizzle.Perm (List.range maxLocals)) :
    Renumbers maxLocals swizzle := by
  have hlen : swizzle.length = maxLocals := by simpa using h.length_eq
  refine ⟨hlen, fun {j} hj => ?_, fun {j k} hj hk heq => ?_⟩
  · rw [List.getD, List.getElem?_eq_getElem (hlen ▸ hj), Option.getD_some]
    exact List.mem_range.mp (h.subset (List.getElem_mem _))
  · have hnd : swizzle.Nodup := h.nodup_iff.mpr List.nodup_range
    rw [List.getD, List.getD, List.getElem?_eq_getElem (hlen ▸ hj),
      List.getElem?_eq_getElem (hlen ▸ hk), Option.getD_some, Option.getD_some] at heq
    exact hnd.getElem_inj_iff.mp heq

theorem localsOnMethodEntry_renumbers (h : localsOnMethodEntry m = some (locals, swizzle)) :
    Renumbers m.code.maxLocals swizzle :=
  renumbers_of_perm (swizzle_perm h).1

theorem getD_set_self {α : Type} {l : List α} {i : Nat} {v d : α} (h : i < l.length) :
    (l.set i v).getD i d = v := by
  rw [List.getD, List.getElem?_set_self h, Option.getD_some]

theorem getD_set_ne {α : Type} {l : List α} {i j : Nat} {v d : α} (h : i ≠ j) :
    (l.set i v).getD j d = l.getD j d := by
  rw [List.getD, List.getElem?_set_ne h, List.getD]

/-- The loop of `use_stack_map_frame` over the locals of the frame, from the formal index `n`. -/
theorem foldl_setSwizzled {maxLocals : Nat} (h : Renumbers maxLocals swizzle) :
    ∀ (vs : List ValidationType) (n : Nat) (locals : List TypeKind), locals.length = maxLocals →
      n + vs.length ≤ maxLocals →
      ((vs.zipIdx n).foldl (fun locals p => locals.set (swizzle.getD p.2 0) p.1.kind.representation)
        locals).length = maxLocals ∧
      ∀ j, j < maxLocals →
        ((vs.zipIdx n).foldl
          (fun locals p => locals.set (swizzle.getD p.2 0) p.1.kind.representation) locals).getD
            (swizzle.getD j 0) .void =
          if n ≤ j ∧ j < n + vs.length then (vs.getD (j - n) implicitTop).kind.representation
          else locals.getD (swizzle.getD j 0) .void
  | [], n, locals, hl, _ => ⟨hl, fun j _ => by simp⟩
  | v :: vs, n, locals, hl, hn => by
    rw [List.length_cons] at hn
    obtain ⟨h1, h2⟩ := foldl_setSwizzled h vs (n + 1)
      (locals.set (swizzle.getD n 0) v.kind.representation) (by simpa using hl) (by omega)
    rw [List.zipIdx_cons, List.foldl_cons]
    refine ⟨h1, fun j hj => ?_⟩
    rw [h2 j hj, List.length_cons]
    by_cases hjn : j = n
    · subst hjn
      rw [if_neg (by omega), if_pos (by omega), Nat.sub_self, List.getD_cons_zero,
        getD_set_self (by rw [hl]; exact h.lt hj)]
    · have hne : swizzle.getD n 0 ≠ swizzle.getD j 0 := fun heq =>
        hjn (h.inj hj (by omega) heq.symm)
      by_cases hin : n + 1 ≤ j ∧ j < n + 1 + vs.length
      · rw [if_pos hin, if_pos (by omega), show j - n = j - (n + 1) + 1 by omega,
          List.getD_cons_succ]
      · rw [if_neg hin, if_neg (by omega), getD_set_ne hne]

/-- The state is that of the frame: its stack, and the kind of each formal index in its slot. -/
structure ShowsFrame (maxLocals : Nat) (swizzle : List Nat) (ctx : AnalysisCtx) (f : FrameState) :
    Prop where
  stack : ctx.stack = (f.stack.map (·.kind.representation)).reverse
  length : ctx.locals.length = maxLocals
  locals : ∀ j, j < maxLocals → ctx.locals.getD (swizzle.getD j 0) .void =
    ((expand f.locals).getD j implicitTop).kind.representation

theorem useStackMapFrame_shows (env : AnalysisEnv) {it : StackMapFrameIterator} {ctx : AnalysisCtx} {f : FrameState}
    (h : Renumbers env.code.maxLocals env.swizzle) (hl : ctx.locals.length = env.code.maxLocals)
    (hat : it.At f) (hfit : (expand f.locals).length ≤ env.code.maxLocals) :
    ShowsFrame env.code.maxLocals env.swizzle (useStackMapFrame env it ctx) f := by
  obtain ⟨h1, h2⟩ := foldl_setSwizzled h (expand f.locals) 0
    (ctx.locals.map fun _ => .void) (by simpa using hl) (by omega)
  refine ⟨by simp [useStackMapFrame, hat.stack], by simpa [useStackMapFrame, hat.locals] using h1,
    fun j hj => ?_⟩
  have := h2 j hj
  simp only [useStackMapFrame, hat.locals]
  rw [this]
  split_ifs with hin
  · rw [Nat.sub_zero]
  · rw [List.getD_eq_default (expand f.locals) _ (by omega)]
    simp [List.getD, implicitTop, ValidationTypeKind.representation]

end BJvm

import BJvm.Analysis.Dominators
import Mathlib.Logic.Relation
import Mathlib.Tactic.Common

/-!
# `idom_dfs` numbers a tree by nested intervals

`Numbered` describes what a stretch of the search has done: the blocks of `D` got intervals within
the stretch, nested as the blocks are in the tree.  Stretches over unrelated blocks add up
(`Numbered.append`).
-/

namespace BJvm

open Relation

variable {child : Nat → Nat → Prop} {children : Nat → List Nat} {rank : Nat → Nat}
  {D D' : Nat → Prop} {t t' t'' : IdomDfs} {b c x y : Nat}

/-- The search went from `t` to `t'` by numbering the blocks of `D`. -/
structure Numbered (child : Nat → Nat → Prop) (D : Nat → Prop) (t t' : IdomDfs) : Prop where
  visited : ∀ x, t'.visited x = true ↔ t.visited x = true ∨ D x
  clock : t.clock ≤ t'.clock
  old : ∀ {x}, ¬ D x → t'.idomPre x = t.idomPre x ∧ t'.idomPost x = t.idomPost x
  within : ∀ {x}, D x → t.clock ≤ t'.idomPre x ∧ t'.idomPre x < t'.idomPost x ∧
    t'.idomPost x < t'.clock
  nested : ∀ {x y}, D x → D y → ((t'.idomPre x ≤ t'.idomPre y ∧ t'.idomPost y ≤ t'.idomPost x) ↔
    ReflTransGen child x y)

namespace Numbered

theorem refl (h : ∀ x, ¬ D x) : Numbered child D t t :=
  ⟨fun x => by simp [h x], le_rfl, fun _ => ⟨rfl, rfl⟩, fun hx => absurd hx (h _),
    fun hx => absurd hx (h _)⟩

theorem congr (h : Numbered child D t t') (hD : ∀ x, D x ↔ D' x) : Numbered child D' t t' := by
  obtain rfl : D = D' := funext fun x => propext (hD x)
  exact h

theorem append (h1 : Numbered child D t t') (h2 : Numbered child D' t' t'')
    (hD : ∀ x y, D x → D' y → ¬ ReflTransGen child x y ∧ ¬ ReflTransGen child y x) :
    Numbered child (fun x => D x ∨ D' x) t t'' := by
  have hdisj : ∀ {x}, D x → ¬ D' x := fun hx hx' => (hD _ _ hx hx').1 .refl
  have hkeep : ∀ {x}, D x → t''.idomPre x = t'.idomPre x ∧ t''.idomPost x = t'.idomPost x :=
    fun hx => h2.old (hdisj hx)
  refine ⟨fun x => ?_, h1.clock.trans h2.clock, fun hx => ?_, fun hx => ?_, ?_⟩
  · rw [h2.visited, h1.visited, or_assoc]
  · rw [not_or] at hx
    rw [(h2.old hx.2).1, (h2.old hx.2).2]
    exact h1.old hx.1
  · have hc1 := h1.clock
    have hc2 := h2.clock
    rcases hx with hx | hx
    · have := h1.within hx
      rw [(hkeep hx).1, (hkeep hx).2]
      omega
    · have := h2.within hx
      omega
  · intro x y hx hy
    rcases hx with hx | hx <;> rcases hy with hy | hy
    · rw [(hkeep hx).1, (hkeep hx).2, (hkeep hy).1, (hkeep hy).2]
      exact h1.nested hx hy
    · have h3 := h1.within hx
      have h4 := h2.within hy
      rw [(hkeep hx).1, (hkeep hx).2]
      exact iff_of_false (by omega) (hD x y hx hy).1
    · have h3 := h1.within hy
      have h4 := h2.within hx
      rw [(hkeep hy).1, (hkeep hy).2]
      exact iff_of_false (by omega) (hD y x hy hx).2
    · exact h2.nested hx hy

/-- The numbers of `b` enclose what is numbered between them. -/
theorem enclose (h : Numbered child D (t.enter b) t') (hb : ¬ D b)
    (hD : ∀ x, D x → ReflTransGen child b x ∧ ¬ ReflTransGen child x b) :
    Numbered child (fun x => x = b ∨ D x) t (t'.leave b) := by
  have hpre : t'.idomPre b = t.clock := by simp [(h.old hb).1, IdomDfs.enter]
  have hpost : (t'.leave b).idomPost b = t'.clock := by simp [IdomDfs.leave]
  have hkeep : ∀ {x}, x ≠ b → (t'.leave b).idomPost x = t'.idomPost x := fun hx => by
    simp [IdomDfs.leave, hx]
  have hne : ∀ {x}, D x → x ≠ b := by
    rintro x hx rfl
    exact hb hx
  have hclock : t.clock + 1 ≤ t'.clock := h.clock
  refine ⟨fun x => ?_, ?_, fun {x} hx => ?_, fun {x} hx => ?_, ?_⟩
  · change t'.visited x = true ↔ _
    rw [h.visited, IdomDfs.enter]
    by_cases hxb : x = b
    · simp [hxb]
    · simp [hxb]
  · change t.clock ≤ t'.clock + 1
    omega
  · rw [not_or] at hx
    rw [hkeep hx.1]
    change t'.idomPre x = _ ∧ _
    rw [(h.old hx.2).1, (h.old hx.2).2]
    exact ⟨by simp [IdomDfs.enter, hx.1], rfl⟩
  · change t.clock ≤ t'.idomPre x ∧ t'.idomPre x < _ ∧ _ < t'.clock + 1
    rcases hx with rfl | hx
    · rw [hpost, hpre]
      omega
    · have := h.within hx
      change t.clock + 1 ≤ _ ∧ _ at this
      rw [hkeep (hne hx)]
      omega
  · intro x y hx hy
    change t'.idomPre x ≤ t'.idomPre y ∧ _ ↔ _
    rcases hx with rfl | hx <;> rcases hy with rfl | hy
    · exact iff_of_true ⟨le_rfl, le_rfl⟩ .refl
    · have := h.within hy
      change t.clock + 1 ≤ _ ∧ _ at this
      rw [hpost, hpre, hkeep (hne hy)]
      exact iff_of_true (by omega) (hD y hy).1
    · have := h.within hx
      change t.clock + 1 ≤ _ ∧ _ at this
      rw [hpost, hpre, hkeep (hne hx)]
      exact iff_of_false (by omega) (hD x hx).2
    · rw [hkeep (hne hx), hkeep (hne hy)]
      exact h.nested hx hy

end Numbered

/-- `child` is a forest: parents are unique and come earlier in `rank`. -/
structure IsForest (child : Nat → Nat → Prop) (rank : Nat → Nat) : Prop where
  unique : ∀ {a b x}, child a x → child b x → a = b
  rank_lt : ∀ {a x}, child a x → rank a < rank x

namespace IsForest

theorem rank_le (h : IsForest child rank) (hx : ReflTransGen child x y) : rank x ≤ rank y := by
  induction hx with
  | refl => exact le_rfl
  | tail _ he ih => exact ih.trans (h.rank_lt he).le

theorem antisymm (h : IsForest child rank) (hb : child b c) : ¬ ReflTransGen child c b :=
  fun hcb => by
    have := h.rank_le hcb
    have := h.rank_lt hb
    omega

/-- Two children of one vertex with a common descendant are one. -/
theorem sibling (h : IsForest child rank) {c' : Nat} (hc : child b c) (hc' : child b c')
    (hx : ReflTransGen child c x) (hx' : ReflTransGen child c' x) : c = c' := by
  have hright : Relator.RightUnique (Function.swap child) := fun _ _ _ h1 h2 => h.unique h1 h2
  have hup : ∀ {d d'}, child b d → child b d' → ReflTransGen child d d' → d = d' := by
    intro d d' hd hd' hdd
    rcases hdd.cases_tail with heq | ⟨p, hdp, hp⟩
    · exact heq.symm
    · rw [h.unique hp hd'] at hdp
      exact absurd hdp (h.antisymm hd)
  rcases ReflTransGen.total_of_right_unique hright hx.swap hx'.swap with h1 | h1
  · exact (hup hc' hc h1.swap).symm
  · exact hup hc hc' h1.swap

end IsForest

/-- A call of `idom_dfs` numbers the descendants of its block. -/
theorem idomDfs_numbered {n : Nat} (h : IsForest child rank)
    (hch : ∀ d w, w ∈ children d ↔ child d w) (hn : ∀ x y, child x y → rank y ≤ n) :
    ∀ (fuel : Nat) {b : Nat} {t : IdomDfs}, n < fuel + rank b → rank b ≤ n →
      (∀ x, ReflTransGen child b x → t.visited x = false) →
      Numbered child (ReflTransGen child b) t (idomDfs children fuel b t)
  | 0, b, t, hfuel, hb, _ => by omega
  | fuel + 1, b, t, hfuel, hb, hnew => by
    have hstrict : ∀ x, (∃ c ∈ children b, ReflTransGen child c x) →
        ReflTransGen child b x ∧ ¬ ReflTransGen child x b := by
      rintro x ⟨c, hc, hx⟩
      rw [hch] at hc
      exact ⟨.head hc hx, fun hxb => h.antisymm hc (hx.trans hxb)⟩
    -- the children `l` still to come, when those of `done` have been numbered
    have hloop : ∀ (l done : List Nat) (t₁ : IdomDfs), (∀ c ∈ done ++ l, c ∈ children b) →
        Numbered child (fun x => ∃ c ∈ done, ReflTransGen child c x) (t.enter b) t₁ →
        Numbered child (fun x => ∃ c ∈ done ++ l, ReflTransGen child c x) (t.enter b)
          (l.foldl (fun t c => if t.visited c then t else idomDfs children fuel c t) t₁) := by
      intro l
      induction l with
      | nil =>
        intro done t₁ _ h1
        simpa using h1
      | cons c l ih =>
        intro done t₁ hl h1
        have hcb : child b c := (hch b c).mp (hl c (by simp))
        rw [List.foldl_cons, List.append_cons] at *
        have hnew' : ∀ x, ReflTransGen child c x → (t.enter b).visited x = false := by
          intro x hx
          have hxb : x ≠ b := by
            rintro rfl
            exact h.antisymm hcb hx
          simpa [IdomDfs.enter, hxb] using hnew x (.head hcb hx)
        refine ih _ _ hl ?_
        by_cases hc : t₁.visited c = true
        · -- `c` is listed twice
          rw [if_pos hc]
          refine h1.congr fun x => ?_
          rw [h1.visited, hnew' c .refl] at hc
          obtain ⟨c', hc', hcc⟩ := hc.resolve_left (by simp)
          simp only [List.mem_append, List.mem_singleton]
          constructor
          · rintro ⟨d, hd, hx⟩
            exact ⟨d, .inl hd, hx⟩
          · rintro ⟨d, hd | rfl, hx⟩
            · exact ⟨d, hd, hx⟩
            · exact ⟨c', hc', hcc.trans hx⟩
        · rw [if_neg hc]
          have hdone : c ∉ done := fun hmem => hc ((h1.visited c).mpr (.inr ⟨c, hmem, .refl⟩))
          have hsib : ∀ {x}, (∃ d ∈ done, ReflTransGen child d x) → ¬ ReflTransGen child c x := by
            rintro x ⟨d, hd, hx⟩ hcx
            have hdb := (hch b d).mp (hl d (by simp [hd]))
            exact hdone (h.sibling hdb hcb hx hcx ▸ hd)
          have hrank := h.rank_lt hcb
          have h2 := idomDfs_numbered h hch hn fuel (b := c) (t := t₁) (by omega) (hn b c hcb)
            fun x hx => by
              rw [← Bool.not_eq_true, h1.visited, hnew' x hx]
              simpa using fun d hd hdx => hsib ⟨d, hd, hdx⟩ hx
          refine (h1.append h2 fun x y hx hy => ⟨fun hxy => ?_, fun hyx => ?_⟩).congr fun x => ?_
          · obtain ⟨d, hd, hdx⟩ := hx
            exact hsib ⟨d, hd, hdx.trans hxy⟩ hy
          · exact hsib hx (hy.trans hyx)
          · simp only [List.mem_append, List.mem_singleton, or_and_right, exists_or,
              exists_eq_left]
    have h1 := hloop (children b) [] (t.enter b) (by simp) (.refl (by simp))
    rw [List.nil_append] at h1
    refine (h1.enclose (fun hb => (hstrict b hb).2 .refl) hstrict).congr fun x => ?_
    rw [ReflTransGen.cases_head_iff, eq_comm]
    simp only [hch]

end BJvm

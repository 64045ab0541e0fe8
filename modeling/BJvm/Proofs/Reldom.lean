import BJvm.Proofs.Forest

/-!
# Relative and immediate dominators

The walk of the relative dominator loop compares preorder numbers, which only fall on the way up,
so it ends with the tree child of the semidominator (`walkReldom_child`).  The last loop therefore
follows the tree-child rule (`treeChildRule_of_idom`).
-/

namespace BJvm

open Function (update)
open Relation Graph Graph.DfsNumbering

variable {E : Nat → Nat → Prop} {T : DfsNumbering E 0} {n i w : Nat}

/-- The last block recorded on the way from `w` to `i` is the tree child of `i`. -/
theorem walkReldom_child :
    ∀ (fuel : Nat) {walk : Nat} (min : Option Nat) (reldom : Nat → Nat), walk ∈ T.S →
      T.Anc i walk → walk ≠ i → T.pre walk ≤ fuel → (∀ p ∈ min, T.pre walk < p) →
      ∃ c, T.ChildToward i c walk ∧
        walkReldom T.pre T.parent i w (fuel + 1) walk min reldom = update reldom w c
  | 0, walk, _, _, hw, hi, hne, hfuel, _ => by
    have := hi.pre_lt (hi.mem_left hw) hne.symm
    omega
  | fuel + 1, walk, min, reldom, hw, hi, hne, hfuel, hmin => by
    obtain ⟨⟨-, hr⟩, hanc⟩ := hi.of_ne hne.symm
    have hall : min.all (T.pre walk < ·) = true := by
      simpa [Option.all_eq_true] using hmin
    rw [walkReldom, if_neg hne, if_pos hall]
    by_cases hp : T.parent walk = i
    · refine ⟨walk, ⟨⟨hw, hr⟩, hp, .refl⟩, ?_⟩
      rw [walkReldom, if_pos hp]
    · obtain ⟨c, hc, heq⟩ := walkReldom_child fuel (some (T.pre walk))
        (update reldom w walk) (T.parent_mem hw hr) hanc hp
        (by have := T.parent_pre hw hr; omega) (by simpa using T.parent_pre hw hr)
      refine ⟨c, ⟨hc.1, hc.2.1, hc.2.2.trans (.parent hw hr)⟩, ?_⟩
      rw [heq, Function.update_idem]

/-- What the relative dominator loop has recorded: nothing, or the tree child of the
semidominator. -/
def ReldomInv (T : DfsNumbering E 0) (semidom reldom : Nat → Nat) : Prop :=
  ∀ w, reldom w = 0 ∨ semidom w ≠ 0 ∧ T.ChildToward (semidom w) (reldom w) w

/-- One list of the loop; what was recorded before stays recorded. -/
theorem foldl_walkReldom_inv {semidom : Nat → Nat} (hi : i ≠ 0) (hn : ∀ x ∈ T.S, T.pre x < n)
    (hsemi : ∀ x ∈ T.S, x ≠ 0 → T.IsSemidominator (semidom x) x) :
    ∀ (l : List Nat) {reldom : Nat → Nat}, (∀ w ∈ l, (w ∈ T.S ∧ w ≠ 0) ∧ semidom w = i) →
      ReldomInv T semidom reldom →
      ReldomInv T semidom
          (l.foldl (fun reldom w => walkReldom T.pre T.parent i w n w none reldom) reldom) ∧
        ∀ w, w ∈ l ∨ reldom w ≠ 0 →
          l.foldl (fun reldom w => walkReldom T.pre T.parent i w n w none reldom) reldom w ≠ 0
  | [], reldom, _, h => ⟨h, fun w hw => by simpa using hw⟩
  | w :: l, reldom, hl, h => by
    obtain ⟨⟨hw, hw0⟩, hs⟩ := hl w (by simp)
    have hsw := hs ▸ hsemi w hw hw0
    have hne : w ≠ i := fun heq => by
      have := hsw.pre_lt hw hw0
      rw [heq] at this
      omega
    have hwn := hn w hw
    obtain ⟨c, hc, heq⟩ := walkReldom_child (w := w) (n - 1) none reldom hw
      (hsw.anc hw hw0) hne (by omega) (by simp)
    rw [Nat.sub_add_cancel (by omega)] at heq
    simp only [List.foldl_cons, heq]
    have h' : ReldomInv T semidom (update reldom w c) := by
      intro x
      by_cases hx : x = w
      · subst hx
        rw [Function.update_self, hs]
        exact .inr ⟨hi, hc⟩
      · rw [Function.update_of_ne hx]
        exact h x
    obtain ⟨h1, h2⟩ := foldl_walkReldom_inv hi hn hsemi l (fun x hx => hl x (by simp [hx])) h'
    refine ⟨h1, fun x hx => h2 x ?_⟩
    by_cases hxw : x = w
    · subst hxw
      rw [Function.update_self]
      exact .inr hc.1.2
    · rw [Function.update_of_ne hxw]
      simpa [hxw] using hx

/-- The relative dominator of a block is the tree child of its semidominator, and `0` where the
semidominator is the entry block, whose list the loop skips. -/
theorem reldomLoop_spec {semidom : Nat → Nat} {idominates : Nat → List Nat} (hn : 0 < n)
    (hS : ∀ x ∈ T.S, x < n ∧ T.pre x < n)
    (hsemi : ∀ x ∈ T.S, x ≠ 0 → T.IsSemidominator (semidom x) x)
    (hlist : ∀ d w, w ∈ idominates d ↔ (w ∈ T.S ∧ w ≠ 0) ∧ semidom w = d) :
    ReldomInv T semidom (reldomLoop T.pre T.parent n idominates) ∧
      ∀ w ∈ T.S, w ≠ 0 → semidom w ≠ 0 → reldomLoop T.pre T.parent n idominates w ≠ 0 := by
  -- over any part of the range
  have hloop : ∀ (l : List Nat) (reldom : Nat → Nat), (∀ i ∈ l, i ≠ 0) →
      ReldomInv T semidom reldom →
      ReldomInv T semidom (l.foldl (fun reldom i => (idominates i).foldl
          (fun reldom w => walkReldom T.pre T.parent i w n w none reldom) reldom) reldom) ∧
        ∀ w, (w ∈ T.S ∧ w ≠ 0) ∧ semidom w ∈ l ∨ reldom w ≠ 0 →
          l.foldl (fun reldom i => (idominates i).foldl
            (fun reldom w => walkReldom T.pre T.parent i w n w none reldom) reldom) reldom w
            ≠ 0 := by
    intro l
    induction l with
    | nil => exact fun _ _ h => ⟨h, fun w hw => by simpa using hw⟩
    | cons i l ih =>
      intro reldom hl h
      obtain ⟨h1, h2⟩ := foldl_walkReldom_inv (hl i (by simp)) (fun x hx => (hS x hx).2) hsemi
        (idominates i) (fun w hw => (hlist i w).mp hw) h
      obtain ⟨h3, h4⟩ := ih _ (fun i hi => hl i (by simp [hi])) h1
      rw [List.foldl_cons]
      refine ⟨h3, fun w hw => h4 w ?_⟩
      rcases hw with ⟨hw, hmem⟩ | hw
      · rcases List.mem_cons.mp hmem with heq | hmem
        · exact .inr (h2 w (.inl ((hlist i w).mpr ⟨hw, heq⟩)))
        · exact .inl ⟨hw, hmem⟩
      · exact .inr (h2 w (.inr hw))
  obtain ⟨h1, h2⟩ := hloop (List.range' 1 (n - 1)) (fun _ => 0)
    (fun i hi => by simp only [List.mem_range'_1] at hi; omega) (fun w => .inl rfl)
  refine ⟨h1, fun w hw hw0 hs => h2 w (.inl ⟨⟨hw, hw0⟩, ?_⟩)⟩
  have := (hS _ (hsemi w hw hw0).1.1).1
  simp only [List.mem_range'_1]
  omega

/-! ### The last loop -/

/-- What the last loop has computed for the blocks numbered before `p`. -/
structure IdomInv (T : DfsNumbering E 0) (semidom reldom : Nat → Nat) (p : Nat)
    (s : (Nat → Nat) × (Nat → List Nat)) : Prop where
  root : s.1 0 = 0
  idom : ∀ {w}, w ∈ T.S → w ≠ 0 → T.pre w < p →
    s.1 w = if w = reldom w then semidom w else s.1 (reldom w)
  idominates : ∀ {d w}, w ∈ s.2 d ↔ (w ∈ T.S ∧ w ≠ 0 ∧ T.pre w < p) ∧ s.1 w = d

theorem idomStep_inv {semidom reldom preToBlock : Nat → Nat}
    {s : (Nat → Nat) × (Nat → List Nat)} {p : Nat} (hrel : ReldomInv T semidom reldom)
    (hnum : ∀ x ∈ T.S, preToBlock (T.pre x) = x) (hi : i ∈ T.S) (hi0 : i ≠ 0) (hp : T.pre i = p)
    (h : IdomInv T semidom reldom p s) :
    IdomInv T semidom reldom (p + 1) (idomStep preToBlock semidom reldom s p) := by
  have hpi : preToBlock p = i := hp ▸ hnum i hi
  set d := if i = reldom i then semidom i else s.1 (reldom i) with hd
  have hstep : idomStep preToBlock semidom reldom s p =
      (update s.1 i d, update s.2 d (s.2 d ++ [i])) := by
    simp only [idomStep, hpi, hd]
  have hlt : ∀ {x}, x ∈ T.S → x ≠ i → (T.pre x < p + 1 ↔ T.pre x < p) := by
    intro x hx hxi
    have : T.pre x ≠ p := fun h => hxi (T.pre_inj hx hi (h.trans hp.symm))
    omega
  -- the relative dominator of an earlier block, or of `i`, is not `i`
  have hreldom : ∀ {x}, T.pre x ≤ p → x ≠ reldom x → reldom x ≠ i := by
    rintro x hx hne rfl
    rcases hrel x with h0 | ⟨-, ⟨hc, -⟩, -, hanc⟩
    · exact hi0 h0
    · have := hanc.pre_lt hc hne.symm
      omega
  rw [hstep]
  refine ⟨by simpa [hi0.symm] using h.root, ?_, ?_⟩
  · intro w hw hw0 hwp
    dsimp only
    by_cases hwi : w = i
    · subst hwi
      rw [Function.update_self]
      by_cases heq : w = reldom w
      · rw [hd, if_pos heq, if_pos heq]
      · rw [hd, if_neg heq, if_neg heq, Function.update_of_ne (hreldom hp.le heq)]
    · have hwp' := (hlt hw hwi).mp hwp
      rw [Function.update_of_ne hwi, h.idom hw hw0 hwp']
      by_cases heq : w = reldom w
      · rw [if_pos heq, if_pos heq]
      · rw [if_neg heq, if_neg heq, Function.update_of_ne (hreldom hwp'.le heq)]
  · intro e w
    have hlist : w ∈ update s.2 d (s.2 d ++ [i]) e ↔ w ∈ s.2 e ∨ w = i ∧ d = e := by
      by_cases hed : e = d
      · subst hed
        simp
      · simp [hed, Ne.symm hed]
    rw [hlist, h.idominates]
    by_cases hwi : w = i
    · subst hwi
      simp [hi, hi0, hp]
    · simp only [Function.update_of_ne hwi, hwi, false_and, or_false]
      exact and_congr_left fun _ => and_congr_right fun hw => and_congr_right fun _ =>
        (hlt hw hwi).symm

theorem foldl_idomStep_inv {semidom reldom preToBlock : Nat → Nat}
    (hrel : ReldomInv T semidom reldom) (hnum : ∀ x ∈ T.S, preToBlock (T.pre x) = x)
    (hroot : T.pre 0 = 0) :
    ∀ (m p : Nat) {s : (Nat → Nat) × (Nat → List Nat)}, 1 ≤ p →
      (∀ q, q < p + m → ∃ x ∈ T.S, T.pre x = q) → IdomInv T semidom reldom p s →
      IdomInv T semidom reldom (p + m)
        ((List.range' p m).foldl (idomStep preToBlock semidom reldom) s)
  | 0, p, s, _, _, h => h
  | m + 1, p, s, hp, honto, h => by
    obtain ⟨i, hi, hip⟩ := honto p (by omega)
    have hi0 : i ≠ 0 := by
      rintro rfl
      omega
    have := foldl_idomStep_inv hrel hnum hroot m (p + 1) (by omega)
      (fun q hq => honto q (by omega)) (idomStep_inv hrel hnum hi hi0 hip h)
    rw [List.range'_succ, List.foldl_cons]
    rwa [show p + (m + 1) = p + 1 + m by omega]

section

variable {semidom reldom : Nat → Nat} {p : Nat} {s : (Nat → Nat) × (Nat → List Nat)}
  (hsemi : ∀ x ∈ T.S, x ≠ 0 → T.IsSemidominator (semidom x) x)
  (hrel : ReldomInv T semidom reldom) (hp : ∀ x ∈ T.S, T.pre x < p)
  (h : IdomInv T semidom reldom p s)

include hsemi hrel hp h

/-- The last loop copies from the tree child of the semidominator. -/
theorem treeChildRule_of_idom (hroot : T.pre 0 = 0)
    (hrel' : ∀ w ∈ T.S, w ≠ 0 → semidom w ≠ 0 → reldom w ≠ 0) : T.TreeChildRule s.1 := by
  have hzero : ∀ {w}, w ∈ T.S → w ≠ 0 → semidom w = 0 → s.1 w = 0 := by
    intro w hw hw0 hs
    have hr : reldom w = 0 := (hrel w).elim id fun hc => absurd hs hc.1
    rw [h.idom hw hw0 (hp w hw), hr, if_neg hw0, h.root]
  intro w d c hw hw0 hd hc
  obtain rfl := hd.unique (hsemi w hw hw0)
  by_cases hs : semidom w = 0
  · have hcs : semidom c = 0 := by
      have he := T.parent_edge hc.1.1 hc.1.2
      rw [hc.2.1, hs] at he
      have hle := (hsemi c hc.1.1 hc.1.2).2 0 (.of_edge T.root_mem he)
      exact T.pre_inj (hsemi c hc.1.1 hc.1.2).1.1 T.root_mem (by omega)
    rw [hzero hw hw0 hs, hzero hc.1.1 hc.1.2 hcs, hs]
    exact ⟨fun _ => rfl, fun _ => rfl⟩
  · have hrc : reldom w = c := by
      rcases hrel w with h0 | ⟨-, hc'⟩
      · exact absurd h0 (hrel' w hw hw0 hs)
      · -- both are children of one vertex on one path
        rcases le_total (T.pre (reldom w)) (T.pre c) with hle | hle
        · exact hc'.unique hc hw hle
        · exact (hc.unique hc' hw hle).symm
    rw [h.idom hw hw0 (hp w hw), hrc]
    exact ⟨fun heq => if_pos heq.symm, fun hne => if_neg fun heq => hne heq.symm⟩

/-- What the last loop stores is above the block in the tree, right or wrong. -/
theorem idom_anc (hw : w ∈ T.S) (hw0 : w ≠ 0) : T.Anc (s.1 w) w ∧ s.1 w ≠ w := by
  induction hk : T.pre w using Nat.strong_induction_on generalizing w with
  | _ k ih =>
    subst hk
    have hsw := hsemi w hw hw0
    rw [h.idom hw hw0 (hp w hw)]
    split_ifs with heq
    · refine ⟨hsw.anc hw hw0, fun he => ?_⟩
      have := hsw.pre_lt hw hw0
      rw [he] at this
      omega
    · rcases hrel w with h0 | ⟨-, ⟨hc, hc0⟩, -, hanc⟩
      · rw [h0, h.root]
        exact ⟨root_anc hw, hw0.symm⟩
      · have hlt := hanc.pre_lt hc (Ne.symm heq)
        obtain ⟨h1, h2⟩ := ih _ hlt hc hc0 rfl
        refine ⟨h1.trans hanc, fun he => ?_⟩
        have := h1.pre_le
        rw [he] at this
        omega

end

end BJvm

import BJvm.Analysis.Dominators
import BJvm.Graph.Semidominator

/-!
# The semidominator loop

While the blocks numbered after `m` are done, the forest `F` leads from a done block up its tree
path, over done blocks only (`Forest`).  So the root of a block is its nearest ancestor that is
not done, the walk to it meets exactly the ancestors whose semidominators count
(`walkToRoot_isLeast`), and a step finds the least candidate (`semidomStep_inv`).
-/

namespace BJvm

open Function (update)
open Graph Graph.DfsNumbering

variable {E : Nat → Nat → Prop} (T : DfsNumbering E 0) {m n i x y z : Nat} {F : Nat → Nat}

/-- `z` is an ancestor of `x`, and everything below `z` on the path to `x` comes after `m`. -/
def Clear (m z x : Nat) : Prop := T.Anc z x ∧ ∀ y, T.Anc y x → T.pre z < T.pre y → m < T.pre y

/-- The forest when the blocks that come after `m` are done. -/
structure Forest (m : Nat) (F : Nat → Nat) : Prop where
  clear : ∀ {x}, x ∈ T.S → Clear T m (F x) x
  root : ∀ {x}, x ∈ T.S → (F x = x ↔ T.pre x ≤ m)

/-- The values of `P`, if any, have the least element `sd`. -/
def IsMin (P : Nat → Prop) : Option Nat → Prop
  | none => ∀ v, ¬ P v
  | some x => P x ∧ ∀ v, P v → x ≤ v

variable {T}

theorem Clear.refl : Clear T m x x := ⟨.refl, fun _ hy hlt => absurd hy.pre_le (by omega)⟩

theorem Clear.trans (hx : x ∈ T.S) (h1 : Clear T m z y) (h2 : Clear T m y x) : Clear T m z x := by
  refine ⟨h1.1.trans h2.1, fun u hu hlt => ?_⟩
  rcases le_or_gt (T.pre u) (T.pre y) with hle | hgt
  · exact h1.2 u (hu.of_pre_le h2.1 hx hle) hlt
  · exact h2.2 u hu hgt

theorem Clear.parent (hx : x ∈ T.S) (hr : x ≠ 0) (hm : m < T.pre x) :
    Clear T m (T.parent x) x := by
  refine ⟨.parent hx hr, fun y hy hlt => ?_⟩
  by_cases hyx : y = x
  · rwa [hyx]
  · exact absurd (hy.of_ne hyx).2.pre_le (by omega)

theorem Clear.mono {m' : Nat} (h : Clear T m z x) (hm : m' ≤ m) : Clear T m' z x :=
  ⟨h.1, fun y hy hlt => by
    have := h.2 y hy hlt
    omega⟩

theorem Clear.pre_lt (h : Clear T m z x) (hx : x ∈ T.S) (hne : z ≠ x) : T.pre z < T.pre x :=
  h.1.pre_lt (h.1.mem_left hx) hne

/-- Before the loop every block is a root. -/
theorem forest_id (hS : ∀ x ∈ T.S, T.pre x ≤ m) : Forest T m id :=
  ⟨fun _ => .refl, fun hx => by simp [hS _ hx]⟩

/-- Path halving keeps the forest. -/
theorem Forest.halve (h : Forest T m F) (hx : x ∈ T.S) (hne : F x ≠ x) :
    Forest T m (update F x (F (F x))) := by
  have hFx := (h.clear hx).1.mem_left hx
  have hcl : Clear T m (F (F x)) x := (h.clear hFx).trans hx (h.clear hx)
  constructor
  · intro y hy
    by_cases hyx : y = x
    · subst hyx
      simpa using hcl
    · simpa [hyx] using h.clear hy
  · intro y hy
    by_cases hyx : y = x
    · subst hyx
      have h1 := (h.clear hx).pre_lt hx hne
      have h2 := (h.clear hFx).1.pre_le
      simp only [Function.update_self, ← h.root hx, hne, iff_false]
      intro heq
      rw [heq] at h2
      omega
    · simpa [hyx] using h.root hy

/-- The block with number `m + 1` joins its parent. -/
theorem Forest.link (h : Forest T (m + 1) F) (hi : i ∈ T.S) (hp : T.pre i = m + 1) (hr : i ≠ 0) :
    Forest T m (update F i (T.parent i)) := by
  have hne : T.parent i ≠ i := fun heq => by
    have := T.parent_pre hi hr
    rw [heq] at this
    omega
  constructor
  · intro x hx
    by_cases hxi : x = i
    · subst hxi
      simpa using Clear.parent hx hr (by omega)
    · simpa [hxi] using (h.clear hx).mono (by omega)
  · intro x hx
    by_cases hxi : x = i
    · subst hxi
      simp [hne, hp]
    · have hpre : T.pre x ≠ m + 1 := fun h => hxi (T.pre_inj hx hi (h.trans hp.symm))
      rw [Function.update_of_ne hxi, h.root hx]
      omega

/-- The lookup finds the nearest ancestor that is not done, and keeps the forest. -/
theorem findRoot_clear (hx : x ∈ T.S) :
    ∀ (fuel : Nat) {F : Nat → Nat} {z : Nat}, Forest T m F → Clear T m z x → T.pre z ≤ fuel →
      Forest T m (findRoot fuel F z).1 ∧ Clear T m (findRoot fuel F z).2 x ∧
        T.pre (findRoot fuel F z).2 ≤ m
  | 0, F, z, hF, hz, hfuel => by
    have hzS := hz.1.mem_left hx
    refine ⟨hF, hz, (hF.root hzS).mp ?_⟩
    by_contra hne
    have := (hF.clear hzS).pre_lt hzS hne
    omega
  | fuel + 1, F, z, hF, hz, hfuel => by
    have hzS := hz.1.mem_left hx
    rw [findRoot]
    by_cases hne : F z = z
    · rw [if_neg (not_not.mpr hne)]
      exact ⟨hF, hz, (hF.root hzS).mp hne⟩
    · rw [if_pos hne]
      have hFz := (hF.clear hzS).1.mem_left hzS
      have hlt := (hF.clear hzS).pre_lt hzS hne
      have hle := (hF.clear hFz).1.pre_le
      refine findRoot_clear hx fuel (hF.halve hzS hne) ?_ (by omega)
      exact ((hF.clear hFz).trans hzS (hF.clear hzS)).trans hx hz

/-! ### The least candidate -/

theorem IsMin.congr {P Q : Nat → Prop} {sd : Option Nat} (h : IsMin P sd)
    (hPQ : ∀ v, P v ↔ Q v) : IsMin Q sd := by
  obtain rfl : P = Q := funext fun v => propext (hPQ v)
  exact h

theorem IsMin.lower {P : Nat → Prop} {sd : Option Nat} (h : IsMin P sd) (x : Nat) :
    IsMin (fun v => P v ∨ v = x) (lower sd x) := by
  rcases sd with _ | y
  · exact ⟨.inr rfl, fun v hv => (hv.resolve_left (h v)).ge⟩
  · simp only [BJvm.lower]
    split_ifs with hxy
    · refine ⟨.inr rfl, fun v hv => ?_⟩
      rcases hv with hv | rfl
      · exact hxy.le.trans (h.2 v hv)
      · exact le_rfl
    · refine ⟨.inl h.1, fun v hv => ?_⟩
      rcases hv with hv | rfl
      · exact h.2 v hv
      · exact not_lt.mp hxy

/-- The walk takes in the ancestors of `prev` below `root`. -/
theorem walkToRoot_isMin {semidom : Nat → Nat} {root : Nat} :
    ∀ (fuel : Nat) {prev : Nat} {P : Nat → Prop} {sd : Option Nat}, prev ∈ T.S →
      T.Anc root prev → root ≠ prev → T.pre prev ≤ fuel → IsMin P sd →
      IsMin (fun v => P v ∨ ∃ y, T.Anc y prev ∧ T.pre root < T.pre y ∧ v = T.pre (semidom y))
        (walkToRoot T.pre T.parent semidom root fuel prev sd)
  | 0, prev, P, sd, hprev, hroot, hne, hfuel, _ => by
    have := hroot.pre_lt (hroot.mem_left hprev) hne
    omega
  | fuel + 1, prev, P, sd, hprev, hroot, hne, hfuel, h => by
    obtain ⟨⟨-, hr⟩, hanc⟩ := hroot.of_ne hne
    have hlt := hroot.pre_lt (hroot.mem_left hprev) hne
    have hpar := T.parent_pre hprev hr
    -- an ancestor of `prev` is `prev` or an ancestor of its parent
    have hsplit : ∀ y, T.Anc y prev ↔ y = prev ∨ T.Anc y (T.parent prev) := by
      intro y
      constructor
      · intro hy
        by_cases hyp : y = prev
        · exact .inl hyp
        · exact .inr (hy.of_ne hyp).2
      · rintro (rfl | hy)
        · exact .refl
        · exact hy.trans (.parent hprev hr)
    simp only [walkToRoot]
    split_ifs with hpr
    · refine (walkToRoot_isMin fuel (T.parent_mem hprev hr) hanc (fun h => hpr h.symm) (by omega)
        (h.lower (T.pre (semidom prev)))).congr fun v => ?_
      constructor
      · rintro ((hv | rfl) | ⟨y, hy, hlt', rfl⟩)
        · exact .inl hv
        · exact .inr ⟨prev, .refl, hlt, rfl⟩
        · exact .inr ⟨y, (hsplit y).mpr (.inr hy), hlt', rfl⟩
      · rintro (hv | ⟨y, hy, hlt', rfl⟩)
        · exact .inl (.inl hv)
        · rcases (hsplit y).mp hy with rfl | hy
          · exact .inl (.inr rfl)
          · exact .inr ⟨y, hy, hlt', rfl⟩
    · rw [ne_eq, not_not] at hpr
      refine (h.lower (T.pre (semidom prev))).congr fun v => or_congr_right ?_
      constructor
      · rintro rfl
        exact ⟨prev, .refl, hlt, rfl⟩
      · rintro ⟨y, hy, hlt', rfl⟩
        rcases (hsplit y).mp hy with rfl | hy
        · rfl
        · have := hy.pre_le
          rw [hpr] at this
          omega

/-- What the predecessor `x` of `i` adds to the minimum. -/
def Offers (T : DfsNumbering E 0) (semidom : Nat → Nat) (i x v : Nat) : Prop :=
  (T.pre x < T.pre i ∧ v = T.pre x) ∨
    ∃ y, T.Anc y x ∧ T.pre i < T.pre y ∧ v = T.pre (semidom y)

theorem scanPred_isMin (semidom : Nat → Nat) {P : Nat → Prop} {sd : Option Nat} (hi : i ∈ T.S)
    (hx : x ∈ T.S) (hn : T.pre x ≤ n) (hF : Forest T (T.pre i) F) (h : IsMin P sd) :
    Forest T (T.pre i) (scanPred T.pre T.parent n i semidom (F, sd) x).1 ∧
      IsMin (fun v => P v ∨ Offers T semidom i x v)
        (scanPred T.pre T.parent n i semidom (F, sd) x).2 := by
  simp only [scanPred]
  split_ifs with hxi hlt
  · subst hxi
    refine ⟨hF, h.congr fun v => ?_⟩
    simp only [Offers, lt_self_iff_false, false_and, false_or, iff_self_or, forall_exists_index,
      and_imp]
    intro y hy hlt
    exact absurd hy.pre_le (by omega)
  · refine ⟨hF, (h.lower (T.pre x)).congr fun v => or_congr_right ?_⟩
    simp only [Offers, hlt, true_and, iff_self_or, forall_exists_index, and_imp]
    intro y hy hlt'
    exact absurd hy.pre_le (by omega)
  · have hlt' : T.pre i < T.pre x :=
      lt_of_le_of_ne (not_lt.mp hlt) fun h => hxi (T.pre_inj hi hx h).symm
    obtain ⟨h1, h2, h3⟩ := findRoot_clear hx n hF (.refl (x := x)) hn
    have hne : (findRoot n F x).2 ≠ x := fun heq => by
      rw [heq] at h3
      omega
    refine ⟨h1, (walkToRoot_isMin n hx h2.1 hne hn h).congr fun v => or_congr_right ?_⟩
    simp only [Offers, hlt, false_and, false_or]
    constructor
    · rintro ⟨y, hy, hlt, rfl⟩
      exact ⟨y, hy, h2.2 y hy hlt, rfl⟩
    · rintro ⟨y, hy, hlt, rfl⟩
      exact ⟨y, hy, by omega, rfl⟩

theorem foldl_scanPred_isMin (semidom : Nat → Nat) (hi : i ∈ T.S) (hn : ∀ x ∈ T.S, T.pre x ≤ n) :
    ∀ (l : List Nat) {F : Nat → Nat} {P : Nat → Prop} {sd : Option Nat}, (∀ x ∈ l, x ∈ T.S) →
      Forest T (T.pre i) F → IsMin P sd →
      Forest T (T.pre i) (l.foldl (scanPred T.pre T.parent n i semidom) (F, sd)).1 ∧
        IsMin (fun v => P v ∨ ∃ x ∈ l, Offers T semidom i x v)
          (l.foldl (scanPred T.pre T.parent n i semidom) (F, sd)).2
  | [], F, P, sd, _, hF, h => ⟨hF, h.congr fun v => by simp⟩
  | x :: l, F, P, sd, hl, hF, h => by
    obtain ⟨h1, h2⟩ := scanPred_isMin semidom hi (hl x (by simp))
      (hn x (hl x (by simp))) hF h
    obtain ⟨h3, h4⟩ := foldl_scanPred_isMin semidom hi hn l (fun y hy => hl y (by simp [hy])) h1 h2
    refine ⟨h3, h4.congr fun v => ?_⟩
    simp [or_assoc]

/-! ### The loop -/

/-- What the semidominator loop has found when the blocks that come after `m` are done. -/
structure SemidomInv (T : DfsNumbering E 0) (m : Nat) (s : SemidomState) : Prop where
  forest : Forest T m s.F
  semidom : ∀ {x}, x ∈ T.S → x ≠ 0 → m < T.pre x → T.IsSemidominator (s.semidom x) x
  idominates : ∀ {d w}, w ∈ s.idominates d ↔ w ∈ T.S ∧ m < T.pre w ∧ s.semidom w = d

theorem semidomStep_inv {prev : Nat → List Nat} {preToBlock : Nat → Nat} {s : SemidomState}
    (hpred : ∀ x ∈ T.S, ∀ y, y ∈ prev x ↔ y ∈ T.S ∧ E y x)
    (hnum : ∀ x ∈ T.S, preToBlock (T.pre x) = x) (hn : ∀ x ∈ T.S, T.pre x ≤ n)
    (hi : i ∈ T.S) (hr : i ≠ 0) (hp : T.pre i = m + 1) (h : SemidomInv T (m + 1) s) :
    SemidomInv T m (semidomStep T.pre T.parent n prev preToBlock s (m + 1)) := by
  have hpi : preToBlock (m + 1) = i := hp ▸ hnum i hi
  have hpos : ∀ {y}, m + 1 < T.pre y → y ≠ 0 := by
    rintro y hy rfl
    exact absurd (root_pre_le hi) (by omega)
  obtain ⟨h1, h2⟩ := foldl_scanPred_isMin s.semidom (P := fun _ => False) hi hn (prev i) (fun x hx => ((hpred i hi x).mp hx).1) (hp ▸ h.forest)
    (show IsMin _ none from fun _ => id)
  -- the values offered are the numbers of the candidates
  have hcand : ∀ v, (False ∨ ∃ x ∈ prev i, Offers T s.semidom i x v) ↔
      ∃ c, T.Candidate c i ∧ v = T.pre c := by
    intro v
    rw [false_or]
    constructor
    · rintro ⟨x, hx, ⟨hlt, rfl⟩ | ⟨y, hy, hlt, rfl⟩⟩
      · obtain ⟨hxS, he⟩ := (hpred i hi x).mp hx
        exact ⟨x, .inl ⟨he, hxS, hlt⟩, rfl⟩
      · obtain ⟨hxS, he⟩ := (hpred i hi x).mp hx
        exact ⟨_, .inr ⟨x, y, he, hxS, hy, hlt,
          h.semidom (hy.mem_left hxS) (hpos (by omega)) (by omega)⟩, rfl⟩
    · rintro ⟨c, ⟨he, hc, hlt⟩ | ⟨x, y, he, hx, hy, hlt, hs⟩, rfl⟩
      · exact ⟨c, (hpred i hi c).mpr ⟨hc, he⟩, .inl ⟨hlt, rfl⟩⟩
      · refine ⟨x, (hpred i hi x).mpr ⟨hx, he⟩, .inr ⟨y, hy, hlt, ?_⟩⟩
        rw [hs.unique (h.semidom (hy.mem_left hx) (hpos (by omega)) (by omega))]
  have hmin := h2.congr hcand
  obtain ⟨c, hc, hsd⟩ : ∃ c, T.IsSemidominator c i ∧
      ((prev i).foldl (scanPred T.pre T.parent n i s.semidom) (s.F, none)).2 = some (T.pre c) := by
    rcases hsd : ((prev i).foldl (scanPred T.pre T.parent n i s.semidom) (s.F, none)).2 with _ | v
    · rw [hsd] at hmin
      exact absurd ⟨T.parent i, .inl ⟨T.parent_edge hi hr, T.parent_mem hi hr,
        T.parent_pre hi hr⟩, rfl⟩ (hmin _)
    · rw [hsd] at hmin
      obtain ⟨⟨c, hc, rfl⟩, hle⟩ := hmin
      exact ⟨c, isSemidominator_of_least hi hr hc fun v hv => hle _ ⟨v, hv, rfl⟩, rfl⟩
  have hstep : semidomStep T.pre T.parent n prev preToBlock s (m + 1) =
      { F := update ((prev i).foldl (scanPred T.pre T.parent n i s.semidom) (s.F, none)).1 i
          (T.parent i)
        semidom := update s.semidom i c
        idominates := update s.idominates c (s.idominates c ++ [i]) } := by
    simp only [semidomStep, hpi, hsd, Option.getD_some, hnum c hc.1.1]
  rw [hstep]
  have hne : ∀ {x}, x ∈ T.S → x ≠ i → (m < T.pre x ↔ m + 1 < T.pre x) := by
    intro x hx hxi
    have : T.pre x ≠ m + 1 := fun h => hxi (T.pre_inj hx hi (h.trans hp.symm))
    omega
  refine ⟨Forest.link (hp ▸ h1) hi hp hr, ?_, ?_⟩
  · intro x hx hx0 hlt
    by_cases hxi : x = i
    · subst hxi
      simpa using hc
    · simpa [hxi] using h.semidom hx hx0 ((hne hx hxi).mp hlt)
  · intro d w
    have hold : w ∈ s.idominates d ↔ w ∈ T.S ∧ m + 1 < T.pre w ∧ s.semidom w = d := h.idominates
    have hlist : w ∈ update s.idominates c (s.idominates c ++ [i]) d ↔
        w ∈ s.idominates d ∨ w = i ∧ c = d := by
      by_cases hdc : d = c
      · subst hdc
        simp
      · simp [hdc, Ne.symm hdc]
    rw [hlist, hold]
    by_cases hwi : w = i
    · subst hwi
      simp [hi, hp]
    · simp only [Function.update_of_ne hwi, hwi, false_and, or_false]
      exact and_congr_right fun hw => by rw [hne hw hwi]

/-- The loop run from the last block down finds the semidominators. -/
theorem foldl_semidomStep_inv {prev : Nat → List Nat} {preToBlock : Nat → Nat}
    (hpred : ∀ x ∈ T.S, ∀ y, y ∈ prev x ↔ y ∈ T.S ∧ E y x)
    (hnum : ∀ x ∈ T.S, preToBlock (T.pre x) = x) (hn : ∀ x ∈ T.S, T.pre x ≤ n)
    (hroot : T.pre 0 = 0) :
    ∀ (m : Nat) {s : SemidomState}, (∀ p, p ≤ m → ∃ x ∈ T.S, T.pre x = p) → SemidomInv T m s →
      SemidomInv T 0 ((List.range' 1 m).reverse.foldl
        (semidomStep T.pre T.parent n prev preToBlock) s)
  | 0, s, _, h => by simpa using h
  | m + 1, s, hm, h => by
    obtain ⟨i, hi, hp⟩ := hm (m + 1) le_rfl
    have hr : i ≠ 0 := by
      rintro rfl
      omega
    rw [List.range'_concat, List.reverse_append, List.reverse_singleton, List.singleton_append,
      List.foldl_cons, Nat.one_mul, Nat.add_comm 1 m]
    exact foldl_semidomStep_inv hpred hnum hn hroot m (fun p hp => hm p (by omega))
      (semidomStep_inv hpred hnum hn hi hr hp h)

end BJvm

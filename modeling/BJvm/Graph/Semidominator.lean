import BJvm.Graph.Dominance
import Mathlib.Order.Minimal

/-!
# Depth-first trees and semidominators

`DfsNumbering` is what a depth-first search leaves behind: a preorder and the tree parents, such
that an edge to a later vertex goes to a descendant and the descendants of a vertex are numbered
consecutively.  From these two facts come the path lemma of Lengauer and Tarjan
(`exists_common_anc`), the recurrence for semidominators (`isSemidominator_of_least`), and a
criterion for a tree ancestor to dominate (`dominates_of_semi_ge`).

`treeChild_rule_iff` answers when immediate dominators may be copied from the tree child of the
semidominator.
-/

namespace Graph

open Relation

variable {V : Type*}

/-- The result of a depth-first search from `r`, on the vertices `S` it visits. -/
structure DfsNumbering (E : V → V → Prop) (r : V) where
  S : Set V
  pre : V → ℕ
  parent : V → V
  root_mem : r ∈ S
  edge_mem : ∀ {x y}, x ∈ S → E x y → y ∈ S
  pre_inj : ∀ {x y}, x ∈ S → y ∈ S → pre x = pre y → x = y
  parent_mem : ∀ {x}, x ∈ S → x ≠ r → parent x ∈ S
  parent_edge : ∀ {x}, x ∈ S → x ≠ r → E (parent x) x
  parent_pre : ∀ {x}, x ∈ S → x ≠ r → pre (parent x) < pre x
  edge_anc : ∀ {x y}, x ∈ S → E x y → pre x < pre y →
    ReflTransGen (fun a b => (b ∈ S ∧ b ≠ r) ∧ parent b = a) x y
  interval : ∀ {a x b}, x ∈ S → b ∈ S →
    ReflTransGen (fun a b => (b ∈ S ∧ b ≠ r) ∧ parent b = a) a b →
    pre a ≤ pre x → pre x ≤ pre b → ReflTransGen (fun a b => (b ∈ S ∧ b ≠ r) ∧ parent b = a) a x

namespace DfsNumbering

variable {E : V → V → Prop} {r : V} (T : DfsNumbering E r) {a b c d s u v w x y : V}

/-- `a` is a tree ancestor of `b`, or `b` itself. -/
def Anc (a b : V) : Prop :=
  ReflTransGen (fun a b => (b ∈ T.S ∧ b ≠ r) ∧ T.parent b = a) a b

/-- The vertex `v` begins a path to `w` whose inner vertices all come after `w` in preorder. -/
def SemiPath (v w : V) : Prop :=
  v ∈ T.S ∧ ∃ u, E v u ∧ ReflTransGen (fun x y => E x y ∧ T.pre w < T.pre x) u w

/-- The first vertex in preorder that begins such a path. -/
def IsSemidominator (s w : V) : Prop :=
  T.SemiPath s w ∧ ∀ v, T.SemiPath v w → T.pre s ≤ T.pre v

/-- `c` is the tree child of `s` on the tree path to `w`. -/
def ChildToward (s c w : V) : Prop := (c ∈ T.S ∧ c ≠ r) ∧ T.parent c = s ∧ T.Anc c w

variable {T}

namespace Anc

theorem refl : T.Anc a a := ReflTransGen.refl

theorem trans (h1 : T.Anc a b) (h2 : T.Anc b c) : T.Anc a c := ReflTransGen.trans h1 h2

theorem parent (hx : x ∈ T.S) (hr : x ≠ r) : T.Anc (T.parent x) x := .single ⟨⟨hx, hr⟩, rfl⟩

theorem pre_le (h : T.Anc a b) : T.pre a ≤ T.pre b := by
  induction h with
  | refl => exact le_rfl
  | tail _ he ih =>
    obtain ⟨⟨hb, hbr⟩, rfl⟩ := he
    exact ih.trans (T.parent_pre hb hbr).le

theorem mem (h : T.Anc a b) (ha : a ∈ T.S) : b ∈ T.S := by
  induction h with
  | refl => exact ha
  | tail _ he _ => exact he.1.1

theorem mem_left (h : T.Anc a b) (hb : b ∈ T.S) : a ∈ T.S := by
  induction h with
  | refl => exact hb
  | tail _ he ih =>
    obtain ⟨⟨h1, h2⟩, rfl⟩ := he
    exact ih (T.parent_mem h1 h2)

theorem pre_lt (h : T.Anc a b) (ha : a ∈ T.S) (hne : a ≠ b) : T.pre a < T.pre b :=
  lt_of_le_of_ne h.pre_le fun he => hne (T.pre_inj ha (h.mem ha) he)

/-- Of two ancestors of one vertex, the one that comes first is an ancestor of the other. -/
theorem of_pre_le (ha : T.Anc a c) (hb : T.Anc b c) (hc : c ∈ T.S) (h : T.pre a ≤ T.pre b) :
    T.Anc a b :=
  T.interval (hb.mem_left hc) hc ha h hb.pre_le

/-- The parent of a proper descendant is still a descendant. -/
theorem of_ne (h : T.Anc a b) (hne : a ≠ b) : (b ∈ T.S ∧ b ≠ r) ∧ T.Anc a (T.parent b) := by
  cases h with
  | refl => exact absurd rfl hne
  | tail h he =>
    obtain ⟨hb, rfl⟩ := he
    exact ⟨hb, h⟩

/-- A proper ancestor of `b` has a child on the path to `b`. -/
theorem exists_child (h : T.Anc a b) (hne : a ≠ b) : ∃ c, T.ChildToward a c b := by
  rcases h.cases_head with rfl | ⟨c, ⟨hc, hp⟩, hcb⟩
  · exact absurd rfl hne
  · exact ⟨c, hc, hp, hcb⟩

/-- The tree path below `a` keeps away from every vertex that comes no later than `a`. -/
theorem reach (h : T.Anc a b) (hd : T.pre d ≤ T.pre a) :
    ReflTransGen (fun x y => E x y ∧ y ≠ d) a b := by
  induction h with
  | refl => exact .refl
  | @tail x y h he ih =>
    obtain ⟨⟨hb, hbr⟩, rfl⟩ := he
    refine ih.tail ⟨T.parent_edge hb hbr, ?_⟩
    rintro rfl
    have := T.parent_pre hb hbr
    have := pre_le h
    omega

end Anc

/-- There is one child of `s` on the tree path to `w`. -/
theorem ChildToward.unique (hc : T.ChildToward s c w) (hd : T.ChildToward s d w) (hw : w ∈ T.S)
    (hle : T.pre c ≤ T.pre d) : c = d := by
  by_contra hne
  have h1 := (hc.2.2.of_pre_le hd.2.2 hw hle).of_ne hne
  have h2 := h1.2.pre_le
  have h3 := T.parent_pre hc.1.1 hc.1.2
  rw [hd.2.1] at h2
  rw [hc.2.1] at h3
  omega

theorem root_pre_le (hx : x ∈ T.S) : T.pre r ≤ T.pre x := by
  induction hn : T.pre x using Nat.strong_induction_on generalizing x with
  | _ n ih =>
    subst hn
    by_cases hr : x = r
    · rw [hr]
    · have hlt := T.parent_pre hx hr
      exact (ih _ hlt (T.parent_mem hx hr) rfl).trans hlt.le

theorem root_anc (hx : x ∈ T.S) : T.Anc r x := by
  induction hn : T.pre x using Nat.strong_induction_on generalizing x with
  | _ n ih =>
    subst hn
    by_cases hr : x = r
    · rw [hr]
      exact .refl
    · exact (ih _ (T.parent_pre hx hr) (T.parent_mem hx hr) rfl).trans (.parent hx hr)

/-- A path to a vertex that does not come earlier passes through a common ancestor of its ends.
The induction is on the path: an edge that goes forward goes down the tree, and one that goes
back lands among, or before, the descendants of what it passes over. -/
theorem exists_common_anc {P : V → Prop} (h : ReflTransGen (fun x y => E x y ∧ P y) v w)
    (hv : P v) (hvS : v ∈ T.S) (hle : T.pre v ≤ T.pre w) :
    ∃ z, P z ∧ T.Anc z v ∧ T.Anc z w := by
  induction h using ReflTransGen.head_induction_on with
  | refl => exact ⟨w, hv, .refl, .refl⟩
  | @head v v' he h ih =>
    have hv'S := T.edge_mem hvS he.1
    rcases le_or_gt (T.pre v') (T.pre w) with hle' | hlt
    · obtain ⟨z, hz, hzv', hzw⟩ := ih he.2 hv'S hle'
      have hwS := hzw.mem (hzv'.mem_left hv'S)
      rcases lt_trichotomy (T.pre v) (T.pre v') with hlt | heq | hgt
      · have hvv' : T.Anc v v' := T.edge_anc hvS he.1 hlt
        rcases le_total (T.pre z) (T.pre v) with h1 | h1
        · exact ⟨z, hz, hzv'.of_pre_le hvv' hv'S h1, hzw⟩
        · exact ⟨v, hv, .refl, (hvv'.of_pre_le hzv' hv'S h1).trans hzw⟩
      · obtain rfl := T.pre_inj hvS hv'S heq
        exact ⟨z, hz, hzv', hzw⟩
      · exact ⟨z, hz, T.interval hvS hwS hzw (hzv'.pre_le.trans hgt.le) hle, hzw⟩
    · have hvv' : T.Anc v v' := T.edge_anc hvS he.1 (by omega)
      have hwS : w ∈ T.S := by
        clear ih hlt hle
        induction h with
        | refl => exact hv'S
        | tail _ he ih => exact T.edge_mem ih he.1
      exact ⟨v, hv, .refl, T.interval hwS hv'S hvv' hle hlt.le⟩

/-- What holds of every vertex a path leaves holds of every vertex it enters but the last. -/
theorem reach_enters {Q : V → Prop} (h : ReflTransGen (fun x y => E x y ∧ Q x) u w) :
    ReflTransGen (fun x y => E x y ∧ (Q y ∨ y = w)) u w := by
  induction h using ReflTransGen.head_induction_on with
  | refl => exact .refl
  | head he h ih =>
    refine .head ⟨he.1, ?_⟩ ih
    rcases h.cases_head with rfl | ⟨_, hq, -⟩
    · exact .inr rfl
    · exact .inl hq.2

theorem mem_of_reach {R : V → V → Prop} (hR : ∀ x y, R x y → E x y) (h : ReflTransGen R u w)
    (hu : u ∈ T.S) : w ∈ T.S := by
  induction h with
  | refl => exact hu
  | tail _ he ih => exact T.edge_mem ih (hR _ _ he)

/-- Along a path that stays after `lo`, some ancestor of its end is met before anything that
comes no later than it. -/
theorem exists_first_anc {lo : ℕ} (h : ReflTransGen (fun x y => E x y ∧ lo < T.pre y) u w)
    (hu : lo < T.pre u) (huS : u ∈ T.S) :
    ∃ y, T.Anc y w ∧ lo < T.pre y ∧ ReflTransGen (fun x z => E x z ∧ T.pre y < T.pre x) u y := by
  induction h using ReflTransGen.head_induction_on with
  | refl => exact ⟨w, .refl, hu, .refl⟩
  | @head u u' he h ih =>
    have hu'S := T.edge_mem huS he.1
    obtain ⟨y, hyw, hy, hpath⟩ := ih he.2 hu'S
    by_cases huw : T.Anc u w
    · exact ⟨u, huw, hu, .refl⟩
    rcases lt_or_ge (T.pre y) (T.pre u) with hlt | hge
    · exact ⟨y, hyw, hy, .head ⟨he.1, hlt⟩ hpath⟩
    · exfalso
      have hyS : y ∈ T.S := mem_of_reach (fun _ _ h => h.1) hpath hu'S
      -- the path from `u` to `y` enters `u'`, vertices after `y`, and `y`
      have hpath' : ReflTransGen
          (fun x z => E x z ∧ (z = u ∨ T.pre y < T.pre z ∨ z = y)) u y := by
        refine .head ⟨he.1, .inr ?_⟩ (reach_mono (reach_enters hpath) fun _ _ h => ⟨h.1, .inr h.2⟩)
        rcases hpath.cases_head with rfl | ⟨_, hq, -⟩
        · exact .inr rfl
        · exact .inl hq.2
      obtain ⟨z, hz, hzu, hzy⟩ := exists_common_anc hpath' (.inl rfl) huS hge
      rcases hz with rfl | hz | rfl
      · exact huw (hzy.trans hyw)
      · exact absurd hzy.pre_le (by omega)
      · obtain rfl := T.pre_inj huS hyS (le_antisymm hge hzu.pre_le)
        exact huw hyw

/-! ### Semidominators -/

theorem SemiPath.of_edge (hv : v ∈ T.S) (he : E v w) : T.SemiPath v w := ⟨hv, w, he, .refl⟩

theorem exists_semidominator (hw : w ∈ T.S) (hr : w ≠ r) : ∃ s, T.IsSemidominator s w := by
  obtain ⟨s, hs, hmin⟩ := exists_minimalFor_of_wellFoundedLT (T.SemiPath · w) T.pre
    ⟨T.parent w, .of_edge (T.parent_mem hw hr) (T.parent_edge hw hr)⟩
  exact ⟨s, hs, fun v hv => (le_total (T.pre s) (T.pre v)).elim id (hmin hv)⟩

theorem IsSemidominator.unique (h : T.IsSemidominator s w) (h' : T.IsSemidominator v w) : s = v :=
  T.pre_inj h.1.1 h'.1.1 (le_antisymm (h.2 v h'.1) (h'.2 s h.1))

theorem IsSemidominator.pre_lt (h : T.IsSemidominator s w) (hw : w ∈ T.S) (hr : w ≠ r) :
    T.pre s < T.pre w :=
  lt_of_le_of_lt (h.2 _ (.of_edge (T.parent_mem hw hr) (T.parent_edge hw hr)))
    (T.parent_pre hw hr)

/-- The semidominator of a vertex is one of its proper ancestors. -/
theorem IsSemidominator.anc (h : T.IsSemidominator s w) (hw : w ∈ T.S) (hr : w ≠ r) :
    T.Anc s w := by
  have hlt := h.pre_lt hw hr
  obtain ⟨⟨hs, u, he, hpath⟩, -⟩ := h
  have hpath' : ReflTransGen (fun x z => E x z ∧ (z = s ∨ T.pre w < T.pre z ∨ z = w)) s w := by
    refine .head ⟨he, .inr ?_⟩ (reach_mono (reach_enters hpath) fun _ _ h => ⟨h.1, .inr h.2⟩)
    rcases hpath.cases_head with rfl | ⟨_, hq, -⟩
    · exact .inr rfl
    · exact .inl hq.2
  obtain ⟨z, hz, hzs, hzw⟩ := exists_common_anc hpath' (.inl rfl) hs hlt.le
  rcases hz with rfl | hz | rfl
  · exact hzw
  · exact absurd hzw.pre_le (by omega)
  · exact absurd hzs.pre_le (by omega)

/-- What the semidominator recurrence takes the least of: an edge from an earlier vertex, and the
semidominators of the later ancestors of the sources of the other edges. -/
def Candidate (T : DfsNumbering E r) (v w : V) : Prop :=
  (E v w ∧ v ∈ T.S ∧ T.pre v < T.pre w) ∨
    ∃ p y, E p w ∧ p ∈ T.S ∧ T.Anc y p ∧ T.pre w < T.pre y ∧ T.IsSemidominator v y

theorem Candidate.semiPath (h : T.Candidate v w) : T.SemiPath v w := by
  rcases h with ⟨he, hv, -⟩ | ⟨p, y, he, hp, hyp, hlt, ⟨hv, u, hu, hpath⟩, -⟩
  · exact .of_edge hv he
  · refine ⟨hv, u, hu, (reach_mono hpath fun x z h => ⟨h.1, hlt.trans h.2⟩).trans (.tail ?_ ⟨he, ?_⟩)⟩
    · clear he
      induction hyp with
      | refl => exact .refl
      | tail h1 h2 ih =>
        obtain ⟨⟨hb, hbr⟩, rfl⟩ := h2
        exact (ih (T.parent_mem hb hbr)).tail
          ⟨T.parent_edge hb hbr, lt_of_lt_of_le hlt (Anc.pre_le h1)⟩
    · exact lt_of_lt_of_le hlt hyp.pre_le

theorem SemiPath.exists_candidate (hw : w ∈ T.S) (hr : w ≠ r) (h : T.SemiPath v w) :
    ∃ v', T.Candidate v' w ∧ T.pre v' ≤ T.pre v := by
  obtain ⟨hv, u, he, hpath⟩ := h
  have huS := T.edge_mem hv he
  rcases hpath.cases_tail with rfl | ⟨p, hup, hpw⟩
  · rcases lt_or_ge (T.pre v) (T.pre w) with hlt | hge
    · exact ⟨v, .inl ⟨he, hv, hlt⟩, le_rfl⟩
    · have hp := T.parent_pre hw hr
      exact ⟨T.parent w, .inl ⟨T.parent_edge hw hr, T.parent_mem hw hr, hp⟩, by omega⟩
  · have hpS : p ∈ T.S := mem_of_reach (fun _ _ h => h.1) hup huS
    have hu : T.pre w < T.pre u := by
      rcases hup.cases_head with rfl | ⟨_, hq, -⟩
      · exact hpw.2
      · exact hq.2
    have hup' : ReflTransGen (fun x z => E x z ∧ T.pre w < T.pre z) u p :=
      reach_mono (reach_enters hup) fun x z h => ⟨h.1, h.2.elim id fun hz => hz ▸ hpw.2⟩
    obtain ⟨y, hyp, hy, hpath'⟩ := exists_first_anc hup' hu huS
    have hyr : y ≠ r := by
      rintro rfl
      exact absurd (root_pre_le hw) (by omega)
    obtain ⟨s, hs⟩ := exists_semidominator (hyp.mem_left hpS) hyr
    exact ⟨s, .inr ⟨p, y, hpw.1, hpS, hyp, hy, hs⟩, hs.2 v ⟨hv, u, he, hpath'⟩⟩

/-- The semidominator recurrence of Lengauer and Tarjan. -/
theorem isSemidominator_of_least (hw : w ∈ T.S) (hr : w ≠ r) (hs : T.Candidate s w)
    (hmin : ∀ v, T.Candidate v w → T.pre s ≤ T.pre v) : T.IsSemidominator s w := by
  refine ⟨hs.semiPath, fun v hv => ?_⟩
  obtain ⟨v', hv', hle⟩ := hv.exists_candidate hw hr
  exact (hmin v' hv').trans hle

/-! ### Immediate dominators -/

theorem reachAvoiding_of_not_anc (hx : x ∈ T.S) (h : ¬ T.Anc d x) : ReachAvoiding E d r x := by
  have hrx := root_anc hx
  induction hrx with
  | refl => exact ⟨fun hd => h (hd ▸ .refl), .refl⟩
  | tail _ he ih =>
    obtain ⟨⟨hb, hbr⟩, rfl⟩ := he
    refine (ih (T.parent_mem hb hbr) fun h' => h (h'.trans (.parent hb hbr))).of_edge
      (T.parent_edge hb hbr) ?_
    rintro rfl
    exact h .refl

theorem anc_of_dominates (hx : x ∈ T.S) (h : Dominates E r d x) : T.Anc d x := by
  by_contra hd
  exact dominates_iff.mp h (reachAvoiding_of_not_anc hx hd)

/-- A dominator of `w` above `c` on the tree path dominates `c`. -/
theorem dominates_of_anc (h : Dominates E r d w) (hcw : T.Anc c w) (hle : T.pre d ≤ T.pre c) :
    Dominates E r d c := by
  rw [dominates_iff] at h ⊢
  exact fun hc => h (hc.trans (hcw.reach hle))

/-- The immediate dominator of a vertex is above or at its semidominator. -/
theorem strictDominator_anc_semi (hw : w ∈ T.S) (hr : w ≠ r) (hs : T.IsSemidominator s w)
    (hne : d ≠ w) (hd : Dominates E r d w) : T.Anc d s := by
  by_contra hds
  have hdw := anc_of_dominates hw hd
  have hlt := hdw.pre_lt (hdw.mem_left hw) hne
  obtain ⟨⟨hsS, u, he, hpath⟩, -⟩ := hs
  have hds' := reachAvoiding_of_not_anc hsS hds
  refine dominates_iff.mp hd (hds'.trans (.head ⟨he, ?_⟩ ?_))
  · rintro rfl
    rcases hpath.cases_head with rfl | ⟨_, hq, -⟩
    · exact hne rfl
    · exact absurd hq.2 (by omega)
  · refine reach_mono (reach_enters hpath) fun x z h => ⟨h.1, ?_⟩
    rintro rfl
    rcases h.2 with h | h
    · omega
    · exact hne h

/-- A tree ancestor of `w` that no semidominator of the path below it comes before
dominates `w`. -/
theorem dominates_of_semi_ge (hw : w ∈ T.S) (hdw : T.Anc d w)
    (hsemi : ∀ y, T.Anc d y → T.Anc y w → y ≠ d → ∀ x, T.SemiPath x y → T.pre d ≤ T.pre x) :
    Dominates E r d w := by
  rw [dominates_iff]
  rintro ⟨hrd, hpath⟩
  have hdS := hdw.mem_left hw
  -- going back along the path, no vertex comes before `d`, hence nor does the root
  suffices h : ∀ v, v ∈ T.S → v ≠ d → ReflTransGen (fun x y => E x y ∧ y ≠ d) v w →
      T.pre d < T.pre v ∧ ReflTransGen (fun x y => E x y ∧ T.pre d < T.pre y) v w by
    exact absurd (h r T.root_mem hrd hpath).1 (not_lt.mpr (root_pre_le hdS))
  intro v hv hvd h
  induction h using ReflTransGen.head_induction_on with
  | refl => exact ⟨hdw.pre_lt hdS (fun h => hvd h.symm), .refl⟩
  | @head v v' he h ih =>
    have hv'S := T.edge_mem hv he.1
    obtain ⟨hlt, hrest⟩ := ih hv'S he.2
    refine ⟨?_, .head ⟨he.1, hlt⟩ hrest⟩
    obtain ⟨y, hyw, hy, hvy⟩ := exists_first_anc hrest hlt hv'S
    have hdy : T.Anc d y := hdw.of_pre_le hyw hw hy.le
    have hle := hsemi y hdy hyw (fun h => by simp [h] at hy) v ⟨hv, v', he.1, hvy⟩
    exact lt_of_le_of_ne hle fun h => hvd (T.pre_inj hdS hv h).symm

/-! ### Copying the immediate dominator from the tree child of the semidominator -/

/-- No vertex strictly between the tree child `c` of the semidominator of `w` and `w` can be
reached around the immediate dominator of `c`. -/
def NoBypass (T : DfsNumbering E r) : Prop :=
  ∀ w s c u d, w ∈ T.S → w ≠ r → T.IsSemidominator s w → T.ChildToward s c w →
    T.Anc c u → T.Anc u w → u ≠ c → u ≠ w → IsImmediateDominator E r d c → Dominates E r d u

/-- `f` takes the semidominator of a vertex that is its tree child, and copies from the tree child
of the semidominator everywhere else. -/
def TreeChildRule (T : DfsNumbering E r) (f : V → V) : Prop :=
  ∀ w s c, w ∈ T.S → w ≠ r → T.IsSemidominator s w → T.ChildToward s c w →
    (c = w → f w = s) ∧ (c ≠ w → f w = f c)

theorem semi_dominates_of_parent (hw : w ∈ T.S) (hr : w ≠ r) (hs : T.IsSemidominator s w)
    (hp : T.parent w = s) : IsImmediateDominator E r s w := by
  have hlt := hs.pre_lt hw hr
  have hd : Dominates E r s w := by
    refine dominates_of_semi_ge hw (hs.anc hw hr) fun y hsy hyw hne x hx => ?_
    -- only `w` itself is below `s` on the path
    obtain ⟨⟨hy, hyr⟩, hpy⟩ := hsy.of_ne hne.symm
    have hyw' : y = w := by
      by_contra hyw'
      have h1 := (hyw.of_ne hyw').2
      rw [hp] at h1
      exact hne (T.pre_inj hy hs.1.1 (le_antisymm h1.pre_le hsy.pre_le))
    subst hyw'
    exact hs.2 x hx
  refine ⟨fun h => by simp [h] at hlt, hd, fun a ha hda => ?_⟩
  exact dominates_of_anc hda (hs.anc hw hr) (strictDominator_anc_semi hw hr hs ha hda).pre_le

/-- With no bypass, the tree child of the semidominator has the immediate dominator of `w`. -/
theorem immediateDominator_of_child (hB : T.NoBypass) (hw : w ∈ T.S) (hr : w ≠ r)
    (hs : T.IsSemidominator s w) (hc : T.ChildToward s c w)
    (hd : IsImmediateDominator E r d c) : IsImmediateDominator E r d w := by
  obtain ⟨⟨hcS, hcr⟩, hpc, hcw⟩ := id hc
  have hdc := anc_of_dominates hcS hd.dominates
  have hdS := hdc.mem_left hcS
  have hdlt := hdc.pre_lt hdS hd.ne
  have hds : T.Anc d s := hpc ▸ (hdc.of_ne hd.ne).2
  have hdom : Dominates E r d w := by
    refine dominates_of_semi_ge hw (hdc.trans hcw) fun y hdy hyw hne x hx => ?_
    by_contra hlt
    rw [not_le] at hlt
    -- a semidominator path from before `d` reaches `y` around `d`
    have hy : ReachAvoiding E d r y := by
      obtain ⟨hx, u, he, hpath⟩ := hx
      have hdy' := hdy.pre_lt hdS hne.symm
      refine (reachAvoiding_of_not_anc hx fun h => absurd h.pre_le (by omega)).trans
        (.head ⟨he, ?_⟩ (reach_mono (reach_enters hpath) fun a b h => ⟨h.1, ?_⟩))
      · rintro rfl
        rcases hpath.cases_head with rfl | ⟨_, hq, -⟩
        · exact hne rfl
        · exact absurd hq.2 (by omega)
      · rintro rfl
        rcases h.2 with h | h
        · omega
        · exact hne h.symm
    rcases le_or_gt (T.pre y) (T.pre c) with hyc | hcy
    · have hyc' := hyw.of_pre_le hcw hw hyc
      exact dominates_iff.mp hd.dominates (hy.trans (hyc'.reach hdy.pre_le))
    · by_cases hyw' : y = w
      · subst hyw'
        have := hs.2 x hx
        have := hds.pre_le
        omega
      · exact dominates_iff.mp (hB w s c y d hw hr hs hc (hcw.of_pre_le hyw hw hcy.le) hyw
          (fun h => by simp [h] at hcy) hyw' hd) hy
  have hcw' := hcw.pre_le
  refine ⟨fun h => by subst h; omega, hdom, fun a ha hda => ?_⟩
  have has := (strictDominator_anc_semi hw hr hs ha hda).pre_le
  have hpc' := T.parent_pre hcS hcr
  rw [hpc] at hpc'
  exact hd.closest a (fun h => by subst h; omega) (dominates_of_anc hda hcw (by omega))

/-- The tree-child rule finds the immediate dominators exactly when there is no bypass. -/
theorem treeChild_rule_iff {f : V → V} (hf : T.TreeChildRule f) :
    (∀ w ∈ T.S, w ≠ r → IsImmediateDominator E r (f w) w) ↔ T.NoBypass := by
  constructor
  · intro h w s c u d hw hr hs hc hcu huw hne hne' hd
    have hcw : c ≠ w := by
      rintro rfl
      have huS := huw.mem_left hw
      exact hne (T.pre_inj huS hw (le_antisymm huw.pre_le hcu.pre_le))
    have hwd := h w hw hr
    rw [(hf w s c hw hr hs hc).2 hcw] at hwd
    have hcS := hc.1.1
    have hreach : ∃ p, IsPath E r c p := by
      obtain ⟨p, hp, -⟩ := (reachAvoiding_of_not_anc (T := T) (d := w) hcS fun h =>
        hcw (T.pre_inj hcS hw (le_antisymm hc.2.2.pre_le h.pre_le))).exists_path
      exact ⟨p, hp⟩
    obtain rfl := hd.unique hreach (h c hcS hc.1.2)
    have hdc := (anc_of_dominates hcS hd.dominates).pre_le
    exact dominates_of_anc hwd.dominates huw (hdc.trans hcu.pre_le)
  · intro hB w hw hr
    induction hn : T.pre w using Nat.strong_induction_on generalizing w with
    | _ n ih =>
      subst hn
      obtain ⟨s, hs⟩ := exists_semidominator hw hr
      obtain ⟨c, hc⟩ := (hs.anc hw hr).exists_child fun h => by
        have := hs.pre_lt hw hr
        simp [h] at this
      obtain ⟨hfs, hfc⟩ := hf w s c hw hr hs hc
      by_cases hcw : c = w
      · rw [hfs hcw]
        subst hcw
        exact semi_dominates_of_parent hw hr hs hc.2.1
      · rw [hfc hcw]
        exact immediateDominator_of_child hB hw hr hs hc
          (ih _ (hc.2.2.pre_lt hc.1.1 hcw) c hc.1.1 hc.1.2 rfl)

end DfsNumbering

end Graph

import BJvm.Graph.Semidominator
import Mathlib.Order.WellFounded

/-!
# Retreating edges

An edge retreats when it goes to a tree ancestor of its source.  Every cycle has a retreating edge
(`exists_retreating`), so what is left of a graph without them has no cycles; a graph is reducible
when they go to dominators only.
-/

namespace Graph

open Relation

variable {V : Type*} {E R : V → V → Prop} {r : V}

/-- Every vertex of the set has its successors in it, and none is on a cycle. -/
structure ClosedAcyclic (R : V → V → Prop) (B : V → Prop) : Prop where
  closed : ∀ {x y}, B x → R x y → B y
  acyclic : ∀ {x}, B x → ¬ TransGen R x x

namespace ClosedAcyclic

variable {B B' : V → Prop} {v x y : V}

theorem reach (h : ClosedAcyclic R B) (hx : B x) (hxy : ReflTransGen R x y) : B y := by
  induction hxy with
  | refl => exact hx
  | tail _ he ih => exact h.closed ih he

theorem congr (h : ClosedAcyclic R B) (hB : ∀ x, B' x ↔ B x) : ClosedAcyclic R B' :=
  ⟨fun hx he => (hB _).mpr (h.closed ((hB _).mp hx) he), fun hx => h.acyclic ((hB _).mp hx)⟩

/-- A vertex whose successors are in the set may be added to it. -/
theorem add (h : ClosedAcyclic R B) (hv : ¬ B v) (hnext : ∀ y, R v y → B y) :
    ClosedAcyclic R fun x => x = v ∨ B x := by
  constructor
  · rintro x y (rfl | hx) he
    · exact .inr (hnext y he)
    · exact .inr (h.closed hx he)
  · rintro x (rfl | hx) hcycle
    · obtain ⟨y, he, hyx⟩ := TransGen.head'_iff.mp hcycle
      exact hv (h.reach (hnext y he) hyx)
    · exact h.acyclic hx hcycle

end ClosedAcyclic

namespace DfsNumbering

variable (T : DfsNumbering E r) {u v x y : V}

/-- Every cycle has an edge that goes to a tree ancestor of its source. -/
theorem exists_retreating (hR : ∀ x y, R x y → E x y) (hx : x ∈ T.S) (hcycle : TransGen R x x) :
    ∃ u v, v ∈ T.S ∧ ReflTransGen R x v ∧ R u v ∧ T.Anc v u := by
  -- the edge into the first vertex in preorder of those on a cycle through `x`
  let C : Set V := {v | ReflTransGen R x v ∧ ReflTransGen R v x}
  obtain ⟨v, ⟨hxv, hvx⟩, hmin⟩ := WellFounded.has_min (measure T.pre).wf C ⟨x, .refl, .refl⟩
  have hmem : ∀ {y}, ReflTransGen R x y → y ∈ T.S := fun h => by
    induction h with
    | refl => exact hx
    | tail _ he ih => exact T.edge_mem ih (hR _ _ he)
  obtain ⟨u, hvu, he⟩ := TransGen.tail'_iff.mp ((hcycle.trans_right hvx).trans_left hxv)
  have hanc : ∀ {y}, ReflTransGen R v y → ReflTransGen R y u → T.Anc v y := fun h => by
    induction h with
    | refl => exact fun _ => .refl
    | @tail y z hvy hyz ih =>
      intro hzu
      have hvy' := ih (.head hyz hzu)
      have hy := hmem (hxv.trans hvy)
      have hz := hmem (hxv.trans (hvy.tail hyz))
      have hle : T.pre v ≤ T.pre z :=
        Nat.le_of_not_lt (hmin z ⟨hxv.trans (hvy.tail hyz), (hzu.tail he).trans hvx⟩)
      rcases Nat.lt_or_ge (T.pre y) (T.pre z) with hlt | hge
      · exact hvy'.trans (T.edge_anc hy (hR _ _ hyz) hlt)
      · exact T.interval hz hy hvy' hle hge
  exact ⟨u, v, hmem hxv, hxv, he, hanc hvu .refl⟩

/-- A vertex does not dominate its tree parent. -/
theorem not_dominates_parent (hx : x ∈ T.S) (hr : x ≠ r) : ¬ Dominates E r x (T.parent x) := by
  intro h
  have hp := T.parent_mem hx hr
  have := (T.anc_of_dominates hp h).pre_le
  have := T.parent_pre hx hr
  omega

end DfsNumbering

end Graph

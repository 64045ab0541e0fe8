import Mathlib.Data.List.Chain
import Mathlib.Tactic.Common

/-!
# Dominance in a rooted graph

`a` dominates `b` when every path from the root to `b` passes through `a`.  The paths of the
statement are lists; the proofs work with the reachability relation that keeps away from `a`
(`dominates_iff`), which can be extended one edge at a time.
-/

namespace Graph

open Relation

variable {V : Type*} (E : V → V → Prop)

/-- A path from `a` to `b`: a nonempty list of vertices, each an edge away from the one before. -/
def IsPath (a b : V) (p : List V) : Prop :=
  p.head? = some a ∧ p.getLast? = some b ∧ p.IsChain E

/-- Every path from the root `r` to `b` passes through `a`. -/
def Dominates (r a b : V) : Prop := ∀ p, IsPath E r b p → a ∈ p

/-- The closest strict dominator of `b`: every other strict dominator of `b` dominates it. -/
structure IsImmediateDominator (r d b : V) : Prop where
  ne : d ≠ b
  dominates : Dominates E r d b
  closest : ∀ a, a ≠ b → Dominates E r a b → Dominates E r a d

/-- `b` can be reached from `r` without meeting `a`. -/
def ReachAvoiding (a r b : V) : Prop := r ≠ a ∧ ReflTransGen (fun x y => E x y ∧ y ≠ a) r b

variable {E} {r a b c : V}

theorem reach_mono {R R' : V → V → Prop} (h : ReflTransGen R a b) (hR : ∀ x y, R x y → R' x y) :
    ReflTransGen R' a b := by
  induction h with
  | refl => exact .refl
  | tail _ he ih => exact ih.tail (hR _ _ he)

theorem ReachAvoiding.ne (h : ReachAvoiding E a r b) : b ≠ a := by
  obtain ⟨hr, h⟩ := h
  induction h with
  | refl => exact hr
  | tail _ he _ => exact he.2

theorem ReachAvoiding.trans (h : ReachAvoiding E a r b)
    (h' : ReflTransGen (fun x y => E x y ∧ y ≠ a) b c) : ReachAvoiding E a r c :=
  ⟨h.1, h.2.trans h'⟩

theorem ReachAvoiding.of_edge (h : ReachAvoiding E a r b) (he : E b c) (hc : c ≠ a) :
    ReachAvoiding E a r c :=
  h.trans (.single ⟨he, hc⟩)

theorem isPath_singleton (a : V) : IsPath E a a [a] := ⟨rfl, rfl, by simp⟩

theorem IsPath.concat {p : List V} (h : IsPath E a b p) (he : E b c) :
    IsPath E a c (p ++ [c]) := by
  obtain ⟨h1, h2, h3⟩ := h
  refine ⟨by simp [h1], by simp, ?_⟩
  rw [List.isChain_append]
  refine ⟨h3, by simp, ?_⟩
  intro x hx y hy
  rw [h2, Option.mem_some_iff] at hx
  simp only [List.head?_cons, Option.mem_some_iff] at hy
  subst hx hy
  exact he

theorem ReachAvoiding.exists_path (h : ReachAvoiding E a r b) : ∃ p, IsPath E r b p ∧ a ∉ p := by
  obtain ⟨hr, h⟩ := h
  induction h with
  | refl => exact ⟨[r], isPath_singleton r, by simpa using hr.symm⟩
  | tail _ he ih =>
    obtain ⟨p, hp, hap⟩ := ih
    exact ⟨p ++ [_], hp.concat he.1, by simp [hap, he.2.symm]⟩

theorem reach_of_isPath : ∀ {p : List V} {r : V}, IsPath E r b p → a ∉ p →
    ReflTransGen (fun x y => E x y ∧ y ≠ a) r b
  | [], _, h, _ => by simp [IsPath] at h
  | [x], _, h, _ => by
    obtain ⟨h1, h2, -⟩ := h
    simp only [List.head?_cons, Option.some.injEq, List.getLast?_singleton] at h1 h2
    subst h1 h2
    exact .refl
  | x :: y :: p, r, h, ha => by
    obtain ⟨h1, h2, h3⟩ := h
    simp only [List.head?_cons, Option.some.injEq] at h1
    subst h1
    rw [List.isChain_cons_cons] at h3
    rw [List.getLast?_cons_cons] at h2
    have hy : y ≠ a := by
      rintro rfl
      simp at ha
    exact .head ⟨h3.1, hy⟩ (reach_of_isPath ⟨rfl, h2, h3.2⟩ (fun h => ha (.tail _ h)))

/-- `a` dominates `b` when `b` cannot be reached around `a`. -/
theorem dominates_iff : Dominates E r a b ↔ ¬ ReachAvoiding E a r b := by
  constructor
  · intro h hr
    obtain ⟨p, hp, ha⟩ := hr.exists_path
    exact ha (h p hp)
  · intro h p hp
    by_contra ha
    refine h ⟨?_, reach_of_isPath hp ha⟩
    rintro rfl
    exact ha (List.mem_of_mem_head? hp.1)

theorem dominates_self : Dominates E r a a := by
  rw [dominates_iff]
  exact fun h => h.ne rfl

theorem root_dominates : Dominates E r r b := by
  rw [dominates_iff]
  exact fun h => h.1 rfl

/-- A path cut at a vertex it meets. -/
theorem IsPath.left {s t : List V} (h : IsPath E a c (s ++ b :: t)) : IsPath E a b (s ++ [b]) := by
  refine ⟨?_, by simp, ?_⟩
  · have := h.1
    cases s <;> simpa using this
  · have := h.2.2
    rw [← List.singleton_append, ← List.append_assoc] at this
    exact this.left_of_append

theorem Dominates.trans (h1 : Dominates E r a b) (h2 : Dominates E r b c) :
    Dominates E r a c := by
  intro p hp
  obtain ⟨s, t, rfl⟩ := List.append_of_mem (h2 p hp)
  have ha := h1 _ hp.left
  simp only [List.mem_append, List.mem_singleton] at ha
  simp only [List.mem_append, List.mem_cons]
  tauto

theorem Dominates.exists_path (h : Dominates E r a b) (hr : ∃ p, IsPath E r b p) :
    ∃ p, IsPath E r a p := by
  obtain ⟨p, hp⟩ := hr
  obtain ⟨s, t, rfl⟩ := List.append_of_mem (h p hp)
  exact ⟨_, hp.left⟩

/-- Two vertices that dominate each other are one, if they are reachable. -/
theorem Dominates.antisymm (hr : ∃ p, IsPath E r b p) (h1 : Dominates E r a b)
    (h2 : Dominates E r b a) : a = b := by
  by_contra hne
  obtain ⟨p, hp⟩ := hr
  -- a path to `b`, cut at `a`, passes through `b` before its end, which cuts it shorter
  induction hn : p.length using Nat.strong_induction_on generalizing p with
  | _ n ih =>
    subst hn
    obtain ⟨s, t, rfl⟩ := List.append_of_mem (h1 p hp)
    have hb := h2 _ hp.left
    simp only [List.mem_append, List.mem_singleton] at hb
    obtain ⟨u, v, rfl⟩ := List.append_of_mem (hb.resolve_right (fun h => hne h.symm))
    rw [List.append_assoc, List.cons_append] at hp
    refine ih (u ++ [b]).length ?_ (u ++ [b]) hp.left rfl
    simp only [List.length_append, List.length_cons, List.length_nil]
    omega

theorem IsImmediateDominator.unique {d d' : V} (hr : ∃ p, IsPath E r b p)
    (h : IsImmediateDominator E r d b) (h' : IsImmediateDominator E r d' b) : d = d' :=
  Dominates.antisymm (h'.dominates.exists_path hr) (h'.closest d h.ne h.dominates)
    (h.closest d' h'.ne h'.dominates)

end Graph

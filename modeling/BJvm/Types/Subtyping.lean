import Mathlib.Logic.Relation

/-!
# Subtypes of classes and arrays

Types built from classes, primitive types and arrays, over any hierarchy of classes: a class is
below its direct supers, an array below the classes that every array is below, and arrays vary with
their components.
-/

namespace BJvm.Types

open Relation

variable {C P : Type*}

inductive JType (C P : Type*)
  | ofClass (c : C)
  | primitive (p : P)
  | array (component : JType C P)

/-- What the subtype relation depends on: the direct superclasses and superinterfaces of a class,
and the classes that are directly above every array. -/
structure Hierarchy (C : Type*) where
  direct : C → C → Prop
  aboveArrays : C → Prop

/-- The subtype relation. -/
inductive IsSubtype (H : Hierarchy C) : JType C P → JType C P → Prop
  | refl (t : JType C P) : IsSubtype H t t
  | direct {c d : C} {t : JType C P} : H.direct c d → IsSubtype H (.ofClass d) t →
      IsSubtype H (.ofClass c) t
  | aboveArrays {s t : JType C P} {d : C} : H.aboveArrays d → IsSubtype H (.ofClass d) t →
      IsSubtype H (.array s) t
  | covariant {s t : JType C P} : IsSubtype H s t → IsSubtype H (.array s) (.array t)

/-- The array type of `n` more dimensions. -/
def JType.arrays : Nat → JType C P → JType C P
  | 0, t => t
  | n + 1, t => .array (arrays n t)

variable {H : Hierarchy C} {s t : JType C P} {c : C} {p : P}

theorem isSubtype_ofClass_iff :
    IsSubtype H (.ofClass c) t ↔ ∃ d, t = .ofClass d ∧ ReflTransGen H.direct c d := by
  constructor
  · generalize hs : JType.ofClass c = s
    intro h
    induction h generalizing c with
    | refl => exact ⟨c, hs.symm, .refl⟩
    | direct hd _ ih =>
      cases hs
      obtain ⟨e, rfl, he⟩ := ih rfl
      exact ⟨e, rfl, he.head hd⟩
    | aboveArrays => cases hs
    | covariant => cases hs
  · rintro ⟨d, rfl, h⟩
    induction h using ReflTransGen.head_induction_on with
    | refl => exact .refl _
    | head hd _ ih => exact .direct hd ih

theorem isSubtype_primitive_iff : IsSubtype H (.primitive p) t ↔ t = .primitive p := by
  refine ⟨fun h => ?_, fun h => h ▸ .refl _⟩
  cases h
  rfl

theorem isSubtype_array_ofClass_iff :
    IsSubtype H (.array s) (.ofClass c) ↔ ∃ d, H.aboveArrays d ∧ ReflTransGen H.direct d c := by
  constructor
  · intro h
    cases h with
    | aboveArrays ha h =>
      obtain ⟨e, he, hde⟩ := isSubtype_ofClass_iff.mp h
      cases he
      exact ⟨_, ha, hde⟩
  · rintro ⟨d, ha, h⟩
    exact .aboveArrays ha (isSubtype_ofClass_iff.mpr ⟨c, rfl, h⟩)

theorem isSubtype_array_array_iff :
    IsSubtype H (.array s) (.array t) ↔ IsSubtype H s t := by
  refine ⟨fun h => ?_, .covariant⟩
  cases h with
  | refl => exact .refl _
  | aboveArrays _ h =>
    obtain ⟨e, he, -⟩ := isSubtype_ofClass_iff.mp h
    cases he
  | covariant h => exact h

theorem not_isSubtype_array_primitive : ¬ IsSubtype H (.array s) (.primitive p) := by
  intro h
  cases h with
  | aboveArrays _ h =>
    obtain ⟨e, he, -⟩ := isSubtype_ofClass_iff.mp h
    cases he

theorem IsSubtype.trans {u : JType C P} (hst : IsSubtype H s t) (htu : IsSubtype H t u) :
    IsSubtype H s u := by
  induction hst generalizing u with
  | refl => exact htu
  | direct hd _ ih => exact .direct hd (ih htu)
  | aboveArrays ha _ ih => exact .aboveArrays ha (ih htu)
  | covariant h ih =>
    cases htu with
    | refl => exact .covariant h
    | aboveArrays ha h' => exact .aboveArrays ha h'
    | covariant h' => exact .covariant (ih h')

/-- Dimensions that two array types have in common do not matter. -/
theorem isSubtype_arrays_iff (n : Nat) : ∀ m : Nat,
    IsSubtype H (JType.arrays (n + m) s) (JType.arrays m t) ↔ IsSubtype H (JType.arrays n s) t
  | 0 => Iff.rfl
  | m + 1 => isSubtype_array_array_iff.trans (isSubtype_arrays_iff n m)

/-- A class or a primitive type is below no array type. -/
theorem not_isSubtype_element_array (hs : ∀ u, s ≠ .array u) : ¬ IsSubtype H s (.array t) := by
  intro h
  cases s with
  | ofClass c =>
    obtain ⟨e, he, -⟩ := isSubtype_ofClass_iff.mp h
    cases he
  | primitive p => cases isSubtype_primitive_iff.mp h
  | array u => exact hs u rfl

theorem not_isSubtype_arrays_of_lt (hs : ∀ u, s ≠ .array u) :
    ∀ {n m : Nat}, n < m → ¬ IsSubtype H (JType.arrays n s) (JType.arrays m t)
  | 0, _ + 1, _ => not_isSubtype_element_array hs
  | _ + 1, _ + 1, h => fun h' =>
    not_isSubtype_arrays_of_lt hs (Nat.lt_of_succ_lt_succ h) (isSubtype_array_array_iff.mp h')

end BJvm.Types

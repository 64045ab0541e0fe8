import Mathlib.Data.List.Pairwise
import Mathlib.Algebra.Order.Ring.Nat
import Mathlib.Tactic.Common

/-!
# Binary search

On a strictly increasing list the search finds the position of what is there, and only that.
-/

namespace Sorted

variable {α : Type*} [LinearOrder α] {a : List α} {x : α} {low high i j : Nat}

/-- The search between `low` and `high`, the index behind the last one. -/
def searchBetween (x : α) (a : List α) : Nat → Nat → Nat → Option Nat
  | 0, _, _ => none
  | fuel + 1, low, high =>
    if low < high then
      let mid := (low + (high - 1)) / 2
      match a[mid]? with
      | none => none
      | some y =>
        if y = x then some mid
        else if y < x then searchBetween x a fuel (mid + 1) high
        else searchBetween x a fuel low mid
    else none

def binarySearch (x : α) (a : List α) : Option Nat :=
  searchBetween x a (a.length + 1) 0 a.length

theorem searchBetween_sound : ∀ {fuel low high : Nat},
    searchBetween x a fuel low high = some i → a[i]? = some x
  | fuel + 1, low, high, h => by
    rw [searchBetween] at h
    split_ifs at h
    · simp only at h
      split at h
      · cases h
      · next y hy =>
        split_ifs at h with heq hlt
        · cases h
          exact heq ▸ hy
        · exact searchBetween_sound h
        · exact searchBetween_sound h

theorem lt_of_getElem?_lt {y : α} (ha : a.Pairwise (· < ·)) (hi : a[i]? = some x)
    (hj : a[j]? = some y) (hlt : x < y) : i < j := by
  obtain ⟨hil, rfl⟩ := List.getElem?_eq_some_iff.mp hi
  obtain ⟨hjl, rfl⟩ := List.getElem?_eq_some_iff.mp hj
  rcases Nat.lt_trichotomy i j with h | rfl | h
  · exact h
  · exact absurd hlt (lt_irrefl _)
  · exact absurd (List.pairwise_iff_getElem.mp ha j i hjl hil h) (lt_asymm hlt)

theorem searchBetween_complete (ha : a.Pairwise (· < ·)) (hi : a[i]? = some x) :
    ∀ {fuel low high : Nat}, high - low < fuel → low ≤ i → i < high → high ≤ a.length →
      searchBetween x a fuel low high = some i
  | fuel + 1, low, high, hf, hl, hh, hle => by
    have hmid : a[(low + (high - 1)) / 2]? = some a[(low + (high - 1)) / 2] :=
      List.getElem?_eq_getElem (by omega)
    rw [searchBetween, if_pos (by omega)]
    simp only [hmid]
    split_ifs with heq hlt
    · rw [heq] at hmid
      have hlen := (List.getElem?_eq_some_iff.mp hi).1
      exact congrArg some ((List.getElem?_inj (by omega) (ha.imp fun h => ne_of_lt h)).mp
        (hmid.trans hi.symm))
    · have := lt_of_getElem?_lt ha hmid hi hlt
      exact searchBetween_complete ha hi (by omega) this hh hle
    · have hgt := lt_of_le_of_ne (not_lt.mp hlt) (Ne.symm heq)
      have := lt_of_getElem?_lt ha hi hmid hgt
      exact searchBetween_complete ha hi (by omega) hl this (by omega)

theorem binarySearch_eq_some (ha : a.Pairwise (· < ·)) :
    binarySearch x a = some i ↔ a[i]? = some x :=
  ⟨searchBetween_sound, fun h => searchBetween_complete ha h (by omega) (Nat.zero_le i)
    (List.getElem?_eq_some_iff.mp h).1 (Nat.le_refl _)⟩

theorem binarySearch_eq_none (ha : a.Pairwise (· < ·)) : binarySearch x a = none ↔ x ∉ a := by
  rw [Option.eq_none_iff_forall_ne_some, List.mem_iff_getElem?]
  simp only [ne_eq, binarySearch_eq_some ha, not_exists]

end Sorted

import BJvm.Gc.Pointers
import Mathlib.Tactic.Common

/-!
# Sorting and searching pointers

In place, `quicksort_pointers` works on a part of the array as `Sorted.partition` does on a list: both
scans meet an element that stops them before they leave that part.
-/

namespace BJvm.Pointers

open Sorted (Split Stopped scanUp scanDown)

variable {a pre seg post b : List Nat} {pivot x i j l r fuel : Nat}

/-! ### Parts of the array -/

theorem deref_natCast (a : List Nat) (i : Nat) : deref a (i : Int) = a[i]? := by
  rw [deref, if_neg (by omega), Int.toNat_natCast]

theorem deref_segment (hi : i < seg.length) :
    deref (pre ++ seg ++ post) ((pre.length + i : Nat) : Int) = seg[i]? := by
  rw [deref_natCast, List.append_assoc, List.getElem?_append_right (Nat.le_add_right ..),
    Nat.add_sub_cancel_left, List.getElem?_append_left hi]

theorem assign_segment (hi : i < seg.length) :
    assign (pre ++ seg ++ post) ((pre.length + i : Nat) : Int) x =
      some (pre ++ seg.set i x ++ post) := by
  rw [assign, deref_segment hi, List.getElem?_eq_getElem hi, Option.map_some, Int.toNat_natCast,
    List.append_assoc, List.set_append_right _ _ (Nat.le_add_right ..), Nat.add_sub_cancel_left,
    List.set_append_left _ _ hi, List.append_assoc]

theorem exchange_segment (hi : i < seg.length) (hj : j < seg.length) :
    exchange (pre ++ seg ++ post) ((pre.length + i : Nat) : Int) ((pre.length + j : Nat) : Int) =
      some (pre ++ Sorted.swap seg i j ++ post) := by
  rw [exchange, deref_segment hi, deref_segment hj, Sorted.swap, List.getElem?_eq_getElem hi,
    List.getElem?_eq_getElem hj]
  simp only [Option.bind_eq_bind, Option.bind_some, assign_segment hi]
  exact assign_segment (by rwa [List.length_set])

/-! ### The scans -/

theorem scanUp_eq (pivot : Nat) (h : seg[l]? = some x) :
    scanUp pivot seg l = if pivot ≤ x then l else scanUp pivot seg (l + 1) := by
  obtain ⟨hl, rfl⟩ := List.getElem?_eq_some_iff.mp h
  rw [scanUp, scanUp, List.drop_eq_getElem_cons hl, List.findIdx_cons]
  by_cases hx : pivot ≤ seg[l]
  · simp [hx]
  · simp [hx]
    omega

theorem advance_segment : ∀ {fuel l : Nat},
    scanUp pivot seg l < seg.length → scanUp pivot seg l < l + fuel →
    advance (pre ++ seg ++ post) pivot fuel ((pre.length + l : Nat) : Int) =
      some ((pre.length + scanUp pivot seg l : Nat) : Int)
  | 0, l, hend, hfuel => absurd hfuel (Nat.not_lt.mpr Sorted.le_scanUp)
  | fuel + 1, l, hend, hfuel => by
    have hl : l < seg.length := Nat.lt_of_le_of_lt Sorted.le_scanUp hend
    have hx := List.getElem?_eq_getElem hl
    have hscan := scanUp_eq pivot hx
    rw [advance, deref_segment hl, hx]
    simp only [Option.bind_eq_bind, Option.bind_some]
    split_ifs with hlt
    · rw [if_neg (Nat.not_le.mpr hlt)] at hscan
      rw [hscan] at hend hfuel ⊢
      exact advance_segment hend (by omega)
    · rw [hscan, if_pos (Nat.le_of_not_lt hlt)]
      rfl

theorem retreat_segment : ∀ {fuel r : Nat}, r ≤ seg.length → 0 < scanDown pivot seg r →
    r < scanDown pivot seg r + fuel →
    retreat (pre ++ seg ++ post) pivot fuel ((pre.length + r : Nat) - 1 : Int) =
      some ((pre.length + scanDown pivot seg r : Nat) - 1 : Int)
  | _, 0, _, hpos, _ => absurd hpos (Nat.lt_irrefl 0)
  | 0, r + 1, hr, _, hfuel => absurd (Sorted.scanDown_spec pivot (r + 1) hr).1 (by omega)
  | fuel + 1, r + 1, hr, hpos, hfuel => by
    have hx := List.getElem?_eq_getElem (l := seg) (i := r) (by omega)
    have hcast : ((pre.length + (r + 1) : Nat) - 1 : Int) = (pre.length + r : Nat) := by omega
    rw [scanDown, hx] at hpos hfuel ⊢
    rw [hcast, retreat, deref_segment (by omega), hx]
    simp only [Option.bind_eq_bind, Option.bind_some] at hpos hfuel ⊢
    split_ifs at hpos hfuel ⊢ with hlt
    · exact retreat_segment (by omega) hpos (by omega)
    · rw [hcast]
      rfl

/-! ### The loop -/

/-- Neither scan leaves the part that is sorted. -/
theorem scanDown_pos (h : Split pivot seg l r) (hlt : l < r) (hr : r ≤ seg.length)
    (hor : scanUp pivot seg l < scanDown pivot seg r ∨ 0 < l ∧ r < seg.length) :
    0 < scanDown pivot seg r := by
  rcases hor with hcross | ⟨hl, -⟩
  · exact Nat.zero_lt_of_lt hcross
  · have hx := List.getElem?_eq_getElem (l := seg) (i := l - 1) (by omega)
    exact Nat.zero_lt_of_lt (Sorted.lt_scanDown hr (by omega) hx (h.below _ _ (by omega) hx))

/-- The loop ends with what is not greater than the pivot in front of the two pointers, and what is
not less behind them. -/
theorem partition_segment (pre post : List Nat) (pivot : Nat) :
    ∀ (fuel : Nat) (seg : List Nat) (l r : Nat), r + 1 < l + fuel → Split pivot seg l r →
    Stopped pivot seg l r → ∃ b l' r', partition pivot fuel (pre ++ seg ++ post) ((pre.length + l : Nat) : Int)
        ((pre.length + r : Nat) - 1 : Int) =
        some (pre ++ b ++ post, ((pre.length + l' : Nat) : Int), ((pre.length + r' : Nat) - 1 : Int)) ∧
      b.Perm seg ∧ Split pivot b l' r' ∧ 0 < l' ∧ r' ≤ l' ∧ l' ≤ seg.length ∧ r' < seg.length
  | 0, seg, l, r, hf, h, hs => by
    rcases hs with ⟨rfl, -, -⟩ | ⟨-, hle, -⟩ <;> omega
  | fuel + 1, seg, l, r, hf, h, hs => by
    rw [partition]
    rcases Nat.lt_or_ge l r with hlt | hge
    · obtain ⟨hsplit, hup, hdown, hra, hor⟩ := h.scan hs hlt
      have hpos := scanDown_pos h hlt hra hor
      have hle : l ≤ scanUp pivot seg l := Sorted.le_scanUp
      have hlength : seg.length ≤ (pre ++ seg ++ post).length := by
        simp only [List.length_append]
        omega
      rw [if_pos (by omega), advance_segment hup (by omega)]
      simp only [Option.bind_eq_bind, Option.bind_some]
      rw [retreat_segment hra hpos (by omega)]
      simp only [Option.bind_some]
      split_ifs with hcross
      · have hmem := fun x => (Sorted.scanDown_spec pivot r hra).2.2 (scanDown pivot seg r - 1) x
          (by omega)
        have hj : ((pre.length + scanDown pivot seg r : Nat) - 1 : Int) =
            (pre.length + (scanDown pivot seg r - 1) : Nat) := by omega
        have hnext : ((pre.length + scanUp pivot seg l : Nat) + 1 : Int) =
            (pre.length + (scanUp pivot seg l + 1) : Nat) := by omega
        rw [hj, exchange_segment hup (by omega), Option.bind_some, hnext]
        obtain ⟨b, l', r', hrun, hperm, hb⟩ := partition_segment pre post pivot fuel
          (Sorted.swap seg (scanUp pivot seg l) (scanDown pivot seg r - 1))
          (scanUp pivot seg l + 1) (scanDown pivot seg r - 1) (by omega)
          (hsplit.exchange (by omega) (by omega) (fun x => Sorted.le_scanUp_elem) hmem)
          (.inr ⟨by omega, by omega, by rw [Sorted.swap_perm.length_eq]; omega⟩)
        rw [Sorted.swap_perm.length_eq] at hb
        exact ⟨b, l', r', hrun, hperm.trans Sorted.swap_perm, hb⟩
      · -- the test of the loop fails too
        obtain ⟨fuel, rfl⟩ : ∃ k, fuel = k + 1 := ⟨fuel - 1, by omega⟩
        rw [partition, if_neg hcross]
        exact ⟨seg, _, _, rfl, .rfl, hsplit, by omega, by omega, by omega, by omega⟩
    · rw [if_neg (by omega)]
      refine ⟨seg, l, r, rfl, .rfl, h, ?_⟩
      rcases hs with ⟨rfl, rfl, hp⟩ | ⟨h1, h2, h3⟩
      · exact absurd (List.length_pos_of_mem hp) (by omega)
      · exact ⟨h1, by omega, by omega, h3⟩

/-! ### The sort -/

theorem toSize_natCast (n : Nat) : toSize n = some n := if_neg (by omega)

theorem quicksort_segment : ∀ (fuel : Nat) (pre seg post : List Nat), seg.length + 3 ≤ fuel →
    ∃ b, quicksortPointers fuel (pre ++ seg ++ post) pre.length seg.length =
        some (pre ++ b ++ post) ∧ b.Perm seg ∧ b.Pairwise (· ≤ ·)
  | fuel + 1, pre, seg, post, hf => by
    rw [quicksortPointers]
    split_ifs with hlen
    · refine ⟨seg, rfl, .rfl, ?_⟩
      rcases seg with _ | ⟨x, _ | ⟨y, seg⟩⟩
      · exact .nil
      · exact List.pairwise_singleton _ _
      · simp only [List.length_cons] at hlen
        omega
    · have hx := List.getElem?_eq_getElem (l := seg) (i := seg.length / 2) (by omega)
      have hpivot : ((pre.length : Int) + (seg.length / 2 : Nat)) =
          (pre.length + seg.length / 2 : Nat) := (Int.natCast_add ..).symm
      have hright : ((pre.length : Int) + seg.length - 1) = (pre.length + seg.length : Nat) - 1 := by
        rw [Int.natCast_add]
      obtain ⟨b, l, r, hrun, hperm, hsplit, hl, hrl, hle, hr⟩ := partition_segment pre post
        seg[seg.length / 2] fuel seg 0 seg.length (by omega)
        ⟨fun i x hi => absurd hi (Nat.not_lt_zero i), fun i x hi hx =>
          absurd (List.getElem?_eq_some_iff.mp hx).1 (by omega)⟩
        (.inl ⟨rfl, rfl, List.getElem_mem _⟩)
      rw [Nat.add_zero] at hrun
      have hlength := hperm.length_eq
      have hfirst : ((pre.length + r : Nat) - 1 - (pre.length : Int) + 1) = r := by omega
      have hsecond : ((pre.length : Int) + seg.length - (pre.length + l : Nat)) =
          (seg.length - l : Nat) := by omega
      rw [hpivot, deref_segment (by omega), hx, hright]
      simp only [Option.bind_eq_bind, Option.bind_some]
      rw [hrun]
      simp only [Option.bind_some]
      rw [hfirst, hsecond, toSize_natCast, toSize_natCast]
      simp only [Option.bind_some]
      -- the elements in front of the pointers
      obtain ⟨p, hp, hpperm, hpsorted⟩ := quicksort_segment fuel pre (b.take r) (b.drop r ++ post)
        (by rw [List.length_take]; omega)
      have htake : (b.take r).length = r := by
        rw [List.length_take]
        omega
      rw [htake, ← List.append_assoc, List.append_assoc pre, List.take_append_drop] at hp
      rw [hp, Option.bind_some]
      -- those behind them
      have hmiddle : (b.drop r).take (l - r) ++ b.drop l = b.drop r := by
        rw [← Nat.add_sub_of_le hrl, ← List.drop_drop, Nat.add_sub_cancel_left,
          List.take_append_drop]
      have hfront : (pre ++ p ++ (b.drop r).take (l - r)).length = pre.length + l := by
        simp only [List.length_append, List.length_take, List.length_drop, hpperm.length_eq]
        omega
      have hbehind : (b.drop l).length = seg.length - l := by rw [List.length_drop, hlength]
      obtain ⟨q, hq, hqperm, hqsorted⟩ := quicksort_segment fuel
        (pre ++ p ++ (b.drop r).take (l - r)) (b.drop l) post (by omega)
      rw [hfront, hbehind, List.append_assoc (pre ++ p), hmiddle, List.append_assoc (pre ++ p)] at hq
      refine ⟨p ++ (b.drop r).take (l - r) ++ q, ?_, ?_,
        hsplit.pairwise_append hrl hpperm hqperm hpsorted hqsorted⟩
      · rw [hq]
        simp only [List.append_assoc]
      · refine (((hpperm.append .rfl).append hqperm).trans ?_).trans hperm
        rw [List.append_assoc, hmiddle, List.take_append_drop]

/-- The whole array. -/
theorem quicksortPointers_eq {fuel : Nat} (hf : a.length + 3 ≤ fuel) :
    quicksortPointers fuel a 0 a.length = some (Collector.quicksortPointers a) := by
  obtain ⟨b, hrun, hperm, hsorted⟩ := quicksort_segment fuel [] a [] hf
  obtain ⟨hperm', hsorted'⟩ := Sorted.quicksort_spec a.length a le_rfl
  rw [List.nil_append, List.append_nil, List.nil_append, List.append_nil] at hrun
  obtain rfl : b = Collector.quicksortPointers a :=
    (hperm.trans hperm'.symm).eq_of_pairwise (fun _ _ _ _ => Nat.le_antisymm) hsorted hsorted'
  exact hrun

theorem sortOf_quicksortPointers (a : List Nat) : SortOf a (Collector.quicksortPointers a) :=
  let ⟨hperm, hsorted⟩ := Sorted.quicksort_spec a.length a le_rfl
  ⟨hperm, hsorted⟩

/-! ### The search -/

theorem searchBetween_eq (ptr : Nat) : ∀ {fuel low high : Nat}, low ≤ high → high ≤ a.length →
    high < low + fuel → searchBetween ptr a fuel low (high - 1) =
      some ((Sorted.searchBetween ptr a fuel low high).map (↑))
  | 0, low, high, hle, _, hf => absurd hf (Nat.not_lt.mpr hle)
  | fuel + 1, low, high, hle, hhigh, hf => by
    rw [searchBetween, Sorted.searchBetween]
    rcases Nat.lt_or_ge low high with hlt | hge
    · have hmid : ((low : Int) + (high - 1)).tdiv 2 = ((low + (high - 1)) / 2 : Nat) := by
        rw [Int.tdiv_eq_ediv_of_nonneg (by omega)]
        omega
      have hx := List.getElem?_eq_getElem (l := a) (i := (low + (high - 1)) / 2) (by omega)
      rw [if_pos (by omega), if_pos hlt]
      simp only [Option.bind_eq_bind, hmid, deref_natCast, hx, Option.bind_some]
      split_ifs with heq hbelow
      · rfl
      · rw [← Int.natCast_succ]
        exact searchBetween_eq ptr (by omega) hhigh (by omega)
      · exact searchBetween_eq ptr (by omega) (by omega) (by omega)
    · rw [if_neg (by omega), if_neg (by omega)]
      rfl

theorem binarySearchForPointer_eq (ptr : Nat) (a : List Nat) :
    binarySearchForPointer (a.length + 1) ptr a a.length =
      some ((Sorted.binarySearch ptr a).map (↑)) :=
  searchBetween_eq ptr (Nat.zero_le _) le_rfl (by omega)

theorem foundIn_binarySearch (ha : a.Pairwise (· < ·)) (ptr : Nat) :
    FoundIn a ptr ((Sorted.binarySearch ptr a).map (↑)) := by
  refine ⟨fun i => ?_, ?_⟩
  · rw [Option.map_eq_some_iff, deref]
    constructor
    · rintro ⟨n, hn, rfl⟩
      rw [if_neg (by omega), Int.toNat_natCast]
      exact (Sorted.binarySearch_eq_some ha).mp hn
    · intro h
      split_ifs at h with hneg
      exact ⟨i.toNat, (Sorted.binarySearch_eq_some ha).mpr h, Int.toNat_of_nonneg (by omega)⟩
  · rw [Option.map_eq_none_iff]
    exact Sorted.binarySearch_eq_none ha

/-- Every array is sorted, and every pointer found in one that is in order without duplicates. -/
theorem pointers_sorted_found (ptrs : List Nat) :
    (∃ sorted, quicksortPointers (ptrs.length + 3) ptrs 0 ptrs.length = some sorted ∧
      SortOf ptrs sorted) ∧
    (ptrs.Pairwise (· < ·) → ∀ ptr, ∃ found,
      binarySearchForPointer (ptrs.length + 1) ptr ptrs ptrs.length = some found ∧
      FoundIn ptrs ptr found) :=
  ⟨⟨_, quicksortPointers_eq le_rfl, sortOf_quicksortPointers ptrs⟩, fun ha ptr =>
    ⟨_, binarySearchForPointer_eq ptr ptrs, foundIn_binarySearch ha ptr⟩⟩

theorem pointers_found_two :
    ∃ found, binarySearchForPointer 3 24 [16, 24] 2 = some found ∧ FoundIn [16, 24] 24 found :=
  (pointers_sorted_found [16, 24]).2 (by decide) 24

end BJvm.Pointers

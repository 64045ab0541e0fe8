import Mathlib.Data.List.Perm.Basic
import Mathlib.Algebra.Order.Ring.Nat
import Mathlib.Tactic.Common

/-!
# Quicksort

Quicksort as it is written for a vector: two indices run towards each other over the elements less
and greater than the pivot, exchange what they stop at, and the two ends are sorted in the same way.
What lies between the two ends after the exchanges is equal to the pivot.
-/

namespace Sorted

variable {α : Type*} [LinearOrder α] {pivot x : α} {a b : List α} {left right i j : Nat}

/-- The first index from `left` on whose element is not less than the pivot. -/
def scanUp (pivot : α) (a : List α) (left : Nat) : Nat :=
  left + (a.drop left).findIdx fun x => decide (pivot ≤ x)

/-- `right` without the elements in front of it that are greater than the pivot. -/
def scanDown (pivot : α) (a : List α) : Nat → Nat
  | 0 => 0
  | right + 1 =>
    match a[right]? with
    | some x => if pivot < x then scanDown pivot a right else right + 1
    | none => right + 1

def swap (a : List α) (i j : Nat) : List α :=
  match a[i]?, a[j]? with
  | some x, some y => (a.set i y).set j x
  | _, _ => a

/-- The exchanges; `right` is the index behind the right one. -/
def partition (pivot : α) : Nat → List α → Nat → Nat → List α × Nat × Nat
  | 0, a, left, right => (a, left, right)
  | fuel + 1, a, left, right =>
    if left < right then
      let left' := scanUp pivot a left
      let right' := scanDown pivot a right
      if left' < right' then
        partition pivot fuel (swap a left' (right' - 1)) (left' + 1) (right' - 1)
      else (a, left', right')
    else (a, left, right)

def quicksort : Nat → List α → List α
  | 0, a => a
  | fuel + 1, a =>
    match a[a.length / 2]? with
    | none => a
    | some pivot =>
      if a.length ≤ 1 then a
      else
        let (a, left, right) := partition pivot (a.length + 1) a 0 a.length
        quicksort fuel (a.take right) ++ (a.drop right).take (left - right) ++
          quicksort fuel (a.drop left)

/-! ### The two scans -/

theorem le_scanUp : left ≤ scanUp pivot a left := Nat.le_add_right _ _

theorem lt_of_lt_scanUp (hl : left ≤ i) (hi : i < scanUp pivot a left) (hx : a[i]? = some x) :
    x < pivot := by
  obtain ⟨k, rfl⟩ := Nat.exists_eq_add_of_le hl
  have hk : k < (a.drop left).findIdx fun x => decide (pivot ≤ x) := by
    rw [scanUp] at hi
    omega
  obtain ⟨hlt, rfl⟩ := List.getElem?_eq_some_iff.mp hx
  have := List.not_of_lt_findIdx hk
  rw [List.getElem_drop, decide_eq_false_iff_not, not_le] at this
  exact this

/-- A scan stops in front of an element that the pivot does not exceed. -/
theorem scanUp_le (hl : left ≤ j) (hx : a[j]? = some x) (hp : pivot ≤ x) :
    scanUp pivot a left ≤ j := by
  by_contra hlt
  exact absurd (lt_of_lt_scanUp hl (Nat.lt_of_not_le hlt) hx) (not_lt.mpr hp)

theorem le_scanUp_elem (hx : a[scanUp pivot a left]? = some x) : pivot ≤ x := by
  obtain ⟨hlt, rfl⟩ := List.getElem?_eq_some_iff.mp hx
  have hk : ((a.drop left).findIdx fun x => decide (pivot ≤ x)) < (a.drop left).length := by
    rw [List.length_drop]
    have : scanUp pivot a left = left + _ := rfl
    omega
  have := List.findIdx_getElem (w := hk)
  rw [List.getElem_drop, decide_eq_true_eq] at this
  exact this

theorem scanDown_spec (pivot : α) : ∀ right, right ≤ a.length → scanDown pivot a right ≤ right ∧
    (∀ i x, scanDown pivot a right ≤ i → i < right → a[i]? = some x → pivot < x) ∧
    (∀ i x, scanDown pivot a right = i + 1 → a[i]? = some x → x ≤ pivot)
  | 0, _ => ⟨Nat.le_refl 0, fun _ _ _ h => absurd h (Nat.not_lt_zero _), fun _ _ h => by cases h⟩
  | right + 1, hr => by
    obtain ⟨h1, h2, h3⟩ := scanDown_spec pivot right (by omega)
    have hget := List.getElem?_eq_getElem (l := a) (i := right) (by omega)
    rw [scanDown, hget]
    simp only
    split_ifs with hlt
    · refine ⟨by omega, fun i x hi hir hx => ?_, h3⟩
      rcases Nat.lt_or_ge i right with h | h
      · exact h2 i x hi h hx
      · obtain rfl : i = right := by omega
        rw [hget, Option.some.injEq] at hx
        exact hx ▸ hlt
    · refine ⟨Nat.le_refl _, fun i x hi hir => absurd hir (by omega), fun i x hi hx => ?_⟩
      obtain rfl : right = i := by omega
      rw [hget, Option.some.injEq] at hx
      exact hx ▸ not_lt.mp hlt

/-- A scan stops behind an element that does not exceed the pivot. -/
theorem lt_scanDown (hr : right ≤ a.length) (hj : j < right) (hx : a[j]? = some x)
    (hp : x ≤ pivot) : j < scanDown pivot a right := by
  by_contra hlt
  exact absurd ((scanDown_spec pivot right hr).2.1 j x (Nat.le_of_not_lt hlt) hj hx) (not_lt.mpr hp)

/-! ### The exchanges -/

omit [LinearOrder α] in
theorem swap_perm : (swap a i j).Perm a := by
  rw [swap]
  split
  · next x y hx hy =>
    obtain ⟨hi, rfl⟩ := List.getElem?_eq_some_iff.mp hx
    obtain ⟨hj, rfl⟩ := List.getElem?_eq_some_iff.mp hy
    exact List.set_set_perm hi hj
  · exact .rfl

omit [LinearOrder α] in
theorem getElem?_swap {k : Nat} (hi : i < a.length) (hj : j < a.length) :
    (swap a i j)[k]? = if k = i then a[j]? else if k = j then a[i]? else a[k]? := by
  rw [swap, List.getElem?_eq_getElem hi, List.getElem?_eq_getElem hj]
  grind

/-- What the two indices leave on both sides. -/
structure Split (pivot : α) (a : List α) (left right : Nat) : Prop where
  below : ∀ i x, i < left → a[i]? = some x → x ≤ pivot
  above : ∀ i x, right ≤ i → a[i]? = some x → pivot ≤ x

/-- Both scans meet an element that stops them: the pivot at first, and then what was exchanged. -/
def Stopped (pivot : α) (a : List α) (left right : Nat) : Prop :=
  (left = 0 ∧ right = a.length ∧ pivot ∈ a) ∨
    (0 < left ∧ left ≤ right + 1 ∧ right < a.length)

/-- The two scans keep within the vector and the sides. -/
theorem Split.scan (h : Split pivot a left right) (hs : Stopped pivot a left right)
    (hlt : left < right) :
    Split pivot a (scanUp pivot a left) (scanDown pivot a right) ∧
      scanUp pivot a left < a.length ∧ scanDown pivot a right ≤ right ∧ right ≤ a.length ∧
      (scanUp pivot a left < scanDown pivot a right ∨
        0 < left ∧ right < a.length) := by
  have hra : right ≤ a.length := by rcases hs with ⟨-, rfl, -⟩ | ⟨-, -, h⟩ <;> omega
  obtain ⟨hd1, hd2, -⟩ := scanDown_spec pivot right hra
  refine ⟨⟨fun i x hi hx => ?_, fun i x hi hx => ?_⟩, ?_, hd1, hra, ?_⟩
  · rcases Nat.lt_or_ge i left with hl | hl
    · exact h.below i x hl hx
    · exact (lt_of_lt_scanUp hl hi hx).le
  · rcases Nat.lt_or_ge i right with hr | hr
    · exact (hd2 i x hi hr hx).le
    · exact h.above i x hr hx
  · rcases hs with ⟨rfl, -, hp⟩ | ⟨-, -, hr⟩
    · obtain ⟨k, hk⟩ := List.mem_iff_getElem?.mp hp
      have := scanUp_le (Nat.zero_le k) hk le_rfl
      have := (List.getElem?_eq_some_iff.mp hk).1
      omega
    · have hget := List.getElem?_eq_getElem hr
      have := scanUp_le (Nat.le_of_lt hlt) hget (h.above right _ (Nat.le_refl _) hget)
      omega
  · rcases hs with ⟨rfl, rfl, hp⟩ | ⟨hl, -, hr⟩
    · obtain ⟨k, hk⟩ := List.mem_iff_getElem?.mp hp
      have hklt := (List.getElem?_eq_some_iff.mp hk).1
      have h1 := scanUp_le (Nat.zero_le k) hk le_rfl
      have h2 := lt_scanDown hra hklt hk le_rfl
      exact .inl (by omega)
    · exact .inr ⟨hl, hr⟩

/-- One exchange. -/
theorem Split.exchange {l r : Nat} (h : Split pivot a l r) (hlr : l < r) (hr : r ≤ a.length)
    (hl : ∀ x, a[l]? = some x → pivot ≤ x) (hr' : ∀ x, a[r - 1]? = some x → x ≤ pivot) :
    Split pivot (swap a l (r - 1)) (l + 1) (r - 1) := by
  have hget := fun k => getElem?_swap (k := k) (show l < a.length by omega)
    (show r - 1 < a.length by omega)
  refine ⟨fun i x hi hx => ?_, fun i x hi hx => ?_⟩ <;> rw [hget] at hx <;> split_ifs at hx with h1 h2
  · exact hr' x hx
  · omega
  · exact h.below i x (by omega) hx
  · obtain rfl : r - 1 = l := by omega
    exact hl x hx
  · exact hl x hx
  · exact h.above i x (by omega) hx

/-- The exchanges end with less than all of the elements on either side, and those between the sides
on both. -/
theorem partition_spec (pivot : α) :
    ∀ (fuel : Nat) (a : List α) (left right : Nat), right - left < fuel →
    Split pivot a left right → Stopped pivot a left right →
    ∃ b l r, partition pivot fuel a left right = (b, l, r) ∧ b.Perm a ∧ Split pivot b l r ∧
      0 < l ∧ r ≤ l ∧ r < a.length
  | fuel + 1, a, left, right, hf, h, hs => by
    rw [partition]
    split_ifs with hlt
    · obtain ⟨hsplit, hup, hdown, hra, hor⟩ := h.scan hs hlt
      simp only
      have hle : left ≤ scanUp pivot a left := le_scanUp
      split_ifs with hcross
      · have hd3 := (scanDown_spec pivot right hra).2.2
        obtain ⟨b, l, r, hp, hperm, hb⟩ := partition_spec pivot fuel
          (swap a (scanUp pivot a left) (scanDown pivot a right - 1))
          (scanUp pivot a left + 1) (scanDown pivot a right - 1) (by omega)
          (hsplit.exchange hcross (by omega) (fun x => le_scanUp_elem)
            (fun x => hd3 _ x (by omega)))
          (.inr ⟨by omega, by omega, by rw [swap_perm.length_eq]; omega⟩)
        rw [swap_perm.length_eq] at hb
        exact ⟨b, l, r, hp, hperm.trans swap_perm, hb⟩
      · exact ⟨a, _, _, rfl, .rfl, hsplit, by omega, by omega, by omega⟩
    · refine ⟨a, left, right, rfl, .rfl, h, ?_⟩
      rcases hs with ⟨rfl, rfl, hp⟩ | ⟨h1, h2, h3⟩
      · exact absurd (List.length_pos_of_mem hp) hlt
      · exact ⟨h1, by omega, h3⟩

/-! ### The sort -/

omit [LinearOrder α] in
theorem getElem?_of_mem_take {n : Nat} (h : x ∈ a.take n) : ∃ i < n, a[i]? = some x := by
  obtain ⟨i, hi⟩ := List.mem_iff_getElem?.mp h
  rw [List.getElem?_take] at hi
  split_ifs at hi with hlt
  exact ⟨i, hlt, hi⟩

omit [LinearOrder α] in
theorem getElem?_of_mem_drop {n : Nat} (h : x ∈ a.drop n) : ∃ i, n ≤ i ∧ a[i]? = some x := by
  obtain ⟨i, hi⟩ := List.mem_iff_getElem?.mp h
  rw [List.getElem?_drop] at hi
  exact ⟨n + i, by omega, hi⟩

/-- The two sides and what is between them, in the vector and in order. -/
theorem Split.pairwise_append (h : Split pivot b left right) (hle : right ≤ left)
    {p q : List α} (hp : p.Perm (b.take right)) (hq : q.Perm (b.drop left))
    (hps : p.Pairwise (· ≤ ·)) (hqs : q.Pairwise (· ≤ ·)) :
    (p ++ (b.drop right).take (left - right) ++ q).Pairwise (· ≤ ·) := by
  have hbelow : ∀ x ∈ p, x ≤ pivot := fun x hx => by
    obtain ⟨i, hi, hget⟩ := getElem?_of_mem_take (hp.subset hx)
    exact h.below i x (by omega) hget
  have hmiddle : ∀ x ∈ (b.drop right).take (left - right), x = pivot := fun x hx => by
    obtain ⟨i, hi, hget⟩ := getElem?_of_mem_take hx
    rw [List.getElem?_drop] at hget
    exact le_antisymm (h.below _ x (by omega) hget) (h.above _ x (by omega) hget)
  have habove : ∀ x ∈ q, pivot ≤ x := fun x hx => by
    obtain ⟨i, hi, hget⟩ := getElem?_of_mem_drop (hq.subset hx)
    exact h.above i x (by omega) hget
  refine List.pairwise_append.mpr ⟨List.pairwise_append.mpr ⟨hps, ?_, ?_⟩, hqs, ?_⟩
  · exact List.pairwise_of_forall_mem_list fun x hx y hy => by
      rw [hmiddle x hx, hmiddle y hy]
  · exact fun x hx y hy => (hmiddle y hy).symm ▸ hbelow x hx
  · intro x hx y hy
    rcases List.mem_append.mp hx with hx | hx
    · exact (hbelow x hx).trans (habove y hy)
    · exact (hmiddle x hx).symm ▸ habove y hy

theorem quicksort_spec : ∀ (fuel : Nat) (a : List α), a.length ≤ fuel →
    (quicksort fuel a).Perm a ∧ (quicksort fuel a).Pairwise (· ≤ ·)
  | 0, a, hf => by
    obtain rfl := List.eq_nil_of_length_eq_zero (Nat.le_zero.mp hf)
    exact ⟨.rfl, .nil⟩
  | fuel + 1, a, hf => by
    rw [quicksort]
    split
    · next h =>
      have : a.length ≤ a.length / 2 := List.getElem?_eq_none_iff.mp h
      obtain rfl := List.eq_nil_of_length_eq_zero (show a.length = 0 by omega)
      exact ⟨.rfl, .nil⟩
    · next pivot h =>
      split_ifs with hlen
      · obtain ⟨y, rfl⟩ | rfl : (∃ y, a = [y]) ∨ a = [] := by
          rcases a with _ | ⟨y, _ | _⟩
          · exact .inr rfl
          · exact .inl ⟨y, rfl⟩
          · simp at hlen
        · exact ⟨.rfl, List.pairwise_singleton _ _⟩
        · exact ⟨.rfl, .nil⟩
      · obtain ⟨b, l, r, hb, hperm, hsplit, hl, hrl, hr⟩ := partition_spec pivot
          (a.length + 1) a 0 a.length (by omega)
          ⟨fun i x hi => absurd hi (Nat.not_lt_zero i), fun i x hi hx =>
            absurd (List.getElem?_eq_some_iff.mp hx).1 (by omega)⟩
          (.inl ⟨rfl, rfl, List.mem_of_getElem? h⟩)
        have hlen := hperm.length_eq
        obtain ⟨hp1, hs1⟩ := quicksort_spec fuel (b.take r)
          (by rw [List.length_take]; omega)
        obtain ⟨hp2, hs2⟩ := quicksort_spec fuel (b.drop l)
          (by rw [List.length_drop]; omega)
        rw [hb]
        refine ⟨?_, hsplit.pairwise_append hrl hp1 hp2 hs1 hs2⟩
        refine (((hp1.append .rfl).append hp2).trans ?_).trans hperm
        rw [List.append_assoc, show b.drop l = (b.drop r).drop (l - r) by
          rw [List.drop_drop, Nat.add_sub_of_le hrl], List.take_append_drop, List.take_append_drop]

end Sorted

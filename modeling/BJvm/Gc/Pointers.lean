import BJvm.Gc.Collector

/-!
# Sorting and searching pointers

`quicksort_pointers` and `binary_search_for_pointer` of `gc.c`, in place.  A pointer into the array
is its distance from the start, which may leave the array as long as nothing is read there.
-/

namespace BJvm.Pointers

/-- `*p` -/
def deref (a : List Nat) (p : Int) : Option Nat := if p < 0 then none else a[p.toNat]?

/-- `*p = x` -/
def assign (a : List Nat) (p : Int) (x : Nat) : Option (List Nat) :=
  (deref a p).map fun _ => a.set p.toNat x

/-- A difference of pointers as a `size_t`. -/
def toSize (n : Int) : Option Nat := if n < 0 then none else some n.toNat

/-! ### `quicksort_pointers` -/

/-- `while (*left < pivot) left++` -/
def advance (a : List Nat) (pivot : Nat) : Nat → Int → Option Int
  | 0, _ => none
  | fuel + 1, left => do
    if (← deref a left) < pivot then advance a pivot fuel (left + 1) else return left

/-- `while (*right > pivot) right--` -/
def retreat (a : List Nat) (pivot : Nat) : Nat → Int → Option Int
  | 0, _ => none
  | fuel + 1, right => do
    if pivot < (← deref a right) then retreat a pivot fuel (right - 1) else return right

def exchange (a : List Nat) (left right : Int) : Option (List Nat) := do
  let tmp ← deref a left
  let a ← assign a left (← deref a right)
  assign a right tmp

/-- `while (left <= right)`; a scan ends before it has read more than the whole array. -/
def partition (pivot : Nat) : Nat → List Nat → Int → Int → Option (List Nat × Int × Int)
  | 0, _, _, _ => none
  | fuel + 1, a, left, right =>
    if left ≤ right then do
      let left ← advance a pivot (a.length + 1) left
      let right ← retreat a pivot (a.length + 1) right
      if left ≤ right then
        partition pivot fuel (← exchange a left right) (left + 1) (right - 1)
      else partition pivot fuel a left right
    else some (a, left, right)

/-- `quicksort_pointers`; none where it reads outside the array, or does not end within the fuel. -/
def quicksortPointers : Nat → List Nat → Int → Nat → Option (List Nat)
  | 0, _, _, _ => none
  | fuel + 1, a, ptrs, count =>
    if count ≤ 1 then some a
    else do
      let pivot ← deref a (ptrs + (count / 2 : Nat))
      let (a, left, right) ← partition pivot fuel a ptrs (ptrs + count - 1)
      let a ← quicksortPointers fuel a ptrs (← toSize (right - ptrs + 1))
      quicksortPointers fuel a left (← toSize (ptrs + count - left))

/-! ### `binary_search_for_pointer` -/

/-- The loop; the inner none is the null pointer. -/
def searchBetween (ptr : Nat) (ptrs : List Nat) : Nat → Int → Int → Option (Option Int)
  | 0, _, _ => none
  | fuel + 1, low, high =>
    if low ≤ high then do
      let mid := (low + high).tdiv 2
      let x ← deref ptrs mid
      if x = ptr then return some mid
      else if x < ptr then searchBetween ptr ptrs fuel (mid + 1) high
      else searchBetween ptr ptrs fuel low (mid - 1)
    else some none

/-- `binary_search_for_pointer`, with the index of what is found. -/
def binarySearchForPointer (fuel ptr : Nat) (ptrs : List Nat) (count : Nat) : Option (Option Int) :=
  searchBetween ptr ptrs fuel 0 (count - 1)

/-! ### What they are for -/

/-- The array in order. -/
structure SortOf (ptrs sorted : List Nat) : Prop where
  perm : sorted.Perm ptrs
  sorted : sorted.Pairwise (· ≤ ·)

/-- The index of the pointer, or the null pointer if it is not there. -/
structure FoundIn (ptrs : List Nat) (ptr : Nat) (found : Option Int) : Prop where
  index : ∀ i, found = some i ↔ deref ptrs i = some ptr
  absent : found = none ↔ ptr ∉ ptrs

end BJvm.Pointers

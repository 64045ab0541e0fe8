import Mathlib.Data.List.Basic

/-!
# Arrays of several dimensions

`CreateArray` in `arrays.c`, `multianewarray` in `bjvm.c` and the handler of the instruction.  Which
allocations fail is a parameter; so is whether the class can be resolved.  The descriptors, which
only decide what class each of the arrays is of, are left out, and an array is what is in it.
-/

namespace BJvm.Arrays

/-- The exception that is pending. -/
inductive PendingException
  | outOfMemory
  | negativeArraySize (dim : Int32)
  /-- from `resolve_class` -/
  | resolution
  deriving DecidableEq, Repr

/-- The arrays that are built. -/
inductive MultiArray
  /-- of one dimension -/
  | flat (length : Nat)
  /-- of arrays -/
  | nested (elements : List MultiArray)

/-- What building an array goes by and leaves. -/
structure BuildState where
  /-- the slots of `thread->handles` that are free -/
  freeHandles : Nat
  /-- the allocations that have been tried -/
  allocations : Nat := 0
  currentException : Option PendingException := none
  deriving DecidableEq, Repr

/-- What `CreateArray` comes to. -/
inductive Built
  | null
  | array (obj : MultiArray)
  /-- `ReferenceArrayStore` is given the null pointer for the array. -/
  | nullStore
  /-- `UNREACHABLE` of `make_handle_impl` -/
  | exhausted

/-- The allocation of one array, the `k`-th of which fails if `fails k`. -/
def allocate (fails : Nat → Bool) (s : BuildState) : BuildState × Bool :=
  if fails s.allocations then
    ({ s with allocations := s.allocations + 1, currentException := some .outOfMemory }, false)
  else ({ s with allocations := s.allocations + 1 }, true)

/-- The loop of `CreateArray`, with `n` elements to go.  `arr` is whether `arr->obj` is an array and
not null. -/
def fillArray (createSubarray : BuildState → BuildState × Built) (arr : Bool) :
    (n : Nat) → List MultiArray → BuildState → BuildState × Built
  | 0, stored, s => (s, if arr then .array (.nested stored) else .null)
  | n + 1, stored, s =>
    match createSubarray s with
    | (s, .null) => (s, .null)
    | (s, .array subarray) =>
      if arr then fillArray createSubarray arr n (stored ++ [subarray]) s else (s, .nullStore)
    | (s, stop) => (s, stop)

/-- `make_handle`, of null or of an array; null needs no slot. -/
def makeHandle (arr : Bool) (s : BuildState) : Option BuildState :=
  if ¬arr then some s
  else if s.freeHandles = 0 then none
  else some { s with freeHandles := s.freeHandles - 1 }

/-- `drop_handle` -/
def dropHandle (arr : Bool) (s : BuildState) : BuildState :=
  if arr then { s with freeHandles := s.freeHandles + 1 } else s

/-- `CreateArray`, with at least one dimension. -/
def createArray (fails : Nat → Bool) : List Nat → BuildState → BuildState × Built
  | [], s => (s, .null)
  | [length], s =>
    let (s, arr) := allocate fails s
    (s, if arr then .array (.flat length) else .null)
  | length :: dimSizes, s =>
    let (s, arr) := allocate fails s
    match makeHandle arr s with
    | none => (s, .exhausted)
    | some s =>
      let (s, result) := fillArray (createArray fails dimSizes) arr length [] s
      (dropHandle arr s, result)

/-- What `multianewarray` returns: −1, or zero with what it has put on the stack. -/
inductive MultianewarrayResult
  | failed
  | done (obj : Built)

variable (resolves : Bool) (fails : Nat → Bool) (freeHandles : Nat) (dims : List Int32)

/-- `multianewarray`.  What `link_class` returns is not looked at. -/
def multianewarray : BuildState × MultianewarrayResult :=
  if ¬resolves then ({ freeHandles, currentException := some .resolution }, .failed)
  else
    match dims.find? (· < 0) with
    | some dim => ({ freeHandles, currentException := some (.negativeArraySize dim) }, .failed)
    | none =>
      let (s, result) := createArray fails (dims.map fun dim => dim.toInt.toNat) { freeHandles }
      (s, .done result)

/-- The dimensions as sizes. -/
def sizes (dims : List Int32) : List Nat := dims.map fun dim => dim.toInt.toNat

end BJvm.Arrays

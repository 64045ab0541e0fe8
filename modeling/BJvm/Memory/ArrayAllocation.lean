import BJvm.Gc.Collector

/-!
# Allocating arrays

`bump_allocate` in `bjvm.c` and the one-dimensional arrays of `arrays.c`, in the arithmetic of a
target.  A sum or product that leaves `int` is taken to wrap around, as `size_t` does.  Addresses
are offsets in the heap.
-/

namespace BJvm.Arrays

open Collector (sizeofTypeKind)

/-- What the VM is built for. -/
inductive Target
  | bits32 | bits64
  deriving DecidableEq, Repr

namespace Target

/-- The bits of a `size_t`. -/
def bits : Target → Nat
  | bits32 => 32
  | bits64 => 64

/-- `sizeof(object)` -/
def sizeofObject : Target → Nat
  | bits32 => 4
  | bits64 => 8

/-- `kArrayDataOffset`: the header and the length, up to a multiple of 16. -/
def kArrayDataOffset : Target → Nat
  | bits32 => 16
  | bits64 => 32

end Target

variable (target : Target)

/-- What is left of a number in an `int`. -/
def toInt (x : Int) : Int := Int.bmod x (2 ^ 32)

/-- What is left of a number in a `size_t`. -/
def toSize (x : Int) : Nat := (x % 2 ^ target.bits).toNat

/-- `align_up(value, 8)` -/
def alignUp (value : Nat) : Nat := toSize target (value + 7) / 8 * 8

/-! ### The heap -/

/-- The size of a heap, which is a single object of C. -/
structure HeapSize where
  capacity : Nat
  capacity_lt : capacity < 2 ^ (target.bits - 1)

variable {target}

/-- The part of `vm` that allocation goes by. -/
structure Heap (size : HeapSize target) where
  heapUsed : Nat
  used_le : heapUsed ≤ size.capacity

variable {size : HeapSize target}

/-- `vm->heap_used + bytes` -/
def Heap.sum (heap : Heap size) (bytes : Nat) : Nat := toSize target (heap.heapUsed + bytes)

/-- `bump_allocate`: the heap, and where the object is, unless there is an `OutOfMemoryError`. -/
def bumpAllocate (majorGc : Heap size → Heap size) (heap : Heap size) (bytes : Nat) :
    Heap size × Option Nat :=
  let bytes := alignUp target bytes
  if h : heap.sum bytes ≤ size.capacity then
    ({ heapUsed := heap.sum bytes, used_le := h }, some heap.heapUsed)
  else
    let heap := majorGc heap
    if h : heap.sum bytes ≤ size.capacity then
      ({ heapUsed := heap.sum bytes, used_le := h }, some heap.heapUsed)
    else (heap, none)

/-! ### Arrays -/

/-- The elements of an array. -/
inductive ElementKind
  | primitive (kind : TypeKind) (h : kind ≠ .reference ∧ kind ≠ .void)
  | object
  deriving DecidableEq

namespace ElementKind

/-- The bytes of an element. -/
def elementSize (target : Target) : ElementKind → Nat
  | primitive kind _ => sizeofTypeKind kind
  | object => target.sizeofObject

/-- `allocation_size`, in `create_1d_primitive_array` and in `CreateObjectArray1D`. -/
def allocationSize (target : Target) (count : Int32) : ElementKind → Nat
  | primitive kind _ =>
    -- all in `int`, then extended
    toSize target (toInt (target.kArrayDataOffset + toInt (count.toInt * sizeofTypeKind kind)))
  | object =>
    toSize target (target.kArrayDataOffset
      + toSize target (toSize target count.toInt * target.sizeofObject : Nat))

end ElementKind

/-- An array: where it is, and the length it has recorded. -/
structure ArrayObject where
  base : Nat
  length : Int32

/-- `create_1d_primitive_array` and `CreateObjectArray1D` -/
def createArray1D (majorGc : Heap size → Heap size) (heap : Heap size) (kind : ElementKind)
    (count : Int32) : Heap size × Option ArrayObject :=
  let (heap, obj) := bumpAllocate majorGc heap (kind.allocationSize target count)
  (heap, obj.map fun base => { base, length := count })

/-- How `newarray` and `anewarray` come out. -/
inductive NewArrayResult
  | negativeArraySize (count : Int32)
  | outOfMemory
  | array (obj : ArrayObject)

/-- `newarray_impl_int` and `anewarray_resolved_impl_int` -/
def newarray (majorGc : Heap size → Heap size) (heap : Heap size) (kind : ElementKind)
    (count : Int32) : Heap size × NewArrayResult :=
  if count < 0 then (heap, .negativeArraySize count)
  else
    let (heap, obj) := createArray1D majorGc heap kind count
    (heap, obj.elim .outOfMemory .array)

/-! ### What is asked of them -/

/-- The header and the elements, as a number. -/
def arrayBytes (target : Target) (kind : ElementKind) (length : Int32) : Int :=
  target.kArrayDataOffset + length.toInt * kind.elementSize target

/-- An array that comes out has its header and its elements in what has been allocated. -/
def AllocatesAll (majorGc : Heap size → Heap size) (heap : Heap size) (kind : ElementKind)
    (count : Int32) : Prop :=
  ∀ obj, (newarray majorGc heap kind count).2 = .array obj →
    obj.base + arrayBytes target kind obj.length ≤ (newarray majorGc heap kind count).1.heapUsed

/-- The bytes of an array are more than the arithmetic of its size can hold. -/
def TooLarge (target : Target) (kind : ElementKind) (count : Int32) : Prop :=
  match target, kind with
  | .bits64, .primitive _ _ => 2 ^ 31 ≤ arrayBytes target kind count
  | .bits64, .object => False
  | .bits32, _ => 2 ^ 32 ≤ arrayBytes target kind count

/-- The heap that the array is in, if it is in any. -/
def heapFor (majorGc : Heap size → Heap size) (heap : Heap size) (bytes : Nat) : Heap size :=
  if heap.sum (alignUp target bytes) ≤ size.capacity then heap else majorGc heap

end BJvm.Arrays

import BJvm.Gc.Collector
import BJvm.Linkage.ClassLinker
import BJvm.Memory.ArrayAllocation
import BJvm.Memory.Chunks

/-!
# System.arraycopy

The native method of `System.c`, and what the documentation of Java says about it.  An object is
known by its address, and the data of an array are bytes that no other object shares.
-/

namespace BJvm.ArrayCopy

open Arrays (Target)
open Chunks
open Function (update)
open Linker (ClassId)

variable (target : Target)

/-- The bytes of an element of the arrays of a class. -/
def elementSize (c : ClassId) : Nat :=
  if c.kind = .primitiveArray then Collector.sizeofTypeKind c.primitiveComponent
  else target.sizeofObject

/-- The switch over the primitive types in `arraycopy`; the others are unreachable. -/
def copySize : TypeKind → Option Nat
  | .byte | .boolean => some 1
  | .char | .short => some 2
  | .float | .int => some 4
  | .double | .long => some 8
  | .void | .reference => none

/-- An object, or an array with its elements. -/
structure HeapObject where
  descriptor : ClassId
  length : Nat := 0
  data : List UInt8 := []
  not_primitive : descriptor.kind ≠ .primitive
  component : descriptor.kind = .primitiveArray → (copySize descriptor.primitiveComponent).isSome
  length_lt : length < 2 ^ 31
  sized : data.length = length * elementSize target descriptor

variable {target}

namespace HeapObject

variable (o : HeapObject target)

/-- `Is1DPrimitiveArray`. -/
def is1DPrimitiveArray : Bool := o.descriptor.kind = .primitiveArray

/-- A write into the data. -/
def write (offset : Nat) (bytes : List UInt8) : HeapObject target :=
  if h : offset + bytes.length ≤ o.data.length then
    { o with
      data := overwrite o.data offset bytes
      sized := (length_overwrite h).trans o.sized }
  else o

end HeapObject

/-- The objects; the null pointer is zero. -/
abbrev Heap (target : Target) := Nat → HeapObject target

/-- The pointer that is stored in these bytes. -/
def address (bytes : List UInt8) : Nat := bytes.foldr (fun b n => b.toNat + 2 ^ 8 * n) 0

inductive Thrown
  | nullPointerException
  | arrayStoreException (message : String)
  | arrayIndexOutOfBoundsException
  deriving DecidableEq, Repr

namespace Heap

variable (heap : Heap target)

/-- `memmove` of `k` elements of the given size. -/
def memmove (size dest d src s k : Nat) : Heap target :=
  update heap dest ((heap dest).write (d * size) (chunks size (heap src).data s k))

variable (instanceof : ClassId → ClassId → Bool)

/-- An element that the loop stores in an array of this component type. -/
def passes (comp : ClassId) (elem : List UInt8) : Bool :=
  address elem = 0 || instanceof (heap (address elem)).descriptor comp

end Heap

/-- The comparison of a sum, as `s64`, with the length of an array. -/
def outOfBounds (pos length : BitVec 32) (arrayLength : Nat) : Bool :=
  ((BitVec.ofNat 32 arrayLength).signExtend 64).slt (pos.signExtend 64 + length.signExtend 64)

variable (instanceof : ClassId → ClassId → Bool)

/-- The loop with the checks, for `n` more elements. -/
def copyLoop (comp : ClassId) (src dest : Nat) :
    Nat → Nat → Nat → Heap target → Heap target × Option Thrown
  | 0, _, _, heap => (heap, none)
  | n + 1, s, d, heap =>
    let elem := chunk target.sizeofObject (heap src).data s
    if heap.passes instanceof comp elem then
      copyLoop comp src dest n (s + 1) (d + 1)
        (update heap dest ((heap dest).write (d * target.sizeofObject) elem))
    else (heap, some (.arrayStoreException "source and destination are not compatible"))

/-- `arraycopy`; none where the program ends. -/
def arraycopy (heap : Heap target) (src : Nat) (srcPos : BitVec 32) (dest : Nat)
    (destPos length : BitVec 32) : Option (Heap target × Option Thrown) :=
  let srcDesc := (heap src).descriptor
  let destDesc := (heap dest).descriptor
  if src = 0 ∨ dest = 0 then some (heap, some .nullPointerException)
  else if srcDesc.kind = .ordinary then
    some (heap, some (.arrayStoreException "source is not an array"))
  else if destDesc.kind = .ordinary then
    some (heap, some (.arrayStoreException "destination is not an array"))
  else if (heap src).is1DPrimitiveArray ≠ (heap dest).is1DPrimitiveArray ∨
      (heap src).is1DPrimitiveArray ∧
        srcDesc.primitiveComponent ≠ destDesc.primitiveComponent then
    some (heap, some (.arrayStoreException "source and destination are not compatible"))
  else if srcPos.slt 0 ∨ destPos.slt 0 ∨ length.slt 0 ∨
      outOfBounds srcPos length (heap src).length ∨
      outOfBounds destPos length (heap dest).length then
    some (heap, some .arrayIndexOutOfBoundsException)
  else if (heap src).is1DPrimitiveArray then
    (copySize srcDesc.primitiveComponent).map fun size =>
      (heap.memmove size dest destPos.toNat src srcPos.toNat length.toNat, none)
  else
    match srcDesc.oneFewerDim, destDesc.oneFewerDim with
    | some srcComp, some destComp =>
      if instanceof srcComp destComp then
        some (heap.memmove target.sizeofObject dest destPos.toNat src srcPos.toNat length.toNat,
          none)
      else
        some (copyLoop instanceof destComp src dest length.toNat srcPos.toNat destPos.toNat heap)
    | _, _ => none

/-! ### The documentation -/

/-- The classes of the exceptions. -/
inductive Exc
  | nullPointer | arrayStore | indexOutOfBounds
  deriving DecidableEq, Repr

def Thrown.exc : Thrown → Exc
  | .nullPointerException => .nullPointer
  | .arrayStoreException _ => .arrayStore
  | .arrayIndexOutOfBoundsException => .indexOutOfBounds

/-- The primitive type of the elements. -/
def HeapObject.primitiveElement (o : HeapObject target) : Option TypeKind :=
  match o.descriptor with
  | ⟨.primitive kind, 1⟩ => some kind
  | _ => none

def HeapObject.isArray (o : HeapObject target) : Bool := 0 < o.descriptor.dimensions

section

variable (heap : Heap target) (src : Nat) (srcPos : BitVec 32) (dest : Nat)
  (destPos length : BitVec 32)

/-- The exception that is thrown before anything is copied. -/
def specifiedException : Option Exc :=
  if src = 0 ∨ dest = 0 then some .nullPointer
  else if ¬ (heap src).isArray ∨ ¬ (heap dest).isArray then some .arrayStore
  else if (heap src).primitiveElement ≠ (heap dest).primitiveElement then some .arrayStore
  else if srcPos.toInt < 0 ∨ destPos.toInt < 0 ∨ length.toInt < 0 ∨
      (heap src).length < srcPos.toInt + length.toInt ∨
      (heap dest).length < destPos.toInt + length.toInt then
    some .indexOutOfBounds
  else none

/-- An element of an array. -/
def Heap.element (r i : Nat) : List UInt8 :=
  chunk (elementSize target (heap r).descriptor) (heap r).data i

/-- What is in the element `i` of the range may be assigned to the elements of the destination. -/
def Assignable (assignable : ClassId → ClassId → Prop) (i : Nat) : Prop :=
  (heap src).is1DPrimitiveArray = true ∨ address (heap.element src (srcPos.toNat + i)) = 0 ∨
    ∃ comp, (heap dest).descriptor.oneFewerDim = some comp ∧
      assignable (heap (address (heap.element src (srcPos.toNat + i)))).descriptor comp

/-- The first `k` elements of the range are those of the source before the call, and all else is as
it was. -/
structure Copied (heap' : Heap target) (k : Nat) : Prop where
  others : ∀ r ≠ dest, heap' r = heap r
  descriptor : (heap' dest).descriptor = (heap dest).descriptor
  length_eq : (heap' dest).length = (heap dest).length
  copied : ∀ i < k, heap'.element dest (destPos.toNat + i) = heap.element src (srcPos.toNat + i)
  rest : ∀ j, j < destPos.toNat ∨ destPos.toNat + k ≤ j → heap'.element dest j = heap.element dest j

/-- The result of a call is what the documentation says. -/
structure Specified (assignable : ClassId → ClassId → Prop)
    (result : Heap target × Option Thrown) : Prop where
  unchanged : ∀ exc, specifiedException heap src srcPos dest destPos length = some exc →
    result.2.map Thrown.exc = some exc ∧ result.1 = heap
  whole : specifiedException heap src srcPos dest destPos length = none →
    (∀ i < length.toNat, Assignable heap src srcPos dest assignable i) →
    result.2 = none ∧ Copied heap src srcPos dest destPos result.1 length.toNat
  upTo : specifiedException heap src srcPos dest destPos length = none →
    ∀ k < length.toNat, (∀ i < k, Assignable heap src srcPos dest assignable i) →
    ¬ Assignable heap src srcPos dest assignable k →
    result.2.map Thrown.exc = some .arrayStore ∧
      Copied heap src srcPos dest destPos result.1 k

/-- An array of booleans, for an array of arrays of objects. -/
def BooleansForObjects (i : Nat) : Prop :=
  address (heap.element src (srcPos.toNat + i)) ≠ 0 ∧
    (heap (address (heap.element src (srcPos.toNat + i)))).descriptor = ⟨.primitive .boolean, 1⟩ ∧
    ∃ n, (heap dest).descriptor = ⟨.ordinary n, 2⟩

/-- The elements are moved without a look at each. -/
def Bulk : Prop :=
  ∃ srcComp destComp, (heap src).descriptor.oneFewerDim = some srcComp ∧
    (heap dest).descriptor.oneFewerDim = some destComp ∧ instanceof srcComp destComp = true

/-- What is copied from the element `k` on was there already, and the copy ends with an element that
is neither assignable nor an array of booleans. -/
def Unnoticed (assignable : ClassId → ClassId → Prop) (k : Nat) : Prop :=
  ∃ stop < length.toNat, k ≤ stop ∧
    (∀ i, k ≤ i → i < stop →
      (Assignable heap src srcPos dest assignable i ∨ BooleansForObjects heap src srcPos dest i) ∧
      heap.element src (srcPos.toNat + i) = heap.element dest (destPos.toNat + i)) ∧
    ¬ Assignable heap src srcPos dest assignable stop ∧
    ¬ BooleansForObjects heap src srcPos dest stop

/-- The first element that may not be assigned is looked at, and it is no array of booleans for an
array of arrays of objects, or nobody notices. -/
def Sound (assignable : ClassId → ClassId → Prop) : Prop :=
  specifiedException heap src srcPos dest destPos length = none →
    ∀ k < length.toNat, (∀ i < k, Assignable heap src srcPos dest assignable i) →
    ¬ Assignable heap src srcPos dest assignable k →
    ¬ Bulk instanceof heap src dest ∧
      Unnoticed heap src srcPos dest destPos length assignable k

end

end BJvm.ArrayCopy
